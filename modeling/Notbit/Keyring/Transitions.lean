import Notbit.Keyring.Tasks

/-!
# Transitions — the invariant through every function of the keyring

A function that moves a message on is given the message out of the invariant and `Ready`, and puts
it back; the others leave the messages and their tasks as they are.
-/

open Bytes Traced Notbit.Proto

namespace Notbit.Keyring

variable {ssl : OpenSSL} {loads strict : Prop} {env : Env ssl} {s s' : State ssl}
  {m m' : Message ssl} {out : Option Nat}

/-! ## 1. The cookies -/

theorem Message.cookies_eq {a b c : Option Nat} (h : m.cookies = (a, b, c)) :
    m.cryptoCookie = a ∧ m.powCookie = b ∧ m.storeCookie = c := by
  simpa only [Message.cookies, Prod.mk.injEq] using h

theorem State.cancel_none (s : State ssl) : s.cancel none = s := by
  simp [State.cancel]

/-- All tasks of a message. -/
def State.cancelAll (s : State ssl) (m : Message ssl) : State ssl :=
  ((s.cancel m.cryptoCookie).cancel m.powCookie).cancel m.storeCookie

theorem State.cancelAll_none (s : State ssl) (h : m.cookies = (none, none, none)) :
    s.cancelAll m = s := by
  obtain ⟨hcrypto, hpow, hstore⟩ := Message.cookies_eq h
  rw [State.cancelAll, hcrypto, hpow, hstore, State.cancel_none, State.cancel_none,
    State.cancel_none]

theorem Waits.cancelAll {t : Nat} {job : Job ssl} (h : Waits m t job) (s : State ssl) :
    s.cancelAll m = s.cancel (some t) := by
  rcases h.cookies_cases with hc | hc | hc <;>
    obtain ⟨hcrypto, hpow, hstore⟩ := Message.cookies_eq hc <;>
    rw [State.cancelAll, hcrypto, hpow, hstore] <;> simp only [State.cancel_none]

namespace Ready

variable {log : List (Effect ssl)}

theorem crypto (h : Ready loads log m) : m.cryptoCookie = none := (Message.cookies_eq h.cookies).1

theorem pow (h : Ready loads log m) : m.powCookie = none := (Message.cookies_eq h.cookies).2.1

theorem store (h : Ready loads log m) : m.storeCookie = none := (Message.cookies_eq h.cookies).2.2

end Ready

theorem State.core_unrefTrying (s : State ssl) (m : Message ssl) :
    (s.unrefTrying m).core = s.core := by
  unfold State.unrefTrying
  split <;> rfl

namespace Inv

theorem release (h : Inv loads strict s none) (hm : m ∈ s.messages) :
    Inv loads strict (s.cancelAll m) (some m.id) := by
  rcases h.working m hm nofun with hquiet | ⟨task, ht, hwaits⟩
  · rw [State.cancelAll_none s hquiet.1]
    exact h.of_quiet hm hquiet
  · rw [hwaits.cancelAll, ← hwaits.message]
    exact h.take ht

theorem unrefTrying (h : Inv loads strict s out) (m : Message ssl) :
    Inv loads strict (s.unrefTrying m) out :=
  h.congr (State.core_unrefTrying s m)

-- What `cancel_message_tasks` does to the fields of the message does not matter yet.
theorem cancelMessageTasks (h : Inv loads strict (s.cancelAll m) (some m.id)) :
    Inv loads strict (s.cancelMessageTasks m).1 (some m.id) :=
  (h.unrefTrying m).write rfl

theorem freeMessage (h : Inv loads strict (s.cancelAll m) (some m.id)) :
    Inv loads strict (s.freeMessage m) none :=
  h.cancelMessageTasks.free

theorem maybeDeleteMessageContent (h : Inv loads strict s out) (contentId : Nat) :
    Inv loads strict (s.maybeDeleteMessageContent contentId) out := by
  unfold State.maybeDeleteMessageContent
  split_ifs
  · exact h
  · exact h.emit (by simp)

/-! ## 2. Where a message goes next -/

theorem postMessage (h : Inv loads strict s (some m.id)) (hready : Ready loads s.log m)
    (hkey : m.toKey.isSome) : Inv loads strict (s.postMessage env m) none := by
  unfold State.postMessage
  split_ifs
  · exact h.settle rfl ⟨hready.cookies, .inr ⟨rfl, hkey⟩⟩
      ⟨fun _ => hready.getpubkey, fun _ _ => hready.msg, nofun, nofun⟩
  · refine h.start rfl (.loadContent rfl ?_ hkey)
      ⟨fun _ => hready.getpubkey, fun _ _ => hready.msg, nofun, nofun⟩
    simp [Message.cookies, hready.crypto, hready.pow]

-- A request that was interrupted must not count as sent.
theorem sendGetpubkeyRequest (h : Inv loads strict s (some m.id)) (hready : Ready loads s.log m)
    (hold : strict → m.getpubkeyInterrupted →
      maxAgeForType .getpubkey ≤ env.now - m.lastGetpubkeySendTime) :
    Inv loads strict (s.sendGetpubkeyRequest env m) none := by
  unfold State.sendGetpubkeyRequest
  split_ifs with hrecent
  · refine h.settle rfl ⟨hready.cookies, .inl rfl⟩
      ⟨fun _ => hready.getpubkey, fun _ _ => hready.msg, nofun, ?_⟩
    intro hstrict _
    rw [Bool.eq_false_iff]
    intro hinterrupted
    exact absurd hrecent (not_lt.mpr (hold hstrict hinterrupted))
  · refine h.start rfl (.getpubkeyPow rfl ?_ rfl ⟨_, length_window _ _ _, rfl⟩)
      ⟨fun hstate => absurd rfl hstate, fun _ _ => hready.msg, nofun, nofun⟩
    simp [Message.cookies, hready.crypto, hready.store]

theorem tryBlobForMessage (h : Inv loads strict s (some m.id)) (hready : Ready loads s.log m)
    (htrying : m.tryingPubkeyBlob.isSome) (blob : Blob) :
    Inv loads strict (s.tryBlobForMessage m blob) none := by
  refine h.start rfl (.checkPubkey blob rfl ?_ htrying)
    ⟨fun _ => hready.getpubkey, fun _ _ => hready.msg, nofun, nofun⟩
  simp [Message.cookies, hready.pow, hready.store]

theorem loadPubkeyFromStore (h : Inv loads strict s (some m.id)) (hready : Ready loads s.log m)
    (htrying : m.tryingPubkeyBlob.isSome) (hash : Hash) :
    Inv loads strict (s.loadPubkeyFromStore m hash) none := by
  refine h.start rfl (.loadPubkey hash rfl ?_ htrying)
    ⟨fun _ => hready.getpubkey, fun _ _ => hready.msg, nofun, nofun⟩
  simp [Message.cookies, hready.crypto, hready.pow]

end Inv

/-! ## 3. Pubkey objects -/

/-- The hash under which the network has the object of an entry. -/
def State.hashOf (s : State ssl) (p : Nat) : Hash := (s.pubkeyBlobs p).hash

namespace State

@[simp] theorem hashOf_setMessage (q : Nat) : (s.setMessage m).hashOf q = s.hashOf q := rfl

@[simp] theorem hashOf_cancel (c : Option Nat) (q : Nat) : (s.cancel c).hashOf q = s.hashOf q := rfl

@[simp] theorem hashOf_unrefPubkeyBlob (p q : Nat) : (s.unrefPubkeyBlob p).hashOf q = s.hashOf q := by
  by_cases hq : q = p
  · simp [hashOf, unrefPubkeyBlob, hq]
  · simp [hashOf, unrefPubkeyBlob, hq]

@[simp] theorem hashOf_unrefTrying (q : Nat) : (s.unrefTrying m).hashOf q = s.hashOf q := by
  unfold unrefTrying
  split
  · exact hashOf_unrefPubkeyBlob _ q
  · rfl

@[simp] theorem hashOf_cancelMessageTasks (q : Nat) :
    (s.cancelMessageTasks m).1.hashOf q = s.hashOf q :=
  hashOf_unrefTrying (s := s.cancelAll m) q

@[simp] theorem hashOf_setTrying (p q : Nat) : (s.setTrying m p).1.hashOf q = s.hashOf q := by
  rw [← hashOf_unrefTrying (s := s) (m := m) q]
  simp only [setTrying, hashOf_setMessage]
  by_cases hq : q = p
  · simp [hashOf, hq]
  · simp [hashOf, hq]

@[simp] theorem core_removePubkeyBlob (p : Nat) : (s.removePubkeyBlob p).core = s.core := by
  unfold removePubkeyBlob
  split_ifs <;> rfl

theorem core_insertPubkeyBlob (entry : PubkeyEntry) :
    (s.insertPubkeyBlob entry).2.core = s.core := by
  simp only [insertPubkeyBlob]
  split <;> rfl

theorem hashOf_insertPubkeyBlob (entry : PubkeyEntry) :
    (s.insertPubkeyBlob entry).2.hashOf (s.insertPubkeyBlob entry).1 = entry.hash := by
  simp only [insertPubkeyBlob]
  split <;> simp [hashOf]

theorem log_setTrying (p : Nat) : (s.setTrying m p).1.log = s.log :=
  congrArg (·.2.2.2.2) (core_unrefTrying s m)

theorem log_tryPubkeyBlobForMessage {p : Nat} (hs : s.tryPubkeyBlobForMessage env m p = some s') :
    s'.log = s.log := by
  rw [← log_setTrying (s := s) (m := m) p]
  simp only [tryPubkeyBlobForMessage] at hs
  split at hs <;> cases hs <;> rfl

theorem log_postMessage : (s.postMessage env m).log = s.log := by
  unfold postMessage
  split_ifs <;> rfl

theorem log_tryGroup (group : List Nat) : (s.tryGroup env group m).log = s.log := by
  induction group generalizing s m with
  | nil =>
    unfold tryGroup sendGetpubkeyRequest
    split_ifs <;> rfl
  | cons p group ih =>
    unfold tryGroup
    split
    next s' hs => exact log_tryPubkeyBlobForMessage hs
    next =>
      rw [← log_setTrying (s := s) (m := m) p]
      exact ih

theorem log_loadOrPost : (s.loadOrPost env m).log = s.log := by
  unfold loadOrPost
  split
  · exact log_tryGroup _
  · exact log_postMessage

theorem tryPubkeyBlobForMessage_eq_none {p : Nat} :
    s.tryPubkeyBlobForMessage env m p = none ↔ env.locate (s.hashOf p) = .nowhere := by
  have hhash : ((s.setTrying m p).1.pubkeyBlobs p).hash = s.hashOf p := hashOf_setTrying p p
  simp only [tryPubkeyBlobForMessage, hhash]
  split <;> simp_all

theorem hashOf_tryPubkeyBlobForMessage {p : Nat} (hs : s.tryPubkeyBlobForMessage env m p = some s')
    (q : Nat) : s'.hashOf q = s.hashOf q := by
  rw [← hashOf_setTrying (s := s) (m := m) p q]
  simp only [tryPubkeyBlobForMessage] at hs
  split at hs <;> cases hs <;> rfl

end State

namespace Inv

theorem setTrying (h : Inv loads strict s (some m.id)) (p : Nat) :
    Inv loads strict (s.setTrying m p).1 (some m.id) := by
  refine Inv.write (m := (s.setTrying m p).2) ?_ rfl
  exact (h.unrefTrying m).congr rfl

theorem ready_setTrying (hready : Ready loads s.log m) (p : Nat) :
    Ready loads (s.setTrying m p).1.log (s.setTrying m p).2 := by
  rw [State.log_setTrying]
  exact ⟨hready.cookies, hready.getpubkey, hready.msg⟩

theorem tryPubkeyBlobForMessage {p : Nat} (h : Inv loads strict s (some m.id))
    (hready : Ready loads s.log m) (hs : s.tryPubkeyBlobForMessage env m p = some s') :
    Inv loads strict s' none := by
  have hout := h.setTrying p
  have hagain := ready_setTrying hready p
  simp only [State.tryPubkeyBlobForMessage] at hs
  split at hs
  · cases hs
  · cases hs
    exact Inv.loadPubkeyFromStore (m := (s.setTrying m p).2) hout hagain rfl _
  · cases hs
    exact Inv.tryBlobForMessage (m := (s.setTrying m p).2) hout hagain rfl _

/-- The message is interrupted only while there is something else to try. -/
theorem tryGroup {group : List Nat} (h : Inv loads strict s (some m.id))
    (hready : Ready loads s.log m)
    (hold : strict → m.getpubkeyInterrupted →
      maxAgeForType .getpubkey ≤ env.now - m.lastGetpubkeySendTime ∨
        ∃ p ∈ group, env.locate (s.hashOf p) ≠ .nowhere) :
    Inv loads strict (s.tryGroup env group m) none := by
  induction group generalizing s m with
  | nil =>
    apply h.sendGetpubkeyRequest hready
    intro hstrict hinterrupted
    simpa using hold hstrict hinterrupted
  | cons p group ih =>
    unfold State.tryGroup
    split
    next s' hs => exact h.tryPubkeyBlobForMessage hready hs
    next hs =>
      have hnowhere := State.tryPubkeyBlobForMessage_eq_none.mp hs
      refine ih (m := (s.setTrying m p).2) (h.setTrying p) (ready_setTrying hready p) ?_
      intro hstrict hinterrupted
      refine (hold hstrict hinterrupted).imp_right ?_
      rintro ⟨q, hq, hfound⟩
      -- the first one was not found, so it is another one
      rcases List.mem_cons.mp hq with rfl | hq
      · exact absurd hnowhere hfound
      · rw [← State.hashOf_setTrying (s := s) (m := m) p q] at hfound
        exact ⟨q, hq, hfound⟩

theorem loadPublicKeyForMessage (h : Inv loads strict s (some m.id))
    (hready : Ready loads s.log m)
    (hold : strict → m.getpubkeyInterrupted →
      maxAgeForType .getpubkey ≤ env.now - m.lastGetpubkeySendTime ∨
        ∃ p ∈ s.pubkeyGroup m.ripeOrTag, env.locate (s.hashOf p) ≠ .nowhere) :
    Inv loads strict (s.loadPublicKeyForMessage env m) none :=
  h.tryGroup hready hold

theorem loadOrPost (h : Inv loads strict s (some m.id)) (hready : Ready loads s.log m)
    (hgoing : m.getpubkeyInterrupted = false) : Inv loads strict (s.loadOrPost env m) none := by
  unfold State.loadOrPost
  split
  next =>
    refine h.loadPublicKeyForMessage hready fun _ hinterrupted => ?_
    rw [hgoing] at hinterrupted
    cases hinterrupted
  next key hkey =>
    refine h.postMessage hready ?_
    rw [hkey]
    rfl

end Inv

namespace State

-- All that a getpubkey object can do is to have a key posted.
theorem handleGetpubkeyWith_cases {e : Env ssl} (version stream : Nat) (fits : Key ssl → Bool) :
    s.handleGetpubkeyWith e version stream fits = s ∨
      ∃ i key, s.handleGetpubkeyWith e version stream fits = s.maybePostKey e i key := by
  simp only [handleGetpubkeyWith]
  split
  · exact .inl rfl
  · split
    next i _ _ key _ =>
      split_ifs
      · exact .inl rfl
      · exact .inr ⟨i, key, rfl⟩
    next => exact .inl rfl

theorem handleGetpubkey_cases {e : Env ssl} (blob : Blob) :
    s.handleGetpubkey e blob = s ∨ ∃ i key, s.handleGetpubkey e blob = s.maybePostKey e i key := by
  simp only [handleGetpubkey]
  split
  · split_ifs
    · exact .inl rfl
    · exact .inl rfl
    · exact handleGetpubkeyWith_cases _ _ _
    · exact .inl rfl
    · exact handleGetpubkeyWith_cases _ _ _
  · exact .inl rfl

theorem log_handleGetpubkey {e : Env ssl} (blob : Blob) :
    s.log ⊆ (s.handleGetpubkey e blob).log := by
  rcases handleGetpubkey_cases (s := s) (e := e) blob with heq | ⟨i, key, heq⟩
  · rw [heq]
    exact List.Subset.refl _
  · rw [heq, maybePostKey]
    split_ifs
    · exact List.Subset.refl _
    · exact List.subset_append_left _ _

end State

/-- The message as `check_pubkey_blob_with_messages` finds it, with the request noted that it
interrupts. -/
def Message.interrupt (m : Message ssl) : Message ssl :=
  { m with
    getpubkeyInterrupted := m.getpubkeyInterrupted || m.state == .calculatingGetpubkeyPow }

theorem ready_interrupt (htimes : TimesOk loads strict s.log m)
    (hstate : m.state = .calculatingGetpubkeyPow ∨ m.state = .awaitingPubkey) :
    Ready loads (s.cancelMessageTasks m.interrupt).1.log (s.cancelMessageTasks m.interrupt).2 := by
  have hlog : (s.cancelMessageTasks m.interrupt).1.log = s.log :=
    congrArg (·.2.2.2.2) (State.core_unrefTrying (s.cancelAll m) m)
  rw [hlog]
  refine ⟨rfl, ?_, ?_⟩
  · by_cases hpow : m.state = .calculatingGetpubkeyPow
    · refine .inl ?_
      simp [State.cancelMessageTasks, Message.interrupt, hpow]
    · refine (htimes.getpubkey hpow).imp_left fun hinterrupted => ?_
      simp [State.cancelMessageTasks, Message.interrupt, hinterrupted]
  · apply htimes.msg
    · rcases hstate with hstate | hstate <;> simp [hstate]
    · rcases hstate with hstate | hstate <;> simp [hstate]

namespace Inv

theorem checkPubkeyBlobWithMessage {p : Nat} (h : Inv loads strict s none)
    (hfound : env.locate (s.hashOf p) ≠ .nowhere) (id : Nat) :
    Inv loads strict (s.checkPubkeyBlobWithMessage env p id) none ∧
      (s.checkPubkeyBlobWithMessage env p id).hashOf p = s.hashOf p := by
  unfold State.checkPubkeyBlobWithMessage
  split
  next => exact ⟨h, rfl⟩
  next m hfind =>
    have hm := List.mem_of_find?_eq_some hfind
    split_ifs with hmatch
    · have hreleased := h.release hm
      have hout : Inv loads strict (s.cancelMessageTasks m.interrupt).1 (some m.id) :=
        Inv.cancelMessageTasks (m := m.interrupt) hreleased
      have hready := ready_interrupt (h.times m hm nofun) hmatch.1
      simp only
      split
      next s' hs =>
        refine ⟨Inv.tryPubkeyBlobForMessage (m := (s.cancelMessageTasks m.interrupt).2) hout hready
          hs, ?_⟩
        rw [State.hashOf_tryPubkeyBlobForMessage hs]
        exact State.hashOf_cancelMessageTasks p
      next hs =>
        have hnowhere := State.tryPubkeyBlobForMessage_eq_none.mp hs
        rw [State.hashOf_cancelMessageTasks] at hnowhere
        exact absurd hnowhere hfound
    · exact ⟨h, rfl⟩

theorem checkPubkeyBlobWithMessages {p : Nat} (h : Inv loads strict s none)
    (hfound : env.locate (s.hashOf p) ≠ .nowhere) :
    Inv loads strict (s.checkPubkeyBlobWithMessages env p) none := by
  unfold State.checkPubkeyBlobWithMessages
  generalize s.messages.map (·.id) = ids
  induction ids generalizing s with
  | nil => exact h
  | cons id ids ih =>
    obtain ⟨hnext, hhash⟩ := h.checkPubkeyBlobWithMessage hfound id
    exact ih hnext (by rw [hhash]; exact hfound)

theorem handlePubkey {blob : Blob} (h : Inv loads strict s none)
    (hfound : env.locate (doubleHash ssl blob.data) ≠ .nowhere) :
    Inv loads strict (s.handlePubkey env blob) none := by
  unfold State.handlePubkey
  split
  next => exact h
  next entry hentry =>
    have hhash : entry.hash = doubleHash ssl blob.data := by
      simp only [State.pubkeyEntry] at hentry
      split at hentry
      · cases hentry
      · cases hentry
        rfl
    have hinsert := State.hashOf_insertPubkeyBlob (s := s) entry
    rw [← hhash, ← hinsert] at hfound
    exact (h.congr (State.core_insertPubkeyBlob entry)).checkPubkeyBlobWithMessages hfound

/-! ## 4. The other objects -/

theorem messageAcknowledged (h : Inv loads strict s none) (hm : m ∈ s.messages) :
    Inv loads strict (s.messageAcknowledged m) none :=
  ((h.release hm).freeMessage.maybeDeleteMessageContent m.contentId).saveMessages

theorem handleMsg (h : Inv loads strict s none) (blob : Blob) :
    Inv loads strict (s.handleMsg blob) none := by
  unfold State.handleMsg
  split
  · split
    next m hfind =>
      unfold State.acknowledgedMessage at hfind
      split_ifs at hfind
      exact h.messageAcknowledged (List.mem_of_find?_eq_some hfind)
    next => exact h.request rfl
  · exact h

theorem saveKeyring (h : Inv loads strict s out) (keys : List (KeyringKey ssl)) :
    Inv loads strict { s with keys }.saveKeyring out := by
  have hkeys : Inv loads strict { s with keys } out := h.congr rfl
  exact hkeys.emit (by simp)

theorem maybePostKey (h : Inv loads strict s out) (i : Nat) (key : Key ssl) :
    Inv loads strict (s.maybePostKey env i key) out := by
  unfold State.maybePostKey
  split_ifs
  · exact h
  · exact (h.saveKeyring _).request rfl

theorem handleGetpubkey (h : Inv loads strict s out) (blob : Blob) :
    Inv loads strict (s.handleGetpubkey env blob) out := by
  rcases State.handleGetpubkey_cases (s := s) (e := env) blob with heq | ⟨i, key, heq⟩
  · rw [heq]
    exact h
  · rw [heq]
    exact h.maybePostKey i key

-- An object that the network announces is in its inventory.
theorem announce (h : Inv loads strict s none) (blob : Blob) :
    Inv loads strict (s.announce env blob) none := by
  unfold State.announce
  split_ifs with hann
  · unfold State.newObjectCb
    split
    next => exact h.handleGetpubkey blob
    next htype => exact h.handlePubkey (env.announced blob hann htype)
    next => exact h.handleMsg blob
    next => exact h
  · exact h

theorem addBlob (h : Inv loads strict s none) (message : Option (Message ssl)) (blob : Blob) :
    Inv loads strict (s.addBlob env message blob) none :=
  Inv.announce (h.emit (by simp)) blob

theorem sendAcknowledgement (h : Inv loads strict s none) (ack : List UInt8) :
    Inv loads strict (s.sendAcknowledgement env ack) none := by
  simp only [State.sendAcknowledgement]
  split_ifs
  · exact h
  · split
    · exact h
    · exact Inv.announce (h.emit (by simp)) _

theorem addPublicKeyFromNetworkKeys (h : Inv loads strict s out) (address : Address)
    (signingKey encryptionKey : List UInt8) (nonceTrialsPerByte extraBytes : Nat) :
    Inv loads strict (s.addPublicKeyFromNetworkKeys address signingKey encryptionKey
      nonceTrialsPerByte extraBytes) out := by
  unfold State.addPublicKeyFromNetworkKeys
  split_ifs
  · exact h
  · exact h.request rfl

theorem decryptMsgCb (h : Inv loads strict s none) (timestamp : Int) (key : KeyringKey ssl)
    (plaintext : List UInt8) :
    Inv loads strict (s.decryptMsgCb env timestamp key plaintext) none := by
  simp only [State.decryptMsgCb]
  split
  · exact h
  · split_ifs
    · exact h
    · exact h
    · exact ((h.addPublicKeyFromNetworkKeys _ _ _ _ _).sendAcknowledgement _).emit (by simp)

theorem addPublicKey (h : Inv loads strict s out) (key : PublicKey ssl) :
    Inv loads strict (s.addPublicKey key) out := by
  unfold State.addPublicKey
  split_ifs
  · exact h
  · exact h.saveKeyring _

end Inv

end Notbit.Keyring
