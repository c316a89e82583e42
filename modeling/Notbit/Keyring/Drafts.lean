import Notbit.Keyring.ContentLoads
import Notbit.Keyring.Letters

/-!
# Drafts — the msg object of a message while it is being made (`ntb-keyring.c`)

A msg object is made in four callbacks: the content is loaded, the acknowledgement gets its nonce,
the crypto thread signs and encrypts, and the object gets its nonce.  Between them the draft is in
the fields of the message, and nothing else that happens touches a message in these states.
-/

open Bytes Traced Notbit.Proto

namespace Notbit.Keyring

variable {ssl : OpenSSL} {env : Env ssl} {s s' s'' : State ssl} {m m' : Message ssl} {p : Nat}

/-! ## 1. What leaves drafts alone -/

/-- The states in which the msg object of a message is being made. -/
def MessageState.drafting : MessageState → Bool
  | .calculatingAckdataPow | .createMsgBlob | .calculatingMsgPow => true
  | .generatingAckdata | .loadingPubkeyFromStore | .tryingBlob | .calculatingGetpubkeyPow
  | .awaitingPubkey | .loadingContent | .awaitingAcknowledgement => false

/-- The request that a draft be signed and encrypted. -/
def Job.signs : Job ssl → Bool
  | .createMsgBlob _ _ _ _ _ => true
  | .generateAckdata _ | .checkPubkey _ _ _ | .getpubkeyPow _ _ | .ackdataPow _ _
  | .msgPow _ _ _ _ | .loadPubkey _ _ | .loadContent _ _ | .createPubkeyBlob _ | .pubkeyPow _
  | .createPublicKey _ _ _ _ _ | .decryptMsg _ _ _ => false

/-- A msg object of a message goes to the network. -/
def Effect.posts : Effect ssl → Bool
  | .addBlob (some _) blob => blob.type == .msg
  | .addBlob none _ | .addObjectFromData _ | .saveKeys _ | .saveOutgoings _
  | .saveMessageContent _ _ | .deleteMessageContent _ | .saveMessage _ _ _ _
  | .loadedOutgoing _ _ => false

/-- No draft is begun or written to, none is given to the crypto thread and no msg object is posted. -/
structure Rests (s s' : State ssl) : Prop where
  messages : ∀ m ∈ s'.messages, m.state.drafting = true → m ∈ s.messages
  tasks : ∀ task ∈ s'.tasks, task.2.signs = true → task ∈ s.tasks
  log : ∃ rest, s'.log = s.log ++ rest ∧ ∀ e ∈ rest, e.posts = false

theorem Rests.refl (s : State ssl) : Rests s s :=
  ⟨fun _ hm _ => hm, fun _ ht _ => ht, [], (List.append_nil _).symm, by simp⟩

theorem Rests.trans (h : Rests s s') (h' : Rests s' s'') : Rests s s'' := by
  obtain ⟨rest, hlog, hposts⟩ := h.log
  obtain ⟨rest', hlog', hposts'⟩ := h'.log
  refine ⟨fun m hm hd => h.messages m (h'.messages m hm hd) hd,
    fun task ht hj => h.tasks task (h'.tasks task ht hj) hj, rest ++ rest', ?_, fun e he => ?_⟩
  · rw [hlog', hlog, List.append_assoc]
  · rcases List.mem_append.mp he with hold | hnew
    · exact hposts e hold
    · exact hposts' e hnew

theorem rests_of_eq (hmessages : s'.messages = s.messages) (htasks : s'.tasks = s.tasks)
    (hlog : s'.log = s.log) : Rests s s' :=
  ⟨fun _ hm _ => hmessages ▸ hm, fun _ ht _ => htasks ▸ ht, [],
    by rw [hlog, List.append_nil], by simp⟩

theorem rests_of_core (h : s'.core = s.core) : Rests s s' := by
  simp only [State.core, Prod.mk.injEq] at h
  exact rests_of_eq h.1 h.2.2.1 h.2.2.2.2

theorem rests_emit {effects : List (Effect ssl)} (h : ∀ e ∈ effects, e.posts = false) :
    Rests s (s.emit effects) :=
  ⟨fun _ hm _ => hm, fun _ ht _ => ht, effects, rfl, h⟩

theorem rests_saveMessages (s : State ssl) : Rests s s.saveMessages :=
  rests_emit (by simp [Effect.posts])

theorem rests_request {job : Job ssl} (h : job.signs = false) : Rests s (s.request job).2 := by
  refine ⟨fun _ hm _ => hm, fun task ht hj => ?_, [], (List.append_nil _).symm, by simp⟩
  rcases List.mem_append.mp ht with hold | hnew
  · exact hold
  · rw [List.mem_singleton.mp hnew, h] at hj
    cases hj

theorem rests_cancel (s : State ssl) (cookie : Option Nat) : Rests s (s.cancel cookie) :=
  ⟨fun _ hm _ => hm, fun _ ht _ => List.mem_of_mem_filter ht, [], (List.append_nil _).symm, by simp⟩

theorem rests_setMessage (h : m.state.drafting = false) : Rests s (s.setMessage m) := by
  refine ⟨fun m' hm' hd => ?_, fun _ ht _ => ht, [], (List.append_nil _).symm, by simp⟩
  rcases Inv.mem_setMessage.mp hm' with ⟨rfl, -⟩ | ⟨hold, -⟩
  · rw [h] at hd
    cases hd
  · exact hold

-- A request and the message that waits for it.
theorem rests_requestFor {job : Job ssl} (h : job.signs = false) (hm : m.state.drafting = false) :
    Rests s ((s.request job).2.setMessage m) := (rests_request h).trans (rests_setMessage hm)

theorem rests_foldl {α : Type} {f : State ssl → α → State ssl} (hf : ∀ s a, Rests s (f s a))
    (s : State ssl) (l : List α) : Rests s (l.foldl f s) := by
  induction l generalizing s with
  | nil => exact .refl s
  | cons a l ih => exact (hf s a).trans (ih (f s a))

/-! ## 2. Functions -/

theorem rests_unrefTrying (s : State ssl) (m : Message ssl) : Rests s (s.unrefTrying m) :=
  rests_of_core (State.core_unrefTrying s m)

theorem rests_cancelAll (s : State ssl) (m : Message ssl) : Rests s (s.cancelAll m) :=
  ((rests_cancel s _).trans (rests_cancel _ _)).trans (rests_cancel _ _)

theorem rests_cancelMessageTasks (h : m.state.drafting = false) :
    Rests s (s.cancelMessageTasks m).1 :=
  ((rests_cancelAll s m).trans (rests_unrefTrying _ m)).trans (rests_setMessage h)

-- What is written to a message that is freed does not matter.
theorem rests_freeMessage (s : State ssl) (m : Message ssl) : Rests s (s.freeMessage m) := by
  have hunref : Rests s ((s.cancelAll m).unrefTrying m) :=
    (rests_cancelAll s m).trans (rests_unrefTrying _ m)
  refine hunref.trans ⟨fun m' hm' hd => ?_, fun _ ht _ => ht, [], (List.append_nil _).symm, by simp⟩
  obtain ⟨hset, hother⟩ := List.mem_filter.mp hm'
  have hne : m'.id ≠ m.id := of_decide_eq_true hother
  rcases Inv.mem_setMessage.mp hset with ⟨rfl, -⟩ | ⟨hold, -⟩
  · exact absurd rfl hne
  · exact hold

theorem rests_postMessage (env : Env ssl) (s : State ssl) (m : Message ssl) :
    Rests s (s.postMessage env m) := by
  unfold State.postMessage
  split_ifs
  · exact rests_setMessage rfl
  · exact rests_requestFor rfl rfl

theorem rests_sendGetpubkeyRequest (env : Env ssl) (s : State ssl) (m : Message ssl) :
    Rests s (s.sendGetpubkeyRequest env m) := by
  unfold State.sendGetpubkeyRequest
  split_ifs
  · exact rests_setMessage rfl
  · exact rests_requestFor rfl rfl

theorem rests_setTrying (h : m.state.drafting = false) (p : Nat) :
    Rests s (s.setTrying m p).1 := by
  refine (rests_unrefTrying s m).trans ?_
  have hwrite : Rests (s.unrefTrying m) ((s.unrefTrying m).setMessage (s.setTrying m p).2) :=
    rests_setMessage h
  exact hwrite.trans (rests_of_eq rfl rfl rfl)

theorem rests_tryPubkeyBlobForMessage (h : m.state.drafting = false)
    (hs : s.tryPubkeyBlobForMessage env m p = some s') : Rests s s' := by
  have hset := rests_setTrying (s := s) h p
  simp only [State.tryPubkeyBlobForMessage] at hs
  split at hs
  · cases hs
  · cases hs
    exact hset.trans (rests_requestFor rfl rfl)
  · cases hs
    exact hset.trans (rests_requestFor rfl rfl)

theorem rests_tryGroup (env : Env ssl) (h : m.state.drafting = false) (group : List Nat) :
    Rests s (s.tryGroup env group m) := by
  induction group generalizing s m with
  | nil => exact rests_sendGetpubkeyRequest env s m
  | cons p group ih =>
    unfold State.tryGroup
    split
    next s' hs => exact rests_tryPubkeyBlobForMessage h hs
    next =>
      have hthere : (s.setTrying m p).2.state.drafting = false := h
      exact (rests_setTrying h p).trans (ih hthere)

theorem rests_loadOrPost (env : Env ssl) (h : m.state.drafting = false) :
    Rests s (s.loadOrPost env m) := by
  unfold State.loadOrPost
  split
  · exact rests_tryGroup env h _
  · exact rests_postMessage env s m

theorem rests_abandonPubkey (h : m.state.drafting = false)
    (hs : s.abandonPubkey env m = some s') : Rests s s' := by
  obtain ⟨p, -, heq⟩ := Option.bind_eq_some_iff.mp hs
  cases heq
  exact (rests_of_core (State.core_removePubkeyBlob p)).trans (rests_tryGroup env h _)

theorem rests_saveKeyring (s : State ssl) (keys : List (KeyringKey ssl)) :
    Rests s { s with keys }.saveKeyring := by
  have hkeys : Rests s { s with keys } := rests_of_eq rfl rfl rfl
  exact hkeys.trans (rests_emit (by simp [Effect.posts]))

theorem rests_addPublicKey (s : State ssl) (key : PublicKey ssl) :
    Rests s (s.addPublicKey key) := by
  unfold State.addPublicKey
  split_ifs
  · exact .refl s
  · exact rests_saveKeyring s _

theorem rests_handleGetpubkey (env : Env ssl) (s : State ssl) (blob : Blob) :
    Rests s (s.handleGetpubkey env blob) := by
  rcases State.handleGetpubkey_cases (s := s) (e := env) blob with h | ⟨i, key, h⟩
  · rw [h]
    exact .refl s
  · rw [h, State.maybePostKey]
    split_ifs
    · exact .refl s
    · exact (rests_saveKeyring s _).trans (rests_request rfl)

theorem rests_addPublicKeyFromNetworkKeys (s : State ssl) (address : Address)
    (signingKey encryptionKey : List UInt8) (nonceTrialsPerByte extraBytes : Nat) :
    Rests s (s.addPublicKeyFromNetworkKeys address signingKey encryptionKey nonceTrialsPerByte
      extraBytes) := by
  unfold State.addPublicKeyFromNetworkKeys
  split_ifs
  · exact .refl s
  · exact rests_request rfl

-- Only messages that look for a pubkey are touched.
theorem rests_checkPubkeyBlobWithMessage (env : Env ssl) (s : State ssl) (p id : Nat) :
    Rests s (State.checkPubkeyBlobWithMessage env p s id) := by
  unfold State.checkPubkeyBlobWithMessage
  split
  next => exact .refl s
  next m hfind =>
    split_ifs with hmatch
    · have hstate : m.state.drafting = false := by
        rcases hmatch.1 with h | h <;> rw [h] <;> rfl
      have hcancel : Rests s (s.cancelMessageTasks m.interrupt).1 :=
        rests_cancelMessageTasks (m := m.interrupt) hstate
      have hthere : (s.cancelMessageTasks m.interrupt).2.state.drafting = false := hstate
      dsimp only
      split
      next s' hs => exact hcancel.trans (rests_tryPubkeyBlobForMessage hthere hs)
      next => exact hcancel.trans (rests_setTrying hthere p)
    · exact .refl s

theorem rests_handlePubkey (env : Env ssl) (s : State ssl) (blob : Blob) :
    Rests s (s.handlePubkey env blob) := by
  unfold State.handlePubkey
  split
  next => exact .refl s
  next entry _ =>
    refine (rests_of_core (State.core_insertPubkeyBlob entry)).trans ?_
    exact rests_foldl (fun s id => rests_checkPubkeyBlobWithMessage env s _ id) _ _

theorem rests_messageAcknowledged (s : State ssl) (m : Message ssl) :
    Rests s (s.messageAcknowledged m) := by
  refine ((rests_freeMessage s m).trans ?_).trans (rests_saveMessages _)
  unfold State.maybeDeleteMessageContent
  split_ifs
  · exact .refl _
  · exact rests_emit (by simp [Effect.posts])

theorem rests_handleMsg (s : State ssl) (blob : Blob) : Rests s (s.handleMsg blob) := by
  unfold State.handleMsg
  split
  · split
    · exact rests_messageAcknowledged s _
    · exact rests_request rfl
  · exact .refl s

theorem rests_newObjectCb (env : Env ssl) (s : State ssl) (blob : Blob) :
    Rests s (s.newObjectCb env blob) := by
  unfold State.newObjectCb
  split
  · exact rests_handleGetpubkey env s blob
  · exact rests_handlePubkey env s blob
  · exact rests_handleMsg s blob
  · exact .refl s

theorem rests_announce (env : Env ssl) (s : State ssl) (blob : Blob) :
    Rests s (s.announce env blob) := by
  unfold State.announce
  split_ifs
  · exact rests_newObjectCb env s blob
  · exact .refl s

-- An object that is not a msg object of a message.
theorem rests_addBlob {message : Option (Message ssl)} {blob : Blob}
    (h : (Effect.addBlob message blob).posts = false) : Rests s (s.addBlob env message blob) := by
  have hemit : Rests s (s.emit [.addBlob message blob]) := rests_emit (by simp [h])
  exact hemit.trans (rests_announce env _ blob)

theorem rests_decryptMsgCb (env : Env ssl) (s : State ssl) (timestamp : Int)
    (key : KeyringKey ssl) (plaintext : List UInt8) :
    Rests s (s.decryptMsgCb env timestamp key plaintext) := by
  by_cases haccepts : ∃ msg, Accepts ssl key plaintext msg
  · obtain ⟨msg, haccepts⟩ := haccepts
    rw [decryptMsgCb_of_accepts env s timestamp haccepts, sendAcknowledgement_eq]
    have hnoted : Rests s (s.noteSender plaintext msg) :=
      rests_addPublicKeyFromNetworkKeys s _ _ _ _ _
    refine Rests.trans ?_ (rests_emit (by simp [Effect.posts]))
    split
    · exact hnoted
    · exact (hnoted.trans (rests_emit (by simp [Effect.posts]))).trans (rests_announce env _ _)
  · rw [not_exists] at haccepts
    rw [decryptMsgCb_of_not env s timestamp haccepts]
    exact .refl s

/-! ## 3. Callbacks that make no msg object -/

theorem rests_generateAckdataCb (env : Env ssl) (h : m.state.drafting = false)
    (ackdata : { bytes : List UInt8 // bytes.length = ackdataSize }) :
    Rests s (s.generateAckdataCb env m ackdata) := by
  have hset : Rests s (s.setMessage { m with ackdata, cryptoCookie := none }) := rests_setMessage h
  have hload : Rests _ ((s.setMessage { m with ackdata, cryptoCookie := none }).loadOrPost env
    { m with ackdata, cryptoCookie := none }) := rests_loadOrPost env h
  exact (hset.trans hload).trans (rests_saveMessages _)

theorem rests_checkPubkeyCb {key : Option (PublicKey ssl)} (h : m.state.drafting = false)
    (hs : s.checkPubkeyCb env m key = some s') : Rests s s' := by
  have hset : Rests s (s.setMessage { m with cryptoCookie := none }) := rests_setMessage h
  unfold State.checkPubkeyCb at hs
  cases key with
  | none => exact hset.trans (rests_abandonPubkey (m := { m with cryptoCookie := none }) h hs)
  | some key =>
    cases hs
    exact (hset.trans (rests_addPublicKey _ key)).trans (rests_postMessage env _ _)

theorem rests_loadPubkeyFromStoreCb {blob : Option Blob} (h : m.state.drafting = false)
    (hs : s.loadPubkeyFromStoreCb env m blob = some s') : Rests s s' := by
  have hset : Rests s (s.setMessage { m with storeCookie := none }) := rests_setMessage h
  unfold State.loadPubkeyFromStoreCb at hs
  cases blob with
  | none => exact hset.trans (rests_abandonPubkey (m := { m with storeCookie := none }) h hs)
  | some blob =>
    cases hs
    exact hset.trans (rests_requestFor rfl rfl)

theorem rests_getpubkeyPowCb {nonce : Nat} (h : m.state.drafting = false)
    (hblob : ∀ blob, m.blob = some blob → blob.type = .getpubkey)
    (hs : s.getpubkeyPowCb env m nonce = some s') : Rests s s' := by
  obtain ⟨blob, hget, hs⟩ := Option.bind_eq_some_iff.mp hs
  obtain ⟨-, -, hs⟩ := Option.bind_eq_some_iff.mp hs
  cases hs
  have hset : Rests s (s.setMessage { m with powCookie := none }) := rests_setMessage h
  have hadd : Rests (s.setMessage { m with powCookie := none })
      ((s.setMessage { m with powCookie := none }).addBlob env (some { m with powCookie := none })
        { blob with data := patch blob.data 0 (toBE 8 nonce) }) := by
    apply rests_addBlob
    rw [Effect.posts, hblob blob hget]
    rfl
  have hwait : Rests _ (((s.setMessage { m with powCookie := none }).addBlob env
      (some { m with powCookie := none })
        { blob with data := patch blob.data 0 (toBE 8 nonce) }).setMessage
          { m with powCookie := none, blob := none, state := .awaitingPubkey }) :=
    rests_setMessage rfl
  exact ((hset.trans hadd).trans hwait).trans (rests_saveMessages _)

/-! ## 4. Drafts -/

/-- The message with what goes into its object; `saved` are the contents that were saved. -/
structure WrittenBy (saved : Nat → Option (List UInt8)) (m : Message ssl) (o : Outgoing ssl) :
    Prop where
  fromKey : o.fromKey = m.fromKey
  toAddress : o.toAddress = m.toAddress
  contentEncoding : o.contentEncoding = m.contentEncoding
  ackdata : o.ackdata = m.ackdata.val
  content : saved m.contentId = some o.content

variable {saved saved' : Nat → Option (List UInt8)}

/-- What is in the fields of a message whose object is being made. -/
structure Drafted (saved : Nat → Option (List UInt8)) (m : Message ssl) : Prop where
  loaded : m.state = .calculatingAckdataPow → ∃ o fill header built, WrittenBy saved m o ∧
    loadMessageContent fill header o = some built ∧
    m.blob = some { type := .msg, data := built.data } ∧
    m.blobAckdataOffset = built.ackdataOffset ∧ m.blobAckdataLength = built.ackdataLength
  complete : m.state = .createMsgBlob → ∃ o ackNonce, WrittenBy saved m o ∧
    m.blob = some { type := .msg, data := signedPart o ackNonce }
  encrypted : m.state = .calculatingMsgPow → ∃ l : Letter ssl, WrittenBy saved m l.outgoing ∧
    m.toKey = some l.toKey ∧
    HasBody m.blob .msg (State.msgFields l.env l.time l.outgoing.fromKey l.toKey l.signed)

/-- Every draft is that of its message, and what the crypto thread is given is the draft. -/
structure Authored (saved : Nat → Option (List UInt8)) (s : State ssl) : Prop where
  drafts : ∀ m ∈ s.messages, Drafted saved m
  requests : ∀ t id timestamp fromKey toKey content,
    (t, .createMsgBlob id timestamp fromKey toKey content) ∈ s.tasks →
      ∀ m ∈ s.messages, m.id = id → m.blob = some { type := .msg, data := content }

/-- A msg object of a message is a letter with its fields, encrypted for a key of its recipient. -/
def PostedBy (saved : Nat → Option (List UInt8)) (e : Effect ssl) : Prop :=
  ∀ m blob, e = .addBlob (some m) blob → blob.type = .msg →
    ∃ l : Letter ssl, blob = l.object ∧ WrittenBy saved m l.outgoing ∧
      l.toKey.address.equal m.toAddress = true

theorem drafted_of_not (h : m.state.drafting = false) : Drafted saved m where
  loaded hstate := by
    rw [hstate] at h
    cases h
  complete hstate := by
    rw [hstate] at h
    cases h
  encrypted hstate := by
    rw [hstate] at h
    cases h

theorem WrittenBy.congr {o : Outgoing ssl} (h : WrittenBy saved m o)
    (hsaved : saved' m.contentId = saved m.contentId) : WrittenBy saved' m o :=
  ⟨h.fromKey, h.toAddress, h.contentEncoding, h.ackdata, hsaved.trans h.content⟩

-- A message that is written again with the same letter.
theorem WrittenBy.again {o : Outgoing ssl} (h : WrittenBy saved m o)
    (hfrom : m'.fromKey = m.fromKey) (hletter : m'.letter = m.letter)
    (hencoding : m'.contentEncoding = m.contentEncoding) (hackdata : m'.ackdata = m.ackdata) :
    WrittenBy saved m' o := by
  obtain ⟨hto, hcontent⟩ := Prod.mk.inj hletter
  exact ⟨h.fromKey.trans hfrom.symm, h.toAddress.trans hto.symm,
    h.contentEncoding.trans hencoding.symm, by rw [h.ackdata, hackdata], by
      rw [hcontent]; exact h.content⟩

theorem Drafted.congr (h : Drafted saved m) (hsaved : saved' m.contentId = saved m.contentId) :
    Drafted saved' m where
  loaded hstate := by
    obtain ⟨o, fill, header, built, ho, hrest⟩ := h.loaded hstate
    exact ⟨o, fill, header, built, ho.congr hsaved, hrest⟩
  complete hstate := by
    obtain ⟨o, ackNonce, ho, hrest⟩ := h.complete hstate
    exact ⟨o, ackNonce, ho.congr hsaved, hrest⟩
  encrypted hstate := by
    obtain ⟨l, ho, hrest⟩ := h.encrypted hstate
    exact ⟨l, ho.congr hsaved, hrest⟩

-- Drafts that are not touched stay what they are, when the contents in use do.
theorem Authored.kept {loads strict : Prop} (h : Authored saved s)
    (hmessages : ∀ m ∈ s'.messages, m.state.drafting = true → m ∈ s.messages)
    (htasks : ∀ task ∈ s'.tasks, task.2.signs = true → task ∈ s.tasks)
    (hwaits : Inv loads strict s' none)
    (hsaved : ∀ m ∈ s.messages, saved' m.contentId = saved m.contentId) : Authored saved' s' where
  drafts m hm := by
    by_cases hstate : m.state.drafting = true
    · have hold := hmessages m hm hstate
      exact (h.drafts m hold).congr (hsaved m hold)
    · exact drafted_of_not (Bool.eq_false_iff.mpr hstate)
  requests t id timestamp fromKey toKey content ht m hm hid := by
    have hold := htasks _ ht rfl
    refine h.requests t id timestamp fromKey toKey content hold m ?_ hid
    obtain ⟨-, m', hm', hwaiting⟩ := hwaits.owned _ ht id rfl
    dsimp only at hwaiting
    have hsame : m' = m := hwaits.eq_of_id hm' hm
      ((Option.some.inj (hwaiting.message : some id = some m'.id)).symm.trans hid.symm)
    subst hsame
    apply hmessages m' hm
    cases hwaiting with
    | createMsgBlob _ _ hstate _ _ =>
      rw [hstate]
      rfl

theorem Authored.rests {loads strict : Prop} (h : Authored saved s) (hrests : Rests s s')
    (hwaits : Inv loads strict s' none) : Authored saved s' :=
  h.kept hrests.messages hrests.tasks hwaits fun _ _ => rfl

/-! ## 5. The callbacks that make the object -/

section Callbacks

variable {loads strict : Prop} {t t' id nonce : Nat} {job : Job ssl}

/-- A message is written after its task has ended. -/
theorem Authored.wrote (h : Authored saved s) (hdraft : Drafted saved m')
    (hmessages : ∀ old ∈ s'.messages, old = m' ∨ old ∈ s.messages ∧ old.id ≠ m'.id)
    (htasks : ∀ task ∈ s'.tasks, task ∈ s.tasks ∧ task.2.message ≠ some m'.id ∨
      ∀ timestamp fromKey toKey content,
        task.2 = .createMsgBlob m'.id timestamp fromKey toKey content →
          m'.blob = some { type := .msg, data := content })
    (howner : ∀ task ∈ s'.tasks, task ∉ s.tasks → task.2.message = some m'.id) :
    Authored saved s' where
  drafts old hold := by
    rcases hmessages old hold with rfl | ⟨hmem, -⟩
    · exact hdraft
    · exact h.drafts old hmem
  requests t id timestamp fromKey toKey content ht old hold hid := by
    rcases htasks _ ht with ⟨hmem, hne⟩ | hnew
    · rcases hmessages old hold with rfl | ⟨hthere, -⟩
      · exact absurd (congrArg some hid.symm) hne
      · exact h.requests t id timestamp fromKey toKey content hmem old hthere hid
    · by_cases hmem : (t, Job.createMsgBlob id timestamp fromKey toKey content) ∈ s.tasks
      · rcases hmessages old hold with rfl | ⟨hthere, -⟩
        · subst hid
          exact hnew timestamp fromKey toKey content rfl
        · exact h.requests t id timestamp fromKey toKey content hmem old hthere hid
      · have howned : id = m'.id := Option.some.inj (howner _ ht hmem)
        subst howned
        rcases hmessages old hold with rfl | ⟨-, hne⟩
        · exact hnew timestamp fromKey toKey content rfl
        · exact absurd hid hne

-- The message of a task that has ended asks for the next one.
theorem Authored.asked (h : Authored saved s) (hwaits : Inv loads strict s none)
    (ht : (t, job) ∈ s.tasks) (hdraft : Drafted saved m') (hmessage : job.message = some m'.id)
    {next : Job ssl} (hnext : next.message = some m'.id)
    (hsigns : ∀ timestamp fromKey toKey content,
      next = .createMsgBlob m'.id timestamp fromKey toKey content →
        m'.blob = some { type := .msg, data := content })
    (hmessages : ∀ old ∈ s'.messages, old = m' ∨ old ∈ s.messages ∧ old.id ≠ m'.id)
    (htasks : s'.tasks = (s.cancel (some t)).tasks ++ [(t', next)]) : Authored saved s' := by
  refine h.wrote hdraft hmessages (fun task htask => ?_) fun task htask hnew => ?_
  · rw [htasks] at htask
    rcases List.mem_append.mp htask with hold | hlast
    · refine .inl ⟨List.mem_of_mem_filter hold, fun howned => ?_⟩
      have hcancelled := hwaits.take ht
      exact (hcancelled.owned task hold m'.id howned).1 hmessage.symm
    · rw [List.mem_singleton.mp hlast]
      exact .inr hsigns
  · rw [htasks] at htask
    rcases List.mem_append.mp htask with hold | hlast
    · exact absurd (List.mem_of_mem_filter hold) hnew
    · rw [List.mem_singleton.mp hlast]
      exact hnext

-- The message is written where it stood.
theorem mem_written {old : Message ssl} (hold : old ∈ (s.setMessage m).messages) :
    old = m ∨ old ∈ s.messages ∧ old.id ≠ m.id :=
  (Inv.mem_setMessage.mp hold).imp_left And.left

theorem Authored.loadMessageContentCb {content : List UInt8} (h : Authored saved s)
    (hwaits : Inv loads strict s none) (ht : (t, job) ∈ s.tasks)
    (hmessage : job.message = some m.id) (hcontent : saved m.contentId = some content)
    (hs : (s.cancel (some t)).loadMessageContentCb env m (some content) = some s') :
    Authored saved s' ∧ s'.log = s.log := by
  obtain ⟨built, hbuilt, hs⟩ := Option.bind_eq_some_iff.mp hs
  cases hs
  refine ⟨?_, rfl⟩
  have hdraft : Drafted saved { m with
      storeCookie := none, blob := some { type := .msg, data := built.data }
      blobAckdataOffset := built.ackdataOffset, blobAckdataLength := built.ackdataLength
      state := .calculatingAckdataPow, powCookie := some s.nextTask } := by
    refine ⟨fun _ => ?_, fun hnext => ?_, fun hnext => ?_⟩
    · exact ⟨_, env.fill, env.header, built, ⟨rfl, rfl, rfl, rfl, hcontent⟩, hbuilt, rfl, rfl, rfl⟩
    · cases hnext
    · cases hnext
  refine h.asked hwaits ht hdraft hmessage rfl ?_ (fun old hold => ?_) rfl
  · intro timestamp fromKey toKey content heq
    cases heq
  · rcases mem_written hold with rfl | ⟨hmem, hne⟩
    · exact .inl rfl
    · rcases mem_written hmem with rfl | hother
      · exact absurd rfl hne
      · exact .inr hother

theorem Authored.ackdataPowDone (h : Authored saved s) (hwaits : Inv loads strict s none)
    (ht : (t, job) ∈ s.tasks) (hmessage : job.message = some m.id) (hm : m ∈ s.messages)
    (hstate : m.state = .calculatingAckdataPow)
    (hs : (s.cancel (some t)).ackdataPowDone env m nonce = some s') :
    Authored saved s' ∧ s'.log = s.log := by
  obtain ⟨o, fill, header, built, ho, hbuilt, hblob, hoffset, hlength⟩ :=
    (h.drafts m hm).loaded hstate
  obtain ⟨built', hbuilt', hdata⟩ := ackdataPowCb_loadMessageContent fill header o nonce
  obtain rfl := Option.some.inj (hbuilt.symm.trans hbuilt')
  have hwritten : (ackdataPowCb ssl nonce
      { data := built.data, ackdataOffset := m.blobAckdataOffset
        ackdataLength := m.blobAckdataLength }).data = signedPart o nonce := by
    rw [hoffset, hlength]
    exact hdata
  obtain ⟨blob, hget, hs⟩ := Option.bind_eq_some_iff.mp hs
  obtain ⟨toKey, htoKey, hs⟩ := Option.bind_eq_some_iff.mp hs
  obtain rfl := Option.some.inj (hblob.symm.trans hget)
  cases hs
  refine ⟨?_, rfl⟩
  have hdraft : Drafted saved { m with
      powCookie := none
      blob := some
        { type := .msg
          data := (ackdataPowCb ssl nonce
            { data := built.data, ackdataOffset := m.blobAckdataOffset
              ackdataLength := m.blobAckdataLength }).data }
      lastMsgSendTime := env.now + env.jitter m.id
      state := .createMsgBlob
      cryptoCookie := some s.nextTask } := by
    refine ⟨fun hnext => ?_, fun _ => ?_, fun hnext => ?_⟩
    · cases hnext
    · exact ⟨o, nonce, ho.again rfl rfl rfl rfl, by rw [hwritten]⟩
    · cases hnext
  refine h.asked hwaits ht hdraft hmessage rfl ?_ (fun old hold => ?_) rfl
  · intro timestamp fromKey toKey' content heq
    cases heq
    rfl
  · have hthere := mem_written hold
    exact hthere

theorem Authored.createMsgBlobCb {timestamp : Int} {fromKey : Key ssl} {toKey : PublicKey ssl}
    {content : List UInt8} (h : Authored saved s) (hwaits : Inv loads strict s none)
    (ht : (t, .createMsgBlob id timestamp fromKey toKey content) ∈ s.tasks) (hm : m ∈ s.messages)
    (hwaiting : Waits m t (.createMsgBlob id timestamp fromKey toKey content))
    (hs : (s.cancel (some t)).createMsgBlobCb m
      { type := .msg
        data := window env.fill env.header.length 8 ++
          State.msgFields env timestamp fromKey toKey content } = some s') :
    Authored saved s' ∧ s'.log = s.log := by
  have hid : m.id = id := Option.some.inj (hwaiting.message.symm.trans rfl)
  have hblob := h.requests t id timestamp fromKey toKey content ht m hm hid
  cases hwaiting with
  | createMsgBlob _ _ hstate hcookies hkey =>
    obtain ⟨o, ackNonce, ho, hdraft⟩ := (h.drafts m hm).complete hstate
    obtain ⟨-, rfl⟩ := Blob.mk.inj (Option.some.inj (hblob.symm.trans hdraft))
    obtain ⟨key, htoKey, hs⟩ := Option.bind_eq_some_iff.mp hs
    cases hs
    refine ⟨?_, rfl⟩
    have hdraft : Drafted saved { m with
        cryptoCookie := none
        blob := some
          { type := .msg
            data := window env.fill env.header.length 8 ++
              State.msgFields env m.lastMsgSendTime m.fromKey toKey (signedPart o ackNonce) }
        state := .calculatingMsgPow
        powCookie := some s.nextTask } := by
      refine ⟨fun hnext => ?_, fun hnext => ?_, fun _ => ?_⟩
      · cases hnext
      · cases hnext
      · refine ⟨{ outgoing := o, toKey, ackNonce, env, time := m.lastMsgSendTime, nonce := 0 },
          ho.again rfl rfl rfl rfl, hkey, window env.fill env.header.length 8,
          length_window _ _ _, ?_⟩
        dsimp only
        rw [ho.fromKey]
        rfl
    refine h.asked hwaits ht hdraft rfl rfl ?_ (fun old hold => ?_) rfl
    · intro timestamp fromKey toKey' content heq
      cases heq
    · have hthere := mem_written hold
      exact hthere

/-- The object is posted, and the message is written when the network has it. -/
theorem Authored.msgPowCb (h : Authored saved s) (hm : m ∈ s.messages) (hmatched : m.Matched)
    (hstate : m.state = .calculatingMsgPow) (hwaits : Inv loads strict s' none)
    (hs : (s.cancel (some t)).msgPowCb env m nonce = some s') :
    Authored saved s' ∧ ∃ rest, s'.log = s.log ++ rest ∧ ∀ e ∈ rest, PostedBy saved e := by
  obtain ⟨l, hl, htoKey, hole, hhole, hblob⟩ := (h.drafts m hm).encrypted hstate
  obtain ⟨blob, hget, hs⟩ := Option.bind_eq_some_iff.mp hs
  obtain rfl := Option.some.inj (hblob.symm.trans hget)
  obtain ⟨-, -, hs⟩ := Option.bind_eq_some_iff.mp hs
  cases hs
  let posted : Letter ssl := { l with nonce }
  have hobject : posted.object = { type := .msg
                                   data := patch (hole ++ State.msgFields l.env l.time
                                     l.outgoing.fromKey l.toKey l.signed) 0 (toBE 8 nonce) } := by
    rw [patch_hole hhole]
    rfl
  rw [← hobject] at hwaits ⊢
  let there := (s.cancel (some t)).setMessage { m with powCookie := none }
  have hannounced : Rests (there.emit [.addBlob (some { m with powCookie := none }) posted.object])
      (there.addBlob env (some { m with powCookie := none }) posted.object) :=
    rests_announce env _ _
  obtain ⟨rest, hlog, hposts⟩ := hannounced.log
  obtain ⟨waiting, hsaved⟩ : ∃ waiting, (((there.addBlob env (some { m with powCookie := none })
      posted.object).setMessage { m with
        powCookie := none, blob := none, state := .awaitingAcknowledgement }).saveMessages).log =
      (there.addBlob env (some { m with powCookie := none }) posted.object).log ++
        [.saveOutgoings waiting] := ⟨_, rfl⟩
  refine ⟨h.kept (fun m' hm' hdraft => ?_) (fun task htask hsigns => ?_) hwaits fun _ _ => rfl, ?_⟩
  · rcases mem_written hm' with rfl | ⟨hold, hne⟩
    · cases hdraft
    · rcases mem_written (hannounced.messages m' hold hdraft) with rfl | ⟨hmem, -⟩
      · exact absurd rfl hne
      · exact hmem
  · exact List.mem_of_mem_filter (hannounced.tasks task htask hsigns)
  · refine ⟨([.addBlob (some { m with powCookie := none }) posted.object] ++ rest) ++
      [.saveOutgoings waiting], ?_, ?_⟩
    · refine hsaved.trans ?_
      rw [hlog, State.emit, ← List.append_assoc, ← List.append_assoc]
      rfl
    · intro e he m' blob heq htype
      subst heq
      rw [List.mem_append, List.mem_append] at he
      rcases he with (hnew | hrest) | hlast
      · cases List.mem_singleton.mp hnew
        exact ⟨posted, rfl, hl.again rfl rfl rfl rfl, hmatched _ htoKey⟩
      · have hnot := hposts _ hrest
        rw [Effect.posts, htype] at hnot
        cases hnot
      · cases List.mem_singleton.mp hlast

end Callbacks

/-! ## 6. Events -/

-- A message is added that is no draft.
theorem rests_create (h : m.state.drafting = false) :
    Rests s { s with messages := s.messages ++ [m], nextMessage := s.nextMessage + 1 } := by
  refine ⟨fun m' hm' hd => ?_, fun _ ht _ => ht, [], (List.append_nil _).symm, by simp⟩
  rcases List.mem_append.mp hm' with hold | hnew
  · exact hold
  · rw [List.mem_singleton.mp hnew, h] at hd
    cases hd

theorem rests_sendTo (fromKey : Key ssl) (contentEncoding : CInt) (contentId : Nat)
    (uninitialised : { bytes : List UInt8 // bytes.length = ackdataSize }) (s : State ssl)
    (toAddress : Address) :
    Rests s (s.sendTo fromKey contentEncoding contentId uninitialised toAddress) := by
  have hcreate : Rests s
      (s.createMessage fromKey toAddress contentEncoding contentId uninitialised).2 :=
    rests_create rfl
  exact hcreate.trans (rests_requestFor rfl rfl)

theorem rests_sendMessage (s : State ssl) (fromAddress : Address) (toAddresses : List Address)
    (contentEncoding : CInt) (content : List UInt8)
    (uninitialised : { bytes : List UInt8 // bytes.length = ackdataSize }) :
    Rests s (s.sendMessage fromAddress toAddresses contentEncoding content uninitialised) := by
  unfold State.sendMessage
  split
  · exact .refl s
  · split_ifs
    · exact .refl s
    · have hnext : Rests s { s with nextMessageContentId := s.nextMessageContentId + 1 } :=
        rests_of_eq rfl rfl rfl
      refine (hnext.trans (rests_emit ?_)).trans (rests_foldl (rests_sendTo _ _ _ _) _ toAddresses)
      simp [Effect.posts]

theorem rests_resendMessage (env : Env ssl) (s : State ssl) (id : Nat) :
    Rests s (s.resendMessage env id) := by
  unfold State.resendMessage
  split
  · exact .refl s
  · split
    · exact rests_sendGetpubkeyRequest env s _
    · exact rests_postMessage env s _
    · exact .refl s

theorem rests_gcTimeoutCb (s : State ssl) (now : Int) : Rests s (s.gcTimeoutCb now) := by
  unfold State.gcTimeoutCb
  generalize s.pubkeyBlobList = l
  refine rests_foldl (fun s p => ?_) s l
  split_ifs
  · exact rests_of_core (State.core_removePubkeyBlob p)
  · exact .refl s

theorem rests_forEachOutgoingCb (env : Env ssl) (s : State ssl) (record : Record) :
    Rests s (s.forEachOutgoingCb env record) := by
  unfold State.forEachOutgoingCb
  extract_lets s₁
  have hskip : Rests s s₁ := by
    unfold s₁
    split_ifs
    · exact rests_of_eq rfl rfl rfl
    · exact .refl s
  clear_value s₁
  split
  next => exact hskip
  next fromKey _ =>
    have hcreate : Rests s₁ (s₁.createMessage fromKey record.toAddress record.contentEncoding
        record.contentId record.ackdata).2 := rests_create rfl
    have hloaded : Rests s₁ (s₁.createLoaded fromKey record).2 :=
      (hcreate.trans (rests_setMessage rfl)).trans (rests_emit (by simp [Effect.posts]))
    exact (hskip.trans hloaded).trans (rests_loadOrPost env rfl)

/-- After a new start there are no drafts, and nothing has been posted. -/
theorem authored_restart {loads strict : Prop} {keys : List (KeyringKey ssl)} {pubkeys : List Blob}
    {records : List Record} (hwaits : Inv loads strict (s.restart env keys pubkeys records) none) :
    Authored saved (s.restart env keys pubkeys records) ∧
      ∃ rest, (s.restart env keys pubkeys records).log = s.log ++ rest ∧
        ∀ e ∈ rest, e.posts = false := by
  let s₀ : State ssl :=
    { keys, nextTask := s.nextTask, nextMessage := s.nextMessage, log := s.log }
  have hrests : Rests s₀ (s.restart env keys pubkeys records) :=
    (rests_foldl (rests_handlePubkey env) s₀ pubkeys).trans
      (rests_foldl (rests_forEachOutgoingCb env) _ records)
  have hempty : Authored saved s₀ :=
    ⟨fun _ hm => absurd hm List.not_mem_nil, fun _ _ _ _ _ _ ht => absurd ht List.not_mem_nil⟩
  exact ⟨hempty.rests hrests hwaits, hrests.log⟩

theorem postedBy_of_not {e : Effect ssl} (h : e.posts = false) : PostedBy saved e := by
  intro m blob heq htype
  rw [heq, Effect.posts, htype] at h
  cases h

theorem Authored.rested {loads strict : Prop} (h : Authored saved s) (hrests : Rests s s')
    (hwaits : Inv loads strict s' none) :
    Authored saved s' ∧ ∃ rest, s'.log = s.log ++ rest ∧ ∀ e ∈ rest, PostedBy saved e := by
  obtain ⟨rest, hlog, hposts⟩ := hrests.log
  exact ⟨h.rests hrests hwaits, rest, hlog, fun e he => postedBy_of_not (hposts e he)⟩

/-- A callback makes a draft of its message, posts it or leaves all drafts alone. -/
theorem Authored.callback {loads strict : Prop} {t : Nat} {job : Job ssl} {result : Result ssl}
    (h : Authored saved s) (hlettered : Lettered s) (hwaits : Inv loads strict s none)
    (hwaits' : Inv loads strict s' none)
    (ht : (t, job) ∈ s.tasks)
    (hcontent : ∀ id contentId content, job = .loadContent id contentId →
      result = .content (some content) → saved contentId = some content)
    (hs : callback env (s.cancel (some t)) job result = some s') :
    Authored saved s' ∧ ∃ rest, s'.log = s.log ++ rest ∧ ∀ e ∈ rest, PostedBy saved e := by
  have hcancel : Rests s (s.cancel (some t)) := rests_cancel s (some t)
  have hquiet : Authored saved s' ∧ s'.log = s.log →
      Authored saved s' ∧ ∃ rest, s'.log = s.log ++ rest ∧ ∀ e ∈ rest, PostedBy saved e := by
    rintro ⟨hauthored, hlog⟩
    exact ⟨hauthored, [], by rw [hlog, List.append_nil], by simp⟩
  unfold Keyring.callback at hs
  split at hs
  next id ackdata =>
    obtain ⟨m, hfind, hs⟩ := Option.bind_eq_some_iff.mp hs
    cases hs
    obtain ⟨-, -, hwaiting, -, -⟩ := hwaits.taken ht rfl hfind
    have hstate : m.state.drafting = false := by
      cases hwaiting with
      | generateAckdata hstate _ => rw [hstate]; rfl
    exact h.rested (hcancel.trans (rests_generateAckdataCb env hstate ackdata)) hwaits'
  next id address blob =>
    obtain ⟨m, hfind, hs⟩ := Option.bind_eq_some_iff.mp hs
    obtain ⟨key, -, hs⟩ := Option.bind_eq_some_iff.mp hs
    obtain ⟨-, -, hwaiting, -, -⟩ := hwaits.taken ht rfl hfind
    have hstate : m.state.drafting = false := by
      cases hwaiting with
      | checkPubkey _ hstate _ _ => rw [hstate]; rfl
    exact h.rested (hcancel.trans (rests_checkPubkeyCb hstate hs)) hwaits'
  next id timestamp fromKey toKey content =>
    obtain ⟨m, hfind, hs⟩ := Option.bind_eq_some_iff.mp hs
    obtain ⟨hm, -, hwaiting, -, -⟩ := hwaits.taken ht rfl hfind
    exact hquiet (h.createMsgBlobCb hwaits ht hm hwaiting hs)
  next id payload nonce =>
    obtain ⟨m, hfind, hdone⟩ := Option.bind_eq_some_iff.mp hs
    obtain ⟨-, -, hwaiting, -, -⟩ := hwaits.taken ht rfl hfind
    cases hwaiting with
    | getpubkeyPow hstate _ _ hblob =>
      refine h.rested (hcancel.trans (rests_getpubkeyPowCb (by rw [hstate]; rfl) ?_ hdone)) hwaits'
      obtain ⟨hole, -, hblob⟩ := hblob
      intro blob hget
      rw [← Option.some.inj (hblob.symm.trans hget)]
  next id payload nonce =>
    obtain ⟨m, hfind, hs⟩ := Option.bind_eq_some_iff.mp hs
    obtain ⟨hm, hid, hwaiting, -, -⟩ := hwaits.taken ht rfl hfind
    have hstate : m.state = .calculatingAckdataPow := by
      cases hwaiting with
      | ackdataPow _ hstate _ _ _ => exact hstate
    exact hquiet (h.ackdataPowDone hwaits ht (congrArg some hid.symm) hm hstate hs)
  next id payload extraBytes trialsPerByte nonce =>
    obtain ⟨m, hfind, hs⟩ := Option.bind_eq_some_iff.mp hs
    obtain ⟨hm, -, hwaiting, -, -⟩ := hwaits.taken ht rfl hfind
    have hstate : m.state = .calculatingMsgPow := by
      cases hwaiting with
      | msgPow _ _ _ _ _ hstate _ _ _ => exact hstate
    exact h.msgPowCb hm (hlettered.matched m hm) hstate hwaits' hs
  next id hash blob =>
    obtain ⟨m, hfind, hs⟩ := Option.bind_eq_some_iff.mp hs
    obtain ⟨-, -, hwaiting, -, -⟩ := hwaits.taken ht rfl hfind
    have hstate : m.state.drafting = false := by
      cases hwaiting with
      | loadPubkey _ hstate _ _ => rw [hstate]; rfl
    exact h.rested (hcancel.trans (rests_loadPubkeyFromStoreCb hstate hs)) hwaits'
  next id contentId content =>
    obtain ⟨m, hfind, hdone⟩ := Option.bind_eq_some_iff.mp hs
    obtain ⟨-, -, hwaiting, -, -⟩ := hwaits.taken ht rfl hfind
    cases hwaiting with
    | loadContent hstate hcookies hkey =>
      cases content with
      | none =>
        cases hdone
        have hset : Rests (s.cancel (some t))
            ((s.cancel (some t)).setMessage { m with storeCookie := none }) :=
          rests_setMessage (by rw [hstate]; rfl)
        exact h.rested (((hcancel.trans hset).trans (rests_freeMessage _ _)).trans
          (rests_saveMessages _)) hwaits'
      | some content =>
        exact hquiet (h.loadMessageContentCb hwaits ht rfl
          (hcontent _ _ content rfl rfl) hdone)
  next =>
    cases hs
    exact h.rested (hcancel.trans (rests_request rfl)) hwaits'
  next =>
    cases hs
    exact h.rested (hcancel.trans (rests_addBlob rfl)) hwaits'
  next =>
    split at hs
    · cases hs
      exact h.rested (hcancel.trans (rests_addPublicKey _ _)) hwaits'
    · cases hs
  next timestamp blob keys result =>
    cases result with
    | none =>
      cases hs
      exact h.rested hcancel hwaits'
    | some decrypted =>
      obtain ⟨key, plaintext⟩ := decrypted
      cases hs
      exact h.rested (hcancel.trans (rests_decryptMsgCb env _ timestamp key plaintext)) hwaits'
  next => cases hs

/-- Every event but a restart keeps the drafts those of their messages, and what it posts is a letter
of its message. -/
theorem Authored.step {loads strict : Prop} {e : Event ssl} (h : Authored saved s)
    (hlettered : Lettered s) (hwaits : Inv loads strict s none) (hwaits' : Inv loads strict s' none)
    (hkeep : ∀ env keys pubkeys save, e ≠ .restart env keys pubkeys save)
    (hcontent : ∀ env t id contentId content, e = .complete env t (.content (some content)) →
      (t, .loadContent id contentId) ∈ s.tasks → saved contentId = some content)
    (hs : step s e = some s') :
    Authored saved s' ∧ ∃ rest, s'.log = s.log ++ rest ∧ ∀ e ∈ rest, PostedBy saved e := by
  cases e with
  | sendMessage fromAddress toAddresses contentEncoding content uninitialised =>
    cases hs
    exact h.rested (rests_sendMessage s _ _ _ _ _) hwaits'
  | newObject env blob =>
    simp only [Keyring.step] at hs
    split_ifs at hs
    cases hs
    exact h.rested (rests_newObjectCb env s blob) hwaits'
  | complete env t result =>
    obtain ⟨⟨t', job⟩, hfind, hs⟩ := Option.bind_eq_some_iff.mp hs
    have hid := List.find?_some hfind
    obtain rfl : t' = t := of_decide_eq_true hid
    have ht := List.mem_of_find?_eq_some hfind
    refine h.callback hlettered hwaits hwaits' ht (fun id contentId content hjob hresult => ?_) hs
    subst hjob hresult
    exact hcontent env t' id contentId content rfl ht
  | resend env =>
    cases hs
    exact h.rested (rests_foldl (rests_resendMessage env) s _) hwaits'
  | gc now =>
    cases hs
    exact h.rested (rests_gcTimeoutCb s now) hwaits'
  | addKey key =>
    cases hs
    exact h.rested (rests_saveKeyring s _) hwaits'
  | save =>
    cases hs
    exact h.rested (rests_saveMessages s) hwaits'
  | restart env keys pubkeys save => exact absurd rfl (hkeep env keys pubkeys save)

end Notbit.Keyring
