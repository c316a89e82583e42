import Notbit.Crypto.Authentic
import Notbit.Keyring.Transitions

/-!
# Moves — the small steps the functions of the keyring are made of

Every function of the keyring is a sequence of a few kinds of changes, each with what is known when
it is made.  `step_moves` says so of whole events, so that an invariant of the messages, of the
requests or of the calls needs one case for each kind.
-/

open Bytes Traced Notbit.Proto Relation

namespace Notbit.Keyring

variable {ssl : OpenSSL}

/-! ## 1. The kinds of changes -/

/-- What of a message never changes: the address it is for and its content. -/
def Message.letter (m : Message ssl) : Address × Nat := (m.toAddress, m.contentId)

/-- The key of the recipient, if there is one, has the address of the recipient. -/
def Message.Matched (m : Message ssl) : Prop :=
  ∀ key, m.toKey = some key → key.address.equal m.toAddress = true

/-- The calls that have to do neither with the content of messages nor with mail. -/
def Effect.routine : Effect ssl → Bool
  | .addBlob _ _ | .saveKeys _ | .saveOutgoings _ | .loadedOutgoing _ _ => true
  | .addObjectFromData _ | .saveMessageContent _ _ | .deleteMessageContent _
  | .saveMessage _ _ _ _ => false

/-- The keyring without the pubkey objects. -/
def State.letters (s : State ssl) :=
  (s.keys, s.messages, s.nextMessage, s.nextMessageContentId, s.tasks, s.log)

/-- The fields of `m` may be written to the message with its number. -/
structure Agrees (s : State ssl) (m : Message ssl) : Prop where
  known : m.id < s.nextMessage
  letter : ∀ old ∈ s.messages, old.id = m.id → old.letter = m.letter
  matched : m.Matched

/-- What an event allows: the mails and acknowledgements that may be handed on, and the keys that
messages may be decrypted with. -/
structure Allowed (ssl : OpenSSL) where
  mail : Effect ssl → Prop
  keys : List (KeyringKey ssl) → Prop

/-- What a request has to do with the keyring that makes it: a pubkey is checked for the address of
its message. -/
def JobOk (allowed : Allowed ssl) (s : State ssl) : Job ssl → Prop
  | .checkPubkey id address _ =>
    id < s.nextMessage ∧ ∀ m ∈ s.messages, m.id = id → m.toAddress = address
  | .decryptMsg _ _ keys => allowed.keys keys
  | _ => True

/-- One change. -/
inductive Move (allowed : Allowed ssl) : State ssl → State ssl → Prop
  | pubkeys {s s' : State ssl} (h : s'.letters = s.letters) : Move allowed s s'
  | keys (s : State ssl) (keys : List (KeyringKey ssl)) : Move allowed s { s with keys }
  | request {s : State ssl} {job : Job ssl} (h : JobOk allowed s job) : Move allowed s (s.request job).2
  | cancel (s : State ssl) (cookie : Option Nat) : Move allowed s (s.cancel cookie)
  | write {s : State ssl} {m : Message ssl} (h : Agrees s m) : Move allowed s (s.setMessage m)
  | emit {s : State ssl} {effects : List (Effect ssl)}
    (h : ∀ e ∈ effects, e.routine = true ∨ allowed.mail e) : Move allowed s (s.emit effects)
  | free (s : State ssl) (id : Nat) :
    Move allowed s { s with messages := s.messages.filter (·.id ≠ id) }
  | deleteContent {s : State ssl} {contentId : Nat}
    (h : ∀ m ∈ s.messages, m.contentId ≠ contentId) :
    Move allowed s (s.emit [.deleteMessageContent contentId])
  | create {s : State ssl} {m : Message ssl} (hid : m.id = s.nextMessage)
    (hcontent : m.contentId < s.nextMessageContentId) (hmatched : m.Matched) :
    Move allowed s { s with messages := s.messages ++ [m], nextMessage := s.nextMessage + 1 }
  | saveContent (s : State ssl) (content : List UInt8) :
    Move allowed s ({ s with nextMessageContentId := s.nextMessageContentId + 1 }.emit
      [.saveMessageContent s.nextMessageContentId content])
  | skipContents {s : State ssl} {n : Nat} (h : s.nextMessageContentId ≤ n) :
    Move allowed s { s with nextMessageContentId := n }
  | restart (s : State ssl) (keys : List (KeyringKey ssl)) :
    Move allowed s { keys, nextTask := s.nextTask, nextMessage := s.nextMessage, log := s.log }

/-- Any number of changes. -/
def Moves (allowed : Allowed ssl) : State ssl → State ssl → Prop := ReflTransGen (Move allowed)

variable {allowed : Allowed ssl} {env : Env ssl} {s s' s'' : State ssl} {m : Message ssl}

theorem Move.moves (h : Move allowed s s') : Moves allowed s s' := .single h

theorem Moves.refl (s : State ssl) : Moves allowed s s := ReflTransGen.refl

theorem Moves.trans (h : Moves allowed s s') (h' : Moves allowed s' s'') : Moves allowed s s'' :=
  ReflTransGen.trans h h'

theorem Moves.tail (h : Moves allowed s s') (h' : Move allowed s' s'') : Moves allowed s s'' :=
  ReflTransGen.tail h h'

theorem Move.mono {allowed' : Allowed ssl} (hmail : ∀ e, allowed.mail e → allowed'.mail e)
    (hkeys : ∀ keys, allowed.keys keys → allowed'.keys keys) (h : Move allowed s s') :
    Move allowed' s s' := by
  cases h with
  | emit h => exact .emit fun e he => (h e he).imp_right (hmail e)
  | pubkeys h => exact .pubkeys h
  | keys keys => exact .keys s keys
  | @request job h =>
    refine .request ?_
    cases job with
    | decryptMsg timestamp blob keys => exact hkeys keys h
    | _ => exact h
  | cancel cookie => exact .cancel s cookie
  | write h => exact .write h
  | free id => exact .free s id
  | deleteContent h => exact .deleteContent h
  | create hid hcontent hmatched => exact .create hid hcontent hmatched
  | saveContent content => exact .saveContent s content
  | skipContents h => exact .skipContents h
  | restart keys => exact .restart s keys

theorem Moves.mono {allowed' : Allowed ssl} (hmail : ∀ e, allowed.mail e → allowed'.mail e)
    (hkeys : ∀ keys, allowed.keys keys → allowed'.keys keys) (h : Moves allowed s s') :
    Moves allowed' s s' := by
  induction h with
  | refl => exact .refl s
  | tail _ hmove ih => exact ih.tail (hmove.mono hmail hkeys)

/-! ## 2. What all changes keep -/

/-- The numbers of the messages are different, their keys are those of their recipients, and a
pubkey is checked for the address of its message. -/
structure Lettered (s : State ssl) : Prop where
  ids : (s.messages.map (·.id)).Nodup
  known : ∀ m ∈ s.messages, m.id < s.nextMessage
  matched : ∀ m ∈ s.messages, m.Matched
  checks : ∀ t id address blob, (t, .checkPubkey id address blob) ∈ s.tasks →
    id < s.nextMessage ∧ ∀ m ∈ s.messages, m.id = id → m.toAddress = address

theorem Lettered.congr (h : Lettered s) (hmessages : s'.messages = s.messages)
    (hnext : s'.nextMessage = s.nextMessage) (htasks : s'.tasks ⊆ s.tasks) : Lettered s' where
  ids := hmessages ▸ h.ids
  known := by
    rw [hmessages, hnext]
    exact h.known
  matched := hmessages ▸ h.matched
  checks t id address blob ht := by
    rw [hmessages, hnext]
    exact h.checks t id address blob (htasks ht)

theorem Lettered.subset {l : List (Message ssl)} (h : Lettered s) (hl : l.Sublist s.messages) :
    Lettered { s with messages := l } where
  ids := h.ids.sublist (hl.map _)
  known m hm := h.known m (hl.subset hm)
  matched m hm := h.matched m (hl.subset hm)
  checks t id address blob ht := (h.checks t id address blob ht).imp_right fun hall m hm =>
    hall m (hl.subset hm)

theorem Lettered.write (h : Lettered s) (hm : Agrees s m) : Lettered (s.setMessage m) where
  ids := by
    rw [Inv.map_id_setMessage]
    exact h.ids
  known m' hm' := by
    rcases Inv.mem_setMessage.mp hm' with ⟨rfl, -⟩ | ⟨hold, -⟩
    · exact hm.known
    · exact h.known m' hold
  matched m' hm' := by
    rcases Inv.mem_setMessage.mp hm' with ⟨rfl, -⟩ | ⟨hold, -⟩
    · exact hm.matched
    · exact h.matched m' hold
  checks t id address blob ht := by
    refine (h.checks t id address blob ht).imp_right fun hall m' hm' hid => ?_
    rcases Inv.mem_setMessage.mp hm' with ⟨rfl, old, hold, hsame⟩ | ⟨hold, -⟩
    · rw [← hall old hold (hsame.trans hid)]
      exact (congrArg Prod.fst (hm.letter old hold hsame)).symm
    · exact hall m' hold hid

theorem Lettered.create (h : Lettered s) (hid : m.id = s.nextMessage) (hmatched : m.Matched) :
    Lettered { s with messages := s.messages ++ [m], nextMessage := s.nextMessage + 1 } where
  ids := by
    rw [List.map_append, List.map_singleton, List.nodup_append]
    refine ⟨h.ids, List.nodup_singleton _, ?_⟩
    intro a ha b hb hab
    obtain ⟨old, hold, rfl⟩ := List.mem_map.mp ha
    have hlt := h.known old hold
    rw [List.mem_singleton.mp hb, hid] at hab
    exact absurd hab hlt.ne
  known m' hm' := by
    rcases List.mem_append.mp hm' with hold | hnew
    · exact Nat.lt_succ_of_lt (h.known m' hold)
    · rw [List.mem_singleton.mp hnew, hid]
      exact Nat.lt_succ_self _
  matched m' hm' := by
    rcases List.mem_append.mp hm' with hold | hnew
    · exact h.matched m' hold
    · rw [List.mem_singleton.mp hnew]
      exact hmatched
  checks t id address blob ht := by
    obtain ⟨hlt, hall⟩ := h.checks t id address blob ht
    refine ⟨Nat.lt_succ_of_lt hlt, fun m' hm' hsame => ?_⟩
    rcases List.mem_append.mp hm' with hold | hnew
    · exact hall m' hold hsame
    · rw [List.mem_singleton.mp hnew, hid] at hsame
      exact absurd hsame.symm hlt.ne

theorem Lettered.request {job : Job ssl} (h : Lettered s) (hjob : JobOk allowed s job) :
    Lettered (s.request job).2 where
  ids := h.ids
  known := h.known
  matched := h.matched
  checks t id address blob ht := by
    rcases List.mem_append.mp ht with hold | hnew
    · exact h.checks t id address blob hold
    · cases List.mem_singleton.mp hnew
      exact hjob

theorem Lettered.move (h : Lettered s) (hmove : Move allowed s s') : Lettered s' := by
  cases hmove with
  | pubkeys heq =>
    simp only [State.letters, Prod.mk.injEq] at heq
    exact h.congr heq.2.1 heq.2.2.1 (fun _ ht => heq.2.2.2.2.1 ▸ ht)
  | keys keys => exact h.congr rfl rfl (List.Subset.refl _)
  | request hjob => exact h.request hjob
  | cancel cookie => exact h.congr rfl rfl fun _ ht => List.mem_of_mem_filter ht
  | write hm => exact h.write hm
  | emit _ => exact h.congr rfl rfl (List.Subset.refl _)
  | free id => exact h.subset List.filter_sublist
  | deleteContent _ => exact h.congr rfl rfl (List.Subset.refl _)
  | create hid _ hmatched => exact h.create hid hmatched
  | saveContent content => exact h.congr rfl rfl (List.Subset.refl _)
  | skipContents _ => exact h.congr rfl rfl (List.Subset.refl _)
  | restart keys =>
    exact ⟨List.nodup_nil, fun _ hm => absurd hm List.not_mem_nil,
      fun _ hm => absurd hm List.not_mem_nil, fun _ _ _ _ ht => absurd ht List.not_mem_nil⟩

theorem Lettered.moves (h : Lettered s) (hmoves : Moves allowed s s') : Lettered s' := by
  induction hmoves with
  | refl => exact h
  | tail _ hmove ih => exact ih.move hmove

theorem Agrees.move (h : Agrees s m) (hmove : Move allowed s s') : Agrees s' m := by
  cases hmove with
  | pubkeys heq =>
    simp only [State.letters, Prod.mk.injEq] at heq
    obtain ⟨-, hmessages, hnext, -⟩ := heq
    exact ⟨hnext ▸ h.known, hmessages ▸ h.letter, h.matched⟩
  | write hm =>
    refine ⟨h.known, fun m' hm' hid => ?_, h.matched⟩
    rcases Inv.mem_setMessage.mp hm' with ⟨rfl, old, hold, hsame⟩ | ⟨hold, -⟩
    · exact (hm.letter old hold hsame).symm.trans (h.letter old hold (hsame.trans hid))
    · exact h.letter m' hold hid
  | free id => exact ⟨h.known, fun old hold => h.letter old (List.mem_of_mem_filter hold), h.matched⟩
  | create hid _ _ =>
    refine ⟨Nat.lt_succ_of_lt h.known, fun m' hm' hsame => ?_, h.matched⟩
    rcases List.mem_append.mp hm' with hold | hnew
    · exact h.letter m' hold hsame
    · rw [List.mem_singleton.mp hnew, hid] at hsame
      exact absurd hsame.symm h.known.ne
  | restart keys => exact ⟨h.known, fun _ hold => absurd hold List.not_mem_nil, h.matched⟩
  | keys | request | cancel | emit | deleteContent | saveContent | skipContents =>
    exact ⟨h.known, h.letter, h.matched⟩

theorem Agrees.moves (h : Agrees s m) (hmoves : Moves allowed s s') : Agrees s' m := by
  induction hmoves with
  | refl => exact h
  | tail _ hmove ih => exact ih.move hmove

-- A message that is there may be written back with other cookies, states and times.
theorem Lettered.agrees (h : Lettered s) (hm : m ∈ s.messages) : Agrees s m where
  known := h.known m hm
  letter _ hold hid := congrArg Message.letter (List.inj_on_of_nodup_map h.ids hold hm hid)
  matched := h.matched m hm

theorem Lettered.agrees_find (h : Lettered s) {id : Nat} (hfind : s.findMessage id = some m) :
    Agrees s m := h.agrees (List.mem_of_find?_eq_some hfind)

-- With other cookies, states, blobs or times it is the same letter.
theorem Agrees.again {m' : Message ssl} (h : Agrees s m) (hid : m'.id = m.id)
    (hletter : m'.letter = m.letter) (hkey : m'.toKey = m.toKey) : Agrees s m' where
  known := hid ▸ h.known
  letter _ hold hsame := (h.letter _ hold (hsame.trans hid)).trans hletter.symm
  matched key hsome := by
    rw [show m'.toAddress = m.toAddress from congrArg Prod.fst hletter]
    exact h.matched key (hkey ▸ hsome)

/-! ## 3. Messages and pubkey objects -/

section Functions

variable {p : Nat}

theorem moves_unrefTrying (s : State ssl) (m : Message ssl) : Moves allowed s (s.unrefTrying m) := by
  unfold State.unrefTrying
  split
  · exact Move.moves (.pubkeys rfl)
  · exact .refl s

theorem moves_cancelMessageTasks (allowed : Allowed ssl) (h : Agrees s m) :
    Moves allowed s (s.cancelMessageTasks m).1 ∧ Agrees s (s.cancelMessageTasks m).2 := by
  have hcancelled : Moves allowed s
      (((s.cancel m.cryptoCookie).cancel m.powCookie).cancel m.storeCookie) :=
    ((Move.moves (.cancel _ _)).tail (.cancel _ _)).tail (.cancel _ _)
  have hunref := hcancelled.trans (moves_unrefTrying _ m)
  exact ⟨hunref.tail (.write ((h.moves hunref).again rfl rfl rfl)), h.again rfl rfl rfl⟩

theorem moves_freeMessage (h : Agrees s m) : Moves allowed s (s.freeMessage m) :=
  (moves_cancelMessageTasks allowed h).1.tail (.free _ m.id)

theorem moves_maybeDeleteMessageContent (s : State ssl) (contentId : Nat) :
    Moves allowed s (s.maybeDeleteMessageContent contentId) := by
  unfold State.maybeDeleteMessageContent
  split_ifs with hused
  · exact .refl s
  · refine Move.moves (.deleteContent fun m hm heq => hused ?_)
    exact List.any_eq_true.mpr ⟨m, hm, decide_eq_true heq⟩

theorem Moves.emit (h : Moves allowed s s') {effects : List (Effect ssl)}
    (heffects : ∀ e ∈ effects, e.routine = true) : Moves allowed s (s'.emit effects) :=
  h.tail (.emit fun e he => .inl (heffects e he))

theorem Moves.saveMessages (h : Moves allowed s s') : Moves allowed s s'.saveMessages :=
  h.emit (by simp [Effect.routine])

-- A request and the message that waits for it.
theorem moves_requestFor {job : Job ssl} {m' : Message ssl} (h : Agrees s m) (hjob : JobOk allowed s job)
    (hid : m'.id = m.id) (hletter : m'.letter = m.letter) (hkey : m'.toKey = m.toKey) :
    Moves allowed s ((s.request job).2.setMessage m') := by
  have hrequest : Moves allowed s (s.request job).2 := Move.moves (.request hjob)
  exact hrequest.tail (.write ((h.moves hrequest).again hid hletter hkey))

theorem moves_postMessage (h : Agrees s m) : Moves allowed s (s.postMessage env m) := by
  unfold State.postMessage
  split_ifs
  · exact Move.moves (.write (h.again rfl rfl rfl))
  · exact moves_requestFor h trivial rfl rfl rfl

theorem moves_sendGetpubkeyRequest (h : Agrees s m) :
    Moves allowed s (s.sendGetpubkeyRequest env m) := by
  unfold State.sendGetpubkeyRequest
  split_ifs
  · exact Move.moves (.write (h.again rfl rfl rfl))
  · exact moves_requestFor h trivial rfl rfl rfl

theorem moves_tryBlobForMessage (h : Agrees s m) (blob : Blob) :
    Moves allowed s (s.tryBlobForMessage m blob) := by
  refine moves_requestFor h ⟨h.known, fun old hold hid => ?_⟩ rfl rfl rfl
  exact congrArg Prod.fst (h.letter old hold hid)

theorem moves_loadPubkeyFromStore (h : Agrees s m) (hash : Hash) :
    Moves allowed s (s.loadPubkeyFromStore m hash) :=
  moves_requestFor h trivial rfl rfl rfl

theorem moves_setTrying (allowed : Allowed ssl) (h : Agrees s m) (p : Nat) :
    Moves allowed s (s.setTrying m p).1 ∧ Agrees s (s.setTrying m p).2 := by
  have hunref : Moves allowed s (s.unrefTrying m) := moves_unrefTrying s m
  have hagain : Agrees s (s.setTrying m p).2 := h.again rfl rfl rfl
  have href : Moves allowed s { s.unrefTrying m with
      pubkeyBlobs := Function.update (s.unrefTrying m).pubkeyBlobs p
        { (s.unrefTrying m).pubkeyBlobs p with
          refCount := ((s.unrefTrying m).pubkeyBlobs p).refCount + 1 } } :=
    hunref.tail (.pubkeys rfl)
  exact ⟨href.tail (.write (hagain.moves href)), hagain⟩

theorem moves_tryPubkeyBlobForMessage (h : Agrees s m)
    (hs : s.tryPubkeyBlobForMessage env m p = some s') : Moves allowed s s' := by
  obtain ⟨hset, hagain⟩ := moves_setTrying allowed h p
  have hthere := hagain.moves hset
  simp only [State.tryPubkeyBlobForMessage] at hs
  split at hs
  · cases hs
  · cases hs
    exact hset.trans (moves_loadPubkeyFromStore hthere _)
  · cases hs
    exact hset.trans (moves_tryBlobForMessage hthere _)

theorem moves_tryGroup (h : Agrees s m) (group : List Nat) :
    Moves allowed s (s.tryGroup env group m) := by
  induction group generalizing s m with
  | nil => exact moves_sendGetpubkeyRequest h
  | cons p group ih =>
    unfold State.tryGroup
    split
    next s' hs => exact moves_tryPubkeyBlobForMessage h hs
    next =>
      obtain ⟨hset, hagain⟩ := moves_setTrying allowed h p
      exact hset.trans (ih (hagain.moves hset))

theorem moves_loadPublicKeyForMessage (h : Agrees s m) :
    Moves allowed s (s.loadPublicKeyForMessage env m) :=
  moves_tryGroup h _

theorem moves_loadOrPost (h : Agrees s m) : Moves allowed s (s.loadOrPost env m) := by
  unfold State.loadOrPost
  split
  · exact moves_loadPublicKeyForMessage h
  · exact moves_postMessage h

theorem moves_removePubkeyBlob (s : State ssl) (p : Nat) :
    Moves allowed s (s.removePubkeyBlob p) := by
  refine Move.moves (.pubkeys ?_)
  unfold State.removePubkeyBlob
  split_ifs <;> rfl

/-! ## 4. Keys and objects -/

theorem Moves.saveKeyring (h : Moves allowed s s') : Moves allowed s s'.saveKeyring :=
  h.emit (by simp [Effect.routine])

theorem moves_addPublicKey (s : State ssl) (key : PublicKey ssl) :
    Moves allowed s (s.addPublicKey key) := by
  unfold State.addPublicKey
  split_ifs
  · exact .refl s
  · exact (Move.moves (.keys s _)).saveKeyring

theorem moves_maybePostKey (s : State ssl) (i : Nat) (key : Key ssl) :
    Moves allowed s (s.maybePostKey env i key) := by
  unfold State.maybePostKey
  split_ifs
  · exact .refl s
  · exact (Move.moves (.keys s _)).saveKeyring.tail (.request trivial)

theorem moves_handleGetpubkey (s : State ssl) (blob : Blob) :
    Moves allowed s (s.handleGetpubkey env blob) := by
  rcases State.handleGetpubkey_cases (s := s) (e := env) blob with h | ⟨i, key, h⟩
  · rw [h]
    exact .refl s
  · rw [h]
    exact moves_maybePostKey s i key

-- A loop over the numbers of the messages.
theorem moves_foldl {α : Type} {f : State ssl → α → State ssl}
    (hf : ∀ s a, Lettered s → Moves allowed s (f s a)) (h : Lettered s) (l : List α) :
    Moves allowed s (l.foldl f s) := by
  induction l generalizing s with
  | nil => exact .refl s
  | cons a l ih => exact (hf s a h).trans (ih (h.moves (hf s a h)))

theorem moves_checkPubkeyBlobWithMessage (h : Lettered s) (p id : Nat) :
    Moves allowed s (State.checkPubkeyBlobWithMessage env p s id) := by
  unfold State.checkPubkeyBlobWithMessage
  split
  next => exact .refl s
  next m hfind =>
    split_ifs
    · have hm : Agrees s { m with
          getpubkeyInterrupted :=
            m.getpubkeyInterrupted || m.state == .calculatingGetpubkeyPow } :=
        (h.agrees_find hfind).again rfl rfl rfl
      obtain ⟨hcancel, hagain⟩ := moves_cancelMessageTasks allowed hm
      have hthere := hagain.moves hcancel
      dsimp only
      split
      next s' hs => exact hcancel.trans (moves_tryPubkeyBlobForMessage hthere hs)
      next => exact hcancel.trans (moves_setTrying allowed hthere p).1
    · exact .refl s

theorem moves_handlePubkey (env : Env ssl) (h : Lettered s) (blob : Blob) :
    Moves allowed s (s.handlePubkey env blob) := by
  unfold State.handlePubkey
  split
  next => exact .refl s
  next entry _ =>
    have hinsert : Moves allowed s (s.insertPubkeyBlob entry).2 := by
      refine Move.moves (.pubkeys ?_)
      simp only [State.insertPubkeyBlob]
      split <;> rfl
    exact hinsert.trans (moves_foldl (fun s id hs => moves_checkPubkeyBlobWithMessage hs _ id)
      (h.moves hinsert) _)

theorem moves_messageAcknowledged (h : Agrees s m) : Moves allowed s (s.messageAcknowledged m) :=
  ((moves_freeMessage h).trans (moves_maybeDeleteMessageContent _ _)).saveMessages

theorem moves_handleMsg (h : Lettered s) (hkeys : allowed.keys s.keys) (blob : Blob) :
    Moves allowed s (s.handleMsg blob) := by
  unfold State.handleMsg
  split
  · split
    next m hm =>
      have hmem : m ∈ s.messages := by
        unfold State.acknowledgedMessage at hm
        split_ifs at hm
        exact List.mem_of_find?_eq_some hm
      exact moves_messageAcknowledged (h.agrees hmem)
    next => exact Move.moves (.request hkeys)
  · exact .refl s

theorem moves_newObjectCb (h : Lettered s) (hkeys : allowed.keys s.keys) (blob : Blob) :
    Moves allowed s (s.newObjectCb env blob) := by
  unfold State.newObjectCb
  split
  · exact moves_handleGetpubkey s blob
  · exact moves_handlePubkey env h blob
  · exact moves_handleMsg h hkeys blob
  · exact .refl s

theorem moves_announce (h : Lettered s) (hkeys : allowed.keys s.keys) (blob : Blob) :
    Moves allowed s (s.announce env blob) := by
  unfold State.announce
  split_ifs
  · exact moves_newObjectCb h hkeys blob
  · exact .refl s

theorem moves_addBlob (env : Env ssl) (h : Lettered s) (hkeys : allowed.keys s.keys)
    (message : Option (Message ssl)) (blob : Blob) :
    Moves allowed s (s.addBlob env message blob) := by
  have hemit : Moves allowed s (s.emit [.addBlob message blob]) :=
    (Moves.refl s).emit (by simp [Effect.routine])
  exact hemit.trans (moves_announce (h.moves hemit) hkeys blob)

/-! ## 5. The callbacks of a message -/

-- A callback first clears its cookie.
theorem moves_cleared (allowed : Allowed ssl) (m' : Message ssl) (h : Agrees s m) (hid : m'.id = m.id)
    (hletter : m'.letter = m.letter) (hkey : m'.toKey = m.toKey) :
    Moves allowed s (s.setMessage m') ∧ Agrees (s.setMessage m') m' := by
  have hagain := h.again hid hletter hkey
  have hset : Moves allowed s (s.setMessage m') := Move.moves (.write hagain)
  exact ⟨hset, hagain.moves hset⟩

theorem moves_generateAckdataCb (h : Agrees s m)
    (ackdata : { bytes : List UInt8 // bytes.length = ackdataSize }) :
    Moves allowed s (s.generateAckdataCb env m ackdata) := by
  obtain ⟨hset, hagain⟩ := moves_cleared allowed { m with ackdata, cryptoCookie := none }
    h rfl rfl rfl
  exact (hset.trans (moves_loadOrPost hagain)).saveMessages

theorem moves_abandonPubkey (h : Agrees s m) (hs : s.abandonPubkey env m = some s') :
    Moves allowed s s' := by
  obtain ⟨p, -, heq⟩ := Option.bind_eq_some_iff.mp hs
  cases heq
  have hremove : Moves allowed s (s.removePubkeyBlob p) := moves_removePubkeyBlob s p
  exact hremove.trans (moves_loadPublicKeyForMessage (h.moves hremove))

theorem moves_checkPubkeyCb {key : Option (PublicKey ssl)} (h : Agrees s m)
    (hkey : ∀ k, key = some k → k.address.equal m.toAddress = true)
    (hs : s.checkPubkeyCb env m key = some s') : Moves allowed s s' := by
  obtain ⟨hset, hagain⟩ := moves_cleared allowed { m with cryptoCookie := none }
    h rfl rfl rfl
  unfold State.checkPubkeyCb at hs
  cases key with
  | none => exact hset.trans (moves_abandonPubkey hagain hs)
  | some k =>
    cases hs
    have hadd := hset.trans (moves_addPublicKey _ k)
    have hthere := h.moves hadd
    refine hadd.trans (moves_postMessage ⟨hthere.known, hthere.letter, ?_⟩)
    rintro _ ⟨⟩
    exact hkey k rfl

theorem moves_loadPubkeyFromStoreCb {blob : Option Blob} (h : Agrees s m)
    (hs : s.loadPubkeyFromStoreCb env m blob = some s') : Moves allowed s s' := by
  obtain ⟨hset, hagain⟩ := moves_cleared allowed { m with storeCookie := none }
    h rfl rfl rfl
  unfold State.loadPubkeyFromStoreCb at hs
  cases blob with
  | none => exact hset.trans (moves_abandonPubkey hagain hs)
  | some blob =>
    cases hs
    exact hset.trans (moves_tryBlobForMessage hagain blob)

-- The end of a proof of work: the object goes to the network and the message waits.
theorem moves_sent {m' : Message ssl} {blob : Blob} (h : Lettered s)
    (hkeys : allowed.keys s.keys) (hm : Agrees s m) (hid : m'.id = m.id)
    (hletter : m'.letter = m.letter) (hkey : m'.toKey = m.toKey) :
    Moves allowed s (((s.setMessage { m with powCookie := none }).addBlob env
      (some { m with powCookie := none }) blob).setMessage m').saveMessages := by
  obtain ⟨hset, hagain⟩ := moves_cleared allowed { m with powCookie := none }
    hm rfl rfl rfl
  have hadded := hset.trans
    (moves_addBlob env (h.moves hset) hkeys (some { m with powCookie := none }) blob)
  exact (hadded.tail (.write ((hm.moves hadded).again hid hletter hkey))).saveMessages

theorem moves_getpubkeyPowCb {nonce : Nat} (h : Lettered s) (hkeys : allowed.keys s.keys)
    (hm : Agrees s m) (hs : s.getpubkeyPowCb env m nonce = some s') : Moves allowed s s' := by
  obtain ⟨blob, -, hs⟩ := Option.bind_eq_some_iff.mp hs
  obtain ⟨-, -, hs⟩ := Option.bind_eq_some_iff.mp hs
  cases hs
  exact moves_sent h hkeys hm rfl rfl rfl

theorem moves_msgPowCb {nonce : Nat} (h : Lettered s) (hkeys : allowed.keys s.keys)
    (hm : Agrees s m) (hs : s.msgPowCb env m nonce = some s') : Moves allowed s s' := by
  obtain ⟨blob, -, hs⟩ := Option.bind_eq_some_iff.mp hs
  obtain ⟨-, -, hs⟩ := Option.bind_eq_some_iff.mp hs
  cases hs
  exact moves_sent h hkeys hm rfl rfl rfl

theorem moves_loadMessageContentCb {content : Option (List UInt8)} (h : Agrees s m)
    (hs : s.loadMessageContentCb env m content = some s') : Moves allowed s s' := by
  obtain ⟨hset, hagain⟩ := moves_cleared allowed { m with storeCookie := none }
    h rfl rfl rfl
  unfold State.loadMessageContentCb at hs
  cases content with
  | none =>
    cases hs
    exact (hset.trans (moves_freeMessage hagain)).saveMessages
  | some content =>
    obtain ⟨built, -, hs⟩ := Option.bind_eq_some_iff.mp hs
    cases hs
    exact hset.trans (moves_requestFor hagain trivial rfl rfl rfl)

theorem moves_ackdataPowDone {nonce : Nat} (h : Agrees s m)
    (hs : s.ackdataPowDone env m nonce = some s') : Moves allowed s s' := by
  obtain ⟨blob, -, hs⟩ := Option.bind_eq_some_iff.mp hs
  obtain ⟨toKey, -, hs⟩ := Option.bind_eq_some_iff.mp hs
  cases hs
  exact moves_requestFor h trivial rfl rfl rfl

theorem moves_createMsgBlobCb {blob : Blob} (h : Agrees s m)
    (hs : s.createMsgBlobCb m blob = some s') : Moves allowed s s' := by
  obtain ⟨toKey, -, hs⟩ := Option.bind_eq_some_iff.mp hs
  cases hs
  exact moves_requestFor h trivial rfl rfl rfl

/-! ## 6. Timers, new mail and loading -/

theorem moves_gcTimeoutCb (s : State ssl) (now : Int) : Moves allowed s (s.gcTimeoutCb now) := by
  unfold State.gcTimeoutCb
  generalize s.pubkeyBlobList = l
  induction l generalizing s with
  | nil => exact .refl s
  | cons p l ih =>
    rw [List.foldl_cons]
    split_ifs
    · exact (moves_removePubkeyBlob s p).trans (ih _)
    · exact ih s

theorem moves_resendMessage (h : Lettered s) (id : Nat) :
    Moves allowed s (s.resendMessage env id) := by
  unfold State.resendMessage
  split
  next => exact .refl s
  next m hfind =>
    have hm := h.agrees_find hfind
    split
    · exact moves_sendGetpubkeyRequest hm
    · exact moves_postMessage hm
    · exact .refl s

theorem matched_of_getAnyKeyForAddress {address : Address} {key : PublicKey ssl}
    (h : s.getAnyKeyForAddress address = some key) : key.address.equal address = true := by
  obtain ⟨k, hk, rfl⟩ := Option.map_eq_some_iff.mp h
  have hequal := List.find?_some hk
  cases k with
  | own k => exact hequal
  | other k => exact hequal

theorem moves_createMessage (allowed : Allowed ssl) (fromKey : Key ssl) (toAddress : Address)
    (contentEncoding : CInt) {contentId : Nat}
    (ackdata : { bytes : List UInt8 // bytes.length = ackdataSize })
    (hcontent : contentId < s.nextMessageContentId) :
    Moves allowed s (s.createMessage fromKey toAddress contentEncoding contentId ackdata).2 ∧
      (Lettered s → Agrees (s.createMessage fromKey toAddress contentEncoding contentId ackdata).2
        (s.createMessage fromKey toAddress contentEncoding contentId ackdata).1) := by
  have hmatched : (s.createMessage fromKey toAddress contentEncoding contentId ackdata).1.Matched :=
    fun key hkey => matched_of_getAnyKeyForAddress hkey
  have hcreate : Moves allowed s
      (s.createMessage fromKey toAddress contentEncoding contentId ackdata).2 :=
    Move.moves (.create rfl hcontent hmatched)
  refine ⟨hcreate, fun h => (h.moves hcreate).agrees ?_⟩
  exact List.mem_append_right _ List.mem_cons_self

theorem moves_sendTo {fromKey : Key ssl} {contentEncoding : CInt} {contentId : Nat}
    {uninitialised : { bytes : List UInt8 // bytes.length = ackdataSize }} (h : Lettered s)
    (hcontent : contentId < s.nextMessageContentId) (toAddress : Address) :
    Moves allowed s (s.sendTo fromKey contentEncoding contentId uninitialised toAddress) := by
  obtain ⟨hcreate, hagrees⟩ := moves_createMessage allowed fromKey toAddress contentEncoding
    uninitialised hcontent
  exact hcreate.trans (moves_requestFor (hagrees h) trivial rfl rfl rfl)

-- The loop over the recipients leaves the next content id alone.
theorem moves_sendToAll {fromKey : Key ssl} {contentEncoding : CInt} {contentId : Nat}
    {uninitialised : { bytes : List UInt8 // bytes.length = ackdataSize }} (h : Lettered s)
    (hcontent : contentId < s.nextMessageContentId) (toAddresses : List Address) :
    Moves allowed s (toAddresses.foldl
      (State.sendTo fromKey contentEncoding contentId uninitialised) s) := by
  induction toAddresses generalizing s with
  | nil => exact .refl s
  | cons toAddress toAddresses ih =>
    have hsend : Moves allowed s
        (s.sendTo fromKey contentEncoding contentId uninitialised toAddress) :=
      moves_sendTo h hcontent toAddress
    exact hsend.trans (ih (h.moves hsend) hcontent)

theorem moves_sendMessage (h : Lettered s) (fromAddress : Address) (toAddresses : List Address)
    (contentEncoding : CInt) (content : List UInt8)
    (uninitialised : { bytes : List UInt8 // bytes.length = ackdataSize }) :
    Moves allowed s (s.sendMessage fromAddress toAddresses contentEncoding content uninitialised) := by
  unfold State.sendMessage
  split
  next => exact .refl s
  next fromKey _ =>
    split_ifs
    · exact .refl s
    · have hsave : Moves allowed s ({ s with nextMessageContentId := s.nextMessageContentId + 1 }.emit
          [.saveMessageContent s.nextMessageContentId content]) :=
        Move.moves (.saveContent s content)
      exact hsave.trans (moves_sendToAll (h.moves hsave) (Nat.lt_succ_self _) toAddresses)

theorem moves_createLoaded (allowed : Allowed ssl) (h : Lettered s) (fromKey : Key ssl) {record : Record}
    (hcontent : record.contentId < s.nextMessageContentId) :
    Moves allowed s (s.createLoaded fromKey record).2 ∧
      Agrees (s.createLoaded fromKey record).2 (s.createLoaded fromKey record).1 := by
  obtain ⟨hcreate, hagrees⟩ := moves_createMessage allowed fromKey record.toAddress
    record.contentEncoding record.ackdata hcontent
  obtain ⟨hset, hagain⟩ := moves_cleared allowed (s.createLoaded fromKey record).1
    (hagrees h) rfl rfl rfl
  have hemit : Moves allowed _ (s.createLoaded fromKey record).2 :=
    (Moves.refl _).emit (by simp [Effect.routine])
  exact ⟨(hcreate.trans hset).trans hemit, hagain.moves hemit⟩

theorem moves_forEachOutgoingCb (h : Lettered s) (record : Record) :
    Moves allowed s (s.forEachOutgoingCb env record) := by
  unfold State.forEachOutgoingCb
  extract_lets s₁
  have hskip : Moves allowed s s₁ ∧ record.contentId < s₁.nextMessageContentId := by
    unfold s₁
    split_ifs with hge
    · exact ⟨Move.moves (.skipContents (Nat.le_succ_of_le hge)), Nat.lt_succ_self _⟩
    · exact ⟨.refl s, Nat.not_le.mp hge⟩
  clear_value s₁
  split
  next => exact hskip.1
  next fromKey _ =>
    obtain ⟨hcreate, hagrees⟩ := moves_createLoaded allowed (h.moves hskip.1) fromKey hskip.2
    exact (hskip.1.trans hcreate).trans (moves_loadOrPost hagrees)

theorem moves_restart (h : Lettered s) (keys : List (KeyringKey ssl)) (pubkeys : List Blob)
    (records : List Record) : Moves allowed s (s.restart env keys pubkeys records) := by
  have hstart : Moves allowed s
      { keys, nextTask := s.nextTask, nextMessage := s.nextMessage, log := s.log } :=
    Move.moves (.restart s keys)
  have hpubkeys := hstart.trans
    (moves_foldl (fun s blob hs => moves_handlePubkey env hs blob) (h.moves hstart) pubkeys)
  exact hpubkeys.trans
    (moves_foldl (fun s record hs => moves_forEachOutgoingCb hs record) (h.moves hpubkeys) records)

/-! ## 7. Events -/

-- An acknowledgement is handed on and may come back as an object.
theorem moves_sendAcknowledgement (env : Env ssl) (ack : List UInt8) (h : Lettered s)
    (hkeys : allowed.keys s.keys) (hmail : ∀ blob, allowed.mail (.addObjectFromData blob)) :
    Moves allowed s (s.sendAcknowledgement env ack) := by
  unfold State.sendAcknowledgement
  extract_lets name
  split_ifs
  · exact .refl s
  · split
    next => exact .refl s
    next type _ =>
      have hemit : Moves allowed s
          (s.emit [.addObjectFromData { type, data := ack.drop headerSize }]) := by
        refine Move.moves (.emit fun e he => .inr ?_)
        rw [List.mem_singleton.mp he]
        exact hmail _
      exact hemit.trans (moves_announce (h.moves hemit) hkeys _)

theorem moves_addPublicKeyFromNetworkKeys (allowed : Allowed ssl) (s : State ssl)
    (address : Address) (signingKey encryptionKey : List UInt8)
    (nonceTrialsPerByte extraBytes : Nat) :
    let s' := s.addPublicKeyFromNetworkKeys address signingKey encryptionKey nonceTrialsPerByte
      extraBytes
    Moves allowed s s' ∧ s'.keys = s.keys := by
  unfold State.addPublicKeyFromNetworkKeys
  split_ifs
  · exact ⟨.refl s, rfl⟩
  · exact ⟨Move.moves (.request trivial), rfl⟩

/-- A decrypted message is accepted by `decrypt_msg_cb`. -/
structure Accepts (ssl : OpenSSL) (key : KeyringKey ssl) (plaintext : List UInt8)
    (msg : DecryptedMsg) : Prop where
  parsed : (getDecryptedMsg 0 (plaintext.length % 2 ^ 32)).value (ofList plaintext) = .ok msg
  stream : msg.senderStreamNumber ≤ 255
  version : msg.senderAddressVersion ≤ 255
  destination : window (ofList plaintext) msg.destinationRipe 20 = key.address.ripe

/-- The address of the keys in a decrypted message. -/
def senderAddress (ssl : OpenSSL) (plaintext : List UInt8) (msg : DecryptedMsg) : Address :=
  addressFromNetworkKeys ssl msg.senderAddressVersion msg.senderStreamNumber
    (window (ofList plaintext) msg.senderSigningKey 64)
    (window (ofList plaintext) msg.senderEncryptionKey 64)

/-- The calls that `decrypt_msg_cb` makes for an accepted message: its acknowledgement goes to the
network and its mail to the store. -/
def MailOf (timestamp : Int) (key : KeyringKey ssl) (plaintext : List UInt8) (e : Effect ssl) :
    Prop :=
  ∃ msg, Accepts ssl key plaintext msg ∧
    ((∃ blob, e = .addObjectFromData blob) ∨
      e = .saveMessage timestamp (senderAddress ssl plaintext msg) key plaintext)

theorem moves_decryptMsgCb (h : Lettered s) (hkeys : allowed.keys s.keys) (timestamp : Int)
    (key : KeyringKey ssl) (plaintext : List UInt8)
    (hmail : ∀ e, MailOf timestamp key plaintext e → allowed.mail e) :
    Moves allowed s (s.decryptMsgCb env timestamp key plaintext) := by
  unfold State.decryptMsgCb
  extract_lets mem
  split
  next => exact .refl s
  next msg hparsed =>
    split_ifs with hbytes hripe
    · exact .refl s
    · exact .refl s
    · rw [not_or, not_lt, not_lt] at hbytes
      have haccepts : Accepts ssl key plaintext msg :=
        ⟨hparsed, hbytes.1, hbytes.2, (not_not.mp hripe).symm⟩
      obtain ⟨hkey, hsame⟩ := moves_addPublicKeyFromNetworkKeys allowed s
        (senderAddress ssl plaintext msg) (window mem msg.senderSigningKey 64)
        (window mem msg.senderEncryptionKey 64) msg.nonceTrialsPerByte msg.extraBytes
      rw [← hsame] at hkeys
      have hack := hkey.trans (moves_sendAcknowledgement env (window mem msg.ack msg.ackLength)
        (h.moves hkey) hkeys fun blob => hmail _ ⟨msg, haccepts, .inl ⟨blob, rfl⟩⟩)
      refine hack.tail (.emit fun e he => .inr (hmail e ?_))
      rw [List.mem_singleton.mp he]
      exact ⟨msg, haccepts, .inr rfl⟩

/-- The mail that may come of an event: that of the message it brings decrypted. -/
def Event.Brings (s : State ssl) (e : Event ssl) (effect : Effect ssl) : Prop :=
  ∃ env t timestamp blob keys key plaintext,
    e = .complete env t (.decrypted (some (key, plaintext))) ∧
      s.tasks.find? (·.1 = t) = some (t, .decryptMsg timestamp blob keys) ∧
      MailOf timestamp key plaintext effect

-- The key of a checked object has the address it was checked for.
theorem equal_of_checkedKey {address : Address} {blob : Blob} {key : PublicKey ssl}
    (h : checkedKey env address blob = some (some key)) : key.address.equal address = true := by
  unfold checkedKey at h
  split at h
  next checked hchecked =>
    cases h
    obtain ⟨⟨mem', pubkey⟩, -, hcheck⟩ := Traced.bind_eq_ok.mp hchecked
    exact Crypto.address_of_checkUnencryptedPubkey hcheck
  next => cases h
  next => cases h

/-- What an event allows in a state: its mail, and messages are decrypted with the keys there are. -/
def Event.allows (s : State ssl) (e : Event ssl) : Allowed ssl where
  mail := e.Brings s
  keys keys := keys = s.keys

theorem moves_callback {t : Nat} {job : Job ssl} {result : Result ssl} (h : Lettered s)
    (ht : s.tasks.find? (·.1 = t) = some (t, job))
    (hs : callback env (s.cancel (some t)) job result = some s') :
    Moves (Event.allows s (.complete env t result)) s s' := by
  have hcancel : Moves (Event.allows s (.complete env t result)) s (s.cancel (some t)) :=
    Move.moves (.cancel s _)
  have hthere := h.moves hcancel
  refine hcancel.trans ?_
  unfold callback at hs
  split at hs
  next id ackdata =>
    obtain ⟨m, hfind, hs⟩ := Option.bind_eq_some_iff.mp hs
    cases hs
    exact moves_generateAckdataCb (hthere.agrees_find hfind) ackdata
  next id address blob =>
    obtain ⟨m, hfind, hs⟩ := Option.bind_eq_some_iff.mp hs
    obtain ⟨key, hkey, hs⟩ := Option.bind_eq_some_iff.mp hs
    have hm := List.mem_of_find?_eq_some hfind
    have hid := List.find?_some hfind
    refine moves_checkPubkeyCb (hthere.agrees hm) (fun k hsome => ?_) hs
    have hcheck := h.checks t id address blob (List.mem_of_find?_eq_some ht)
    rw [hcheck.2 m hm (of_decide_eq_true hid)]
    exact equal_of_checkedKey (hsome ▸ hkey)
  next id timestamp fromKey toKey content =>
    obtain ⟨m, hfind, hs⟩ := Option.bind_eq_some_iff.mp hs
    exact moves_createMsgBlobCb (hthere.agrees_find hfind) hs
  next id payload nonce =>
    obtain ⟨m, hfind, hs⟩ := Option.bind_eq_some_iff.mp hs
    exact moves_getpubkeyPowCb hthere rfl (hthere.agrees_find hfind) hs
  next id payload nonce =>
    obtain ⟨m, hfind, hs⟩ := Option.bind_eq_some_iff.mp hs
    exact moves_ackdataPowDone (hthere.agrees_find hfind) hs
  next id payload extraBytes trialsPerByte nonce =>
    obtain ⟨m, hfind, hs⟩ := Option.bind_eq_some_iff.mp hs
    exact moves_msgPowCb hthere rfl (hthere.agrees_find hfind) hs
  next id hash blob =>
    obtain ⟨m, hfind, hs⟩ := Option.bind_eq_some_iff.mp hs
    exact moves_loadPubkeyFromStoreCb (hthere.agrees_find hfind) hs
  next id contentId content =>
    obtain ⟨m, hfind, hs⟩ := Option.bind_eq_some_iff.mp hs
    exact moves_loadMessageContentCb (hthere.agrees_find hfind) hs
  next =>
    cases hs
    exact Move.moves (.request trivial)
  next =>
    cases hs
    exact moves_addBlob env hthere rfl none _
  next =>
    split at hs
    · cases hs
      exact moves_addPublicKey _ _
    · cases hs
  next timestamp blob keys result =>
    cases result with
    | none =>
      cases hs
      exact .refl _
    | some decrypted =>
      obtain ⟨key, plaintext⟩ := decrypted
      cases hs
      refine moves_decryptMsgCb hthere rfl timestamp key plaintext fun e hmail => ?_
      exact ⟨env, t, timestamp, blob, keys, key, plaintext, rfl, ht, hmail⟩
  next => cases hs

theorem step_moves {e : Event ssl} (h : Lettered s) (hs : step s e = some s') :
    Moves (e.allows s) s s' := by
  cases e with
  | sendMessage fromAddress toAddresses contentEncoding content uninitialised =>
    cases hs
    exact moves_sendMessage h _ _ _ _ _
  | newObject env blob =>
    simp only [step] at hs
    split_ifs at hs
    cases hs
    exact moves_newObjectCb h rfl blob
  | complete env t result =>
    obtain ⟨⟨t', job⟩, hfind, hs⟩ := Option.bind_eq_some_iff.mp hs
    have hid := List.find?_some hfind
    obtain rfl : t' = t := of_decide_eq_true hid
    exact moves_callback h hfind hs
  | resend env =>
    cases hs
    exact moves_foldl (fun s id hs => moves_resendMessage hs id) h _
  | gc now =>
    cases hs
    exact moves_gcTimeoutCb s now
  | addKey key =>
    cases hs
    exact (Move.moves (.keys s _)).saveKeyring
  | save =>
    cases hs
    exact (Moves.refl s).saveMessages
  | restart env keys pubkeys save =>
    obtain ⟨records, -, rfl⟩ := Option.map_eq_some_iff.mp hs
    exact moves_restart h keys pubkeys records

theorem lettered_new (keys : List (KeyringKey ssl)) : Lettered (State.new keys) where
  ids := List.nodup_nil
  known := by simp [State.new]
  matched := by simp [State.new]
  checks := by simp [State.new]

theorem Lettered.step {e : Event ssl} (h : Lettered s) (hs : step s e = some s') : Lettered s' :=
  h.moves (step_moves h hs)

end Functions

end Notbit.Keyring
