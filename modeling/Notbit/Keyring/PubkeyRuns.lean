import Notbit.Keyring.PubkeyTrials

/-!
# PubkeyRuns — the index of pubkey objects through whole runs (`ntb-keyring.c`)

Every function of the keyring as a sequence of changes of references.  A message that a function has
in its hands is tracked: it is still in the list of messages and tries what the fields say.
-/

open Bytes Traced Notbit.Proto Relation Groups

namespace Notbit.Keyring

variable {ssl : OpenSSL} {env : Env ssl} {s s' s'' : State ssl} {m m' : Message ssl} {p : Nat}

/-! ## 1. Messages -/

theorem Tracked.again (h : Tracked s m) (hid : m'.id = m.id)
    (htrying : m'.tryingPubkeyBlob = m.tryingPubkeyBlob)
    (hblob : ∀ blob, m'.blob = some blob → blob.type ≠ .pubkey) : Tracked s m' where
  there := by
    rw [hid, htrying]
    exact h.there
  blob := hblob

theorem shifts_write (h : Tracked s m) : Shifts s (s.setMessage m) ∧ Tracked (s.setMessage m) m :=
  ⟨(Shift.write h).shifts, h.written rfl (Or.inr rfl)⟩

theorem shifts_cancelMessageTasks (h : Referenced s) (hm : Tracked s m) :
    Shifts s (s.cancelMessageTasks m).1 ∧
      Tracked (s.cancelMessageTasks m).1 (s.cancelMessageTasks m).2 := by
  refine ⟨(Shift.release hm (h.freesUnused hm)).shifts, ?_⟩
  have hmessages : ((s.cancelAll m).unrefTrying m).messages = s.messages :=
    congrArg (·.1) (State.core_unrefTrying (s.cancelAll m) m)
  exact (hm.congr hmessages).written rfl (Or.inl rfl)

theorem shifts_freeMessage (h : Referenced s) (hm : Tracked s m) : Shifts s (s.freeMessage m) := by
  refine (shifts_cancelMessageTasks h hm).1.tail (.free ?_)
  intro m' hm' hid
  rcases Inv.mem_setMessage.mp hm' with ⟨rfl, -⟩ | ⟨-, hne⟩
  · rfl
  · exact absurd hid hne

theorem shifts_maybeDeleteMessageContent (s : State ssl) (contentId : Nat) :
    Shifts s (s.maybeDeleteMessageContent contentId) := by
  unfold State.maybeDeleteMessageContent
  split_ifs
  · exact .refl s
  · exact Shift.shifts (.other rfl)

-- A request and the message that waits for it.
theorem shifts_requestFor (job : Job ssl) (h : Tracked s m') :
    Shifts s ((s.request job).2.setMessage m') := by
  have hrequest : Shifts s (s.request job).2 := Shift.shifts (.other rfl)
  exact hrequest.tail (.write (h.congr rfl))

theorem shifts_postMessage (h : Tracked s m) : Shifts s (s.postMessage env m) := by
  unfold State.postMessage
  split_ifs
  · exact Shift.shifts (.write (h.again rfl rfl h.blob))
  · exact shifts_requestFor _ (h.again rfl rfl h.blob)

theorem shifts_sendGetpubkeyRequest (h : Tracked s m) :
    Shifts s (s.sendGetpubkeyRequest env m) := by
  unfold State.sendGetpubkeyRequest
  split_ifs
  · exact Shift.shifts (.write (h.again rfl rfl h.blob))
  · refine shifts_requestFor _ (h.again rfl rfl ?_)
    rintro blob ⟨⟩
    nofun

theorem shifts_setTrying (h : Referenced s) (hm : Tracked s m) (hp : p ∈ s.pubkeyBlobList) :
    Shifts s (s.setTrying m p).1 ∧ Tracked (s.setTrying m p).1 (s.setTrying m p).2 := by
  refine ⟨(Shift.trial hm hp (h.freesUnused hm)).shifts, ?_⟩
  have hmessages : (s.unrefTrying m).messages = s.messages :=
    congrArg (·.1) (State.core_unrefTrying s m)
  have hthere : Tracked (s.unrefTrying m) m := hm.congr hmessages
  have hset : Tracked ((s.unrefTrying m).setMessage (s.setTrying m p).2) (s.setTrying m p).2 :=
    hthere.written rfl (Or.inr rfl)
  exact ⟨hset.there, hset.blob⟩

theorem shifts_tryPubkeyBlobForMessage (h : Referenced s) (hm : Tracked s m)
    (hp : p ∈ s.pubkeyBlobList) (hs : s.tryPubkeyBlobForMessage env m p = some s') :
    Shifts s s' := by
  obtain ⟨hset, hthere⟩ := shifts_setTrying h hm hp
  simp only [State.tryPubkeyBlobForMessage] at hs
  split at hs
  · cases hs
  · cases hs
    exact hset.trans (shifts_requestFor _ (hthere.again rfl rfl hthere.blob))
  · cases hs
    exact hset.trans (shifts_requestFor _ (hthere.again rfl rfl hthere.blob))

theorem list_setTrying (s : State ssl) (m : Message ssl) (p : Nat) :
    (s.setTrying m p).1.pubkeyBlobList = s.pubkeyBlobList :=
  congrArg (·.1) (State.uncounted_unrefTrying (s := s) (m := m))

theorem shifts_tryGroup {group : List Nat} (h : Referenced s) (hm : Tracked s m)
    (hgroup : ∀ p ∈ group, p ∈ s.pubkeyBlobList) : Shifts s (s.tryGroup env group m) := by
  induction group generalizing s m with
  | nil => exact shifts_sendGetpubkeyRequest hm
  | cons p group ih =>
    have hp := hgroup p List.mem_cons_self
    unfold State.tryGroup
    split
    next s' hs => exact shifts_tryPubkeyBlobForMessage h hm hp hs
    next =>
      obtain ⟨hset, hthere⟩ := shifts_setTrying h hm hp
      refine hset.trans (ih (h.shifts hset) hthere fun q hq => ?_)
      rw [list_setTrying]
      exact hgroup q (List.mem_cons_of_mem _ hq)

/-- The entries that `load_public_key_for_message` goes through are those of the group, in the order
of the list. -/
theorem Referenced.pubkeyGroup_eq (h : Referenced s) (ripeOrTag : Hash) :
    s.pubkeyGroup ripeOrTag = s.pubkeyBlobList.filter (s.ripeOrTagOf · = ripeOrTag) := by
  unfold State.pubkeyGroup
  split
  next hget => exact (h.indexes.filter_eq_nil hget).symm
  next start hget => exact h.indexes.group_eq hget

theorem shifts_loadPublicKeyForMessage (h : Referenced s) (hm : Tracked s m) :
    Shifts s (s.loadPublicKeyForMessage env m) := by
  refine shifts_tryGroup h hm fun p hp => ?_
  rw [h.pubkeyGroup_eq] at hp
  exact List.mem_of_mem_filter hp

theorem shifts_loadOrPost (h : Referenced s) (hm : Tracked s m) :
    Shifts s (s.loadOrPost env m) := by
  unfold State.loadOrPost
  split
  · exact shifts_loadPublicKeyForMessage h hm
  · exact shifts_postMessage hm

theorem shifts_removePubkeyBlob (h : Referenced s) (p : Nat) :
    Shifts s (s.removePubkeyBlob p) :=
  (Shift.remove fun hp => h.removeUnused hp).shifts

/-! ## 2. Keys and objects -/

theorem shifts_addPublicKey (s : State ssl) (key : PublicKey ssl) :
    Shifts s (s.addPublicKey key) := by
  refine (Shift.other ?_).shifts
  unfold State.addPublicKey
  split_ifs <;> rfl

theorem shifts_handleGetpubkey (s : State ssl) (blob : Blob) :
    Shifts s (s.handleGetpubkey env blob) := by
  refine (Shift.other ?_).shifts
  rcases State.handleGetpubkey_cases (s := s) (e := env) blob with h | ⟨i, key, h⟩
  · rw [h]
  · rw [h]
    unfold State.maybePostKey
    split_ifs <;> rfl

-- A loop in which every round finds the counts exact.
theorem shifts_foldl {α : Type} {f : State ssl → α → State ssl}
    (hf : ∀ s a, Referenced s → Shifts s (f s a)) (h : Referenced s) (l : List α) :
    Shifts s (l.foldl f s) := by
  induction l generalizing s with
  | nil => exact .refl s
  | cons a l ih => exact (hf s a h).trans (ih (h.shifts (hf s a h)))

theorem list_tryPubkeyBlobForMessage (hs : s.tryPubkeyBlobForMessage env m p = some s') :
    s'.pubkeyBlobList = s.pubkeyBlobList := by
  rw [← list_setTrying s m p]
  simp only [State.tryPubkeyBlobForMessage] at hs
  split at hs <;> cases hs <;> rfl

theorem list_cancelMessageTasks (s : State ssl) (m : Message ssl) :
    (s.cancelMessageTasks m).1.pubkeyBlobList = s.pubkeyBlobList :=
  congrArg (·.1) (State.uncounted_unrefTrying (s := s.cancelAll m) (m := m))

/-- One message is told of a new entry, which stays in the list. -/
theorem shifts_checkPubkeyBlobWithMessage (h : Referenced s) (hp : p ∈ s.pubkeyBlobList) (id : Nat) :
    Shifts s (State.checkPubkeyBlobWithMessage env p s id) ∧
      p ∈ (State.checkPubkeyBlobWithMessage env p s id).pubkeyBlobList := by
  unfold State.checkPubkeyBlobWithMessage
  split
  next => exact ⟨.refl s, hp⟩
  next m hfind =>
    split_ifs
    · have hfound := h.tracked_find hfind
      have hm : Tracked s { m with
          getpubkeyInterrupted :=
            m.getpubkeyInterrupted || m.state == .calculatingGetpubkeyPow } :=
        hfound.again rfl rfl hfound.blob
      obtain ⟨hcancel, hthere⟩ := shifts_cancelMessageTasks h hm
      have hp' := hp
      rw [← list_cancelMessageTasks s { m with
        getpubkeyInterrupted :=
          m.getpubkeyInterrupted || m.state == .calculatingGetpubkeyPow }] at hp'
      dsimp only
      split
      next s' hs =>
        refine ⟨hcancel.trans (shifts_tryPubkeyBlobForMessage (h.shifts hcancel) hthere hp' hs), ?_⟩
        rw [list_tryPubkeyBlobForMessage hs]
        exact hp'
      next =>
        refine ⟨hcancel.trans (shifts_setTrying (h.shifts hcancel) hthere hp').1, ?_⟩
        rw [list_setTrying]
        exact hp'
    · exact ⟨.refl s, hp⟩

theorem shifts_checkPubkeyBlobWithMessages (env : Env ssl) (h : Referenced s)
    (hp : p ∈ s.pubkeyBlobList) : Shifts s (s.checkPubkeyBlobWithMessages env p) := by
  unfold State.checkPubkeyBlobWithMessages
  generalize s.messages.map (·.id) = ids
  induction ids generalizing s with
  | nil => exact .refl s
  | cons id ids ih =>
    have ⟨hround, hstays⟩ : Shifts s (State.checkPubkeyBlobWithMessage env p s id) ∧
        p ∈ (State.checkPubkeyBlobWithMessage env p s id).pubkeyBlobList :=
      shifts_checkPubkeyBlobWithMessage h hp id
    exact hround.trans (ih (h.shifts hround) hstays)

theorem mem_insertPubkeyBlob (s : State ssl) (entry : PubkeyEntry) :
    (s.insertPubkeyBlob entry).1 ∈ (s.insertPubkeyBlob entry).2.pubkeyBlobList := by
  simp only [State.insertPubkeyBlob]
  split <;> simp

theorem shifts_handlePubkey (env : Env ssl) (h : Referenced s) (blob : Blob) :
    Shifts s (s.handlePubkey env blob) := by
  unfold State.handlePubkey
  split
  next => exact .refl s
  next entry hentry =>
    have hnew : entry.refCount = 1 ∧ entry.inList = true := by
      unfold State.pubkeyEntry at hentry
      dsimp only at hentry
      split at hentry
      · cases hentry
      · cases hentry
        exact ⟨rfl, rfl⟩
    have hinsert : Shifts s (s.insertPubkeyBlob entry).2 := (Shift.insert hnew.1 hnew.2).shifts
    exact hinsert.trans (shifts_checkPubkeyBlobWithMessages env (h.shifts hinsert)
      (mem_insertPubkeyBlob s entry))

theorem shifts_messageAcknowledged (h : Referenced s) (hm : Tracked s m) :
    Shifts s (s.messageAcknowledged m) :=
  ((shifts_freeMessage h hm).trans (shifts_maybeDeleteMessageContent _ _)).tail (.other rfl)

theorem mem_of_acknowledgedMessage {content : List UInt8}
    (hm : s.acknowledgedMessage content = some m) : m ∈ s.messages := by
  unfold State.acknowledgedMessage at hm
  split_ifs at hm
  exact List.mem_of_find?_eq_some hm

theorem shifts_handleMsg (h : Referenced s) (blob : Blob) : Shifts s (s.handleMsg blob) := by
  unfold State.handleMsg
  split
  · split
    next m hm => exact shifts_messageAcknowledged h (h.tracked (mem_of_acknowledgedMessage hm))
    next => exact Shift.shifts (.other rfl)
  · exact .refl s

theorem shifts_newObjectCb (h : Referenced s) (blob : Blob) :
    Shifts s (s.newObjectCb env blob) := by
  unfold State.newObjectCb
  split
  · exact shifts_handleGetpubkey s blob
  · exact shifts_handlePubkey env h blob
  · exact shifts_handleMsg h blob
  · exact .refl s

theorem shifts_announce (h : Referenced s) (blob : Blob) : Shifts s (s.announce env blob) := by
  unfold State.announce
  split_ifs
  · exact shifts_newObjectCb h blob
  · exact .refl s

theorem shifts_addBlob (env : Env ssl) (h : Referenced s) (message : Option (Message ssl))
    (blob : Blob) : Shifts s (s.addBlob env message blob) := by
  have hemit : Shifts s (s.emit [.addBlob message blob]) := Shift.shifts (.other rfl)
  exact hemit.trans (shifts_announce (h.shifts hemit) blob)

/-! ## 3. The callbacks of a message -/

theorem messages_messageAcknowledged (s : State ssl) (m : Message ssl) :
    (s.messageAcknowledged m).messages ⊆ s.messages := by
  have hfree : (s.freeMessage m).messages ⊆ s.messages := by
    intro m' hm'
    obtain ⟨hmem, hne⟩ := List.mem_filter.mp hm'
    rcases Inv.mem_setMessage.mp hmem with ⟨rfl, -⟩ | ⟨hold, -⟩
    · exact absurd rfl (of_decide_eq_true hne)
    · have hsame : ((s.cancelAll m).unrefTrying m).messages = s.messages :=
        congrArg (·.1) (State.core_unrefTrying (s.cancelAll m) m)
      exact hsame ▸ hold
  have hdelete : ((s.freeMessage m).maybeDeleteMessageContent m.contentId).messages =
      (s.freeMessage m).messages := by
    unfold State.maybeDeleteMessageContent
    split_ifs <;> rfl
  exact hdelete ▸ hfree

/-- An object that is no pubkey writes to no message; the message it acknowledges is freed. -/
theorem messages_addBlob (env : Env ssl) (s : State ssl) (message : Option (Message ssl))
    {blob : Blob} (htype : blob.type ≠ .pubkey) :
    (s.addBlob env message blob).messages ⊆ s.messages := by
  unfold State.addBlob State.announce
  split_ifs
  · unfold State.newObjectCb
    split
    · rcases State.handleGetpubkey_cases (s := s.emit [.addBlob message blob]) (e := env) blob with
        h | ⟨i, key, h⟩
      · rw [h]
        exact List.Subset.refl _
      · rw [h]
        unfold State.maybePostKey
        split_ifs
        · exact List.Subset.refl _
        · exact List.Subset.refl _
    next hpubkey => exact absurd hpubkey htype
    · unfold State.handleMsg
      split
      · split
        · exact messages_messageAcknowledged _ _
        · exact List.Subset.refl _
      · exact List.Subset.refl _
    · exact List.Subset.refl _
  · exact List.Subset.refl _

-- A callback first clears its cookie.
theorem shifts_cleared (m' : Message ssl) (h : Tracked s m) (hid : m'.id = m.id)
    (htrying : m'.tryingPubkeyBlob = m.tryingPubkeyBlob) (hblob : m'.blob = m.blob) :
    Shifts s (s.setMessage m') ∧ Tracked (s.setMessage m') m' :=
  shifts_write (h.again hid htrying fun blob hsome => h.blob blob (hblob ▸ hsome))

theorem shifts_generateAckdataCb (h : Referenced s) (hm : Tracked s m)
    (ackdata : { bytes : List UInt8 // bytes.length = ackdataSize }) :
    Shifts s (s.generateAckdataCb env m ackdata) := by
  obtain ⟨hset, hthere⟩ := shifts_cleared { m with ackdata, cryptoCookie := none } hm rfl rfl rfl
  exact (hset.trans (shifts_loadOrPost (h.shifts hset) hthere)).tail (.other rfl)

theorem shifts_abandonPubkey (h : Referenced s) (hm : Tracked s m)
    (hs : s.abandonPubkey env m = some s') : Shifts s s' := by
  obtain ⟨p, -, heq⟩ := Option.bind_eq_some_iff.mp hs
  cases heq
  have hremove := shifts_removePubkeyBlob h p
  have hmessages : (s.removePubkeyBlob p).messages = s.messages :=
    congrArg (·.1) (State.core_removePubkeyBlob (s := s) p)
  exact hremove.trans (shifts_loadPublicKeyForMessage (h.shifts hremove) (hm.congr hmessages))

theorem shifts_checkPubkeyCb {key : Option (PublicKey ssl)} (h : Referenced s) (hm : Tracked s m)
    (hs : s.checkPubkeyCb env m key = some s') : Shifts s s' := by
  obtain ⟨hset, hthere⟩ := shifts_cleared { m with cryptoCookie := none } hm rfl rfl rfl
  unfold State.checkPubkeyCb at hs
  cases key with
  | none => exact hset.trans (shifts_abandonPubkey (h.shifts hset) hthere hs)
  | some key =>
    cases hs
    have hmessages : ((s.setMessage { m with cryptoCookie := none }).addPublicKey key).messages =
        (s.setMessage { m with cryptoCookie := none }).messages := by
      unfold State.addPublicKey
      split_ifs <;> rfl
    exact (hset.trans (shifts_addPublicKey _ key)).trans
      (shifts_postMessage ((hthere.congr hmessages).again rfl rfl hthere.blob))

theorem shifts_loadPubkeyFromStoreCb {blob : Option Blob} (h : Referenced s) (hm : Tracked s m)
    (hs : s.loadPubkeyFromStoreCb env m blob = some s') : Shifts s s' := by
  obtain ⟨hset, hthere⟩ := shifts_cleared { m with storeCookie := none } hm rfl rfl rfl
  unfold State.loadPubkeyFromStoreCb at hs
  cases blob with
  | none => exact hset.trans (shifts_abandonPubkey (h.shifts hset) hthere hs)
  | some blob =>
    cases hs
    exact hset.trans (shifts_requestFor _ (hthere.again rfl rfl hthere.blob))

-- The end of a proof of work: the object goes to the network and the message waits.
theorem shifts_sent {found : Message ssl} {blob : Blob} (h : Referenced s) (hm : Tracked s m)
    (htype : blob.type ≠ .pubkey)
    (hfind : ((s.setMessage { m with powCookie := none }).addBlob env
      (some { m with powCookie := none }) blob).findMessage m.id = some found)
    (hid : m'.id = m.id) (htrying : m'.tryingPubkeyBlob = m.tryingPubkeyBlob)
    (hblob : m'.blob = none) :
    Shifts s (((s.setMessage { m with powCookie := none }).addBlob env
      (some { m with powCookie := none }) blob).setMessage m').saveMessages := by
  obtain ⟨hset, hthere⟩ := shifts_cleared { m with powCookie := none } hm rfl rfl rfl
  have hadded := hset.trans
    (shifts_addBlob env (h.shifts hset) (some { m with powCookie := none }) blob)
  -- the message that is found is the one that was written before
  have hmem := List.mem_of_find?_eq_some hfind
  have hfound := List.find?_some hfind
  have hsame : found = { m with powCookie := none } := by
    rcases Inv.mem_setMessage.mp (messages_addBlob env _ _ htype hmem) with ⟨heq, -⟩ | ⟨-, hne⟩
    · exact heq
    · exact absurd (of_decide_eq_true hfound) hne
  refine (hadded.tail (.write ⟨⟨found, hmem, ?_, ?_⟩, ?_⟩)).tail (.other rfl)
  · rw [hsame, hid]
  · rw [hsame, htrying]
  · rw [hblob]
    nofun

theorem shifts_getpubkeyPowCb {nonce : Nat} (h : Referenced s) (hm : Tracked s m)
    (hs : s.getpubkeyPowCb env m nonce = some s') : Shifts s s' := by
  obtain ⟨blob, hblob, hs⟩ := Option.bind_eq_some_iff.mp hs
  obtain ⟨found, hfind, hs⟩ := Option.bind_eq_some_iff.mp hs
  cases hs
  exact shifts_sent h hm (hm.blob blob hblob) hfind rfl rfl rfl

theorem shifts_msgPowCb {nonce : Nat} (h : Referenced s) (hm : Tracked s m)
    (hs : s.msgPowCb env m nonce = some s') : Shifts s s' := by
  obtain ⟨blob, hblob, hs⟩ := Option.bind_eq_some_iff.mp hs
  obtain ⟨found, hfind, hs⟩ := Option.bind_eq_some_iff.mp hs
  cases hs
  exact shifts_sent h hm (hm.blob blob hblob) hfind rfl rfl rfl

theorem shifts_loadMessageContentCb {content : Option (List UInt8)} (h : Referenced s)
    (hm : Tracked s m) (hs : s.loadMessageContentCb env m content = some s') : Shifts s s' := by
  obtain ⟨hset, hthere⟩ := shifts_cleared { m with storeCookie := none } hm rfl rfl rfl
  unfold State.loadMessageContentCb at hs
  cases content with
  | none =>
    cases hs
    exact (hset.trans (shifts_freeMessage (h.shifts hset) hthere)).tail (.other rfl)
  | some content =>
    obtain ⟨built, -, hs⟩ := Option.bind_eq_some_iff.mp hs
    cases hs
    refine hset.trans (shifts_requestFor _ (hthere.again rfl rfl ?_))
    rintro blob ⟨⟩
    nofun

theorem shifts_ackdataPowDone {nonce : Nat} (hm : Tracked s m)
    (hs : s.ackdataPowDone env m nonce = some s') : Shifts s s' := by
  obtain ⟨blob, hblob, hs⟩ := Option.bind_eq_some_iff.mp hs
  obtain ⟨toKey, -, hs⟩ := Option.bind_eq_some_iff.mp hs
  cases hs
  refine shifts_requestFor _ (hm.again rfl rfl ?_)
  rintro _ ⟨⟩
  exact hm.blob blob hblob

theorem shifts_createMsgBlobCb {blob : Blob} (hm : Tracked s m) (htype : blob.type ≠ .pubkey)
    (hs : s.createMsgBlobCb m blob = some s') : Shifts s s' := by
  obtain ⟨toKey, -, hs⟩ := Option.bind_eq_some_iff.mp hs
  cases hs
  refine shifts_requestFor _ (hm.again rfl rfl ?_)
  rintro _ ⟨⟩
  exact htype

/-! ## 4. Timers, new mail and loading -/

theorem shifts_gcTimeoutCb (h : Referenced s) (now : Int) : Shifts s (s.gcTimeoutCb now) := by
  refine shifts_foldl (fun s p hs => ?_) h s.pubkeyBlobList
  split_ifs
  · exact shifts_removePubkeyBlob hs p
  · exact .refl s

theorem shifts_resendMessage (h : Referenced s) (id : Nat) :
    Shifts s (s.resendMessage env id) := by
  unfold State.resendMessage
  split
  next => exact .refl s
  next m hfind =>
    have hm := h.tracked_find hfind
    split
    · exact shifts_sendGetpubkeyRequest hm
    · exact shifts_postMessage hm
    · exact .refl s

theorem shifts_createMessage (s : State ssl) (fromKey : Key ssl) (toAddress : Address)
    (contentEncoding : CInt) (contentId : Nat)
    (ackdata : { bytes : List UInt8 // bytes.length = ackdataSize }) :
    let made := s.createMessage fromKey toAddress contentEncoding contentId ackdata
    Shifts s made.2 ∧ Tracked made.2 made.1 ∧ made.1.tryingPubkeyBlob = none := by
  refine ⟨Shift.shifts (.create rfl rfl rfl), ⟨⟨_, List.mem_append_right _ List.mem_cons_self,
    rfl, rfl⟩, nofun⟩, rfl⟩

theorem shifts_sendTo {fromKey : Key ssl} {contentEncoding : CInt} {contentId : Nat}
    {uninitialised : { bytes : List UInt8 // bytes.length = ackdataSize }} (s : State ssl)
    (toAddress : Address) :
    Shifts s (s.sendTo fromKey contentEncoding contentId uninitialised toAddress) := by
  obtain ⟨hcreate, hthere, -⟩ := shifts_createMessage s fromKey toAddress contentEncoding contentId
    uninitialised
  exact hcreate.trans (shifts_requestFor _ (hthere.again rfl rfl hthere.blob))

theorem shifts_sendMessage (h : Referenced s) (fromAddress : Address) (toAddresses : List Address)
    (contentEncoding : CInt) (content : List UInt8)
    (uninitialised : { bytes : List UInt8 // bytes.length = ackdataSize }) :
    Shifts s (s.sendMessage fromAddress toAddresses contentEncoding content uninitialised) := by
  unfold State.sendMessage
  split
  next => exact .refl s
  next fromKey _ =>
    split_ifs
    · exact .refl s
    · have hsave : Shifts s ({ s with nextMessageContentId := s.nextMessageContentId + 1 }.emit
          [.saveMessageContent s.nextMessageContentId content]) := Shift.shifts (.other rfl)
      exact hsave.trans (shifts_foldl (fun s toAddress _ => shifts_sendTo s toAddress)
        (h.shifts hsave) toAddresses)

theorem shifts_forEachOutgoingCb (h : Referenced s) (record : Record) :
    Shifts s (s.forEachOutgoingCb env record) := by
  unfold State.forEachOutgoingCb
  extract_lets s₁
  have hskip : Shifts s s₁ := by
    unfold s₁
    split_ifs
    · exact Shift.shifts (.other rfl)
    · exact .refl s
  clear_value s₁
  split
  next => exact hskip
  next fromKey _ =>
    obtain ⟨hcreate, hthere, -⟩ := shifts_createMessage s₁ fromKey record.toAddress
      record.contentEncoding record.contentId record.ackdata
    obtain ⟨hset, hthere⟩ := shifts_cleared (s₁.createLoaded fromKey record).1 hthere rfl rfl rfl
    have hloaded : Shifts s (s₁.createLoaded fromKey record).2 :=
      ((hskip.trans hcreate).trans hset).tail (.other rfl)
    exact hloaded.trans (shifts_loadOrPost (h.shifts hloaded) (hthere.congr rfl))

theorem shifts_restart (s : State ssl) (keys : List (KeyringKey ssl)) (pubkeys : List Blob)
    (records : List Record) : Shifts s (s.restart env keys pubkeys records) := by
  have hstart : Shifts s
      { keys, nextTask := s.nextTask, nextMessage := s.nextMessage, log := s.log } :=
    Shift.shifts (.restart s keys)
  have hempty : Referenced
      ({ keys, nextTask := s.nextTask, nextMessage := s.nextMessage, log := s.log } : State ssl) :=
    Referenced.empty keys _ _ _
  have hpubkeys := shifts_foldl (fun s blob hs => shifts_handlePubkey env hs blob) hempty pubkeys
  exact (hstart.trans hpubkeys).trans (shifts_foldl
    (fun s record hs => shifts_forEachOutgoingCb hs record) (hempty.shifts hpubkeys) records)

/-! ## 5. Events -/

theorem shifts_sendAcknowledgement (env : Env ssl) (ack : List UInt8) (h : Referenced s) :
    Shifts s (s.sendAcknowledgement env ack) := by
  unfold State.sendAcknowledgement
  extract_lets name
  split_ifs
  · exact .refl s
  · split
    next => exact .refl s
    next type _ =>
      have hemit : Shifts s
          (s.emit [.addObjectFromData { type, data := ack.drop headerSize }]) :=
        Shift.shifts (.other rfl)
      exact hemit.trans (shifts_announce (h.shifts hemit) _)

theorem shifts_decryptMsgCb (h : Referenced s) (timestamp : Int) (key : KeyringKey ssl)
    (plaintext : List UInt8) : Shifts s (s.decryptMsgCb env timestamp key plaintext) := by
  unfold State.decryptMsgCb
  extract_lets mem
  split
  next => exact .refl s
  next msg _ =>
    split_ifs
    · exact .refl s
    · exact .refl s
    · have hkey : ∀ address signing encryption trials bytes,
          Shifts s (s.addPublicKeyFromNetworkKeys address signing encryption trials bytes) := by
        intro address signing encryption trials bytes
        refine Shift.shifts (.other ?_)
        unfold State.addPublicKeyFromNetworkKeys
        split_ifs <;> rfl
      have hadded := hkey (senderAddress ssl plaintext msg) (window mem msg.senderSigningKey 64)
        (window mem msg.senderEncryptionKey 64) msg.nonceTrialsPerByte msg.extraBytes
      exact (hadded.trans (shifts_sendAcknowledgement env (window mem msg.ack msg.ackLength)
        (h.shifts hadded))).tail (.other rfl)

theorem shifts_callback {job : Job ssl} {result : Result ssl} (h : Referenced s)
    (hs : callback env s job result = some s') : Shifts s s' := by
  unfold callback at hs
  split at hs
  next id ackdata =>
    obtain ⟨m, hfind, hs⟩ := Option.bind_eq_some_iff.mp hs
    cases hs
    exact shifts_generateAckdataCb h (h.tracked_find hfind) ackdata
  next id address blob =>
    obtain ⟨m, hfind, hs⟩ := Option.bind_eq_some_iff.mp hs
    obtain ⟨key, -, hs⟩ := Option.bind_eq_some_iff.mp hs
    exact shifts_checkPubkeyCb h (h.tracked_find hfind) hs
  next id timestamp fromKey toKey content =>
    obtain ⟨m, hfind, hs⟩ := Option.bind_eq_some_iff.mp hs
    exact shifts_createMsgBlobCb (h.tracked_find hfind) (show InvType.msg ≠ .pubkey by decide) hs
  next id payload nonce =>
    obtain ⟨m, hfind, hs⟩ := Option.bind_eq_some_iff.mp hs
    exact shifts_getpubkeyPowCb h (h.tracked_find hfind) hs
  next id payload nonce =>
    obtain ⟨m, hfind, hs⟩ := Option.bind_eq_some_iff.mp hs
    exact shifts_ackdataPowDone (h.tracked_find hfind) hs
  next id payload extraBytes trialsPerByte nonce =>
    obtain ⟨m, hfind, hs⟩ := Option.bind_eq_some_iff.mp hs
    exact shifts_msgPowCb h (h.tracked_find hfind) hs
  next id hash blob =>
    obtain ⟨m, hfind, hs⟩ := Option.bind_eq_some_iff.mp hs
    exact shifts_loadPubkeyFromStoreCb h (h.tracked_find hfind) hs
  next id contentId content =>
    obtain ⟨m, hfind, hs⟩ := Option.bind_eq_some_iff.mp hs
    exact shifts_loadMessageContentCb h (h.tracked_find hfind) hs
  next =>
    cases hs
    exact Shift.shifts (.other rfl)
  next =>
    cases hs
    exact shifts_addBlob env h none _
  next =>
    split at hs
    · cases hs
      exact shifts_addPublicKey s _
    · cases hs
  next timestamp blob keys result =>
    cases result with
    | none =>
      cases hs
      exact .refl s
    | some decrypted =>
      obtain ⟨key, plaintext⟩ := decrypted
      cases hs
      exact shifts_decryptMsgCb h timestamp key plaintext
  next => cases hs

theorem step_shifts {e : Event ssl} (h : Referenced s) (hs : step s e = some s') :
    Shifts s s' := by
  cases e with
  | sendMessage fromAddress toAddresses contentEncoding content uninitialised =>
    cases hs
    exact shifts_sendMessage h _ _ _ _ _
  | newObject env blob =>
    simp only [step] at hs
    split_ifs at hs
    cases hs
    exact shifts_newObjectCb h blob
  | complete env t result =>
    obtain ⟨⟨t', job⟩, -, hs⟩ := Option.bind_eq_some_iff.mp hs
    have hcancel : Shifts s (s.cancel (some t)) := Shift.shifts (.other rfl)
    exact hcancel.trans (shifts_callback (h.shifts hcancel) hs)
  | resend env =>
    cases hs
    exact shifts_foldl (fun s id hs => shifts_resendMessage hs id) h _
  | gc now =>
    cases hs
    exact shifts_gcTimeoutCb h now
  | addKey key =>
    cases hs
    exact Shift.shifts (.other rfl)
  | save =>
    cases hs
    exact Shift.shifts (.other rfl)
  | restart env keys pubkeys save =>
    obtain ⟨records, -, rfl⟩ := Option.map_eq_some_iff.mp hs
    exact shifts_restart s keys pubkeys records

theorem Referenced.step {e : Event ssl} (h : Referenced s) (hs : step s e = some s') :
    Referenced s' := h.shifts (step_shifts h hs)

/-! ## 6. Runs -/

end Notbit.Keyring
