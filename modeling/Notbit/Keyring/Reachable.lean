import Notbit.Keyring.Callbacks

/-!
# Reachable — the invariant through every event

The invariant is read in three ways.  With `loads` a send time that was loaded from the store counts
as good, and restarts are free; without it a restart has to be one from records that tell the truth.
With `strict` no message waits for the answer to a request that was interrupted, as long as no event
makes one do so.
-/

open Bytes Traced Notbit.Proto

namespace Notbit.Keyring

variable {ssl : OpenSSL} {loads strict : Prop} {env : Env ssl} {s s' : State ssl}
  {m : Message ssl} {log log' : List (Effect ssl)}

namespace Inv

/-! ## 1. Timers and new mail -/

theorem resendMessage (h : Inv loads strict s none) (id : Nat) :
    Inv loads strict (s.resendMessage env id) none := by
  unfold State.resendMessage
  split
  next => exact h
  next m hfind =>
    have hm := List.mem_of_find?_eq_some hfind
    have htimes := h.times m hm nofun
    -- only the messages that wait for the network are sent again
    split
    next hstate =>
      have hquiet := h.quiet hm (.inl hstate)
      obtain ⟨hgetpubkey, hmsg⟩ := htimes.accounted (by rw [hstate]; rfl)
      refine (h.of_quiet hm hquiet).sendGetpubkeyRequest ⟨hquiet.1, hgetpubkey, hmsg⟩ ?_
      intro hstrict hinterrupted
      rw [htimes.waiting hstrict hstate] at hinterrupted
      cases hinterrupted
    next hstate =>
      have hquiet := h.quiet hm (.inr hstate)
      obtain ⟨hgetpubkey, hmsg⟩ := htimes.accounted (by rw [hstate]; rfl)
      refine (h.of_quiet hm hquiet).postMessage ⟨hquiet.1, hgetpubkey, hmsg⟩ ?_
      rcases hquiet.2 with hpubkey | hack
      · rw [hstate] at hpubkey
        cases hpubkey
      · exact hack.2
    next => exact h

theorem foldl {α : Type} {f : State ssl → α → State ssl}
    (hf : ∀ s a, Inv loads strict s none → Inv loads strict (f s a) none)
    (h : Inv loads strict s none) (l : List α) : Inv loads strict (l.foldl f s) none := by
  induction l generalizing s with
  | nil => exact h
  | cons a l ih => exact ih (hf s a h)

theorem gcTimeoutCb (h : Inv loads strict s none) (now : Int) :
    Inv loads strict (s.gcTimeoutCb now) none := by
  refine h.foldl (fun s p hs => ?_) _
  split_ifs
  · exact hs.congr (State.core_removePubkeyBlob p)
  · exact hs

theorem sendTo (h : Inv loads strict s none) (fromKey : Key ssl) (contentEncoding : CInt)
    (contentId : Nat) (uninitialised : { bytes : List UInt8 // bytes.length = ackdataSize })
    (toAddress : Address) :
    Inv loads strict (s.sendTo fromKey contentEncoding contentId uninitialised toAddress) none := by
  refine Inv.start (h.create rfl) rfl (.generateAckdata rfl rfl) ?_
  exact ⟨fun _ => .inr (.inl rfl), fun _ _ => .inl rfl, fun _ => ⟨rfl, rfl⟩, nofun⟩

theorem sendMessage (h : Inv loads strict s none) (fromAddress : Address)
    (toAddresses : List Address) (contentEncoding : CInt) (content : List UInt8)
    (uninitialised : { bytes : List UInt8 // bytes.length = ackdataSize }) :
    Inv loads strict
      (s.sendMessage fromAddress toAddresses contentEncoding content uninitialised) none := by
  unfold State.sendMessage
  split
  · exact h
  · split_ifs
    · exact h
    · have hnext : Inv loads strict
          { s with nextMessageContentId := s.nextMessageContentId + 1 } none := h.congr rfl
      exact (hnext.emit (by simp)).foldl (fun s address hs => hs.sendTo _ _ _ _ address) _

end Inv

/-! ## 2. A new start -/

variable (loads) in
/-- The times of a record are those of objects that were sent; after loading anything goes. -/
def RecordOk (log : List (Effect ssl)) (record : Record) : Prop :=
  ¬ loads →
    (record.lastGetpubkeySendTime = 0 ∨
      GetpubkeySent log record.lastGetpubkeySendTime record.toAddress) ∧
    (record.lastMsgSendTime = 0 ∨
      MsgSent log record.lastMsgSendTime record.ackdata record.toAddress)

theorem RecordOk.mono {record : Record} (h : RecordOk loads log record) (hlog : log ⊆ log') :
    RecordOk loads log' record := by
  intro hloads
  obtain ⟨hgetpubkey, hmsg⟩ := h hloads
  exact ⟨hgetpubkey.imp_right fun hsent => hsent.mono hlog,
    hmsg.imp_right fun hsent => hsent.mono hlog⟩

/-- No send time of the message was set too early: its msg object is not being built, and the proof
of work of its getpubkey request was not cancelled. -/
def Settled (m : Message ssl) : Prop :=
  m.state ≠ .createMsgBlob ∧ m.getpubkeyInterrupted = false

/-- What is saved of a message tells the truth, but where the send time was set too early. -/
theorem TimesOk.recordOk (h : TimesOk loads strict log m)
    (hsettled : ¬ loads → Settled m) :
    RecordOk loads log (addOutgoing m) := by
  intro hloads
  obtain ⟨hcreate, hgoing⟩ := hsettled hloads
  constructor
  · by_cases hpow : m.state = .calculatingGetpubkeyPow
    · exact .inl (by simp [addOutgoing, hpow])
    · have htime : (addOutgoing m).lastGetpubkeySendTime = m.lastGetpubkeySendTime := by
        simp [addOutgoing]
      rw [htime]
      rcases h.getpubkey hpow with hinterrupted | hzero | hsent | ⟨hloaded, -⟩
      · rw [hgoing] at hinterrupted
        cases hinterrupted
      · exact .inl hzero
      · exact .inr hsent
      · exact absurd hloaded hloads
  · by_cases hpow : m.state = .calculatingAckdataPow ∨ m.state = .calculatingMsgPow
    · refine .inl ?_
      rcases hpow with hpow | hpow <;> simp [addOutgoing, hpow]
    · rw [not_or] at hpow
      have htime : (addOutgoing m).lastMsgSendTime = m.lastMsgSendTime := by
        simp [addOutgoing, hpow]
      rw [htime]
      rcases h.msg hcreate hpow.2 with hzero | hsent | hloaded
      · exact .inl hzero
      · exact .inr hsent
      · exact absurd hloaded hloads

namespace Inv

theorem createLoaded {record : Record} (h : Inv loads strict s none)
    (hrecord : RecordOk loads s.log record) (fromKey : Key ssl) :
    Inv loads strict (s.createLoaded fromKey record).2
        (some (s.createLoaded fromKey record).1.id) ∧
      Ready loads (s.createLoaded fromKey record).2.log (s.createLoaded fromKey record).1 ∧
      s.log ⊆ (s.createLoaded fromKey record).2.log := by
  have hcreated := h.create (m := (s.createMessage fromKey record.toAddress
    record.contentEncoding record.contentId record.ackdata).1) rfl
  have hsub : s.log ⊆ (s.createLoaded fromKey record).2.log := List.subset_append_left _ _
  have hwritten := Inv.write (m := (s.createLoaded fromKey record).1) hcreated rfl
  refine ⟨Inv.emit hwritten (by simp), ⟨rfl, ?_, ?_⟩, hsub⟩
  · by_cases hloads : loads
    · exact .inr (.inr (.inr ⟨hloads, record, List.mem_append_right _ List.mem_cons_self, rfl⟩))
    · exact .inr ((hrecord.mono hsub hloads).1.imp_right .inl)
  · by_cases hloads : loads
    · exact .inr (.inr hloads)
    · exact (hrecord.mono hsub hloads).2.imp_right .inl

theorem forEachOutgoingCb {record : Record} (env : Env ssl) (h : Inv loads strict s none)
    (hrecord : RecordOk loads s.log record) :
    Inv loads strict (s.forEachOutgoingCb env record) none ∧
      s.log ⊆ (s.forEachOutgoingCb env record).log := by
  unfold State.forEachOutgoingCb
  extract_lets s₁
  have hcore : s₁.core = s.core := by
    unfold s₁
    split_ifs <;> rfl
  have hlog : s₁.log = s.log := congrArg (·.2.2.2.2) hcore
  have hstart := h.congr hcore
  rw [← hlog] at hrecord ⊢
  clear_value s₁
  split
  next => exact ⟨hstart, List.Subset.refl _⟩
  next fromKey _ =>
    obtain ⟨hout, hready, hsub⟩ := hstart.createLoaded hrecord fromKey
    refine ⟨Inv.loadOrPost (m := (s₁.createLoaded fromKey record).1) hout hready rfl, ?_⟩
    simp only [State.log_loadOrPost]
    exact hsub

theorem forEachOutgoing {records : List Record} (h : Inv loads strict s none)
    (hrecords : ∀ record ∈ records, RecordOk loads s.log record) :
    Inv loads strict (records.foldl (State.forEachOutgoingCb env) s) none := by
  induction records generalizing s with
  | nil => exact h
  | cons record records ih =>
    obtain ⟨hnext, hlog⟩ :=
      h.forEachOutgoingCb env (hrecords record List.mem_cons_self)
    exact ih hnext fun r hr => (hrecords r (List.mem_cons_of_mem record hr)).mono hlog

-- Without messages the pubkey objects only fill the list.
theorem core_handlePubkeys (env : Env ssl) (pubkeys : List Blob) (hs : s.messages = []) :
    (pubkeys.foldl (State.handlePubkey env) s).core = s.core := by
  induction pubkeys generalizing s with
  | nil => rfl
  | cons blob pubkeys ih =>
    have hcore : (s.handlePubkey env blob).core = s.core := by
      unfold State.handlePubkey
      split
      · rfl
      next entry _ =>
        have hinsert := State.core_insertPubkeyBlob (s := s) entry
        have hmessages : (s.insertPubkeyBlob entry).2.messages = [] :=
          (congrArg (·.1) hinsert).trans hs
        simp only [State.checkPubkeyBlobWithMessages, hmessages, List.map_nil, List.foldl_nil]
        exact hinsert
    have hmessages : (s.handlePubkey env blob).messages = [] := (congrArg (·.1) hcore).trans hs
    exact (ih hmessages).trans hcore

theorem empty (hmessages : s.messages = []) (htasks : s.tasks = [])
    (hsaved : ∀ messages, .saveOutgoings messages ∈ s.log → ∀ m ∈ messages,
      TimesOk loads strict s.log m) : Inv loads strict s none where
  messageIds := by simp [hmessages]
  messageBound := by simp [hmessages]
  taskIds := by simp [htasks]
  taskBound := by simp [htasks]
  working := by simp [hmessages]
  owned := by simp [htasks]
  times := by simp [hmessages]
  saved := hsaved
  held := by simp

theorem restart {records : List Record} (h : Inv loads strict s none)
    (hrecords : ∀ record ∈ records, RecordOk loads s.log record)
    (keys : List (KeyringKey ssl)) (pubkeys : List Blob) :
    Inv loads strict (s.restart env keys pubkeys records) none := by
  let s₀ : State ssl :=
    { keys, nextTask := s.nextTask, nextMessage := s.nextMessage, log := s.log }
  have hempty : Inv loads strict s₀ none := Inv.empty rfl rfl h.saved
  have hcore := core_handlePubkeys (s := s₀) env pubkeys rfl
  have hlog : s.log = (pubkeys.foldl (State.handlePubkey env) s₀).log :=
    (congrArg (·.2.2.2.2) hcore).symm
  refine (hempty.congr hcore).forEachOutgoing fun record hrecord => ?_
  rw [← hlog]
  exact hrecords record hrecord

end Inv

/-! ## 3. Events -/

/-- The task comes back without a pubkey for its message. -/
def PubkeyFails (env : Env ssl) : Job ssl → Result ssl → Prop
  | .checkPubkey _ address blob, .checked => checkedKey env address blob = some none
  | .loadPubkey _ _, .blob none => True
  | _, _ => False

/-- No pubkey fails while its message counts on a request that was interrupted. -/
def NoRequestLost (s : State ssl) (e : Event ssl) : Prop :=
  ∀ env t result, e = .complete env t result → ∀ job, (t, job) ∈ s.tasks →
    PubkeyFails env job result → ∀ m ∈ s.messages, job.message = some m.id →
      ¬ RequestLost env s m

/-- No restart is from records of messages whose send times were set too early. -/
def RestartsSettled (s : State ssl) (e : Event ssl) : Prop :=
  ∀ env keys pubkeys save, e = .restart env keys pubkeys save →
    ∀ messages, s.log[save]? = some (.saveOutgoings messages) → ∀ m ∈ messages, Settled m

namespace Inv

-- The message of a task that has just come back.
theorem taken {t id : Nat} {job : Job ssl} (h : Inv loads strict s none) (ht : (t, job) ∈ s.tasks)
    (hmsg : job.message = some id) (hfind : (s.cancel (some t)).findMessage id = some m) :
    m ∈ s.messages ∧ m.id = id ∧ Waits m t job ∧ TimesOk loads strict s.log m ∧
      Inv loads strict (s.cancel (some t)) (some m.id) := by
  obtain ⟨m', hm', rfl, hwaits⟩ := h.owner ht hmsg
  obtain rfl := Option.some.inj ((h.findMessage_eq hm').symm.trans hfind)
  have hout := h.take ht
  rw [hmsg] at hout
  exact ⟨hm', rfl, hwaits, h.times m' hm' nofun, hout⟩

theorem callback {t : Nat} {job : Job ssl} {result : Result ssl} (h : Inv loads strict s none)
    (ht : (t, job) ∈ s.tasks)
    (hlost : strict → PubkeyFails env job result → ∀ m ∈ s.messages, job.message = some m.id →
      ¬ RequestLost env s m)
    (hs : callback env (s.cancel (some t)) job result = some s') : Inv loads strict s' none := by
  have hfree : job.message = none → Inv loads strict (s.cancel (some t)) none := by
    intro hmsg
    have hout := h.take ht
    rwa [hmsg] at hout
  unfold Keyring.callback at hs
  split at hs
  next id ackdata =>
    obtain ⟨m, hfind, hs⟩ := Option.bind_eq_some_iff.mp hs
    cases hs
    obtain ⟨-, -, hwaits, htimes, hout⟩ := h.taken ht rfl hfind
    exact hout.generateAckdataCb hwaits htimes ackdata
  next id address blob =>
    obtain ⟨m, hfind, hs⟩ := Option.bind_eq_some_iff.mp hs
    obtain ⟨key, hkey, hs⟩ := Option.bind_eq_some_iff.mp hs
    obtain ⟨hm, hid, hwaits, htimes, hout⟩ := h.taken ht rfl hfind
    refine hout.checkPubkeyCb hwaits htimes ?_ hs
    rintro rfl hstrict
    rw [requestLost_cancel]
    exact hlost hstrict hkey m hm (congrArg some hid.symm)
  next id timestamp fromKey toKey content =>
    obtain ⟨m, hfind, hs⟩ := Option.bind_eq_some_iff.mp hs
    obtain ⟨-, -, hwaits, htimes, hout⟩ := h.taken ht rfl hfind
    exact hout.createMsgBlobCb hwaits htimes hs
  next id payload nonce =>
    obtain ⟨m, hfind, hs⟩ := Option.bind_eq_some_iff.mp hs
    obtain ⟨-, -, hwaits, htimes, hout⟩ := h.taken ht rfl hfind
    exact hout.getpubkeyPowCb hwaits htimes hs
  next id payload nonce =>
    obtain ⟨m, hfind, hs⟩ := Option.bind_eq_some_iff.mp hs
    obtain ⟨-, -, hwaits, htimes, hout⟩ := h.taken ht rfl hfind
    exact hout.ackdataPowDone hwaits htimes hs
  next id payload extraBytes trialsPerByte nonce =>
    obtain ⟨m, hfind, hs⟩ := Option.bind_eq_some_iff.mp hs
    obtain ⟨-, -, hwaits, htimes, hout⟩ := h.taken ht rfl hfind
    exact hout.msgPowCb hwaits htimes hs
  next id hash blob =>
    obtain ⟨m, hfind, hs⟩ := Option.bind_eq_some_iff.mp hs
    obtain ⟨hm, hid, hwaits, htimes, hout⟩ := h.taken ht rfl hfind
    refine hout.loadPubkeyFromStoreCb hwaits htimes ?_ hs
    rintro rfl hstrict
    rw [requestLost_cancel]
    exact hlost hstrict trivial m hm (congrArg some hid.symm)
  next id contentId content =>
    obtain ⟨m, hfind, hs⟩ := Option.bind_eq_some_iff.mp hs
    obtain ⟨-, -, hwaits, htimes, hout⟩ := h.taken ht rfl hfind
    exact hout.loadMessageContentCb hwaits htimes hs
  next =>
    cases hs
    exact (hfree rfl).request rfl
  next =>
    cases hs
    exact (hfree rfl).addBlob _ _
  next =>
    split at hs
    · cases hs
      exact (hfree rfl).addPublicKey _
    · cases hs
  next =>
    split at hs
    · cases hs
      exact hfree rfl
    · cases hs
      exact (hfree rfl).decryptMsgCb _ _ _
  next => cases hs

theorem step {e : Event ssl} (h : Inv loads strict s none) (hlost : strict → NoRequestLost s e)
    (hsettled : ¬ loads → RestartsSettled s e) (hs : step s e = some s') :
    Inv loads strict s' none := by
  cases e with
  | sendMessage fromAddress toAddresses contentEncoding content uninitialised =>
    cases hs
    exact h.sendMessage _ _ _ _ _
  | newObject env blob =>
    simp only [Keyring.step] at hs
    split at hs
    next hann =>
      cases hs
      have hannounced : Inv loads strict (s.announce env blob) none := h.announce blob
      rwa [State.announce, if_pos hann] at hannounced
    next => cases hs
  | complete env t result =>
    obtain ⟨⟨t', job⟩, hfind, hs⟩ := Option.bind_eq_some_iff.mp hs
    have hid := List.find?_some hfind
    obtain rfl : t' = t := of_decide_eq_true hid
    have ht := List.mem_of_find?_eq_some hfind
    exact h.callback ht (fun hstrict => hlost hstrict env t' result rfl job ht) hs
  | resend env =>
    cases hs
    exact h.foldl (fun s id hs => hs.resendMessage id) _
  | gc now =>
    cases hs
    exact h.gcTimeoutCb now
  | addKey key =>
    cases hs
    exact h.saveKeyring _
  | save =>
    cases hs
    exact h.saveMessages
  | restart env keys pubkeys save =>
    obtain ⟨records, hrecords, rfl⟩ := Option.map_eq_some_iff.mp hs
    unfold savedRecords at hrecords
    split at hrecords
    next messages hsave =>
      cases hrecords
      refine h.restart (fun record hrecord => ?_) keys pubkeys
      obtain ⟨m, hm, rfl⟩ := List.mem_map.mp hrecord
      exact (h.saved messages (List.mem_of_getElem? hsave) m hm).recordOk fun hloads =>
        hsettled hloads env keys pubkeys save rfl messages hsave m hm
    next => cases hrecords

end Inv

theorem inv_new (keys : List (KeyringKey ssl)) : Inv loads strict (State.new keys) none :=
  Inv.empty rfl rfl (by simp [State.new])

end Notbit.Keyring
