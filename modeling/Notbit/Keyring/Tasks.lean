import Notbit.Keyring.Events

/-!
# Tasks — which task an outgoing message waits for, and which of its send times are true

One invariant for the three questions about the life of a message: whether it holds the task its
state requires, whether the getpubkey request it counts on was sent, and whether the send times that
are saved for it are those of objects that were sent.

A callback takes a message out of the invariant and puts it back in its next state, so the invariant
has a message `out` that it says nothing of.
-/

open Bytes Traced Notbit.Proto

namespace Notbit.Keyring

variable {ssl : OpenSSL}

/-! ## 1. What a message waits for -/

def Message.cookies (m : Message ssl) : Option Nat × Option Nat × Option Nat :=
  (m.cryptoCookie, m.powCookie, m.storeCookie)

/-- A blob with eight bytes for the nonce in front of `body`. -/
def HasBody (blob : Option Blob) (type : InvType) (body : Buffer) : Prop :=
  ∃ hole, hole.length = 8 ∧ blob = some { type, data := hole ++ body }

/-- The request `job` with cookie `t` is the one that the state of the message calls for, and the
fields that its callback relies on are set. -/
inductive Waits (m : Message ssl) (t : Nat) : Job ssl → Prop where
  | generateAckdata (hstate : m.state = .generatingAckdata)
      (hcookies : m.cookies = (some t, none, none)) : Waits m t (.generateAckdata m.id)
  | loadPubkey (hash : Hash) (hstate : m.state = .loadingPubkeyFromStore)
      (hcookies : m.cookies = (none, none, some t)) (htrying : m.tryingPubkeyBlob.isSome) :
      Waits m t (.loadPubkey m.id hash)
  | checkPubkey (blob : Blob) (hstate : m.state = .tryingBlob)
      (hcookies : m.cookies = (some t, none, none)) (htrying : m.tryingPubkeyBlob.isSome) :
      Waits m t (.checkPubkey m.id m.toAddress blob)
  | getpubkeyPow (hstate : m.state = .calculatingGetpubkeyPow)
      (hcookies : m.cookies = (none, some t, none)) (hgoing : m.getpubkeyInterrupted = false)
      (hblob : HasBody m.blob .getpubkey
        (State.getpubkeyFields ssl m.lastGetpubkeySendTime m.toAddress)) :
      Waits m t (.getpubkeyPow m.id
        (State.getpubkeyFields ssl m.lastGetpubkeySendTime m.toAddress))
  | loadContent (hstate : m.state = .loadingContent)
      (hcookies : m.cookies = (none, none, some t)) (hkey : m.toKey.isSome) :
      Waits m t (.loadContent m.id m.contentId)
  | ackdataPow (payload : List UInt8) (hstate : m.state = .calculatingAckdataPow)
      (hcookies : m.cookies = (none, some t, none)) (hkey : m.toKey.isSome)
      (hblob : m.blob.isSome) : Waits m t (.ackdataPow m.id payload)
  | createMsgBlob (toKey : PublicKey ssl) (content : List UInt8)
      (hstate : m.state = .createMsgBlob) (hcookies : m.cookies = (some t, none, none))
      (hkey : m.toKey = some toKey) :
      Waits m t (.createMsgBlob m.id m.lastMsgSendTime m.fromKey toKey content)
  | msgPow (env : Env ssl) (toKey : PublicKey ssl) (content : List UInt8)
      (extraBytes trialsPerByte : Int) (hstate : m.state = .calculatingMsgPow)
      (hcookies : m.cookies = (none, some t, none)) (hkey : m.toKey = some toKey)
      (hblob : HasBody m.blob .msg
        (State.msgFields env m.lastMsgSendTime m.fromKey toKey content)) :
      Waits m t (.msgPow m.id (State.msgFields env m.lastMsgSendTime m.fromKey toKey content)
        extraBytes trialsPerByte)

/-- The message waits for the network and not for a task. -/
def Quiet (m : Message ssl) : Prop :=
  m.cookies = (none, none, none) ∧
    (m.state = .awaitingPubkey ∨ m.state = .awaitingAcknowledgement ∧ m.toKey.isSome)

namespace Waits

variable {m : Message ssl} {t t' : Nat} {job job' : Job ssl}

theorem message (h : Waits m t job) : job.message = some m.id := by
  cases h <;> rfl

-- One of the cookies is that of the task and the others are not set.
theorem cookies_cases (h : Waits m t job) :
    m.cookies = (some t, none, none) ∨ m.cookies = (none, some t, none) ∨
      m.cookies = (none, none, some t) := by
  cases h with
  | generateAckdata _ hcookies | checkPubkey _ _ hcookies _ | createMsgBlob _ _ _ hcookies _ =>
    exact .inl hcookies
  | getpubkeyPow _ hcookies _ _ | ackdataPow _ _ hcookies _ _ | msgPow _ _ _ _ _ _ hcookies _ _ =>
    exact .inr (.inl hcookies)
  | loadPubkey _ _ hcookies _ | loadContent _ hcookies _ => exact .inr (.inr hcookies)

theorem unique (h : Waits m t job) (h' : Waits m t' job') : t = t' := by
  rcases h.cookies_cases with hc | hc | hc <;> rcases h'.cookies_cases with hc' | hc' | hc' <;>
    simp_all

theorem not_quiet (h : Waits m t job) : ¬ Quiet m := by
  rintro ⟨hquiet, -⟩
  rcases h.cookies_cases with hc | hc | hc <;> rw [hquiet] at hc <;> cases hc

theorem state_ne (h : Waits m t job) :
    m.state ≠ .awaitingPubkey ∧ m.state ≠ .awaitingAcknowledgement := by
  cases h <;> simp_all

end Waits

/-! ## 2. Send times -/

/-- A getpubkey object for the address with this time was handed to the network. -/
def GetpubkeySent (log : List (Effect ssl)) (time : Int) (address : Address) : Prop :=
  ∃ message nonce, .addBlob message
    { type := .getpubkey
      data := toBE 8 nonce ++ State.getpubkeyFields ssl time address } ∈ log

/-- A msg object with this time was handed to the network for the message with this ackdata. -/
def MsgSent (log : List (Effect ssl)) (time : Int)
    (ackdata : { bytes : List UInt8 // bytes.length = ackdataSize }) (address : Address) : Prop :=
  ∃ (m : Message ssl) (blob : Blob), .addBlob (some m) blob ∈ log ∧ m.ackdata = ackdata ∧
    m.toAddress = address ∧ blob.type = .msg ∧ (blob.data.drop 8).take 8 = add64 (toUInt64 time)

/-- The message was loaded with the send time it has. -/
def GetpubkeyTimeLoaded (log : List (Effect ssl)) (m : Message ssl) : Prop :=
  ∃ record, .loadedOutgoing m.id record ∈ log ∧
    record.lastGetpubkeySendTime = m.lastGetpubkeySendTime

variable (loads strict : Prop)

/-- Where the time of the getpubkey request comes from.  That it was loaded counts if `loads`. -/
def GetpubkeyAccounted (log : List (Effect ssl)) (m : Message ssl) : Prop :=
  m.getpubkeyInterrupted ∨ m.lastGetpubkeySendTime = 0 ∨
    GetpubkeySent log m.lastGetpubkeySendTime m.toAddress ∨ (loads ∧ GetpubkeyTimeLoaded log m)

/-- Where the time of the msg object comes from. -/
def MsgAccounted (log : List (Effect ssl)) (m : Message ssl) : Prop :=
  m.lastMsgSendTime = 0 ∨ MsgSent log m.lastMsgSendTime m.ackdata m.toAddress ∨ loads

/-- The send times of a message are accounted for, but in the states in which an object with the
time is on its way.  A request that was interrupted is not waited for if `strict`. -/
structure TimesOk (log : List (Effect ssl)) (m : Message ssl) : Prop where
  getpubkey : m.state ≠ .calculatingGetpubkeyPow → GetpubkeyAccounted loads log m
  msg : m.state ≠ .createMsgBlob → m.state ≠ .calculatingMsgPow → MsgAccounted loads log m
  fresh : m.state = .generatingAckdata →
    m.lastMsgSendTime = 0 ∧ m.getpubkeyInterrupted = false
  waiting : strict → m.state = .awaitingPubkey → m.getpubkeyInterrupted = false

/-- The states in which an object with a send time of the message is on its way. -/
def MessageState.sending : MessageState → Bool
  | .calculatingGetpubkeyPow | .createMsgBlob | .calculatingMsgPow => true
  | _ => false

/-- What a message needs to be sent on its way again. -/
structure Ready (log : List (Effect ssl)) (m : Message ssl) : Prop where
  cookies : m.cookies = (none, none, none)
  getpubkey : GetpubkeyAccounted loads log m
  msg : MsgAccounted loads log m

variable {loads strict} {log log' : List (Effect ssl)} {m : Message ssl}

theorem GetpubkeySent.mono {time : Int} {address : Address} (h : GetpubkeySent log time address)
    (hlog : log ⊆ log') : GetpubkeySent log' time address := by
  obtain ⟨message, nonce, hmem⟩ := h
  exact ⟨message, nonce, hlog hmem⟩

theorem MsgSent.mono {time : Int} {ackdata : { bytes : List UInt8 // bytes.length = ackdataSize }}
    {address : Address} (h : MsgSent log time ackdata address) (hlog : log ⊆ log') :
    MsgSent log' time ackdata address := by
  obtain ⟨m, blob, hmem, hfields⟩ := h
  exact ⟨m, blob, hlog hmem, hfields⟩

theorem GetpubkeyAccounted.mono (h : GetpubkeyAccounted loads log m) (hlog : log ⊆ log') :
    GetpubkeyAccounted loads log' m := by
  rcases h with h | h | h | ⟨hloads, record, hmem, htime⟩
  · exact .inl h
  · exact .inr (.inl h)
  · exact .inr (.inr (.inl (h.mono hlog)))
  · exact .inr (.inr (.inr ⟨hloads, record, hlog hmem, htime⟩))

theorem MsgAccounted.mono (h : MsgAccounted loads log m) (hlog : log ⊆ log') :
    MsgAccounted loads log' m :=
  h.imp_right (Or.imp_left fun hsent => hsent.mono hlog)

theorem TimesOk.mono (h : TimesOk loads strict log m) (hlog : log ⊆ log') :
    TimesOk loads strict log' m where
  getpubkey hstate := (h.getpubkey hstate).mono hlog
  msg hcreate hpow := (h.msg hcreate hpow).mono hlog
  fresh := h.fresh
  waiting := h.waiting

theorem TimesOk.accounted (h : TimesOk loads strict log m) (hstate : m.state.sending = false) :
    GetpubkeyAccounted loads log m ∧ MsgAccounted loads log m := by
  refine ⟨h.getpubkey ?_, h.msg ?_ ?_⟩
  · intro heq
    rw [heq] at hstate
    cases hstate
  · intro heq
    rw [heq] at hstate
    cases hstate
  · intro heq
    rw [heq] at hstate
    cases hstate

/-! ## 3. The invariant -/

variable (loads strict) in
/-- Every message but `out` waits for its task or for the network, every task of a message is the
one its message waits for, and the send times are accounted for, those of the saved messages
included. -/
structure Inv (s : State ssl) (out : Option Nat) : Prop where
  messageIds : (s.messages.map (·.id)).Nodup
  messageBound : ∀ m ∈ s.messages, m.id < s.nextMessage
  taskIds : (s.tasks.map (·.1)).Nodup
  taskBound : ∀ task ∈ s.tasks, task.1 < s.nextTask
  working : ∀ m ∈ s.messages, some m.id ≠ out →
    Quiet m ∨ ∃ task ∈ s.tasks, Waits m task.1 task.2
  owned : ∀ task ∈ s.tasks, ∀ id, task.2.message = some id →
    some id ≠ out ∧ ∃ m ∈ s.messages, Waits m task.1 task.2
  times : ∀ m ∈ s.messages, some m.id ≠ out → TimesOk loads strict s.log m
  saved : ∀ messages, .saveOutgoings messages ∈ s.log → ∀ m ∈ messages,
    TimesOk loads strict s.log m
  held : ∀ id, out = some id → ∃ m ∈ s.messages, m.id = id

/-- What the invariant reads of a keyring. -/
def State.core (s : State ssl) :
    List (Message ssl) × Nat × List (Nat × Job ssl) × Nat × List (Effect ssl) :=
  (s.messages, s.nextMessage, s.tasks, s.nextTask, s.log)

namespace Inv

variable {s s' : State ssl} {out : Option Nat} {id : Nat} {job : Job ssl}

theorem congr (h : Inv loads strict s out) (hcore : s'.core = s.core) :
    Inv loads strict s' out := by
  simp only [State.core, Prod.mk.injEq] at hcore
  obtain ⟨hmessages, hnext, htasks, hnextTask, hlog⟩ := hcore
  constructor
  · rw [hmessages]; exact h.messageIds
  · rw [hmessages, hnext]; exact h.messageBound
  · rw [htasks]; exact h.taskIds
  · rw [htasks, hnextTask]; exact h.taskBound
  · rw [hmessages, htasks]; exact h.working
  · rw [hmessages, htasks]; exact h.owned
  · rw [hmessages, hlog]; exact h.times
  · rw [hlog]; exact h.saved
  · rw [hmessages]; exact h.held

/-! ### Messages by their number -/

theorem eq_of_id (h : Inv loads strict s out) {m m' : Message ssl} (hm : m ∈ s.messages)
    (hm' : m' ∈ s.messages) (hid : m.id = m'.id) : m = m' :=
  List.inj_on_of_nodup_map h.messageIds hm hm' hid

theorem task_eq (h : Inv loads strict s out) {task task' : Nat × Job ssl} (ht : task ∈ s.tasks)
    (ht' : task' ∈ s.tasks) (hid : task.1 = task'.1) : task = task' :=
  List.inj_on_of_nodup_map h.taskIds ht ht' hid

theorem findMessage_eq (h : Inv loads strict s out) (hm : m ∈ s.messages) :
    s.findMessage m.id = some m := by
  cases hfind : s.findMessage m.id with
  | none =>
    have hnone := List.find?_eq_none.mp hfind m hm
    simp at hnone
  | some m' =>
    have hid := List.find?_some hfind
    rw [h.eq_of_id (List.mem_of_find?_eq_some hfind) hm (of_decide_eq_true hid)]

-- The message a task is for.
theorem owner (h : Inv loads strict s out) {task : Nat × Job ssl} (ht : task ∈ s.tasks)
    (hmsg : task.2.message = some id) :
    ∃ m ∈ s.messages, m.id = id ∧ Waits m task.1 task.2 := by
  obtain ⟨-, m, hm, hwaits⟩ := h.owned task ht id hmsg
  rw [hwaits.message] at hmsg
  exact ⟨m, hm, Option.some.inj hmsg, hwaits⟩

theorem quiet (h : Inv loads strict s none) (hm : m ∈ s.messages)
    (hstate : m.state = .awaitingPubkey ∨ m.state = .awaitingAcknowledgement) : Quiet m := by
  rcases h.working m hm nofun with hquiet | ⟨task, -, hwaits⟩
  · exact hquiet
  · obtain ⟨hpubkey, hack⟩ := hwaits.state_ne
    rcases hstate with hstate | hstate
    · exact absurd hstate hpubkey
    · exact absurd hstate hack

/-! ### What is done to a keyring -/

theorem emit (h : Inv loads strict s out) {effects : List (Effect ssl)}
    (heffects : ∀ messages, .saveOutgoings messages ∉ effects) :
    Inv loads strict (s.emit effects) out where
  messageIds := h.messageIds
  messageBound := h.messageBound
  taskIds := h.taskIds
  taskBound := h.taskBound
  working := h.working
  owned := h.owned
  times m hm hout := (h.times m hm hout).mono (List.subset_append_left _ _)
  saved messages hmem m hm := by
    rcases List.mem_append.mp hmem with hold | hnew
    · exact (h.saved messages hold m hm).mono (List.subset_append_left _ _)
    · exact absurd hnew (heffects messages)
  held := h.held

theorem saveMessages (h : Inv loads strict s none) : Inv loads strict s.saveMessages none where
  messageIds := h.messageIds
  messageBound := h.messageBound
  taskIds := h.taskIds
  taskBound := h.taskBound
  working := h.working
  owned := h.owned
  times m hm hout := (h.times m hm hout).mono (List.subset_append_left _ _)
  saved messages hmem m hm := by
    rcases List.mem_append.mp hmem with hold | hnew
    · exact (h.saved messages hold m hm).mono (List.subset_append_left _ _)
    · cases List.mem_singleton.mp hnew
      exact (h.times m (List.mem_filter.mp hm).1 nofun).mono (List.subset_append_left _ _)
  held := h.held

/-- A task ends, by its callback or because it is cancelled. -/
theorem take (h : Inv loads strict s none) {task : Nat × Job ssl} (ht : task ∈ s.tasks) :
    Inv loads strict (s.cancel (some task.1)) task.2.message where
  messageIds := h.messageIds
  messageBound := h.messageBound
  taskIds := h.taskIds.sublist (List.Sublist.map _ List.filter_sublist)
  taskBound other hother := h.taskBound other (List.mem_of_mem_filter hother)
  working m hm hout := by
    rcases h.working m hm nofun with hquiet | ⟨other, hother, hwaits⟩
    · exact .inl hquiet
    · refine .inr ⟨other, List.mem_filter.mpr ⟨hother, ?_⟩, hwaits⟩
      -- the task of another message has another number
      rw [decide_eq_true_eq]
      intro heq
      rw [h.task_eq hother ht (Option.some.inj heq)] at hwaits
      exact hout hwaits.message.symm
  owned other hother id hmsg := by
    obtain ⟨hmem, hne⟩ := List.mem_filter.mp hother
    refine ⟨?_, (h.owned other hmem id hmsg).2⟩
    intro heq
    obtain ⟨m, hm, hid, hwaits⟩ := h.owner hmem hmsg
    obtain ⟨m', hm', hid', hwaits'⟩ := h.owner ht heq.symm
    rw [h.eq_of_id hm' hm (by rw [hid, hid'])] at hwaits'
    exact of_decide_eq_true hne (congrArg some (hwaits.unique hwaits'))
  times m hm _ := h.times m hm nofun
  saved := h.saved
  held id hmsg := by
    obtain ⟨m, hm, hid, -⟩ := h.owner ht hmsg
    exact ⟨m, hm, hid⟩

theorem of_quiet (h : Inv loads strict s none) (hm : m ∈ s.messages) (hquiet : Quiet m) :
    Inv loads strict s (some m.id) where
  messageIds := h.messageIds
  messageBound := h.messageBound
  taskIds := h.taskIds
  taskBound := h.taskBound
  working m' hm' _ := h.working m' hm' nofun
  owned task ht id hmsg := by
    obtain ⟨m', hm', hid, hwaits⟩ := h.owner ht hmsg
    refine ⟨?_, m', hm', hwaits⟩
    intro heq
    rw [h.eq_of_id hm' hm (hid.trans (Option.some.inj heq))] at hwaits
    exact hwaits.not_quiet hquiet
  times m' hm' _ := h.times m' hm' nofun
  saved := h.saved
  held id hid := ⟨m, hm, Option.some.inj hid⟩

theorem mem_setMessage {m' : Message ssl} :
    m' ∈ (s.setMessage m).messages ↔
      (m' = m ∧ ∃ old ∈ s.messages, old.id = m.id) ∨ (m' ∈ s.messages ∧ m'.id ≠ m.id) := by
  simp only [State.setMessage, List.mem_map]
  constructor
  · rintro ⟨old, hold, rfl⟩
    by_cases hid : old.id = m.id
    · rw [if_pos hid]
      exact .inl ⟨rfl, old, hold, hid⟩
    · rw [if_neg hid]
      exact .inr ⟨hold, hid⟩
  · rintro (⟨rfl, old, hold, hid⟩ | ⟨hm', hid⟩)
    · exact ⟨old, hold, if_pos hid⟩
    · exact ⟨m', hm', if_neg hid⟩

theorem map_id_setMessage (s : State ssl) (m : Message ssl) :
    (s.setMessage m).messages.map (·.id) = s.messages.map (·.id) := by
  rw [State.setMessage, List.map_map]
  apply List.map_congr_left
  intro old _
  by_cases hid : old.id = m.id
  · simp [hid]
  · simp [hid]

theorem messageBound_setMessage (h : Inv loads strict s out) (m : Message ssl) :
    ∀ m' ∈ (s.setMessage m).messages, m'.id < s.nextMessage := by
  intro m' hm'
  rcases mem_setMessage.mp hm' with ⟨rfl, old, hold, hid⟩ | ⟨hmem, -⟩
  · rw [← hid]
    exact h.messageBound old hold
  · exact h.messageBound m' hmem

/-- The message that is out may be written to. -/
theorem write (h : Inv loads strict s (some id)) (hid : m.id = id) :
    Inv loads strict (s.setMessage m) (some id) where
  messageIds := by
    rw [map_id_setMessage]
    exact h.messageIds
  messageBound := h.messageBound_setMessage m
  taskIds := h.taskIds
  taskBound := h.taskBound
  working m' hm' hout := by
    rcases mem_setMessage.mp hm' with ⟨rfl, -⟩ | ⟨hmem, -⟩
    · exact absurd (congrArg some hid) hout
    · exact h.working m' hmem hout
  owned task ht id' hmsg := by
    obtain ⟨hout, m', hm', hwaits⟩ := h.owned task ht id' hmsg
    refine ⟨hout, m', mem_setMessage.mpr (.inr ⟨hm', ?_⟩), hwaits⟩
    rw [hwaits.message] at hmsg
    rintro heq
    rw [← hmsg, heq, hid] at hout
    exact hout rfl
  times m' hm' hout := by
    rcases mem_setMessage.mp hm' with ⟨rfl, -⟩ | ⟨hmem, -⟩
    · exact absurd (congrArg some hid) hout
    · exact h.times m' hmem hout
  saved := h.saved
  held id' hid' := by
    obtain ⟨old, hold, holdid⟩ := h.held id' hid'
    refine ⟨m, mem_setMessage.mpr (.inl ⟨rfl, old, hold, ?_⟩), ?_⟩
    · rw [holdid, hid]
      exact (Option.some.inj hid').symm
    · rw [hid]
      exact Option.some.inj hid'

-- A message that is back in the list and waits for something is no longer out.
theorem put (h : Inv loads strict s (some m.id)) (hm : m ∈ s.messages)
    (hwork : Quiet m ∨ ∃ task ∈ s.tasks, Waits m task.1 task.2)
    (htimes : TimesOk loads strict s.log m) : Inv loads strict s none where
  messageIds := h.messageIds
  messageBound := h.messageBound
  taskIds := h.taskIds
  taskBound := h.taskBound
  working m' hm' _ := by
    by_cases hid : m'.id = m.id
    · rw [h.eq_of_id hm' hm hid]
      exact hwork
    · exact h.working m' hm' fun heq => hid (Option.some.inj heq)
  owned task ht id hmsg := ⟨nofun, (h.owned task ht id hmsg).2⟩
  times m' hm' _ := by
    by_cases hid : m'.id = m.id
    · rw [h.eq_of_id hm' hm hid]
      exact htimes
    · exact h.times m' hm' fun heq => hid (Option.some.inj heq)
  saved := h.saved
  held := nofun

-- The message goes on to wait for the network.
theorem settle (h : Inv loads strict s (some id)) (hid : m.id = id) (hquiet : Quiet m)
    (htimes : TimesOk loads strict s.log m) : Inv loads strict (s.setMessage m) none := by
  subst hid
  obtain ⟨old, hold, holdid⟩ := h.held m.id rfl
  exact (h.write rfl).put (mem_setMessage.mpr (.inl ⟨rfl, old, hold, holdid⟩)) (.inl hquiet) htimes

theorem taskIds_request (h : Inv loads strict s out) (job : Job ssl) :
    ((s.request job).2.tasks.map (·.1)).Nodup := by
  simp only [State.request, List.map_append, List.map_cons, List.map_nil]
  rw [List.nodup_append]
  refine ⟨h.taskIds, List.nodup_singleton _, ?_⟩
  rintro t ht t' ht' rfl
  obtain ⟨task, htask, rfl⟩ := List.mem_map.mp ht
  exact absurd (List.mem_singleton.mp ht') (Nat.ne_of_lt (h.taskBound task htask))

theorem taskBound_request (h : Inv loads strict s out) (job : Job ssl) :
    ∀ task ∈ (s.request job).2.tasks, task.1 < (s.request job).2.nextTask := by
  intro task ht
  rcases List.mem_append.mp ht with hold | hnew
  · exact Nat.lt_succ_of_lt (h.taskBound task hold)
  · rw [List.mem_singleton.mp hnew]
    exact Nat.lt_succ_self _

-- A request that is not made for a message.
theorem request (h : Inv loads strict s out) (hjob : job.message = none) :
    Inv loads strict (s.request job).2 out where
  messageIds := h.messageIds
  messageBound := h.messageBound
  taskIds := h.taskIds_request job
  taskBound := h.taskBound_request job
  working m hm hout := by
    rcases h.working m hm hout with hquiet | ⟨task, ht, hwaits⟩
    · exact .inl hquiet
    · exact .inr ⟨task, List.mem_append_left _ ht, hwaits⟩
  owned task ht id hmsg := by
    rcases List.mem_append.mp ht with hold | hnew
    · exact h.owned task hold id hmsg
    · rw [List.mem_singleton.mp hnew, hjob] at hmsg
      cases hmsg
  times := h.times
  saved := h.saved
  held := h.held

/-- The message goes on to wait for a new task. -/
theorem start (h : Inv loads strict s (some id)) (hid : m.id = id)
    (hwaits : Waits m s.nextTask job) (htimes : TimesOk loads strict s.log m) :
    Inv loads strict ((s.request job).2.setMessage m) none where
  messageIds := by
    rw [map_id_setMessage]
    exact h.messageIds
  messageBound := h.messageBound_setMessage m
  taskIds := h.taskIds_request job
  taskBound := h.taskBound_request job
  working m' hm' _ := by
    rcases mem_setMessage.mp hm' with ⟨rfl, -⟩ | ⟨hmem, hne⟩
    · exact .inr ⟨_, List.mem_append_right _ List.mem_cons_self, hwaits⟩
    · rw [hid] at hne
      rcases h.working m' hmem fun heq => hne (Option.some.inj heq) with hquiet | ⟨task, ht, hw⟩
      · exact .inl hquiet
      · exact .inr ⟨task, List.mem_append_left _ ht, hw⟩
  owned task ht id' hmsg := by
    refine ⟨nofun, ?_⟩
    rcases List.mem_append.mp ht with hold | hnew
    · obtain ⟨-, m', hm', hw⟩ := (h.write hid).owned task hold id' hmsg
      exact ⟨m', hm', hw⟩
    · rw [List.mem_singleton.mp hnew]
      obtain ⟨old, hold, holdid⟩ := h.held id rfl
      exact ⟨m, mem_setMessage.mpr (.inl ⟨rfl, old, hold, by rw [holdid, hid]⟩), hwaits⟩
  times m' hm' _ := by
    rcases mem_setMessage.mp hm' with ⟨rfl, -⟩ | ⟨hmem, hne⟩
    · exact htimes
    · rw [hid] at hne
      exact h.times m' hmem fun heq => hne (Option.some.inj heq)
  saved := h.saved
  held := nofun

-- The message is freed.
theorem free (h : Inv loads strict s (some id)) :
    Inv loads strict { s with messages := s.messages.filter (·.id ≠ id) } none where
  messageIds := h.messageIds.sublist (List.Sublist.map _ List.filter_sublist)
  messageBound m hm := h.messageBound m (List.mem_of_mem_filter hm)
  taskIds := h.taskIds
  taskBound := h.taskBound
  working m hm _ := by
    obtain ⟨hmem, hne⟩ := List.mem_filter.mp hm
    exact h.working m hmem fun heq => of_decide_eq_true hne (Option.some.inj heq)
  owned task ht id' hmsg := by
    obtain ⟨hout, m, hm, hwaits⟩ := h.owned task ht id' hmsg
    refine ⟨nofun, m, List.mem_filter.mpr ⟨hm, ?_⟩, hwaits⟩
    rw [decide_eq_true_eq]
    rintro rfl
    exact hout (hmsg.symm.trans hwaits.message)
  times m hm _ := by
    obtain ⟨hmem, hne⟩ := List.mem_filter.mp hm
    exact h.times m hmem fun heq => of_decide_eq_true hne (Option.some.inj heq)
  saved := h.saved
  held := nofun

/-- A message is new. -/
theorem create (h : Inv loads strict s none) (hid : m.id = s.nextMessage) :
    Inv loads strict
      { s with messages := s.messages ++ [m], nextMessage := s.nextMessage + 1 } (some m.id) where
  messageIds := by
    simp only [List.map_append, List.map_cons, List.map_nil]
    rw [List.nodup_append]
    refine ⟨h.messageIds, List.nodup_singleton _, ?_⟩
    rintro i hi i' hi' rfl
    obtain ⟨old, hold, rfl⟩ := List.mem_map.mp hi
    rw [List.mem_singleton, hid] at hi'
    exact absurd hi' (Nat.ne_of_lt (h.messageBound old hold))
  messageBound m' hm' := by
    rcases List.mem_append.mp hm' with hold | hnew
    · exact Nat.lt_succ_of_lt (h.messageBound m' hold)
    · rw [List.mem_singleton.mp hnew, hid]
      exact Nat.lt_succ_self _
  taskIds := h.taskIds
  taskBound := h.taskBound
  working m' hm' hout := by
    rcases List.mem_append.mp hm' with hold | hnew
    · exact h.working m' hold nofun
    · exact absurd (congrArg (some ·.id) (List.mem_singleton.mp hnew)) hout
  owned task ht id' hmsg := by
    obtain ⟨m', hm', hid', hwaits⟩ := h.owner ht hmsg
    refine ⟨?_, m', List.mem_append_left _ hm', hwaits⟩
    intro heq
    have hbound := h.messageBound m' hm'
    rw [hid', Option.some.inj heq, hid] at hbound
    exact Nat.lt_irrefl _ hbound
  times m' hm' hout := by
    rcases List.mem_append.mp hm' with hold | hnew
    · exact h.times m' hold nofun
    · exact absurd (congrArg (some ·.id) (List.mem_singleton.mp hnew)) hout
  saved := h.saved
  held id' hid' := ⟨m, List.mem_append_right _ List.mem_cons_self, Option.some.inj hid'⟩

end Inv

end Notbit.Keyring
