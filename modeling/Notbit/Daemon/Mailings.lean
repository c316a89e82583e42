import Notbit.Keyring.ContentLoads
import Notbit.Keyring.Records
import Notbit.Lib.WriteBehind
import Notbit.Store.ContentFiles

/-!
# Mailings — outgoing mail between the keyring, the store thread and the disk

The keyring has the store thread save, load and delete the contents of its messages, and the thread
takes the tasks in their order.  When the program ends the messages are saved and the thread does all
that is left; when it is started again the messages are made of what is found in the files.
-/

open Bytes Relation Stdio WriteBehind Notbit.Proto Notbit.Store

namespace Notbit.Daemon

variable {ssl : OpenSSL}

/-! ## 1. The tasks of the store thread -/

/-- The tasks that have to do with outgoing mail.  The others are in the same queue and leave its
files alone. -/
inductive MailTask where
  | saveOutgoings (outgoings : List Outgoing)
  | saveMessageContent (id : UInt64) (content : List UInt8)
  | deleteMessageContent (id : UInt64)
  | loadMessageContent (cookie : Nat) (id : UInt64)

def MailTask.isLoad : MailTask → Bool
  | .loadMessageContent _ _ => true
  | .saveOutgoings _ | .saveMessageContent _ _ | .deleteMessageContent _ => false

/-- A record in its struct. -/
def outgoingOf (record : Keyring.Record) : Outgoing where
  fromAddress := record.fromAddress
  toAddress := record.toAddress
  ackdata := record.ackdata
  contentId := UInt64.ofNat record.contentId
  contentEncoding := record.contentEncoding
  lastGetpubkeySendTime := CInt64.ofInt record.lastGetpubkeySendTime
  lastMsgSendTime := CInt64.ofInt record.lastMsgSendTime

/-- A struct that is reported to the keyring. -/
def recordOf (outgoing : Outgoing) : Keyring.Record where
  fromAddress := outgoing.fromAddress
  toAddress := outgoing.toAddress
  ackdata := outgoing.ackdata
  contentId := outgoing.contentId.toNat
  contentEncoding := outgoing.contentEncoding
  lastGetpubkeySendTime := outgoing.lastGetpubkeySendTime.val
  lastMsgSendTime := outgoing.lastMsgSendTime.val

/-- `save_messages`, what is handed to the store. -/
def outgoingsOf (messages : List (Keyring.Message ssl)) : List Outgoing :=
  messages.map fun m => outgoingOf (Keyring.addOutgoing m)

/-- The task that a call to the store queues: `ntb_store_save_outgoings`,
`ntb_store_save_message_content` and `ntb_store_delete_message_content`. -/
def mailTask? : Keyring.Effect ssl → Option MailTask
  | .saveOutgoings messages => some (.saveOutgoings (outgoingsOf messages))
  | .saveMessageContent id content => some (.saveMessageContent (UInt64.ofNat id) content)
  | .deleteMessageContent id => some (.deleteMessageContent (UInt64.ofNat id))
  | .addBlob _ _ | .addObjectFromData _ | .saveKeys _ | .saveMessage _ _ _ _
  | .loadedOutgoing _ _ => none

/-- `ntb_store_load_message_content` -/
def loadTask (load : Nat × Nat) : MailTask := .loadMessageContent load.1 (UInt64.ofNat load.2)

/-- The cases of `store_thread_func` for the files of outgoing mail. -/
def MailTask.handle (ssl : OpenSSL) (paths : Paths) : MailTask → Files → Files
  | .saveOutgoings outgoings => handleSaveOutgoings paths .success ssl outgoings
  | .saveMessageContent id content => handleSaveMessageContent paths .success id content
  | .deleteMessageContent id => handleDeleteMessageContent paths .success id
  | .loadMessageContent _ _ => fun files => files

/-- The files when the thread has done all of the tasks. -/
def handleAll (ssl : OpenSSL) (paths : Paths) (tasks : List MailTask) (files : Files) : Files :=
  tasks.foldl (fun files task => task.handle ssl paths files) files

/-! ## 2. The program -/

/-- The keyring, the tasks that wait for the thread, the files, and the contents that were loaded
and whose callbacks are still to come, each with the cookie of its load. -/
structure Mailing (ssl : OpenSSL) where
  keyring : Keyring.State ssl
  queue : List MailTask
  files : Files
  loaded : List (Nat × Option (List UInt8))

/-- The program when it is started for the first time. -/
def Mailing.first (keys : List (Keyring.KeyringKey ssl)) (files : Files) : Mailing ssl where
  keyring := Keyring.State.new keys
  queue := []
  files := files
  loaded := []

/-- The request has neither called back nor been cancelled. -/
def Awaited (s : Keyring.State ssl) (cookie : Nat) : Prop := ∃ job, (cookie, job) ∈ s.tasks

/-- The tasks that are queued between two states of the keyring: those of its calls and its loads,
each in their order. -/
structure Queues (s s' : Keyring.State ssl) (new : List MailTask) : Prop where
  calls : new.filter (!·.isLoad) = (s'.log.drop s.log.length).filterMap mailTask?
  loads : new.filter (·.isLoad) = (s'.contentLoads s.nextTask).map loadTask

/-- An event of the keyring.  The callback of a load is given what was loaded.  The ids are assumed to
stay below `INT_MAX`. -/
structure Handles (e : Keyring.Event ssl) (new : List MailTask) (p p' : Mailing ssl) : Prop where
  running : ∀ env keys pubkeys save, e ≠ .restart env keys pubkeys save
  step : Keyring.step p.keyring e = some p'.keyring
  results : ∀ env cookie content, e = .complete env cookie (.content content) →
    (cookie, content) ∈ p.loaded
  ids : (p'.keyring.nextMessageContentId : Int) ≤ intMax
  queues : Queues p.keyring p'.keyring new
  queue : p'.queue = p.queue ++ new
  files : p'.files = p.files
  loaded : p'.loaded = p.loaded

/-- The store thread takes a task.  A load whose cookie was reset is passed over. -/
inductive Works (paths : Paths) : Mailing ssl → Mailing ssl → Prop
  | task {p : Mailing ssl} {task : MailTask} {rest : List MailTask} (h : p.queue = task :: rest)
    (htask : task.isLoad = false) :
    Works paths p { p with queue := rest, files := task.handle ssl paths p.files }
  | load {p : Mailing ssl} {cookie : Nat} {id : UInt64} {rest : List MailTask}
    (h : p.queue = .loadMessageContent cookie id :: rest) (hawaited : Awaited p.keyring cookie) :
    Works paths p
      { p with
        queue := rest
        loaded := p.loaded ++ [(cookie, handleLoadMessageContent paths id p.files)] }
  | pass {p : Mailing ssl} {cookie : Nat} {id : UInt64} {rest : List MailTask}
    (h : p.queue = .loadMessageContent cookie id :: rest) : Works paths p { p with queue := rest }

/-- `ntb_keyring_free` and `ntb_store_free`: the messages are saved, and the thread does what is
left but for the loads, which are cancelled. -/
def Mailing.stopped (paths : Paths) (p : Mailing ssl) : Mailing ssl where
  keyring := p.keyring.saveMessages
  queue := []
  files := handleAll ssl paths (p.queue ++ [.saveOutgoings (outgoingsOf
    (p.keyring.messages.filter (·.state ≠ .generatingAckdata)))]) p.files
  loaded := []

/-- What the program finds when it is started again, the files of outgoing mail apart.  `names` is
what `readdir` finds in the directory of contents, and `unused` and `uninitialised` are what was in
the memory. -/
structure Startup (ssl : OpenSSL) where
  env : Keyring.Env ssl
  keys : List (Keyring.KeyringKey ssl)
  pubkeys : List Blob
  names : Option (List (List UInt8))
  unused : Nat → UInt64
  uninitialised : Outgoing

/-- `ntb_store_for_each_outgoing` -/
def Startup.outgoings (start : Startup ssl) (paths : Paths) (files : Files) :
    List Outgoing × List Path :=
  forEachOutgoing ssl start.uninitialised start.unused paths.directory
    (files (outgoingsFilename paths)) start.names

/-- `ntb_keyring_load_store`, before the thread is started. -/
structure Starts (paths : Paths) (start : Startup ssl) (new : List MailTask) (p p' : Mailing ssl) :
    Prop where
  keyring : p'.keyring = p.keyring.restart start.env start.keys start.pubkeys
    ((start.outgoings paths p.files).1.map recordOf)
  ids : (p'.keyring.nextMessageContentId : Int) ≤ intMax
  queues : Queues p.keyring p'.keyring new
  queue : p'.queue = new
  files : p'.files = unlinkAll (start.outgoings paths p.files).2 p.files
  loaded : p'.loaded = []

/-- What can happen. -/
inductive Mailing.Step (paths : Paths) : Mailing ssl → Mailing ssl → Prop
  | keyring {p p' : Mailing ssl} {e : Keyring.Event ssl} {new : List MailTask}
    (h : Handles e new p p') : Step paths p p'
  | thread {p p' : Mailing ssl} (h : Works paths p p') : Step paths p p'
  | restart {p p' : Mailing ssl} {start : Startup ssl} {new : List MailTask}
    (h : Starts paths start new (p.stopped paths) p') : Step paths p p'

/-! ## 3. What is expected -/

/-- The content that was saved last under an id. -/
def Mailing.saved (p : Mailing ssl) (contentId : Nat) : Option (List UInt8) :=
  p.keyring.contents.saved contentId

/-- Some message has the content. -/
def Mailing.Uses (p : Mailing ssl) (id : UInt64) : Prop :=
  ∃ m ∈ p.keyring.messages, UInt64.ofNat m.contentId = id

/-- A new mail has an id that no message has, and a content is deleted exactly when the last message
that has it is gone. -/
structure Accounts (p p' : Mailing ssl) (new : List MailTask) : Prop where
  saves : ∀ id content, .saveMessageContent id content ∈ new → ¬ p.Uses id
  fresh : ∀ m' ∈ p'.keyring.messages, (∀ m ∈ p.keyring.messages, m.id ≠ m'.id) →
    ¬ p.Uses (UInt64.ofNat m'.contentId)
  deletes : ∀ id, .deleteMessageContent id ∈ new ↔ p.Uses id ∧ ¬ p'.Uses id

/-- The content of a message that is read back when the program is started again after it has ended. -/
def Startup.Reports (start : Startup ssl) (paths : Paths) (p : Mailing ssl) (id : UInt64) : Prop :=
  ∃ outgoing ∈ (start.outgoings paths (p.stopped paths).files).1, outgoing.contentId = id

/-- The addresses of the message can be written and read back. -/
def Recordable (m : Keyring.Message ssl) : Prop :=
  1 ≤ m.fromKey.address.version ∧ 1 ≤ m.toAddress.version

/-- The end of the program and a new start.  What is read back are contents of messages that had
their ackdata, and of all of them if their addresses can be read back.  Their files hold what was
saved, also if the keyring passes a message over because the private key of its sender is gone; the
other contents that are listed are deleted, unless the memory behind the ids that were collected
holds theirs.  Every message that is there afterwards is one that was read back, and the keyring
starts with loads only. -/
structure Restored (paths : Paths) (start : Startup ssl) (p p' : Mailing ssl)
    (new : List MailTask) : Prop where
  reports : ∀ id, start.Reports paths p id →
    ∃ m ∈ p.keyring.messages, m.state ≠ .generatingAckdata ∧ UInt64.ofNat m.contentId = id
  reported : (∀ m ∈ p.keyring.messages, m.state ≠ .generatingAckdata → Recordable m) →
    ∀ m ∈ p.keyring.messages, m.state ≠ .generatingAckdata →
      start.Reports paths p (UInt64.ofNat m.contentId)
  keeps : ∀ id, start.Reports paths p id → ∃ content, p.saved id.toNat = some content ∧
    contentFiles paths p'.files id = some content
  deletes : ∀ id names, start.names = some names → hexBytes (toBE 8 id.toNat) ∈ names →
    id.toNat < 2 ^ 63 → ¬ start.Reports paths p id → (∀ i, start.unused i ≠ id) →
    contentFiles paths p'.files id = none
  messages : ∀ m ∈ p'.keyring.messages, start.Reports paths p (UInt64.ofNat m.contentId)
  saved : p'.saved = p.saved
  tasks : ∀ id, .deleteMessageContent id ∉ new ∧ ∀ content, .saveMessageContent id content ∉ new

/-- The next id is above all that are in use.  If the thread is about to load a content for which
somebody waits, then a message waits for it and the file holds what was saved for the message.
Whatever happens next in the keyring, the contents are accounted for, and whenever the program is
ended and started again, they are restored. -/
structure Mailing.Sound (paths : Paths) (p : Mailing ssl) : Prop where
  ids : ∀ m ∈ p.keyring.messages, m.contentId < p.keyring.nextMessageContentId
  loads : ∀ cookie id rest, p.queue = .loadMessageContent cookie id :: rest →
    Awaited p.keyring cookie → ∃ m content, Keyring.Loading p.keyring m cookie ∧
      id = UInt64.ofNat m.contentId ∧ p.saved m.contentId = some content ∧
      handleLoadMessageContent paths id p.files = some content
  accounts : ∀ e new p', Handles e new p p' → Accounts p p' new
  restores : ∀ start new p', Starts paths start new (p.stopped paths) p' →
    Restored paths start p p' new

/-! ## 4. The queue as one of writes, removals and reads -/

/-- What a task does to the contents. -/
def MailTask.op? : MailTask → Option (Op UInt64 (List UInt8) Nat)
  | .saveOutgoings _ => none
  | .saveMessageContent id content => some (.put id content)
  | .deleteMessageContent id => some (.remove id)
  | .loadMessageContent cookie id => some (.get cookie id)

def ops (tasks : List MailTask) : List (Op UInt64 (List UInt8) Nat) := tasks.filterMap MailTask.op?

/-- What a call of the keyring does to them. -/
def callOp : Keyring.ContentCall → Op UInt64 (List UInt8) Nat
  | .save id content => .put (UInt64.ofNat id) content
  | .delete id => .remove (UInt64.ofNat id)

/-- The contents that messages have. -/
def heldIds (s : Keyring.State ssl) : UInt64 → Option (List UInt8) :=
  fun id => s.contents.held id.toNat

section Ops

variable {tasks new : List MailTask} {id : UInt64} {content : List UInt8} {cookie : Nat}

theorem put_mem_ops : .put id content ∈ ops tasks ↔ .saveMessageContent id content ∈ tasks := by
  rw [ops, List.mem_filterMap]
  constructor
  · rintro ⟨task, htask, hop⟩
    cases task <;> cases hop
    exact htask
  · exact fun h => ⟨_, h, rfl⟩

theorem remove_mem_ops : .remove id ∈ ops tasks ↔ .deleteMessageContent id ∈ tasks := by
  rw [ops, List.mem_filterMap]
  constructor
  · rintro ⟨task, htask, hop⟩
    cases task <;> cases hop
    exact htask
  · exact fun h => ⟨_, h, rfl⟩

theorem get_mem_ops : .get cookie id ∈ ops tasks ↔ .loadMessageContent cookie id ∈ tasks := by
  rw [ops, List.mem_filterMap]
  constructor
  · rintro ⟨task, htask, hop⟩
    cases task <;> cases hop
    exact htask
  · exact fun h => ⟨_, h, rfl⟩

theorem ops_append (tasks new : List MailTask) : ops (tasks ++ new) = ops tasks ++ ops new :=
  List.filterMap_append

-- The thread carries out what is queued.
theorem contentFiles_handle (paths : Paths) (task : MailTask) (files : Files) :
    contentFiles paths (task.handle ssl paths files) =
      settled (ops [task]) (contentFiles paths files) := by
  cases task with
  | saveOutgoings outgoings => exact contentFiles_saveOutgoings paths outgoings files
  | saveMessageContent id content => exact contentFiles_save paths id content files
  | deleteMessageContent id => exact contentFiles_delete paths id files
  | loadMessageContent cookie id => rfl

theorem contentFiles_handleAll (paths : Paths) (tasks : List MailTask) (files : Files) :
    contentFiles paths (handleAll ssl paths tasks files) =
      settled (ops tasks) (contentFiles paths files) := by
  induction tasks generalizing files with
  | nil => rfl
  | cons task tasks ih =>
    have hrest : contentFiles paths (handleAll ssl paths (task :: tasks) files) =
        settled (ops tasks) (contentFiles paths (task.handle ssl paths files)) := ih _
    have happend : ops (task :: tasks) = ops [task] ++ ops tasks := ops_append [task] tasks
    rw [hrest, contentFiles_handle, happend, settled_append]

end Ops

section Queues

variable {s s' : Keyring.State ssl} {new : List MailTask} {id : UInt64} {content : List UInt8}

theorem filter_ops_calls (effects : List (Keyring.Effect ssl)) :
    ops (effects.filterMap mailTask?) =
      (effects.filterMap Keyring.Effect.contentCall?).map callOp := by
  rw [ops, List.filterMap_filterMap, List.map_filterMap]
  refine List.filterMap_congr fun e _ => ?_
  cases e <;> rfl

theorem Queues.ops_calls (h : Queues s s' new) {calls : List Keyring.ContentCall}
    (hcalls : s'.contents.calls = s.contents.calls ++ calls) (hlog : s.log <+: s'.log) :
    ops (new.filter (!·.isLoad)) = calls.map callOp := by
  obtain ⟨effects, heffects⟩ := hlog
  have hdrop : s'.log.drop s.log.length = effects := by
    rw [← heffects, List.drop_left]
  have hsame : effects.filterMap Keyring.Effect.contentCall? = calls := by
    simp only [Keyring.State.contents, ← heffects, List.filterMap_append] at hcalls
    exact List.append_cancel_left hcalls
  rw [h.calls, hdrop, filter_ops_calls, hsame]

-- A task that is not a load comes from a call.
theorem mem_ops_filter {op : Op UInt64 (List UInt8) Nat} (hop : op ∈ ops new)
    (hget : ∀ cookie id, op ≠ .get cookie id) : op ∈ ops (new.filter (!·.isLoad)) := by
  obtain ⟨task, htask, heq⟩ := List.mem_filterMap.mp hop
  refine List.mem_filterMap.mpr ⟨task, List.mem_filter.mpr ⟨htask, ?_⟩, heq⟩
  cases task with
  | loadMessageContent cookie id =>
    cases heq
    exact absurd rfl (hget cookie id)
  | saveOutgoings _ | saveMessageContent _ _ | deleteMessageContent _ => rfl

theorem Queues.mem_calls (h : Queues s s' new) {calls : List Keyring.ContentCall}
    (hcalls : s'.contents.calls = s.contents.calls ++ calls) (hlog : s.log <+: s'.log)
    {op : Op UInt64 (List UInt8) Nat} (hget : ∀ cookie id, op ≠ .get cookie id) :
    op ∈ ops new ↔ ∃ call ∈ calls, callOp call = op := by
  rw [← List.mem_map, ← h.ops_calls hcalls hlog]
  refine ⟨fun hop => mem_ops_filter hop hget, fun hop => ?_⟩
  exact (List.filter_sublist.filterMap _).subset hop

theorem Queues.mem_loads (h : Queues s s' new) {cookie : Nat} :
    .loadMessageContent cookie id ∈ new ↔
      ∃ contentId, (cookie, contentId) ∈ s'.contentLoads s.nextTask ∧ UInt64.ofNat contentId = id := by
  have hload : .loadMessageContent cookie id ∈ new ↔
      .loadMessageContent cookie id ∈ new.filter (·.isLoad) := by
    rw [List.mem_filter]
    exact (and_iff_left rfl).symm
  rw [hload, h.loads, List.mem_map]
  constructor
  · rintro ⟨⟨t, contentId⟩, hmem, heq⟩
    cases heq
    exact ⟨contentId, hmem, rfl⟩
  · rintro ⟨contentId, hmem, rfl⟩
    exact ⟨_, hmem, rfl⟩

end Queues

/-! ## 5. What every step keeps -/

/-- A load that is queued is for the content that its request asks for. -/
def Ticketed (s : Keyring.State ssl) (queue : List MailTask) : Prop :=
  ∀ cookie id, .loadMessageContent cookie id ∈ queue → cookie < s.nextTask ∧
    ∀ job, (cookie, job) ∈ s.tasks →
      ∃ message contentId, job = .loadContent message contentId ∧ id = UInt64.ofNat contentId

structure Mailing.Invariant (paths : Paths) (p : Mailing ssl) : Prop where
  lettered : Keyring.Lettered p.keyring
  waits : Keyring.Inv True False p.keyring none
  kept : p.keyring.contents.Kept
  ids : (p.keyring.nextMessageContentId : Int) ≤ intMax
  tickets : Ticketed p.keyring p.queue
  results : ∀ result ∈ p.loaded, result.2 ≠ none
  served : Served (heldIds p.keyring) (Awaited p.keyring) (ops p.queue)
    (contentFiles paths p.files)

section Ids

variable {s : Keyring.State ssl} {contentId : Nat}

theorem toNat_ofNat_id (hids : (s.nextMessageContentId : Int) ≤ intMax)
    (hbelow : contentId ≤ s.nextMessageContentId) : (UInt64.ofNat contentId).toNat = contentId := by
  have hmax : intMax < 2 ^ 64 := by decide
  rw [UInt64.toNat_ofNat_of_lt']
  rw [UInt64.size]
  omega

theorem uses_ofNat (hkept : s.contents.Kept) (hids : (s.nextMessageContentId : Int) ≤ intMax)
    {id : UInt64} :
    (∃ m ∈ s.messages, UInt64.ofNat m.contentId = id) ↔ s.contents.Uses id.toNat := by
  have huses : ∀ m ∈ s.messages, s.contents.Uses m.contentId := fun m hm =>
    List.mem_map_of_mem (f := (·.2)) (List.mem_map_of_mem (f := fun m => (m.id, m.contentId)) hm)
  constructor
  · rintro ⟨m, hm, rfl⟩
    rw [toNat_ofNat_id hids (hkept.below _ (huses m hm)).le]
    exact huses m hm
  · intro h
    obtain ⟨user, huser, hid⟩ := List.mem_map.mp h
    obtain ⟨m, hm, rfl⟩ := List.mem_map.mp huser
    refine ⟨m, hm, ?_⟩
    rw [show m.contentId = id.toNat from hid, UInt64.ofNat_toNat]

theorem heldIds_ofNat (hkept : s.contents.Kept) (hids : (s.nextMessageContentId : Int) ≤ intMax)
    (huses : s.contents.Uses contentId) :
    heldIds s (UInt64.ofNat contentId) = s.contents.saved contentId := by
  rw [heldIds, toNat_ofNat_id hids (hkept.below contentId huses).le, Keyring.Contents.held,
    if_pos huses]

-- A content that a message waits for is there.
theorem heldIds_loading (hkept : s.contents.Kept) (hids : (s.nextMessageContentId : Int) ≤ intMax)
    (hwaits : Keyring.Inv True False s none) {cookie message : Nat}
    (ht : (cookie, .loadContent message contentId) ∈ s.tasks) :
    heldIds s (UInt64.ofNat contentId) ≠ none := by
  obtain ⟨m, hloading, rfl⟩ := Keyring.loading_of_task hwaits ht
  rw [heldIds_ofNat hkept hids hloading.uses]
  exact hkept.saved _ hloading.uses

end Ids

section KeyringSteps

variable {paths : Paths} {p p' : Mailing ssl} {e : Keyring.Event ssl} {new : List MailTask}

/-- What an event does to the contents, and what else it keeps. -/
structure Handled (p p' : Mailing ssl) : Prop where
  lettered : Keyring.Lettered p'.keyring
  waits : Keyring.Inv True False p'.keyring none
  step : p.keyring.contents.Step p'.keyring.contents
  kept : p'.keyring.contents.Kept
  log : p.keyring.log <+: p'.keyring.log
  nextTask : p.keyring.nextTask ≤ p'.keyring.nextTask
  tasks : ∀ task ∈ p'.keyring.tasks, task.1 < p.keyring.nextTask → task ∈ p.keyring.tasks

theorem Mailing.Invariant.handled (h : p.Invariant paths) (hh : Handles e new p p') :
    Handled p p' := by
  have hfound : ∀ env t, e ≠ .complete env t (.content none) := by
    intro env t heq
    exact h.results _ (hh.results env t none heq) rfl
  have hstep : p.keyring.contents.Step p'.keyring.contents := by
    by_cases hsend : ∃ fromAddress toAddresses contentEncoding content uninitialised,
        e = .sendMessage fromAddress toAddresses contentEncoding content uninitialised
    · obtain ⟨fromAddress, toAddresses, contentEncoding, content, uninitialised, rfl⟩ := hsend
      rw [← Option.some.inj hh.step]
      exact Keyring.contents_sendMessage h.lettered _ _ _ _ _
    · simp only [not_exists] at hsend
      exact .settles (Keyring.contents_settles h.lettered hh.running hsend hfound hh.step)
  have hmoves := Keyring.step_moves h.lettered hh.step
  have hlettered := h.lettered.moves hmoves
  have hwaits := h.waits.step (fun hstrict => hstrict.elim) (fun hloads => absurd trivial hloads)
    hh.step
  obtain ⟨hnext, htasks⟩ := Keyring.old_tasks h.waits hh.running hh.step
  have hids : (p'.keyring.contents.users.map (·.1)).Nodup := by
    have hmap : p'.keyring.contents.users.map (·.1) = p'.keyring.messages.map (·.id) := by
      simp only [Keyring.State.contents, List.map_map]
      rfl
    rw [hmap]
    exact hlettered.ids
  exact ⟨hlettered, hwaits, hstep, hstep.kept h.kept hids, hmoves.log_prefix, hnext, htasks⟩

theorem Mailing.Invariant.tickets_of_handled (h : p.Invariant paths) (hd : Handled p p')
    (hh : Handles e new p p') : Ticketed p'.keyring p'.queue := by
  intro cookie id hmem
  rw [hh.queue] at hmem
  rcases List.mem_append.mp hmem with hold | hnew
  · obtain ⟨hlt, hjob⟩ := h.tickets cookie id hold
    exact ⟨hlt.trans_le hd.nextTask, fun job ht => hjob job (hd.tasks _ ht hlt)⟩
  · obtain ⟨contentId, hload, rfl⟩ := hh.queues.mem_loads.mp hnew
    obtain ⟨-, message, ht⟩ := Keyring.mem_contentLoads.mp hload
    refine ⟨hd.waits.taskBound _ ht, fun job hjob => ⟨message, contentId, ?_, rfl⟩⟩
    exact congrArg Prod.snd (hd.waits.task_eq hjob ht rfl)

-- A load that was queued before is still for the same request.
theorem Mailing.Invariant.waited (h : p.Invariant paths) (hd : Handled p p') {cookie : Nat}
    {id : UInt64} (hget : .get cookie id ∈ ops p.queue) (hawaited : Awaited p'.keyring cookie) :
    ∃ message contentId, (cookie, .loadContent message contentId) ∈ p.keyring.tasks ∧
      (cookie, .loadContent message contentId) ∈ p'.keyring.tasks ∧ id = UInt64.ofNat contentId := by
  obtain ⟨job, ht⟩ := hawaited
  obtain ⟨hlt, hjob⟩ := h.tickets cookie id (get_mem_ops.mp hget)
  have hold := hd.tasks _ ht hlt
  obtain ⟨message, contentId, rfl, hid⟩ := hjob job hold
  exact ⟨message, contentId, hold, ht, hid⟩

/-- A content is given up, if anything. -/
theorem Mailing.Invariant.served_of_settles (h : p.Invariant paths) (hd : Handled p p')
    (hh : Handles e new p p') (hsettles : p.keyring.contents.Settles p'.keyring.contents) :
    Served (heldIds p'.keyring) (Awaited p'.keyring) (ops p'.queue) (contentFiles paths p.files) := by
  obtain ⟨calls, hcalls, htally, hsaves⟩ := hsettles.tally h.kept
  have hmono : Served (heldIds p'.keyring) (Awaited p'.keyring) (ops p.queue)
      (contentFiles paths p.files) := by
    refine h.served.mono (fun cookie id hget hawaited => ?_) fun id content hheld => ?_
    · obtain ⟨message, contentId, hold, ht, rfl⟩ := h.waited hd hget hawaited
      exact ⟨⟨_, hold⟩, heldIds_loading hd.kept hh.ids hd.waits ht⟩
    · unfold heldIds Keyring.Contents.held at hheld ⊢
      split_ifs at hheld with huses
      rw [if_pos (Keyring.Contents.uses_of_subset hsettles.users_subset huses), ← hheld,
        hsettles.saved]
  rw [hh.queue, ops_append]
  refine hmono.append (fun id content hput => ?_) (fun id hremove => ?_) fun cookie id hget _ => ?_
  · obtain ⟨call, hcall, heq⟩ := (hh.queues.mem_calls hcalls hd.log (by simp)).mp hput
    cases call with
    | save contentId content' => exact hsaves contentId content' hcall
    | delete contentId => cases heq
  · obtain ⟨call, hcall, heq⟩ := (hh.queues.mem_calls hcalls hd.log (by simp)).mp hremove
    cases call with
    | save contentId content' => cases heq
    | delete contentId =>
      cases heq
      obtain ⟨huses, hgone⟩ := (htally.deletes contentId).mp hcall
      rw [heldIds, toNat_ofNat_id h.ids (h.kept.below contentId huses).le, Keyring.Contents.held,
        if_neg hgone]
  · obtain ⟨contentId, hload, rfl⟩ := hh.queues.mem_loads.mp (get_mem_ops.mp hget)
    obtain ⟨-, message, ht⟩ := Keyring.mem_contentLoads.mp hload
    exact heldIds_loading hd.kept hh.ids hd.waits ht

/-- A mail is submitted. -/
theorem Mailing.Invariant.served_of_submit (h : p.Invariant paths) (hd : Handled p p')
    (hh : Handles e new p p') {ids : List Nat} {content : List UInt8} (hne : ids ≠ [])
    (hsubmit : p'.keyring.contents = p.keyring.contents.submit ids content)
    (hloads : p'.keyring.contentLoads p.keyring.nextTask = []) :
    Served (heldIds p'.keyring) (Awaited p'.keyring) (ops p'.queue) (contentFiles paths p.files) := by
  let next := p.keyring.contents.next
  have hnat : (UInt64.ofNat next).toNat = next := toNat_ofNat_id h.ids le_rfl
  have hmono : Served (heldIds p.keyring) (Awaited p'.keyring) (ops p.queue)
      (contentFiles paths p.files) := by
    refine h.served.mono (fun cookie id hget hawaited => ?_) fun id content hheld => hheld
    obtain ⟨message, contentId, hold, -, rfl⟩ := h.waited hd hget hawaited
    exact ⟨⟨_, hold⟩, heldIds_loading h.kept h.ids h.waits hold⟩
  have hfree : heldIds p.keyring (UInt64.ofNat next) = none := by
    rw [heldIds, hnat, Keyring.Contents.held, if_neg]
    exact fun huses => (h.kept.below next huses).false
  -- the calls are one, and there are no loads
  have hnew : ops new = [.put (UInt64.ofNat next) content] := by
    have hcalls : p'.keyring.contents.calls =
        p.keyring.contents.calls ++ [.save next content] := by
      rw [hsubmit]
      rfl
    have hnone : new.filter (·.isLoad) = [] := by
      rw [hh.queues.loads, hloads, List.map_nil]
    have hall : new.filter (!·.isLoad) = new := by
      refine List.filter_eq_self.mpr fun task htask => ?_
      have hnot := List.filter_eq_nil_iff.mp hnone task htask
      simpa using hnot
    have hops := hh.queues.ops_calls hcalls hd.log
    rwa [hall] at hops
  have hheld : heldIds p'.keyring =
      Function.update (heldIds p.keyring) (UInt64.ofNat next) (some content) := by
    funext id
    have hid : id = UInt64.ofNat next ↔ id.toNat = next := by
      rw [← UInt64.toNat_inj, hnat]
    rw [heldIds, hsubmit, Keyring.Contents.held_submit hne]
    by_cases heq : id = UInt64.ofNat next
    · rw [heq, Function.update_self, hnat]
      exact Function.update_self ..
    · rw [Function.update_of_ne heq, Function.update_of_ne (fun hnext => heq (hid.mpr hnext))]
      rfl
  rw [hh.queue, ops_append, hnew, hheld]
  exact hmono.put hfree

theorem Mailing.Invariant.keyring (h : p.Invariant paths) (hh : Handles e new p p') :
    p'.Invariant paths := by
  have hd := h.handled hh
  have hserved : Served (heldIds p'.keyring) (Awaited p'.keyring) (ops p'.queue)
      (contentFiles paths p.files) := by
    have hcases := hd.step
    generalize hc : p'.keyring.contents = c at hcases
    cases hcases with
    | settles hsettles => exact h.served_of_settles hd hh (hc ▸ hsettles)
    | @submitted ids hne content =>
      refine h.served_of_submit hd hh hne hc ?_
      by_cases hsend : ∃ fromAddress toAddresses contentEncoding content uninitialised,
          e = .sendMessage fromAddress toAddresses contentEncoding content uninitialised
      · obtain ⟨fromAddress, toAddresses, contentEncoding, content, uninitialised, rfl⟩ := hsend
        rw [← Option.some.inj hh.step]
        exact Keyring.contentLoads_sendMessage _ _ _ _ _ _ h.waits.taskBound
      · -- no other event takes a new id
        simp only [not_exists] at hsend
        have hfound : ∀ env t, e ≠ .complete env t (.content none) := by
          intro env t heq
          exact h.results _ (hh.results env t none heq) rfl
        have hnext := (Keyring.contents_settles h.lettered hh.running hsend hfound hh.step).next
        rw [hc] at hnext
        exact absurd hnext (Nat.succ_ne_self _)
  exact
    { lettered := hd.lettered
      waits := hd.waits
      kept := hd.kept
      ids := hh.ids
      tickets := h.tickets_of_handled hd hh
      results := hh.loaded ▸ h.results
      served := hh.files ▸ hserved }

theorem Mailing.Invariant.accounts (h : p.Invariant paths) (hh : Handles e new p p') :
    Accounts p p' new := by
  have hd := h.handled hh
  obtain ⟨calls, hcalls, htally⟩ := hd.step.tally h.kept
  have huses : ∀ id, p.Uses id ↔ p.keyring.contents.Uses id.toNat :=
    fun id => uses_ofNat h.kept h.ids
  have huses' : ∀ id, p'.Uses id ↔ p'.keyring.contents.Uses id.toNat :=
    fun id => uses_ofNat hd.kept hh.ids
  have hunused : ¬ p.Uses (UInt64.ofNat p.keyring.contents.next) := by
    have hnat : (UInt64.ofNat p.keyring.contents.next).toNat = p.keyring.contents.next :=
      toNat_ofNat_id h.ids le_rfl
    rw [huses, hnat]
    exact fun hused => (h.kept.below _ hused).false
  refine ⟨fun id content hmem => ?_, fun m' hm' hnew => ?_, fun id => ?_⟩
  · obtain ⟨call, hcall, heq⟩ :=
      (hh.queues.mem_calls hcalls hd.log (by simp)).mp (put_mem_ops.mpr hmem)
    cases call with
    | delete contentId => cases heq
    | save contentId content' =>
      cases heq
      rw [htally.saves contentId content hcall]
      exact hunused
  · have hmem : (m'.id, m'.contentId) ∈ p'.keyring.contents.users :=
      List.mem_map_of_mem (f := fun m => (m.id, m.contentId)) hm'
    have hnot : (m'.id, m'.contentId) ∉ p.keyring.contents.users := by
      intro hold
      obtain ⟨m, hm, heq⟩ := List.mem_map.mp hold
      exact hnew m hm (congrArg Prod.fst heq)
    have hnext : m'.contentId = p.keyring.contents.next := htally.fresh _ hmem hnot
    rw [hnext]
    exact hunused
  · rw [← remove_mem_ops, hh.queues.mem_calls hcalls hd.log (by simp), huses, huses']
    constructor
    · rintro ⟨call, hcall, heq⟩
      cases call with
      | save contentId content => cases heq
      | delete contentId =>
        cases heq
        have hused := (htally.deletes contentId).mp hcall
        rwa [toNat_ofNat_id h.ids (h.kept.below contentId hused.1).le]
    · intro hused
      refine ⟨.delete id.toNat, (htally.deletes id.toNat).mpr hused, ?_⟩
      rw [callOp, UInt64.ofNat_toNat]

end KeyringSteps

section ThreadSteps

variable {paths : Paths} {p p' : Mailing ssl}

/-- What the thread is about to load for somebody. -/
theorem Mailing.Invariant.head_load (h : p.Invariant paths) {cookie : Nat} {id : UInt64}
    {rest : List MailTask} (hqueue : p.queue = .loadMessageContent cookie id :: rest)
    (hawaited : Awaited p.keyring cookie) :
    ∃ m content, Keyring.Loading p.keyring m cookie ∧ id = UInt64.ofNat m.contentId ∧
      p.saved m.contentId = some content ∧
      handleLoadMessageContent paths id p.files = some content := by
  have hserved := h.served
  have hops : ops p.queue = .get cookie id :: ops rest := by rw [hqueue]; rfl
  rw [hops] at hserved
  obtain ⟨content, hheld, hfound⟩ := hserved.head hawaited
  have hmem : .loadMessageContent cookie id ∈ p.queue := by
    rw [hqueue]
    exact List.mem_cons_self
  obtain ⟨job, ht⟩ := hawaited
  obtain ⟨message, contentId, rfl, rfl⟩ := (h.tickets cookie id hmem).2 job ht
  obtain ⟨m, hloading, rfl⟩ := Keyring.loading_of_task h.waits ht
  rw [heldIds_ofNat h.kept h.ids hloading.uses] at hheld
  exact ⟨m, content, hloading, rfl, hheld, hfound⟩

theorem Mailing.Invariant.tickets_tail (h : p.Invariant paths) {task : MailTask}
    {rest : List MailTask} (hqueue : p.queue = task :: rest) : Ticketed p.keyring rest := by
  intro cookie id hmem
  refine h.tickets cookie id ?_
  rw [hqueue]
  exact List.mem_cons_of_mem task hmem

-- A load leaves the files as they are.
theorem Mailing.Invariant.served_tail (h : p.Invariant paths) {cookie : Nat} {id : UInt64}
    {rest : List MailTask} (hqueue : p.queue = .loadMessageContent cookie id :: rest) :
    Served (heldIds p.keyring) (Awaited p.keyring) (ops rest) (contentFiles paths p.files) := by
  have hserved := h.served
  have hops : ops p.queue = .get cookie id :: ops rest := by rw [hqueue]; rfl
  rw [hops] at hserved
  exact hserved.pop

theorem Mailing.Invariant.thread (h : p.Invariant paths) (hw : Works paths p p') :
    p'.Invariant paths := by
  cases hw with
  | @task task rest hqueue htask =>
    have hserved := h.served
    rw [hqueue] at hserved
    refine ⟨h.lettered, h.waits, h.kept, h.ids, h.tickets_tail hqueue, h.results, ?_⟩
    rw [show contentFiles paths (task.handle ssl paths p.files) = _ from
      contentFiles_handle paths task p.files]
    cases task with
    | saveOutgoings outgoings => exact hserved
    | saveMessageContent id content => exact hserved.pop
    | deleteMessageContent id => exact hserved.pop
    | loadMessageContent cookie id => cases htask
  | @load cookie id rest hqueue hawaited =>
    obtain ⟨m, content, -, -, -, hfound⟩ := h.head_load hqueue hawaited
    refine ⟨h.lettered, h.waits, h.kept, h.ids, h.tickets_tail hqueue, ?_, h.served_tail hqueue⟩
    intro result hresult
    rcases List.mem_append.mp hresult with hold | hnew
    · exact h.results result hold
    · rw [List.mem_singleton.mp hnew, hfound]
      exact Option.some_ne_none content
  | @pass cookie id rest hqueue =>
    exact ⟨h.lettered, h.waits, h.kept, h.ids, h.tickets_tail hqueue, h.results,
      h.served_tail hqueue⟩

end ThreadSteps

section Restarts

variable {paths : Paths} {p p' : Mailing ssl} {start : Startup ssl} {new : List MailTask}

-- The contents that are needed are in the files when the program has ended.
theorem Mailing.Invariant.stopped_files (h : p.Invariant paths) {id : UInt64}
    {content : List UInt8} (hheld : heldIds p.keyring id = some content) :
    contentFiles paths (p.stopped paths).files id = some content := by
  rw [Mailing.stopped, contentFiles_handleAll, ops_append, settled_append]
  exact h.served.kept id content hheld

/-- The messages that are saved when the program ends. -/
def Mailing.lastOutgoings (p : Mailing ssl) : List Outgoing :=
  outgoingsOf (p.keyring.messages.filter (·.state ≠ .generatingAckdata))

theorem Mailing.outgoings_stopped (p : Mailing ssl) (start : Startup ssl) (paths : Paths) :
    start.outgoings paths (p.stopped paths).files =
      forEachOutgoing ssl start.uninitialised start.unused paths.directory
        (some (p.lastOutgoings.flatMap (writeOutgoing ssl))) start.names := by
  have hfile : (p.stopped paths).files (outgoingsFilename paths) =
      some (p.lastOutgoings.flatMap (writeOutgoing ssl)) := by
    rw [Mailing.stopped, handleAll, List.foldl_append]
    exact saveOutgoings_written paths _ _
  rw [Startup.outgoings, hfile]

theorem Mailing.Invariant.contentId_le (h : p.Invariant paths) {m : Keyring.Message ssl}
    (hm : m ∈ p.keyring.messages) :
    ((outgoingOf (Keyring.addOutgoing m)).contentId.toNat : Int) ≤ intMax := by
  have hlt : m.contentId < p.keyring.nextMessageContentId :=
    h.kept.below _ (List.mem_map_of_mem (f := (·.2))
      (List.mem_map_of_mem (f := fun m => (m.id, m.contentId)) hm))
  have hnat : (UInt64.ofNat m.contentId).toNat = m.contentId := toNat_ofNat_id h.ids hlt.le
  have hmax := h.ids
  show ((UInt64.ofNat m.contentId).toNat : Int) ≤ intMax
  rw [hnat]
  omega

/-- What is reported after a start is about messages that were saved at the end. -/
theorem Mailing.Invariant.reports (h : p.Invariant paths) {id : UInt64}
    (hreports : start.Reports paths p id) :
    ∃ m ∈ p.keyring.messages, m.state ≠ .generatingAckdata ∧ UInt64.ofNat m.contentId = id := by
  obtain ⟨outgoing, houtgoing, rfl⟩ := hreports
  rw [Mailing.outgoings_stopped] at houtgoing
  have hids : ∀ outgoing ∈ p.lastOutgoings, (outgoing.contentId.toNat : Int) ≤ intMax := by
    intro outgoing hmem
    obtain ⟨m, hm, rfl⟩ := List.mem_map.mp hmem
    exact h.contentId_le (List.mem_of_mem_filter hm)
  obtain ⟨written, hwritten, hid⟩ :=
    contentId_loadOutgoings ssl start.uninitialised hids houtgoing
  obtain ⟨m, hm, rfl⟩ := List.mem_map.mp hwritten
  obtain ⟨hthere, hstate⟩ := List.mem_filter.mp hm
  exact ⟨m, hthere, of_decide_eq_true hstate, hid.symm⟩

theorem Mailing.Invariant.uses_of_reports (h : p.Invariant paths) {id : UInt64}
    (hreports : start.Reports paths p id) : p.Uses id := by
  obtain ⟨m, hm, -, hid⟩ := h.reports hreports
  exact ⟨m, hm, hid⟩

/-- Messages whose addresses can be read back are all reported. -/
theorem Mailing.Invariant.reported (h : p.Invariant paths)
    (hrecordable : ∀ m ∈ p.keyring.messages, m.state ≠ .generatingAckdata → Recordable m)
    {m : Keyring.Message ssl} (hm : m ∈ p.keyring.messages) (hstate : m.state ≠ .generatingAckdata) :
    start.Reports paths p (UInt64.ofNat m.contentId) := by
  have hsavable : ∀ outgoing ∈ p.lastOutgoings, outgoing.Savable := by
    intro outgoing hmem
    obtain ⟨other, hother, rfl⟩ := List.mem_map.mp hmem
    obtain ⟨hthere, hdone⟩ := List.mem_filter.mp hother
    obtain ⟨hfrom, hto⟩ := hrecordable other hthere (of_decide_eq_true hdone)
    exact ⟨hfrom, hto, h.contentId_le hthere⟩
  refine ⟨outgoingOf (Keyring.addOutgoing m), ?_, rfl⟩
  rw [Mailing.outgoings_stopped]
  show outgoingOf (Keyring.addOutgoing m) ∈ loadOutgoings ssl start.uninitialised _
  rw [(loadOutgoings_flatMap ssl start.uninitialised p.lastOutgoings hsavable).1]
  exact List.mem_map_of_mem (f := fun m => outgoingOf (Keyring.addOutgoing m))
    (List.mem_filter.mpr ⟨hm, decide_eq_true hstate⟩)

/-- What the messages are and have after a start. -/
theorem Mailing.Invariant.restarted (h : p.Invariant paths)
    (hstart : Starts paths start new (p.stopped paths) p') :
    Keyring.Lettered p'.keyring ∧ Keyring.Inv True False p'.keyring none ∧
      (p.stopped paths).keyring.log <+: p'.keyring.log ∧
      p'.keyring.contents.calls = p.keyring.contents.calls ∧
      (∀ contentId, p'.keyring.contents.Uses contentId →
        contentId < p'.keyring.contents.next ∧
        ∃ outgoing ∈ (start.outgoings paths (p.stopped paths).files).1,
          contentId = outgoing.contentId.toNat) := by
  let records := (start.outgoings paths (p.stopped paths).files).1.map recordOf
  have hsaved : Keyring.Lettered p.keyring.saveMessages :=
    h.lettered.congr rfl rfl (List.Subset.refl _)
  have hkeyring : p'.keyring = p.keyring.saveMessages.restart start.env start.keys start.pubkeys
    records := hstart.keyring
  have hmoves : Keyring.Moves (Keyring.anything ssl) p.keyring.saveMessages p'.keyring := by
    rw [hkeyring]
    exact Keyring.moves_restart hsaved start.keys start.pubkeys records
  obtain ⟨huses, hbelow, hcalls⟩ :=
    @Keyring.contents_restart _ start.env _ hsaved start.keys start.pubkeys records
  rw [← hkeyring] at huses hbelow hcalls
  have hwaits : Keyring.Inv True False p'.keyring none := by
    rw [hkeyring]
    exact h.waits.saveMessages.restart
      (fun _ _ hloads => absurd trivial hloads) start.keys start.pubkeys
  refine ⟨hsaved.moves hmoves, hwaits, hmoves.log_prefix, ?_, fun contentId hused => ?_⟩
  · rw [hcalls, Keyring.contents_saveMessages]
  · obtain ⟨record, hrecord, rfl⟩ := huses contentId hused
    refine ⟨hbelow record hrecord, ?_⟩
    obtain ⟨outgoing, houtgoing, rfl⟩ := List.mem_map.mp hrecord
    exact ⟨outgoing, houtgoing, rfl⟩

theorem Mailing.Invariant.restart_saved (h : p.Invariant paths)
    (hstart : Starts paths start new (p.stopped paths) p') :
    p'.keyring.contents.saved = p.keyring.contents.saved := by
  obtain ⟨-, -, -, hcalls, -⟩ := h.restarted hstart
  funext contentId
  rw [Keyring.Contents.saved, hcalls]
  rfl

/-- What the keyring asks of the store at a start are loads. -/
theorem Mailing.Invariant.restart_ops (h : p.Invariant paths)
    (hstart : Starts paths start new (p.stopped paths) p') {op : Op UInt64 (List UInt8) Nat}
    (hop : op ∈ ops new) : ∃ cookie id, op = .get cookie id := by
  obtain ⟨-, -, hlog, hcalls, -⟩ := h.restarted hstart
  by_contra hget
  simp only [not_exists] at hget
  have hnone : p'.keyring.contents.calls = (p.stopped paths).keyring.contents.calls ++ [] := by
    rw [hcalls, List.append_nil, Mailing.stopped, Keyring.contents_saveMessages]
  obtain ⟨call, hcall, -⟩ := (hstart.queues.mem_calls hnone hlog hget).mp hop
  exact absurd hcall List.not_mem_nil

/-- The contents of the messages that are read back are spared, and they are what was saved. -/
theorem Mailing.Invariant.restart_keeps (h : p.Invariant paths)
    (hstart : Starts paths start new (p.stopped paths) p') {id : UInt64}
    (hreports : start.Reports paths p id) :
    ∃ content, p.saved id.toNat = some content ∧ contentFiles paths p'.files id = some content := by
  have hused : p.keyring.contents.Uses id.toNat :=
    (uses_ofNat h.kept h.ids).mp (h.uses_of_reports hreports)
  obtain ⟨content, hcontent⟩ := Option.ne_none_iff_exists'.mp (h.kept.saved _ hused)
  refine ⟨content, hcontent, ?_⟩
  have hstopped : contentFiles paths (p.stopped paths).files id = some content := by
    apply h.stopped_files
    rw [heldIds, Keyring.Contents.held, if_pos hused, hcontent]
  obtain ⟨outgoing, houtgoing, rfl⟩ := hreports
  rw [hstart.files, contentFiles, handleLoadMessageContent, unlinkAll_of_notMem]
  · exact hstopped
  · exact forEachOutgoing_spares ssl _ _ paths _ _ houtgoing

theorem Mailing.Invariant.restart (h : p.Invariant paths)
    (hstart : Starts paths start new (p.stopped paths) p') : p'.Invariant paths := by
  obtain ⟨hlettered, hwaits, hlog, hcalls, huses⟩ := h.restarted hstart
  have hsaved := h.restart_saved hstart
  have hreports : ∀ contentId, p'.keyring.contents.Uses contentId →
      ∃ id, contentId = id.toNat ∧ start.Reports paths p id := by
    intro contentId hused
    obtain ⟨-, outgoing, houtgoing, rfl⟩ := huses contentId hused
    exact ⟨outgoing.contentId, rfl, outgoing, houtgoing, rfl⟩
  have hkept : p'.keyring.contents.Kept := by
    refine ⟨?_, fun contentId hused => (huses contentId hused).1, fun contentId hused => ?_⟩
    · have hmap : p'.keyring.contents.users.map (·.1) = p'.keyring.messages.map (·.id) := by
        simp only [Keyring.State.contents, List.map_map]
        rfl
      rw [hmap]
      exact hlettered.ids
    · obtain ⟨id, rfl, hid⟩ := hreports contentId hused
      rw [hsaved]
      exact h.kept.saved _ ((uses_ofNat h.kept h.ids).mp (h.uses_of_reports hid))
  have hload : ∀ cookie id, .loadMessageContent cookie id ∈ new → ∃ message contentId,
      (cookie, .loadContent message contentId) ∈ p'.keyring.tasks ∧ id = UInt64.ofNat contentId := by
    intro cookie id hmem
    obtain ⟨contentId, hload, rfl⟩ := hstart.queues.mem_loads.mp hmem
    obtain ⟨-, message, ht⟩ := Keyring.mem_contentLoads.mp hload
    exact ⟨message, contentId, ht, rfl⟩
  -- the contents that are still needed are spared
  have hfiles : ∀ id content, heldIds p'.keyring id = some content →
      contentFiles paths p'.files id = some content := by
    intro id content hheld
    unfold heldIds Keyring.Contents.held at hheld
    split_ifs at hheld with hused
    obtain ⟨other, hid, hreported⟩ := hreports id.toNat hused
    obtain rfl := UInt64.toNat_inj.mp hid
    obtain ⟨kept, hkeeps, hfile⟩ := h.restart_keeps hstart hreported
    have hcontent : p.saved id.toNat = some content := by rw [← hheld, hsaved]; rfl
    rw [hfile, ← hkeeps, hcontent]
  refine ⟨hlettered, hwaits, hkept, hstart.ids, ?_, ?_, ?_⟩
  · intro cookie id hmem
    rw [hstart.queue] at hmem
    obtain ⟨message, contentId, ht, rfl⟩ := hload cookie id hmem
    refine ⟨hwaits.taskBound _ ht, fun job hjob => ⟨message, contentId, ?_, rfl⟩⟩
    exact congrArg Prod.snd (hwaits.task_eq hjob ht rfl)
  · rw [hstart.loaded]
    simp
  · have hnone : Served (heldIds p'.keyring) (Awaited p'.keyring) []
        (contentFiles paths p'.files) := served_nil hfiles
    rw [hstart.queue, ← List.nil_append (ops new)]
    refine hnone.append (fun id content hput => ?_) (fun id hremove => ?_) fun cookie id hget _ => ?_
    · obtain ⟨cookie, other, heq⟩ := h.restart_ops hstart hput
      cases heq
    · obtain ⟨cookie, other, heq⟩ := h.restart_ops hstart hremove
      cases heq
    · obtain ⟨message, contentId, ht, rfl⟩ := hload cookie id (get_mem_ops.mp hget)
      exact heldIds_loading hkept hstart.ids hwaits ht

/-- A start restores the contents. -/
theorem Mailing.Invariant.restored (h : p.Invariant paths)
    (hstart : Starts paths start new (p.stopped paths) p') : Restored paths start p p' new where
  reports _ hreports := h.reports hreports
  reported hrecordable _ hm hstate := h.reported hrecordable hm hstate
  keeps _ hreports := h.restart_keeps hstart hreports
  deletes id names hnames hlisted hlt hfree hunused := by
    rw [hstart.files, contentFiles, handleLoadMessageContent]
    apply unlinkAll_of_mem
    rw [Mailing.outgoings_stopped, hnames]
    refine forEachOutgoing_unlinks ssl start.uninitialised paths hlisted hlt ?_ hunused
    intro outgoing houtgoing hid
    refine hfree ⟨outgoing, ?_, hid⟩
    rw [Mailing.outgoings_stopped]
    exact houtgoing
  messages m hm := by
    obtain ⟨-, -, -, -, huses⟩ := h.restarted hstart
    have hused : p'.keyring.contents.Uses m.contentId :=
      List.mem_map_of_mem (f := (·.2)) (List.mem_map_of_mem (f := fun m => (m.id, m.contentId)) hm)
    obtain ⟨-, outgoing, houtgoing, hid⟩ := huses m.contentId hused
    exact ⟨outgoing, houtgoing, by rw [hid, UInt64.ofNat_toNat]⟩
  saved := h.restart_saved hstart
  tasks id := by
    refine ⟨fun hmem => ?_, fun content hmem => ?_⟩
    · obtain ⟨cookie, other, heq⟩ := h.restart_ops hstart (remove_mem_ops.mpr hmem)
      cases heq
    · obtain ⟨cookie, other, heq⟩ := h.restart_ops hstart (put_mem_ops.mpr hmem)
      cases heq

end Restarts

/-! ## 6. Whole runs -/

theorem Mailing.invariant_first (paths : Paths) (keys : List (Keyring.KeyringKey ssl))
    (files : Files) : (Mailing.first keys files).Invariant paths where
  lettered := Keyring.lettered_new keys
  waits := Keyring.inv_new keys
  kept := ⟨List.nodup_nil, fun _ h => absurd h List.not_mem_nil, fun _ h => absurd h List.not_mem_nil⟩
  ids := Int.natCast_nonneg (2 ^ 31 - 1)
  tickets _ _ h := absurd h List.not_mem_nil
  results _ h := absurd h List.not_mem_nil
  served := by
    refine served_nil fun id content hheld => ?_
    unfold heldIds Keyring.Contents.held at hheld
    split_ifs at hheld with hused
    exact absurd hused List.not_mem_nil

theorem Mailing.Invariant.of_reach {paths : Paths} {keys : List (Keyring.KeyringKey ssl)}
    {files : Files} {p : Mailing ssl}
    (h : ReflTransGen (Mailing.Step paths) (Mailing.first keys files) p) : p.Invariant paths := by
  induction h with
  | refl => exact Mailing.invariant_first paths keys files
  | tail _ hstep ih =>
    cases hstep with
    | keyring h => exact ih.keyring h
    | thread h => exact ih.thread h
    | restart h => exact ih.restart h

/-- In every run, with mails, acknowledgements, timers, steps of the store thread and restarts in any
order, no content id is used for two mails at a time, the deletion of a content is queued exactly when
its last message is gone, a content that is loaded for a message is the one that was saved for it, and
a start keeps the contents of the messages that are read back and deletes the others. -/
theorem mailing_sound (paths : Paths) (keys : List (Keyring.KeyringKey ssl)) (files : Files)
    {p : Mailing ssl} (h : ReflTransGen (Mailing.Step paths) (Mailing.first keys files) p) :
    p.Sound paths := by
  have hinvariant : p.Invariant paths := .of_reach h
  refine ⟨fun m hm => ?_, fun cookie id rest => hinvariant.head_load,
    fun e new p' hh => hinvariant.accounts hh, fun start new p' hstart => hinvariant.restored hstart⟩
  exact hinvariant.kept.below _ (List.mem_map_of_mem (f := (·.2))
    (List.mem_map_of_mem (f := fun m => (m.id, m.contentId)) hm))

-- The tasks can always be queued: first those of the calls, then the loads.
theorem queues_append (s s' : Keyring.State ssl) :
    Queues s s' ((s'.log.drop s.log.length).filterMap mailTask? ++
      (s'.contentLoads s.nextTask).map loadTask) := by
  have hcalls : ∀ task ∈ (s'.log.drop s.log.length).filterMap mailTask?, task.isLoad = false := by
    intro task htask
    obtain ⟨e, -, he⟩ := List.mem_filterMap.mp htask
    cases e <;> cases he <;> rfl
  have hloads : ∀ task ∈ (s'.contentLoads s.nextTask).map loadTask, task.isLoad = true := by
    intro task htask
    obtain ⟨load, -, rfl⟩ := List.mem_map.mp htask
    rfl
  constructor
  · rw [List.filter_append, List.filter_eq_self.mpr fun task h => by rw [hcalls task h]; rfl,
      List.filter_eq_nil_iff.mpr fun task h => by rw [hloads task h]; decide, List.append_nil]
  · rw [List.filter_append, List.filter_eq_nil_iff.mpr fun task h => by rw [hcalls task h]; decide,
      List.filter_eq_self.mpr hloads, List.nil_append]

/-- What the keyring does next, with its tasks in the queue. -/
def Mailing.next (e : Keyring.Event ssl) (p : Mailing ssl) : Mailing ssl :=
  let s := Runs.next Keyring.step p.keyring e
  { p with
    keyring := s
    queue := p.queue ++ ((s.log.drop p.keyring.log.length).filterMap mailTask? ++
      (s.contentLoads p.keyring.nextTask).map loadTask) }

theorem Mailing.step_next {p : Mailing ssl} {s : Keyring.State ssl} {e : Keyring.Event ssl}
    (hp : p.keyring = s)
    (hrunning : ∀ env keys pubkeys save, e ≠ .restart env keys pubkeys save)
    (hresults : ∀ env cookie content, e = .complete env cookie (.content content) →
      (cookie, content) ∈ p.loaded)
    (hsome : (Keyring.step s e).isSome = true)
    (hids : ((Runs.next Keyring.step s e).nextMessageContentId : Int) ≤ intMax) :
    ∃ new, Handles e new p (p.next e) ∧ (p.next e).keyring = Runs.next Keyring.step s e := by
  subst hp
  obtain ⟨s, hs⟩ := Option.isSome_iff_exists.mp hsome
  exact ⟨_, ⟨hrunning, hs.trans (congrArg some (Runs.next_of_some hs).symm), hresults, hids,
    queues_append _ _, rfl, rfl, rfl⟩, rfl⟩

/-- A mail to somebody whose key is known. -/
def submitted : Mailing .additive :=
  (Mailing.first Keyring.acquaintedKeys fun _ => none).next
    (.sendMessage (Crypto.sampleKey 4 Address.four_lt).address [Keyring.strangerAddress] CInt.one
      (ascii "hello") Keyring.sampleAckdata)

/-- The mail up to the load of its content. -/
def mailing : Mailing .additive :=
  submitted.next (.complete Keyring.sampleEnv 0 (.ackdata Keyring.sampleAckdata))

/-- The thread comes to the load. -/
theorem mailing_ready (paths : Paths) :
    ∃ (p : Mailing .additive) (cookie : Nat) (id : UInt64),
      ReflTransGen (Mailing.Step paths) (Mailing.first Keyring.acquaintedKeys fun _ => none) p ∧
      p.keyring = mailing.keyring ∧ p.queue = [.loadMessageContent cookie id] ∧
      p.loaded = [] ∧ Awaited p.keyring cookie := by
  obtain ⟨new, hsubmit, -⟩ : ∃ new, Handles _ new
      (Mailing.first Keyring.acquaintedKeys fun _ => none) submitted ∧ _ :=
    Mailing.step_next rfl (by simp) (by simp) rfl (by decide +kernel)
  obtain ⟨new', hackdata, -⟩ : ∃ new, Handles _ new submitted mailing ∧ _ :=
    Mailing.step_next rfl (by simp) (by simp) (by decide +kernel) (by decide +kernel)
  have hkinds : mailing.queue.map MailTask.isLoad = [false, false, true] := by decide +kernel
  have hloads : mailing.queue.filter (·.isLoad) =
      (mailing.keyring.contentLoads 0).map loadTask := by
    rfl
  obtain ⟨save, queue, hqueue, hsave, hkinds⟩ := List.map_eq_cons_iff.mp hkinds
  obtain ⟨saveOutgoings, queue, rfl, houtgoings, hkinds⟩ := List.map_eq_cons_iff.mp hkinds
  obtain ⟨load, queue, rfl, hload, hkinds⟩ := List.map_eq_cons_iff.mp hkinds
  obtain rfl := List.map_eq_nil_iff.mp hkinds
  let saved : Mailing .additive :=
    { mailing with
      queue := [saveOutgoings, load]
      files := save.handle .additive paths mailing.files }
  have hfirst : Mailing.Step paths mailing saved := .thread (.task hqueue hsave)
  have hsecond : Mailing.Step paths saved _ := .thread (.task rfl houtgoings)
  have hreach := (((ReflTransGen.single (Mailing.Step.keyring hsubmit)).tail
    (.keyring hackdata)).tail hfirst).tail hsecond
  cases load with
  | saveOutgoings _ | saveMessageContent _ _ | deleteMessageContent _ => cases hload
  | loadMessageContent cookie id =>
    have hawaited : Awaited mailing.keyring cookie := by
      have hmem : .loadMessageContent cookie id ∈ mailing.queue.filter (·.isLoad) := by
        rw [hqueue]
        exact List.mem_filter.mpr ⟨by simp, rfl⟩
      rw [hloads] at hmem
      obtain ⟨⟨t, contentId⟩, hrequest, heq⟩ := List.mem_map.mp hmem
      cases heq
      obtain ⟨-, message, ht⟩ := Keyring.mem_contentLoads.mp hrequest
      exact ⟨_, ht⟩
    exact ⟨_, cookie, id, hreach, rfl, rfl, rfl, hawaited⟩

/-- The directories of the sample. -/
def samplePaths : Paths where
  directory := ascii "notbit/"
  maildir := ascii "maildir/"

theorem mailing_loads :
    ∃ p : Mailing .additive,
      ReflTransGen (Mailing.Step samplePaths)
        (Mailing.first Keyring.acquaintedKeys fun _ => none) p ∧
      ∃ cookie id rest content, p.queue = .loadMessageContent cookie id :: rest ∧
        handleLoadMessageContent samplePaths id p.files = some content := by
  obtain ⟨p, cookie, id, hreach, -, hqueue, -, hawaited⟩ := mailing_ready samplePaths
  obtain ⟨-, content, -, -, -, hfound⟩ :=
    (mailing_sound samplePaths _ _ hreach).loads cookie id [] hqueue hawaited
  exact ⟨p, hreach, cookie, id, [], content, hqueue, hfound⟩

end Notbit.Daemon
