import Notbit.Lib.Runs
import Notbit.Lib.Slots
import Notbit.Lib.Tables

/-!
# Loads — the tasks of the store thread and the loads among them (`ntb-store.c`)

A load has two records: a task, which the thread works on and frees, and a cookie, which stays with
the caller until the callback.  The tasks are in the slots of the store's own allocator.  One step is
what a thread does while it holds the mutex or until it takes it again.
-/

open Runs Tables

namespace Notbit.Store

/-! ## 1. The state -/

/-- `enum ntb_store_task_type` -/
inductive TaskType where
  | saveBlob | loadBlob | saveAddrList | saveKeys | saveOutgoings | saveMessage | saveMessageContent
  | loadMessageContent | deleteMessageContent | deleteObject
  deriving DecidableEq, Repr

def TaskType.isLoad : TaskType → Bool
  | .loadBlob | .loadMessageContent => true
  | .saveBlob | .saveAddrList | .saveKeys | .saveOutgoings | .saveMessage | .saveMessageContent
  | .deleteMessageContent | .deleteObject => false

/-- What a task asks for: its type, and the hash, the identifier or the things to save. -/
structure Job (α : Type) where
  type : TaskType
  data : α
  deriving DecidableEq, Repr

/-- `struct ntb_store_task`; only the two types of loads have a cookie.  `owner` is the number of the
call that the task was made for. -/
structure Task (α : Type) where
  job : Job α
  cookie : Option Nat
  owner : Nat
  deriving DecidableEq, Repr

/-- What there is of one call: `struct ntb_store_cookie`, if it is a load, and its history.  `ran` is
what the thread did for it, and `delivered` the blobs its callback was given. -/
structure Record (α β : Type) where
  job : Job α
  task : Nat
  idleSource : Bool
  blob : Option β
  cancelled : Bool
  ran : List (Job α × Option β)
  delivered : List (Option β)
  deriving DecidableEq, Repr

/-- Where the thread is with a task: it reads the file of a load or does something else, both without
the mutex, or it has the mutex again and is about to free the task.  `announced` says that it has
added an idle source and not stored the pointer to it yet. -/
inductive Phase where
  | loading
  | working
  | finishing (announced : Bool)
  deriving DecidableEq, Repr

structure State (α β : Type) where
  slots : Slots (Task α)
  /-- The slots of the tasks that wait for the thread. -/
  queue : List Nat
  /-- The slot of the task the thread is at. -/
  thread : Option (Nat × Phase)
  records : List (Record α β)
  /-- The idle sources of the main context. -/
  sources : List Nat
  /-- The load whose callback the main loop is in. -/
  calling : Option Nat
  /-- An assertion has failed. -/
  aborted : Bool

variable {α β : Type}

/-- `ntb_store_new` and `ntb_store_start` -/
def State.init : State α β :=
  { slots := Slots.empty, queue := [], thread := none, records := [], sources := [], calling := none
    aborted := false }

/-- The mutex is free for the main thread. -/
def State.unlocked (s : State α β) : Bool :=
  match s.thread with
  | some (_, .finishing _) => false
  | _ => true

def State.setRecord (s : State α β) (id : Nat) (f : Record α β → Record α β) : State α β :=
  { s with records := s.records.modify id f }

/-! ## 2. The steps -/

/-- `new_task` and the functions that call it: `ntb_store_load_blob`,
`ntb_store_load_message_content`, and the others, which have no cookie. -/
def submit (s : State α β) (job : Job α) : State α β :=
  let id := s.records.length
  { s with
    slots := s.slots.alloc
      { job, cookie := if job.type.isLoad then some id else none, owner := id }
    queue := s.queue ++ [s.slots.next]
    records := s.records ++
      [{ job, task := s.slots.next, idleSource := false, blob := none, cancelled := false, ran := []
         delivered := [] }] }

/-- `ntb_store_cancel_task`, for a cookie whose pointer leads to a slot with the content `task`.  The
pointer is not reset when the task is freed. -/
def cancelTask (s : State α β) (id : Nat) (r : Record α β) (task : Task α) : State α β :=
  if task.job.type.isLoad then
    { s.setRecord id fun r => { r with cancelled := true } with
      slots := s.slots.modify r.task fun task => { task with cookie := none }
      sources := if r.idleSource then s.sources.erase id else s.sources }
  else { s with aborted := true }

/-- The thread takes the first task of the queue.  A load that was cancelled is not begun. -/
def take (s : State α β) (slot : Nat) (rest : List Nat) (task : Task α) : State α β :=
  { s with
    queue := rest
    thread := some (slot,
      if task.job.type.isLoad then if task.cookie = none then .finishing false else .loading
      else .working) }

/-- `handle_load_blob` and `handle_load_message_content` from where they release the mutex: what is
found in the file goes to the cookie, unless it has been reset in the meantime. -/
def load (s : State α β) (slot : Nat) (found : Option β) (task : Task α) : State α β :=
  let s := s.setRecord task.owner fun r => { r with ran := r.ran ++ [(task.job, found)] }
  match task.cookie with
  | none => { s with thread := some (slot, .finishing false) }
  | some id =>
    { s.setRecord id fun r => { r with blob := found } with
      sources := id :: s.sources
      thread := some (slot, .finishing true) }

/-- The other tasks. -/
def work (s : State α β) (slot : Nat) (task : Task α) : State α β :=
  { s.setRecord task.owner fun r => { r with ran := r.ran ++ [(task.job, none)] } with
    thread := some (slot, .finishing false) }

/-- The pointer to the idle source is stored, and the task is freed. -/
def finish (s : State α β) (slot : Nat) (announced : Bool) (task : Task α) : State α β :=
  let s := match announced, task.cookie with
    | true, some id => s.setRecord id fun r => { r with idleSource := true }
    | _, _ => s
  { s with slots := s.slots.release slot, thread := none }

/-- The next step of `store_thread_func`.  When the thread is in a load, `found` is what it reads. -/
def threadStep (s : State α β) (found : Option β) : Option (State α β) :=
  match s.thread with
  | none =>
    match s.queue with
    | [] => none
    | slot :: rest => (s.slots.memory[slot]?).map (take s slot rest)
  | some (slot, .loading) => (s.slots.memory[slot]?).map (load s slot found)
  | some (slot, .working) => (s.slots.memory[slot]?).map (work s slot)
  | some (slot, .finishing announced) => (s.slots.memory[slot]?).map (finish s slot announced)

/-- `load_data_idle_cb` up to the callback. -/
def idleCb (s : State α β) (id : Nat) : State α β :=
  { s.setRecord id fun r => { r with delivered := r.delivered ++ [r.blob] } with calling := some id }

/-- The rest of `load_data_idle_cb`. -/
def idleReturn (s : State α β) (id : Nat) : State α β :=
  { s with sources := s.sources.erase id, calling := none }

inductive Event (α β : Type) where
  | submit (job : Job α)
  | cancel (id : Nat)
  | thread (found : Option β)
  | idle (id : Nat)
  | idleReturn

/-- A load that its caller may cancel: one with a cookie that is not freed yet. -/
def Record.held (r : Record α β) : Bool :=
  r.job.type.isLoad && !r.cancelled && r.delivered.isEmpty

def act (s : State α β) : Event α β → Option (State α β)
  | .submit job => if s.unlocked then some (submit s job) else none
  | .cancel id =>
    match s.records[id]? with
    | some r =>
      if r.held && s.unlocked then (s.slots.memory[r.task]?).map (cancelTask s id r) else none
    | none => none
  | .thread found => threadStep s found
  | .idle id => if id ∈ s.sources ∧ s.calling = none then some (idleCb s id) else none
  | .idleReturn => s.calling.map (idleReturn s)

/-- After a failed assertion nothing happens any more. -/
def step (s : State α β) (e : Event α β) : Option (State α β) := if s.aborted then none else act s e

/-! ## 3. What is expected of a load -/

/-- The task as it has to be: as it was submitted, and without a cookie if the load is cancelled. -/
def Record.taskOf (r : Record α β) (id : Nat) : Task α :=
  { job := r.job, cookie := if r.job.type.isLoad && !r.cancelled then some id else none, owner := id }

/-- A load whose callback is still to come. -/
def State.Pending (s : State α β) (id : Nat) : Prop :=
  (∃ slot task, (slot ∈ s.queue ∨ s.thread = some (slot, .loading)) ∧
      s.slots.memory[slot]? = some task ∧ task.cookie = some id) ∨
    (id ∈ s.sources ∧ s.calling ≠ some id)

/-- A call of another kind that has not been carried out yet. -/
def State.Waiting (s : State α β) (id : Nat) : Prop :=
  ∃ slot task, (slot ∈ s.queue ∨ s.thread = some (slot, .working)) ∧
    s.slots.memory[slot]? = some task ∧ task.owner = id

/-- The steps that nobody has to ask for. -/
def Event.Internal : Event α β → Prop
  | .thread _ | .idle _ | .idleReturn => True
  | _ => False

open Classical in
/-- The callback of a load is given what the thread has read for it; a cancelled load has none, and
any other has one when it is not pending any more.  The other tasks are carried out once. -/
structure Record.Sound (s : State α β) (id : Nat) (r : Record α β) : Prop where
  own : ∀ blob ∈ r.delivered, r.ran = [(r.job, blob)]
  cancelled : r.cancelled = true → r.delivered = []
  once : r.job.type.isLoad = true → r.cancelled = false →
    r.delivered.length = if s.Pending id then 0 else 1
  other : r.job.type.isLoad = false → r.ran = if s.Waiting id then [] else [(r.job, none)]

/-- What is expected of a state: nothing is aborted; the calls are served as they should be, and
those that are still to be served can be; and a queued task is as it was submitted and not freed,
except that its cookie is reset if its own load was cancelled. -/
structure Sound (s : State α β) : Prop where
  running : s.aborted = false
  records : ∀ id r, s.records[id]? = some r → Record.Sound s id r
  queued : ∀ slot ∈ s.queue, slot ∉ s.slots.free ∧
    ∃ (id : Nat) (r : Record α β), s.records[id]? = some r ∧ s.slots.memory[slot]? = some (r.taskOf id)
  served : ∃ rest, (∀ e ∈ rest, Event.Internal e) ∧ ∀ r ∈ (run step s rest).records,
    r.job.type.isLoad = true → r.cancelled = false → r.delivered.length = 1

/-- A load is cancelled while the slot of its task was not handed out again, or when a load was the
last to have the slot and the slot is free, or that load is cancelled already. -/
def Event.Harmless (s : State α β) : Event α β → Prop
  | .cancel id => ∀ r task, s.records[id]? = some r → s.slots.memory[r.task]? = some task →
      task.owner = id ∨
        (task.job.type.isLoad = true ∧ (r.task ∈ s.slots.free ∨ task.cookie = none))
  | _ => True

/-! ## 4. The life of a call -/

/-- What the rest of the program has to do with a call. -/
structure View where
  queued : Bool
  phase : Option Phase
  source : Bool
  calling : Bool

def View.none : View := { queued := false, phase := .none, source := false, calling := false }

/-- The call that a slot was last handed out for. -/
def State.owner (s : State α β) (slot : Nat) : Option Nat := (s.slots.memory[slot]?).map (·.owner)

def State.view (s : State α β) (id : Nat) : View where
  queued := some id ∈ s.queue.map s.owner
  phase := (s.thread.filter fun p => s.owner p.1 = some id).map (·.2)
  source := id ∈ s.sources
  calling := s.calling = some id

/-- The stages of a call.  After the idle source of a load is added the thread may not have freed the
task yet, whatever the main loop does in the meantime. -/
inductive Stage where
  | queued
  | loading
  | working
  | leaving
  | announced (finishing : Bool)
  | calling (finishing : Bool)
  | delivered (finishing : Bool)
  | settled

def Stage.view : Stage → View
  | .queued => { queued := true, phase := none, source := false, calling := false }
  | .loading => { queued := false, phase := some .loading, source := false, calling := false }
  | .working => { queued := false, phase := some .working, source := false, calling := false }
  | .leaving =>
    { queued := false, phase := some (.finishing false), source := false, calling := false }
  | .announced finishing =>
    { queued := false, phase := if finishing then some (.finishing true) else none, source := true
      calling := false }
  | .calling finishing =>
    { queued := false, phase := if finishing then some (.finishing true) else none, source := true
      calling := true }
  | .delivered finishing =>
    { queued := false, phase := if finishing then some (.finishing true) else none, source := false
      calling := false }
  | .settled => View.none

/-- A load that was cancelled, or another task that has been carried out. -/
structure Record.Settled (r : Record α β) : Prop where
  delivered : r.delivered = []
  load : r.job.type.isLoad = true → r.cancelled = true
  other : r.job.type.isLoad = false → r.cancelled = false ∧ r.ran = [(r.job, none)]

/-- A load whose file was read and that is not cancelled. -/
structure Record.Read (r : Record α β) : Prop where
  load : r.job.type.isLoad = true
  cancelled : r.cancelled = false
  ran : r.ran = [(r.job, r.blob)]

/-- A task that the thread has not done anything for. -/
structure Record.Fresh (r : Record α β) : Prop where
  ran : r.ran = []
  delivered : r.delivered = []
  idleSource : r.idleSource = false
  other : r.job.type.isLoad = false → r.cancelled = false

def Stage.Of : Stage → Record α β → Prop
  | .queued, r => r.Fresh
  | .loading, r => r.Fresh ∧ r.job.type.isLoad = true
  | .working, r => r.Fresh ∧ r.job.type.isLoad = false
  | .leaving, r => r.Settled
  | .announced finishing, r => r.Read ∧ r.delivered = [] ∧ r.idleSource = !finishing
  | .calling _, r => r.Read ∧ r.delivered = [r.blob]
  | .delivered _, r => r.Read ∧ r.delivered = [r.blob]
  | .settled, r => r.Settled

/-- A call is at a stage of its life. -/
def Alive (v : View) (r : Record α β) : Prop := ∃ st : Stage, v = st.view ∧ st.Of r

section Stages

variable {v : View} {r : Record α β}

theorem Alive.queued (h : Alive v r) (hqueued : v.queued = true) : v = Stage.queued.view ∧ r.Fresh := by
  obtain ⟨st, rfl, hst⟩ := h
  cases st with
  | queued => exact ⟨rfl, hst⟩
  | _ => cases hqueued

theorem Alive.loading (h : Alive v r) (hphase : v.phase = some .loading) :
    v = Stage.loading.view ∧ r.Fresh ∧ r.job.type.isLoad = true := by
  obtain ⟨st, rfl, hst⟩ := h
  cases st with
  | loading => exact ⟨rfl, hst⟩
  | announced finishing => cases finishing <;> cases hphase
  | calling finishing => cases finishing <;> cases hphase
  | delivered finishing => cases finishing <;> cases hphase
  | _ => cases hphase

theorem Alive.working (h : Alive v r) (hphase : v.phase = some .working) :
    v = Stage.working.view ∧ r.Fresh ∧ r.job.type.isLoad = false := by
  obtain ⟨st, rfl, hst⟩ := h
  cases st with
  | working => exact ⟨rfl, hst⟩
  | announced finishing => cases finishing <;> cases hphase
  | calling finishing => cases finishing <;> cases hphase
  | delivered finishing => cases finishing <;> cases hphase
  | _ => cases hphase

theorem Alive.leaving (h : Alive v r) (hphase : v.phase = some (.finishing false)) :
    v = Stage.leaving.view ∧ r.Settled := by
  obtain ⟨st, rfl, hst⟩ := h
  cases st with
  | leaving => exact ⟨rfl, hst⟩
  | announced finishing => cases finishing <;> cases hphase
  | calling finishing => cases finishing <;> cases hphase
  | delivered finishing => cases finishing <;> cases hphase
  | _ => cases hphase

-- The thread stores the pointer and frees the task.
theorem Alive.finish (h : Alive v r) (hphase : v.phase = some (.finishing true)) :
    r.Read ∧ Alive { v with phase := none } { r with idleSource := true } := by
  obtain ⟨st, rfl, hst⟩ := h
  cases st with
  | announced finishing =>
    cases finishing
    · cases hphase
    · obtain ⟨hread, hdelivered, -⟩ := hst
      exact ⟨hread, .announced false, rfl, ⟨hread.load, hread.cancelled, hread.ran⟩, hdelivered, rfl⟩
  | calling finishing =>
    cases finishing
    · cases hphase
    · obtain ⟨hread, hdelivered⟩ := hst
      exact ⟨hread, .calling false, rfl, ⟨hread.load, hread.cancelled, hread.ran⟩, hdelivered⟩
  | delivered finishing =>
    cases finishing
    · cases hphase
    · obtain ⟨hread, hdelivered⟩ := hst
      exact ⟨hread, .delivered false, rfl, ⟨hread.load, hread.cancelled, hread.ran⟩, hdelivered⟩
  | _ => cases hphase

-- The main loop invokes the callback.
theorem Alive.idleCb (h : Alive v r) (hsource : v.source = true) (hidle : v.calling = false) :
    Alive { v with calling := true } { r with delivered := r.delivered ++ [r.blob] } := by
  obtain ⟨st, rfl, hst⟩ := h
  cases st with
  | announced finishing =>
    obtain ⟨hread, hdelivered, -⟩ := hst
    refine ⟨.calling finishing, rfl, ⟨hread.load, hread.cancelled, hread.ran⟩, ?_⟩
    show r.delivered ++ [r.blob] = [r.blob]
    rw [hdelivered, List.nil_append]
  | calling finishing => cases hidle
  | _ => cases hsource

theorem Alive.idleReturn (h : Alive v r) (hcalling : v.calling = true) :
    Alive { v with source := false, calling := false } r := by
  obtain ⟨st, rfl, hst⟩ := h
  cases st with
  | calling finishing => exact ⟨.delivered finishing, rfl, hst⟩
  | _ => cases hcalling

/-- The caller cancels a load, when the thread is not about to free its task. -/
theorem Alive.cancelTask (h : Alive v r) (hheld : r.held = true)
    (hphase : ∀ announced, v.phase ≠ some (.finishing announced)) :
    Alive { v with source := v.source && !r.idleSource } { r with cancelled := true } := by
  obtain ⟨st, rfl, hst⟩ := h
  simp only [Record.held, Bool.and_eq_true, Bool.not_eq_true', List.isEmpty_iff] at hheld
  obtain ⟨⟨hload, hcancelled⟩, hdelivered⟩ := hheld
  have hfresh : r.Fresh → Record.Fresh { r with cancelled := true } := fun hfresh =>
    ⟨hfresh.ran, hfresh.delivered, hfresh.idleSource, fun hother => by simp [hload] at hother⟩
  have hsettled : Record.Settled { r with cancelled := true } :=
    ⟨hdelivered, fun _ => rfl, fun hother => by simp [hload] at hother⟩
  cases st with
  | queued => exact ⟨.queued, rfl, hfresh hst⟩
  | loading => exact ⟨.loading, rfl, hfresh hst.1, hload⟩
  | working => simp [hst.2] at hload
  | leaving => exact absurd rfl (hphase false)
  | announced finishing =>
    cases finishing
    · refine ⟨.settled, ?_, hsettled⟩
      rw [hst.2.2]
      rfl
    · exact absurd rfl (hphase true)
  | calling finishing => simp [hst.2] at hdelivered
  | delivered finishing => simp [hst.2] at hdelivered
  | settled => exact ⟨.settled, rfl, hsettled⟩

end Stages

/-! ## 5. The slots of the tasks -/

/-- The slots that are not free: that of the thread and those of the queue. -/
def State.used (s : State α β) : List Nat := s.thread.toList.map (·.1) ++ s.queue

/-- Every slot in use holds the task of a call, and a call has no other slot.  A slot that is free
still holds what some call asked for. -/
structure Tasked (slots : Slots (Task α)) (records : List (Record α β)) (used : List Nat) :
    Prop where
  divides : slots.Divides used
  owned : ∀ slot ∈ used, ∃ (id : Nat) (r : Record α β), records[id]? = some r ∧ r.task = slot ∧
    slots.memory[slot]? = some (r.taskOf id)
  jobs : ∀ (slot : Nat) (task : Task α), slots.memory[slot]? = some task →
    ∃ r : Record α β, records[task.owner]? = some r ∧ task.job = r.job
  placed : ∀ r ∈ records, r.task < slots.memory.length

/-- Nothing that concerns the task is changed. -/
def Keeps (f : Record α β → Record α β) : Prop :=
  ∀ r, (f r).job = r.job ∧ (f r).task = r.task ∧ (f r).cancelled = r.cancelled

namespace Tasked

variable {slots : Slots (Task α)} {records : List (Record α β)} {used : List Nat} {slot id : Nat}
  {r : Record α β} {f : Record α β → Record α β}

theorem taskOf_of_keeps (hf : Keeps f) (r : Record α β) (id : Nat) :
    (f r).taskOf id = r.taskOf id := by
  obtain ⟨hjob, -, hcancelled⟩ := hf r
  rw [Record.taskOf, Record.taskOf, hjob, hcancelled]

theorem modify (h : Tasked slots records used) (hf : Keeps f) (id : Nat) :
    Tasked slots (records.modify id f) used where
  divides := h.divides
  owned := by
    intro slot hslot
    obtain ⟨j, r, hr, htask, hmemory⟩ := h.owned slot hslot
    by_cases hj : j = id
    · subst hj
      refine ⟨j, f r, ?_, ?_, ?_⟩
      · rw [List.getElem?_modify_eq, hr]
        rfl
      · rw [(hf r).2.1, htask]
      · rw [taskOf_of_keeps hf, hmemory]
    · refine ⟨j, r, ?_, htask, hmemory⟩
      rw [List.getElem?_modify_ne _ _ fun heq => hj heq.symm, hr]
  jobs := by
    intro slot task hmemory
    obtain ⟨r, hr, hjob⟩ := h.jobs slot task hmemory
    rw [List.getElem?_modify, hr]
    refine ⟨_, rfl, ?_⟩
    split
    · rw [hjob, (hf r).1]
    · exact hjob
  placed := by
    intro r hr
    obtain ⟨j, hj⟩ := List.mem_iff_getElem?.mp hr
    rw [List.getElem?_modify] at hj
    obtain ⟨r', hr', rfl⟩ := Option.map_eq_some_iff.mp hj
    have hplaced := h.placed r' (List.mem_of_getElem? hr')
    split
    · rw [(hf r').2.1]
      exact hplaced
    · exact hplaced

/-- A new task takes a slot that is not in use. -/
theorem alloc (h : Tasked slots records used) (htask : r.task = slots.next) :
    Tasked (slots.alloc (r.taskOf records.length)) (records ++ [r]) (slots.next :: used) where
  divides := h.divides.alloc _
  owned := by
    rintro slot (_ | ⟨_, hslot⟩)
    · refine ⟨records.length, r, List.getElem?_concat_length, htask, ?_⟩
      exact h.divides.alloc_next _
    · obtain ⟨j, r', hr', htask', hmemory⟩ := h.owned slot hslot
      refine ⟨j, r', ?_, htask', ?_⟩
      · rw [List.getElem?_append_left (List.getElem?_eq_some_iff.mp hr').1, hr']
      · rw [h.divides.alloc_used hslot, hmemory]
  jobs := by
    intro slot task hmemory
    rcases Slots.mem_alloc hmemory with rfl | hmemory
    · exact ⟨r, List.getElem?_concat_length, rfl⟩
    · obtain ⟨r', hr', hjob⟩ := h.jobs slot task hmemory
      exact ⟨r', by rw [List.getElem?_append_left (List.getElem?_eq_some_iff.mp hr').1, hr'], hjob⟩
  placed := by
    intro r' hr'
    rcases List.mem_append.mp hr' with hr' | hr'
    · exact lt_of_lt_of_le (h.placed r' hr') (Slots.length_alloc _ _)
    · obtain rfl := List.mem_singleton.mp hr'
      rw [htask]
      exact (List.getElem?_eq_some_iff.mp (h.divides.alloc_next _)).1

theorem perm {used' : List Nat} (h : Tasked slots records used) (hperm : used'.Perm used) :
    Tasked slots records used' where
  divides := h.divides.perm hperm
  owned := fun slot hslot => h.owned slot (hperm.mem_iff.mp hslot)
  jobs := h.jobs
  placed := h.placed

theorem release (h : Tasked slots records (slot :: used)) :
    Tasked (slots.release slot) records used where
  divides := h.divides.release
  owned := fun u hu => h.owned u (List.mem_cons_of_mem slot hu)
  jobs := h.jobs
  placed := h.placed

/-- A load is cancelled: the cookie of what is in its slot is reset, which is its own task or one
that has no cookie, unless the slot is free. -/
theorem cancel (h : Tasked slots records used) (hr : records[id]? = some r)
    (hsafe : ∀ task, slots.memory[r.task]? = some task →
      task.owner = id ∨ r.task ∈ slots.free ∨ task.cookie = none) :
    Tasked (slots.modify r.task fun task => { task with cookie := none })
      (records.modify id fun r => { r with cancelled := true }) used where
  divides := h.divides.modify _
  owned := by
    intro slot hslot
    obtain ⟨j, r', hr', htask, hmemory⟩ := h.owned slot hslot
    by_cases hj : j = id
    · subst hj
      obtain rfl := Option.some.inj (hr.symm.trans hr')
      subst htask
      refine ⟨j, { r with cancelled := true }, ?_, rfl, ?_⟩
      · rw [List.getElem?_modify_eq, hr]
        rfl
      · show (slots.memory.modify _ _)[_]? = _
        rw [List.getElem?_modify_eq, hmemory]
        simp [Record.taskOf]
    · refine ⟨j, r', ?_, htask, ?_⟩
      · rw [List.getElem?_modify_ne _ _ fun heq => hj heq.symm, hr']
      · show (slots.memory.modify _ _)[_]? = _
        by_cases hown : r.task = slot
        · -- the slot has been handed out again, for a load that is cancelled already
          rw [hown] at hsafe
          rw [hown, List.getElem?_modify_eq, hmemory]
          rcases hsafe _ hmemory with howner | hfree | hcookie
          · exact absurd howner hj
          · exact absurd hfree (h.divides.not_free hslot)
          · refine congrArg some (?_ : { r'.taskOf j with cookie := none } = r'.taskOf j)
            rw [← hcookie]
        · rw [List.getElem?_modify_ne _ _ hown, hmemory]
  jobs := by
    intro slot task hmemory
    obtain ⟨task', hmemory', rfl⟩ : ∃ task', slots.memory[slot]? = some task' ∧
        (if r.task = slot then { task' with cookie := none } else task') = task := by
      rw [Slots.modify, List.getElem?_modify] at hmemory
      exact Option.map_eq_some_iff.mp hmemory
    obtain ⟨r', hr', hjob⟩ := h.jobs slot task' hmemory'
    have howner : (if r.task = slot then { task' with cookie := none } else task').owner =
        task'.owner := by split <;> rfl
    rw [howner, List.getElem?_modify, hr']
    refine ⟨_, rfl, ?_⟩
    split <;> split <;> exact hjob
  placed := by
    intro r' hr'
    obtain ⟨j, hj⟩ := List.mem_iff_getElem?.mp hr'
    rw [List.getElem?_modify] at hj
    obtain ⟨r'', hr'', rfl⟩ := Option.map_eq_some_iff.mp hj
    have hplaced := h.placed r'' (List.mem_of_getElem? hr'')
    show _ < (slots.memory.modify _ _).length
    rw [List.length_modify]
    split <;> exact hplaced

end Tasked

/-! ## 6. All calls -/

structure Inv (s : State α β) : Prop where
  running : s.aborted = false
  tasked : Tasked s.slots s.records s.used
  sources : s.sources.Nodup
  records : Fits Alive View.none s.view s.records

section Step

variable {s s' : State α β} {id slot : Nat} {r : Record α β}

theorem view_eq {v : View} (hqueue : some id ∈ s.queue.map s.owner ↔ v.queued = true)
    (hphase : (s.thread.filter fun p => s.owner p.1 = some id).map (·.2) = v.phase)
    (hsource : id ∈ s.sources ↔ v.source = true) (hcalling : s.calling = some id ↔ v.calling = true) :
    s.view id = v := by
  obtain ⟨queued, phase, source, calling⟩ := v
  simp only at hqueue hphase hsource hcalling
  unfold State.view
  rw [hphase]
  simp only [hqueue, hsource, hcalling, Bool.decide_eq_true]

theorem view_congr (hqueue : some id ∈ s'.queue.map s'.owner ↔ some id ∈ s.queue.map s.owner)
    (hphase : (s'.thread.filter fun p => s'.owner p.1 = some id).map (·.2) = (s.view id).phase)
    (hsource : id ∈ s'.sources ↔ id ∈ s.sources)
    (hcalling : s'.calling = some id ↔ s.calling = some id) : s'.view id = s.view id :=
  view_eq (hqueue.trans (by simp [State.view])) hphase (hsource.trans (by simp [State.view]))
    (hcalling.trans (by simp [State.view]))

theorem phase_self {p : Phase} (hthread : s.thread = some (slot, p)) (howner : s.owner slot = some id) :
    (s.thread.filter fun p => s.owner p.1 = some id).map (·.2) = some p := by
  simp [hthread, howner]

theorem phase_other {p : Phase} {j : Nat} (hthread : s.thread = some (slot, p))
    (howner : s.owner slot = some id) (hj : j ≠ id) :
    (s.thread.filter fun p => s.owner p.1 = some j).map (·.2) = none := by
  simp [hthread, howner, hj.symm]

theorem owner_of_memory (hmemory : s.slots.memory[slot]? = some (r.taskOf id)) :
    s.owner slot = some id := by
  rw [State.owner, hmemory]
  rfl

theorem mem_used_of_thread {p : Phase} (hthread : s.thread = some (slot, p)) : slot ∈ s.used := by
  simp [State.used, hthread]

theorem mem_used_of_queue (hslot : slot ∈ s.queue) : slot ∈ s.used :=
  List.mem_append_right _ hslot

-- The call that a slot in use belongs to.
theorem Inv.at_used (h : Inv s) (hslot : slot ∈ s.used) :
    ∃ (id : Nat) (r : Record α β), s.records[id]? = some r ∧ r.task = slot ∧
      s.slots.memory[slot]? = some (r.taskOf id) ∧ s.owner slot = some id ∧
      Alive (s.view id) r := by
  obtain ⟨id, r, hr, htask, hmemory⟩ := h.tasked.owned slot hslot
  exact ⟨id, r, hr, htask, hmemory, owner_of_memory hmemory, h.records.get hr⟩

theorem owner_submit (h : Inv s) (job : Job α) (hslot : slot ∈ s.used) :
    (submit s job).owner slot = s.owner slot := by
  unfold State.owner
  exact congrArg _ (h.tasked.divides.alloc_used hslot _)

theorem queue_submit (h : Inv s) (job : Job α) :
    (submit s job).queue.map (submit s job).owner =
      s.queue.map s.owner ++ [some s.records.length] := by
  have hnew : (submit s job).owner s.slots.next = some s.records.length := by
    unfold State.owner
    exact congrArg _ (h.tasked.divides.alloc_next _)
  have hold : s.queue.map (submit s job).owner = s.queue.map s.owner :=
    List.map_congr_left fun slot hslot => owner_submit h job (mem_used_of_queue hslot)
  show (s.queue ++ [s.slots.next]).map _ = _
  rw [List.map_append, hold, List.map_singleton, hnew]

theorem phase_submit (h : Inv s) (job : Job α) (id : Nat) :
    ((submit s job).thread.filter fun p => (submit s job).owner p.1 = some id).map (·.2) =
      (s.view id).phase := by
  cases hthread : s.thread with
  | none =>
    have hthread' : (submit s job).thread = none := hthread
    simp [State.view, hthread, hthread']
  | some q =>
    have hthread' : (submit s job).thread = some q := hthread
    have hused : q.1 ∈ s.used := mem_used_of_thread hthread
    have howner := owner_submit h job hused
    simp [State.view, hthread, hthread', Option.filter, howner]

theorem Inv.submit (h : Inv s) (job : Job α) : Inv (submit s job) where
  running := h.running
  tasked := by
    have halloc := h.tasked.alloc (r := {
      job, task := s.slots.next, idleSource := false, blob := none, cancelled := false, ran := []
      delivered := [] }) rfl
    simp only [Record.taskOf, Bool.not_false, Bool.and_true] at halloc
    refine halloc.perm ?_
    show (s.thread.toList.map (·.1) ++ (s.queue ++ [s.slots.next])).Perm _
    rw [← List.append_assoc]
    exact List.perm_append_singleton _ _
  sources := h.sources
  records := by
    refine h.records.concat ?_ ?_
    · intro j hj
      refine view_congr ?_ (phase_submit h job j) Iff.rfl Iff.rfl
      rw [queue_submit h job]
      simp [hj]
    · have hunused := h.records.unused_length
      refine ⟨.queued, view_eq ?_ ?_ ?_ ?_, rfl, rfl, rfl, fun _ => rfl⟩
      · rw [queue_submit h job]
        simp [Stage.view]
      · rw [phase_submit h job, hunused]
        rfl
      · show s.records.length ∈ s.sources ↔ _
        have hsource := congrArg View.source hunused
        simp only [State.view, View.none, decide_eq_false_iff_not] at hsource
        simp [hsource, Stage.view]
      · show s.calling = some s.records.length ↔ _
        have hcalling := congrArg View.calling hunused
        simp only [State.view, View.none, decide_eq_false_iff_not] at hcalling
        simp [hcalling, Stage.view]

/-- The thread takes a task and begins with it, or leaves it if it is a cancelled load. -/
theorem Inv.take {rest : List Nat} (h : Inv s) (hthread : s.thread = none)
    (hqueue : s.queue = slot :: rest) {task : Task α} (htask : s.slots.memory[slot]? = some task) :
    Inv (take s slot rest task) := by
  have hused : slot ∈ s.used := mem_used_of_queue (by rw [hqueue]; exact List.mem_cons_self)
  obtain ⟨id, r, hr, hplace, hmemory, howner, halive⟩ := h.at_used hused
  obtain rfl := Option.some.inj (htask.symm.trans hmemory)
  have hqueued : (s.view id).queued = true := by simp [State.view, hqueue, howner]
  obtain ⟨hview, hfresh⟩ := halive.queued hqueued
  have husedEq : s.used = slot :: rest := by simp [State.used, hthread, hqueue]
  refine ⟨h.running, ?_, h.sources, ?_⟩
  · show Tasked s.slots s.records (slot :: rest)
    rw [← husedEq]
    exact h.tasked
  · -- the call is at no other slot of the queue
    have hrest : some id ∉ rest.map s.owner := by
      intro hin
      obtain ⟨u, hu, hownerU⟩ := List.mem_map.mp hin
      have husedU : u ∈ s.used := by
        rw [husedEq]
        exact List.mem_cons_of_mem _ hu
      obtain ⟨id', r', hr', hplace', -, hownerU', -⟩ := h.at_used husedU
      obtain rfl := Option.some.inj (hownerU.symm.trans hownerU')
      obtain rfl := Option.some.inj (hr.symm.trans hr')
      have hnodup := (List.nodup_append.mp h.tasked.divides.nodup).1
      rw [husedEq, List.nodup_cons] at hnodup
      exact hnodup.1 (hplace ▸ hplace' ▸ hu)
    refine h.records.of_one id ?_ hr ?_
    · intro j hj
      refine ⟨view_congr ?_ ?_ Iff.rfl Iff.rfl, rfl⟩
      · show some j ∈ rest.map s.owner ↔ _
        rw [hqueue, List.map_cons, List.mem_cons, howner]
        simp [hj]
      · refine Eq.trans (phase_other rfl howner hj) ?_
        simp [State.view, hthread]
    · have hsource := congrArg View.source hview
      have hcalling := congrArg View.calling hview
      simp only [State.view, Stage.view, decide_eq_false_iff_not] at hsource hcalling
      have hview' : ∀ p : Phase, (Store.take s slot rest (r.taskOf id)).thread = some (slot, p) →
          (Store.take s slot rest (r.taskOf id)).view id =
            { queued := false, phase := some p, source := false, calling := false } := by
        intro p hp
        refine view_eq ?_ (phase_self hp howner) ?_ ?_
        · exact iff_of_false hrest Bool.false_ne_true
        · exact iff_of_false hsource Bool.false_ne_true
        · exact iff_of_false hcalling Bool.false_ne_true
      cases hload : r.job.type.isLoad with
      | false => exact ⟨.working, hview' .working (by simp [Store.take, Record.taskOf, hload]),
          hfresh, hload⟩
      | true =>
        cases hcancelled : r.cancelled with
        | false => exact ⟨.loading, hview' .loading
            (by simp [Store.take, Record.taskOf, hload, hcancelled]), hfresh, hload⟩
        | true => exact ⟨.leaving, hview' (.finishing false)
            (by simp [Store.take, Record.taskOf, hload, hcancelled]), hfresh.delivered,
            fun _ => hcancelled, fun hother => by simp [hload] at hother⟩

/-- A step of the thread at its task: the slots stay as they are, and only the call of the task is
concerned. -/
theorem Inv.at_thread {p q : Phase} (f : Record α β → Record α β) (h : Inv s)
    (hthread : s.thread = some (slot, p)) (howner : s.owner slot = some id)
    (hr : s.records[id]? = some r) (hf : Keeps f) {sources : List Nat} (hnodup : sources.Nodup)
    (hsources : ∀ j, j ≠ id → (j ∈ sources ↔ j ∈ s.sources))
    (halive : Alive { s.view id with phase := some q, source := id ∈ sources } (f r)) :
    Inv { s.setRecord id f with sources, thread := some (slot, q) } where
  running := h.running
  tasked := by
    have hused : ({ s.setRecord id f with sources, thread := some (slot, q) } : State α β).used =
        s.used := by
      simp [State.used, State.setRecord, hthread]
    rw [hused]
    exact h.tasked.modify hf id
  sources := hnodup
  records := by
    refine h.records.modify ?_ hr ?_
    · intro j hj
      refine view_congr Iff.rfl ?_ (hsources j hj) Iff.rfl
      exact Eq.trans (phase_other rfl howner hj) (phase_other hthread howner hj).symm
    · convert halive using 1
      refine view_eq ?_ (phase_self rfl howner) ?_ ?_
      · simp [State.view, State.setRecord, State.owner]
      · simp
      · simp [State.view, State.setRecord]

theorem Inv.load (h : Inv s) (hthread : s.thread = some (slot, .loading)) (found : Option β)
    {task : Task α} (htask : s.slots.memory[slot]? = some task) : Inv (load s slot found task) := by
  obtain ⟨id, r, hr, -, hmemory, howner, halive⟩ := h.at_used (mem_used_of_thread hthread)
  obtain rfl := Option.some.inj (htask.symm.trans hmemory)
  obtain ⟨hview, hfresh, hload⟩ := halive.loading (phase_self hthread howner)
  have hsource : id ∉ s.sources := by simpa [State.view, Stage.view] using congrArg View.source hview
  have hran : ∀ job, r.ran ++ [(job, found)] = [(job, found)] := fun job => by
    rw [hfresh.ran, List.nil_append]
  cases hcancelled : r.cancelled with
  | true =>
    have hcookie : (r.taskOf id).cookie = none := by simp [Record.taskOf, hcancelled]
    unfold Store.load
    rw [hcookie]
    refine h.at_thread (fun r' => { r' with ran := r'.ran ++ [(r.job, found)] }) hthread howner hr
      (fun _ => ⟨rfl, rfl, rfl⟩) h.sources (fun _ _ => Iff.rfl)
      ⟨.leaving, ?_, hfresh.delivered, fun _ => hcancelled, ?_⟩
    · rw [hview]
      simp [Stage.view, State.setRecord, hsource]
    · intro hother
      simp [hload] at hother
  | false =>
    have hcookie : (r.taskOf id).cookie = some id := by simp [Record.taskOf, hcancelled, hload]
    unfold Store.load
    rw [hcookie]
    have hinv := h.at_thread
      ((fun r' : Record α β => { r' with blob := found }) ∘
        fun r' => { r' with ran := r'.ran ++ [(r.job, found)] })
      hthread howner hr (fun _ => ⟨rfl, rfl, rfl⟩) (List.nodup_cons.mpr ⟨hsource, h.sources⟩)
      (q := .finishing true) (fun j hj => by simp [hj])
      ⟨.announced true, by rw [hview]; simp [Stage.view],
        ⟨hload, hcancelled, hran _⟩, hfresh.delivered, hfresh.idleSource⟩
    rw [State.setRecord, ← List.modify_modify_eq] at hinv
    exact hinv

theorem Inv.work (h : Inv s) (hthread : s.thread = some (slot, .working)) {task : Task α}
    (htask : s.slots.memory[slot]? = some task) : Inv (work s slot task) := by
  obtain ⟨id, r, hr, -, hmemory, howner, halive⟩ := h.at_used (mem_used_of_thread hthread)
  obtain rfl := Option.some.inj (htask.symm.trans hmemory)
  obtain ⟨hview, hfresh, hother⟩ := halive.working (phase_self hthread howner)
  have hsource : id ∉ s.sources := by simpa [State.view, Stage.view] using congrArg View.source hview
  refine h.at_thread (fun r' => { r' with ran := r'.ran ++ [(r.job, none)] }) hthread howner hr
    (fun _ => ⟨rfl, rfl, rfl⟩) h.sources (fun _ _ => Iff.rfl)
    ⟨.leaving, ?_, hfresh.delivered, ?_, fun _ => ⟨hfresh.other hother, ?_⟩⟩
  · rw [hview]
    simp [Stage.view, State.setRecord, hsource]
  · intro hload
    simp [hother] at hload
  · show r.ran ++ [(r.job, none)] = _
    rw [hfresh.ran, List.nil_append]

-- The thread frees its task.
theorem Inv.free {p : Phase} (f : Record α β → Record α β) (h : Inv s)
    (hthread : s.thread = some (slot, p)) (howner : s.owner slot = some id)
    (hr : s.records[id]? = some r) (hf : Keeps f)
    (halive : Alive { s.view id with phase := none } (f r)) :
    Inv { s.setRecord id f with slots := s.slots.release slot, thread := none } where
  running := h.running
  tasked := by
    have hused : s.used = slot :: s.queue := by simp [State.used, hthread]
    have htasked := h.tasked.modify hf id
    rw [hused] at htasked
    exact htasked.release
  sources := h.sources
  records := by
    refine h.records.modify ?_ hr ?_
    · intro j hj
      exact view_congr Iff.rfl (phase_other hthread howner hj).symm Iff.rfl Iff.rfl
    · exact halive

theorem Inv.finish {announced : Bool} (h : Inv s)
    (hthread : s.thread = some (slot, .finishing announced)) {task : Task α}
    (htask : s.slots.memory[slot]? = some task) : Inv (finish s slot announced task) := by
  obtain ⟨id, r, hr, -, hmemory, howner, halive⟩ := h.at_used (mem_used_of_thread hthread)
  obtain rfl := Option.some.inj (htask.symm.trans hmemory)
  have hphase := phase_self hthread howner
  cases announced with
  | false =>
    obtain ⟨hview, hsettled⟩ := halive.leaving hphase
    have hinv := h.free (fun r => r) hthread howner hr (fun _ => ⟨rfl, rfl, rfl⟩)
      ⟨.settled, by rw [hview]; rfl, hsettled⟩
    have hsame : s.records.modify id (fun r => r) = s.records := List.modify_id _ _
    rw [State.setRecord, hsame] at hinv
    exact hinv
  | true =>
    obtain ⟨hread, hafter⟩ := halive.finish hphase
    have hcookie : (r.taskOf id).cookie = some id := by
      simp [Record.taskOf, hread.load, hread.cancelled]
    unfold Store.finish
    rw [hcookie]
    exact h.free _ hthread howner hr (fun _ => ⟨rfl, rfl, rfl⟩) hafter

theorem Inv.idleCb (h : Inv s) (hin : id ∈ s.sources) (hidle : s.calling = none) :
    Inv (idleCb s id) := by
  have hsource : (s.view id).source = true := by simp [State.view, hin]
  obtain ⟨r, hr⟩ := h.records.exists id fun hnone => by simp [hnone, View.none] at hsource
  refine ⟨h.running, ?_, h.sources, ?_⟩
  · exact h.tasked.modify (f := fun r => { r with delivered := r.delivered ++ [r.blob] })
      (fun _ => ⟨rfl, rfl, rfl⟩) id
  refine h.records.modify ?_ hr ?_
  · intro j hj
    refine view_congr Iff.rfl rfl Iff.rfl ?_
    show some id = some j ↔ _
    simp [hidle, hj.symm]
  · have halive := (h.records.get hr).idleCb hsource (by simp [State.view, hidle])
    convert halive using 1
    refine view_eq ?_ rfl ?_ ?_
    · simp only [State.view, decide_eq_true_eq]
      exact Iff.rfl
    · simp only [State.view, decide_eq_true_eq]
      exact Iff.rfl
    · exact iff_of_true rfl rfl

theorem Inv.idleReturn (h : Inv s) (hcalling : s.calling = some id) : Inv (idleReturn s id) := by
  have hcalled : (s.view id).calling = true := by simp [State.view, hcalling]
  obtain ⟨r, hr⟩ := h.records.exists id fun hnone => by simp [hnone, View.none] at hcalled
  refine ⟨h.running, h.tasked, h.sources.erase id, ?_⟩
  refine h.records.of_one id ?_ hr ?_
  · intro j hj
    refine ⟨view_congr Iff.rfl rfl ?_ ?_, rfl⟩
    · exact List.mem_erase_of_ne hj
    · show none = some j ↔ _
      simp [hcalling, hj.symm]
  · have halive := (h.records.get hr).idleReturn hcalled
    convert halive using 1
    refine view_eq ?_ rfl ?_ ?_
    · simp only [State.view, decide_eq_true_eq]
      exact Iff.rfl
    · exact iff_of_false (h.sources.not_mem_erase) Bool.false_ne_true
    · exact iff_of_false (nofun) Bool.false_ne_true

theorem unlocked_phase (h : s.unlocked = true) (id : Nat) (announced : Bool) :
    (s.view id).phase ≠ some (.finishing announced) := by
  intro hphase
  unfold State.unlocked at h
  cases hthread : s.thread with
  | none => simp [State.view, hthread] at hphase
  | some q =>
    obtain ⟨slot, p⟩ := q
    rw [hthread] at h
    simp only [State.view, hthread, Option.map_eq_some_iff, Option.filter_eq_some_iff] at hphase
    obtain ⟨q, ⟨hq, -⟩, hp⟩ := hphase
    cases hq
    cases hp
    cases h

theorem owner_of_modify {task : Nat}
    (hslots : s'.slots = s.slots.modify task fun task => { task with cookie := none }) :
    s'.owner = s.owner := by
  funext slot
  rw [State.owner, hslots, Slots.modify, List.getElem?_modify, State.owner]
  cases s.slots.memory[slot]? with
  | none => rfl
  | some task => split <;> rfl

/-- A load is cancelled while it has its slot, or when nothing is in the slot that could be hurt. -/
theorem Inv.cancelTask (h : Inv s) {task : Task α} (hr : s.records[id]? = some r)
    (hheld : r.held = true) (hunlocked : s.unlocked = true)
    (htask : s.slots.memory[r.task]? = some task)
    (hok : (Event.cancel id : Event α β).Harmless s) : Inv (cancelTask s id r task) := by
  have halive := (h.records.get hr).cancelTask hheld (unlocked_phase hunlocked id)
  have hsafe := hok r task hr htask
  have hload : task.job.type.isLoad = true := by
    rcases hsafe with howner | hsafe
    · obtain ⟨r', hr', hjob⟩ := h.tasked.jobs _ task htask
      rw [howner] at hr'
      obtain rfl := Option.some.inj (hr.symm.trans hr')
      simp only [Record.held, Bool.and_eq_true] at hheld
      rw [hjob]
      exact hheld.1.1
    · exact hsafe.1
  unfold Store.cancelTask
  rw [if_pos hload]
  refine ⟨h.running, ?_, ?_, ?_⟩
  · refine h.tasked.cancel hr fun task' htask' => ?_
    obtain rfl := Option.some.inj (htask.symm.trans htask')
    rcases hsafe with howner | hsafe
    · exact Or.inl howner
    · exact Or.inr hsafe.2
  · exact nodup_erase_if h.sources id
  · refine h.records.modify ?_ hr ?_
    · intro j hj
      refine view_congr ?_ ?_ ?_ Iff.rfl
      · rw [owner_of_modify rfl]
        exact Iff.rfl
      · rw [owner_of_modify rfl]
        rfl
      · show j ∈ (if r.idleSource then s.sources.erase id else s.sources) ↔ _
        split
        · exact List.mem_erase_of_ne hj
        · exact Iff.rfl
    · convert halive using 1
      refine view_eq ?_ ?_ ?_ ?_
      · rw [owner_of_modify rfl]
        simp only [State.view, decide_eq_true_eq]
        exact Iff.rfl
      · rw [owner_of_modify rfl]
        rfl
      · show id ∈ (if r.idleSource then s.sources.erase id else s.sources) ↔ _
        cases hidle : r.idleSource with
        | true => simp [h.sources.not_mem_erase]
        | false => simp [State.view]
      · simp only [State.view, decide_eq_true_eq]
        exact Iff.rfl

theorem Inv.step {e : Event α β} (h : Inv s) (hok : e.Harmless s) (hs : step s e = some s') :
    Inv s' := by
  unfold Store.step at hs
  rw [h.running, if_neg Bool.false_ne_true] at hs
  cases e with
  | submit job =>
    simp only [act] at hs
    split_ifs at hs
    cases hs
    exact h.submit job
  | cancel id =>
    simp only [act] at hs
    split at hs
    · next r hr =>
      split_ifs at hs with hcan
      rw [Bool.and_eq_true] at hcan
      obtain ⟨task, htask, rfl⟩ := Option.map_eq_some_iff.mp hs
      exact h.cancelTask hr hcan.1 hcan.2 htask hok
    · cases hs
  | thread found =>
    simp only [act, threadStep] at hs
    split at hs
    · next hthread =>
      split at hs
      · cases hs
      · next slot rest hqueue =>
        obtain ⟨task, htask, rfl⟩ := Option.map_eq_some_iff.mp hs
        exact h.take hthread hqueue htask
    · next slot hthread =>
      obtain ⟨task, htask, rfl⟩ := Option.map_eq_some_iff.mp hs
      exact h.load hthread found htask
    · next slot hthread =>
      obtain ⟨task, htask, rfl⟩ := Option.map_eq_some_iff.mp hs
      exact h.work hthread htask
    · next slot announced hthread =>
      obtain ⟨task, htask, rfl⟩ := Option.map_eq_some_iff.mp hs
      exact h.finish hthread htask
  | idle id =>
    simp only [act] at hs
    split_ifs at hs with hcan
    cases hs
    exact h.idleCb hcan.1 hcan.2
  | idleReturn =>
    obtain ⟨id, hcalling, rfl⟩ := Option.map_eq_some_iff.mp hs
    exact h.idleReturn hcalling

theorem inv_init : Inv (State.init : State α β) where
  running := rfl
  tasked := ⟨Slots.divides_empty, nofun, nofun, nofun⟩
  sources := List.nodup_nil
  records := Fits.nil fun id => by simp [State.view, State.init, View.none]

end Step

/-! ## 7. Every load is answered once, unless a freed task is cancelled -/

section Answers

variable {s s' : State α β} {id slot : Nat} {r : Record α β}

theorem queued_iff : (s.view id).queued = true ↔ ∃ slot ∈ s.queue, s.owner slot = some id := by
  simp [State.view]

theorem phase_iff (p : Phase) :
    (s.view id).phase = some p ↔ ∃ slot, s.thread = some (slot, p) ∧ s.owner slot = some id := by
  cases hthread : s.thread with
  | none => simp [State.view, hthread]
  | some q =>
    obtain ⟨u, p'⟩ := q
    by_cases howner : s.owner u = some id
    · simp [State.view, hthread, Option.filter, howner]
    · simp [State.view, hthread, Option.filter, howner]

theorem waiting_iff : s.Waiting id ↔
    (s.view id).queued = true ∨ (s.view id).phase = some .working := by
  rw [queued_iff, phase_iff]
  simp only [State.Waiting, State.owner, Option.map_eq_some_iff]
  constructor
  · rintro ⟨slot, task, hslot | hslot, hmemory, howner⟩
    · exact Or.inl ⟨slot, hslot, task, hmemory, howner⟩
    · exact Or.inr ⟨slot, hslot, task, hmemory, howner⟩
  · rintro (⟨slot, hslot, task, hmemory, howner⟩ | ⟨slot, hslot, task, hmemory, howner⟩)
    · exact ⟨slot, task, Or.inl hslot, hmemory, howner⟩
    · exact ⟨slot, task, Or.inr hslot, hmemory, howner⟩

/-- A slot in use whose task has the cookie of a load belongs to that load, and the other way round
if the load is not cancelled. -/
theorem Inv.cookie_iff (h : Inv s) (hr : s.records[id]? = some r) (hload : r.job.type.isLoad = true)
    (hcancelled : r.cancelled = false) (hslot : slot ∈ s.used) :
    (∃ task, s.slots.memory[slot]? = some task ∧ task.cookie = some id) ↔
      s.owner slot = some id := by
  obtain ⟨j, r', hr', -, hmemory, howner, -⟩ := h.at_used hslot
  rw [hmemory, howner]
  constructor
  · rintro ⟨task, htask, hcookie⟩
    cases htask
    unfold Record.taskOf at hcookie
    dsimp only at hcookie
    split at hcookie
    · exact hcookie
    · cases hcookie
  · intro heq
    cases heq
    obtain rfl := Option.some.inj (hr.symm.trans hr')
    exact ⟨_, rfl, by simp [Record.taskOf, hload, hcancelled]⟩

theorem Inv.pending_iff (h : Inv s) (hr : s.records[id]? = some r)
    (hload : r.job.type.isLoad = true) (hcancelled : r.cancelled = false) :
    s.Pending id ↔ (s.view id).queued = true ∨ (s.view id).phase = some .loading ∨
      ((s.view id).source = true ∧ (s.view id).calling = false) := by
  have hsource : (s.view id).source = true ∧ (s.view id).calling = false ↔
      id ∈ s.sources ∧ s.calling ≠ some id := by simp [State.view]
  rw [queued_iff, phase_iff, hsource, State.Pending, ← or_assoc]
  refine or_congr_left ?_
  have hiff := fun slot (hslot : slot ∈ s.used) => h.cookie_iff hr hload hcancelled hslot
  constructor
  · rintro ⟨slot, task, hslot | hslot, hmemory⟩
    · exact Or.inl ⟨slot, hslot, (hiff slot (mem_used_of_queue hslot)).mp ⟨task, hmemory⟩⟩
    · exact Or.inr ⟨slot, hslot, (hiff slot (mem_used_of_thread hslot)).mp ⟨task, hmemory⟩⟩
  · rintro (⟨slot, hslot, howner⟩ | ⟨slot, hslot, howner⟩)
    · obtain ⟨task, hmemory⟩ := (hiff slot (mem_used_of_queue hslot)).mpr howner
      exact ⟨slot, task, Or.inl hslot, hmemory⟩
    · obtain ⟨task, hmemory⟩ := (hiff slot (mem_used_of_thread hslot)).mpr howner
      exact ⟨slot, task, Or.inr hslot, hmemory⟩

theorem Inv.record_sound (h : Inv s) (hr : s.records[id]? = some r) : Record.Sound s id r := by
  obtain ⟨st, hview, hst⟩ := h.records.get hr
  constructor
  · intro blob hblob
    cases st with
    | queued => simp [hst.delivered] at hblob
    | loading => simp [hst.1.delivered] at hblob
    | working => simp [hst.1.delivered] at hblob
    | leaving => simp [hst.delivered] at hblob
    | announced finishing => simp [hst.2.1] at hblob
    | calling finishing =>
      rw [hst.2, List.mem_singleton] at hblob
      rw [hst.1.ran, hblob]
    | delivered finishing =>
      rw [hst.2, List.mem_singleton] at hblob
      rw [hst.1.ran, hblob]
    | settled => simp [hst.delivered] at hblob
  · intro hcancelled
    cases st with
    | queued => exact hst.delivered
    | loading => exact hst.1.delivered
    | working => exact hst.1.delivered
    | leaving => exact hst.delivered
    | announced finishing => exact hst.2.1
    | calling finishing => simp [hst.1.cancelled] at hcancelled
    | delivered finishing => simp [hst.1.cancelled] at hcancelled
    | settled => exact hst.delivered
  · intro hload hcancelled
    simp only [h.pending_iff hr hload hcancelled, hview]
    cases st with
    | queued => simp [Stage.view, hst.delivered]
    | loading => simp [Stage.view, hst.1.delivered]
    | working => simp [hst.2] at hload
    | leaving => simp [hst.load hload] at hcancelled
    | announced finishing => simp [Stage.view, hst.2.1]
    | calling finishing => cases finishing <;> simp [Stage.view, hst.2]
    | delivered finishing => cases finishing <;> simp [Stage.view, hst.2]
    | settled => simp [hst.load hload] at hcancelled
  · intro hother
    simp only [waiting_iff, hview]
    cases st with
    | queued => simp [Stage.view, hst.ran]
    | loading => simp [hst.2] at hother
    | working => simp [Stage.view, hst.1.ran]
    | leaving => simp [Stage.view, (hst.other hother).2]
    | announced finishing => simp [hst.1.load] at hother
    | calling finishing => simp [hst.1.load] at hother
    | delivered finishing => simp [hst.1.load] at hother
    | settled => simp [Stage.view, View.none, (hst.other hother).2]

/-- How much there is left to do. -/
def State.work (s : State α β) : Nat :=
  7 * s.queue.length +
    (match s.thread with
      | none => 0
      | some (_, .loading) => 6
      | some (_, .working) => 6
      | some (_, .finishing _) => 1) +
    3 * s.sources.length + (if s.calling = none then 1 else 0)

/-- Nothing is left for the thread and the main loop. -/
def State.Idle (s : State α β) : Prop := s.queue = [] ∧ s.thread = none ∧ s.sources = []

theorem work_load_lt (hthread : s.thread = some (slot, .loading)) (found : Option β)
    (task : Task α) : (load s slot found task).work < s.work := by
  unfold load
  cases task.cookie with
  | none =>
    simp only [State.work, State.setRecord, hthread]
    omega
  | some id =>
    simp only [State.work, State.setRecord, hthread, List.length_cons]
    omega

theorem work_finish_lt {announced : Bool} (hthread : s.thread = some (slot, .finishing announced))
    (task : Task α) : (finish s slot announced task).work < s.work := by
  unfold finish
  split <;> simp only [State.work, State.setRecord, hthread] <;> omega

/-- As long as something is left, the thread or the main loop can go on. -/
theorem Inv.exists_step (h : Inv s) (hbusy : ¬ s.Idle) :
    ∃ (e : Event α β) (s' : State α β), e.Internal ∧ act s e = some s' ∧ s'.work < s.work := by
  cases hthread : s.thread with
  | some q =>
    obtain ⟨slot, p⟩ := q
    obtain ⟨id, r, -, -, hmemory, -, -⟩ := h.at_used (mem_used_of_thread hthread)
    refine ⟨.thread none, ?_⟩
    cases p with
    | loading =>
      refine ⟨Store.load s slot none (r.taskOf id), trivial, ?_, work_load_lt hthread _ _⟩
      simp [act, threadStep, hthread, hmemory]
    | working =>
      refine ⟨Store.work s slot (r.taskOf id), trivial, ?_, ?_⟩
      · simp [act, threadStep, hthread, hmemory]
      · simp only [State.work, Store.work, State.setRecord, hthread]
        omega
    | finishing announced =>
      refine ⟨Store.finish s slot announced (r.taskOf id), trivial, ?_, work_finish_lt hthread _⟩
      simp [act, threadStep, hthread, hmemory]
  | none =>
    cases hqueue : s.queue with
    | cons slot rest =>
      have hslot : slot ∈ s.queue := by rw [hqueue]; exact List.mem_cons_self
      obtain ⟨id, r, -, -, hmemory, -, -⟩ := h.at_used (mem_used_of_queue hslot)
      refine ⟨.thread none, Store.take s slot rest (r.taskOf id), trivial, ?_, ?_⟩
      · simp [act, threadStep, hthread, hqueue, hmemory]
      · unfold Store.take State.work
        dsimp only
        rw [hthread, hqueue, List.length_cons]
        split_ifs <;> dsimp only <;> omega
    | nil =>
      -- what is left is in the main loop
      cases hcalling : s.calling with
      | some id =>
        have hcalled : (s.view id).calling = true := by simp [State.view, hcalling]
        obtain ⟨r, hr⟩ := h.records.exists id fun hnone => by simp [hnone, View.none] at hcalled
        have hin : id ∈ s.sources := by
          obtain ⟨st, hview, -⟩ := h.records.get hr
          rw [hview] at hcalled
          have hsource := congrArg View.source hview
          cases st with
          | calling finishing => simpa [State.view, Stage.view] using hsource
          | _ => cases hcalled
        refine ⟨.idleReturn, Store.idleReturn s id, trivial, by simp [act, hcalling], ?_⟩
        have hlength := List.length_erase_of_mem hin
        have hpos := List.length_pos_of_mem hin
        simp only [State.work, Store.idleReturn, hcalling, hlength, if_true, reduceCtorEq, if_false]
        omega
      | none =>
        obtain ⟨id, hin⟩ : ∃ id, id ∈ s.sources :=
          List.exists_mem_of_ne_nil _ fun hnil => hbusy ⟨hqueue, hthread, hnil⟩
        refine ⟨.idle id, Store.idleCb s id, trivial, by simp [act, hin, hcalling], ?_⟩
        simp [State.work, Store.idleCb, State.setRecord, hcalling]

/-- The thread and the main loop bring every load to its callback. -/
theorem Inv.drain (h : Inv s) : ∃ rest, (∀ e ∈ rest, Event.Internal e) ∧
    ∀ r ∈ (run Store.step s rest).records, r.job.type.isLoad = true → r.cancelled = false →
      r.delivered.length = 1 := by
  induction hwork : s.work using Nat.strong_induction_on generalizing s with
  | _ work ih =>
    by_cases hidle : s.Idle
    · obtain ⟨hqueue, hthread, hsources⟩ := hidle
      refine ⟨[], nofun, fun r hr hload hcancelled => ?_⟩
      obtain ⟨id, hid⟩ := List.mem_iff_getElem?.mp hr
      have hpending : ¬ s.Pending id := by
        rw [h.pending_iff hid hload hcancelled]
        simp [State.view, hqueue, hthread, hsources]
      rw [(h.record_sound hid).once hload hcancelled, if_neg hpending]
    · obtain ⟨e, s', hinternal, hs, hless⟩ := h.exists_step hidle
      have hs' : Store.step s e = some s' := by
        rw [Store.step, h.running, if_neg Bool.false_ne_true, hs]
      have hok : e.Harmless s := by
        cases e with
        | cancel id => cases hinternal
        | _ => trivial
      obtain ⟨rest, hrest, hdone⟩ := ih s'.work (by omega) (h.step hok hs') rfl
      refine ⟨e :: rest, ?_, ?_⟩
      · rintro e' (_ | ⟨_, hmem⟩)
        · exact hinternal
        · exact hrest e' hmem
      · rw [run_cons, next_of_some hs']
        exact hdone

theorem Inv.sound (h : Inv s) : Sound s where
  running := h.running
  records := fun _ _ hr => h.record_sound hr
  queued := by
    intro slot hslot
    have hused := mem_used_of_queue hslot
    obtain ⟨id, r, hr, -, hmemory⟩ := h.tasked.owned slot hused
    exact ⟨h.tasked.divides.not_free hused, id, r, hr, hmemory⟩
  served := h.drain

-- While the main thread has the mutex, a load that has its slot is still to be read.
theorem Inv.fresh_of_unlocked (h : Inv s) (hunlocked : s.unlocked = true) (hused : slot ∈ s.used)
    (hr : s.records[id]? = some r) (howner : s.owner slot = some id)
    (hload : r.job.type.isLoad = true) : r.Fresh ∧ id ∉ s.sources := by
  have halive := h.records.get hr
  have hsource : ∀ st : Stage, s.view id = st.view → st.view.source = false → id ∉ s.sources := by
    intro st hview hst
    have hsource := congrArg View.source hview
    rw [hst] at hsource
    simpa [State.view] using hsource
  rcases List.mem_append.mp hused with hslot | hslot
  · obtain ⟨⟨slot', p⟩, hthread, rfl⟩ := List.mem_map.mp hslot
    have hphase := phase_self (Option.mem_toList.mp hthread) howner
    cases p with
    | loading =>
      obtain ⟨hview, hfresh, -⟩ := halive.loading hphase
      exact ⟨hfresh, hsource _ hview rfl⟩
    | working =>
      obtain ⟨-, -, hother⟩ := halive.working hphase
      simp [hload] at hother
    | finishing announced => exact absurd hphase (unlocked_phase hunlocked id announced)
  · obtain ⟨hview, hfresh⟩ := halive.queued (queued_iff.mpr ⟨slot, hslot, howner⟩)
    exact ⟨hfresh, hsource _ hview rfl⟩

theorem Inv.slot_unique {u : Nat} (h : Inv s) (hslot : slot ∈ s.used) (hu : u ∈ s.used)
    (howner : s.owner slot = some id) (hownerU : s.owner u = some id) : slot = u := by
  obtain ⟨j, r, hr, hplace, -, hj, -⟩ := h.at_used hslot
  obtain ⟨j', r', hr', hplace', -, hj', -⟩ := h.at_used hu
  obtain rfl := Option.some.inj (howner.symm.trans hj)
  obtain rfl := Option.some.inj (hownerU.symm.trans hj')
  obtain rfl := Option.some.inj (hr.symm.trans hr')
  exact hplace.symm.trans hplace'

/-- When the slot has been handed out again, the cancellation hits another load or an assertion. -/
theorem Inv.breaks {e : Event α β} (h : Inv s) (hbad : ¬ e.Harmless s)
    (hs : Store.step s e = some s') : ¬ Sound s' := by
  unfold Store.step at hs
  rw [h.running, if_neg Bool.false_ne_true] at hs
  cases e with
  | cancel id =>
    simp only [Event.Harmless, not_forall, not_or, not_and] at hbad
    obtain ⟨r, task, hr, htask, howner, hbad⟩ := hbad
    simp only [act, hr] at hs
    split_ifs at hs with hcan
    rw [htask, Option.map_some, Option.some.injEq] at hs
    subst hs
    intro hsound
    unfold Store.cancelTask at hsound
    by_cases hload : task.job.type.isLoad = true
    · rw [if_pos hload] at hsound
      obtain ⟨hfree, hcookie⟩ := hbad hload
      -- the slot is in use by another load, which is not pending any more
      have hused : r.task ∈ s.used :=
        h.tasked.divides.used_of_not_free (List.getElem?_eq_some_iff.mp htask).1 hfree
      obtain ⟨j, r', hr', hplace, hmemory, hownerJ, halive⟩ := h.at_used hused
      obtain rfl := Option.some.inj (htask.symm.trans hmemory)
      have hj : j ≠ id := howner
      have hlost : r'.job.type.isLoad = true ∧ r'.cancelled = false := by
        by_contra hnot
        apply hcookie
        simp only [Record.taskOf, ite_eq_right_iff, reduceCtorEq, imp_false]
        simpa using hnot
      obtain ⟨hfresh, hsource⟩ := h.fresh_of_unlocked (Bool.and_eq_true_iff.mp hcan).2 hused hr'
        hownerJ hlost.1
      have hr'' : (s.records.modify id fun r => { r with cancelled := true })[j]? = some r' := by
        rw [List.getElem?_modify_ne _ _ hj.symm, hr']
      have honce := (hsound.records j r' hr'').once hlost.1 hlost.2
      rw [hfresh.delivered, if_neg] at honce
      · cases honce
      · rintro (⟨slot, task, hslot, hmemory', hcookie'⟩ | ⟨hin, -⟩)
        · have hslotUsed : slot ∈ s.used := by
            rcases hslot with hslot | hslot
            · exact mem_used_of_queue hslot
            · exact mem_used_of_thread hslot
          replace hmemory' : (s.slots.memory.modify r.task
              fun task => { task with cookie := none })[slot]? = some task := hmemory'
          by_cases hslotEq : r.task = slot
          · rw [hslotEq, List.getElem?_modify_eq, ← hslotEq, hmemory] at hmemory'
            cases hmemory'
            cases hcookie'
          · rw [List.getElem?_modify_ne _ _ hslotEq] at hmemory'
            have hownerSlot :=
              (h.cookie_iff hr' hlost.1 hlost.2 hslotUsed).mp ⟨task, hmemory', hcookie'⟩
            exact hslotEq (h.slot_unique hused hslotUsed hownerJ hownerSlot)
        · apply hsource
          replace hin : j ∈ (if r.idleSource then s.sources.erase id else s.sources) := hin
          split at hin
          · exact List.mem_of_mem_erase hin
          · exact hin
    · rw [if_neg hload] at hsound
      exact Bool.false_ne_true hsound.running.symm
  | _ => exact absurd trivial hbad

/-- All loads of a run are answered as they should be, and no cancellation touches another task,
exactly if no load is cancelled when its task is freed already and the slot was handed out since to
something else than a load, or to a load that still needs it. -/
theorem loads_sound_iff (events : List (Event α β)) :
    (∀ pre, pre <+: events → Sound (run step State.init pre)) ↔
      Along step (fun s e => e.Harmless s) State.init events :=
  always_iff_along (fun _ h => h.sound) (fun _ _ _ h hok hs => h.step hok hs)
    (fun _ _ _ h hbad hs => h.breaks hbad hs) inv_init events

/-- A load is read, another one gets the slot of its task, and then the first one is cancelled before
its callback. -/
def lateCancel : List (Event Nat Nat) :=
  [.submit ⟨.loadBlob, 1⟩, .thread none, .thread (some 10), .thread none, .submit ⟨.loadBlob, 2⟩,
    .cancel 0, .thread none, .thread none]

/-- The second load has no callback, though it is not cancelled and nothing is left to do. -/
theorem lateCancel_not_sound :
    (run step State.init lateCancel).Idle ∧
      (run step State.init lateCancel).records.map (fun r => (r.cancelled, r.delivered)) =
        [(true, []), (false, [])] ∧
      ¬ Sound (run step State.init lateCancel) := by
  have hidle : (run step State.init lateCancel).Idle := ⟨by decide, by decide, by decide⟩
  have hrecord : (run step State.init lateCancel).records[1]? = some {
      job := ⟨.loadBlob, 2⟩, task := 0, idleSource := false, blob := none, cancelled := false, ran := []
      delivered := [] } := by
    decide
  refine ⟨hidle, by decide, fun hsound => ?_⟩
  obtain ⟨hqueue, hthread, hsources⟩ := hidle
  have honce := (hsound.records 1 _ hrecord).once rfl rfl
  rw [if_neg] at honce
  · cases honce
  · simp [State.Pending, hqueue, hthread, hsources]

end Answers

end Notbit.Store
