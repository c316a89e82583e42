import Notbit.Blob
import Notbit.Lib.Runs
import Notbit.Proto.Frames

/-!
# Sending — the objects a connection is asked for (`ntb-connection.c`)

An object that is in memory is ready to be sent; the others are loaded from the store, one at a time
and only while nothing is ready.  Ready objects become commands in the output buffer when the socket
can be written.
-/

open Bytes Runs Notbit.Proto

namespace Notbit.Connection

/-! ## 1. The queues -/

/-- `struct ntb_connection_queue_entry` -/
structure QueueEntry where
  hash : Hash
  blob : Option Blob
  deriving DecidableEq, Repr

/-- A load that the store was asked for. -/
structure LoadTask where
  cookie : Nat
  hash : Hash
  deriving DecidableEq, Repr

/-- What was put into the output buffer: an object of one of the queues, or another command. -/
inductive Appended where
  | object (hash : Hash) (blob : Blob)
  | command (bytes : List UInt8)
  deriving DecidableEq, Repr

/-- The part of `struct ntb_connection` that is about sending, with the loads that have not come
back.  `pollOut` says whether the source has `NTB_MAIN_CONTEXT_POLL_OUT`, and `crashed` that an
assertion has failed or a null pointer was dereferenced.  What was appended to the output buffer and
what has left it is remembered. -/
structure Sender where
  outBuf : Buffer := []
  readyObjects : List QueueEntry := []
  objectsToLoad : List QueueEntry := []
  loadCookie : Option Nat := none
  pollOut : Bool := false
  tasks : List LoadTask := []
  nextCookie : Nat := 0
  crashed : Bool := false
  appended : List Appended := []
  sent : List UInt8 := []

namespace Sender

/-- `connection_is_ready_to_write` -/
def isReadyToWrite (conn : Sender) : Bool := conn.outBuf ≠ [] || conn.readyObjects ≠ []

/-- `update_poll_flags` -/
def updatePollFlags (conn : Sender) : Sender := { conn with pollOut := conn.isReadyToWrite }

/-- `maybe_queue_load` -/
def maybeQueueLoad (conn : Sender) : Sender :=
  if conn.loadCookie.isSome then conn
  else if conn.readyObjects ≠ [] then conn
  else
    match conn.objectsToLoad with
    | [] => conn
    | entry :: _ =>
      { conn with
        loadCookie := some conn.nextCookie
        tasks := conn.tasks ++ [{ cookie := conn.nextCookie, hash := entry.hash }]
        nextCookie := conn.nextCookie + 1 }

/-- `ntb_connection_send_blob` -/
def sendBlob (conn : Sender) (hash : Hash) (blob : Option Blob) : Sender :=
  if blob.isSome then
    updatePollFlags { conn with readyObjects := conn.readyObjects ++ [{ hash, blob }] }
  else maybeQueueLoad { conn with objectsToLoad := conn.objectsToLoad ++ [{ hash, blob }] }

/-- `load_cb` -/
def loadCb (conn : Sender) (blob : Option Blob) : Sender :=
  match conn.objectsToLoad with
  | [] => { conn with crashed := true }
  | entry :: objectsToLoad =>
    if entry.blob.isSome then { conn with crashed := true }
    else
      match blob with
      | none => { conn with crashed := true }
      | some blob =>
        updatePollFlags { conn with
          objectsToLoad
          readyObjects := conn.readyObjects ++ [{ entry with blob := some blob }]
          loadCookie := none }

@[simp] theorem readyObjects_maybeQueueLoad (conn : Sender) :
    conn.maybeQueueLoad.readyObjects = conn.readyObjects := by
  unfold maybeQueueLoad
  split_ifs
  · rfl
  · rfl
  · split <;> rfl

/-- `ntb_proto_get_command_name_for_type` -/
def commandNameForType : InvType → CString
  | .getpubkey => ⟨ascii "getpubkey", nonzero_of_all rfl⟩
  | .msg => ⟨ascii "msg", nonzero_of_all rfl⟩
  | .broadcast => ⟨ascii "broadcast", nonzero_of_all rfl⟩
  | .pubkey => ⟨ascii "pubkey", nonzero_of_all rfl⟩

variable (ssl : OpenSSL) (fill : Buffer → Memory)

/-- The body of the loop of `add_ready_objects` for the first entry. -/
def addObject (conn : Sender) (hash : Hash) (blob : Blob) : Sender :=
  maybeQueueLoad { conn with
    outBuf := endCommand ssl
      (beginCommand (fill conn.outBuf) conn.outBuf (commandNameForType blob.type) ++ blob.data)
      conn.outBuf.length
    readyObjects := conn.readyObjects.tail
    appended := conn.appended ++ [.object hash blob] }

/-- `add_ready_objects` -/
def addReadyObjects (conn : Sender) : Sender :=
  match _hready : conn.readyObjects with
  | [] => conn
  | entry :: _ =>
    if conn.outBuf.length < 1024 then
      match entry.blob with
      | none => { conn with crashed := true }
      | some blob => (conn.addObject ssl fill entry.hash blob).addReadyObjects
    else conn
termination_by conn.readyObjects.length
decreasing_by
  rw [addObject, readyObjects_maybeQueueLoad, _hready]
  exact Nat.lt_succ_self _

/-- What `handle_write` does after `add_ready_objects`: the socket takes some bytes, or it is not
ready. -/
def wrote (conn : Sender) : Option Nat → Sender
  | none => conn
  | some n =>
    updatePollFlags { conn with
      outBuf := conn.outBuf.drop n
      sent := conn.sent ++ conn.outBuf.take n }

end Sender

/-! ## 2. Everything that can happen -/

inductive SendEvent where
  /-- `ntb_connection_send_blob` -/
  | sendBlob (hash : Hash) (blob : Option Blob)
  /-- A load is complete, and its result goes to `load_cb`. -/
  | load (i : Nat) (blob : Option Blob)
  /-- `handle_write`; there is no number if the socket was not ready. -/
  | write (n : Option Nat)
  /-- One of the other commands is appended. -/
  | command (bytes : List UInt8)

def sendStep (ssl : OpenSSL) (fill : Buffer → Memory) (conn : Sender) (e : SendEvent) :
    Option Sender :=
  if conn.crashed then none
  else
    match e with
    | .sendBlob hash blob => some (conn.sendBlob hash blob)
    | .load i blob =>
      if i < conn.tasks.length then
        some (Sender.loadCb { conn with tasks := conn.tasks.eraseIdx i } blob)
      else none
    | .write n =>
      let conn' := conn.addReadyObjects ssl fill
      if conn.pollOut ∧ (∀ k ∈ n, k ≤ conn'.outBuf.length) then
        if conn'.crashed then some conn' else some (conn'.wrote n)
      else none
    | .command bytes =>
      some (Sender.updatePollFlags { conn with
        outBuf := conn.outBuf ++ bytes
        appended := conn.appended ++ [.command bytes] })

/-! ## 3. What holds between two events -/

namespace Sender

/-- What holds before `maybe_queue_load`: the load that is under way, if there is one, is that of the
first object to be loaded. -/
structure Loading (conn : Sender) : Prop where
  alive : conn.crashed = false
  ready : ∀ entry ∈ conn.readyObjects, entry.blob.isSome
  toLoad : ∀ entry ∈ conn.objectsToLoad, entry.blob = none
  task : (conn.loadCookie = none ∧ conn.tasks = []) ∨
    ∃ entry rest cookie, conn.objectsToLoad = entry :: rest ∧ conn.loadCookie = some cookie ∧
      conn.tasks = [{ cookie, hash := entry.hash }]
  polled : conn.isReadyToWrite = true → conn.pollOut = true

/-- What holds when nothing is going on: as long as there is an object to be loaded, a load is under
way or will be started when the ready objects are written. -/
structure Settled (conn : Sender) : Prop extends Loading conn where
  loading : conn.objectsToLoad ≠ [] → conn.tasks ≠ [] ∨ conn.readyObjects ≠ []

variable {ssl : OpenSSL} {fill : Buffer → Memory} {conn : Sender}

theorem Loading.maybeQueueLoad (h : conn.Loading) : conn.maybeQueueLoad.Settled := by
  rcases h.task with ⟨hcookie, htasks⟩ | ⟨entry, rest, cookie, hlist, hcookie, htasks⟩
  · unfold Sender.maybeQueueLoad
    rw [hcookie, if_neg nofun]
    split_ifs with hready
    · exact { h with loading := fun _ => .inr hready }
    · split
      next hlist => exact { h with loading := fun hne => absurd hlist hne }
      next entry rest hlist =>
        refine { h with task := ?_, loading := fun _ => .inl ?_ }
        · exact .inr ⟨entry, rest, conn.nextCookie, hlist, rfl, by rw [htasks]; rfl⟩
        · exact List.append_ne_nil_of_right_ne_nil _ nofun
  · unfold Sender.maybeQueueLoad
    rw [if_pos (by rw [hcookie]; rfl)]
    exact { h with loading := fun _ => .inl (by rw [htasks]; nofun) }

theorem Settled.sendBlob (h : conn.Settled) (hash : Hash) (blob : Option Blob) :
    (conn.sendBlob hash blob).Settled := by
  unfold Sender.sendBlob
  split
  next hblob =>
    have hne : conn.readyObjects ++ [(⟨hash, blob⟩ : QueueEntry)] ≠ [] :=
      List.append_ne_nil_of_right_ne_nil _ nofun
    refine { h with ready := ?_, polled := id, loading := fun _ => .inr hne }
    intro entry hentry
    rcases List.mem_append.mp hentry with hold | hnew
    · exact h.ready entry hold
    · rw [List.mem_singleton.mp hnew]
      exact hblob
  next hblob =>
    refine Loading.maybeQueueLoad { h with toLoad := ?_, task := ?_ }
    · intro entry hentry
      rcases List.mem_append.mp hentry with hold | hnew
      · exact h.toLoad entry hold
      · rw [List.mem_singleton.mp hnew]
        simpa using hblob
    · refine h.task.imp id ?_
      rintro ⟨entry, rest, cookie, hlist, hrest⟩
      refine ⟨entry, rest ++ [⟨hash, blob⟩], cookie, ?_, hrest⟩
      show conn.objectsToLoad ++ _ = _
      rw [hlist]
      rfl

-- The only load that can come back is that of the first object.
theorem Settled.task_of_lt (h : conn.Settled) {i : Nat} (hi : i < conn.tasks.length) :
    ∃ entry rest, conn.objectsToLoad = entry :: rest ∧ entry.blob = none ∧
      conn.tasks.map (·.hash) = [entry.hash] ∧ conn.tasks.eraseIdx i = [] := by
  rcases h.task with ⟨-, htasks⟩ | ⟨entry, rest, cookie, hlist, -, htasks⟩
  · rw [htasks] at hi
    cases hi
  · rw [htasks] at hi ⊢
    have hzero : i = 0 := Nat.lt_one_iff.mp hi
    refine ⟨entry, rest, hlist, h.toLoad entry (by rw [hlist]; exact List.mem_cons_self), rfl, ?_⟩
    rw [hzero]
    rfl

theorem loadCb_some {entry : QueueEntry} {rest : List QueueEntry}
    (hlist : conn.objectsToLoad = entry :: rest) (hentry : entry.blob = none) (blob : Blob) :
    conn.loadCb (some blob) = updatePollFlags { conn with
      objectsToLoad := rest
      readyObjects := conn.readyObjects ++ [{ entry with blob := some blob }]
      loadCookie := none } := by
  rw [loadCb, hlist]
  dsimp only
  rw [if_neg (by rw [hentry]; nofun)]

theorem loadCb_none_crashed {entry : QueueEntry} {rest : List QueueEntry}
    (hlist : conn.objectsToLoad = entry :: rest) : (conn.loadCb none).crashed = true := by
  rw [loadCb, hlist]
  dsimp only
  split <;> rfl

theorem Settled.loaded (h : conn.Settled) {i : Nat} (hi : i < conn.tasks.length) (blob : Blob) :
    (Sender.loadCb { conn with tasks := conn.tasks.eraseIdx i } (some blob)).Settled := by
  obtain ⟨entry, rest, hlist, hentry, -, hnone⟩ := h.task_of_lt hi
  have hload := @loadCb_some { conn with tasks := conn.tasks.eraseIdx i } _ _ hlist hentry blob
  rw [hload, hnone]
  have hne : conn.readyObjects ++ [{ entry with blob := some blob }] ≠ [] :=
    List.append_ne_nil_of_right_ne_nil _ nofun
  refine { h with
    ready := ?_
    toLoad := ?_
    task := .inl ⟨rfl, rfl⟩
    polled := id
    loading := fun _ => .inr hne }
  · intro e he
    rcases List.mem_append.mp he with hold | hnew
    · exact h.ready e hold
    · rw [List.mem_singleton.mp hnew]
      rfl
  · intro e he
    exact h.toLoad e (by rw [hlist]; exact List.mem_cons_of_mem _ he)

variable (ssl fill) in
theorem Settled.addObject (h : conn.Settled) {entry : QueueEntry} {rest : List QueueEntry}
    (hready : conn.readyObjects = entry :: rest) (hash : Hash) (blob : Blob) :
    (conn.addObject ssl fill hash blob).Settled := by
  have hpoll : conn.pollOut = true := h.polled (by simp [isReadyToWrite, hready])
  refine Loading.maybeQueueLoad { h with ready := ?_, polled := fun _ => hpoll }
  intro e he
  exact h.ready e (List.mem_of_mem_tail he)

variable (ssl fill) in
-- What every round of the loop keeps, the loop keeps.
theorem addReadyObjects_induction {P : Sender → Prop}
    (hready : ∀ conn, P conn → ∀ entry ∈ conn.readyObjects, entry.blob.isSome)
    (hround : ∀ (conn : Sender) (entry : QueueEntry) (rest : List QueueEntry) (blob : Blob), P conn →
      conn.readyObjects = entry :: rest → entry.blob = some blob →
        P (conn.addObject ssl fill entry.hash blob))
    (h : P conn) : P (conn.addReadyObjects ssl fill) := by
  induction hlength : conn.readyObjects.length generalizing conn with
  | zero =>
    rw [addReadyObjects.eq_def, List.length_eq_zero_iff.mp hlength]
    exact h
  | succ n ih =>
    obtain ⟨entry, rest, hlist⟩ := List.exists_cons_of_length_eq_add_one hlength
    obtain ⟨blob, hblob⟩ := Option.isSome_iff_exists.mp
      (hready conn h entry (by rw [hlist]; exact List.mem_cons_self))
    rw [addReadyObjects.eq_def, hlist]
    dsimp only
    split_ifs
    · rw [hblob]
      refine ih (hround conn entry rest blob h hlist hblob) ?_
      rw [Sender.addObject, readyObjects_maybeQueueLoad, hlist]
      rw [hlist] at hlength
      exact Nat.succ.inj hlength
    · exact h

variable (ssl fill) in
theorem Settled.addReadyObjects (h : conn.Settled) : (conn.addReadyObjects ssl fill).Settled :=
  addReadyObjects_induction ssl fill (fun _ h => h.ready)
    (fun _ entry _ blob h hready _ => h.addObject ssl fill hready entry.hash blob) h

theorem Settled.wrote (h : conn.Settled) (n : Option Nat) : (conn.wrote n).Settled := by
  cases n with
  | none => exact h
  | some n => exact { h with polled := id }

end Sender

variable {ssl : OpenSSL} {fill : Buffer → Memory} {conn conn' : Sender} {e : SendEvent}

/-- A load that has failed. -/
def SendEvent.Fails (e : SendEvent) : Prop := ∃ i, e = .load i none

theorem Sender.Settled.step (h : conn.Settled) (he : ¬ e.Fails)
    (hs : sendStep ssl fill conn e = some conn') : conn'.Settled := by
  rw [sendStep.eq_def, if_neg (by rw [h.alive]; nofun)] at hs
  cases e with
  | sendBlob hash blob =>
    cases hs
    exact h.sendBlob hash blob
  | load i blob =>
    dsimp only at hs
    split_ifs at hs with hi
    cases hs
    cases blob with
    | none => exact absurd ⟨i, rfl⟩ he
    | some blob => exact h.loaded hi blob
  | write n =>
    have hadded := h.addReadyObjects ssl fill
    simp only [hadded.alive, Bool.false_eq_true, if_false] at hs
    split_ifs at hs
    cases hs
    exact hadded.wrote n
  | command bytes =>
    cases hs
    exact { h with polled := id }

theorem Sender.settled_init : ({} : Sender).Settled where
  alive := rfl
  ready := nofun
  toLoad := nofun
  task := .inl ⟨rfl, rfl⟩
  polled := id
  loading hne := absurd rfl hne

/-! ## 4. Loads that fail -/

/-- Nothing is dereferenced that is not there, every ready object has its blob, and the objects that
are still to be loaded will be: a load is under way, or ready objects will be written first. -/
structure Sender.Sound (conn : Sender) : Prop where
  alive : conn.crashed = false
  ready : ∀ entry ∈ conn.readyObjects, entry.blob.isSome
  loading : conn.objectsToLoad ≠ [] →
    conn.tasks ≠ [] ∨ conn.readyObjects ≠ [] ∧ conn.pollOut = true

theorem Sender.Settled.sound (h : conn.Settled) : conn.Sound where
  alive := h.alive
  ready := h.ready
  loading hne := (h.loading hne).imp id fun hready =>
    ⟨hready, h.polled (by simp [Sender.isReadyToWrite, hready])⟩

theorem not_sound_of_fails (h : conn.Settled) (he : e.Fails)
    (hs : sendStep ssl fill conn e = some conn') : ¬ conn'.Sound := by
  obtain ⟨i, rfl⟩ := he
  rw [sendStep.eq_def, if_neg (by rw [h.alive]; nofun)] at hs
  dsimp only at hs
  split_ifs at hs with hi
  cases hs
  obtain ⟨entry, rest, hlist, -⟩ := h.task_of_lt hi
  intro hsound
  have hcrashed := @Sender.loadCb_none_crashed { conn with tasks := conn.tasks.eraseIdx i } _ _ hlist
  rw [hsound.alive] at hcrashed
  cases hcrashed

/-- A connection stays sound exactly if no load comes back with nothing. -/
theorem sends_sound_iff (ssl : OpenSSL) (fill : Buffer → Memory) (events : List SendEvent) :
    (∀ pre, pre <+: events → (run (sendStep ssl fill) {} pre).Sound) ↔
      Along (sendStep ssl fill) (fun _ e => ¬ e.Fails) {} events :=
  always_iff_along (I := Sender.Settled) (fun _ h => h.sound)
    (fun _ _ _ h he hs => h.step he hs)
    (fun _ _ _ h he hs => not_sound_of_fails h (not_not.mp he) hs) Sender.settled_init events

/-- A peer asks for an object whose file has been deleted in the meantime. -/
theorem deletedObject_not_sound :
    let events : List SendEvent := [.sendBlob ⟨List.replicate 32 0, by decide⟩ none, .load 0 none]
    (run (sendStep OpenSSL.additive fun _ _ => 0) {} events).crashed = true ∧
      ¬ ∀ pre, pre <+: events → (run (sendStep OpenSSL.additive fun _ _ => 0) {} pre).Sound := by
  refine ⟨rfl, fun hsound => ?_⟩
  cases (hsound _ List.prefix_rfl).alive

end Notbit.Connection
