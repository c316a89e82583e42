import Notbit.Connection.Sending

/-!
# Sent — every object that is asked for is sent once (`ntb-connection.c`)

What leaves the socket is compared with what was queued: the objects that were in memory when they
were queued, and those that were loaded, are appended one by one, each as one command.
-/

open Bytes Runs Notbit.Proto

namespace Notbit.Connection

/-! ## 1. Objects and bytes -/

/-- An object that was appended, with the hash it was asked for. -/
def Appended.asObject : Appended → Option (Hash × Blob)
  | .object hash blob => some (hash, blob)
  | .command _ => none

/-- What was appended as it leaves the socket. -/
def Appended.bytes (ssl : OpenSSL) : Appended → List UInt8
  | .object _ blob => frame ssl (Sender.commandNameForType blob.type).bytes blob.data
  | .command bytes => bytes

def QueueEntry.asObject (entry : QueueEntry) : Option (Hash × Blob) :=
  entry.blob.map (entry.hash, ·)

/-- The objects that were appended and those that will be next, in this order. -/
def Sender.objects (conn : Sender) : List (Hash × Blob) :=
  conn.appended.filterMap Appended.asObject ++ conn.readyObjects.filterMap QueueEntry.asObject

namespace SendEvent

/-- The object that is queued with its blob. -/
def inMemory : SendEvent → Option (Hash × Blob)
  | .sendBlob hash (some blob) => some (hash, blob)
  | _ => none

/-- The object that is queued to be loaded. -/
def onDisk : SendEvent → Option Hash
  | .sendBlob hash none => some hash
  | _ => none

/-- What a load has delivered. -/
def loaded : SendEvent → Option Blob
  | .load _ blob => blob
  | _ => none

/-- The size of the object fits into the header of a command. -/
def Fits : SendEvent → Prop
  | .sendBlob _ blob | .load _ blob => ∀ b ∈ blob, b.data.length < 2 ^ 32
  | .write _ | .command _ => True

end SendEvent

/-- The objects of the queues are those of the events so far, and the bytes are those of the
commands. -/
structure Sender.Accounts (ssl : OpenSSL) (conn : Sender) (past : List SendEvent) : Prop where
  bytes : conn.sent ++ conn.outBuf = conn.appended.flatMap (Appended.bytes ssl)
  fits : ∀ entry ∈ conn.readyObjects, ∀ blob ∈ entry.blob, blob.data.length < 2 ^ 32
  objects : ∃ loaded : List (Hash × Blob),
    past.filterMap SendEvent.onDisk = loaded.map Prod.fst ++ conn.objectsToLoad.map (·.hash) ∧
      past.filterMap SendEvent.loaded = loaded.map Prod.snd ∧
      (past.filterMap SendEvent.inMemory ++ loaded).Perm conn.objects

namespace Sender

variable {ssl : OpenSSL} {fill : Buffer → Memory} {conn conn' : Sender} {past : List SendEvent}
  {e : SendEvent}

-- Another object is ready.
theorem objects_of_ready {hash : Hash} {blob : Blob} (happended : conn'.appended = conn.appended)
    (hready : conn'.readyObjects = conn.readyObjects ++ [{ hash, blob := some blob }]) :
    conn'.objects = conn.objects ++ [(hash, blob)] := by
  rw [objects, objects, happended, hready, List.filterMap_append, List.append_assoc]
  rfl

theorem objects_of_same (happended : conn'.appended.filterMap Appended.asObject =
      conn.appended.filterMap Appended.asObject)
    (hready : conn'.readyObjects = conn.readyObjects) : conn'.objects = conn.objects := by
  rw [objects, objects, happended, hready]

-- Starting a load touches neither the objects nor the bytes.
theorem accounts_maybeQueueLoad (h : conn.Accounts ssl past) :
    conn.maybeQueueLoad.Accounts ssl past := by
  unfold maybeQueueLoad
  split_ifs
  · exact h
  · exact h
  · split <;> exact ⟨h.bytes, h.fits, h.objects⟩

theorem accounts_addObject (h : conn.Accounts ssl past) {entry : QueueEntry}
    {rest : List QueueEntry} {blob : Blob} (hready : conn.readyObjects = entry :: rest)
    (hblob : entry.blob = some blob) :
    (conn.addObject ssl fill entry.hash blob).Accounts ssl past := by
  have hname : (commandNameForType blob.type).bytes.length ≤ 12 := by
    cases blob.type <;> decide
  have hsize : blob.data.length < 2 ^ 32 :=
    h.fits entry (by rw [hready]; exact List.mem_cons_self) blob hblob
  apply accounts_maybeQueueLoad
  refine ⟨?_, fun e he => h.fits e (List.mem_of_mem_tail he), ?_⟩
  · dsimp only
    rw [endCommand_beginCommand hname hsize, ← List.append_assoc, h.bytes, List.flatMap_append]
    simp [Appended.bytes]
  · -- the object goes from the front of one list to the end of the other
    have hobjects : Sender.objects { conn with
        readyObjects := conn.readyObjects.tail
        appended := conn.appended ++ [.object entry.hash blob] } = conn.objects := by
      simp [objects, hready, Appended.asObject, QueueEntry.asObject, hblob]
    obtain ⟨loaded, hdisk, hloads, hperm⟩ := h.objects
    exact ⟨loaded, hdisk, hloads, hperm.trans (List.Perm.of_eq hobjects.symm)⟩

/-- The queues and what was sent fit together. -/
def Kept (ssl : OpenSSL) (conn : Sender) (past : List SendEvent) : Prop :=
  conn.Settled ∧ conn.Accounts ssl past

variable (fill) in
theorem kept_addReadyObjects (h : conn.Kept ssl past) :
    (conn.addReadyObjects ssl fill).Kept ssl past :=
  addReadyObjects_induction ssl fill (P := fun conn => conn.Kept ssl past) (fun _ h => h.1.ready)
    (fun _ entry _ blob h hready hblob =>
      ⟨h.1.addObject ssl fill hready entry.hash blob, accounts_addObject h.2 hready hblob⟩) h

theorem accounts_wrote (h : conn.Accounts ssl past) (n : Option Nat) :
    (conn.wrote n).Accounts ssl past := by
  cases n with
  | none => exact h
  | some n =>
    refine ⟨?_, h.fits, h.objects⟩
    show conn.sent ++ conn.outBuf.take n ++ conn.outBuf.drop n = _
    rw [List.append_assoc, List.take_append_drop]
    exact h.bytes

-- An event that queues no object and loads none.
theorem Accounts.pass (h : conn.Accounts ssl past) (hdisk : e.onDisk = none)
    (hloaded : e.loaded = none) (hmemory : e.inMemory = none) : conn.Accounts ssl (past ++ [e]) := by
  have hsame : ∀ {α : Type} {f : SendEvent → Option α}, f e = none →
      (past ++ [e]).filterMap f = past.filterMap f := by
    intro α f hnone
    rw [List.filterMap_append, List.filterMap_cons_none hnone, List.filterMap_nil, List.append_nil]
  refine ⟨h.bytes, h.fits, ?_⟩
  rw [hsame hdisk, hsame hloaded, hsame hmemory]
  exact h.objects

theorem Accounts.sendBlob (h : conn.Accounts ssl past) {hash : Hash} {blob : Option Blob}
    (hfits : (SendEvent.sendBlob hash blob).Fits) :
    (conn.sendBlob hash blob).Accounts ssl (past ++ [.sendBlob hash blob]) := by
  obtain ⟨loaded, hdisk, hloads, hperm⟩ := h.objects
  cases blob with
  | some blob =>
    refine ⟨h.bytes, ?_, loaded, ?_, ?_, ?_⟩
    · intro entry hentry
      rcases List.mem_append.mp hentry with hold | hnew
      · exact h.fits entry hold
      · rw [List.mem_singleton.mp hnew]
        exact hfits
    · rw [List.filterMap_append]
      exact (List.append_nil _).trans hdisk
    · rw [List.filterMap_append]
      exact (List.append_nil _).trans hloads
    · have hobjects : (conn.sendBlob hash (some blob)).objects = conn.objects ++ [(hash, blob)] :=
        objects_of_ready rfl rfl
      have hswap : (past.filterMap SendEvent.inMemory ++ [(hash, blob)] ++ loaded).Perm
          (past.filterMap SendEvent.inMemory ++ loaded ++ [(hash, blob)]) := by
        rw [List.append_assoc, List.append_assoc]
        exact List.perm_append_comm.append_left _
      rw [hobjects, List.filterMap_append]
      exact hswap.trans (hperm.append_right _)
  | none =>
    apply accounts_maybeQueueLoad
    refine ⟨h.bytes, h.fits, loaded, ?_, ?_, ?_⟩
    · rw [List.filterMap_append, hdisk, List.append_assoc, List.map_append]
      rfl
    · rw [List.filterMap_append]
      exact (List.append_nil _).trans hloads
    · rw [List.filterMap_append]
      exact (List.append_nil (past.filterMap SendEvent.inMemory)).symm ▸ hperm

theorem Accounts.loaded (h : conn.Accounts ssl past) (hsettled : conn.Settled) {i : Nat}
    (hi : i < conn.tasks.length) {blob : Blob} (hfits : blob.data.length < 2 ^ 32) :
    (Sender.loadCb { conn with tasks := conn.tasks.eraseIdx i } (some blob)).Accounts ssl
      (past ++ [.load i (some blob)]) := by
  obtain ⟨loaded, hdisk, hloads, hperm⟩ := h.objects
  obtain ⟨entry, rest, hlist, hentry, -⟩ := hsettled.task_of_lt hi
  have hload := @loadCb_some { conn with tasks := conn.tasks.eraseIdx i } _ _ hlist hentry blob
  rw [hload]
  refine ⟨h.bytes, ?_, loaded ++ [(entry.hash, blob)], ?_, ?_, ?_⟩
  · intro e he
    rcases List.mem_append.mp he with hold | hnew
    · exact h.fits e hold
    · rw [List.mem_singleton.mp hnew]
      rintro _ ⟨⟩
      exact hfits
  · rw [List.filterMap_append, hdisk, hlist]
    simp [SendEvent.onDisk, updatePollFlags]
  · rw [List.filterMap_append, hloads]
    simp [SendEvent.loaded]
  · rw [@objects_of_ready conn _ entry.hash blob ?_ ?_, List.filterMap_append, ← List.append_assoc]
    · exact (List.append_nil (past.filterMap SendEvent.inMemory)).symm ▸ hperm.append_right _
    · rfl
    · rfl

theorem Kept.step (h : conn.Kept ssl past) (hfails : ¬ e.Fails) (hfits : e.Fits)
    (hs : sendStep ssl fill conn e = some conn') : conn'.Kept ssl (past ++ [e]) := by
  refine ⟨h.1.step hfails hs, ?_⟩
  rw [sendStep.eq_def, if_neg (by rw [h.1.alive]; decide)] at hs
  cases e with
  | sendBlob hash blob =>
    cases hs
    exact h.2.sendBlob hfits
  | load i blob =>
    dsimp only at hs
    split_ifs at hs with hi
    cases hs
    cases blob with
    | none => exact absurd ⟨i, rfl⟩ hfails
    | some blob => exact h.2.loaded h.1 hi (hfits blob rfl)
  | write n =>
    have hadded := kept_addReadyObjects fill h
    simp only [hadded.1.alive, Bool.false_eq_true, if_false] at hs
    split_ifs at hs
    cases hs
    exact (accounts_wrote hadded.2 n).pass rfl rfl rfl
  | command bytes =>
    cases hs
    refine Accounts.pass ⟨?_, h.2.fits, ?_⟩ rfl rfl rfl
    · show conn.sent ++ (conn.outBuf ++ bytes) = _
      rw [← List.append_assoc, h.2.bytes, updatePollFlags, List.flatMap_append]
      simp [Appended.bytes]
    · rw [@objects_of_same conn _ ?_ ?_]
      · exact h.2.objects
      · simp [updatePollFlags, Appended.asObject]
      · rfl

/-! ## 2. Nothing is left behind -/

theorem maybeQueueLoad_same (conn : Sender) :
    conn.maybeQueueLoad.objectsToLoad = conn.objectsToLoad ∧
      conn.maybeQueueLoad.outBuf = conn.outBuf ∧ conn.maybeQueueLoad.sent = conn.sent ∧
      conn.maybeQueueLoad.appended = conn.appended := by
  unfold maybeQueueLoad
  split_ifs
  · exact ⟨rfl, rfl, rfl, rfl⟩
  · exact ⟨rfl, rfl, rfl, rfl⟩
  · split <;> exact ⟨rfl, rfl, rfl, rfl⟩

/-- What is left to be done: an object on the disk has to be loaded and then written, and the output
buffer has to be emptied. -/
def work (conn : Sender) : Nat :=
  3 * conn.objectsToLoad.length + 2 * conn.readyObjects.length + if conn.outBuf = [] then 0 else 1

variable (ssl fill) in
theorem Settled.addReadyObjects_le (h : conn.Settled) :
    let conn' := conn.addReadyObjects ssl fill
    conn'.objectsToLoad = conn.objectsToLoad ∧
      conn'.readyObjects.length ≤ conn.readyObjects.length := by
  have hall := addReadyObjects_induction ssl fill
    (P := fun conn' => conn'.Settled ∧ conn'.objectsToLoad = conn.objectsToLoad ∧
      conn'.readyObjects.length ≤ conn.readyObjects.length)
    (fun _ h => h.1.ready) ?_ ⟨h, rfl, le_refl _⟩
  · exact hall.2
  · rintro conn' entry rest blob ⟨hsettled, hload, hle⟩ hready -
    refine ⟨hsettled.addObject ssl fill hready _ _, ?_, ?_⟩
    · rw [Sender.addObject, (maybeQueueLoad_same _).1]
      exact hload
    · rw [Sender.addObject, readyObjects_maybeQueueLoad]
      exact ((List.tail_sublist _).length_le).trans hle

theorem addReadyObjects_cons {entry : QueueEntry} {rest : List QueueEntry} {blob : Blob}
    (hready : conn.readyObjects = entry :: rest) (hblob : entry.blob = some blob)
    (hroom : conn.outBuf.length < 1024) :
    conn.addReadyObjects ssl fill =
      (conn.addObject ssl fill entry.hash blob).addReadyObjects ssl fill := by
  rw [addReadyObjects.eq_def, hready]
  dsimp only
  rw [if_pos hroom, hblob]

variable (ssl fill) in
-- A write that takes everything gets on with the work.
theorem Settled.exists_write (h : conn.Settled)
    (hwork : conn.outBuf ≠ [] ∨ conn.readyObjects ≠ []) :
    ∃ n conn', sendStep ssl fill conn (.write (some n)) = some conn' ∧ conn'.work < conn.work := by
  have hadded := h.addReadyObjects ssl fill
  obtain ⟨hload, hle⟩ := h.addReadyObjects_le ssl fill
  have hpoll : conn.pollOut = true := h.polled (by simpa [isReadyToWrite] using hwork)
  let conn' := conn.addReadyObjects ssl fill
  refine ⟨conn'.outBuf.length, conn'.wrote (some conn'.outBuf.length), ?_, ?_⟩
  · rw [sendStep.eq_def, if_neg (by rw [h.alive]; decide)]
    dsimp only
    rw [if_pos ⟨hpoll, by rintro _ ⟨⟩; exact le_refl _⟩, if_neg (by rw [hadded.alive]; decide)]
  · have hempty : (conn'.wrote (some conn'.outBuf.length)).outBuf = [] := List.drop_length
    rw [work, if_pos hempty, work]
    show 3 * conn'.objectsToLoad.length + 2 * conn'.readyObjects.length + 0 < _
    rw [hload]
    by_cases hout : conn.outBuf = []
    · -- then an object is appended
      obtain ⟨entry, rest, hready⟩ := List.exists_cons_of_ne_nil (hwork.resolve_left (not_not.mpr hout))
      obtain ⟨blob, hblob⟩ := Option.isSome_iff_exists.mp
        (h.ready entry (by rw [hready]; exact List.mem_cons_self))
      have hrest := (h.addObject ssl fill hready entry.hash blob).addReadyObjects_le ssl fill
      have hone : (conn.addObject ssl fill entry.hash blob).readyObjects = rest := by
        rw [Sender.addObject, readyObjects_maybeQueueLoad, hready]
        rfl
      rw [← addReadyObjects_cons hready hblob (by rw [hout]; decide), hone] at hrest
      have hless : conn'.readyObjects.length ≤ rest.length := hrest.2
      rw [hready, List.length_cons]
      omega
    · have hless : conn'.readyObjects.length ≤ conn.readyObjects.length := hle
      rw [if_neg hout]
      omega

variable (ssl fill) in
theorem Settled.exists_load (h : conn.Settled) (hload : conn.objectsToLoad ≠ [])
    (hready : conn.readyObjects = []) (blob : Blob) :
    ∃ conn', sendStep ssl fill conn (.load 0 (some blob)) = some conn' ∧ conn'.work < conn.work := by
  have htask : 0 < conn.tasks.length :=
    List.length_pos_iff.mpr ((h.loading hload).resolve_right (not_not.mpr hready))
  obtain ⟨entry, rest, hlist, hentry, -⟩ := h.task_of_lt htask
  refine ⟨Sender.loadCb { conn with tasks := conn.tasks.eraseIdx 0 } (some blob), ?_, ?_⟩
  · rw [sendStep.eq_def, if_neg (by rw [h.alive]; decide)]
    dsimp only
    rw [if_pos htask]
  · have hcb := @loadCb_some { conn with tasks := conn.tasks.eraseIdx 0 } _ _ hlist hentry blob
    rw [hcb, work, work, hlist, hready]
    show 3 * rest.length + 2 * 1 + (if conn.outBuf = [] then 0 else 1) <
      3 * (rest.length + 1) + 2 * 0 + (if conn.outBuf = [] then 0 else 1)
    omega

/-- A load that has succeeded, or a write that has. -/
def Completes (e : SendEvent) : Prop :=
  (∃ i blob, e = .load i (some blob) ∧ blob.data = []) ∨ ∃ n, e = .write (some n)

variable (ssl fill) in
theorem Settled.finishes (h : conn.Settled) :
    ∃ rest : List SendEvent, (∀ e ∈ rest, Completes e) ∧
      let conn' := run (sendStep ssl fill) conn rest
      conn'.objectsToLoad = [] ∧ conn'.readyObjects = [] ∧ conn'.outBuf = [] := by
  induction hwork : conn.work using Nat.strong_induction_on generalizing conn with
  | h n ih =>
  subst hwork
  -- one event that completes something, and then the rest
  have hnext : ∀ e conn', Completes e → ¬ e.Fails → sendStep ssl fill conn e = some conn' →
      conn'.work < conn.work → ∃ rest : List SendEvent, (∀ e ∈ rest, Completes e) ∧
        let conn' := run (sendStep ssl fill) conn rest
        conn'.objectsToLoad = [] ∧ conn'.readyObjects = [] ∧ conn'.outBuf = [] := by
    intro e conn' he hfails hstep hless
    obtain ⟨rest, hrest, hdone⟩ := ih conn'.work hless (h.step hfails hstep) rfl
    refine ⟨e :: rest, List.forall_mem_cons.mpr ⟨he, hrest⟩, ?_⟩
    rw [run_cons, next_of_some hstep]
    exact hdone
  by_cases hwrite : conn.outBuf ≠ [] ∨ conn.readyObjects ≠ []
  · obtain ⟨n, conn', hstep, hless⟩ := h.exists_write ssl fill hwrite
    exact hnext _ conn' (.inr ⟨n, rfl⟩) (by rintro ⟨i, hi⟩; cases hi) hstep hless
  · rw [not_or, not_not, not_not] at hwrite
    by_cases hload : conn.objectsToLoad = []
    · exact ⟨[], nofun, hload, hwrite.2, hwrite.1⟩
    · obtain ⟨conn', hstep, hless⟩ := h.exists_load ssl fill hload hwrite.2
        { type := .msg, data := [] }
      exact hnext _ conn' (.inl ⟨0, _, rfl, rfl⟩) (by rintro ⟨i, hi⟩; cases hi) hstep hless

end Sender

/-! ## 3. Runs -/

/-- What a connection does with the objects it is asked for.  At most one load is under way, that of
the first object to be loaded; as long as there is such an object, a load is under way or something
is ready; the socket is polled as long as something is to be written.  The bytes that have left the
socket and those that still will are the commands that were appended, in order; and the objects that
were appended or are ready are those that were queued with a blob and those that were loaded, each
once, where the loaded ones are the first that were queued without a blob. -/
structure Sender.Delivers (ssl : OpenSSL) (conn : Sender) (past : List SendEvent) : Prop where
  oneLoad : conn.tasks = [] ∨ ∃ entry rest, conn.objectsToLoad = entry :: rest ∧
    conn.tasks.map (·.hash) = [entry.hash]
  loading : conn.objectsToLoad ≠ [] → conn.tasks ≠ [] ∨ conn.readyObjects ≠ []
  polled : conn.outBuf ≠ [] ∨ conn.readyObjects ≠ [] → conn.pollOut = true
  bytes : conn.sent ++ conn.outBuf = conn.appended.flatMap (Appended.bytes ssl)
  objects : ∃ loaded : List (Hash × Blob),
    past.filterMap SendEvent.onDisk = loaded.map Prod.fst ++ conn.objectsToLoad.map (·.hash) ∧
      past.filterMap SendEvent.loaded = loaded.map Prod.snd ∧
      (past.filterMap SendEvent.inMemory ++ loaded).Perm
        (conn.appended.filterMap Appended.asObject ++
          conn.readyObjects.filterMap QueueEntry.asObject)

variable {ssl : OpenSSL} {fill : Buffer → Memory} {conn : Sender} {past events : List SendEvent}

theorem Sender.Kept.delivers (h : conn.Kept ssl past) : conn.Delivers ssl past where
  oneLoad := by
    by_cases htasks : conn.tasks = []
    · exact .inl htasks
    · obtain ⟨entry, rest, hlist, -, hhash, -⟩ := h.1.task_of_lt (List.length_pos_iff.mpr htasks)
      exact .inr ⟨entry, rest, hlist, hhash⟩
  loading := h.1.loading
  polled hne := h.1.polled (by simpa [isReadyToWrite] using hne)
  bytes := h.2.bytes
  objects := h.2.objects

variable (ssl fill) in
theorem kept_run (hevents : ∀ e ∈ events, e.Fits ∧ ¬ e.Fails) :
    (run (sendStep ssl fill) {} events).Kept ssl (happened (sendStep ssl fill) {} events) := by
  have hstart : Sender.Kept ssl {} [] :=
    ⟨Sender.settled_init, rfl, nofun, [], rfl, rfl, List.Perm.refl _⟩
  have hall := @invariant_happened _ _ (sendStep ssl fill) {}
    (fun conn past => (∀ e ∈ past, e.Fits ∧ ¬ e.Fails) → conn.Kept ssl past)
    (fun conn past e conn' h hs hpast => ?_) [] (fun _ => hstart) events
  · exact hall fun e he => hevents e (mem_of_mem_happened he)
  · have he := hpast e (List.mem_append_right _ List.mem_cons_self)
    exact (h fun e he => hpast e (List.mem_append_left _ he)).step he.2 he.1 hs

/-- Whatever the order of the calls, the loads and the writes: a connection delivers what it is
asked for, and loads and writes that succeed bring it to a state in which nothing is left. -/
theorem objects_delivered (ssl : OpenSSL) (fill : Buffer → Memory) {events : List SendEvent}
    (hevents : ∀ e ∈ events, e.Fits ∧ ¬ e.Fails) :
    (run (sendStep ssl fill) {} events).Delivers ssl (happened (sendStep ssl fill) {} events) ∧
      ∃ rest : List SendEvent, (∀ e ∈ rest, Sender.Completes e) ∧
        let conn := run (sendStep ssl fill) {} (events ++ rest)
        conn.Delivers ssl (happened (sendStep ssl fill) {} (events ++ rest)) ∧
          conn.objectsToLoad = [] ∧ conn.readyObjects = [] ∧ conn.outBuf = [] := by
  have hkept := kept_run ssl fill hevents
  obtain ⟨rest, hrest, hdone⟩ := hkept.1.finishes ssl fill
  refine ⟨hkept.delivers, rest, hrest, ?_⟩
  have hboth : ∀ e ∈ events ++ rest, e.Fits ∧ ¬ e.Fails := by
    intro e he
    rcases List.mem_append.mp he with hold | hnew
    · exact hevents e hold
    · rcases hrest e hnew with ⟨i, blob, rfl, hdata⟩ | ⟨n, rfl⟩
      · refine ⟨?_, by rintro ⟨j, hj⟩; cases hj⟩
        rintro _ ⟨⟩
        rw [hdata]
        decide
      · exact ⟨trivial, by rintro ⟨j, hj⟩; cases hj⟩
  refine ⟨(kept_run ssl fill hboth).delivers, ?_⟩
  rw [run_append]
  exact hdone

/-- One object of each kind: the first is loaded before both are written. -/
theorem twoObjects_delivered :
    let blob : Blob := { type := .msg, data := [1, 2, 3] }
    let events : List SendEvent := [.sendBlob ⟨List.replicate 32 0, by decide⟩ none,
      .load 0 (some blob), .sendBlob ⟨List.replicate 32 1, by decide⟩ (some blob), .write (some 7)]
    (run (sendStep OpenSSL.additive fun _ _ => 0) {} events).Delivers OpenSSL.additive
      (happened (sendStep OpenSSL.additive fun _ _ => 0) {} events) := by
  intro blob events
  have hfits : blob.data.length < 2 ^ 32 := by decide
  refine (objects_delivered OpenSSL.additive (fun _ _ => 0) fun e he => ?_).1
  have hcases : e ∈ events := he
  simp only [events, List.mem_cons, List.not_mem_nil, or_false] at hcases
  rcases hcases with rfl | rfl | rfl | rfl
  · exact ⟨nofun, by rintro ⟨i, hi⟩; cases hi⟩
  · exact ⟨by rintro _ ⟨⟩; exact hfits, by rintro ⟨i, hi⟩; cases hi⟩
  · exact ⟨by rintro _ ⟨⟩; exact hfits, by rintro ⟨i, hi⟩; cases hi⟩
  · exact ⟨trivial, by rintro ⟨i, hi⟩; cases hi⟩

variable (ssl) in
-- The checksum of a payload whose length is lost is that of the empty payload.
theorem endCommand_wrapped (fill : Memory) {command : CString} {payload : List UInt8}
    (hname : command.bytes.length ≤ 12) (hlength : payload.length % 2 ^ 32 = 0) :
    ((endCommand ssl (beginCommand fill [] command ++ payload) 0).drop 20).take 4 =
      (ssl.sha512 []).take 4 := by
  have hbegin : (beginCommand fill [] command ++ payload).length = headerSize + payload.length := by
    rw [List.length_append, length_beginCommand hname]
    rfl
  have hzero : (beginCommand fill [] command ++ payload).length - 0 - headerSize =
      payload.length := by
    omega
  have hheader : headerSize = 24 := rfl
  unfold endCommand
  rw [hzero, hlength]
  dsimp only
  rw [List.take_zero]
  have hsize : (patch (beginCommand fill [] command ++ payload) (0 + 16) (toBE 4 0)).length =
      headerSize + payload.length := by
    rw [length_patch (by rw [hbegin, length_toBE]; omega), hbegin]
  generalize patch (beginCommand fill [] command ++ payload) (0 + 16) (toBE 4 0) = buf at hsize
  have hpatch := @take_patch buf ((ssl.sha512 []).take 4) 20 (by omega)
  rw [length_checksum] at hpatch
  rw [List.take_drop, hpatch, List.drop_left' (by rw [List.length_take]; omega)]

variable (ssl) in
theorem checksum_of_frame {command : CString} (hname : command.bytes.length ≤ 12)
    (payload : List UInt8) :
    ((frame ssl command.bytes payload).drop 20).take 4 = (ssl.sha512 payload).take 4 := by
  have hheader : (magic ++ commandField command.bytes ++ toBE 4 payload.length).length = 20 := by
    rw [List.length_append, List.length_append, length_magic, length_commandField hname,
      length_toBE]
  rw [frame, List.append_assoc _ _ payload, List.drop_left' hheader,
    List.take_left' (length_checksum ssl payload)]

/-- An object whose size is lost in the header. -/
theorem not_delivers_of_length {n : Nat} (hzero : n % 2 ^ 32 = 0) (hfour : 4 ≤ n) :
    let blob : Blob := { type := .msg, data := List.replicate n 1 }
    let events : List SendEvent :=
      [.sendBlob ⟨List.replicate 32 0, by decide⟩ (some blob), .write none]
    ¬ (run (sendStep OpenSSL.additive fun _ _ => 0) {} events).Delivers OpenSSL.additive
      (happened (sendStep OpenSSL.additive fun _ _ => 0) {} events) := by
  intro blob events hdelivers
  let hash : Hash := ⟨List.replicate 32 0, by decide⟩
  let queued : Sender := ({} : Sender).sendBlob hash (some blob)
  have hadd : queued.addReadyObjects OpenSSL.additive (fun _ _ => 0) =
      queued.addObject OpenSSL.additive (fun _ _ => 0) hash blob := by
    have hroom : queued.outBuf.length < 1024 := Nat.zero_lt_succ 1023
    rw [Sender.addReadyObjects_cons rfl rfl hroom, Sender.addReadyObjects.eq_def,
      Sender.addObject, Sender.readyObjects_maybeQueueLoad]
    rfl
  have hrun : run (sendStep OpenSSL.additive fun _ _ => 0) {} events =
      queued.addObject OpenSSL.additive (fun _ _ => 0) hash blob := by
    have hwrite : sendStep OpenSSL.additive (fun _ _ => 0) queued (.write none) =
        some (queued.addReadyObjects OpenSSL.additive fun _ _ => 0) := by
      have halive := ((Sender.settled_init.sendBlob hash (some blob)).addReadyObjects
        OpenSSL.additive fun _ _ => 0).alive
      have hup : queued.crashed = false := rfl
      rw [sendStep.eq_def, if_neg (by rw [hup]; decide)]
      dsimp only
      rw [if_pos ⟨rfl, by simp⟩, if_neg (by rw [halive]; decide)]
      rfl
    show Runs.next (sendStep OpenSSL.additive fun _ _ => 0) queued (SendEvent.write none) = _
    rw [next_of_some hwrite, hadd]
  have hname : (Sender.commandNameForType .msg).bytes.length ≤ 12 := by decide
  have hbytes := hdelivers.bytes
  obtain ⟨-, hout, hsent, happended⟩ := Sender.maybeQueueLoad_same { queued with
    outBuf := endCommand OpenSSL.additive (beginCommand (fun _ => 0) []
      (Sender.commandNameForType .msg) ++ blob.data) 0
    readyObjects := []
    appended := [.object hash blob] }
  have hbytes : endCommand OpenSSL.additive (beginCommand (fun _ => 0) []
      (Sender.commandNameForType .msg) ++ blob.data) 0 ++ [] =
        frame OpenSSL.additive (Sender.commandNameForType .msg).bytes blob.data ++ [] := by
    have hall := hdelivers.bytes
    rw [hrun] at hall
    have hcommand := hout.symm.trans ((congrArg (· ++ _) hsent).symm.trans
      (hall.trans (congrArg (List.flatMap _) happended)))
    rw [List.append_nil]
    exact hcommand
  rw [List.append_nil, List.append_nil] at hbytes
  -- the checksums in front of the payload differ
  have hwrapped := @endCommand_wrapped OpenSSL.additive (fun _ => 0) _ blob.data hname
    (by rw [List.length_replicate, hzero])
  have hframe := checksum_of_frame OpenSSL.additive hname blob.data
  rw [hbytes, hframe] at hwrapped
  have hones : (OpenSSL.additive.sha512 blob.data).take 4 = List.replicate 4 1 := by
    show (((List.replicate n (1 : UInt8)) ++ List.replicate 64 0).take 64).take 4 = _
    rw [List.take_take, List.take_append_of_le_length (by rw [List.length_replicate]; omega),
      List.take_replicate, Nat.min_eq_left (by omega)]
    rfl
  rw [hones] at hwrapped
  exact absurd hwrapped (by decide)

/-- An object of 4 GiB does not fit into a command: the length in its header is zero, and the
checksum is that of no data. -/
theorem giantObject_not_delivered :
    let blob : Blob := { type := .msg, data := List.replicate (2 ^ 32) 1 }
    let events : List SendEvent :=
      [.sendBlob ⟨List.replicate 32 0, by decide⟩ (some blob), .write none]
    ¬ (run (sendStep OpenSSL.additive fun _ _ => 0) {} events).Delivers OpenSSL.additive
      (happened (sendStep OpenSSL.additive fun _ _ => 0) {} events) :=
  not_delivers_of_length (by norm_num) (by norm_num)

end Notbit.Connection
