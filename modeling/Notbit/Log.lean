import Notbit.Lib.Runs

/-!
# Log — the buffer that `ntb_log` fills and the thread that empties it (`ntb-log.c`)

The messages go into a buffer under a mutex.  The thread swaps it for an empty one and writes
without the mutex.  `ntb_log_close` tells the thread to finish and waits for it.  What happens under
the mutex is one step, so that the steps of all threads can be put into one list.
-/

open Runs

namespace Notbit.Log

/-- Where `ntb_log_thread_func` is: it waits for the mutex or on the condition, it writes, or it has
returned. -/
inductive Thread where
  | ready | waiting | writing | exited
  deriving DecidableEq, Repr

/-- Where `ntb_log_close` is. -/
inductive Closing where
  | notCalled | called | joining | closed
  deriving DecidableEq, Repr

/-- The variables of the file and of the thread, with what was logged so far and what of it when
`ntb_log_close` was called. -/
structure State where
  buffer : List UInt8 := []
  alternateBuffer : List UInt8 := []
  thread : Thread := .ready
  finished : Bool := false
  hadError : Bool := false
  file : List UInt8 := []
  closing : Closing := .notCalled
  logged : List UInt8 := []
  loggedBefore : List UInt8 := []
  deriving DecidableEq, Repr

inductive Event where
  | log (line : List UInt8)
  | lock
  | wake
  | write (wrote : Nat)
  | close
  | finish
  | join

/-- What the thread does under the mutex, from the head of its loop or from its wait until it gives
the mutex away. -/
def State.runLocked (s : State) : State :=
  if s.finished ∧ s.buffer = [] then { s with thread := .exited }
  else if ¬ s.finished ∧ s.buffer = [] then { s with thread := .waiting }
  -- the second look at the flag, with something in the buffer
  else if s.finished then { s with thread := .exited }
  else if s.hadError then { s with buffer := [], thread := .waiting }
  else { s with
    buffer := s.alternateBuffer, alternateBuffer := s.buffer, thread := .writing }

def step (s : State) : Event → Option State
  -- nothing is logged without a file
  | .log line => if s.closing = .closed then some s else some { s with
      buffer := s.buffer ++ line, logged := s.logged ++ line }
  | .lock => if s.thread = .ready then some s.runLocked else none
  | .wake => if s.thread = .waiting then some { s with thread := .ready } else none
  | .write wrote => if s.thread = .writing then some { s with
      file := s.file ++ s.alternateBuffer.take wrote
      hadError := s.hadError || wrote != s.alternateBuffer.length
      alternateBuffer := []
      thread := .ready } else none
  | .close => if s.closing = .notCalled then
      some { s with closing := .called, loggedBefore := s.logged } else none
  | .finish => if s.closing = .called then
      some { s with closing := .joining, finished := true } else none
  | .join => if s.closing = .joining ∧ s.thread = .exited then
      some { s with closing := .closed, buffer := [] } else none

/-- Everything that is given to `fwrite` is written. -/
def Writes (s : State) : Event → Prop
  | .write wrote => wrote = s.alternateBuffer.length
  | _ => True

/-- When the thread is told to finish, it has taken everything out of the buffer that was logged
before `ntb_log_close` was called. -/
def Taken (s : State) : Event → Prop
  | .finish => s.buffer.length ≤ s.logged.length - s.loggedBefore.length
  | _ => True

/-- What is logged goes through the two buffers to the file. -/
structure State.Inv (s : State) : Prop where
  hadError : s.hadError = false
  flow : s.closing ≠ .closed → s.file ++ s.alternateBuffer ++ s.buffer = s.logged
  file : s.file ++ s.alternateBuffer <+: s.logged
  alternateBuffer : s.thread ≠ .writing → s.alternateBuffer = []
  loggedBefore : s.loggedBefore <+: s.logged
  unfinished : s.finished = false ↔ s.closing = .notCalled ∨ s.closing = .called
  exited : s.closing = .closed → s.thread = .exited

/-- Once the thread is told to finish, what it has taken is all that will ever be written. -/
def State.Saved (s : State) : Prop :=
  s.finished = true → s.loggedBefore.length ≤ (s.file ++ s.alternateBuffer).length

variable {s s' : State}

theorem inv_init : ({} : State).Inv where
  hadError := rfl
  flow := fun _ => rfl
  file := List.prefix_refl _
  alternateBuffer := fun _ => rfl
  loggedBefore := List.prefix_refl _
  unfinished := by decide
  exited := nofun

theorem inv_runLocked (h : s.Inv) (hready : s.thread = .ready) :
    s.runLocked.Inv ∧ (s.runLocked.Saved ↔ s.Saved) := by
  have halternate := h.alternateBuffer (by rw [hready]; decide)
  have hopen : s.closing ≠ .closed := by
    intro hclosed
    have hexited := h.exited hclosed
    rw [hready] at hexited
    cases hexited
  unfold State.runLocked
  split_ifs with hdone hempty hbreak herror
  · exact ⟨{ h with alternateBuffer := fun _ => halternate, exited := fun _ => rfl }, Iff.rfl⟩
  · exact ⟨{ h with alternateBuffer := fun _ => halternate
                    exited := fun hclosed => absurd hclosed hopen }, Iff.rfl⟩
  · exact ⟨{ h with alternateBuffer := fun _ => halternate, exited := fun _ => rfl }, Iff.rfl⟩
  · rw [h.hadError] at herror
    cases herror
  · have hflow := h.flow hopen
    rw [halternate, List.append_nil] at hflow
    refine ⟨{ h with
      flow := fun _ => ?_
      file := ?_
      alternateBuffer := fun hwriting => absurd rfl hwriting
      exited := fun hclosed => absurd hclosed hopen }, ?_⟩
    · simp only [halternate, List.append_nil]
      exact hflow
    · exact hflow ▸ List.prefix_refl _
    · -- the flag is not set, so nothing is said yet
      exact iff_of_true (fun hfinished => absurd hfinished hbreak)
        fun hfinished => absurd hfinished hbreak

theorem inv_step {e : Event} (h : s.Inv) (hwrites : Writes s e) (hs : step s e = some s') :
    s'.Inv ∧ (s'.Saved ↔ s.Saved ∧ Taken s e) := by
  cases e with
  | log line =>
    rw [step] at hs
    split_ifs at hs with hclosed
    · cases hs
      exact ⟨h, (and_iff_left trivial).symm⟩
    · cases hs
      refine ⟨{ h with
        flow := fun _ => ?_
        file := h.file.trans (List.prefix_append _ _)
        loggedBefore := h.loggedBefore.trans (List.prefix_append _ _) },
        (and_iff_left trivial).symm⟩
      rw [← List.append_assoc, h.flow hclosed]
  | lock =>
    rw [step] at hs
    split_ifs at hs with hready
    cases hs
    obtain ⟨hinv, hsaved⟩ := inv_runLocked h hready
    exact ⟨hinv, hsaved.trans (and_iff_left trivial).symm⟩
  | wake =>
    rw [step] at hs
    split_ifs at hs with hwaiting
    cases hs
    refine ⟨{ h with
      alternateBuffer := fun _ => h.alternateBuffer (by rw [hwaiting]; decide)
      exited := fun hclosed => ?_ }, (and_iff_left trivial).symm⟩
    rw [h.exited hclosed] at hwaiting
    cases hwaiting
  | write wrote =>
    rw [step] at hs
    split_ifs at hs with hwriting
    cases hs
    have hall : wrote = s.alternateBuffer.length := hwrites
    subst hall
    refine ⟨{ h with
      hadError := by simp [h.hadError]
      flow := fun hopen => ?_
      file := ?_
      alternateBuffer := fun _ => rfl
      exited := fun hclosed => ?_ }, ?_⟩
    · simpa using h.flow hopen
    · simpa using h.file
    · rw [h.exited hclosed] at hwriting
      cases hwriting
    · simp [State.Saved, Taken]
  | close =>
    rw [step] at hs
    split_ifs at hs with hnot
    cases hs
    have hunfinished := h.unfinished.mpr (Or.inl hnot)
    refine ⟨{ h with
      flow := fun _ => h.flow (by rw [hnot]; decide)
      loggedBefore := List.prefix_refl _
      unfinished := iff_of_true hunfinished (Or.inr rfl)
      exited := nofun }, ?_⟩
    simp [State.Saved, Taken, hunfinished]
  | finish =>
    rw [step] at hs
    split_ifs at hs with hcalled
    cases hs
    have hunfinished := h.unfinished.mpr (Or.inr hcalled)
    have hflow := congrArg List.length (h.flow (by rw [hcalled]; decide))
    have hbefore := h.loggedBefore.length_le
    refine ⟨{ h with
      flow := fun _ => h.flow (by rw [hcalled]; decide)
      unfinished := by simp
      exited := nofun }, ?_⟩
    simp only [State.Saved, Taken, hunfinished, forall_const, Bool.false_eq_true, false_implies,
      true_and]
    simp only [List.length_append] at hflow ⊢
    omega
  | join =>
    rw [step] at hs
    split_ifs at hs with hjoining
    cases hs
    have hfinished : s.finished ≠ false := by
      intro hunfinished
      rw [h.unfinished, hjoining.1] at hunfinished
      simp at hunfinished
    refine ⟨{ h with
      flow := fun hopen => absurd rfl hopen
      unfinished := by simp [hfinished]
      exited := fun _ => hjoining.2 }, (and_iff_left trivial).symm⟩

/-- When `ntb_log_close` returns from a run without write errors, everything that was logged before
it was called is in the file exactly if the thread had taken it when it was told to finish. -/
theorem log_written_iff (events : List Event) (hwrites : Along step Writes {} events)
    (hclosed : (run step {} events).closing = .closed) :
    (run step {} events).loggedBefore <+: (run step {} events).file ↔
      Along step Taken {} events := by
  have hinv : (run step {} events).Inv :=
    invariant_along (fun s e s' h hw hs => (inv_step h hw hs).1) hwrites inv_init
  have hfinal := final_iff_along (fun s e s' h hw hs => inv_step h hw hs) inv_init hwrites
  have hstart : ({} : State).Saved := nofun
  rw [and_iff_right hstart] at hfinal
  rw [← hfinal]
  have halternate : (run step {} events).alternateBuffer = [] := by
    apply hinv.alternateBuffer
    rw [hinv.exited hclosed]
    decide
  have hfinished : (run step {} events).finished = true := by
    rw [← Bool.not_eq_false, hinv.unfinished, hclosed]
    simp
  have hfile := hinv.file
  unfold State.Saved
  rw [halternate, List.append_nil] at hfile ⊢
  constructor
  · intro hprefix _
    exact hprefix.length_le
  · intro hlength
    exact List.prefix_of_prefix_length_le hinv.loggedBefore hfile (hlength hfinished)

/-- One line that is written before the log is closed. -/
def savedRun : List Event := [.log [104, 10], .lock, .write 2, .close, .finish, .lock, .join]

theorem log_written_iff_savedRun :
    (run step {} savedRun).loggedBefore <+: (run step {} savedRun).file ↔
      Along step Taken {} savedRun :=
  log_written_iff savedRun
    (by simp [savedRun, Along, next, step, Writes, State.runLocked]) (by decide)

/-- The thread gets the mutex only after it was told to finish. -/
def lostRun : List Event := [.log [104, 10], .close, .finish, .lock, .join]

theorem lostRun_not_written :
    ¬ ∀ events : List Event, Along step Writes {} events →
      (run step {} events).closing = .closed →
        (run step {} events).loggedBefore <+: (run step {} events).file := by
  intro h
  have hwrites : Along step Writes {} lostRun := by
    simp [lostRun, Along, next, step, Writes, State.runLocked]
  have hlost := h lostRun hwrites (by decide)
  have hbefore : (run step {} lostRun).loggedBefore = [104, 10] := by decide
  have hfile : (run step {} lostRun).file = [] := by decide
  rw [hbefore, hfile, List.prefix_nil] at hlost
  cases hlost

end Notbit.Log
