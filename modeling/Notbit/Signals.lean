import Notbit.Lists

/-!
# Signals — listeners that may go while they are called (`ntb-signal.c`)

A signal calls its listeners in the order in which they were added, until one of them answers that it
must stop.  `ntb_list_for_each_safe` reads the next element before the body of the loop runs, so that
a listener may take itself out of the list; one that stops the loop may do as it likes, and even free
the signal.
-/

open Rings

namespace Notbit.Signals

variable {α σ : Type} [DecidableEq α]

/-! ## 1. Functions -/

/-- `ntb_list_for_each_safe` from an element on, with the one that was read before the body runs.
The body tells whether the loop goes on. -/
def forEachSafeLoop (cells : σ → Cells α) (body : α → σ → σ × Bool) (head : α) :
    Nat → α → α → σ → Option (σ × Bool)
  | 0, _, _, _ => none
  | fuel + 1, pos, tmp, s =>
    if pos = head then some (s, true)
    else if (body pos s).2 then do
      let next ← (cells (body pos s).1 tmp).next
      forEachSafeLoop cells body head fuel tmp next (body pos s).1
    else some ((body pos s).1, false)

def forEachSafe (cells : σ → Cells α) (body : α → σ → σ × Bool) (fuel : Nat) (head : α) (s : σ) :
    Option (σ × Bool) := do
  let pos ← (cells s head).next
  let tmp ← (cells s pos).next
  forEachSafeLoop cells body head fuel pos tmp s

/-- `ntb_signal_init` -/
def init (h : Cells α) (signal : α) : Cells α := Lists.init h signal

/-- `ntb_signal_add` -/
def add (h : Cells α) (signal listener : α) : Option (Cells α) := do
  let last ← (h signal).prev
  Lists.insert h last listener

/-- `ntb_signal_emit` -/
def emit (cells : σ → Cells α) (notify : α → σ → σ × Bool) (fuel : Nat) (signal : α) (s : σ) :
    Option (σ × Bool) :=
  forEachSafe cells notify fuel signal s

/-! ## 2. What they are for -/

/-- One after the other is called, until one answers no. -/
def callAll (notify : α → σ → σ × Bool) : List α → σ → σ × Bool
  | [], s => (s, true)
  | l :: ls, s => if (notify l s).2 then callAll notify ls (notify l s).1 else ((notify l s).1, false)

/-- The elements of a list, whose head is not one of them. -/
def Listed (h : Cells α) (head : α) (l : List α) : Prop :=
  Ring h (head :: l) ∧ (head :: l).Nodup

/-- The body leaves the elements behind the one it is given where they are, as long as it lets the
loop go on.  That one itself and those before it may go, and new ones may come before the others. -/
def Tidy (cells : σ → Cells α) (body : α → σ → σ × Bool) (head : α) : Prop :=
  ∀ s before x behind, Listed (cells s) head (before ++ x :: behind) → (body x s).2 = true →
    ∃ before', Listed (cells (body x s).1) head (before' ++ behind)

variable {cells : σ → Cells α} {body notify : α → σ → σ × Bool} {h : Cells α}
  {head signal listener x : α} {before behind listeners : List α} {s : σ}

/-! ## 3. The loop -/

omit [DecidableEq α] in
theorem Listed.next (hl : Listed h head (before ++ x :: behind)) :
    (h x).next = (behind ++ [head]).head? := by
  have hrot : Ring h (x :: (behind ++ head :: before)) := by
    rw [← List.cons_append, ring_append]
    exact hl.1
  rw [hrot.next]
  cases behind <;> rfl

omit [DecidableEq α] in
theorem Listed.exists_next (hl : Listed h head (before ++ behind)) {pos : α}
    (hpos : (behind ++ [head]).head? = some pos) : ∃ next, (h pos).next = some next := by
  have hmem : pos ∈ head :: (before ++ behind) := by
    have hin := List.mem_of_head? hpos
    simp only [List.mem_append, List.mem_cons, List.not_mem_nil, or_false] at hin ⊢
    tauto
  obtain ⟨-, next, -, hnext, -⟩ := hl.1.exists_links hmem
  exact ⟨next, hnext⟩

theorem forEachSafeLoop_eq (htidy : Tidy cells body head) {fuel : Nat} {pos tmp : α}
    (hlisted : Listed (cells s) head (before ++ behind))
    (hpos : (behind ++ [head]).head? = some pos) (htmp : (cells s pos).next = some tmp)
    (hfuel : behind.length < fuel) :
    forEachSafeLoop cells body head fuel pos tmp s = some (callAll body behind s) := by
  induction behind generalizing fuel pos tmp s before with
  | nil =>
    obtain ⟨fuel, rfl⟩ := Nat.exists_eq_succ_of_ne_zero (Nat.ne_of_gt hfuel)
    cases hpos
    rw [forEachSafeLoop, if_pos rfl, callAll]
  | cons x behind ih =>
    obtain ⟨fuel, rfl⟩ := Nat.exists_eq_succ_of_ne_zero (Nat.ne_of_gt (Nat.zero_lt_of_lt hfuel))
    cases hpos
    have hne : x ≠ head := by
      rintro rfl
      exact (List.nodup_cons.mp hlisted.2).1 (by simp)
    rw [forEachSafeLoop, if_neg hne, callAll]
    split_ifs with hgoes
    · -- what was read before the call is still there
      have hnext : (behind ++ [head]).head? = some tmp := hlisted.next.symm.trans htmp
      obtain ⟨before', hleft⟩ := htidy s before x behind hlisted hgoes
      obtain ⟨next, hnext'⟩ := hleft.exists_next hnext
      rw [hnext']
      exact ih hleft hnext hnext' (Nat.lt_of_succ_lt_succ hfuel)
    · rfl

theorem forEachSafe_eq (htidy : Tidy cells body head) (hlisted : Listed (cells s) head listeners)
    {fuel : Nat} (hfuel : listeners.length < fuel) :
    forEachSafe cells body fuel head s = some (callAll body listeners s) := by
  obtain ⟨pos, hpos⟩ : ∃ pos, (listeners ++ [head]).head? = some pos := by
    cases listeners <;> simp
  have hfirst : (cells s head).next = some pos := by
    rw [hlisted.1.next, ← hpos]
    cases listeners <;> rfl
  have hstart : Listed (cells s) head ([] ++ listeners) := hlisted
  obtain ⟨tmp, htmp⟩ := hstart.exists_next hpos
  rw [forEachSafe, hfirst]
  simp only [Option.bind_eq_bind, Option.bind_some, htmp]
  exact forEachSafeLoop_eq htidy hstart hpos htmp hfuel

/-! ## 4. Adding -/

theorem listed_init (h : Cells α) (signal : α) : Listed (init h signal) signal [] :=
  ⟨ring_single.mpr ⟨by simp [init, Lists.init], by simp [init, Lists.init]⟩, by simp⟩

omit [DecidableEq α] in
theorem listed_iff : Listed h head listeners ↔ Holds h [head :: listeners] := by
  constructor
  · exact fun hl => ⟨by simpa using hl.2, by simpa using hl.1⟩
  · exact fun hh => ⟨hh.ring _ List.mem_cons_self, hh.nodup_of_mem List.mem_cons_self⟩

/-- A new listener is the last one. -/
theorem add_listed (hl : Listed h signal listeners) (hnew : listener ∉ signal :: listeners) :
    ∃ h', add h signal listener = some h' ∧ Listed h' signal (listeners ++ [listener]) := by
  have hprev := hl.1.prev
  have hlast : listeners.getLastD signal ∈ [signal :: listeners].flatten := by
    simpa using List.getLastD_mem_cons (l := listeners) (a := signal)
  have hfree : listener ∉ [signal :: listeners].flatten := by simpa using hnew
  obtain ⟨h', hinsert, hh'⟩ := Lists.insert_holds (listed_iff.mp hl) hlast hfree
  have hput : putAfter (listeners.getLastD signal) [listener] (signal :: listeners) =
      signal :: (listeners ++ [listener]) := by
    obtain ⟨front, last, heq⟩ : ∃ front last, signal :: listeners = front ++ [last] :=
      ⟨_, _, (List.dropLast_append_getLast (List.cons_ne_nil signal listeners)).symm⟩
    have hlast : listeners.getLastD signal = last := by
      rw [← List.getLast_eq_getLastD (List.cons_ne_nil signal listeners)]
      simp [heq]
    have hout : last ∉ front := by
      have hnodup := hl.2
      rw [heq] at hnodup
      exact notMem_left hnodup
    rw [hlast, ← List.cons_append, heq, putAfter_append hout List.not_mem_nil]
    simp
  rw [List.map_singleton, hput] at hh'
  refine ⟨h', ?_, listed_iff.mpr hh'⟩
  rw [add, hprev]
  exact hinsert

theorem adds_listed {added : List α} (hl : Listed h signal listeners)
    (hnew : (signal :: (listeners ++ added)).Nodup) :
    ∃ h', added.foldlM (add · signal) h = some h' ∧ Listed h' signal (listeners ++ added) := by
  induction added generalizing h listeners with
  | nil => exact ⟨h, rfl, by simpa using hl⟩
  | cons l added ih =>
    have hl' : l ∉ signal :: listeners := by
      rw [← List.cons_append] at hnew
      exact notMem_left hnew
    obtain ⟨h₁, hadd, hh₁⟩ := add_listed hl hl'
    obtain ⟨h₂, hadds, hh₂⟩ := ih hh₁ (by simpa using hnew)
    exact ⟨h₂, Option.bind_eq_some_iff.mpr ⟨h₁, hadd, hadds⟩, by simpa using hh₂⟩

/-- The listeners of a signal are called in the order in which they were added, each once, up to the
first that answers no, whatever the calls do, as long as they leave the listeners that come next.
Nothing is read of the signal after an answer of no. -/
theorem emit_calls (htidy : Tidy cells notify signal) {added : List α}
    (hadded : (signal :: added).Nodup) (h : Cells α) :
    ∃ h', added.foldlM (add · signal) (init h signal) = some h' ∧
      ∀ s, cells s = h' → ∀ fuel > added.length,
        emit cells notify fuel signal s = some (callAll notify added s) := by
  obtain ⟨h', hadds, hlisted⟩ := adds_listed (listed_init h signal) (by simpa using hadded)
  refine ⟨h', hadds, fun s hs fuel hfuel => ?_⟩
  subst hs
  exact forEachSafe_eq htidy hlisted hfuel

-- A body that takes its element out of the list is tidy.
theorem remove_listed (hl : Listed h head (before ++ x :: behind)) :
    ∃ h', Lists.remove h x = some h' ∧ Listed h' head (before ++ behind) := by
  have hout : x ∉ head :: before := notMem_left (l := head :: before) (r := behind) hl.2
  have hhead : head ≠ x := fun heq => hout (heq ▸ List.mem_cons_self)
  have hin : x ∈ [head :: (before ++ x :: behind)].flatten := by simp
  obtain ⟨h', hremove, hh'⟩ := Lists.remove_holds (listed_iff.mp hl) hin (by simpa using hhead)
  have herase : (head :: (before ++ x :: behind)).erase x = head :: (before ++ behind) := by
    rw [← List.cons_append, List.erase_append_right _ hout, List.erase_cons_head,
      List.cons_append]
  rw [List.map_singleton, herase] at hh'
  exact ⟨h', hremove, listed_iff.mpr hh'⟩

/-- Three listeners that write down that they were called: the first takes itself out of the list,
the second clears all cells and stops. -/
def sampleNotify (l : Nat) (s : Cells Nat × List Nat) : (Cells Nat × List Nat) × Bool :=
  if l = 1 then (((Lists.remove s.1 1).getD s.1, s.2 ++ [1]), true)
  else if l = 2 then ((fun _ => {}, s.2 ++ [2]), false)
  else ((s.1, s.2 ++ [l]), true)

theorem sampleNotify_tidy : Tidy Prod.fst sampleNotify 0 := by
  intro s before x behind hlisted hgoes
  by_cases hfirst : x = 1
  · subst hfirst
    obtain ⟨h', hremove, hleft⟩ := remove_listed hlisted
    exact ⟨before, by simpa [sampleNotify, hremove] using hleft⟩
  · by_cases hsecond : x = 2
    · subst hsecond
      simp [sampleNotify] at hgoes
    · exact ⟨before ++ [x], by simpa [sampleNotify, hfirst, hsecond] using hlisted⟩

theorem sampleNotify_calls : ∃ h' : Cells Nat, ∀ log, ∃ s,
    emit Prod.fst sampleNotify 4 0 (h', log) = some (s, false) ∧ s.2 = log ++ [1, 2] := by
  have hadded : [0, 1, 2, 3].Nodup := by decide
  obtain ⟨h', -, hemit⟩ := emit_calls sampleNotify_tidy hadded (fun _ => {})
  refine ⟨h', fun log => ⟨_, hemit (h', log) rfl 4 (by decide), ?_⟩⟩
  simp [sampleNotify]

end Notbit.Signals
