import Mathlib.Tactic

/-!
# Refs — objects with a reference count that is kept by hand

An object is freed by whoever takes its count to zero.  `Exact` says that the count is the number of
those who hold the object, and that it was freed once if nobody holds it and not at all otherwise.
-/

namespace Refs

/-- A reference count, the number of times the object was freed, and the number of its holders. -/
structure Exact (refCount : Int) (frees holders : Nat) : Prop where
  refCount : refCount = holders
  frees : frees = if holders = 0 then 1 else 0

variable {refCount : Int} {frees holders : Nat}

variable (holders) in
-- An object that is made with a count of its first holders.
theorem exact_new (h : 0 < holders) : Exact holders 0 holders :=
  ⟨rfl, by rw [if_neg (by omega)]⟩

-- A new holder of an object that is held.
theorem Exact.ref (h : Exact refCount frees holders) (hheld : 0 < holders) :
    Exact (refCount + 1) frees (holders + 1) := by
  obtain ⟨hcount, hfrees⟩ := h
  refine ⟨by omega, ?_⟩
  rw [hfrees, if_neg (by omega), if_neg (by omega)]

-- A holder lets go; the last one frees.
theorem Exact.unref (h : Exact refCount frees (holders + 1)) :
    Exact (refCount - 1) (if refCount - 1 ≤ 0 then frees + 1 else frees) holders := by
  obtain ⟨hcount, hfrees⟩ := h
  rw [if_neg (by omega)] at hfrees
  refine ⟨by omega, ?_⟩
  by_cases hlast : holders = 0
  · rw [if_pos (by omega), if_pos hlast, hfrees]
  · rw [if_neg (by omega), if_neg hlast, hfrees]

end Refs
