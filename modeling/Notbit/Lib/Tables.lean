import Mathlib.Tactic

/-!
# Tables — objects that the rest of a program knows by their numbers

A table is a list of objects; their numbers are used in queues, by threads and in other lists.  What
all of these have to do with one number is its view.  `Fits` says that every object fits its view and
that a number behind the end of the table is used nowhere.
-/

namespace Tables

variable {C V : Type}

def FitsAt (P : V → C → Prop) (absent v : V) : Option C → Prop
  | none => v = absent
  | some c => P v c

def Fits (P : V → C → Prop) (absent : V) (view : Nat → V) (table : List C) : Prop :=
  ∀ id, FitsAt P absent (view id) table[id]?

variable {P : V → C → Prop} {absent : V} {view view' : Nat → V} {table table' : List C} {id : Nat}
  {c : C}

theorem Fits.get (h : Fits P absent view table) (hc : table[id]? = some c) : P (view id) c := by
  have hfits := h id
  rwa [hc] at hfits

theorem Fits.unused (h : Fits P absent view table) (hc : table[id]? = none) : view id = absent := by
  have hfits := h id
  rwa [hc] at hfits

-- A number that is used somewhere has an object.
theorem Fits.exists (h : Fits P absent view table) (id : Nat) (hused : view id ≠ absent) :
    ∃ c, table[id]? = some c := by
  cases hc : table[id]? with
  | none => exact absurd (h.unused hc) hused
  | some c => exact ⟨c, rfl⟩

theorem Fits.nil (h : ∀ id, view id = absent) : Fits P absent view ([] : List C) := h

-- A step that has to do with one object only.
theorem Fits.of_one (h : Fits P absent view table) (id : Nat)
    (hothers : ∀ j, j ≠ id → view' j = view j ∧ table'[j]? = table[j]?)
    (hc : table'[id]? = some c) (hfits : P (view' id) c) : Fits P absent view' table' := by
  intro j
  by_cases hj : j = id
  · subst hj
    rw [hc]
    exact hfits
  · obtain ⟨hview, hentry⟩ := hothers j hj
    rw [hview, hentry]
    exact h j

-- A step that has to do with no object.
theorem Fits.of_none (h : Fits P absent view table) (hview : ∀ j, view' j = view j) :
    Fits P absent view' table := by
  intro j
  rw [hview]
  exact h j

-- A step that adds an object.
theorem Fits.concat (h : Fits P absent view table)
    (hothers : ∀ j, j ≠ table.length → view' j = view j) (hfits : P (view' table.length) c) :
    Fits P absent view' (table ++ [c]) := by
  apply h.of_one table.length (c := c)
  · intro j hj
    refine ⟨hothers j hj, ?_⟩
    rw [List.getElem?_append]
    split
    · rfl
    · rw [List.getElem?_eq_none (by simp; omega), List.getElem?_eq_none (by omega)]
  · rw [List.getElem?_concat_length]
  · exact hfits

-- The number of a new object was not used before.
theorem Fits.unused_length (h : Fits P absent view table) : view table.length = absent :=
  h.unused (List.getElem?_eq_none (le_refl _))

-- A step that changes one object.
theorem Fits.modify {f : C → C} (h : Fits P absent view table)
    (hothers : ∀ j, j ≠ id → view' j = view j) (hc : table[id]? = some c)
    (hfits : P (view' id) (f c)) : Fits P absent view' (table.modify id f) := by
  apply h.of_one id (c := f c)
  · intro j hj
    refine ⟨hothers j hj, ?_⟩
    rw [List.getElem?_modify_ne _ _ (fun heq => hj heq.symm)]
  · rw [List.getElem?_modify_eq, hc]
    rfl
  · exact hfits

/-! A list of numbers from which one is taken out if some flag of its object says that it is in. -/

variable {l : List Nat} {flag : Prop} [Decidable flag]

theorem nodup_erase_if (h : l.Nodup) (id : Nat) : (if flag then l.erase id else l).Nodup := by
  split
  · exact h.erase id
  · exact h

theorem mem_erase_if (h : l.Nodup) (hflag : id ∈ l → flag) (j : Nat) :
    j ∈ (if flag then l.erase id else l) ↔ j ≠ id ∧ j ∈ l := by
  by_cases hf : flag
  · rw [if_pos hf]
    exact h.mem_erase_iff
  · rw [if_neg hf]
    refine ⟨fun hj => ⟨?_, hj⟩, fun hj => hj.2⟩
    rintro rfl
    exact hf (hflag hj)

end Tables
