import Mathlib.Tactic
import Mathlib.Data.List.Perm.Basic

/-!
# Chains — a table of lists, each element in the list its index names

The storage of a hash table with separate chaining, without the hashes: `chain t i` is the list at
index `i`, and `Placed index t` says that every element is in the chain that `index` gives it.  The
contents of the table are its flattening up to permutation.
-/

namespace Chains

variable {α : Type} {t : List (List α)} {i : Nat} {a : α}

/-- The list at an index; there is none past the end of the table. -/
def chain (t : List (List α)) (i : Nat) : List α := t.getD i []

/-- Every element is in the chain of its index. -/
def Placed (index : α → Nat) (t : List (List α)) : Prop :=
  ∀ i, ∀ a ∈ chain t i, index a = i

theorem chain_modify (hi : i < t.length) (f : List α → List α) (j : Nat) :
    chain (t.modify i f) j = if i = j then f (chain t i) else chain t j := by
  unfold chain
  rw [List.getD_eq_getElem?_getD, List.getElem?_modify]
  split_ifs with h
  · subst h
    simp [hi]
  · simp

theorem chain_replicate (n j : Nat) : chain (List.replicate n ([] : List α)) j = [] := by
  unfold chain
  rw [List.getD_eq_getElem?_getD, List.getElem?_replicate]
  split <;> rfl

theorem mem_flatten_iff : a ∈ t.flatten ↔ ∃ i, a ∈ chain t i := by
  rw [List.mem_flatten]
  constructor
  · rintro ⟨l, hl, ha⟩
    obtain ⟨i, hi, rfl⟩ := List.mem_iff_getElem.mp hl
    exact ⟨i, by simpa [chain, hi] using ha⟩
  · rintro ⟨i, ha⟩
    by_cases hi : i < t.length
    · exact ⟨t[i], List.getElem_mem hi, by simpa [chain, hi] using ha⟩
    · simp [chain, hi] at ha

theorem Placed.mem_chain {index : α → Nat} (h : Placed index t) (ha : a ∈ t.flatten) :
    a ∈ chain t (index a) := by
  obtain ⟨i, hi⟩ := mem_flatten_iff.mp ha
  rwa [h i a hi]

theorem Placed.congr {index index' : α → Nat} (h : Placed index t)
    (heq : ∀ a ∈ t.flatten, index' a = index a) : Placed index' t := by
  intro i a ha
  rw [heq a (mem_flatten_iff.mpr ⟨i, ha⟩)]
  exact h i a ha

theorem placed_replicate (index : α → Nat) (n : Nat) : Placed index (List.replicate n []) := by
  intro i a ha
  rw [chain_replicate] at ha
  cases ha

/-! ## 1. Changing one chain -/

-- Taking one chain out of the table.
theorem flatten_perm (hi : i < t.length) : t.flatten.Perm (chain t i ++ (t.eraseIdx i).flatten) := by
  have h : t[i] = chain t i := by simp [chain, hi]
  rw [← h, ← List.flatten_cons]
  exact (List.getElem_cons_eraseIdx_perm hi).symm.flatten

theorem eraseIdx_modify (t : List (List α)) (i : Nat) (f : List α → List α) :
    (t.modify i f).eraseIdx i = t.eraseIdx i := by
  induction t generalizing i with
  | nil => simp
  | cons l t ih =>
    cases i with
    | zero => simp
    | succ i => simp [ih]

theorem flatten_modify_perm (hi : i < t.length) (f : List α → List α) :
    (t.modify i f).flatten.Perm (f (chain t i) ++ (t.eraseIdx i).flatten) := by
  have h := flatten_perm (t := t.modify i f) (i := i) (by rwa [List.length_modify])
  rwa [chain_modify hi, if_pos rfl, eraseIdx_modify] at h

-- Adding to the front of a chain adds one element to the contents.
theorem flatten_insert (hi : i < t.length) (a : α) :
    (t.modify i (a :: ·)).flatten.Perm (a :: t.flatten) :=
  (flatten_modify_perm hi _).trans ((flatten_perm hi).symm.cons a)

-- Taking an element out of its chain takes it out of the contents.
theorem flatten_erase [DecidableEq α] (hi : i < t.length) (ha : a ∈ chain t i) :
    (t.modify i (·.erase a)).flatten.Perm (t.flatten.erase a) := by
  have hsplit := (flatten_perm hi).erase a
  rw [List.erase_append_left _ ha] at hsplit
  exact (flatten_modify_perm hi _).trans hsplit.symm

theorem Placed.insert {index : α → Nat} (h : Placed index t) (hi : i < t.length)
    (ha : index a = i) : Placed index (t.modify i (a :: ·)) := by
  intro j b hb
  rw [chain_modify hi] at hb
  split_ifs at hb with hij
  · subst hij
    rcases List.mem_cons.mp hb with rfl | hb
    · exact ha
    · exact h i b hb
  · exact h j b hb

theorem Placed.erase [DecidableEq α] {index : α → Nat} (h : Placed index t) (hi : i < t.length) :
    Placed index (t.modify i (·.erase a)) := by
  intro j b hb
  rw [chain_modify hi] at hb
  split_ifs at hb with hij
  · subst hij
    exact h i b (List.mem_of_mem_erase hb)
  · exact h j b hb

-- Writing another element over one puts it into the contents instead.
theorem flatten_set [DecidableEq α] {n : Nat} (hi : i < t.length) (hn : n < (chain t i).length)
    (b : α) :
    (t.modify i (·.set n b)).flatten.Perm (b :: t.flatten.erase (chain t i)[n]) := by
  have hset : ((chain t i).set n b).Perm (b :: (chain t i).erase (chain t i)[n]) := by
    refine (List.set_perm_cons_eraseIdx hn b).trans (List.Perm.cons b ?_)
    have hcons := (List.getElem_cons_eraseIdx_perm hn).erase (chain t i)[n]
    rwa [List.erase_cons_head] at hcons
  have hsplit := (flatten_perm hi).erase (chain t i)[n]
  rw [List.erase_append_left _ (List.getElem_mem hn)] at hsplit
  calc
    (t.modify i (·.set n b)).flatten
        |>.Perm ((chain t i).set n b ++ (t.eraseIdx i).flatten) := flatten_modify_perm hi _
    List.Perm _ (b :: (chain t i).erase (chain t i)[n] ++ (t.eraseIdx i).flatten) :=
      hset.append_right _
    List.Perm _ (b :: t.flatten.erase (chain t i)[n]) := hsplit.symm.cons b

theorem Placed.set {index : α → Nat} (h : Placed index t) (hi : i < t.length) (ha : index a = i)
    (n : Nat) : Placed index (t.modify i (·.set n a)) := by
  intro j b hb
  rw [chain_modify hi] at hb
  split_ifs at hb with hij
  · subst hij
    rcases List.mem_or_eq_of_mem_set hb with hb | rfl
    · exact h i b hb
    · exact ha
  · exact h j b hb

/-! ## 2. Filling a table -/

/-- Each element of a list is put in front of the chain of its index. -/
def fill (index : α → Nat) (t : List (List α)) (l : List α) : List (List α) :=
  l.foldl (fun t a => t.modify (index a) (a :: ·)) t

@[simp] theorem length_fill (index : α → Nat) (t : List (List α)) (l : List α) :
    (fill index t l).length = t.length := by
  induction l generalizing t with
  | nil => rfl
  | cons a l ih => exact (ih _).trans (List.length_modify _ _ _)

variable {index : α → Nat} {l : List α}

theorem Placed.fill (h : Placed index t) (hl : ∀ a, index a < t.length) :
    Placed index (fill index t l) := by
  induction l generalizing t with
  | nil => exact h
  | cons a l ih =>
    apply ih (h.insert (hl a) rfl)
    intro b
    rw [List.length_modify]
    exact hl b

theorem flatten_fill (hl : ∀ a, index a < t.length) :
    (fill index t l).flatten.Perm (l ++ t.flatten) := by
  induction l generalizing t with
  | nil => exact List.Perm.refl _
  | cons a l ih =>
    have hrest := ih (t := t.modify (index a) (a :: ·)) (by simpa using hl)
    calc
      (fill index (t.modify (index a) (a :: ·)) l).flatten
          |>.Perm (l ++ (t.modify (index a) (a :: ·)).flatten) := hrest
      List.Perm _ (l ++ a :: t.flatten) := (flatten_insert (hl a) a).append_left l
      List.Perm _ (a :: l ++ t.flatten) := List.perm_middle

end Chains
