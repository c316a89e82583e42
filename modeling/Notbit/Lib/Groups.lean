import Mathlib.Tactic
import Mathlib.Data.List.Nodup

/-!
# Groups — a list in which the entries with one key stand together

A list that is kept in groups is never sorted: a new entry goes to its group, or to the front when
it is the first one with its key.  What is found at the first entry of a group and behind it is the
whole group.
-/

namespace Groups

variable {α κ : Type} {f f' : α → κ} {l l' l₁ l₂ : List α} {a b : α} {k : κ}

/-- Between two entries with one key there are only entries with that key. -/
def Grouped (f : α → κ) (l : List α) : Prop :=
  ∀ k k', [k, k', k].Sublist (l.map f) → k' = k

theorem grouped_nil : Grouped f [] := by
  intro k k' h
  cases h

theorem Grouped.sublist (h : Grouped f l) (hl : l'.Sublist l) : Grouped f l' :=
  fun k k' hsub => h k k' (hsub.trans (hl.map f))

theorem Grouped.congr (h : Grouped f l) (heq : ∀ a ∈ l, f' a = f a) : Grouped f' l := by
  unfold Grouped
  rw [List.map_congr_left heq]
  exact h

/-! ## 1. New entries -/

-- The first entry with its key goes to the front.
theorem Grouped.cons (h : Grouped f l) (hnew : ∀ b ∈ l, f b ≠ f a) : Grouped f (a :: l) := by
  intro k k' hsub
  rw [List.map_cons, List.sublist_cons_iff] at hsub
  rcases hsub with hsub | ⟨rest, heq, hsub⟩
  · exact h k k' hsub
  · cases heq
    have hmem : f a ∈ l.map f := hsub.subset (by simp)
    obtain ⟨b, hb, hkey⟩ := List.mem_map.mp hmem
    exact absurd hkey (hnew b hb)

-- Any other goes behind one of its group.
theorem Grouped.insert (h : Grouped f (l₁ ++ a :: l₂)) (heq : f b = f a) :
    Grouped f (l₁ ++ a :: b :: l₂) := by
  intro k k' hsub
  have hold := h k k'
  simp only [List.map_append, List.map_cons, heq] at hsub hold
  obtain ⟨front, back, hsplit, hfront, hback⟩ := List.sublist_append_iff.mp hsub
  rw [hsplit] at hold
  rcases List.sublist_cons_iff.mp hback with hback | ⟨rest, rfl, hrest⟩
  · exact hold (hfront.append hback)
  · rcases List.sublist_cons_iff.mp hrest with hrest | ⟨rest, rfl, -⟩
    · exact hold (hfront.append (hrest.cons_cons _))
    · -- both entries are used, and so the middle one is one of them
      match front with
      | [] =>
        simp only [List.nil_append, List.cons.injEq] at hsplit
        rw [hsplit.1, hsplit.2.1]
      | [c] =>
        simp only [List.cons_append, List.nil_append, List.cons.injEq] at hsplit
        rw [hsplit.2.1, hsplit.2.2.1]
      | _ :: _ :: front =>
        have hlength := congrArg List.length hsplit
        simp only [List.length_cons, List.length_nil, List.length_append] at hlength
        omega

/-! ## 2. Finding a group -/

section Find

variable [DecidableEq κ]

theorem find?_eq_none : l.find? (f · = k) = none ↔ ∀ a ∈ l, f a ≠ k := by
  simp [List.find?_eq_none]

theorem find?_eq_some :
    l.find? (f · = k) = some a ↔
      f a = k ∧ ∃ l₁ l₂, l = l₁ ++ a :: l₂ ∧ ∀ b ∈ l₁, f b ≠ k := by
  simp [List.find?_eq_some_iff_append]

-- What has another key is passed over.
theorem find?_append_cons_of_ne (hne : f a ≠ k) (l₁ l₂ : List α) :
    (l₁ ++ a :: l₂).find? (f · = k) = (l₁ ++ l₂).find? (f · = k) := by
  simp [hne]

-- Behind an entry, its group ends with the first entry of another.
theorem Grouped.takeWhile_eq_filter (h : Grouped f (a :: l)) :
    l.takeWhile (f · = f a) = l.filter (f · = f a) := by
  induction l with
  | nil => rfl
  | cons b l ih =>
    by_cases hb : f b = f a
    · have hrest := ih (h.sublist ((List.sublist_cons_self b l).cons_cons a))
      simp [hb, hrest]
    · have hnone : l.filter (f · = f a) = [] := by
        rw [List.filter_eq_nil_iff]
        intro c hc heq
        have hsub : [a, b, c].Sublist (a :: b :: l) :=
          ((List.singleton_sublist.mpr hc).cons_cons b).cons_cons a
        have hkeys := hsub.map f
        simp only [List.map_cons, List.map_nil, of_decide_eq_true heq] at hkeys
        exact hb (h _ _ hkeys)
      simp [hb, hnone]

variable [DecidableEq α]

theorem takeWhile_ne (ha : a ∉ l₁) (l₂ : List α) :
    (l₁ ++ a :: l₂).takeWhile (· ≠ a) = l₁ := by
  rw [List.takeWhile_append_of_pos]
  · simp
  · intro b hb
    exact decide_eq_true fun heq => ha (heq ▸ hb)

theorem dropWhile_ne (ha : a ∉ l₁) (l₂ : List α) :
    (l₁ ++ a :: l₂).dropWhile (· ≠ a) = a :: l₂ := by
  rw [List.dropWhile_append_of_pos]
  · simp
  · intro b hb
    exact decide_eq_true fun heq => ha (heq ▸ hb)

-- From the first entry of a group to the end of the group.
theorem Grouped.group_eq (h : Grouped f l) (hfirst : l.find? (f · = k) = some a) :
    (l.dropWhile (· ≠ a)).takeWhile (f · = k) = l.filter (f · = k) := by
  obtain ⟨rfl, l₁, l₂, rfl, hl₁⟩ := find?_eq_some.mp hfirst
  have ha : a ∉ l₁ := fun hmem => hl₁ a hmem rfl
  have hnone : l₁.filter (f · = f a) = [] := by
    rw [List.filter_eq_nil_iff]
    intro b hb
    simpa using hl₁ b hb
  have hgroup := (h.sublist (List.sublist_append_right l₁ _)).takeWhile_eq_filter
  rw [dropWhile_ne ha, List.filter_append, hnone, List.nil_append]
  simpa using hgroup

end Find

/-! ## 3. The neighbours of an entry -/

-- If there are entries of the group in front, then the one right in front is one.
theorem Grouped.getLast?_of_mem (h : Grouped f (l₁ ++ a :: l₂)) (hb : b ∈ l₁) (heq : f b = f a) :
    ∃ c, l₁.getLast? = some c ∧ f c = f a := by
  obtain ⟨front, c, rfl⟩ := List.eq_nil_or_concat l₁ |>.resolve_left (List.ne_nil_of_mem hb)
  refine ⟨c, by simp, ?_⟩
  rw [List.concat_eq_append] at h hb
  rcases List.mem_append.mp hb with hb | hb
  · refine h (f a) (f c) ?_
    have hsub : [b, c, a].Sublist (front ++ [c] ++ a :: l₂) :=
      ((List.singleton_sublist.mpr hb).append (List.Sublist.refl [c])).append
        ((List.nil_sublist l₂).cons_cons a)
    simpa [heq] using hsub.map f
  · rw [← List.mem_singleton.mp hb]
    exact heq

-- If there are entries of the group behind, then the next one is one.
theorem Grouped.head?_of_mem (h : Grouped f (l₁ ++ a :: l₂)) (hb : b ∈ l₂) (heq : f b = f a) :
    ∃ c, l₂.head? = some c ∧ f c = f a := by
  cases l₂ with
  | nil => cases hb
  | cons c back =>
    refine ⟨c, rfl, ?_⟩
    rcases List.mem_cons.mp hb with rfl | hb
    · exact heq
    · refine h (f a) (f c) ?_
      have hsub : [a, c, b].Sublist (l₁ ++ a :: c :: back) :=
        (((List.singleton_sublist.mpr hb).cons_cons c).cons_cons a).trans (List.sublist_append_right l₁ _)
      simpa [heq] using hsub.map f

end Groups
