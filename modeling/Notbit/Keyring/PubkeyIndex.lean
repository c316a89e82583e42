import Notbit.HashTable
import Notbit.Lib.Groups

/-!
# PubkeyIndex — a list in groups, and a table of the first entry of each group (`ntb-keyring.c`)

The pubkey objects are in one list and the table points into the middle of it.  `Indexes` says how
the two belong together, for entries of any kind; the cases of its operations are those of
`handle_pubkey` and of `remove_pubkey_blob`.
-/

open Groups

namespace Notbit.Keyring

variable {α : Type}

/-- The entries of a group are next to each other, and the table has the first of each group and
nothing else. -/
structure Indexes (f : α → Hash) (l : List α) (t : HashTable α) : Prop where
  nodup : l.Nodup
  grouped : Grouped f l
  wf : t.WF f
  first : ∀ a, a ∈ t.values ↔ l.find? (f · = f a) = some a

variable {f : α → Hash} {l l₁ l₂ : List α} {t : HashTable α} {p q : α}

namespace Indexes

theorem new (f : α → Hash) : Indexes f [] (HashTable.new : HashTable α) where
  nodup := List.nodup_nil
  grouped := grouped_nil
  wf := HashTable.wf_new
  first a := by simp [HashTable.values, HashTable.new]

theorem mem_of_values (h : Indexes f l t) (hp : p ∈ t.values) : p ∈ l :=
  List.mem_of_find?_eq_some ((h.first p).mp hp)

-- What is not in the list may change.
theorem congr (h : Indexes f l t) {f' : α → Hash} (heq : ∀ a ∈ l, f' a = f a) :
    Indexes f' l t where
  nodup := h.nodup
  grouped := h.grouped.congr heq
  wf := h.wf.congr fun a ha => heq a (h.mem_of_values ha)
  first a := by
    have hfind : ∀ k, l.find? (f' · = k) = l.find? (f · = k) := fun k =>
      List.find?_congr fun b hb => by rw [heq b hb]
    by_cases ha : a ∈ l
    · rw [hfind, heq a ha]
      exact h.first a
    · exact iff_of_false (fun hmem => ha (h.mem_of_values hmem))
        fun hmem => ha (List.mem_of_find?_eq_some hmem)

/-! ## 1. Looking up -/

theorem get_eq (h : Indexes f l t) (k : Hash) : t.get f k = l.find? (f · = k) := by
  cases hfind : l.find? (f · = k) with
  | none =>
    rw [h.wf.get_eq_none]
    intro a ha heq
    have hfirst := (h.first a).mp ha
    rw [heq, hfind] at hfirst
    cases hfirst
  | some a =>
    obtain ⟨rfl, -⟩ := find?_eq_some.mp hfind
    exact h.wf.get_eq_some.mpr ⟨(h.first a).mpr hfind, rfl⟩

theorem filter_eq_nil (h : Indexes f l t) {k : Hash} (hget : t.get f k = none) :
    l.filter (f · = k) = [] := by
  rw [h.get_eq, find?_eq_none] at hget
  rw [List.filter_eq_nil_iff]
  intro a ha
  simpa using hget a ha

-- The group that the table leads to.
theorem group_eq [DecidableEq α] (h : Indexes f l t) {k : Hash} (hget : t.get f k = some p) :
    (l.dropWhile (· ≠ p)).takeWhile (f · = k) = l.filter (f · = k) :=
  h.grouped.group_eq (h.get_eq k ▸ hget)

/-! ## 2. New entries -/

-- The first of its group goes to the front of the list and into the table.
theorem insert_first (h : Indexes f l t) (hget : t.get f (f p) = none) :
    Indexes f (p :: l) (t.set f p).2 := by
  have hnew : ∀ a ∈ l, f a ≠ f p := find?_eq_none.mp (h.get_eq (f p) ▸ hget)
  obtain ⟨hvalues, hwf⟩ := h.wf.set_new (h.wf.get_eq_none.mp hget)
  refine ⟨?_, h.grouped.cons hnew, hwf, fun a => ?_⟩
  · exact List.nodup_cons.mpr ⟨fun hp => hnew p hp rfl, h.nodup⟩
  · rw [hvalues.mem_iff, List.mem_cons, h.first]
    by_cases hkey : f p = f a
    · have hnone : l.find? (f · = f a) ≠ some a := by
        rw [← hkey, ← h.get_eq, hget]
        nofun
      have hfind : (p :: l).find? (f · = f a) = some p := by simp [hkey]
      rw [hfind, Option.some.injEq, eq_comm]
      exact or_iff_left hnone
    · have hne : a ≠ p := fun heq => hkey (heq ▸ rfl)
      have hfind : (p :: l).find? (f · = f a) = l.find? (f · = f a) := by simp [hkey]
      rw [hfind]
      exact or_iff_right hne

-- Any other goes behind the first of its group.
theorem insert_behind [DecidableEq α] (h : Indexes f l t) (hp : p ∉ l) (hget : t.get f (f p) = some q) :
    Indexes f (l.takeWhile (· ≠ q) ++ q :: p :: (l.dropWhile (· ≠ q)).tail) t := by
  obtain ⟨hkey, l₁, l₂, rfl, hl₁⟩ := find?_eq_some.mp (h.get_eq (f p) ▸ hget)
  have hq : q ∉ l₁ := fun hmem => hl₁ q hmem hkey
  rw [takeWhile_ne hq, dropWhile_ne hq, List.tail_cons]
  refine ⟨?_, h.grouped.insert hkey.symm, h.wf, fun a => ?_⟩
  · have hperm : (l₁ ++ q :: p :: l₂).Perm (p :: (l₁ ++ q :: l₂)) :=
      ((List.Perm.swap p q l₂).append_left l₁).trans List.perm_middle
    rw [hperm.nodup_iff]
    exact List.nodup_cons.mpr ⟨hp, h.nodup⟩
  · -- the new one is passed over with the one in front of it, or hidden by it
    have hfind : (l₁ ++ q :: p :: l₂).find? (f · = f a) = (l₁ ++ q :: l₂).find? (f · = f a) := by
      by_cases hpa : f p = f a
      · simp [List.find?_append, hkey, hpa]
      · simp [List.find?_append, hkey, hpa]
    rw [hfind]
    exact h.first a

/-! ## 3. Removing an entry -/

section Remove

variable (h : Indexes f (l₁ ++ p :: l₂) t)

include h

theorem split : p ∉ l₁ ∧ p ∉ l₂ := by
  have hnodup := List.nodup_middle.mp h.nodup
  have hp := (List.nodup_cons.mp hnodup).1
  exact ⟨fun hmem => hp (List.mem_append_left _ hmem), fun hmem => hp (List.mem_append_right _ hmem)⟩

theorem nodup_rest : (l₁ ++ l₂).Nodup :=
  (List.nodup_cons.mp (List.nodup_middle.mp h.nodup)).2

theorem grouped_rest : Grouped f (l₁ ++ l₂) :=
  h.grouped.sublist ((List.sublist_cons_self p l₂).append_left l₁)

-- An entry of another group does not notice.
theorem first_of_ne {a : α} (hne : f p ≠ f a) :
    a ∈ t.values ↔ (l₁ ++ l₂).find? (f · = f a) = some a := by
  rw [h.first, find?_append_cons_of_ne hne]

-- The entry in front is of the same group, and the table stays as it is.
theorem remove_member (hq : l₁.getLast? = some q) (hkey : f q = f p) : Indexes f (l₁ ++ l₂) t := by
  refine ⟨h.nodup_rest, h.grouped_rest, h.wf, fun a => ?_⟩
  by_cases hpa : f p = f a
  · have hmem : q ∈ l₁ := List.mem_of_getLast? hq
    have hsome : (l₁.find? (f · = f a)).isSome := by
      rw [List.find?_isSome]
      exact ⟨q, hmem, decide_eq_true (hkey.trans hpa)⟩
    obtain ⟨b, hb⟩ := Option.isSome_iff_exists.mp hsome
    rw [h.first, List.find?_append, List.find?_append, hb]
    rfl
  · exact h.first_of_ne hpa

variable (hprev : ∀ q, l₁.getLast? = some q → f q ≠ f p)

include hprev

theorem ne_of_prev : ∀ b ∈ l₁, f b ≠ f p := by
  intro b hb heq
  obtain ⟨c, hlast, hkey⟩ := h.grouped.getLast?_of_mem hb heq
  exact hprev c hlast hkey

theorem find?_of_prev : (l₁ ++ p :: l₂).find? (f · = f p) = some p :=
  find?_eq_some.mpr ⟨rfl, l₁, l₂, rfl, h.ne_of_prev hprev⟩

theorem mem_values : p ∈ t.values := (h.first p).mpr (h.find?_of_prev hprev)

-- In the table there is no other of the group.
theorem eq_of_values {a : α} (ha : a ∈ t.values) (hkey : f p = f a) : a = p :=
  h.wf.eq_of_hash ha (h.mem_values hprev) hkey.symm

variable [DecidableEq α]

/-- The first of a group hands the table on to the next one. -/
theorem remove_first (hq : l₂.head? = some q) (hkey : f q = f p) :
    Indexes f (l₁ ++ l₂) (t.set f q).2 := by
  obtain ⟨hvalues, hwf⟩ := h.wf.set_old (h.mem_values hprev) hkey.symm
  refine ⟨h.nodup_rest, h.grouped_rest, hwf, fun a => ?_⟩
  rw [hvalues.mem_iff, List.mem_cons]
  by_cases hpa : f p = f a
  · have hfind : (l₁ ++ l₂).find? (f · = f a) = some q := by
      cases l₂ with
      | nil => cases hq
      | cons c back =>
        cases hq
        refine find?_eq_some.mpr ⟨hkey.trans hpa, l₁, back, rfl, fun b hb => ?_⟩
        rw [← hpa]
        exact h.ne_of_prev hprev b hb
    have hout : a ∉ t.values.erase p := by
      intro ha
      have heq := h.eq_of_values hprev (List.mem_of_mem_erase ha) hpa
      rw [heq, h.wf.nodup.mem_erase_iff] at ha
      exact ha.1 rfl
    rw [hfind, Option.some.injEq]
    exact ⟨fun hor => (hor.resolve_right hout).symm, fun heq => Or.inl heq.symm⟩
  · have haq : a ≠ q := fun heq => hpa (heq ▸ hkey.symm)
    have hap : a ≠ p := fun heq => hpa (heq ▸ rfl)
    rw [List.mem_erase_of_ne hap, ← h.first_of_ne hpa]
    exact or_iff_right haq

-- The only one of a group leaves the table.
theorem remove_only (hnext : ∀ q, l₂.head? = some q → f q ≠ f p) :
    Indexes f (l₁ ++ l₂) (t.remove p (f p)).2 := by
  obtain ⟨-, hvalues, hwf⟩ := h.wf.remove_mem (h.mem_values hprev)
  refine ⟨h.nodup_rest, h.grouped_rest, hwf, fun a => ?_⟩
  rw [hvalues.mem_iff, h.wf.nodup.mem_erase_iff]
  by_cases hpa : f p = f a
  · have hnone : (l₁ ++ l₂).find? (f · = f a) = none := by
      refine find?_eq_none.mpr fun b hb heq => ?_
      rw [← hpa] at heq
      rcases List.mem_append.mp hb with hb | hb
      · exact h.ne_of_prev hprev b hb heq
      · obtain ⟨c, hhead, hkey⟩ := h.grouped.head?_of_mem hb heq
        exact hnext c hhead hkey
    rw [hnone]
    exact iff_of_false (fun ha => ha.1 (h.eq_of_values hprev ha.2 hpa)) nofun
  · have hap : a ≠ p := fun heq => hpa (heq ▸ rfl)
    rw [← h.first_of_ne hpa]
    exact and_iff_right hap

end Remove

end Indexes

end Notbit.Keyring
