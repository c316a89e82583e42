import Mathlib.Tactic

/-!
# Keyed — lists whose entries are told apart by a key

A list of records with distinct keys stands for linked structures that are reached by a pointer.  An
update or a removal by key touches one place of the list, so that a count over the list changes by
what that one entry counts.
-/

namespace Keyed

variable {α : Type} {key : α → Nat} {l : List α} {a b : α} {k : Nat} {f : α → α} {p : α → Bool}

/-- The entries with the key are changed. -/
def update (key : α → Nat) (l : List α) (k : Nat) (f : α → α) : List α :=
  l.map fun b => if key b = k then f b else b

/-- The entries with the key are taken out. -/
def remove (key : α → Nat) (l : List α) (k : Nat) : List α := l.filter fun b => key b ≠ k

theorem map_key_update (hf : ∀ b, key (f b) = key b) (l : List α) (k : Nat) :
    (update key l k f).map key = l.map key := by
  rw [update, List.map_map]
  apply List.map_congr_left
  intro b _
  simp only [Function.comp]
  split
  · exact hf b
  · rfl

theorem mem_update : b ∈ update key l k f ↔ ∃ c ∈ l, (if key c = k then f c else c) = b :=
  List.mem_map

theorem mem_remove : b ∈ remove key l k ↔ b ∈ l ∧ key b ≠ k := by
  rw [remove, List.mem_filter, decide_eq_true_eq]

theorem nodup_remove (hl : (l.map key).Nodup) (k : Nat) : ((remove key l k).map key).Nodup :=
  hl.sublist (List.filter_sublist.map key)

-- An entry is determined by its key.
theorem eq_of_key (hl : (l.map key).Nodup) (ha : a ∈ l) (hb : b ∈ l) (hkey : key a = key b) :
    a = b :=
  List.inj_on_of_nodup_map hl ha hb hkey

theorem update_of_ne (h : ∀ b ∈ l, key b ≠ k) : update key l k f = l := by
  have hsame : l.map (fun b => if key b = k then f b else b) = l.map id := by
    apply List.map_congr_left
    intro b hb
    rw [if_neg (h b hb), id]
  rw [update, hsame, List.map_id]

theorem remove_of_ne (h : ∀ b ∈ l, key b ≠ k) : remove key l k = l := by
  rw [remove, List.filter_eq_self]
  intro b hb
  exact decide_eq_true (h b hb)

-- The place of an entry: nothing else in the list has its key.
theorem exists_split (hl : (l.map key).Nodup) (ha : a ∈ l) :
    ∃ l₁ l₂, l = l₁ ++ a :: l₂ ∧ (∀ b ∈ l₁, key b ≠ key a) ∧ ∀ b ∈ l₂, key b ≠ key a := by
  obtain ⟨l₁, l₂, rfl⟩ := List.append_of_mem ha
  rw [List.map_append, List.map_cons, List.nodup_append] at hl
  obtain ⟨-, hafter, hapart⟩ := hl
  refine ⟨l₁, l₂, rfl, ?_, ?_⟩
  · intro b hb
    exact hapart (key b) (List.mem_map_of_mem hb) (key a) List.mem_cons_self
  · intro b hb heq
    exact (List.nodup_cons.mp hafter).1 (heq ▸ List.mem_map_of_mem hb)

theorem countP_update (hl : (l.map key).Nodup) (ha : a ∈ l) (f : α → α) (p : α → Bool) :
    (update key l (key a) f).countP p + (p a).toNat = l.countP p + (p (f a)).toNat := by
  obtain ⟨l₁, l₂, rfl, hbefore, hbehind⟩ := exists_split hl ha
  have hsplit : update key (l₁ ++ a :: l₂) (key a) f = l₁ ++ f a :: l₂ := by
    have hfirst : update key l₁ (key a) f = l₁ := update_of_ne hbefore
    have hlast : update key l₂ (key a) f = l₂ := update_of_ne hbehind
    rw [update] at hfirst hlast ⊢
    rw [List.map_append, List.map_cons, hfirst, hlast, if_pos rfl]
  rw [hsplit, List.countP_append, List.countP_append, List.countP_cons, List.countP_cons]
  cases p a <;> cases p (f a) <;> simp only [Bool.toNat_true, Bool.toNat_false, if_true,
    Bool.false_eq_true, if_false] <;> omega

theorem countP_remove (hl : (l.map key).Nodup) (ha : a ∈ l) (p : α → Bool) :
    (remove key l (key a)).countP p + (p a).toNat = l.countP p := by
  obtain ⟨l₁, l₂, rfl, hbefore, hbehind⟩ := exists_split hl ha
  have hsplit : remove key (l₁ ++ a :: l₂) (key a) = l₁ ++ l₂ := by
    have hfirst : remove key l₁ (key a) = l₁ := remove_of_ne hbefore
    have hlast : remove key l₂ (key a) = l₂ := remove_of_ne hbehind
    rw [remove] at hfirst hlast ⊢
    rw [List.filter_append, List.filter_cons_of_neg (by simp), hfirst, hlast]
  rw [hsplit, List.countP_append, List.countP_append, List.countP_cons]
  cases p a with
  | true =>
    simp only [Bool.toNat_true, if_true]
    omega
  | false => simp

-- Entries that are all counted are taken out.
theorem countP_filter_not {q : α → Bool} (hq : ∀ b, q b = true → p b = true) (l : List α) :
    (l.filter fun b => !q b).countP p + (l.filter q).length = l.countP p := by
  induction l with
  | nil => rfl
  | cons b l ih =>
    cases hb : q b with
    | true =>
      rw [List.filter_cons_of_neg (by simp [hb]), List.filter_cons_of_pos hb, List.length_cons,
        List.countP_cons_of_pos (hq b hb)]
      omega
    | false =>
      rw [List.filter_cons_of_pos (by simp [hb]), List.filter_cons_of_neg (by simp [hb]),
        List.countP_cons, List.countP_cons]
      omega

end Keyed
