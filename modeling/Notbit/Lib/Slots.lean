import Mathlib.Tactic

/-!
# Slots — an allocator that hands freed slots out again

A slot keeps what was last written to it when it is freed, and the slot that was freed last is the
first to be handed out again.  `Divides` says that the slots in use and the free ones are all the
slots, each of them once.
-/

/-- The memory of the slots, and the stack of those that are free. -/
structure Slots (α : Type) where
  memory : List α
  free : List Nat

namespace Slots

variable {α : Type} {m : Slots α} {used : List Nat} {t u : Nat} {a : α}

def empty : Slots α := { memory := [], free := [] }

/-- The slot that is handed out next. -/
def next (m : Slots α) : Nat := m.free.headD m.memory.length

def alloc (m : Slots α) (a : α) : Slots α :=
  match m.free with
  | [] => { memory := m.memory ++ [a], free := [] }
  | t :: rest => { memory := m.memory.set t a, free := rest }

def release (m : Slots α) (t : Nat) : Slots α := { m with free := t :: m.free }

def modify (m : Slots α) (t : Nat) (f : α → α) : Slots α := { m with memory := m.memory.modify t f }

def Divides (m : Slots α) (used : List Nat) : Prop :=
  (used ++ m.free).Perm (List.range m.memory.length)

theorem Divides.nodup (h : m.Divides used) : (used ++ m.free).Nodup :=
  h.nodup_iff.mpr List.nodup_range

theorem Divides.mem_iff (h : m.Divides used) : t ∈ used ∨ t ∈ m.free ↔ t < m.memory.length := by
  rw [← List.mem_append, List.Perm.mem_iff h, List.mem_range]

-- A slot that is in use is not free.
theorem Divides.not_free (h : m.Divides used) (ht : t ∈ used) : t ∉ m.free :=
  fun hfree => (List.nodup_append.mp h.nodup).2.2 t ht t hfree rfl

theorem Divides.used_of_not_free (h : m.Divides used) (hlt : t < m.memory.length)
    (hfree : t ∉ m.free) : t ∈ used :=
  (h.mem_iff.mpr hlt).resolve_right hfree

theorem Divides.perm (h : m.Divides used) {used' : List Nat} (hperm : used'.Perm used) :
    m.Divides used' :=
  (hperm.append_right m.free).trans h

theorem divides_empty : (empty : Slots α).Divides [] := List.Perm.refl _

theorem Divides.next_not_used (h : m.Divides used) : m.next ∉ used := by
  intro hin
  cases hfree : m.free with
  | nil =>
    have hlt := h.mem_iff.mp (Or.inl hin)
    rw [next, hfree] at hlt
    exact absurd hlt (lt_irrefl _)
  | cons t rest =>
    apply h.not_free hin
    rw [next, hfree]
    exact List.mem_cons_self

theorem Divides.alloc (h : m.Divides used) (a : α) : (m.alloc a).Divides (m.next :: used) := by
  unfold Divides at h ⊢
  unfold Slots.alloc next
  cases hfree : m.free with
  | nil =>
    rw [hfree, List.append_nil] at h
    simp only [List.headD_nil, List.append_nil, List.length_append, List.length_singleton,
      List.range_succ]
    exact (h.cons m.memory.length).trans (List.perm_append_singleton _ _).symm
  | cons t rest =>
    rw [hfree] at h
    simp only [List.headD_cons, List.length_set, List.cons_append]
    exact List.perm_middle.symm.trans h

theorem Divides.alloc_next (h : m.Divides used) (a : α) : (m.alloc a).memory[m.next]? = some a := by
  unfold Slots.alloc next
  cases hfree : m.free with
  | nil => simp
  | cons t rest =>
    have hlt : t < m.memory.length := h.mem_iff.mp (Or.inr (hfree ▸ List.mem_cons_self))
    simp [hlt]

theorem alloc_of_ne (hlt : t < m.memory.length) (hne : t ≠ m.next) (a : α) :
    (m.alloc a).memory[t]? = m.memory[t]? := by
  unfold Slots.alloc next at *
  cases hfree : m.free with
  | nil => exact List.getElem?_append_left hlt
  | cons u rest =>
    rw [hfree] at hne
    exact List.getElem?_set_ne fun heq => hne heq.symm

-- A slot in use keeps its content.
theorem Divides.alloc_used (h : m.Divides used) (ht : t ∈ used) (a : α) :
    (m.alloc a).memory[t]? = m.memory[t]? :=
  alloc_of_ne (h.mem_iff.mp (Or.inl ht)) (fun heq => h.next_not_used (heq ▸ ht)) a

-- A slot has the new content or its old one.
theorem mem_alloc {b : α} (hb : (m.alloc a).memory[t]? = some b) : b = a ∨ m.memory[t]? = some b := by
  unfold Slots.alloc at hb
  cases hfree : m.free with
  | nil =>
    simp only [hfree, List.getElem?_append] at hb
    split at hb
    · exact Or.inr hb
    · rw [List.getElem?_singleton] at hb
      split at hb
      · exact Or.inl (Option.some.inj hb).symm
      · cases hb
  | cons u rest =>
    simp only [hfree, List.getElem?_set] at hb
    split at hb
    · split at hb
      · exact Or.inl (Option.some.inj hb).symm
      · cases hb
    · exact Or.inr hb

theorem length_alloc (m : Slots α) (a : α) : m.memory.length ≤ (m.alloc a).memory.length := by
  unfold Slots.alloc
  cases m.free <;> simp

theorem Divides.release (h : m.Divides (t :: used)) : (m.release t).Divides used :=
  List.perm_middle.trans h

theorem Divides.modify (h : m.Divides used) (f : α → α) : (m.modify t f).Divides used := by
  unfold Divides Slots.modify
  rw [List.length_modify]
  exact h

end Slots
