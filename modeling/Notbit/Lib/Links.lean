import Notbit.Lib.Bytes

/-!
# Links — lists that are threaded through memory by pointers

A pointer is kept in the eight bytes from an address on; the order of these bytes plays no part.  A
list is linked when each of its cells holds the pointer to the next one and the last holds the null
pointer.
-/

open Bytes

namespace Links

variable {mem mem' : Memory} {a b p head : Nat} {as : List Nat}

def pointerSize : Nat := 8

/-- The pointer that is kept at an address. -/
def load (mem : Memory) (a : Nat) : Nat := ofBE (window mem a pointerSize)

/-- A pointer is written to an address. -/
def store (mem : Memory) (a p : Nat) : Memory := fun i =>
  if a ≤ i ∧ i < a + pointerSize then (toBE pointerSize p).getD (i - a) 0 else mem i

theorem store_of_outside {i : Nat} (hi : i < a ∨ a + pointerSize ≤ i) : store mem a p i = mem i :=
  if_neg (by omega)

theorem load_congr (hsame : ∀ i, a ≤ i → i < a + pointerSize → mem' i = mem i) :
    load mem' a = load mem a := by
  unfold load window
  congr 1
  apply List.map_congr_left
  intro i hi
  rw [List.mem_range] at hi
  exact hsame (a + i) (by omega) (by omega)

theorem load_store (hp : p < 2 ^ 64) : load (store mem a p) a = p := by
  have hwindow : window (store mem a p) a pointerSize = toBE pointerSize p := by
    apply List.ext_getElem
    · rw [length_window, length_toBE]
    · intro i hi hi'
      rw [length_window] at hi
      rw [getElem_window, store, if_pos (by omega), Nat.add_sub_cancel_left,
        List.getD_eq_getElem?_getD, List.getElem?_eq_getElem hi', Option.getD_some]
  rw [load, hwindow, ofBE_toBE_of_lt]
  exact hp

theorem load_store_of_apart (hapart : a + pointerSize ≤ b ∨ b + pointerSize ≤ a) :
    load (store mem a p) b = load mem b := by
  apply load_congr
  intro i hlow hhigh
  exact store_of_outside (by omega)

/-- The cells of the list that starts at `head`. -/
def Linked (mem : Memory) : Nat → List Nat → Prop
  | head, [] => head = 0
  | head, a :: as => head = a ∧ a ≠ 0 ∧ Linked mem (load mem a) as

theorem Linked.eq_nil (h : Linked mem 0 as) : as = [] := by
  cases as with
  | nil => rfl
  | cons a as => exact absurd h.1.symm h.2.1

theorem Linked.exists_cons (h : Linked mem head as) (hhead : head ≠ 0) :
    ∃ rest, as = head :: rest ∧ Linked mem (load mem head) rest := by
  cases as with
  | nil => exact absurd h hhead
  | cons a rest =>
    obtain ⟨rfl, -, hrest⟩ := h
    exact ⟨rest, rfl, hrest⟩

theorem Linked.head_eq (h : Linked mem head (a :: as)) : head = a := h.1

-- A list stays linked where its cells keep their pointers.
theorem Linked.congr (h : Linked mem head as) (hsame : ∀ a ∈ as, load mem' a = load mem a) :
    Linked mem' head as := by
  induction as generalizing head with
  | nil => exact h
  | cons a as ih =>
    obtain ⟨hhead, hne, hrest⟩ := h
    refine ⟨hhead, hne, ?_⟩
    rw [hsame a List.mem_cons_self]
    exact ih hrest fun b hb => hsame b (List.mem_cons_of_mem a hb)

-- A cell that lies apart from the others is linked in front of them.
theorem Linked.push (h : Linked mem head as) (ha : a ≠ 0) (hhead : head < 2 ^ 64)
    (hapart : ∀ b ∈ as, a + pointerSize ≤ b ∨ b + pointerSize ≤ a) :
    Linked (store mem a head) a (a :: as) := by
  refine ⟨rfl, ha, ?_⟩
  rw [load_store hhead]
  exact h.congr fun b hb => load_store_of_apart (hapart b hb)

end Links
