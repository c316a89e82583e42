import Mathlib.Data.List.Cycle
import Mathlib.Tactic

/-!
# Rings — lists that are linked both ways and closed to a ring

A cell points to the cell before it and to the one behind it, and either pointer may be null.  A ring
is a cycle of cells, each of which points to the next and is pointed back to.  Rings are changed by
joining two cells, which touches one pointer of each of them; all other rings stay as they are.
-/

namespace Rings

variable {α : Type}

/-- The pointers of a cell. -/
structure Link (α : Type) where
  prev : Option α := none
  next : Option α := none
  deriving DecidableEq, Repr

abbrev Cells (α : Type) := α → Link α

variable {h h' : Cells α} {a b c e p q x y : α} {xs ys l r : List α}

/-- One cell stands right before another. -/
def Joined (h : Cells α) (a b : α) : Prop := (h a).next = some b ∧ (h b).prev = some a

/-- The cells of the list are linked both ways, from the first to the last. -/
def Path (h : Cells α) (l : List α) : Prop := l.IsChain (Joined h)

/-- The cells of the list are linked both ways, and the last to the first. -/
def Ring (h : Cells α) (l : List α) : Prop := (l : Cycle α).Chain (Joined h)

/-! ## 1. Reading -/

theorem ring_cons : Ring h (a :: xs) ↔ Path h (a :: (xs ++ [a])) := Iff.rfl

theorem ring_single : Ring h [a] ↔ Joined h a a := Cycle.chain_singleton _ _

-- A ring can be entered at any cell.
theorem ring_rotate (hrot : l ~r r) : Ring h l ↔ Ring h r := by
  unfold Ring
  rw [Cycle.coe_eq_coe.mpr hrot]

theorem ring_append : Ring h (l ++ r) ↔ Ring h (r ++ l) := ring_rotate List.isRotated_append

theorem Path.congr (hpath : Path h l) (hnext : ∀ x ∈ l.dropLast, (h' x).next = (h x).next)
    (hprev : ∀ x ∈ l.tail, (h' x).prev = (h x).prev) : Path h' l := by
  induction l with
  | nil => exact .nil
  | cons a l ih =>
    cases l with
    | nil => exact .singleton a
    | cons b l =>
      obtain ⟨⟨hab, hba⟩, hrest⟩ := List.isChain_cons_cons.mp hpath
      rw [List.dropLast_cons_of_ne_nil (List.cons_ne_nil b l)] at hnext
      refine List.isChain_cons_cons.mpr ⟨⟨?_, ?_⟩, ih hrest ?_ ?_⟩
      · rw [hnext a List.mem_cons_self, hab]
      · rw [hprev b List.mem_cons_self, hba]
      · exact fun x hx => hnext x (List.mem_cons_of_mem a hx)
      · exact fun x hx => hprev x (List.mem_cons_of_mem b hx)

-- A ring stays one as long as its own cells do.
theorem Ring.congr (hring : Ring h l) (hsame : ∀ x ∈ l, h' x = h x) : Ring h' l := by
  cases l with
  | nil => exact Cycle.Chain.nil _
  | cons a xs =>
    have hmem : ∀ x ∈ a :: (xs ++ [a]), x ∈ a :: xs := by
      intro x hx
      simp only [List.mem_cons, List.mem_append, List.not_mem_nil, or_false] at hx ⊢
      tauto
    refine Path.congr (ring_cons.mp hring) (fun x hx => ?_) (fun x hx => ?_)
    · rw [hsame x (hmem x (List.mem_of_mem_dropLast hx))]
    · rw [hsame x (hmem x (List.mem_of_mem_tail hx))]

theorem Ring.next (hring : Ring h (a :: xs)) : (h a).next = some (xs.headD a) := by
  cases xs with
  | nil => exact (ring_single.mp hring).1
  | cons b xs => exact (List.isChain_cons_cons.mp hring).1.1

theorem Ring.prev (hring : Ring h (a :: xs)) : (h a).prev = some (xs.getLastD a) := by
  induction xs using List.reverseRecOn with
  | nil => exact (ring_single.mp hring).2
  | append_singleton xs z _ =>
    have hrot : Ring h (z :: a :: xs) := by
      rwa [← List.singleton_append, ring_append]
    have hlast : (xs ++ [z]).getLastD a = z := by simp
    rw [hlast]
    exact (List.isChain_cons_cons.mp hrot).1.2

-- Every cell of a ring has both pointers.
theorem Ring.exists_links (hring : Ring h l) (ha : a ∈ l) :
    ∃ p n, (h a).prev = some p ∧ (h a).next = some n ∧ p ∈ l ∧ n ∈ l := by
  obtain ⟨l₁, l₂, rfl⟩ := List.append_of_mem ha
  have hrot : Ring h (a :: (l₂ ++ l₁)) := ring_append.mp hring
  have hmem : ∀ x, x ∈ l₁ ++ a :: l₂ ↔ x ∈ a :: (l₂ ++ l₁) := fun x =>
    List.perm_append_comm.mem_iff
  refine ⟨_, _, hrot.prev, hrot.next, (hmem _).mpr List.getLastD_mem_cons, (hmem _).mpr ?_⟩
  cases l₂ ++ l₁ with
  | nil => exact List.mem_cons_self
  | cons b l => exact List.mem_cons_of_mem a List.mem_cons_self

-- Without its first cell a ring is a path.
theorem Ring.tail (hring : Ring h (a :: xs)) : Path h xs :=
  (List.IsChain.tail (ring_cons.mp hring)).left_of_append

theorem notMem_left (hnodup : (l ++ a :: r).Nodup) : a ∉ l := fun ha =>
  (List.nodup_cons.mp (List.nodup_middle.mp hnodup)).1 (List.mem_append_left r ha)

-- The cells before the last one are not the last one.
theorem ne_getLastD (hnodup : (p :: ys).Nodup) (hx : x ∈ (p :: ys).dropLast) :
    x ≠ ys.getLastD p := by
  intro heq
  have hlast : (p :: ys).getLast (List.cons_ne_nil p ys) = x := by
    rw [List.getLast_eq_getLastD, heq]
  rw [← List.dropLast_append_getLast (List.cons_ne_nil p ys), hlast] at hnodup
  exact notMem_left hnodup hx

/-! ## 2. Writing -/

variable [DecidableEq α]

def setPrev (h : Cells α) (a : α) (p : Option α) : Cells α :=
  Function.update h a { h a with prev := p }

def setNext (h : Cells α) (a : α) (n : Option α) : Cells α :=
  Function.update h a { h a with next := n }

@[simp] theorem setPrev_prev (n : Option α) :
    (setPrev h a n x).prev = if x = a then n else (h x).prev := by
  unfold setPrev
  split_ifs with heq
  · rw [heq, Function.update_self]
  · rw [Function.update_of_ne heq]

@[simp] theorem setPrev_next (n : Option α) : (setPrev h a n x).next = (h x).next := by
  unfold setPrev
  by_cases heq : x = a
  · rw [heq, Function.update_self]
  · rw [Function.update_of_ne heq]

@[simp] theorem setNext_next (n : Option α) :
    (setNext h a n x).next = if x = a then n else (h x).next := by
  unfold setNext
  split_ifs with heq
  · rw [heq, Function.update_self]
  · rw [Function.update_of_ne heq]

@[simp] theorem setNext_prev (n : Option α) : (setNext h a n x).prev = (h x).prev := by
  unfold setNext
  by_cases heq : x = a
  · rw [heq, Function.update_self]
  · rw [Function.update_of_ne heq]

omit [DecidableEq α] in
theorem Link.eq_of {v w : Link α} (hprev : v.prev = w.prev) (hnext : v.next = w.next) : v = w := by
  cases v
  cases w
  congr

/-- The first cell is made to stand right before the second. -/
def join (h : Cells α) (a b : α) : Cells α := setPrev (setNext h a (some b)) b (some a)

@[simp] theorem join_prev : (join h a b x).prev = if x = b then some a else (h x).prev := by
  simp [join]

@[simp] theorem join_next : (join h a b x).next = if x = a then some b else (h x).next := by
  simp [join]

theorem join_of_ne (ha : x ≠ a) (hb : x ≠ b) : join h a b x = h x :=
  Link.eq_of (by simp [hb]) (by simp [ha])

/-- A path is put between the first cell of a ring and the next one. -/
theorem Ring.splice (hring : Ring h (a :: xs)) (hpath : Path h (p :: ys))
    (hnodup : (a :: (p :: ys ++ xs)).Nodup) :
    Ring (join (join h a p) (ys.getLastD p) (xs.headD a)) (a :: (p :: ys ++ xs)) := by
  obtain ⟨n, r, hr⟩ : ∃ n r, xs ++ [a] = n :: r := by
    cases xs <;> simp
  have hhead : xs.headD a = n := by
    cases xs <;> simp_all
  have hlast : ys.getLastD p = (p :: ys).getLast (List.cons_ne_nil p ys) :=
    (List.getLast_eq_getLastD _).symm
  have hback : Path h (n :: r) := by
    rw [← hr]
    exact (ring_cons.mp hring).tail
  -- the cells behind the first one and the path, in the order in which they are passed
  have hperm : (p :: ys ++ (n :: r)).Nodup := by
    rw [← hr, ← List.append_assoc]
    exact (List.nodup_append_comm).mp hnodup
  rw [hhead]
  generalize hz : ys.getLastD p = z at *
  have hzmem : z ∈ p :: ys := by
    rw [hlast]
    exact List.getLast_mem _
  have hparts := List.nodup_append.mp hperm
  have happart : ∀ u ∈ p :: ys, ∀ v ∈ n :: r, u ≠ v := hparts.2.2
  have hamem : a ∈ n :: r := by
    rw [← hr]
    simp
  refine ring_cons.mpr ?_
  rw [List.append_assoc, hr]
  have hpath' : Path (join (join h a p) z n) (p :: ys) := by
    refine hpath.congr (fun x hx => ?_) (fun x hx => ?_)
    · have hxa : x ≠ a := happart x (List.mem_of_mem_dropLast hx) a hamem
      have hxz : x ≠ z := hz ▸ ne_getLastD hparts.1 hx
      simp [hxa, hxz]
    · have hxn : x ≠ n := happart x (List.mem_cons_of_mem p hx) n List.mem_cons_self
      have hxp : x ≠ p := by
        rintro rfl
        exact (List.nodup_cons.mp hparts.1).1 hx
      simp [hxn, hxp]
  have hback' : Path (join (join h a p) z n) (n :: r) := by
    refine hback.congr (fun x hx => ?_) (fun x hx => ?_)
    · rw [← hr, List.dropLast_concat] at hx
      have hxa : x ≠ a := by
        rintro rfl
        have hdup := List.nodup_cons.mp hnodup
        exact hdup.1 (List.mem_append_right _ hx)
      have hxz : x ≠ z := by
        rintro rfl
        exact happart x hzmem x (by rw [← hr]; exact List.mem_append_left _ hx) rfl
      simp [hxa, hxz]
    · have hxn : x ≠ n := by
        rintro rfl
        exact (List.nodup_cons.mp hparts.2.1).1 hx
      have hxp : x ≠ p := by
        rintro rfl
        exact happart x List.mem_cons_self x (List.mem_cons_of_mem n hx) rfl
      simp [hxn, hxp]
  have hap : Joined (join (join h a p) z n) a p := by
    have haz : a ≠ z := (happart z hzmem a hamem).symm
    have hpn : p ≠ n := happart p List.mem_cons_self n List.mem_cons_self
    exact ⟨by simp [haz], by simp [hpn]⟩
  refine List.isChain_cons_cons.mpr ⟨hap, ?_⟩
  refine List.IsChain.append hpath' hback' ?_
  intro u hu v hv
  rw [List.getLast?_eq_some_getLast (List.cons_ne_nil p ys), ← hlast] at hu
  obtain rfl := Option.some.inj hu
  obtain rfl := Option.some.inj hv
  exact ⟨by simp, by simp⟩

-- The first cell of a ring is taken out.
theorem Ring.unlink (hring : Ring h (e :: y :: ys)) (hnodup : (y :: ys).Nodup) :
    Ring (join h (ys.getLastD y) y) (y :: ys) := by
  have hlast : ys.getLastD y = (y :: ys).getLast (List.cons_ne_nil y ys) :=
    (List.getLast_eq_getLastD _).symm
  generalize hz : ys.getLastD y = z at *
  have hpath' : Path (join h z y) (y :: ys) := by
    refine hring.tail.congr (fun x hx => ?_) (fun x hx => ?_)
    · have hxz : x ≠ z := hz ▸ ne_getLastD hnodup hx
      simp [hxz]
    · have hxy : x ≠ y := by
        rintro rfl
        exact (List.nodup_cons.mp hnodup).1 hx
      simp [hxy]
  rw [ring_cons, ← List.cons_append]
  refine hpath'.append (.singleton y) ?_
  intro u hu v hv
  rw [List.getLast?_eq_some_getLast (List.cons_ne_nil y ys), ← hlast] at hu
  obtain rfl := Option.some.inj hu
  obtain rfl := Option.some.inj hv
  exact ⟨by simp, by simp⟩

/-! ## 3. Many rings -/

/-- The list with the cells `ys` behind `a`. -/
def putAfter (a : α) (ys l : List α) : List α := l.flatMap fun x => if x = a then x :: ys else [x]

theorem putAfter_of_notMem (ha : a ∉ l) : putAfter a ys l = l := by
  induction l with
  | nil => rfl
  | cons x l ih =>
    have hxa : x ≠ a := fun heq => ha (heq ▸ List.mem_cons_self)
    have hrest := ih fun hmem => ha (List.mem_cons_of_mem x hmem)
    rw [putAfter, List.flatMap_cons, if_neg hxa]
    exact congrArg (x :: ·) hrest

theorem putAfter_append (hl : a ∉ l) (hr : a ∉ r) :
    putAfter a ys (l ++ a :: r) = l ++ a :: (ys ++ r) := by
  have hleft : putAfter a ys l = l := putAfter_of_notMem hl
  have hright : putAfter a ys r = r := putAfter_of_notMem hr
  unfold putAfter at hleft hright ⊢
  rw [List.flatMap_append, List.flatMap_cons, if_pos rfl, hleft, hright, List.cons_append]

/-- The rings that the cells hold.  No cell is in two of them. -/
structure Holds (h : Cells α) (rings : List (List α)) : Prop where
  nodup : rings.flatten.Nodup
  ring : ∀ r ∈ rings, Ring h r

variable {rings before after : List (List α)}

omit [DecidableEq α] in
theorem Holds.nodup_of_mem (hh : Holds h rings) (hl : l ∈ rings) : l.Nodup :=
  (List.nodup_flatten.mp hh.nodup).1 l hl

omit [DecidableEq α] in
/-- The ring of a cell, and where the cell stands in it. -/
theorem Holds.exists_split (hh : Holds h rings) (ha : a ∈ rings.flatten) :
    ∃ before l r after, rings = before ++ (l ++ a :: r) :: after ∧
      a ∉ l ∧ a ∉ r ∧ (∀ s ∈ before, a ∉ s) ∧ ∀ s ∈ after, a ∉ s := by
  obtain ⟨ring, hring, hmem⟩ := List.mem_flatten.mp ha
  obtain ⟨before, after, rfl⟩ := List.append_of_mem hring
  obtain ⟨l, r, rfl⟩ := List.append_of_mem hmem
  have hnodup : (before.flatten ++ l ++ a :: (r ++ after.flatten)).Nodup := by
    simpa using hh.nodup
  have hout := (List.nodup_cons.mp (List.nodup_middle.mp hnodup)).1
  simp only [List.mem_append, List.mem_flatten, not_or, not_exists, not_and] at hout
  exact ⟨before, l, r, after, rfl, hout.1.2, hout.2.1, fun s hs => hout.1.1 s hs,
    fun s hs => hout.2.2 s hs⟩

omit [DecidableEq α] in
-- A change of one ring that leaves all other cells as they are.
theorem Holds.change (hh : Holds h (before ++ l :: after)) (hring : Ring h' r)
    (hnodup : (before ++ r :: after).flatten.Nodup)
    (hsame : ∀ s ∈ before ++ after, ∀ x ∈ s, h' x = h x) : Holds h' (before ++ r :: after) where
  nodup := hnodup
  ring s hs := by
    have hold : s ∈ before ++ after → Ring h' s := fun hmem =>
      (hh.ring s (by simp only [List.mem_append, List.mem_cons] at hmem ⊢; tauto)).congr
        (hsame s hmem)
    simp only [List.mem_append, List.mem_cons] at hs hold
    rcases hs with hs | rfl | hs
    · exact hold (.inl hs)
    · exact hring
    · exact hold (.inr hs)

omit [DecidableEq α] in
theorem Holds.apart {s : List α} (hh : Holds h (before ++ l :: after)) (hs : s ∈ before ++ after)
    (hx : x ∈ s) : x ∉ l := by
  intro hl
  have hnodup : (before.flatten ++ (l ++ after.flatten)).Nodup := by
    simpa using hh.nodup
  have hparts := List.nodup_append.mp hnodup
  rcases List.mem_append.mp hs with hs | hs
  · exact hparts.2.2 x (List.mem_flatten.mpr ⟨s, hs, hx⟩) x (List.mem_append_left _ hl) rfl
  · exact (List.nodup_append.mp hparts.2.1).2.2 x hl x (List.mem_flatten.mpr ⟨s, hs, hx⟩) rfl

/-- New cells are put into the ring of a cell, right behind it. -/
theorem Holds.splice (hh : Holds h rings) (ha : a ∈ rings.flatten) (hpath : Path h (p :: ys))
    (hys : (p :: ys).Nodup) (hfresh : ∀ x ∈ p :: ys, x ∉ rings.flatten) :
    ∃ n, (h a).next = some n ∧
      Holds (join (join h a p) (ys.getLastD p) n) (rings.map (putAfter a (p :: ys))) := by
  obtain ⟨before, l, r, after, rfl, hl, hr, hbefore, hafter⟩ := hh.exists_split ha
  have hmem : l ++ a :: r ∈ before ++ (l ++ a :: r) :: after := by simp
  have hring : Ring h (a :: (r ++ l)) := ring_append.mp (hh.ring _ hmem)
  have hnew : (before ++ (l ++ a :: r) :: after).map (putAfter a (p :: ys)) =
      before ++ (l ++ a :: (p :: ys ++ r)) :: after := by
    rw [List.map_append, List.map_cons, putAfter_append hl hr,
      List.map_congr_left fun s hs => putAfter_of_notMem (hbefore s hs),
      List.map_congr_left fun s hs => putAfter_of_notMem (hafter s hs), List.map_id', List.map_id']
  have hnodup : (before ++ (l ++ a :: (p :: ys ++ r)) :: after).flatten.Nodup := by
    have hperm : (before ++ (l ++ a :: (p :: ys ++ r)) :: after).flatten.Perm
        (p :: ys ++ (before ++ (l ++ a :: r) :: after).flatten) := by
      refine List.perm_iff_count.mpr fun x => ?_
      simp only [List.flatten_append, List.flatten_cons, List.count_append, List.count_cons]
      omega
    rw [hperm.nodup_iff, List.nodup_append]
    refine ⟨hys, hh.nodup, fun x hx y hy heq => ?_⟩
    exact hfresh x hx (heq ▸ hy)
  have hrot : (l ++ a :: (p :: ys ++ r)) ~r (a :: (p :: ys ++ (r ++ l))) := by
    rw [← List.append_assoc (p :: ys), ← List.cons_append]
    exact List.isRotated_append
  have hin : ∀ x ∈ a :: (r ++ l), x ∈ l ++ a :: r := by
    intro x hx
    have hperm : (a :: r ++ l).Perm (l ++ a :: r) := List.perm_append_comm
    exact hperm.mem_iff.mp hx
  obtain ⟨-, n, -, hnext, -, hn⟩ := hring.exists_links List.mem_cons_self
  have hhead : (r ++ l).headD a = n := Option.some.inj (hring.next.symm.trans hnext)
  refine ⟨n, hnext, ?_⟩
  rw [hnew]
  refine hh.change ?_ hnodup fun s hs x hx => ?_
  · have hone := (List.nodup_flatten.mp hnodup).1 (l ++ a :: (p :: ys ++ r)) (by simp)
    have hsplice := hring.splice hpath (hrot.nodup_iff.mp hone)
    rw [hhead] at hsplice
    exact (ring_rotate hrot).mpr hsplice
  · have hx' : x ∈ (before ++ (l ++ a :: r) :: after).flatten := by
      refine List.mem_flatten.mpr ⟨s, ?_, hx⟩
      simp only [List.mem_append, List.mem_cons] at hs ⊢
      tauto
    have hold := hh.apart hs hx
    have hxa : x ≠ a := fun heq => hold (heq ▸ by simp)
    have hxn : x ≠ n := fun heq => hold (heq ▸ hin n hn)
    have hxp : x ≠ p := fun heq => hfresh p List.mem_cons_self (heq ▸ hx')
    have hxz : x ≠ ys.getLastD p := fun heq => hfresh _ List.getLastD_mem_cons (heq ▸ hx')
    rw [join_of_ne hxz hxn, join_of_ne hxa hxp]

/-- A cell is taken out of its ring; it is not the only one there. -/
theorem Holds.unlink (hh : Holds h rings) (he : e ∈ rings.flatten)
    (hmore : ∀ r ∈ rings, r ≠ [e]) :
    ∃ p n, (h e).prev = some p ∧ (h e).next = some n ∧
      Holds (join h p n) (rings.map (·.erase e)) := by
  obtain ⟨before, l, r, after, rfl, hl, hr, hbefore, hafter⟩ := hh.exists_split he
  have hmem : l ++ e :: r ∈ before ++ (l ++ e :: r) :: after := by simp
  have hring : Ring h (e :: (r ++ l)) := ring_append.mp (hh.ring _ hmem)
  have hnew : (before ++ (l ++ e :: r) :: after).map (·.erase e) =
      before ++ (l ++ r) :: after := by
    rw [List.map_append, List.map_cons, List.erase_append_right _ hl, List.erase_cons_head,
      List.map_congr_left fun s hs => List.erase_of_not_mem (hbefore s hs),
      List.map_congr_left fun s hs => List.erase_of_not_mem (hafter s hs), List.map_id',
      List.map_id']
  have hsub : (before ++ (l ++ r) :: after).flatten.Sublist
      (before ++ (l ++ e :: r) :: after).flatten := by
    simp only [List.flatten_append, List.flatten_cons]
    exact (List.Sublist.refl _).append (((List.Sublist.refl _).append
      (List.sublist_cons_self e r)).append (List.Sublist.refl _))
  have hnodup := hh.nodup.sublist hsub
  obtain ⟨y, ys, hy⟩ : ∃ y ys, r ++ l = y :: ys := by
    cases hrl : r ++ l with
    | nil =>
      obtain ⟨rfl, rfl⟩ := List.append_eq_nil_iff.mp hrl
      exact absurd rfl (hmore _ hmem)
    | cons y ys => exact ⟨y, ys, rfl⟩
  have hin : ∀ x ∈ y :: ys, x ∈ l ++ e :: r := by
    intro x hx
    rw [← hy] at hx
    simp only [List.mem_append, List.mem_cons] at hx ⊢
    tauto
  rw [hy] at hring
  have hprev : (h e).prev = some (ys.getLastD y) := by
    rw [hring.prev, List.getLastD_cons]
  refine ⟨ys.getLastD y, y, hprev, hring.next, ?_⟩
  rw [hnew]
  refine hh.change ?_ hnodup fun s hs x hx => ?_
  · have hone := (List.nodup_flatten.mp hnodup).1 (l ++ r) (by simp)
    have hrest : (y :: ys).Nodup := by
      rw [← hy]
      exact List.nodup_append_comm.mp hone
    rw [ring_append, hy]
    exact hring.unlink hrest
  · have hold := hh.apart hs hx
    have hxy : x ≠ y := fun heq => hold (heq ▸ hin y List.mem_cons_self)
    have hxz : x ≠ ys.getLastD y := fun heq => hold (heq ▸ hin _ List.getLastD_mem_cons)
    exact join_of_ne hxz hxy

end Rings
