import Notbit.Lib.Rings

/-!
# Lists — the linked lists of the program (`ntb-list.c`)

A list is a ring of cells, one of which is its head.  The functions work on single cells; what they
are for is said of whole lists: a list is its head with its elements behind it, and no cell is in two
lists.  A function that follows a null pointer fails.
-/

open Rings

namespace Notbit.Lists

variable {α : Type} [DecidableEq α]

/-! ## 1. Functions -/

/-- `ntb_list_init` -/
def init (h : Cells α) (list : α) : Cells α :=
  setNext (setPrev h list (some list)) list (some list)

/-- `ntb_list_insert` -/
def insert (h : Cells α) (list elm : α) : Option (Cells α) := do
  let h := setPrev h elm (some list)
  let h := setNext h elm (h list).next
  let h := setNext h list (some elm)
  let next ← (h elm).next
  return setPrev h next (some elm)

/-- `ntb_list_remove` -/
def remove (h : Cells α) (elm : α) : Option (Cells α) := do
  let prev ← (h elm).prev
  let h := setNext h prev (h elm).next
  let next ← (h elm).next
  let h := setPrev h next (h elm).prev
  let h := setNext h elm none
  return setPrev h elm none

/-- `ntb_list_empty` -/
def isEmpty (h : Cells α) (list : α) : Bool := (h list).next = some list

/-- `ntb_list_insert_list` -/
def insertList (h : Cells α) (list other : α) : Option (Cells α) :=
  if isEmpty h other then some h
  else do
    let first ← (h other).next
    let h := setPrev h first (some list)
    let last ← (h other).prev
    let h := setNext h last (h list).next
    let next ← (h list).next
    let h := setPrev h next (h other).prev
    return setNext h list (h other).next

/-- The loop of `ntb_list_length`, as long as the fuel lasts. -/
def lengthLoop (h : Cells α) (list : α) : Nat → α → Nat → Option Nat
  | 0, _, _ => none
  | fuel + 1, e, count =>
    if e = list then some count
    else do
      let e ← (h e).next
      lengthLoop h list fuel e (count + 1)

/-- `ntb_list_length`.  The count is a natural number here and an `int` there: lists are meant to have
fewer than 2^31 elements. -/
def length (fuel : Nat) (h : Cells α) (list : α) : Option Nat := do
  let e ← (h list).next
  lengthLoop h list fuel e 0

/-- `ntb_list_for_each` and, with the other pointer, `ntb_list_for_each_reverse`: the elements in the
order in which the body of the loop gets them. -/
def forEachLoop (follow : Link α → Option α) (h : Cells α) (head : α) :
    Nat → α → Option (List α)
  | 0, _ => none
  | fuel + 1, pos =>
    if pos = head then some []
    else do
      let next ← follow (h pos)
      let rest ← forEachLoop follow h head fuel next
      return pos :: rest

def forEach (fuel : Nat) (h : Cells α) (head : α) : Option (List α) := do
  let pos ← (h head).next
  forEachLoop Link.next h head fuel pos

def forEachReverse (fuel : Nat) (h : Cells α) (head : α) : Option (List α) := do
  let pos ← (h head).prev
  forEachLoop Link.prev h head fuel pos

/-- A call that changes lists. -/
inductive Call (α : Type) where
  | init (list : α)
  | insert (list elm : α)
  | remove (elm : α)
  | insertList (list other : α)

def Call.perform (h : Cells α) : Call α → Option (Cells α)
  | .init list => some (Lists.init h list)
  | .insert list elm => Lists.insert h list elm
  | .remove elm => Lists.remove h elm
  | .insertList list other => Lists.insertList h list other

/-! ## 2. What they are for -/

/-- What a call does to the lists, each given with its head in front; `none` when it is not meant to
be made.  A new element is put behind any cell of a list; only elements are removed; the elements of
another list are moved behind a cell, after which that other list is no longer one. -/
def Call.meaning (lists : List (List α)) : Call α → Option (List (List α))
  | .init list => if list ∈ lists.flatten then none else some ([list] :: lists)
  | .insert list elm =>
    if list ∈ lists.flatten ∧ elm ∉ lists.flatten then some (lists.map (putAfter list [elm]))
    else none
  | .remove elm =>
    if elm ∈ lists.flatten ∧ ∀ l ∈ lists, l.head? ≠ some elm then some (lists.map (·.erase elm))
    else none
  | .insertList list other =>
    match lists.find? (·.head? = some other) with
    | none => none
    | some moved =>
      if moved = [other] then some lists
      else if list ∈ (lists.erase moved).flatten then
        some ((lists.erase moved).map (putAfter list moved.tail))
      else none

variable {h : Cells α} {lists lists' : List (List α)} {list elm other : α} {xs : List α}

/-! ## 3. Each call -/

theorem init_holds (hh : Holds h lists) (hlist : list ∉ lists.flatten) :
    Holds (init h list) ([list] :: lists) where
  nodup := by
    rw [List.flatten_cons, List.singleton_append, List.nodup_cons]
    exact ⟨hlist, hh.nodup⟩
  ring l hl := by
    rcases List.mem_cons.mp hl with rfl | hl
    · exact ring_single.mpr ⟨by simp [init], by simp [init]⟩
    · refine (hh.ring l hl).congr fun x hx => ?_
      have hne : x ≠ list := fun heq => hlist (heq ▸ List.mem_flatten.mpr ⟨l, hl, hx⟩)
      exact Link.eq_of (by simp [init, hne]) (by simp [init, hne])

theorem insert_eq {n : α} (hne : elm ≠ list) (hnext : (h list).next = some n) :
    insert h list elm = some (join (join h list elm) elm n) := by
  have hcells : setPrev (setNext (setNext (setPrev h elm (some list)) elm (some n)) list (some elm))
      n (some elm) = join (join h list elm) elm n := by
    funext x
    apply Link.eq_of
    · by_cases hx : x = n <;> by_cases hx' : x = elm <;> simp [hx, hx']
    · by_cases hx : x = list <;> by_cases hx' : x = elm <;> simp_all
  simp [insert, hne, hnext, hcells]

theorem insert_holds (hh : Holds h lists) (hlist : list ∈ lists.flatten)
    (helm : elm ∉ lists.flatten) :
    ∃ h', insert h list elm = some h' ∧ Holds h' (lists.map (putAfter list [elm])) := by
  obtain ⟨n, hnext, hsplice⟩ := hh.splice hlist (.singleton elm) (List.nodup_singleton elm)
    fun x hx => List.mem_singleton.mp hx ▸ helm
  have hne : elm ≠ list := fun heq => helm (heq ▸ hlist)
  exact ⟨_, insert_eq hne hnext, hsplice⟩

theorem remove_eq {p n : α} (hprev : (h elm).prev = some p) (hnext : (h elm).next = some n) :
    remove h elm = some (setPrev (setNext (join h p n) elm none) elm none) := by
  have hcells : setPrev (setNext h p (some n)) n (some p) = join h p n := rfl
  simp [remove, hprev, hnext, hcells]

theorem remove_holds (hh : Holds h lists) (helm : elm ∈ lists.flatten)
    (hhead : ∀ l ∈ lists, l.head? ≠ some elm) :
    ∃ h', remove h elm = some h' ∧ Holds h' (lists.map (·.erase elm)) := by
  obtain ⟨p, n, hprev, hnext, hrest⟩ := hh.unlink helm fun l hl heq =>
    hhead l hl (heq ▸ rfl)
  refine ⟨_, remove_eq hprev hnext, hrest.nodup, fun l hl => (hrest.ring l hl).congr ?_⟩
  intro x hx
  have hne : x ≠ elm := by
    rintro rfl
    obtain ⟨old, hold, rfl⟩ := List.mem_map.mp hl
    exact (hh.nodup_of_mem hold).not_mem_erase hx
  exact Link.eq_of (by simp [hne]) (by simp [hne])

theorem insertList_eq {p z n : α} (hother : other ≠ p) (hz : z ≠ list) (hzo : z ≠ other)
    (hfirst : (h other).next = some p)
    (hlast : (h other).prev = some z) (hnext : (h list).next = some n) :
    insertList h list other = some (join (join h list p) z n) := by
  have hcells : setNext (setPrev (setNext (setPrev h p (some list)) z (some n)) n (some z)) list
      (some p) = join (join h list p) z n := by
    funext x
    apply Link.eq_of
    · by_cases hx : x = n <;> by_cases hx' : x = p <;> simp [hx, hx']
    · by_cases hx : x = list <;> by_cases hx' : x = z <;> simp_all
  have hfull : isEmpty h other = false := by
    simp [isEmpty, hfirst, hother.symm]
  simp [insertList, hfull, hfirst, hlast, hnext, hother, hzo.symm, hcells]

theorem insertList_holds {moved : List α} (hh : Holds h lists) (hmoved : moved ∈ lists)
    (hhead : moved.head? = some other) (hfull : moved ≠ [other])
    (hlist : list ∈ (lists.erase moved).flatten) :
    ∃ h', insertList h list other = some h' ∧
      Holds h' ((lists.erase moved).map (putAfter list moved.tail)) := by
  obtain ⟨before, after, -, rfl, herase⟩ := List.exists_erase_eq hmoved
  rw [herase] at hlist ⊢
  obtain ⟨p, ys, rfl⟩ : ∃ p ys, moved = other :: p :: ys := by
    cases moved with
    | nil => cases hhead
    | cons a xs =>
      cases hhead
      cases xs with
      | nil => exact absurd rfl hfull
      | cons p ys => exact ⟨p, ys, rfl⟩
  have hring := hh.ring _ hmoved
  have hown : (other :: p :: ys).Nodup := hh.nodup_of_mem hmoved
  have hrest : Holds h (before ++ after) := by
    have hsub : (before ++ after).Sublist (before ++ (other :: p :: ys) :: after) :=
      (List.Sublist.refl before).append (List.sublist_cons_self _ after)
    exact ⟨hh.nodup.sublist hsub.flatten, fun l hl => hh.ring l (hsub.subset hl)⟩
  have hapart : ∀ x ∈ other :: p :: ys, x ∉ (before ++ after).flatten := by
    intro x hx hmem
    obtain ⟨l, hl, hxl⟩ := List.mem_flatten.mp hmem
    exact hh.apart hl hxl hx
  have hz : ys.getLastD p ∈ p :: ys := List.getLastD_mem_cons
  obtain ⟨n, hnext, hsplice⟩ := hrest.splice hlist hring.tail (List.nodup_cons.mp hown).2
    fun x hx => hapart x (List.mem_cons_of_mem other hx)
  have hout := (List.nodup_cons.mp hown).1
  have hlast : (h other).prev = some (ys.getLastD p) := by
    rw [hring.prev, List.getLastD_cons]
  refine ⟨_, insertList_eq ?_ ?_ ?_ hring.next hlast hnext, hsplice⟩
  · exact fun heq => hout (heq ▸ List.mem_cons_self)
  · exact fun heq => hapart _ (List.mem_cons_of_mem other hz) (heq ▸ hlist)
  · exact fun heq => hout (heq ▸ hz)

-- An empty list has nothing to be moved.
theorem insertList_empty (hh : Holds h lists) (hother : [other] ∈ lists) (list : α) :
    insertList h list other = some h := by
  have hself := (ring_single.mp (hh.ring _ hother)).1
  rw [insertList, isEmpty, hself, decide_eq_true rfl, if_pos rfl]

/-- Every call that is meant to be made succeeds and does what it is for. -/
theorem perform_holds (hh : Holds h lists) {call : Call α}
    (hmeaning : call.meaning lists = some lists') :
    ∃ h', call.perform h = some h' ∧ Holds h' lists' := by
  cases call with
  | init list =>
    simp only [Call.meaning] at hmeaning
    split_ifs at hmeaning with hlist
    cases hmeaning
    exact ⟨_, rfl, init_holds hh hlist⟩
  | insert list elm =>
    simp only [Call.meaning] at hmeaning
    split_ifs at hmeaning with hallowed
    cases hmeaning
    exact insert_holds hh hallowed.1 hallowed.2
  | remove elm =>
    simp only [Call.meaning] at hmeaning
    split_ifs at hmeaning with hallowed
    cases hmeaning
    exact remove_holds hh hallowed.1 hallowed.2
  | insertList list other =>
    simp only [Call.meaning] at hmeaning
    split at hmeaning
    · cases hmeaning
    next moved hfind =>
      have hmoved := List.mem_of_find?_eq_some hfind
      have hhead : moved.head? = some other := by simpa using List.find?_some hfind
      split_ifs at hmeaning with hsingle hlist
      · cases hmeaning
        exact ⟨h, insertList_empty hh (hsingle ▸ hmoved) list, hh⟩
      · cases hmeaning
        exact insertList_holds hh hmoved hhead hsingle hlist

/-! ## 4. Reading -/

/-- The loop passes the cells up to the head. -/
theorem forEachLoop_eq {follow : Link α → Option α} {fuel : Nat} {l : List α} {start : α}
    (hpath : (l ++ [list]).IsChain fun x y => follow (h x) = some y) (hlist : list ∉ l)
    (hstart : (l ++ [list]).head? = some start) (hfuel : l.length < fuel) :
    forEachLoop follow h list fuel start = some l := by
  induction l generalizing fuel start with
  | nil =>
    obtain ⟨fuel, rfl⟩ := Nat.exists_eq_succ_of_ne_zero (Nat.ne_of_gt hfuel)
    cases hstart
    rw [forEachLoop, if_pos rfl]
  | cons x l ih =>
    obtain ⟨fuel, rfl⟩ := Nat.exists_eq_succ_of_ne_zero (Nat.ne_of_gt (Nat.zero_lt_of_lt hfuel))
    cases hstart
    have hne : x ≠ list := fun heq => hlist (heq ▸ List.mem_cons_self)
    obtain ⟨next, hnext⟩ : ∃ next, (l ++ [list]).head? = some next := by
      cases l <;> simp
    have hfollow : follow (h x) = some next := List.IsChain.rel_head? hpath hnext
    have hrest := ih (List.IsChain.tail hpath) (fun hmem => hlist (List.mem_cons_of_mem x hmem))
      hnext (Nat.lt_of_succ_lt_succ hfuel)
    rw [forEachLoop, if_neg hne, hfollow]
    simp [hrest]

theorem lengthLoop_eq (fuel : Nat) (e : α) (count : Nat) :
    lengthLoop h list fuel e count =
      (forEachLoop Link.next h list fuel e).map (count + ·.length) := by
  induction fuel generalizing e count with
  | zero => rfl
  | succ fuel ih =>
    rw [lengthLoop, forEachLoop]
    split_ifs with hend
    · rfl
    · cases hnext : (h e).next with
      | none => rfl
      | some next =>
        simp only [Option.bind_eq_bind, Option.bind_some, ih]
        cases forEachLoop Link.next h list fuel next with
        | none => rfl
        | some l =>
          simp only [Option.map_some, Option.bind_some, List.length_cons, Option.pure_def]
          congr 1
          omega

/-- What can be read of a list: its length, whether it is empty, and its elements in both
directions. -/
structure Reads (h : Cells α) (list : α) (xs : List α) : Prop where
  length : ∀ fuel > xs.length, Lists.length fuel h list = some xs.length
  isEmpty : isEmpty h list = true ↔ xs = []
  forEach : ∀ fuel > xs.length, forEach fuel h list = some xs
  forEachReverse : ∀ fuel > xs.length, forEachReverse fuel h list = some xs.reverse

theorem reads_of_holds (hh : Holds h lists) (hlist : list :: xs ∈ lists) : Reads h list xs := by
  have hring := hh.ring _ hlist
  have hout : list ∉ xs := (List.nodup_cons.mp (hh.nodup_of_mem hlist)).1
  have hpath : Path h (list :: (xs ++ [list])) := ring_cons.mp hring
  have hforward : ∀ fuel > xs.length, forEach fuel h list = some xs := by
    intro fuel hfuel
    have hstart : (xs ++ [list]).head? = some (xs.headD list) := by
      cases xs <;> rfl
    have hchain : (xs ++ [list]).IsChain fun x y => (h x).next = some y :=
      (List.IsChain.tail hpath).imp fun _ _ hjoined => hjoined.1
    rw [forEach, hring.next]
    exact forEachLoop_eq hchain hout hstart hfuel
  refine ⟨fun fuel hfuel => ?_, ?_, hforward, fun fuel hfuel => ?_⟩
  · have hall := hforward fuel hfuel
    rw [forEach, hring.next] at hall
    rw [Lists.length, hring.next]
    simp only [Option.bind_eq_bind, Option.bind_some] at hall ⊢
    rw [lengthLoop_eq, hall, Option.map_some, Nat.zero_add]
  · rw [isEmpty, hring.next, decide_eq_true_iff, Option.some.injEq]
    cases xs with
    | nil => simp
    | cons x xs =>
      have hne : x ≠ list := fun heq => hout (heq ▸ List.mem_cons_self)
      simpa using hne
  · have hstart : (xs.reverse ++ [list]).head? = some (xs.getLastD list) := by
      cases xs using List.reverseRecOn <;> simp
    have hchain : (xs.reverse ++ [list]).IsChain fun x y => (h x).prev = some y := by
      have hback : (list :: xs).IsChain fun x y => (h y).prev = some x := by
        rw [← List.cons_append] at hpath
        exact hpath.left_of_append.imp fun _ _ hjoined => hjoined.2
      rw [← List.reverse_cons]
      exact List.isChain_reverse.mpr hback
    rw [forEachReverse, hring.prev]
    refine forEachLoop_eq hchain (by simpa using hout) hstart ?_
    rwa [List.length_reverse]

/-! ## 5. Runs -/

theorem performs_hold {calls : List (Call α)} (hh : Holds h lists)
    (hmeaning : calls.foldlM Call.meaning lists = some lists') :
    ∃ h', calls.foldlM Call.perform h = some h' ∧ Holds h' lists' := by
  induction calls generalizing h lists with
  | nil =>
    cases hmeaning
    exact ⟨h, rfl, hh⟩
  | cons call calls ih =>
    obtain ⟨middle, hfirst, hrest⟩ := Option.bind_eq_some_iff.mp hmeaning
    obtain ⟨h₁, hperform, hh₁⟩ := perform_holds hh hfirst
    obtain ⟨h₂, hperforms, hh₂⟩ := ih hh₁ hrest
    exact ⟨h₂, Option.bind_eq_some_iff.mpr ⟨h₁, hperform, hperforms⟩, hh₂⟩

/-- Whatever is done with any number of lists, in cells with any contents at first: as long as the
calls are meant to be made, none of them follows a null pointer, and in the end every list has the
elements that the calls say, in their order and in the reverse order. -/
theorem lists_refined (calls : List (Call α)) (h : Cells α)
    (hmeaning : calls.foldlM Call.meaning [] = some lists) :
    ∃ h', calls.foldlM Call.perform h = some h' ∧
      ∀ list xs, list :: xs ∈ lists → Reads h' list xs := by
  have hstart : Holds h [] := ⟨List.nodup_nil, by simp⟩
  obtain ⟨h', hperforms, hh⟩ := performs_hold hstart hmeaning
  exact ⟨h', hperforms, fun list xs hlist => reads_of_holds hh hlist⟩

/-- Two lists, the second of which is moved behind the first element of the first one, from which one
element is taken. -/
def sampleCalls : List (Call Nat) :=
  [.init 0, .init 1, .insert 0 2, .insert 2 3, .insert 1 4, .insert 1 5, .remove 3,
    .insertList 2 1]

theorem sampleCalls_refined :
    ∃ h', sampleCalls.foldlM Call.perform (fun _ => {}) = some h' ∧ Reads h' 0 [2, 5, 4] := by
  have hmeaning : sampleCalls.foldlM Call.meaning [] = some [[0, 2, 5, 4]] := by decide
  obtain ⟨h', hperforms, hreads⟩ := lists_refined sampleCalls (fun _ => {}) hmeaning
  exact ⟨h', hperforms, hreads 0 [2, 5, 4] List.mem_cons_self⟩

end Notbit.Lists
