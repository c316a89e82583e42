import Mathlib.Tactic

/-!
# WriteBehind — a map that is written and read through a queue

A worker takes the tasks of a queue in turn, so a read sees what the tasks in front of it leave.  Some
values are held by somebody.  If a value is held from the moment its write is queued, and its removal
is queued only when nobody holds it, then the reads that somebody waits for find what is held.
-/

namespace WriteBehind

variable {κ β τ : Type} [DecidableEq κ]

/-- A task; a read has a ticket. -/
inductive Op (κ β τ : Type) where
  | put (key : κ) (value : β)
  | remove (key : κ)
  | get (ticket : τ) (key : κ)

/-- What a task does to the map. -/
def Op.apply : Op κ β τ → (κ → Option β) → κ → Option β
  | .put key value, m => Function.update m key (some value)
  | .remove key, m => Function.update m key none
  | .get _ _, m => m

/-- The map when the tasks are done. -/
def settled (ops : List (Op κ β τ)) (m : κ → Option β) : κ → Option β :=
  ops.foldl (fun m op => op.apply m) m

/-- Every value that is held will be there when the tasks are done, and every read that is still
waited for will find one. -/
structure Served (held : κ → Option β) (live : τ → Prop) (ops : List (Op κ β τ))
    (m : κ → Option β) : Prop where
  kept : ∀ key value, held key = some value → settled ops m key = some value
  found : ∀ before ticket key after, ops = before ++ .get ticket key :: after → live ticket →
    ∃ value, held key = some value ∧ settled before m key = some value

variable {held held' : κ → Option β} {live live' : τ → Prop} {ops new : List (Op κ β τ)}
  {m : κ → Option β} {op : Op κ β τ} {key : κ} {value : β} {ticket : τ}

theorem settled_append :
    settled (ops ++ new) m = settled new (settled ops m) := List.foldl_append

-- A key that no task writes or removes.
theorem settled_of_untouched (hput : ∀ value, .put key value ∉ ops) (hremove : .remove key ∉ ops) :
    settled ops m key = m key := by
  induction ops generalizing m with
  | nil => rfl
  | cons op ops ih =>
    have hrest : settled ops (op.apply m) key = op.apply m key :=
      ih (fun value hmem => hput value (List.mem_cons_of_mem op hmem))
        fun hmem => hremove (List.mem_cons_of_mem op hmem)
    refine Eq.trans hrest ?_
    cases op with
    | put other value =>
      refine Function.update_of_ne (fun heq => hput value ?_) _ _
      rw [heq]
      exact List.mem_cons_self
    | remove other =>
      refine Function.update_of_ne (fun heq => hremove ?_) _ _
      rw [heq]
      exact List.mem_cons_self
    | get ticket other => rfl

-- Where an element of two lists put together is.
theorem append_eq_append_cons {α : Type} {l l' before after : List α} {a : α}
    (h : l ++ l' = before ++ a :: after) :
    (∃ back, l = before ++ a :: back) ∨ ∃ front, before = l ++ front ∧ l' = front ++ a :: after := by
  rcases List.append_eq_append_iff.mp h with ⟨front, hbefore, hl'⟩ | ⟨back, hl, hback⟩
  · exact .inr ⟨front, hbefore, hl'⟩
  · cases back with
    | nil =>
      rw [List.append_nil] at hl
      exact .inr ⟨[], by rw [List.append_nil, hl], hback.symm⟩
    | cons b back =>
      obtain ⟨rfl, -⟩ := List.cons.inj hback
      exact .inl ⟨back, hl⟩

theorem served_nil (h : ∀ key value, held key = some value → m key = some value) :
    Served held live [] m where
  kept := h
  found before ticket key after heq := by
    have hlength := congrArg List.length heq
    simp at hlength

namespace Served

-- The worker takes the next task.
theorem pop (h : Served held live (op :: ops) m) : Served held live ops (op.apply m) where
  kept := h.kept
  found before ticket key after heq hlive :=
    h.found (op :: before) ticket key after (congrArg (op :: ·) heq) hlive

theorem head (h : Served held live (.get ticket key :: ops) m) (hlive : live ticket) :
    ∃ value, held key = some value ∧ m key = some value :=
  h.found [] ticket key ops rfl hlive

-- Values are given up, and reads are no longer waited for.
theorem mono (h : Served held live ops m) (hlive : ∀ ticket key, .get ticket key ∈ ops →
      live' ticket → live ticket ∧ held' key ≠ none)
    (hheld : ∀ key value, held' key = some value → held key = some value) :
    Served held' live' ops m where
  kept key value hvalue := h.kept key value (hheld key value hvalue)
  found before ticket key after heq hticket := by
    have hmem : .get ticket key ∈ ops := by
      rw [heq]
      exact List.mem_append_right _ List.mem_cons_self
    obtain ⟨hwaited, hsome⟩ := hlive ticket key hmem hticket
    obtain ⟨value, hvalue, hfound⟩ := h.found before ticket key after heq hwaited
    obtain ⟨value', hvalue'⟩ := Option.ne_none_iff_exists'.mp hsome
    have hsame := hheld key value' hvalue'
    rw [hvalue] at hsame
    cases hsame
    exact ⟨value, hvalue', hfound⟩

-- Reads of values that are held are queued, and removals of values that are not.
theorem append (h : Served held live ops m) (hput : ∀ key value, .put key value ∉ new)
    (hremove : ∀ key, .remove key ∈ new → held key = none)
    (hget : ∀ ticket key, .get ticket key ∈ new → live ticket → held key ≠ none) :
    Served held live (ops ++ new) m := by
  have huntouched : ∀ front key value, front <+: new → held key = some value →
      settled (ops ++ front) m key = some value := by
    intro front key value hfront hvalue
    rw [settled_append, settled_of_untouched]
    · exact h.kept key value hvalue
    · exact fun value' hmem => hput key value' (hfront.subset hmem)
    · intro hmem
      rw [hremove key (hfront.subset hmem)] at hvalue
      cases hvalue
  refine ⟨fun key value => huntouched new key value List.prefix_rfl, ?_⟩
  intro before ticket key after heq hticket
  rcases append_eq_append_cons heq with ⟨back, hops⟩ | ⟨front, rfl, hnew⟩
  · exact h.found before ticket key back hops hticket
  · -- the read is one of the new tasks
    have hmem : .get ticket key ∈ new := by
      rw [hnew]
      exact List.mem_append_right _ List.mem_cons_self
    obtain ⟨value, hvalue⟩ := Option.ne_none_iff_exists'.mp (hget ticket key hmem hticket)
    exact ⟨value, hvalue, huntouched front key value ⟨_, hnew.symm⟩ hvalue⟩

/-- A value is written that nobody has held, and somebody holds it from now on. -/
theorem put (h : Served held live ops m) (hfree : held key = none) :
    Served (Function.update held key (some value)) live (ops ++ [.put key value]) m where
  kept other value' hvalue := by
    rw [settled_append]
    by_cases hother : other = key
    · rw [hother, Function.update_self] at hvalue
      rw [hother]
      exact (Function.update_self ..).trans hvalue
    · rw [Function.update_of_ne hother] at hvalue
      exact (Function.update_of_ne hother ..).trans (h.kept other value' hvalue)
  found before ticket other after heq hticket := by
    have hfront : ∃ back, ops = before ++ .get ticket other :: back := by
      rcases append_eq_append_cons heq with hops | ⟨front, -, hnew⟩
      · exact hops
      · cases front with
        | nil => cases hnew
        | cons op front =>
          have hlength := congrArg List.length (List.cons.inj hnew).2
          simp at hlength
    obtain ⟨back, hops⟩ := hfront
    obtain ⟨value', hvalue, hfound⟩ := h.found before ticket other back hops hticket
    refine ⟨value', ?_, hfound⟩
    rw [Function.update_of_ne, hvalue]
    rintro rfl
    rw [hfree] at hvalue
    cases hvalue

end Served

end WriteBehind
