import Mathlib.Tactic

/-!
# Contents — the contents of outgoing messages and the messages that use them

What the keyring does with contents, without the rest of it: the messages of one mail share a new
content, a message that is acknowledged gives its content up, and the content is deleted with the
last message that uses it.
-/

namespace Notbit.Keyring

/-- A call to the store about the content of messages. -/
inductive ContentCall where
  | save (id : Nat) (content : List UInt8)
  | delete (id : Nat)

/-- The content a call saves under a number. -/
def ContentCall.saved (contentId : Nat) : ContentCall → Option (List UInt8)
  | .save id content => if id = contentId then some content else none
  | .delete _ => none

/-- The messages with their content ids, the next id, and the calls so far. -/
structure Contents where
  users : List (Nat × Nat)
  next : Nat
  calls : List ContentCall

namespace Contents

variable {c c' : Contents} {id contentId : Nat} {ids : List Nat} {content : List UInt8}

/-- Some message uses the content. -/
def Uses (c : Contents) (contentId : Nat) : Prop := contentId ∈ c.users.map (·.2)

instance (c : Contents) (contentId : Nat) : Decidable (c.Uses contentId) :=
  inferInstanceAs (Decidable (contentId ∈ c.users.map (·.2)))

/-- What was saved last under a number. -/
def saved (c : Contents) (contentId : Nat) : Option (List UInt8) :=
  (c.calls.filterMap (·.saved contentId)).getLast?

/-- The contents that are needed. -/
def held (c : Contents) (contentId : Nat) : Option (List UInt8) :=
  if c.Uses contentId then c.saved contentId else none

/-- A mail to some recipients. -/
def submit (c : Contents) (ids : List Nat) (content : List UInt8) : Contents where
  users := c.users ++ ids.map fun id => (id, c.next)
  next := c.next + 1
  calls := c.calls ++ [.save c.next content]

/-- The call for a content that a message has given up. -/
def deletion (c : Contents) (contentId : Nat) : List ContentCall :=
  if c.Uses contentId then [] else [.delete contentId]

/-- The acknowledgement of a message. -/
def acknowledge (c : Contents) (id contentId : Nat) : Contents :=
  let c : Contents := { c with users := c.users.filter (·.1 ≠ id) }
  { c with calls := c.calls ++ c.deletion contentId }

/-- What an object of the network can do. -/
inductive Settles (c : Contents) : Contents → Prop
  | same : Settles c c
  | acknowledged {id contentId : Nat} (h : (id, contentId) ∈ c.users) :
    Settles c (c.acknowledge id contentId)

/-- What an event can do. -/
inductive Step (c : Contents) : Contents → Prop
  | settles {c' : Contents} (h : c.Settles c') : Step c c'
  | submitted {ids : List Nat} (hids : ids ≠ []) (content : List UInt8) :
    Step c (c.submit ids content)

/-- The messages are told apart, their contents were saved, and the next id is free. -/
structure Kept (c : Contents) : Prop where
  ids : (c.users.map (·.1)).Nodup
  below : ∀ contentId, c.Uses contentId → contentId < c.next
  saved : ∀ contentId, c.Uses contentId → c.saved contentId ≠ none

/-- The calls between two states: new messages have the next id, under which their content is saved,
and a content is deleted exactly when the last message that used it is gone. -/
structure Tally (c c' : Contents) (calls : List ContentCall) : Prop where
  saves : ∀ id content, .save id content ∈ calls → id = c.next
  fresh : ∀ user ∈ c'.users, user ∉ c.users → user.2 = c.next
  deletes : ∀ id, .delete id ∈ calls ↔ c.Uses id ∧ ¬ c'.Uses id

/-! ## Acknowledgements -/

theorem Settles.users_subset (h : c.Settles c') : c'.users ⊆ c.users := by
  cases h with
  | same => exact List.Subset.refl _
  | acknowledged _ => exact List.filter_sublist.subset

theorem Settles.next (h : c.Settles c') : c'.next = c.next := by
  cases h <;> rfl

theorem uses_of_subset (h : c'.users ⊆ c.users) (huses : c'.Uses contentId) : c.Uses contentId :=
  List.map_subset _ h huses

-- The content of a message that is gone is the only one that may not be used any more.
theorem uses_acknowledge (hids : (c.users.map (·.1)).Nodup) (h : (id, contentId) ∈ c.users)
    {other : Nat} (hother : other ≠ contentId) :
    (c.acknowledge id contentId).Uses other ↔ c.Uses other := by
  refine ⟨uses_of_subset List.filter_sublist.subset, fun huses => ?_⟩
  obtain ⟨user, huser, rfl⟩ := List.mem_map.mp huses
  refine List.mem_map_of_mem (List.mem_filter.mpr ⟨huser, decide_eq_true fun hid => hother ?_⟩)
  rw [List.inj_on_of_nodup_map hids huser h hid]

theorem saved_append {calls : List ContentCall} (h : ∀ content, .save contentId content ∉ calls) :
    ({ c with calls := c.calls ++ calls } : Contents).saved contentId = c.saved contentId := by
  have hnone : calls.filterMap (·.saved contentId) = [] := by
    refine List.filterMap_eq_nil_iff.mpr fun call hcall => ?_
    cases call with
    | save id content =>
      refine if_neg ?_
      rintro rfl
      exact h content hcall
    | delete id => rfl
  simp only [saved, List.filterMap_append, hnone, List.append_nil]

theorem save_notMem_deletion : .save id content ∉ c.deletion contentId := by
  unfold deletion
  split_ifs <;> simp

theorem mem_deletion : .delete id ∈ c.deletion contentId ↔ id = contentId ∧ ¬ c.Uses id := by
  unfold deletion
  split_ifs with huses
  · simp only [List.not_mem_nil, false_iff, not_and, not_not]
    rintro rfl
    exact huses
  · simp only [List.mem_singleton, ContentCall.delete.injEq]
    refine ⟨?_, And.left⟩
    rintro rfl
    exact ⟨rfl, huses⟩

theorem Settles.saved (h : c.Settles c') (contentId : Nat) : c'.saved contentId = c.saved contentId := by
  cases h with
  | same => rfl
  | acknowledged _ => exact saved_append fun _ => save_notMem_deletion

theorem Settles.kept (h : c.Settles c') (hkept : c.Kept) : c'.Kept where
  ids := by
    cases h with
    | same => exact hkept.ids
    | acknowledged _ => exact hkept.ids.sublist (List.filter_sublist.map _)
  below contentId huses := by
    rw [h.next]
    exact hkept.below contentId (uses_of_subset h.users_subset huses)
  saved contentId huses := by
    rw [h.saved]
    exact hkept.saved contentId (uses_of_subset h.users_subset huses)

theorem Settles.tally (h : c.Settles c') (hkept : c.Kept) :
    ∃ calls, c'.calls = c.calls ++ calls ∧ c.Tally c' calls ∧
      ∀ id content, .save id content ∉ calls := by
  have hfresh : ∀ user ∈ c'.users, user ∉ c.users → user.2 = c.next := fun user huser hnew =>
    absurd (h.users_subset huser) hnew
  cases h with
  | same => exact ⟨[], (List.append_nil _).symm, ⟨by simp, hfresh, by simp⟩, by simp⟩
  | @acknowledged id contentId hmem =>
    have hsave : ∀ other content, .save other content ∉
        ({ c with users := c.users.filter (·.1 ≠ id) } : Contents).deletion contentId :=
      fun _ _ => save_notMem_deletion
    refine ⟨_, rfl, ⟨fun other content hcall => absurd hcall (hsave other content), hfresh, ?_⟩,
      hsave⟩
    intro other
    rw [mem_deletion]
    constructor
    · rintro ⟨rfl, hgone⟩
      exact ⟨List.mem_map_of_mem (f := (·.2)) hmem, hgone⟩
    · rintro ⟨huses, hgone⟩
      refine ⟨?_, hgone⟩
      by_contra hne
      exact hgone ((uses_acknowledge hkept.ids hmem hne).mpr huses)

/-! ## Mails -/

theorem uses_submit (hids : ids ≠ []) :
    (c.submit ids content).Uses contentId ↔ c.Uses contentId ∨ contentId = c.next := by
  simp only [Uses, submit, List.map_append, List.map_map, List.mem_append, List.mem_map,
    Function.comp_apply]
  refine or_congr_right ⟨?_, fun heq => ?_⟩
  · rintro ⟨-, -, rfl⟩
    rfl
  · obtain ⟨id, hid⟩ := List.exists_mem_of_ne_nil ids hids
    exact ⟨id, hid, heq.symm⟩

theorem saved_submit_next : (c.submit ids content).saved c.next = some content := by
  simp only [saved, submit, List.filterMap_append, List.filterMap_cons, ContentCall.saved, if_true,
    List.filterMap_nil, List.getLast?_concat]

theorem saved_submit (h : contentId ≠ c.next) :
    (c.submit ids content).saved contentId = c.saved contentId := by
  refine saved_append fun other hcall => h ?_
  cases List.mem_singleton.mp hcall
  rfl

theorem held_submit (hids : ids ≠ []) :
    (c.submit ids content).held = Function.update c.held c.next (some content) := by
  funext contentId
  by_cases heq : contentId = c.next
  · subst heq
    rw [Function.update_self, held, if_pos ((uses_submit hids).mpr (.inr rfl)), saved_submit_next]
  · rw [Function.update_of_ne heq]
    unfold held
    rw [saved_submit heq]
    refine if_congr ?_ rfl rfl
    rw [uses_submit hids, or_iff_left heq]

theorem tally_submit (hids : ids ≠ []) (content : List UInt8) :
    c.Tally (c.submit ids content) [.save c.next content] where
  saves id other hcall := by
    cases List.mem_singleton.mp hcall
    rfl
  fresh user huser hnew := by
    obtain ⟨id, -, rfl⟩ := List.mem_map.mp ((List.mem_append.mp huser).resolve_left hnew)
    rfl
  deletes id := by
    rw [uses_submit hids]
    simp only [List.mem_singleton, reduceCtorEq, false_iff]
    exact fun h => h.2 (.inl h.1)

/-! ## Steps -/

/-- The messages of a mail are new. -/
theorem Step.kept (h : c.Step c') (hkept : c.Kept) (hids : (c'.users.map (·.1)).Nodup) : c'.Kept := by
  cases h with
  | settles h => exact h.kept hkept
  | @submitted ids hne content =>
    refine ⟨hids, fun contentId huses => ?_, fun contentId huses => ?_⟩
    · rcases (uses_submit hne).mp huses with hold | rfl
      · exact Nat.lt_succ_of_lt (hkept.below contentId hold)
      · exact Nat.lt_succ_self _
    · by_cases heq : contentId = c.next
      · rw [heq, saved_submit_next]
        exact Option.some_ne_none content
      · rw [saved_submit heq]
        exact hkept.saved contentId (((uses_submit hne).mp huses).resolve_right heq)

theorem Step.tally (h : c.Step c') (hkept : c.Kept) :
    ∃ calls, c'.calls = c.calls ++ calls ∧ c.Tally c' calls := by
  cases h with
  | settles h =>
    obtain ⟨calls, hcalls, htally, -⟩ := h.tally hkept
    exact ⟨calls, hcalls, htally⟩
  | submitted hne content => exact ⟨_, rfl, tally_submit hne content⟩

end Contents

end Notbit.Keyring
