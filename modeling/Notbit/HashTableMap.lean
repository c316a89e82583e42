import Mathlib.Data.Finmap
import Notbit.HashTable

/-!
# HashTableMap — the table is a finite map from hashes to pointers (`ntb-hash-table.c`)

Between two calls the memory may change in any way that leaves the hashes of the stored values as
they are.  What the calls return is then what they would on a finite map.
-/

namespace Notbit

namespace HashTable

variable {α : Type}

/-! ## 1. The calls -/

/-- A call of one of the functions. -/
inductive Call (α : Type) where
  | set (value : α)
  | get (hash : Hash)
  | remove (value : α)

/-- What a call returns. -/
inductive Outcome (α : Type) where
  | value (v : Option α)
  | removed (b : Bool)
  deriving DecidableEq

/-- A call on the table. -/
def call [DecidableEq α] (hashOf : α → Hash) (t : HashTable α) : Call α → Outcome α × HashTable α
  | .set v => (.value (t.set hashOf v).1, (t.set hashOf v).2)
  | .get hash => (.value (t.get hashOf hash), t)
  | .remove v => (.removed (t.remove v (hashOf v)).1, (t.remove v (hashOf v)).2)

/-- The values under their hashes. -/
abbrev Map (α : Type) := Finmap fun _ : Hash => α

/-- The same on a map: a pointer can be removed when it is stored under any hash. -/
def Map.call [DecidableEq α] (hashOf : α → Hash) (m : Map α) : Call α → Outcome α × Map α
  | .set v => (.value (m.lookup (hashOf v)), m.insert (hashOf v) v)
  | .get hash => (.value (m.lookup hash), m)
  | .remove v =>
    if ∃ hash ∈ m.keys, m.lookup hash = some v then (.removed true, m.erase (hashOf v))
    else (.removed false, m)

/-- Calls one after the other, each with the memory at that time. -/
def calls [DecidableEq α] (t : HashTable α) :
    List ((α → Hash) × Call α) → List (Outcome α) × HashTable α
  | [] => ([], t)
  | (hashOf, c) :: rest =>
    let (outcome, t) := t.call hashOf c
    let (outcomes, t) := t.calls rest
    (outcome :: outcomes, t)

def Map.calls [DecidableEq α] (m : Map α) :
    List ((α → Hash) × Call α) → List (Outcome α) × Map α
  | [] => ([], m)
  | (hashOf, c) :: rest =>
    let (outcome, m) := m.call hashOf c
    let (outcomes, m) := Map.calls m rest
    (outcome :: outcomes, m)

/-- The hashes of the stored values are those they were stored with. -/
def Map.Agrees (hashOf : α → Hash) (m : Map α) : Prop :=
  ∀ hash v, m.lookup hash = some v → hashOf v = hash

/-- No hash changes while its value is stored. -/
def Map.Steady [DecidableEq α] (m : Map α) : List ((α → Hash) × Call α) → Prop
  | [] => True
  | (hashOf, c) :: rest => m.Agrees hashOf ∧ Map.Steady (m.call hashOf c).2 rest

/-! ## 2. A single call -/

/-- The table holds what is in the map. -/
structure Refines (hashOf : α → Hash) (t : HashTable α) (m : Map α) : Prop where
  wf : WF hashOf t
  lookup_iff : ∀ hash v, m.lookup hash = some v ↔ v ∈ t.values ∧ hashOf v = hash

namespace Refines

variable {hashOf hashOf' : α → Hash} {t : HashTable α} {m : Map α}

theorem new (hashOf : α → Hash) : Refines hashOf (new : HashTable α) ∅ where
  wf := wf_new
  lookup_iff hash v := by
    refine iff_of_false ?_ ?_
    · rw [Finmap.lookup_empty]
      exact nofun
    · rintro ⟨hv, -⟩
      cases hv

theorem agrees (h : Refines hashOf t m) : m.Agrees hashOf :=
  fun hash v hv => ((h.lookup_iff hash v).mp hv).2

-- The memory changes.
theorem change (h : Refines hashOf t m) (hagrees : m.Agrees hashOf') : Refines hashOf' t m := by
  have hsame : ∀ v ∈ t.values, hashOf' v = hashOf v := fun v hv =>
    hagrees _ v ((h.lookup_iff _ v).mpr ⟨hv, rfl⟩)
  refine ⟨h.wf.congr hsame, fun hash v => (h.lookup_iff hash v).trans ?_⟩
  exact and_congr_right fun hv => by rw [hsame v hv]

theorem get_eq (h : Refines hashOf t m) (hash : Hash) :
    t.get hashOf hash = m.lookup hash := by
  apply Option.ext
  intro v
  exact h.wf.get_eq_some.trans (h.lookup_iff hash v).symm

-- The keys are the hashes of the values.
theorem mem_keys (h : Refines hashOf t m) {hash : Hash} :
    hash ∈ m.keys ↔ hash ∈ t.values.map hashOf := by
  rw [Finmap.mem_keys, Finmap.mem_iff, List.mem_map]
  exact exists_congr fun v => h.lookup_iff hash v

theorem card_keys (h : Refines hashOf t m) : t.nEntries = m.keys.card := by
  have hkeys : m.keys = (t.values.map hashOf).toFinset := by
    apply Finset.ext
    intro hash
    rw [h.mem_keys, List.mem_toFinset]
  rw [h.wf.count, hkeys, List.toFinset_card_of_nodup h.wf.distinct, List.length_map]

theorem stored_iff (h : Refines hashOf t m) {v : α} :
    (∃ hash ∈ m.keys, m.lookup hash = some v) ↔ v ∈ t.values := by
  constructor
  · rintro ⟨hash, -, hv⟩
    exact ((h.lookup_iff hash v).mp hv).1
  · intro hv
    exact ⟨hashOf v, h.mem_keys.mpr (List.mem_map_of_mem hv), (h.lookup_iff _ v).mpr ⟨hv, rfl⟩⟩

-- The value that is replaced is the one with the same hash.
theorem set_eq (h : Refines hashOf t m) (v : α) :
    (t.set hashOf v).1 = m.lookup (hashOf v) := by
  rw [← h.get_eq]
  unfold HashTable.set
  dsimp only
  split
  next i hfind =>
    obtain ⟨hlt, hhash, -⟩ := List.findIdx?_eq_some_iff_getElem.mp hfind
    have hget : t.get hashOf (hashOf v) =
        some (Chains.chain t.entries (getIndex t.size (hashOf v)))[i] :=
      h.wf.get_eq_some.mpr
        ⟨Chains.mem_flatten_iff.mpr ⟨_, List.getElem_mem hlt⟩, of_decide_eq_true hhash⟩
    rw [hget]
    exact List.getElem?_eq_getElem hlt
  next hnone =>
    rw [List.findIdx?_eq_none_iff] at hnone
    symm
    rw [HashTable.get, List.find?_eq_none]
    exact fun w hw => ne_true_of_eq_false (hnone w hw)

variable [DecidableEq α]

theorem set (h : Refines hashOf t m) (v : α) :
    Refines hashOf (t.set hashOf v).2 (m.insert (hashOf v) v) := by
  have hmem : ∀ values : List α, (t.set hashOf v).2.values.Perm (v :: values) →
      WF hashOf (t.set hashOf v).2 →
      (∀ w, hashOf w ≠ hashOf v → (w ∈ values ↔ w ∈ t.values)) →
      Refines hashOf (t.set hashOf v).2 (m.insert (hashOf v) v) := by
    intro values hperm hwf hothers
    refine ⟨hwf, fun hash w => ?_⟩
    have hv : v ∈ (t.set hashOf v).2.values := hperm.mem_iff.mpr List.mem_cons_self
    by_cases hash_eq : hash = hashOf v
    · subst hash_eq
      rw [Finmap.lookup_insert, Option.some.injEq]
      constructor
      · rintro rfl
        exact ⟨hv, rfl⟩
      · rintro ⟨hw, heq⟩
        exact hwf.eq_of_hash hv hw heq.symm
    · rw [Finmap.lookup_insert_of_ne _ hash_eq, h.lookup_iff]
      refine and_congr_left fun heq => ?_
      have hne : hashOf w ≠ hashOf v := by
        rw [heq]
        exact hash_eq
      rw [hperm.mem_iff, List.mem_cons, hothers w hne]
      refine (or_iff_right ?_).symm
      rintro rfl
      exact hne rfl
  by_cases hnew : ∀ w ∈ t.values, hashOf w ≠ hashOf v
  · obtain ⟨hperm, hwf⟩ := h.wf.set_new hnew
    exact hmem t.values hperm hwf fun w _ => Iff.rfl
  · push Not at hnew
    obtain ⟨w, hw, heq⟩ := hnew
    obtain ⟨hperm, hwf⟩ := h.wf.set_old hw heq
    refine hmem (t.values.erase w) hperm hwf fun u hu => List.mem_erase_of_ne ?_
    rintro rfl
    exact hu heq

theorem remove (h : Refines hashOf t m) {v : α} (hv : v ∈ t.values) :
    Refines hashOf (t.remove v (hashOf v)).2 (m.erase (hashOf v)) := by
  obtain ⟨-, hperm, hwf⟩ := h.wf.remove_mem hv
  refine ⟨hwf, fun hash w => ?_⟩
  rw [hperm.mem_iff, h.wf.nodup.mem_erase_iff]
  by_cases hash_eq : hash = hashOf v
  · subst hash_eq
    rw [Finmap.lookup_erase]
    refine iff_of_false nofun ?_
    rintro ⟨⟨hne, hw⟩, heq⟩
    exact hne (h.wf.eq_of_hash hw hv heq)
  · rw [Finmap.lookup_erase_ne hash_eq, h.lookup_iff]
    refine and_congr_left fun heq => (and_iff_right ?_).symm
    rintro rfl
    exact hash_eq heq.symm

/-- A call returns what it does on the map, and keeps the refinement. -/
theorem call (h : Refines hashOf t m) (c : Call α) :
    (t.call hashOf c).1 = (m.call hashOf c).1 ∧
      Refines hashOf (t.call hashOf c).2 (m.call hashOf c).2 := by
  cases c with
  | set v => exact ⟨congrArg Outcome.value (h.set_eq v), h.set v⟩
  | get hash => exact ⟨congrArg Outcome.value (h.get_eq hash), h⟩
  | remove v =>
    unfold HashTable.call Map.call
    dsimp only
    by_cases hv : v ∈ t.values
    · rw [if_pos (h.stored_iff.mpr hv), (h.wf.remove_mem hv).1]
      exact ⟨rfl, h.remove hv⟩
    · rw [if_neg (mt h.stored_iff.mp hv), WF.remove_notMem hv]
      exact ⟨rfl, h⟩

end Refines

/-! ## 3. Runs -/

theorem Map.Agrees.empty (hashOf : α → Hash) : (∅ : Map α).Agrees hashOf := by
  intro hash v hv
  rw [Finmap.lookup_empty] at hv
  cases hv

variable [DecidableEq α]

theorem Refines.calls {hashOf : α → Hash} {t : HashTable α} {m : Map α} (h : Refines hashOf t m)
    {run : List ((α → Hash) × Call α)} (hsteady : m.Steady run) :
    (t.calls run).1 = (m.calls run).1 ∧
      ∃ hashOf', Refines hashOf' (t.calls run).2 (m.calls run).2 := by
  induction run generalizing hashOf t m with
  | nil => exact ⟨rfl, hashOf, h⟩
  | cons p run ih =>
    obtain ⟨hagrees, hrest⟩ := hsteady
    obtain ⟨houtcome, hnext⟩ := (h.change hagrees).call p.2
    obtain ⟨houtcomes, hfinal⟩ := ih hnext hrest
    exact ⟨congrArg₂ List.cons houtcome houtcomes, hfinal⟩

/-- Nothing changes in memory. -/
theorem Map.Agrees.call {hashOf : α → Hash} {m : Map α} (h : m.Agrees hashOf) (c : Call α) :
    (m.call hashOf c).2.Agrees hashOf := by
  intro hash w hw
  cases c with
  | set v =>
    change (m.insert (hashOf v) v).lookup hash = some w at hw
    by_cases hash_eq : hash = hashOf v
    · subst hash_eq
      rw [Finmap.lookup_insert, Option.some.injEq] at hw
      rw [hw]
    · rw [Finmap.lookup_insert_of_ne _ hash_eq] at hw
      exact h hash w hw
  | get => exact h hash w hw
  | remove v =>
    unfold Map.call at hw
    dsimp only at hw
    split at hw
    · by_cases hash_eq : hash = hashOf v
      · subst hash_eq
        rw [Finmap.lookup_erase] at hw
        cases hw
      · rw [Finmap.lookup_erase_ne hash_eq] at hw
        exact h hash w hw
    · exact h hash w hw

theorem Map.Agrees.steady {hashOf : α → Hash} {m : Map α} (h : m.Agrees hashOf)
    (run : List (Call α)) : m.Steady (run.map fun c => (hashOf, c)) := by
  induction run generalizing m with
  | nil => trivial
  | cons c run ih => exact ⟨h, ih (h.call c)⟩

/-- In every run from the empty table in which no hash changes while its value is stored, the calls
return what they do on a finite map.  At the end the table is well-formed and has the entries of the
map, of which the counter is the number.  Sizes and the counters of loops have no bound here. -/
theorem table_is_map (run : List ((α → Hash) × Call α)) (hsteady : (∅ : Map α).Steady run) :
    ((new : HashTable α).calls run).1 = ((∅ : Map α).calls run).1 ∧
    ∀ hashOf, ((∅ : Map α).calls run).2.Agrees hashOf →
      WF hashOf ((new : HashTable α).calls run).2 ∧
      (∀ hash v, ((∅ : Map α).calls run).2.lookup hash = some v ↔
        v ∈ ((new : HashTable α).calls run).2.values ∧ hashOf v = hash) ∧
      ((new : HashTable α).calls run).2.nEntries = ((∅ : Map α).calls run).2.keys.card := by
  cases run with
  | nil =>
    refine ⟨rfl, fun hashOf _ => ?_⟩
    have hnew := Refines.new (α := α) hashOf
    exact ⟨hnew.wf, hnew.lookup_iff, hnew.card_keys⟩
  | cons p run =>
    obtain ⟨houtcomes, hashOf', hfinal⟩ := (Refines.new p.1).calls hsteady
    refine ⟨houtcomes, fun hashOf hagrees => ?_⟩
    have hnow := hfinal.change hagrees
    exact ⟨hnow.wf, hnow.lookup_iff, hnow.card_keys⟩

-- Eight values, for which the table grows, are stored and looked up, and one is removed.
theorem eight_values_are_mapped :
    let hashOf : Fin 8 → Hash := fun i => ⟨List.replicate 32 (UInt8.ofNat i), List.length_replicate⟩
    let run := ((List.finRange 8).map Call.set ++
      (List.finRange 8).map (fun i => Call.get (hashOf i)) ++
        [Call.remove 3, Call.get (hashOf 3)]).map fun c => (hashOf, c)
    ((new : HashTable (Fin 8)).calls run).1 = ((∅ : Map (Fin 8)).calls run).1 ∧
      (new : HashTable (Fin 8)).size < ((new : HashTable (Fin 8)).calls run).2.size :=
  ⟨(table_is_map _ (Map.Agrees.steady (.empty _) _)).1, by decide +kernel⟩

end HashTable

end Notbit
