import Notbit.Lib.Bytes
import Notbit.Lib.Chains

/-!
# HashTable — the table of 32-byte hashes (`ntb-hash-table.c`)

The table stores pointers and reads the hash of an entry from the memory it points to, every time
it walks a chain.  That memory is the argument `hashOf`: nothing in the table keeps a hash.
`WF hashOf t` is what the operations rely on and keep, as long as the memory of the stored
pointers does not change.
-/

open Bytes Chains

namespace Notbit

/-- `NTB_PROTO_HASH_LENGTH` bytes. -/
abbrev Hash := { bytes : List UInt8 // bytes.length = 32 }

/-- What memory that is all zero holds for a hash. -/
def zeroHash : Hash := ⟨List.replicate 32 0, by decide⟩

/-- `struct ntb_hash_table`: the chains, first entry first. -/
structure HashTable (α : Type) where
  entries : List (List α)
  nEntries : Nat

namespace HashTable

variable {α : Type}

/-- The length of the array of chains. -/
def size (t : HashTable α) : Nat := t.entries.length

/-- `ntb_hash_table_new` -/
def new : HashTable α where
  entries := List.replicate 8 []
  nEntries := 0

/-- `get_index`: the first four bytes, as the `uint32_t` they are on a little-endian machine. -/
def getIndex (size : Nat) (hash : Hash) : Nat :=
  ofBE (hash.val.take 4).reverse &&& (size - 1)

/-- The values that are stored, in the order of the chains. -/
def values (t : HashTable α) : List α := t.entries.flatten

/-- `ntb_hash_table_get` -/
def get (hashOf : α → Hash) (t : HashTable α) (hash : Hash) : Option α :=
  (chain t.entries (getIndex t.size hash)).find? (hashOf · = hash)

/-- `ntb_hash_table_grow`: every entry is put in front of its chain in a table twice the size.  The
size and the number of the entries are natural numbers here, and so is the counter of the loop over
the chains, which is an `int`: tables are meant to have fewer than 2^31 chains. -/
def grow (hashOf : α → Hash) (t : HashTable α) : HashTable α where
  entries := fill (fun v => getIndex (t.size * 2) (hashOf v))
    (List.replicate (t.size * 2) []) t.entries.flatten
  nEntries := t.nEntries

/-- `insert_entry_at_index` with the counter that goes with it. -/
def insertEntry (hashOf : α → Hash) (t : HashTable α) (value : α) : HashTable α where
  entries := t.entries.modify (getIndex t.size (hashOf value)) (value :: ·)
  nEntries := t.nEntries + 1

/-- `ntb_hash_table_set`: the value that was replaced, and the table. -/
def set (hashOf : α → Hash) (t : HashTable α) (value : α) : Option α × HashTable α :=
  let index := getIndex t.size (hashOf value)
  match (chain t.entries index).findIdx? (hashOf · = hashOf value) with
  | some i =>
    ((chain t.entries index)[i]?, { t with entries := t.entries.modify index (·.set i value) })
  | none =>
    let t := if t.nEntries ≥ t.size * 3 / 4 then t.grow hashOf else t
    (none, t.insertEntry hashOf value)

/-- `ntb_hash_table_remove`: the entry is searched by its pointer, in the chain of the hash that is
found behind that pointer. -/
def remove [DecidableEq α] (t : HashTable α) (value : α) (hash : Hash) : Bool × HashTable α :=
  let index := getIndex t.size hash
  if value ∈ chain t.entries index then
    (true, { entries := t.entries.modify index (·.erase value), nEntries := t.nEntries - 1 })
  else (false, t)

/-! ## 1. Well-formed tables -/

/-- Every value is in the chain its hash selects, no hash occurs twice, and the counter is the
number of values. -/
structure WF (hashOf : α → Hash) (t : HashTable α) : Prop where
  size_pos : 0 < t.size
  placed : Placed (fun v => getIndex t.size (hashOf v)) t.entries
  distinct : (t.values.map hashOf).Nodup
  count : t.nEntries = t.values.length

variable {hashOf : α → Hash} {t : HashTable α}

theorem getIndex_lt {size : Nat} (hsize : 0 < size) (hash : Hash) : getIndex size hash < size := by
  have h : getIndex size hash ≤ size - 1 := Nat.and_le_right
  omega

theorem wf_new : WF hashOf (new : HashTable α) where
  size_pos := by
    rw [size, new, List.length_replicate]
    decide
  placed := placed_replicate _ _
  distinct := List.nodup_nil
  count := rfl

theorem size_grow (t : HashTable α) : (t.grow hashOf).size = t.size * 2 := by
  simp [size, grow]

theorem values_grow (hsize : 0 < t.size) : (t.grow hashOf).values.Perm t.values := by
  have hfill := @flatten_fill α (List.replicate (t.size * 2) [])
    (fun v => getIndex (t.size * 2) (hashOf v)) t.entries.flatten fun v => by
      rw [List.length_replicate]
      exact getIndex_lt (Nat.mul_pos hsize (by decide)) _
  rwa [List.flatten_replicate_nil, List.append_nil] at hfill

theorem placed_grow (hsize : 0 < t.size) :
    Placed (fun v => getIndex (t.grow hashOf).size (hashOf v)) (t.grow hashOf).entries := by
  rw [size_grow]
  apply (placed_replicate _ _).fill
  intro v
  rw [List.length_replicate]
  exact getIndex_lt (Nat.mul_pos hsize (by decide)) _

namespace WF

theorem nodup (h : WF hashOf t) : t.values.Nodup := h.distinct.of_map hashOf

-- Two values of the table with one hash are one value.
theorem eq_of_hash (h : WF hashOf t) {v w : α} (hv : v ∈ t.values) (hw : w ∈ t.values)
    (heq : hashOf v = hashOf w) : v = w :=
  List.inj_on_of_nodup_map h.distinct hv hw heq

-- A lookup finds exactly the value with that hash.
theorem get_eq_some (h : WF hashOf t) {hash : Hash} {v : α} :
    t.get hashOf hash = some v ↔ v ∈ t.values ∧ hashOf v = hash := by
  unfold get
  constructor
  · intro hget
    have hv : v ∈ t.values := mem_flatten_iff.mpr ⟨_, List.mem_of_find?_eq_some hget⟩
    have heq := List.find?_some hget
    exact ⟨hv, of_decide_eq_true heq⟩
  · rintro ⟨hv, rfl⟩
    have hchain : v ∈ chain t.entries (getIndex t.size (hashOf v)) := h.placed.mem_chain hv
    cases hfind : (chain t.entries (getIndex t.size (hashOf v))).find? (hashOf · = hashOf v) with
    | none => exact absurd (decide_eq_true rfl) (List.find?_eq_none.mp hfind v hchain)
    | some w =>
      have hw : w ∈ t.values := mem_flatten_iff.mpr ⟨_, List.mem_of_find?_eq_some hfind⟩
      have heq := List.find?_some hfind
      rw [h.eq_of_hash hw hv (of_decide_eq_true heq)]

theorem get_eq_none (h : WF hashOf t) {hash : Hash} :
    t.get hashOf hash = none ↔ ∀ v ∈ t.values, hashOf v ≠ hash := by
  constructor
  · intro hnone v hv heq
    have hsome := h.get_eq_some.mpr ⟨hv, heq⟩
    rw [hnone] at hsome
    cases hsome
  · intro hall
    cases hget : t.get hashOf hash with
    | none => rfl
    | some v =>
      have hv := h.get_eq_some.mp hget
      exact absurd hv.2 (hall v hv.1)

-- The table does not notice a change of memory outside its values.
theorem congr (h : WF hashOf t) {hashOf' : α → Hash} (heq : ∀ v ∈ t.values, hashOf' v = hashOf v) :
    WF hashOf' t where
  size_pos := h.size_pos
  placed := h.placed.congr fun v hv => by rw [heq v hv]
  distinct := by
    rw [List.map_congr_left heq]
    exact h.distinct
  count := h.count

/-! ## 2. What the operations do to the values -/

theorem grow_values (h : WF hashOf t) : (t.grow hashOf).values.Perm t.values :=
  values_grow h.size_pos

theorem grow (h : WF hashOf t) : WF hashOf (t.grow hashOf) where
  size_pos := by
    rw [size_grow]
    exact Nat.mul_pos h.size_pos (by decide)
  placed := placed_grow h.size_pos
  distinct := (h.grow_values.map hashOf).nodup_iff.mpr h.distinct
  count := h.count.trans h.grow_values.length_eq.symm

variable {v : α}

theorem insertEntry_values (h : WF hashOf t) (v : α) :
    (t.insertEntry hashOf v).values.Perm (v :: t.values) :=
  flatten_insert (getIndex_lt h.size_pos _) v

theorem insertEntry (h : WF hashOf t) (hnew : ∀ w ∈ t.values, hashOf w ≠ hashOf v) :
    WF hashOf (t.insertEntry hashOf v) := by
  have hvalues := h.insertEntry_values v
  have hsize : (t.insertEntry hashOf v).size = t.size := List.length_modify _ _ _
  refine ⟨hsize ▸ h.size_pos, ?_, ?_, ?_⟩
  · rw [hsize]
    exact h.placed.insert (getIndex_lt h.size_pos _) rfl
  · rw [(hvalues.map hashOf).nodup_iff, List.map_cons, List.nodup_cons, List.mem_map]
    refine ⟨?_, h.distinct⟩
    rintro ⟨w, hw, heq⟩
    exact hnew w hw heq
  · rw [hvalues.length_eq, List.length_cons, ← h.count]
    rfl

-- A value whose hash is not in the table is added.
theorem set_new (h : WF hashOf t) (hnew : ∀ w ∈ t.values, hashOf w ≠ hashOf v) :
    (t.set hashOf v).2.values.Perm (v :: t.values) ∧ WF hashOf (t.set hashOf v).2 := by
  have hnone : (chain t.entries (getIndex t.size (hashOf v))).findIdx?
      (hashOf · = hashOf v) = none := by
    rw [List.findIdx?_eq_none_iff]
    intro w hw
    exact decide_eq_false (hnew w (mem_flatten_iff.mpr ⟨_, hw⟩))
  unfold set
  simp only [hnone]
  split_ifs
  · have hperm := h.grow_values
    refine ⟨(h.grow.insertEntry_values v).trans (hperm.cons v), h.grow.insertEntry ?_⟩
    intro w hw
    exact hnew w (hperm.mem_iff.mp hw)
  · exact ⟨h.insertEntry_values v, h.insertEntry hnew⟩

variable [DecidableEq α]

-- A stored pointer is found in the chain of its hash and taken out.
theorem remove_mem (h : WF hashOf t) (hv : v ∈ t.values) :
    (t.remove v (hashOf v)).1 = true ∧ (t.remove v (hashOf v)).2.values.Perm (t.values.erase v) ∧
      WF hashOf (t.remove v (hashOf v)).2 := by
  have hindex := getIndex_lt h.size_pos (hashOf v)
  have hchain : v ∈ chain t.entries (getIndex t.size (hashOf v)) := h.placed.mem_chain hv
  unfold remove
  simp only [hchain, if_true, true_and]
  have hvalues : (t.entries.modify (getIndex t.size (hashOf v)) (·.erase v)).flatten.Perm
      (t.values.erase v) := flatten_erase hindex hchain
  refine ⟨hvalues, ?_, ?_, ?_, ?_⟩
  · unfold size
    rw [List.length_modify]
    exact h.size_pos
  · have hplaced := h.placed.erase (a := v) hindex
    unfold size at hplaced ⊢
    rwa [List.length_modify]
  · rw [values, (hvalues.map hashOf).nodup_iff]
    exact h.distinct.sublist (List.erase_sublist.map hashOf)
  · rw [values, hvalues.length_eq, List.length_erase_of_mem hv, ← h.count]

/-- A value with the hash of one that is there takes its place. -/
theorem set_old {w : α} (h : WF hashOf t) (hw : w ∈ t.values) (heq : hashOf w = hashOf v) :
    (t.set hashOf v).2.values.Perm (v :: t.values.erase w) ∧ WF hashOf (t.set hashOf v).2 := by
  have hindex := getIndex_lt h.size_pos (hashOf v)
  have hchain : w ∈ chain t.entries (getIndex t.size (hashOf v)) := heq ▸ h.placed.mem_chain hw
  unfold set
  dsimp only
  split
  next i hfind =>
    obtain ⟨hlt, hhash, -⟩ := List.findIdx?_eq_some_iff_getElem.mp hfind
    have hfound : (chain t.entries (getIndex t.size (hashOf v)))[i] = w := by
      refine h.eq_of_hash (mem_flatten_iff.mpr ⟨_, List.getElem_mem hlt⟩) hw ?_
      exact (of_decide_eq_true hhash).trans heq.symm
    have hvalues := flatten_set hindex hlt v
    rw [hfound] at hvalues
    refine ⟨hvalues, ?_, ?_, ?_, ?_⟩
    · unfold size
      rw [List.length_modify]
      exact h.size_pos
    · have hplaced := h.placed.set hindex rfl i
      unfold size at hplaced ⊢
      rwa [List.length_modify]
    · have hkeys : ((v :: t.values.erase w).map hashOf).Perm (t.values.map hashOf) := by
        rw [List.map_cons, ← heq, ← List.map_cons]
        exact ((List.perm_cons_erase hw).map hashOf).symm
      rw [values, ((hvalues.map hashOf).trans hkeys).nodup_iff]
      exact h.distinct
    · rw [values, hvalues.length_eq, List.length_cons, h.count,
        (List.perm_cons_erase hw).length_eq, List.length_cons, values]
  next hnone =>
    rw [List.findIdx?_eq_none_iff] at hnone
    exact absurd (hnone w hchain) (by simp [heq])

-- A pointer that is not stored is not found, whatever hash is read behind it.
theorem remove_notMem {hash : Hash} (hv : v ∉ t.values) : t.remove v hash = (false, t) := by
  unfold remove
  rw [if_neg]
  intro hchain
  exact hv (mem_flatten_iff.mpr ⟨_, hchain⟩)

end WF

/-! ## 3. Tables that are not well-formed

A pointer that stays in the table behind its owner's back may be in any chain, but it does not hide
the others. -/

/-- The value is in the chain that its hash selects. -/
def Reaches (hashOf : α → Hash) (t : HashTable α) (v : α) : Prop :=
  v ∈ chain t.entries (getIndex t.size (hashOf v))

variable {v w : α}

theorem Reaches.get_ne_none (h : Reaches hashOf t v) : t.get hashOf (hashOf v) ≠ none := by
  intro hnone
  exact absurd (decide_eq_true rfl) (List.find?_eq_none.mp hnone v h)

theorem Reaches.congr {hashOf' : α → Hash} (h : Reaches hashOf t v)
    (heq : hashOf' v = hashOf v) : Reaches hashOf' t v := by
  rw [Reaches, heq]
  exact h

theorem Reaches.grow (h : Reaches hashOf t v) (hsize : 0 < t.size) :
    Reaches hashOf (t.grow hashOf) v := by
  apply (placed_grow hsize).mem_chain
  exact (values_grow hsize).mem_iff.mpr (mem_flatten_iff.mpr ⟨_, h⟩)

-- One chain is changed.
theorem reaches_modify {i n : Nat} {f : List α → List α} (hi : i < t.size) :
    Reaches hashOf { entries := t.entries.modify i f, nEntries := n } w ↔
      w ∈ if i = getIndex t.size (hashOf w) then f (chain t.entries i)
        else chain t.entries (getIndex t.size (hashOf w)) := by
  have hsize : ({ entries := t.entries.modify i f, nEntries := n } : HashTable α).size = t.size :=
    List.length_modify _ _ _
  rw [Reaches, hsize, chain_modify hi]

theorem size_insertEntry (t : HashTable α) (v : α) : (t.insertEntry hashOf v).size = t.size :=
  List.length_modify _ _ _

theorem reaches_insertEntry (hsize : 0 < t.size) : Reaches hashOf (t.insertEntry hashOf v) v := by
  rw [insertEntry, reaches_modify (getIndex_lt hsize _), if_pos rfl]
  exact List.mem_cons_self

theorem Reaches.insertEntry (h : Reaches hashOf t w) (hsize : 0 < t.size) :
    Reaches hashOf (t.insertEntry hashOf v) w := by
  rw [HashTable.insertEntry, reaches_modify (getIndex_lt hsize _)]
  split_ifs with hindex
  · rw [hindex]
    exact List.mem_cons_of_mem v h
  · exact h

theorem set_size_pos (hsize : 0 < t.size) : 0 < (t.set hashOf v).2.size := by
  unfold set
  dsimp only
  split
  · rw [size, List.length_modify]
    exact hsize
  · rw [size_insertEntry]
    split_ifs
    · rw [size_grow]
      omega
    · exact hsize

theorem reaches_set (hsize : 0 < t.size) : Reaches hashOf (t.set hashOf v).2 v := by
  unfold set
  dsimp only
  split
  next i hfind =>
    have hlt := (List.findIdx?_eq_some_iff_getElem.mp hfind).1
    rw [reaches_modify (getIndex_lt hsize _), if_pos rfl]
    exact List.mem_set hlt v
  next =>
    split_ifs
    · exact reaches_insertEntry (by rw [size_grow]; omega)
    · exact reaches_insertEntry hsize

/-- Only a value with the same hash is replaced. -/
theorem Reaches.set (h : Reaches hashOf t w) (hsize : 0 < t.size) (hne : hashOf w ≠ hashOf v) :
    Reaches hashOf (t.set hashOf v).2 w := by
  unfold HashTable.set
  dsimp only
  split
  next i hfind =>
    obtain ⟨hlt, hhash, -⟩ := List.findIdx?_eq_some_iff_getElem.mp hfind
    rw [reaches_modify (getIndex_lt hsize _)]
    split_ifs with hindex
    · obtain ⟨j, hj, hget⟩ := List.mem_iff_getElem.mp (hindex ▸ h :
        w ∈ chain t.entries (getIndex t.size (hashOf v)))
      have hij : i ≠ j := by
        rintro rfl
        rw [hget] at hhash
        exact hne (of_decide_eq_true hhash)
      refine List.mem_iff_getElem.mpr ⟨j, by rwa [List.length_set], ?_⟩
      rw [List.getElem_set_ne hij, hget]
    · exact h
  next =>
    split_ifs
    · exact (h.grow hsize).insertEntry (by rw [size_grow]; omega)
    · exact h.insertEntry hsize

theorem mem_values_modify {i n : Nat} {f : List α → List α} (hi : i < t.size)
    (h : w ∈ ({ entries := t.entries.modify i f, nEntries := n } : HashTable α).values) :
    w ∈ f (chain t.entries i) ∨ w ∈ t.values := by
  obtain ⟨j, hj⟩ := mem_flatten_iff.mp h
  rw [chain_modify hi] at hj
  split_ifs at hj
  · exact .inl hj
  · exact .inr (mem_flatten_iff.mpr ⟨j, hj⟩)

theorem mem_values_set (hsize : 0 < t.size) (h : w ∈ (t.set hashOf v).2.values) :
    w = v ∨ w ∈ t.values := by
  have hinsert : ∀ t' : HashTable α, 0 < t'.size → (∀ u ∈ t'.values, u ∈ t.values) →
      w ∈ (t'.insertEntry hashOf v).values → w = v ∨ w ∈ t.values := by
    intro t' hsize' hsub hw
    have hperm := flatten_insert (t := t'.entries) (getIndex_lt hsize' (hashOf v)) v
    exact (List.mem_cons.mp (hperm.mem_iff.mp hw)).imp_right (hsub w)
  unfold set at h
  dsimp only at h
  split at h
  · rcases mem_values_modify (getIndex_lt hsize _) h with hnew | hold
    · rcases List.mem_or_eq_of_mem_set hnew with hchain | rfl
      · exact .inr (mem_flatten_iff.mpr ⟨_, hchain⟩)
      · exact .inl rfl
    · exact .inr hold
  · split_ifs at h
    · exact hinsert _ (by rw [size_grow]; omega)
        (fun u hu => (values_grow hsize).mem_iff.mp hu) h
    · exact hinsert t hsize (fun _ hu => hu) h

theorem mem_values_remove [DecidableEq α] {hash : Hash} (hsize : 0 < t.size)
    (h : w ∈ (t.remove v hash).2.values) : w ∈ t.values := by
  unfold remove at h
  dsimp only at h
  split_ifs at h
  · rcases mem_values_modify (getIndex_lt hsize _) h with hchain | hold
    · exact mem_flatten_iff.mpr ⟨_, List.mem_of_mem_erase hchain⟩
    · exact hold
  · exact h

theorem remove_size [DecidableEq α] (hash : Hash) : (t.remove v hash).2.size = t.size := by
  unfold remove
  dsimp only
  split_ifs
  · exact List.length_modify _ _ _
  · rfl

theorem Reaches.remove [DecidableEq α] {hash : Hash} (h : Reaches hashOf t w) (hsize : 0 < t.size)
    (hne : w ≠ v) : Reaches hashOf (t.remove v hash).2 w := by
  unfold HashTable.remove
  dsimp only
  split_ifs
  · rw [reaches_modify (getIndex_lt hsize _)]
    split_ifs with hindex
    · rw [hindex]
      exact (List.mem_erase_of_ne hne).mpr h
    · exact h
  · exact h

end HashTable

end Notbit
