import Notbit.Network.Events

/-!
# Inventories — the hash table and the lists agree

`Consistent` says that the table holds exactly the inventories that are in a list, each in the one
list that its state names, and that no freed slice can be found.  The operations move an inventory
in several steps, so the invariant `Sound nw held` also counts the inventories `held` that are in
the table but in no list at the moment.
-/

open Notbit.Proto

namespace Notbit.Network

namespace State

/-- The list an inventory belongs to. -/
def listNamed (nw : State) : InvState → List Nat
  | .stub => nw.requested
  | .accepted => nw.acceptedInventories
  | .rejected => nw.rejectedInventories
  | .freed _ => []

/-- What the comment on `link` in `struct ntb_network_inventory` promises, and what the table is
for. -/
structure Consistent (nw : State) : Prop where
  entries : ∀ v, v ∈ nw.inventoryHash.values ↔ ∃ a ∈ nw.linked, v = .inventory a
  once : nw.linked.Nodup
  named : ∀ a ∈ nw.linked, a ∈ nw.listNamed (nw.heap a).state
  hashes : ∀ a ∈ nw.linked, ∀ b ∈ nw.linked, (nw.heap a).hash = (nw.heap b).hash → a = b
  count : nw.nRejectedInventories = nw.rejectedInventories.length
  bound : nw.nRejectedInventories ≤ maxRejectedInventories
  freed : ∀ a, nw.Free a → .inventory a ∉ nw.inventoryHash.values

/-- The memory: the heap with its allocator, and the table. -/
def memory (nw : State) : (Nat → Inventory) × List Nat × Nat × HashTable Ptr :=
  (nw.heap, nw.magazine, nw.nextSlice, nw.inventoryHash)

/-- Every list names the inventories by their state, and peers have different ids. -/
structure Listed (nw : State) : Prop where
  stub : ∀ a ∈ nw.requested, (nw.heap a).state = .stub
  accepted : ∀ a ∈ nw.acceptedInventories, (nw.heap a).state = .accepted
  rejected : ∀ a ∈ nw.rejectedInventories, (nw.heap a).state = .rejected
  ids : (nw.peers.map (·.id)).Nodup
  ids_lt : ∀ peer ∈ nw.peers, peer.id < nw.nextPeer

/-- Table, heap and lists agree on the inventories in the lists and on those in `held`. -/
structure Sound (nw : State) (held : List Nat) : Prop extends nw.Listed where
  nodup : (held ++ nw.linked).Nodup
  inUse : ∀ a ∈ held ++ nw.linked, ¬ nw.Free a
  magazine : nw.magazine.Nodup
  magazine_lt : ∀ a ∈ nw.magazine, a < nw.nextSlice
  table : nw.inventoryHash.WF nw.hashAt
  entries : ∀ v, v ∈ nw.inventoryHash.values ↔ ∃ a ∈ held ++ nw.linked, v = .inventory a

/-- The part of `Sound` that is not about the table: the inventories in the lists and in `held` are
different slices, and none of them is free. -/
structure Owned (nw : State) (held : List Nat) : Prop extends nw.Listed where
  nodup : (held ++ nw.linked).Nodup
  inUse : ∀ a ∈ held ++ nw.linked, ¬ nw.Free a
  magazine : nw.magazine.Nodup
  magazine_lt : ∀ a ∈ nw.magazine, a < nw.nextSlice

/-- The counter of `reject_inventory`. -/
def Counted (nw : State) : Prop :=
  nw.nRejectedInventories = nw.rejectedInventories.length ∧
  nw.nRejectedInventories ≤ maxRejectedInventories

variable {nw nw' : State} {held : List Nat} {a : Nat}

theorem mem_linked : a ∈ nw.linked ↔
    a ∈ nw.requested ∨ a ∈ nw.acceptedInventories ∨ a ∈ nw.rejectedInventories := by
  simp only [linked, List.mem_append, or_assoc]

theorem Sound.owned (h : nw.Sound held) : nw.Owned held := { h with }

theorem Owned.nodup_linked (h : nw.Owned held) : nw.linked.Nodup :=
  (List.nodup_append'.mp h.nodup).2.1

theorem Owned.nodup_accepted (h : nw.Owned held) : nw.acceptedInventories.Nodup :=
  (List.nodup_append'.mp (List.nodup_append'.mp h.nodup_linked).1).2.1

theorem Sound.consistent (h : nw.Sound []) (hcount : nw.Counted) : nw.Consistent where
  entries := h.entries
  once := h.nodup
  named a ha := by
    rcases mem_linked.mp ha with hr | hacc | hrej
    · rw [h.stub a hr]
      exact hr
    · rw [h.accepted a hacc]
      exact hacc
    · rw [h.rejected a hrej]
      exact hrej
  hashes a ha b hb heq := by
    have hmem : ∀ c ∈ nw.linked, Ptr.inventory c ∈ nw.inventoryHash.values := fun c hc =>
      (h.entries _).mpr ⟨c, hc, rfl⟩
    exact Ptr.inventory.inj (h.table.eq_of_hash (hmem a ha) (hmem b hb) heq)
  count := hcount.1
  bound := hcount.2
  freed a ha hv := by
    obtain ⟨b, hb, heq⟩ := (h.entries _).mp hv
    cases heq
    exact h.inUse a hb ha

/-! ## 1. Moving an inventory between lists -/

/-- The lists have changed and the memory has not: what is held or in a list is the same as
before. -/
structure Moved (nw nw' : State) (held held' : List Nat) : Prop where
  memory : nw'.memory = nw.memory
  perm : (held' ++ nw'.linked).Perm (held ++ nw.linked)
  listed : nw'.Listed

theorem Moved.inventoryHash {held' : List Nat} (h : Moved nw nw' held held') :
    nw'.inventoryHash = nw.inventoryHash := congrArg (·.2.2.2) h.memory

theorem Moved.heap {held' : List Nat} (h : Moved nw nw' held held') : nw'.heap = nw.heap :=
  congrArg (·.1) h.memory

theorem Moved.hashAt {held' : List Nat} (h : Moved nw nw' held held') :
    nw'.hashAt = nw.hashAt := by
  funext v
  cases v <;> simp only [State.hashAt, h.heap]

theorem Owned.moved {held' : List Nat} (h : nw.Owned held) (hmoved : Moved nw nw' held held') :
    nw'.Owned held' := by
  have hmag : nw'.magazine = nw.magazine := congrArg (·.2.1) hmoved.memory
  have hnext : nw'.nextSlice = nw.nextSlice := congrArg (·.2.2.1) hmoved.memory
  refine { hmoved.listed with
    nodup := hmoved.perm.nodup_iff.mpr h.nodup
    inUse := fun b hb => ?_
    magazine := hmag ▸ h.magazine
    magazine_lt := ?_ }
  · rw [Free, hmag, hnext]
    exact h.inUse b (hmoved.perm.mem_iff.mp hb)
  · rw [hmag, hnext]
    exact h.magazine_lt

-- Where an inventory is listed does not matter to table and heap, as long as it is listed once or
-- held.
theorem Sound.move {held' : List Nat} (h : nw.Sound held) (hmoved : Moved nw nw' held held') :
    nw'.Sound held' := by
  refine { h.owned.moved hmoved with
    table := ?_
    entries := fun v => ?_ }
  · rw [hmoved.inventoryHash, hmoved.hashAt]
    exact h.table
  · rw [hmoved.inventoryHash, h.entries v]
    exact exists_congr fun b => and_congr_left' hmoved.perm.mem_iff.symm

/-- For every peer its id and the inventories it was asked for. -/
def owners (nw : State) : List (Nat × List Nat) :=
  nw.peers.map fun peer => (peer.id, peer.requestedInventories)

theorem requested_eq (nw : State) : nw.requested = nw.owners.flatMap Prod.snd := by
  rw [requested, owners, List.flatMap_map]

theorem ids_eq (nw : State) : nw.peers.map (·.id) = nw.owners.map Prod.fst := by
  rw [owners, List.map_map]
  rfl

-- Nothing else of the network matters: its log, its addresses, the states of its peers.
theorem Owned.frame_moved (h : nw.Owned held) (hinv : nw'.toInventories = nw.toInventories)
    (howners : nw'.owners = nw.owners) (hnext : nw'.nextPeer = nw.nextPeer) :
    Moved nw nw' held held := by
  have hreq : nw'.requested = nw.requested := by rw [requested_eq, howners, ← requested_eq]
  have hids : nw'.peers.map (·.id) = nw.peers.map (·.id) := by rw [ids_eq, howners, ← ids_eq]
  have hlinked : nw'.linked = nw.linked := by rw [linked, hreq, hinv]; rfl
  refine ⟨by rw [memory, hinv]; rfl, by rw [hlinked], ?_⟩
  constructor
  · rw [hreq, hinv]
    exact h.stub
  · rw [hinv]
    exact h.accepted
  · rw [hinv]
    exact h.rejected
  · rw [hids]
    exact h.ids
  · intro peer hpeer
    have hid : peer.id ∈ nw.peers.map (·.id) := hids ▸ List.mem_map_of_mem hpeer
    obtain ⟨old, hold, heq⟩ := List.mem_map.mp hid
    rw [hnext, ← heq]
    exact h.ids_lt old hold

theorem Sound.frame (h : nw.Sound held) (hinv : nw'.toInventories = nw.toInventories)
    (howners : nw'.owners = nw.owners) (hnext : nw'.nextPeer = nw.nextPeer) : nw'.Sound held :=
  h.move (h.owned.frame_moved hinv howners hnext)

theorem linked_listRemove_sublist (nw : State) (a : Nat) :
    ((nw.listRemove a).linked).Sublist nw.linked := by
  have hreq : ((nw.listRemove a).requested).Sublist nw.requested := by
    simp only [requested, listRemove, List.flatMap_map]
    induction nw.peers with
    | nil => exact List.Sublist.refl _
    | cons peer peers ih => exact List.erase_sublist.append ih
  exact (hreq.append List.erase_sublist).append List.erase_sublist

theorem mem_requested_listRemove (h : nw.requested.Nodup) {b : Nat} :
    b ∈ (nw.listRemove a).requested ↔ b ∈ nw.requested ∧ b ≠ a := by
  have hpeer : ∀ peer ∈ nw.peers, peer.requestedInventories.Nodup :=
    (List.nodup_flatMap.mp h).1
  simp only [requested, listRemove, List.flatMap_map, List.mem_flatMap]
  constructor
  · rintro ⟨peer, hp, hb⟩
    have hb := (hpeer peer hp).mem_erase_iff.mp hb
    exact ⟨⟨peer, hp, hb.2⟩, hb.1⟩
  · rintro ⟨⟨peer, hp, hb⟩, hne⟩
    exact ⟨peer, hp, (hpeer peer hp).mem_erase_iff.mpr ⟨hne, hb⟩⟩

theorem mem_linked_listRemove (h : nw.linked.Nodup) {b : Nat} :
    b ∈ (nw.listRemove a).linked ↔ b ∈ nw.linked ∧ b ≠ a := by
  have hparts := List.nodup_append'.mp h
  have hfirst := List.nodup_append'.mp hparts.1
  rw [mem_linked, mem_linked, mem_requested_listRemove hfirst.1]
  have hacc := hfirst.2.1.mem_erase_iff (a := b) (b := a)
  have hrej := hparts.2.1.mem_erase_iff (a := b) (b := a)
  simp only [listRemove] at *
  tauto

theorem Listed.listRemove (h : nw.Listed) (a : Nat) : (nw.listRemove a).Listed := by
  have hids : (nw.listRemove a).peers.map (·.id) = nw.peers.map (·.id) := by
    simp only [State.listRemove, List.map_map]
    rfl
  constructor
  · intro b hb
    apply h.stub
    simp only [requested, State.listRemove, List.flatMap_map, List.mem_flatMap] at hb ⊢
    obtain ⟨peer, hp, hb⟩ := hb
    exact ⟨peer, hp, List.mem_of_mem_erase hb⟩
  · exact fun b hb => h.accepted b (List.mem_of_mem_erase hb)
  · exact fun b hb => h.rejected b (List.mem_of_mem_erase hb)
  · rw [hids]
    exact h.ids
  · intro peer hpeer
    obtain ⟨old, hold, rfl⟩ := List.mem_map.mp hpeer
    exact h.ids_lt old hold

-- Taking an inventory out of its list.
theorem Owned.listRemove_moved (h : nw.Owned held) (ha : a ∈ nw.linked) :
    Moved nw (nw.listRemove a) held (a :: held) := by
  have hnodup := h.nodup_linked
  have hperm : (a :: (nw.listRemove a).linked).Perm nw.linked := by
    rw [List.perm_ext_iff_of_nodup _ hnodup]
    · intro b
      rw [List.mem_cons, mem_linked_listRemove hnodup]
      by_cases hb : b = a <;> simp [hb, ha]
    · refine List.nodup_cons.mpr ⟨?_, hnodup.sublist (linked_listRemove_sublist nw a)⟩
      rw [mem_linked_listRemove hnodup]
      simp
  refine ⟨rfl, ?_, h.toListed.listRemove a⟩
  calc (a :: held ++ (nw.listRemove a).linked)
      |>.Perm (held ++ a :: (nw.listRemove a).linked) := List.perm_middle.symm
    List.Perm _ (held ++ nw.linked) := hperm.append_left held

theorem Sound.listRemove (h : nw.Sound held) (ha : a ∈ nw.linked) :
    (nw.listRemove a).Sound (a :: held) :=
  h.move (h.owned.listRemove_moved ha)

theorem Owned.linkAccepted_moved (h : nw.Owned (a :: held))
    (hstate : (nw.heap a).state = .accepted) :
    Moved nw { nw with acceptedInventories := a :: nw.acceptedInventories } (a :: held) held := by
  refine ⟨rfl, ?_, { h.toListed with accepted := List.forall_mem_cons.mpr ⟨hstate, h.accepted⟩ }⟩
  simp only [linked, requested]
  apply List.perm_iff_count.mpr
  intro b
  simp only [List.count_append, List.count_cons, List.cons_append]
  omega

theorem Sound.linkAccepted (h : nw.Sound (a :: held)) (hstate : (nw.heap a).state = .accepted) :
    { nw with acceptedInventories := a :: nw.acceptedInventories }.Sound held :=
  h.move (h.owned.linkAccepted_moved hstate)

theorem Owned.linkRejected_moved (h : nw.Owned (a :: held))
    (hstate : (nw.heap a).state = .rejected) :
    Moved nw { nw with rejectedInventories := a :: nw.rejectedInventories } (a :: held) held := by
  refine ⟨rfl, ?_, { h.toListed with rejected := List.forall_mem_cons.mpr ⟨hstate, h.rejected⟩ }⟩
  simp only [linked, requested]
  apply List.perm_iff_count.mpr
  intro b
  simp only [List.count_append, List.count_cons, List.cons_append]
  omega

theorem Sound.linkRejected (h : nw.Sound (a :: held)) (hstate : (nw.heap a).state = .rejected) :
    { nw with rejectedInventories := a :: nw.rejectedInventories }.Sound held :=
  h.move (h.owned.linkRejected_moved hstate)

/-- One peer more has been asked for an inventory. -/
theorem requested_updatePeer_perm {id : Nat} (hids : (nw.peers.map (·.id)).Nodup)
    (hid : id ∈ nw.peers.map (·.id)) :
    ((nw.updatePeer id fun peer =>
      { peer with requestedInventories := a :: peer.requestedInventories }).requested).Perm
      (a :: nw.requested) := by
  simp only [requested, updatePeer, List.flatMap_map]
  generalize nw.peers = peers at hids hid
  induction peers with
  | nil => cases hid
  | cons peer peers ih =>
    rw [List.map_cons, List.nodup_cons] at hids
    rw [List.flatMap_cons, List.flatMap_cons]
    rcases List.mem_cons.mp hid with rfl | hid
    · -- the others have other ids
      rw [if_pos rfl, List.cons_append]
      have hrest : ∀ other ∈ peers, (if other.id = peer.id then
          { other with requestedInventories := a :: other.requestedInventories }
          else other) = other := by
        intro other hother
        rw [if_neg]
        intro heq
        exact hids.1 (heq ▸ List.mem_map_of_mem hother)
      have hsame : peers.flatMap (fun other => (if other.id = peer.id then
          { other with requestedInventories := a :: other.requestedInventories }
          else other).requestedInventories) = peers.flatMap (·.requestedInventories) :=
        List.flatMap_congr fun other hother => by rw [hrest other hother]
      rw [hsame]
    · have hne : peer.id ≠ id := by
        rintro rfl
        exact hids.1 hid
      rw [if_neg hne]
      exact ((ih hids.2 hid).append_left _).trans List.perm_middle

theorem Owned.linkRequested_moved {id : Nat} (h : nw.Owned (a :: held))
    (hstate : (nw.heap a).state = .stub) (hid : id ∈ nw.peers.map (·.id)) :
    Moved nw (nw.updatePeer id fun peer =>
      { peer with requestedInventories := a :: peer.requestedInventories }) (a :: held) held := by
  have hperm := requested_updatePeer_perm (a := a) h.ids hid
  refine ⟨rfl, ?_, { h.toListed with stub := ?_, ids := ?_, ids_lt := ?_ }⟩
  · have hlinked := (hperm.append_right nw.acceptedInventories).append_right nw.rejectedInventories
    exact (hlinked.append_left held).trans List.perm_middle
  · intro b hb
    rcases List.mem_cons.mp (hperm.mem_iff.mp hb) with rfl | hb
    · exact hstate
    · exact h.stub b hb
  · have hsame : (nw.updatePeer id fun peer =>
        { peer with requestedInventories := a :: peer.requestedInventories }).peers.map (·.id) =
        nw.peers.map (·.id) := by
      simp only [updatePeer, List.map_map]
      apply List.map_congr_left
      intro peer _
      simp only [Function.comp]
      split_ifs <;> rfl
    rw [hsame]
    exact h.ids
  · intro peer hpeer
    obtain ⟨old, hold, rfl⟩ := List.mem_map.mp hpeer
    have hlt := h.ids_lt old hold
    split_ifs <;> exact hlt

theorem Sound.linkRequested {id : Nat} (h : nw.Sound (a :: held))
    (hstate : (nw.heap a).state = .stub) (hid : id ∈ nw.peers.map (·.id)) :
    (nw.updatePeer id fun peer =>
      { peer with requestedInventories := a :: peer.requestedInventories }).Sound held :=
  h.move (h.owned.linkRequested_moved hstate hid)

/-! ## 2. The heap -/

theorem hashAt_setInventory {inv : Inventory} (h : inv.hash = (nw.heap a).hash) :
    (nw.setInventory a inv).hashAt = nw.hashAt := by
  have hheap : ∀ b, ((nw.setInventory a inv).heap b).hash = (nw.heap b).hash := by
    intro b
    by_cases hb : b = a
    · subst hb
      simp [setInventory, h]
    · simp [setInventory, hb]
  funext v
  cases v <;> simp only [hashAt, hheap]

-- Writing to an inventory that is held, or that keeps its state.
theorem Owned.setInventory {inv : Inventory} (h : nw.Owned held)
    (hstate : a ∈ held ∨ inv.state = (nw.heap a).state) : (nw.setInventory a inv).Owned held := by
  have hlinked : ∀ b ∈ nw.linked,
      ((nw.setInventory a inv).heap b).state = (nw.heap b).state := by
    intro b hb
    by_cases hba : b = a
    · subst hba
      rcases hstate with hheld | hstate
      · exact absurd hb ((List.nodup_append'.mp h.nodup).2.2 hheld)
      · simpa [State.setInventory] using hstate
    · simp [State.setInventory, hba]
  exact { h with
    stub := fun b hb => (hlinked b (mem_linked.mpr (.inl hb))).trans (h.stub b hb)
    accepted := fun b hb => (hlinked b (mem_linked.mpr (.inr (.inl hb)))).trans (h.accepted b hb)
    rejected := fun b hb => (hlinked b (mem_linked.mpr (.inr (.inr hb)))).trans (h.rejected b hb) }

-- The table does not notice it when the hash is kept as well.
theorem Sound.setInventory {inv : Inventory} (h : nw.Sound held)
    (hhash : inv.hash = (nw.heap a).hash)
    (hstate : a ∈ held ∨ inv.state = (nw.heap a).state) :
    (nw.setInventory a inv).Sound held :=
  { h.owned.setInventory hstate with
    table := by
      rw [hashAt_setInventory hhash]
      exact h.table
    entries := h.entries }

-- `ntb_slice_alloc` changes nothing but the allocator.
theorem alloc_frame (nw : State) : nw.alloc.2 =
    { nw with magazine := nw.alloc.2.magazine, nextSlice := nw.alloc.2.nextSlice } := by
  unfold alloc
  split <;> rfl

/-- What `ntb_slice_alloc` hands out was free. -/
theorem alloc_spec (hmag : nw.magazine.Nodup) (hlt : ∀ a ∈ nw.magazine, a < nw.nextSlice) :
    nw.Free nw.alloc.1 ∧ ¬ nw.alloc.2.Free nw.alloc.1 ∧
      (∀ b, nw.alloc.2.Free b → nw.Free b) ∧ nw.alloc.2.magazine.Nodup ∧
      (∀ b ∈ nw.alloc.2.magazine, b < nw.alloc.2.nextSlice) := by
  unfold alloc Free
  split
  case h_1 a rest hcons =>
    rw [hcons] at hmag hlt
    rw [List.nodup_cons] at hmag
    rw [List.forall_mem_cons] at hlt
    refine ⟨.inl (by rw [hcons]; exact List.mem_cons_self), ?_, ?_, hmag.2, hlt.2⟩
    · rintro (hrest | hle)
      · exact hmag.1 hrest
      · exact absurd hlt.1 (Nat.not_lt.mpr hle)
    · rintro b (hb | hle)
      · exact .inl (by rw [hcons]; exact List.mem_cons_of_mem a hb)
      · exact .inr hle
  case h_2 hnil =>
    simp only [hnil, List.not_mem_nil, false_or, List.nodup_nil, IsEmpty.forall_iff,
      implies_true, and_true]
    refine ⟨le_refl _, Nat.not_succ_le_self _, fun b hb => Nat.le_of_succ_le hb⟩

/-- A new slice that is held. -/
theorem Owned.new (h : nw.Owned held) (inv : Inventory) :
    ((nw.alloc.2.setInventory nw.alloc.1 inv).hashSet nw.alloc.1).Owned (nw.alloc.1 :: held) ∧
      nw.alloc.2.linked = nw.linked ∧ ∀ b ∈ held ++ nw.linked, b ≠ nw.alloc.1 := by
  obtain ⟨hfree, hused, hmono, hmag, hlt⟩ := alloc_spec h.magazine h.magazine_lt
  have hframe := alloc_frame nw
  generalize nw.alloc = r at *
  obtain ⟨a, nw₁⟩ := r
  simp only at hfree hused hmono hmag hlt hframe ⊢
  have hheap : nw₁.heap = nw.heap := congrArg (·.heap) hframe
  have hacc : nw₁.acceptedInventories = nw.acceptedInventories :=
    congrArg (·.acceptedInventories) hframe
  have hrej : nw₁.rejectedInventories = nw.rejectedInventories :=
    congrArg (·.rejectedInventories) hframe
  have hpeers : nw₁.peers = nw.peers := congrArg (·.peers) hframe
  have hnext : nw₁.nextPeer = nw.nextPeer := congrArg (·.nextPeer) hframe
  have hreq : nw₁.requested = nw.requested := congrArg (List.flatMap _) hpeers
  have hlinked : nw₁.linked = nw.linked := by rw [linked, hreq, hacc, hrej, ← linked]
  -- the new slice is none of those in use
  have hfresh : ∀ b ∈ held ++ nw.linked, b ≠ a := by
    rintro b hb rfl
    exact h.inUse b hb hfree
  have hother : ∀ b ∈ nw.linked, (nw₁.setInventory a inv).heap b = nw.heap b := by
    intro b hb
    simp [State.setInventory, hheap, hfresh b (List.mem_append_right held hb)]
  refine ⟨{
    stub := fun b hb => ?_
    accepted := fun b hb => ?_
    rejected := fun b hb => ?_
    ids := hpeers ▸ h.ids
    ids_lt := by
      intro peer hpeer
      have hlt := h.ids_lt peer (hpeers ▸ hpeer)
      exact hnext ▸ hlt
    nodup := ?_
    inUse := ?_
    magazine := hmag
    magazine_lt := hlt }, hlinked, hfresh⟩
  · have hb : b ∈ nw.requested := hreq ▸ hb
    have hst := hother b (mem_linked.mpr (.inl hb))
    exact (congrArg Inventory.state hst).trans (h.stub b hb)
  · have hb : b ∈ nw.acceptedInventories := hacc ▸ hb
    have hst := hother b (mem_linked.mpr (.inr (.inl hb)))
    exact (congrArg Inventory.state hst).trans (h.accepted b hb)
  · have hb : b ∈ nw.rejectedInventories := hrej ▸ hb
    have hst := hother b (mem_linked.mpr (.inr (.inr hb)))
    exact (congrArg Inventory.state hst).trans (h.rejected b hb)
  · show (a :: (held ++ nw₁.linked)).Nodup
    rw [hlinked]
    exact List.nodup_cons.mpr ⟨fun ha => hfresh a ha rfl, h.nodup⟩
  · show ∀ b ∈ a :: (held ++ nw₁.linked), ¬ nw₁.Free b
    rw [hlinked]
    intro b hb
    rcases List.mem_cons.mp hb with rfl | hb
    · exact hused
    · exact fun hf => h.inUse b hb (hmono b hf)

/-- A new inventory whose hash is not in the table yet. -/
theorem Sound.new (h : nw.Sound held) (inv : Inventory)
    (hnew : ∀ v ∈ nw.inventoryHash.values, nw.hashAt v ≠ inv.hash) :
    ((nw.alloc.2.setInventory nw.alloc.1 inv).hashSet nw.alloc.1).Sound (nw.alloc.1 :: held) := by
  obtain ⟨howned, hlinked, hfresh⟩ := h.owned.new inv
  have hframe := alloc_frame nw
  generalize nw.alloc = r at *
  obtain ⟨a, nw₁⟩ := r
  simp only at howned hlinked hfresh hframe ⊢
  have hheap : nw₁.heap = nw.heap := congrArg (·.heap) hframe
  have htable : nw₁.inventoryHash = nw.inventoryHash := congrArg (·.inventoryHash) hframe
  have hvalues : ∀ v ∈ nw.inventoryHash.values,
      (nw₁.setInventory a inv).hashAt v = nw.hashAt v := by
    intro v hv
    obtain ⟨b, hb, rfl⟩ := (h.entries v).mp hv
    simp [hashAt, State.setInventory, hheap, hfresh b hb]
  have hself : (nw₁.setInventory a inv).hashAt (.inventory a) = inv.hash := by
    simp [hashAt, State.setInventory]
  have hset := (h.table.congr hvalues).set_new (v := .inventory a) (by
    intro v hv
    rw [hvalues v hv, hself]
    exact hnew v hv)
  rw [← htable] at hset
  refine { howned with
    table := hset.2
    entries := fun v => ?_ }
  show v ∈ ((nw₁.setInventory a inv).hashSet a).inventoryHash.values ↔
    ∃ b ∈ a :: (held ++ nw₁.linked), v = .inventory b
  have hmem := hset.1.mem_iff (a := v)
  rw [htable] at hmem
  rw [hlinked, List.exists_mem_cons_iff, ← h.entries v, ← List.mem_cons, ← hmem, ← htable]
  rfl

/-- A held inventory is freed, whatever is done to the table. -/
theorem Owned.freeInventory (h : nw.Owned (a :: held)) (t : HashTable Ptr) :
    ({ nw with inventoryHash := t }.freeInventory a).Owned held := by
  have hnodup := List.nodup_cons.mp h.nodup
  have hused : ¬ nw.Free a := h.inUse a List.mem_cons_self
  rw [Free, not_or, Nat.not_le] at hused
  have hother : ∀ b ∈ nw.linked,
      ({ nw with inventoryHash := t }.freeInventory a).heap b = nw.heap b := by
    intro b hb
    have hne : b ≠ a := by
      rintro rfl
      exact hnodup.1 (List.mem_append_right held hb)
    simp [State.freeInventory, State.setInventory, hne]
  refine {
    stub := fun b hb => ?_
    accepted := fun b hb => ?_
    rejected := fun b hb => ?_
    ids := h.ids
    ids_lt := h.ids_lt
    nodup := hnodup.2
    inUse := ?_
    magazine := List.nodup_cons.mpr ⟨hused.1, h.magazine⟩
    magazine_lt := List.forall_mem_cons.mpr ⟨hused.2, h.magazine_lt⟩ }
  · rw [hother b (mem_linked.mpr (.inl hb))]
    exact h.stub b hb
  · rw [hother b (mem_linked.mpr (.inr (.inl hb)))]
    exact h.accepted b hb
  · rw [hother b (mem_linked.mpr (.inr (.inr hb)))]
    exact h.rejected b hb
  · rintro b hb (hmag | hle)
    · rcases List.mem_cons.mp hmag with rfl | hmag
      · exact hnodup.1 hb
      · exact h.inUse b (List.mem_cons_of_mem a hb) (.inl hmag)
    · exact h.inUse b (List.mem_cons_of_mem a hb) (.inr hle)

/-- A held inventory that is taken out of the table and freed is gone. -/
theorem Sound.dropInventory (h : nw.Sound (a :: held)) : (nw.dropInventory a).Sound held := by
  have hnodup := List.nodup_cons.mp h.nodup
  have hmem : Ptr.inventory a ∈ nw.inventoryHash.values :=
    (h.entries _).mpr ⟨a, List.mem_cons_self, rfl⟩
  obtain ⟨-, hvalues, htable⟩ := h.table.remove_mem hmem
  refine { h.owned.freeInventory _ with
    table := ?_
    entries := fun v => ?_ }
  · -- the hash stays readable in the freed slice
    have hhash : (nw.dropInventory a).hashAt = nw.hashAt :=
      @hashAt_setInventory (nw.hashRemove (.inventory a)) _ _ rfl
    rw [hhash]
    exact htable
  · show v ∈ (nw.inventoryHash.remove (.inventory a) (nw.hashAt (.inventory a))).2.values ↔
      ∃ b ∈ held ++ nw.linked, v = .inventory b
    rw [hvalues.mem_iff, h.table.nodup.mem_erase_iff, h.entries v, List.cons_append,
      List.exists_mem_cons_iff]
    constructor
    · rintro ⟨hne, heq | hrest⟩
      · exact absurd heq hne
      · exact hrest
    · rintro ⟨b, hb, rfl⟩
      refine ⟨?_, .inr ⟨b, hb, rfl⟩⟩
      rintro heq
      cases heq
      exact hnodup.1 hb

end State

end Notbit.Network
