import Notbit.Network.Consistent

/-!
# Objects — the accepted objects and the tasks for their files

What the network has accepted changes in three ways only: `add_object` accepts an object that is not
there and has it saved, the garbage collection drops one and has it deleted, and the store hands over
what it has saved before.  This needs less
than `Inv`, and the eviction in `reject_inventory` keeps it: a pointer that it leaves in the table
hides none of the inventories in the lists.
-/

open Notbit.HashTable Notbit.Proto Relation

namespace Notbit.Network

/-- What is known of an accepted object. -/
structure Object where
  type : InvType
  hash : Hash
  timestamp : Int
  deriving DecidableEq, Repr

def Inventory.object (inv : Inventory) : Object where
  type := inv.type.getD .getpubkey
  hash := inv.hash
  timestamp := inv.time

namespace State

/-- The accepted objects, the last one first. -/
def objects (nw : State) : List Object :=
  nw.acceptedInventories.map fun a => (nw.heap a).object

/-- Every inventory that is held or in a list is in the chain of its hash, and no two have the same
hash. -/
structure Tracked (nw : State) (held : List Nat) : Prop extends nw.Owned held where
  size_pos : 0 < nw.inventoryHash.size
  pointers : ∀ v ∈ nw.inventoryHash.values, ∃ a, v = .inventory a
  found : ∀ a ∈ held ++ nw.linked, nw.inventoryHash.Reaches nw.hashAt (.inventory a)
  distinct : ∀ a ∈ held ++ nw.linked, ∀ b ∈ held ++ nw.linked,
    (nw.heap a).hash = (nw.heap b).hash → a = b

variable {nw nw' : State} {held : List Nat} {a : Nat}

/-! ## 1. The operations keep track -/

theorem Tracked.move {held' : List Nat} (h : nw.Tracked held) (hmoved : Moved nw nw' held held') :
    nw'.Tracked held' := by
  refine { h.toOwned.moved hmoved with
    size_pos := ?_
    pointers := ?_
    found := fun b hb => ?_
    distinct := fun b hb c hc => ?_ }
  · rw [hmoved.inventoryHash]
    exact h.size_pos
  · rw [hmoved.inventoryHash]
    exact h.pointers
  · rw [hmoved.inventoryHash, hmoved.hashAt]
    exact h.found b (hmoved.perm.mem_iff.mp hb)
  · rw [hmoved.heap]
    exact h.distinct b (hmoved.perm.mem_iff.mp hb) c (hmoved.perm.mem_iff.mp hc)

-- Nothing is found under a hash only if no inventory has it.
theorem Tracked.hash_ne (h : nw.Tracked held) {hash : Hash} (hnone : nw.hashGet hash = none)
    {b : Nat} (hb : b ∈ held ++ nw.linked) : (nw.heap b).hash ≠ hash := by
  rintro rfl
  exact (h.found b hb).get_ne_none (Option.map_eq_none_iff.mp hnone)

theorem Tracked.hash_of_hashGet (h : nw.Tracked held) {hash : Hash}
    (hget : nw.hashGet hash = some a) : (nw.heap a).hash = hash := by
  obtain ⟨v, hv, hslice⟩ := Option.map_eq_some_iff.mp hget
  obtain ⟨b, rfl⟩ := h.pointers v (Chains.mem_flatten_iff.mpr ⟨_, List.mem_of_find?_eq_some hv⟩)
  cases hslice
  have hfound := List.find?_some hv
  exact of_decide_eq_true hfound

theorem Tracked.setInventory {inv : Inventory} (h : nw.Tracked held)
    (hhash : inv.hash = (nw.heap a).hash)
    (hstate : a ∈ held ∨ inv.state = (nw.heap a).state) : (nw.setInventory a inv).Tracked held := by
  have hheap : ∀ b, ((nw.setInventory a inv).heap b).hash = (nw.heap b).hash := fun b =>
    congrFun (hashAt_setInventory hhash) (.inventory b)
  refine { h.toOwned.setInventory hstate with
    size_pos := h.size_pos
    pointers := h.pointers
    found := fun b hb => ?_
    distinct := fun b hb c hc => ?_ }
  · rw [hashAt_setInventory hhash]
    exact h.found b hb
  · rw [hheap, hheap]
    exact h.distinct b hb c hc

theorem Tracked.new (h : nw.Tracked held) (inv : Inventory) (hnone : nw.hashGet inv.hash = none) :
    ((nw.alloc.2.setInventory nw.alloc.1 inv).hashSet nw.alloc.1).Tracked
      (nw.alloc.1 :: held) := by
  obtain ⟨howned, hlinked, hfresh⟩ := h.toOwned.new inv
  have hne := fun b hb => h.hash_ne (b := b) hnone hb
  have hframe := alloc_frame nw
  generalize nw.alloc = r at *
  obtain ⟨a, nw₁⟩ := r
  simp only at howned hlinked hfresh hframe ⊢
  have hheap : nw₁.heap = nw.heap := congrArg (·.heap) hframe
  have htable : nw₁.inventoryHash = nw.inventoryHash := congrArg (·.inventoryHash) hframe
  have hmem : ∀ b, b ∈ a :: held ++ ((nw₁.setInventory a inv).hashSet a).linked ↔
      b = a ∨ b ∈ held ++ nw.linked := fun b => by
    show b ∈ a :: (held ++ nw₁.linked) ↔ _
    rw [hlinked, List.mem_cons]
  have hself : (nw₁.setInventory a inv).heap a = inv := by simp [State.setInventory]
  have hother : ∀ b ∈ held ++ nw.linked, (nw₁.setInventory a inv).heap b = nw.heap b :=
    fun b hb => by simp [State.setInventory, hheap, hfresh b hb]
  have hsize : 0 < nw₁.inventoryHash.size := htable ▸ h.size_pos
  refine { howned with
    size_pos := set_size_pos hsize
    pointers := fun v hv => (mem_values_set hsize hv).elim (fun heq => ⟨a, heq⟩) fun hold =>
      h.pointers v (htable ▸ hold)
    found := fun b hb => ?_
    distinct := fun b hb c hc heq => ?_ }
  · rcases (hmem b).mp hb with rfl | hb
    · exact reaches_set hsize
    · have hb' : nw₁.inventoryHash.Reaches (nw₁.setInventory a inv).hashAt (.inventory b) := by
        rw [htable]
        exact (h.found b hb).congr (congrArg Inventory.hash (hother b hb))
      refine hb'.set hsize ?_
      show ((nw₁.setInventory a inv).heap b).hash ≠ ((nw₁.setInventory a inv).heap a).hash
      rw [hother b hb, hself]
      exact hne b hb
  · change ((nw₁.setInventory a inv).heap b).hash = ((nw₁.setInventory a inv).heap c).hash at heq
    rcases (hmem b).mp hb with rfl | hbold <;> rcases (hmem c).mp hc with rfl | hcold
    · rfl
    · rw [hself, hother c hcold] at heq
      exact absurd heq.symm (hne c hcold)
    · rw [hself, hother b hbold] at heq
      exact absurd heq (hne b hbold)
    · rw [hother b hbold, hother c hcold] at heq
      exact h.distinct b hbold c hcold heq

-- A held inventory is freed, and no other one is taken out of the table.
theorem Tracked.hashRemove_free (h : nw.Tracked (a :: held)) {p : Ptr}
    (hp : ∀ b ∈ held ++ nw.linked, p ≠ .inventory b) :
    ((nw.hashRemove p).freeInventory a).Tracked held := by
  have hhash : ((nw.hashRemove p).freeInventory a).hashAt = nw.hashAt :=
    @hashAt_setInventory (nw.hashRemove p) _ _ rfl
  have hheap : ∀ b, (((nw.hashRemove p).freeInventory a).heap b).hash = (nw.heap b).hash :=
    fun b => congrFun hhash (.inventory b)
  refine { h.toOwned.freeInventory _ with
    size_pos := ?_
    pointers := fun v hv => h.pointers v (mem_values_remove h.size_pos hv)
    found := fun b hb => ?_
    distinct := fun b hb c hc => ?_ }
  · show 0 < (nw.inventoryHash.remove p (nw.hashAt p)).2.size
    rw [remove_size]
    exact h.size_pos
  · rw [hhash]
    exact (h.found b (List.mem_cons_of_mem a hb)).remove h.size_pos (hp b hb).symm
  · rw [hheap, hheap]
    exact h.distinct b (List.mem_cons_of_mem a hb) c (List.mem_cons_of_mem a hc)

theorem Tracked.dropInventory (h : nw.Tracked (a :: held)) : (nw.dropInventory a).Tracked held := by
  refine h.hashRemove_free fun b hb heq => ?_
  cases heq
  exact (List.nodup_cons.mp h.nodup).1 hb

/-! ## 2. What the operations do to the accepted objects -/

/-- What the store has to do with: the accepted objects and the tasks for their files. -/
def view (nw : State) : List Object × List FileTask := (nw.objects, nw.fileTasks)

theorem objects_congr (haccepted : nw'.acceptedInventories = nw.acceptedInventories)
    (hheap : ∀ a ∈ nw.acceptedInventories, (nw'.heap a).object = (nw.heap a).object) :
    nw'.objects = nw.objects := by
  rw [objects, haccepted]
  exact List.map_congr_left hheap

theorem view_congr (hobjects : nw'.objects = nw.objects) (hlog : nw'.log = nw.log) :
    nw'.view = nw.view := by
  rw [view, view, hobjects, fileTasks, fileTasks, hlog]

theorem Framed.view_eq (h : Framed nw nw') : nw'.view = nw.view := by
  have hobjects : nw'.objects = nw.objects := by
    rw [objects, objects, h.inventories]
  rw [view, view, hobjects, h.fileTasks]

-- A held inventory is in no list.
theorem Owned.notMem_accepted (h : nw.Owned (a :: held)) : a ∉ nw.acceptedInventories := fun ha =>
  (List.nodup_cons.mp h.nodup).1 (List.mem_append_right held (mem_linked.mpr (.inr (.inl ha))))

theorem view_setInventory {inv : Inventory}
    (h : a ∉ nw.acceptedInventories ∨ inv.object = (nw.heap a).object) :
    (nw.setInventory a inv).view = nw.view := by
  refine view_congr (objects_congr rfl fun b hb => ?_) rfl
  by_cases hba : b = a
  · subst hba
    rcases h with hnot | hobject
    · exact absurd hb hnot
    · simpa [setInventory] using hobject
  · simp [setInventory, hba]

theorem view_alloc (nw : State) : nw.alloc.2.view = nw.view := by
  rw [alloc_frame]
  rfl

theorem view_hashRemove_free {p : Ptr} (h : a ∉ nw.acceptedInventories) :
    ((nw.hashRemove p).freeInventory a).view = nw.view :=
  @view_setInventory (nw.hashRemove p) a _ (.inl h)

theorem view_listRemove (h : a ∉ nw.acceptedInventories) : (nw.listRemove a).view = nw.view := by
  refine view_congr (objects_congr ?_ fun _ _ => rfl) rfl
  exact List.erase_of_not_mem h

theorem Tracked.foldl_dropInventory {l : List Nat} (h : nw.Tracked (l ++ held)) :
    (l.foldl State.dropInventory nw).Tracked held ∧
      (l.foldl State.dropInventory nw).view = nw.view := by
  induction l generalizing nw with
  | nil => exact ⟨h, rfl⟩
  | cons a l ih =>
    obtain ⟨htracked, hview⟩ := ih h.dropInventory
    exact ⟨htracked, hview.trans (view_hashRemove_free h.notMem_accepted)⟩

theorem Tracked.framed (h : nw.Tracked held) (hframed : Framed nw nw') : nw'.Tracked held :=
  h.move (h.frame_moved hframed.inventories hframed.owners hframed.nextPeer)

theorem Tracked.removePeer {peer : Peer} (h : nw.Tracked []) (hpeer : peer ∈ nw.peers) :
    (nw.removePeer peer).Tracked [] ∧ (nw.removePeer peer).view = nw.view := by
  have hheld := h.move (h.withoutPeer_moved hpeer)
  obtain ⟨hdropped, hview⟩ := hheld.foldl_dropInventory
  obtain ⟨hcomm, hpeers, -, -⟩ := foldl_dropInventory_frame peer.requestedInventories
    (nw.peers.filter (·.id ≠ peer.id)) nw
  rw [hcomm] at hdropped hview
  refine ⟨hdropped.move (hdropped.frame_moved rfl ?_ rfl), hview⟩
  simp only [owners, State.removePeer, hpeers]

theorem Tracked.requestInventory {peer : Nat} {hash : Hash} (h : nw.Tracked []) (now : Nat)
    (hpeer : peer ∈ nw.peers.map (·.id)) (hnone : nw.hashGet hash = none) :
    (nw.requestInventory peer now hash).Tracked [] ∧
      (nw.requestInventory peer now hash).view = nw.view := by
  have hheld := h.new { state := .stub, hash, time := now } hnone
  have hpeers : nw.alloc.2.peers = nw.peers := congrArg (·.peers) (alloc_frame nw)
  have hnot : nw.alloc.1 ∉ nw.alloc.2.acceptedInventories := hheld.notMem_accepted
  rw [← hpeers] at hpeer
  refine ⟨hheld.move (hheld.linkRequested_moved ?_ hpeer), ?_⟩
  · simp [hashSet, State.setInventory]
  · have hview : (nw.alloc.2.setInventory nw.alloc.1 { state := .stub, hash, time := now }).view =
        nw.alloc.2.view := view_setInventory (.inl hnot)
    exact hview.trans (view_alloc nw)

theorem Tracked.handleInv {peer : Nat} (h : nw.Tracked []) (now : Nat) (hashes : List Hash)
    (hpeer : peer ∈ nw.peers.map (·.id)) :
    (nw.handleInv peer now hashes).Tracked [] ∧
      (nw.handleInv peer now hashes).view = nw.view := by
  have hloop : ∀ s : State × List Hash, s.1.Tracked [] → peer ∈ s.1.peers.map (·.id) →
      (hashes.foldl (handleInvHash peer now) s).1.Tracked [] ∧
        (hashes.foldl (handleInvHash peer now) s).1.view = s.1.view := by
    induction hashes with
    | nil => exact fun s hs _ => ⟨hs, rfl⟩
    | cons hash hashes ih =>
      intro s hs hid
      rw [List.foldl_cons]
      cases hget : s.1.hashGet hash with
      | some b =>
        simp only [handleInvHash, hget]
        exact ih s hs hid
      | none =>
        simp only [handleInvHash, hget]
        obtain ⟨htracked, hview⟩ := hs.requestInventory now hid hget
        have hrest := ih (s.1.requestInventory peer now hash, s.2 ++ [hash]) htracked
          (by rwa [ids_requestInventory])
        exact ⟨hrest.1, hrest.2.trans hview⟩
  obtain ⟨htracked, hview⟩ := hloop (nw, []) h hpeer
  have hsent : Framed (hashes.foldl (handleInvHash peer now) (nw, [])).1
      (nw.handleInv peer now hashes) :=
    (Framed.refl _).emit (by simp [Effect.fileTask])
  exact ⟨htracked.framed hsent, hsent.view_eq.trans hview⟩

/-! ## 3. Objects that come and go -/

/-- The inventory that `add_object` goes on with is held, and no accepted object has its hash. -/
theorem Tracked.claimInventory {hash : Hash} (h : nw.Tracked [])
    (hs : nw.claimInventory hash = some (some (a, nw'))) :
    nw'.Tracked [a] ∧ nw'.view = nw.view ∧ (nw'.heap a).hash = hash := by
  unfold State.claimInventory at hs
  cases hget : nw.hashGet hash with
  | none =>
    simp only [hget, Option.some.injEq, Prod.mk.injEq] at hs
    obtain ⟨rfl, rfl⟩ := hs
    have hheld := h.new { hash } hget
    have hnot : nw.alloc.1 ∉ nw.alloc.2.acceptedInventories := hheld.notMem_accepted
    have hview : (nw.alloc.2.setInventory nw.alloc.1 { hash }).view = nw.alloc.2.view :=
      view_setInventory (.inl hnot)
    exact ⟨hheld, hview.trans (view_alloc nw), by simp [hashSet, State.setInventory]⟩
  | some b =>
    simp only [hget] at hs
    split at hs
    next hstub =>
      split at hs
      next hlinked =>
        cases hs
        -- a stub is not in the list of accepted inventories
        have hnot : a ∉ nw.acceptedInventories := fun ha => by
          rw [h.accepted a ha] at hstub
          cases hstub
        refine ⟨h.move (h.listRemove_moved hlinked), view_listRemove hnot, ?_⟩
        exact h.hash_of_hashGet hget
      next => cases hs
    next => cases hs

theorem Tracked.claims {ssl : OpenSSL} {blob : Blob} {timestamp : Int} {nw₁ : State}
    (h : nw.Tracked []) (hc : Claims ssl nw blob timestamp a nw₁) :
    nw₁.Tracked [a] ∧ nw₁.view = nw.view ∧ (nw₁.heap a).hash = doubleHash ssl blob.data ∧
      (nw₁.heap a).time = timestamp := by
  obtain ⟨nw₀, hclaim, rfl⟩ := hc
  obtain ⟨htracked, hview, hhash⟩ := h.claimInventory hclaim
  refine ⟨htracked.setInventory rfl (.inl List.mem_cons_self),
    (view_setInventory (.inl htracked.notMem_accepted)).trans hview, ?_, ?_⟩
  · simpa [State.setInventory] using hhash
  · simp [State.setInventory]

-- Nobody has the hash of an inventory that is held.
theorem Tracked.hash_notMem (h : nw.Tracked [a]) :
    (nw.heap a).hash ∉ nw.objects.map (·.hash) := by
  intro hmem
  obtain ⟨o, ho, heq⟩ := List.mem_map.mp hmem
  obtain ⟨b, hb, rfl⟩ := List.mem_map.mp ho
  have hba : b = a := h.distinct b
    (List.mem_cons_of_mem a (mem_linked.mpr (.inr (.inl hb)))) a List.mem_cons_self heq
  exact h.notMem_accepted (hba ▸ hb)

-- The eviction frees an inventory that is in no list any more and leaves the table as it is.
theorem Tracked.evictRejected (h : nw.Tracked [a]) (hs : nw.evictRejected = some nw') :
    nw'.Tracked [a] ∧ nw'.view = nw.view ∧ (nw'.heap a).state = (nw.heap a).state := by
  obtain ⟨old, hold, heq⟩ := Option.bind_eq_some_iff.mp hs
  cases heq
  have hrejected : old ∈ nw.rejectedInventories := List.mem_of_getLast? hold
  have hlinked : old ∈ nw.linked := mem_linked.mpr (.inr (.inr hrejected))
  have hnot : old ∉ nw.acceptedInventories := fun hacc => by
    have hstate := h.accepted old hacc
    rw [h.rejected old hrejected] at hstate
    cases hstate
  have hheld := h.move (h.listRemove_moved hlinked)
  have hne : a ≠ old := by
    rintro rfl
    exact (List.nodup_cons.mp h.nodup).1 hlinked
  refine ⟨hheld.hashRemove_free fun b _ => by simp, ?_, ?_⟩
  · exact (view_hashRemove_free hheld.notMem_accepted).trans (view_listRemove hnot)
  · simp [State.freeInventory, State.setInventory, State.hashRemove, State.listRemove, hne]

theorem Tracked.rejectInventory (h : nw.Tracked [a]) (hs : nw.rejectInventory a = some nw') :
    nw'.Tracked [] ∧ nw'.view = nw.view := by
  have hset : (nw.setInventory a { nw.heap a with state := .rejected }).Tracked [a] :=
    h.setInventory rfl (.inl List.mem_cons_self)
  have hview : (nw.setInventory a { nw.heap a with state := .rejected }).view = nw.view :=
    view_setInventory (.inl h.notMem_accepted)
  have hstate : ((nw.setInventory a { nw.heap a with state := .rejected }).heap a).state =
      .rejected := by simp [State.setInventory]
  have hlink : ∀ nw₁ : State, nw₁.Tracked [a] → nw₁.view = nw.view →
      (nw₁.heap a).state = .rejected →
      { nw₁ with rejectedInventories := a :: nw₁.rejectedInventories }.Tracked [] ∧
        { nw₁ with rejectedInventories := a :: nw₁.rejectedInventories }.view = nw.view :=
    fun nw₁ htracked hsame hrejected =>
      ⟨htracked.move (htracked.linkRejected_moved hrejected), hsame⟩
  by_cases hfull : (nw.setInventory a { nw.heap a with state := .rejected }).nRejectedInventories ≥
      maxRejectedInventories
  · simp only [State.rejectInventory, if_pos hfull, Option.bind_eq_bind] at hs
    obtain ⟨nw₁, hevict, heq⟩ := Option.bind_eq_some_iff.mp hs
    cases heq
    obtain ⟨htracked, hsame, hkept⟩ := hset.evictRejected hevict
    exact hlink nw₁ htracked (hsame.trans hview) (hkept.trans hstate)
  · simp only [State.rejectInventory, if_neg hfull, Option.bind_eq_bind, Option.bind_some] at hs
    cases hs
    let counted : State := { nw.setInventory a { nw.heap a with state := .rejected } with
      nRejectedInventories := nw.nRejectedInventories + 1 }
    have hcounted : counted.Tracked [a] :=
      hset.move ⟨rfl, List.Perm.refl _, { hset.toListed with }⟩
    exact hlink _ hcounted hview hstate

theorem Tracked.acceptInventory (h : nw.Tracked [a]) (blob : Blob) (age : Int) (delay : Bool) :
    (nw.acceptInventory a blob age delay).Tracked [] ∧
      (nw.acceptInventory a blob age delay).view =
        ({ type := blob.type, hash := (nw.heap a).hash, timestamp := (nw.heap a).time } ::
            nw.objects,
          nw.fileTasks ++ [.save (nw.heap a).hash blob]) := by
  let inv : Inventory :=
    { nw.heap a with blob := some (some blob), type := some blob.type, state := .accepted }
  have hset : (nw.setInventory a inv).Tracked [a] :=
    h.setInventory rfl (.inl List.mem_cons_self)
  have hview : (nw.setInventory a inv).view = nw.view := view_setInventory (.inl h.notMem_accepted)
  have hself : (nw.setInventory a inv).heap a = inv := by simp [State.setInventory]
  -- the object is saved and put into the list
  let nw₁ : State := { (nw.setInventory a inv).emit [.saveBlob (nw.heap a).hash blob] with
    acceptedInventories := a :: nw.acceptedInventories }
  have hsaved : ((nw.setInventory a inv).emit [.saveBlob (nw.heap a).hash blob]).Tracked [a] :=
    hset.move (hset.frame_moved rfl rfl rfl)
  have htracked : nw₁.Tracked [] :=
    hsaved.move (hsaved.linkAccepted_moved (congrArg Inventory.state hself))
  have hview₁ : nw₁.view =
      ({ type := blob.type, hash := (nw.heap a).hash, timestamp := (nw.heap a).time } :: nw.objects,
        nw.fileTasks ++ [.save (nw.heap a).hash blob]) := by
    have hobjects : (nw.setInventory a inv).objects = nw.objects := congrArg Prod.fst hview
    refine Prod.ext ?_ (@fileTasks_emit (nw.setInventory a inv) _)
    show ((nw.setInventory a inv).heap a).object :: (nw.setInventory a inv).objects = _
    rw [hobjects, hself]
    rfl
  -- announcing it does not matter, nor does its copy in memory
  have hsent : Framed nw₁ (if delay then
      { nw₁ with delayedBroadcasts := (nw.heap a).hash :: nw₁.delayedBroadcasts }
      else nw₁.broadcastInv (nw.heap a).hash) := by
    split_ifs
    · exact ⟨rfl, rfl, rfl, rfl⟩
    · exact (Framed.refl nw₁).emit (by simp [Effect.fileTask])
  have hready := @Framed.emit _ _ hsent [.newObject blob] (by simp [Effect.fileTask])
  have hunloaded : ∀ nw₂ : State, nw₂.Tracked [] → nw₂.view = nw₁.view →
      (nw₂.setInventory a { nw₂.heap a with blob := some none }).Tracked [] ∧
        (nw₂.setInventory a { nw₂.heap a with blob := some none }).view = nw₁.view := by
    intro nw₂ htracked hview
    have hsame := @view_setInventory nw₂ a { nw₂.heap a with blob := some none } (.inr rfl)
    exact ⟨htracked.setInventory rfl (.inr rfl), hsame.trans hview⟩
  rw [← hview₁]
  unfold State.acceptInventory
  dsimp only
  split_ifs with hage hdelay hdelay
  all_goals simp only [hdelay, if_true, if_false, Bool.false_eq_true] at hready
  · exact hunloaded _ (htracked.framed hready) hready.view_eq
  · exact hunloaded _ (htracked.framed hready) hready.view_eq
  · exact ⟨htracked.framed hready, hready.view_eq⟩
  · exact ⟨htracked.framed hready, hready.view_eq⟩

/-- `add_object` gets as far as accepting the object: the header is whole, the object was not received
before, and it is not judged or found good. -/
def Accepts (ssl : OpenSSL) (nw : State) (now : Int) (blob : Blob) (flags : AddObjectFlags) : Prop :=
  (∃ timestamp, objectTimestamp blob.data = some timestamp ∧
    (flags.skipValidation = false → shouldReject ssl blob.type blob.data (now - timestamp) = false)) ∧
  ∀ a, nw.hashGet (doubleHash ssl blob.data) = some a → (nw.heap a).state.isStub

/-- An object has been accepted: it is the last one, and its file is to be saved. -/
def Accepted (ssl : OpenSSL) (blob : Blob) (v v' : List Object × List FileTask) : Prop :=
  ∃ timestamp, objectTimestamp blob.data = some timestamp ∧
    doubleHash ssl blob.data ∉ v.1.map (·.hash) ∧
    v' = ({ type := blob.type, hash := doubleHash ssl blob.data, timestamp } :: v.1,
      v.2 ++ [.save (doubleHash ssl blob.data) blob])

section AddObject

variable {ssl : OpenSSL} {now : Int} {blob : Blob} {flags : AddObjectFlags}

-- The object is new exactly if it can be claimed.
theorem isStub_of_claimInventory {hash : Hash} {claimed : Option (Nat × State)}
    (hs : nw.claimInventory hash = some claimed) :
    claimed.isSome ↔ ∀ a, nw.hashGet hash = some a → (nw.heap a).state.isStub := by
  unfold State.claimInventory at hs
  cases hget : nw.hashGet hash with
  | none =>
    simp only [hget, Option.some.injEq] at hs
    subst hs
    simp
  | some b =>
    simp only [hget] at hs
    split at hs
    next hstub =>
      split at hs
      · cases hs
        simpa using hstub
      · cases hs
    next hstub =>
      cases hs
      simpa using hstub

/-- Whether the object is accepted is decided before it is claimed. -/
theorem addObject_accepts (hs : nw.addObject ssl now blob flags = some nw') :
    (¬ Accepts ssl nw now blob flags ∧ (nw' = nw ∨ ∃ timestamp a nw₁,
      Claims ssl nw blob timestamp a nw₁ ∧ nw₁.rejectInventory a = some nw')) ∨
    (Accepts ssl nw now blob flags ∧ ∃ timestamp a nw₁, objectTimestamp blob.data = some timestamp ∧
      Claims ssl nw blob timestamp a nw₁ ∧
      nw' = nw₁.acceptInventory a blob (now - timestamp) flags.delay) := by
  unfold State.addObject at hs
  cases htime : objectTimestamp blob.data with
  | none =>
    simp only [htime] at hs
    cases hs
    refine .inl ⟨?_, .inl rfl⟩
    rintro ⟨⟨timestamp, heq, -⟩, -⟩
    rw [htime] at heq
    cases heq
  | some timestamp =>
    simp only [htime, Option.bind_eq_bind] at hs
    obtain ⟨claimed, hclaim, hs⟩ := Option.bind_eq_some_iff.mp hs
    have hnew := isStub_of_claimInventory hclaim
    cases claimed with
    | none =>
      cases hs
      exact .inl ⟨fun hyes => absurd (hnew.mpr hyes.2) (by simp), .inl rfl⟩
    | some r =>
      obtain ⟨a, nw₀⟩ := r
      have hclaims : Claims ssl nw blob timestamp a
          (nw₀.setInventory a { nw₀.heap a with time := timestamp }) := ⟨nw₀, hclaim, rfl⟩
      have haccepts : Accepts ssl nw now blob flags ↔ (!flags.skipValidation &&
          shouldReject ssl blob.type blob.data (now - timestamp)) = false := by
        simp only [Accepts, htime, Option.some.injEq, exists_eq_left', Bool.and_eq_false_imp,
          Bool.not_eq_true']
        exact and_iff_left fun a ha => hnew.mp rfl a ha
      rw [haccepts, Bool.not_eq_false]
      simp only at hs
      split at hs
      next hbad => exact .inl ⟨hbad, .inr ⟨timestamp, a, _, hclaims, hs⟩⟩
      next hgood =>
        cases hs
        exact .inr ⟨Bool.not_eq_true _ ▸ hgood, timestamp, a, _, rfl, hclaims, rfl⟩

theorem Tracked.addObject (h : nw.Tracked []) (hs : nw.addObject ssl now blob flags = some nw') :
    nw'.Tracked [] ∧ (Accepts ssl nw now blob flags → Accepted ssl blob nw.view nw'.view) ∧
      (¬ Accepts ssl nw now blob flags → nw'.view = nw.view) := by
  rcases addObject_accepts hs with ⟨hno, rfl | ⟨timestamp, a, nw₁, hclaims, hreject⟩⟩ |
    ⟨hyes, timestamp, a, nw₁, htime, hclaims, rfl⟩
  · exact ⟨h, fun hyes => absurd hyes hno, fun _ => rfl⟩
  · obtain ⟨htracked, hview, -, -⟩ := h.claims hclaims
    obtain ⟨hrejected, hsame⟩ := htracked.rejectInventory hreject
    exact ⟨hrejected, fun hyes => absurd hyes hno, fun _ => hsame.trans hview⟩
  · obtain ⟨htracked, hview, hhash, htimestamp⟩ := h.claims hclaims
    obtain ⟨haccepted, hadded⟩ := htracked.acceptInventory blob (now - timestamp) flags.delay
    have hfresh := htracked.hash_notMem
    have hobjects : nw₁.objects = nw.objects := congrArg Prod.fst hview
    have htasks : nw₁.fileTasks = nw.fileTasks := congrArg Prod.snd hview
    rw [hhash, hobjects] at hfresh
    rw [hhash, htimestamp, hobjects, htasks] at hadded
    exact ⟨haccepted, fun _ => ⟨timestamp, htime, hfresh, hadded⟩, fun hno => absurd hyes hno⟩

end AddObject

/-! ## 4. Garbage collection -/

/-- An object has been dropped, and its file is to be deleted. -/
def Dropped (v v' : List Object × List FileTask) : Prop :=
  ∃ hash, v' = (v.1.filter (·.hash ≠ hash), v.2 ++ [.delete hash])

-- An accepted object is taken out of its list: it is the only one with its hash.
theorem Tracked.objects_listRemove (h : nw.Tracked []) (ha : a ∈ nw.acceptedInventories) :
    (nw.listRemove a).objects = nw.objects.filter (·.hash ≠ (nw.heap a).hash) := by
  have hnodup := h.nodup_accepted
  show (nw.acceptedInventories.erase a).map (fun a => (nw.heap a).object) = _
  rw [hnodup.erase_eq_filter, objects, List.filter_map]
  congr 1
  apply List.filter_congr
  intro b hb
  have hmem : ∀ c ∈ nw.acceptedInventories, c ∈ [] ++ nw.linked := fun c hc =>
    mem_linked.mpr (.inr (.inl hc))
  by_cases hba : b = a
  · subst hba
    simp [Inventory.object]
  · have hne : (nw.heap b).hash ≠ (nw.heap a).hash := fun heq =>
      hba (h.distinct b (hmem b hb) a (hmem a ha) heq)
    simp [Inventory.object, hba, hne]

theorem Tracked.gcRequestedInventory (now : Nat) (h : nw.Tracked []) (ha : a ∈ nw.requested) :
    (nw.gcRequestedInventory now a).Tracked [] ∧
      (nw.gcRequestedInventory now a).view = nw.view := by
  have hlinked : a ∈ nw.linked := mem_linked.mpr (.inl ha)
  have hnot : a ∉ nw.acceptedInventories := fun hacc => by
    have hstate := h.stub a ha
    rw [h.accepted a hacc] at hstate
    cases hstate
  unfold State.gcRequestedInventory
  split_ifs
  · have hheld := h.move (h.listRemove_moved hlinked)
    exact ⟨hheld.dropInventory,
      (view_hashRemove_free hheld.notMem_accepted).trans (view_listRemove hnot)⟩
  · exact ⟨h, rfl⟩

theorem Tracked.gcInventory (now : Int) (h : nw.Tracked []) (ha : a ∈ nw.received) :
    (nw.gcInventory now a).Tracked [] ∧
      ReflTransGen Dropped nw.view (nw.gcInventory now a).view := by
  have hlinked : a ∈ nw.linked := by
    rw [mem_linked, ← List.mem_append]
    exact .inr ha
  unfold State.gcInventory
  dsimp only
  split_ifs with hexp hstate hcache
  · -- a rejected inventory has no file
    have hnot : a ∉ nw.acceptedInventories := fun hacc => by
      rw [h.accepted a hacc] at hstate
      cases hstate
    let counted : State := { nw with nRejectedInventories := nw.nRejectedInventories - 1 }
    have hcounted : counted.Tracked [] :=
      h.move ⟨rfl, List.Perm.refl _, { h.toListed with }⟩
    have hheld := hcounted.move (hcounted.listRemove_moved hlinked)
    have hview := (view_hashRemove_free (p := .inventory a) hheld.notMem_accepted).trans
      (@view_listRemove counted a hnot)
    refine ⟨hheld.dropInventory, ?_⟩
    rw [State.dropInventory, hview]
    exact .refl
  · have hacc : a ∈ nw.acceptedInventories := by
      rcases List.mem_append.mp ha with hacc | hrej
      · exact hacc
      · exact absurd (h.rejected a hrej) hstate
    have hsent : (nw.emit [.deleteObject (nw.heap a).hash]).Tracked [] :=
      h.move (h.frame_moved rfl rfl rfl)
    have hheld := hsent.move (hsent.listRemove_moved hlinked)
    have hview := view_hashRemove_free (p := .inventory a) hheld.notMem_accepted
    refine ⟨hheld.dropInventory, .single ⟨(nw.heap a).hash, ?_⟩⟩
    rw [State.dropInventory, hview]
    exact Prod.ext (hsent.objects_listRemove hacc) (fileTasks_emit _)
  · have hsame := @view_setInventory nw a { nw.heap a with blob := some none } (.inr rfl)
    rw [hsame]
    exact ⟨h.setInventory rfl (.inr rfl), .refl⟩
  · exact ⟨h, .refl⟩

theorem Owned.nodup_requested (h : nw.Owned held) : nw.requested.Nodup :=
  (List.nodup_append'.mp (List.nodup_append'.mp h.nodup_linked).1).1

theorem Owned.nodup_rejected (h : nw.Owned held) : nw.rejectedInventories.Nodup :=
  (List.nodup_append'.mp h.nodup_linked).2.1

theorem Tracked.gcInventories (now : Int) (h : nw.Tracked []) {l : List Nat} (hl : l.Nodup)
    (hmem : ∀ a ∈ l, a ∈ nw.received) :
    (l.foldl (State.gcInventory now) nw).Tracked [] ∧
      ReflTransGen Dropped nw.view (l.foldl (State.gcInventory now) nw).view := by
  refine Runs.foldl_members (L := received)
    (P := fun s => s.Tracked [] ∧ ReflTransGen Dropped nw.view s.view) ?_ hl hmem ⟨h, .refl⟩
  rintro s b ⟨hs, hview⟩ hb
  obtain ⟨htracked, hdropped⟩ := hs.gcInventory now hb
  exact ⟨⟨htracked, hview.trans hdropped⟩, fun c hc hne => mem_received_gcInventory now hc hne⟩

theorem Tracked.gcTimeoutCb (h : nw.Tracked []) (now : Int) (monotonic : Nat) :
    (nw.gcTimeoutCb now monotonic).Tracked [] ∧
      ReflTransGen Dropped nw.view (nw.gcTimeoutCb now monotonic).view := by
  unfold State.gcTimeoutCb
  have hstubs : (nw.requested.foldl (State.gcRequestedInventory monotonic) nw).Tracked [] ∧
      (nw.requested.foldl (State.gcRequestedInventory monotonic) nw).view = nw.view := by
    refine Runs.foldl_members (L := requested)
      (P := fun s => s.Tracked [] ∧ s.view = nw.view) ?_ h.nodup_requested (fun _ hb => hb) ⟨h, rfl⟩
    rintro s b ⟨hs, hview⟩ hb
    obtain ⟨htracked, hsame⟩ := hs.gcRequestedInventory monotonic hb
    exact ⟨⟨htracked, hsame.trans hview⟩,
      fun c hc hne => mem_requested_gcRequestedInventory monotonic hs.nodup_requested hc hne⟩
  have hacc := hstubs.1.gcInventories now hstubs.1.nodup_accepted fun _ hb =>
    List.mem_append_left _ hb
  have hrej := hacc.1.gcInventories now hacc.1.nodup_rejected fun _ hb =>
    List.mem_append_right _ hb
  rw [hstubs.2] at hacc
  exact ⟨hrej.1.framed ⟨rfl, rfl, rfl, rfl⟩, hacc.2.trans hrej.2⟩

/-- An object from the store is as if it had been accepted, with nothing to be saved. -/
theorem Tracked.storeForEachBlobCb (h : nw.Tracked []) (type : InvType) (hash : Hash)
    (timestamp : Int) :
    (nw.storeForEachBlobCb type hash timestamp).Tracked [] ∧
      (nw.hashGet hash = none → (nw.storeForEachBlobCb type hash timestamp).view =
        ({ type, hash, timestamp } :: nw.objects, nw.fileTasks)) ∧
      (nw.hashGet hash ≠ none → (nw.storeForEachBlobCb type hash timestamp).view = nw.view) := by
  unfold State.storeForEachBlobCb
  cases hget : nw.hashGet hash with
  | some b => exact ⟨h, by simp, fun _ => rfl⟩
  | none =>
    let inv : Inventory :=
      { state := .accepted, type := some type, hash, time := timestamp, blob := some none }
    have hheld := h.new inv hget
    have hnot : nw.alloc.1 ∉ nw.alloc.2.acceptedInventories := hheld.notMem_accepted
    have hview : (nw.alloc.2.setInventory nw.alloc.1 inv).view = nw.view :=
      (view_setInventory (.inl hnot)).trans (view_alloc nw)
    have hself : ((nw.alloc.2.setInventory nw.alloc.1 inv).hashSet nw.alloc.1).heap nw.alloc.1 =
        inv := by simp [hashSet, State.setInventory]
    have hlinked := hheld.move (hheld.linkAccepted_moved (congrArg Inventory.state hself))
    refine ⟨hlinked.move (hlinked.frame_moved rfl rfl rfl), fun _ => ?_, by simp⟩
    refine Prod.ext ?_ ?_
    · show ((nw.alloc.2.setInventory nw.alloc.1 inv).heap nw.alloc.1).object ::
        (nw.alloc.2.setInventory nw.alloc.1 inv).objects = _
      rw [show (nw.alloc.2.setInventory nw.alloc.1 inv).heap nw.alloc.1 = inv from hself,
        show (nw.alloc.2.setInventory nw.alloc.1 inv).objects = nw.objects from
          congrArg Prod.fst hview]
      rfl
    · have htasks : (nw.alloc.2.setInventory nw.alloc.1 inv).fileTasks = nw.fileTasks :=
        congrArg Prod.snd hview
      rw [← htasks]
      exact (fileTasks_emit _).trans (List.append_nil _)

theorem tracked_new (nonce : Nat) (defaultAddrs : List Netaddress) :
    (State.new nonce defaultAddrs).Tracked [] where
  stub := by simp [State.new, State.requested]
  accepted := by simp [State.new]
  rejected := by simp [State.new]
  ids := List.nodup_nil
  ids_lt := by simp [State.new]
  nodup := List.nodup_nil
  inUse := by simp [State.new, State.linked, State.requested]
  magazine := List.nodup_nil
  magazine_lt := by simp [State.new]
  size_pos := show 0 < HashTable.new.size from by simp [HashTable.new, HashTable.size]
  pointers := by simp [State.new, HashTable.values, HashTable.new]
  found := by simp [State.new, State.linked, State.requested]
  distinct := by simp [State.new, State.linked, State.requested]

end State

/-! ## 5. Steps -/

/-- What a step can do to the accepted objects and to their files. -/
inductive ObjectsCase (ssl : OpenSSL) (nw nw' : State) : Event → Prop
  | same {e : Event} (hadded : ∀ now blob flags, e.addedObject = some (now, blob, flags) →
      ¬ State.Accepts ssl nw now blob flags) (h : nw'.view = nw.view) : ObjectsCase ssl nw nw' e
  | accepted {e : Event} (now : Int) (blob : Blob) (flags : AddObjectFlags)
    (hadded : e.addedObject = some (now, blob, flags))
    (haccepts : State.Accepts ssl nw now blob flags)
    (h : State.Accepted ssl blob nw.view nw'.view) : ObjectsCase ssl nw nw' e
  | collected (now : Int) (monotonic : Nat) (h : ReflTransGen State.Dropped nw.view nw'.view) :
    ObjectsCase ssl nw nw' (.gc now monotonic)
  | loaded (type : InvType) (hash : Hash) (timestamp : Int) (hnone : nw.hashGet hash = none)
    (h : nw'.view = ({ type, hash, timestamp } :: nw.objects, nw.fileTasks)) :
    ObjectsCase ssl nw nw' (.loadBlob type hash timestamp)

theorem State.Tracked.step {ssl : OpenSSL} {nw nw' : State} {e : Event} (h : nw.Tracked [])
    (hs : step ssl nw e = some nw') : nw'.Tracked [] ∧ ObjectsCase ssl nw nw' e := by
  have hnone : ∀ {e : Event}, e.addedObject = none → ∀ now blob flags,
      e.addedObject = some (now, blob, flags) → ¬ State.Accepts ssl nw now blob flags := by
    intro e hadded now blob flags hsome
    rw [hadded] at hsome
    cases hsome
  cases step_cases hs with
  | framed hadded hframed => exact ⟨h.framed hframed, .same (hnone hadded) hframed.view_eq⟩
  | addPeer hadded hadds =>
    obtain ⟨nw₁, state, direction, addr, hbefore, hafter⟩ := hadds
    have htracked := h.framed hbefore
    have hpeer := htracked.move (htracked.addPeer_moved state direction addr)
    exact ⟨hpeer.framed hafter, .same (hnone hadded) (hafter.view_eq.trans hbefore.view_eq)⟩
  | removePeer hadded peer hpeer heq =>
    rw [heq]
    exact ⟨(h.removePeer hpeer).1, .same (hnone hadded) (h.removePeer hpeer).2⟩
  | inv peer monotonic hashes hpeer heq =>
    rw [heq]
    exact ⟨(h.handleInv monotonic hashes hpeer).1,
      .same (hnone rfl) (h.handleInv monotonic hashes hpeer).2⟩
  | object now blob flags hadded hobject =>
    obtain ⟨htracked, hyes, hno⟩ := h.addObject hobject
    refine ⟨htracked, ?_⟩
    by_cases haccepts : State.Accepts ssl nw now blob flags
    · exact .accepted now blob flags hadded haccepts (hyes haccepts)
    · refine .same (fun now' blob' flags' hadded' => ?_) (hno haccepts)
      rw [hadded] at hadded'
      cases hadded'
      exact haccepts
  | gc now monotonic heq =>
    rw [heq]
    exact ⟨(h.gcTimeoutCb now monotonic).1, .collected now monotonic (h.gcTimeoutCb now monotonic).2⟩
  | loadBlob type hash timestamp heq =>
    rw [heq]
    obtain ⟨htracked, hnew, hold⟩ := h.storeForEachBlobCb type hash timestamp
    refine ⟨htracked, ?_⟩
    by_cases hget : nw.hashGet hash = none
    · exact .loaded type hash timestamp hget (hnew hget)
    · exact .same (hnone rfl) (hold hget)

end Notbit.Network
