import Notbit.Network.Steps

/-!
# Consistent — the inventories over whole runs

`Inv` is kept by every function of the source but one: the eviction in `reject_inventory` gives the
hash table a pointer it does not know, so that the freed inventory stays in the table.
-/

open Notbit.Proto

namespace Notbit.Network

namespace State

variable {nw nw' : State} {held : List Nat} {a : Nat}

/-! ## 1. Peers -/

/-- The invariant between two events. -/
structure Inv (nw : State) : Prop where
  sound : nw.Sound []
  counted : nw.Counted

theorem Inv.frame (h : nw.Inv) (hinv : nw'.toInventories = nw.toInventories)
    (howners : nw'.owners = nw.owners) (hnext : nw'.nextPeer = nw.nextPeer) : nw'.Inv where
  sound := h.sound.frame hinv howners hnext
  counted := by
    rw [Counted, hinv]
    exact h.counted

theorem Inv.framed (h : nw.Inv) (hframed : Framed nw nw') : nw'.Inv :=
  h.frame hframed.inventories hframed.owners hframed.nextPeer

theorem Inv.emit (h : nw.Inv) (effects : List Effect) : (nw.emit effects).Inv :=
  h.frame rfl rfl rfl

theorem Owned.addPeer_moved (h : nw.Owned held) (state : PeerState) (direction : Direction)
    (addr : Option Nat) : Moved nw (nw.addPeer state direction addr) held held := by
  refine ⟨rfl, List.Perm.refl _, { h.toListed with ids := ?_, ids_lt := ?_ }⟩
  · refine List.nodup_cons.mpr ⟨?_, h.ids⟩
    intro hmem
    obtain ⟨peer, hpeer, heq⟩ := List.mem_map.mp hmem
    exact absurd (h.ids_lt peer hpeer) (by rw [heq]; exact Nat.lt_irrefl _)
  · refine List.forall_mem_cons.mpr ⟨Nat.lt_succ_self _, fun peer hpeer => ?_⟩
    exact Nat.lt_succ_of_lt (h.ids_lt peer hpeer)

theorem Inv.addPeer (h : nw.Inv) (state : PeerState) (direction : Direction) (addr : Option Nat) :
    (nw.addPeer state direction addr).Inv where
  counted := h.counted
  sound := h.sound.move (h.sound.owned.addPeer_moved state direction addr)

theorem Sound.foldl_dropInventory {l : List Nat} (h : nw.Sound (l ++ held)) :
    (l.foldl State.dropInventory nw).Sound held := by
  induction l generalizing nw with
  | nil => exact h
  | cons a l ih => exact ih h.dropInventory

theorem foldl_dropInventory_frame (l : List Nat) (peers : List Peer) (nw : State) :
    (l.foldl dropInventory { nw with peers }) = { l.foldl dropInventory nw with peers } ∧
    (l.foldl dropInventory nw).peers = nw.peers ∧
    (l.foldl dropInventory nw).rejectedInventories = nw.rejectedInventories ∧
    (l.foldl dropInventory nw).nRejectedInventories = nw.nRejectedInventories := by
  induction l generalizing nw with
  | nil => exact ⟨rfl, rfl, rfl, rfl⟩
  | cons a l ih => exact ih (nw.dropInventory a)

/-- The inventories a peer was asked for are those of the other peers and its own. -/
theorem requested_filter_perm {peer : Peer} (hids : (nw.peers.map (·.id)).Nodup)
    (hpeer : peer ∈ nw.peers) :
    (peer.requestedInventories ++ (nw.peers.filter (·.id ≠ peer.id)).flatMap
      (·.requestedInventories)).Perm nw.requested := by
  simp only [requested]
  generalize nw.peers = peers at hids hpeer
  induction peers with
  | nil => cases hpeer
  | cons first peers ih =>
    rw [List.map_cons, List.nodup_cons] at hids
    rcases List.mem_cons.mp hpeer with rfl | hpeer
    · have hrest : peers.filter (·.id ≠ peer.id) = peers := by
        rw [List.filter_eq_self]
        intro other hother
        apply decide_eq_true
        intro heq
        exact hids.1 (heq ▸ List.mem_map_of_mem hother)
      rw [List.filter_cons_of_neg (by simp), hrest, List.flatMap_cons]
    · have hne : first.id ≠ peer.id := by
        intro heq
        exact hids.1 (heq ▸ List.mem_map_of_mem hpeer)
      simp only [ne_eq, hne, not_false_eq_true, decide_true, List.filter_cons_of_pos,
        List.flatMap_cons]
      rw [← List.append_assoc]
      refine (List.perm_append_comm.append_right _).trans ?_
      rw [List.append_assoc]
      exact (ih hids.2 hpeer).append_left _

-- Without the peer, its inventories are in no list.
theorem Owned.withoutPeer_moved {peer : Peer} (h : nw.Owned []) (hpeer : peer ∈ nw.peers) :
    Moved nw { nw with peers := nw.peers.filter (·.id ≠ peer.id) } []
      (peer.requestedInventories ++ []) := by
  have hperm := requested_filter_perm h.ids hpeer
  refine ⟨rfl, ?_, ⟨?_, h.accepted, h.rejected, ?_, ?_⟩⟩
  · simp only [linked, List.append_nil, List.nil_append, ← List.append_assoc]
    exact (hperm.append_right _).append_right _
  · intro b hb
    exact h.stub b (hperm.mem_iff.mp (List.mem_append_right _ hb))
  · exact h.ids.sublist (List.filter_sublist.map _)
  · exact fun other hother => h.ids_lt other (List.mem_of_mem_filter hother)

theorem Inv.removePeer {peer : Peer} (h : nw.Inv) (hpeer : peer ∈ nw.peers) :
    (nw.removePeer peer).Inv := by
  have hheld := h.sound.move (h.sound.owned.withoutPeer_moved hpeer)
  have hdropped := hheld.foldl_dropInventory
  obtain ⟨hcomm, hpeers, hrej, hcount⟩ := foldl_dropInventory_frame peer.requestedInventories
    (nw.peers.filter (·.id ≠ peer.id)) nw
  rw [hcomm] at hdropped
  constructor
  · refine hdropped.frame rfl ?_ rfl
    simp only [owners, State.removePeer, hpeers]
  · show _ ∧ _
    simp only [State.removePeer, hrej, hcount]
    exact h.counted

/-! ## 2. Announcements and objects -/

-- Nothing is found under a hash exactly if no entry of the table has it.
theorem Sound.hashGet_none (h : nw.Sound held) {hash : Hash} :
    nw.hashGet hash = none ↔ ∀ v ∈ nw.inventoryHash.values, nw.hashAt v ≠ hash := by
  rw [hashGet, Option.map_eq_none_iff, h.table.get_eq_none]

theorem counted_alloc (h : nw.Counted) : nw.alloc.2.Counted := by
  rw [alloc_frame]
  exact h

theorem Inv.requestInventory {peer : Nat} {hash : Hash} (h : nw.Inv) (now : Nat)
    (hpeer : peer ∈ nw.peers.map (·.id)) (hnew : nw.hashGet hash = none) :
    (nw.requestInventory peer now hash).Inv := by
  have hheld := h.sound.new { state := .stub, hash, time := now } (h.sound.hashGet_none.mp hnew)
  have hpeers : nw.alloc.2.peers = nw.peers := congrArg (·.peers) (alloc_frame nw)
  constructor
  · rw [← hpeers] at hpeer
    refine hheld.linkRequested ?_ hpeer
    simp [hashSet, State.setInventory]
  · exact counted_alloc h.counted

theorem ids_requestInventory (nw : State) (peer now : Nat) (hash : Hash) :
    (nw.requestInventory peer now hash).peers.map (·.id) = nw.peers.map (·.id) := by
  have hpeers : nw.alloc.2.peers = nw.peers := congrArg (·.peers) (alloc_frame nw)
  simp only [State.requestInventory, hashSet, State.updatePeer, State.setInventory, List.map_map,
    hpeers]
  apply List.map_congr_left
  intro peer _
  simp only [Function.comp]
  split_ifs <;> rfl

theorem Inv.handleInv {peer : Nat} (h : nw.Inv) (now : Nat) (hashes : List Hash)
    (hpeer : peer ∈ nw.peers.map (·.id)) : (nw.handleInv peer now hashes).Inv := by
  have hloop : ∀ s : State × List Hash, s.1.Inv → peer ∈ s.1.peers.map (·.id) →
      (hashes.foldl (handleInvHash peer now) s).1.Inv := by
    induction hashes with
    | nil => exact fun s hs _ => hs
    | cons hash hashes ih =>
      intro s hs hid
      rw [List.foldl_cons]
      cases hget : s.1.hashGet hash with
      | some b =>
        simp only [handleInvHash, hget]
        exact ih s hs hid
      | none =>
        simp only [handleInvHash, hget]
        refine ih _ (hs.requestInventory now hid hget) ?_
        rwa [ids_requestInventory]
  exact (hloop (nw, []) h hpeer).emit _

/-- The inventory that `add_object` goes on with is held. -/
theorem Inv.claimInventory {hash : Hash} (h : nw.Inv)
    (hs : nw.claimInventory hash = some (some (a, nw'))) : nw'.Sound [a] ∧ nw'.Counted := by
  unfold State.claimInventory at hs
  cases hget : nw.hashGet hash with
  | none =>
    simp only [hget, Option.some.injEq, Prod.mk.injEq] at hs
    obtain ⟨rfl, rfl⟩ := hs
    exact ⟨h.sound.new { hash } (h.sound.hashGet_none.mp hget), counted_alloc h.counted⟩
  | some b =>
    simp only [hget] at hs
    split at hs
    next hstub =>
      split at hs
      next hlinked =>
        cases hs
        refine ⟨h.sound.listRemove hlinked, ?_⟩
        -- a stub is not in the rejected list
        have hnot : a ∉ nw.rejectedInventories := by
          intro hrej
          rw [h.sound.rejected a hrej] at hstub
          cases hstub
        show _ ∧ _
        rw [show (nw.listRemove a).rejectedInventories = nw.rejectedInventories from
          List.erase_of_not_mem hnot]
        exact h.counted
      next => cases hs
    next => cases hs

/-- Without an eviction a rejected inventory ends up in the rejected list. -/
theorem Sound.rejectInventory (h : nw.Sound [a]) (hcount : nw.Counted)
    (hroom : nw.nRejectedInventories < maxRejectedInventories)
    (hs : nw.rejectInventory a = some nw') : nw'.Inv := by
  have hnot : ¬ (nw.setInventory a { nw.heap a with state := .rejected }).nRejectedInventories ≥
      maxRejectedInventories := Int.not_le.mpr hroom
  simp only [State.rejectInventory, if_neg hnot, Option.bind_eq_bind, Option.bind_some] at hs
  cases hs
  have hset : (nw.setInventory a { nw.heap a with state := .rejected }).Sound [a] :=
    h.setInventory rfl (.inl List.mem_cons_self)
  constructor
  · have hlink := hset.linkRejected (by simp [State.setInventory])
    exact hlink.move ⟨rfl, List.Perm.refl _, { hlink.toListed with }⟩
  · obtain ⟨heq, hle⟩ := hcount
    constructor
    · show nw.nRejectedInventories + 1 = ((a :: nw.rejectedInventories).length : Int)
      rw [heq, List.length_cons]
      rfl
    · exact hroom

/-- An eviction frees an inventory that stays in the table: it is searched under a pointer that was
never stored. -/
theorem Sound.evict_not_consistent (h : nw.Sound held)
    (hfull : maxRejectedInventories ≤ nw.nRejectedInventories)
    (hs : nw.rejectInventory a = some nw') : ¬ nw'.Consistent := by
  have hge : (nw.setInventory a { nw.heap a with state := .rejected }).nRejectedInventories ≥
      maxRejectedInventories := hfull
  simp only [State.rejectInventory, if_pos hge, evictRejected, Option.bind_eq_bind] at hs
  obtain ⟨nw₁, hevict, hs⟩ := Option.bind_eq_some_iff.mp hs
  obtain ⟨old, hold, heq⟩ := Option.bind_eq_some_iff.mp hevict
  cases heq
  cases hs
  have hlinked : old ∈ nw.linked :=
    mem_linked.mpr (.inr (.inr (List.mem_of_getLast? hold)))
  have hmiss : Ptr.hashField old ∉ nw.inventoryHash.values := by
    intro hmem
    obtain ⟨b, -, hb⟩ := (h.entries _).mp hmem
    cases hb
  intro hcons
  refine hcons.freed old (.inl List.mem_cons_self) ?_
  show Ptr.inventory old ∈ (nw.inventoryHash.remove (.hashField old) _).2.values
  rw [HashTable.WF.remove_notMem hmiss]
  exact (h.entries _).mpr ⟨old, List.mem_append_right held hlinked, rfl⟩

theorem Sound.acceptInventory (h : nw.Sound [a]) (hcount : nw.Counted) (blob : Blob) (age : Int)
    (delay : Bool) : (nw.acceptInventory a blob age delay).Inv := by
  let inv : Inventory :=
    { nw.heap a with blob := some (some blob), type := some blob.type, state := .accepted }
  have hset : (nw.setInventory a inv).Sound [a] :=
    h.setInventory rfl (.inl List.mem_cons_self)
  have hlink := hset.linkAccepted (by simp [State.setInventory, inv])
  have hinv : ({ nw.setInventory a inv with
      acceptedInventories := a :: nw.acceptedInventories } : State).Inv := ⟨hlink, hcount⟩
  unfold State.acceptInventory
  simp only
  -- announcing the object and signalling it is outside the inventories
  have hsent : ∀ nw₁ : State, nw₁.Inv → (if delay then
        { nw₁ with delayedBroadcasts := (nw.heap a).hash :: nw₁.delayedBroadcasts }
      else nw₁.broadcastInv (nw.heap a).hash).Inv := by
    intro nw₁ h₁
    split_ifs
    · exact h₁.frame rfl rfl rfl
    · exact h₁.emit _
  have hready := (hsent _ (hinv.emit [.saveBlob (nw.heap a).hash blob])).emit [.newObject blob]
  split_ifs with hage hdelay hdelay
  all_goals simp only [hdelay, if_true, if_false, Bool.false_eq_true] at hready
  · exact ⟨hready.sound.setInventory rfl (.inr rfl), hready.counted⟩
  · exact ⟨hready.sound.setInventory rfl (.inr rfl), hready.counted⟩
  · exact hready
  · exact hready

/-- `add_object` gets as far as `reject_inventory`: the header is whole, the object was not received
before, and it is judged and found bad. -/
def Rejects (ssl : OpenSSL) (nw : State) (now : Int) (blob : Blob) (flags : AddObjectFlags) : Prop :=
  ∃ timestamp, objectTimestamp blob.data = some timestamp ∧
    (∀ a, nw.hashGet (doubleHash ssl blob.data) = some a → (nw.heap a).state.isStub) ∧
    flags.skipValidation = false ∧ shouldReject ssl blob.type blob.data (now - timestamp)

/-- The inventory of an object that is new, with its time stamp. -/
def Claims (ssl : OpenSSL) (nw : State) (blob : Blob) (timestamp : Int) (a : Nat) (nw₁ : State) :
    Prop :=
  ∃ nw₀, nw.claimInventory (doubleHash ssl blob.data) = some (some (a, nw₀)) ∧
    nw₁ = nw₀.setInventory a { nw₀.heap a with time := timestamp }

/-- What `add_object` can do: ignore the object, reject it or accept it. -/
theorem addObject_cases {ssl : OpenSSL} {now : Int} {blob : Blob} {flags : AddObjectFlags}
    (hs : nw.addObject ssl now blob flags = some nw') :
    (nw' = nw ∧ ¬ Rejects ssl nw now blob flags) ∨
    (∃ timestamp a nw₁, Claims ssl nw blob timestamp a nw₁ ∧ Rejects ssl nw now blob flags ∧
      nw₁.rejectInventory a = some nw') ∨
    (∃ timestamp a nw₁, Claims ssl nw blob timestamp a nw₁ ∧ ¬ Rejects ssl nw now blob flags ∧
      nw' = nw₁.acceptInventory a blob (now - timestamp) flags.delay) := by
  unfold addObject at hs
  cases htime : objectTimestamp blob.data with
  | none =>
    simp only [htime] at hs
    cases hs
    refine .inl ⟨rfl, ?_⟩
    rintro ⟨_, heq, -⟩
    rw [htime] at heq
    cases heq
  | some timestamp =>
    simp only [htime, Option.bind_eq_bind] at hs
    obtain ⟨claimed, hclaim, hs⟩ := Option.bind_eq_some_iff.mp hs
    cases claimed with
    | none =>
      cases hs
      refine .inl ⟨rfl, ?_⟩
      rintro ⟨-, -, hstub, -⟩
      -- only a known object that is no stub is passed over
      unfold State.claimInventory at hclaim
      cases hget : nw.hashGet (doubleHash ssl blob.data) with
      | none => simp [hget] at hclaim
      | some b =>
        simp only [hget, hstub b hget, if_true] at hclaim
        split at hclaim <;> simp at hclaim
    | some r =>
      obtain ⟨a, nw₀⟩ := r
      have hclaims : Claims ssl nw blob timestamp a
          (nw₀.setInventory a { nw₀.heap a with time := timestamp }) := ⟨nw₀, hclaim, rfl⟩
      have hnew : ∀ b, nw.hashGet (doubleHash ssl blob.data) = some b →
          (nw.heap b).state.isStub := by
        intro b hget
        unfold State.claimInventory at hclaim
        simp only [hget] at hclaim
        by_contra hstub
        simp [hstub] at hclaim
      have hrejects : Rejects ssl nw now blob flags ↔
          (!flags.skipValidation && shouldReject ssl blob.type blob.data (now - timestamp)) := by
        simp only [Rejects, htime, Option.some.injEq, exists_eq_left', Bool.and_eq_true,
          Bool.not_eq_true']
        exact ⟨fun h => h.2, fun h => ⟨hnew, h⟩⟩
      simp only at hs
      split at hs
      next hbad => exact .inr (.inl ⟨timestamp, a, _, hclaims, hrejects.mpr hbad, hs⟩)
      next hgood =>
        cases hs
        exact .inr (.inr ⟨timestamp, a, _, hclaims, fun h => hgood (hrejects.mp h), rfl⟩)

theorem Inv.claims {ssl : OpenSSL} {blob : Blob} {timestamp : Int} {nw₁ : State} (h : nw.Inv)
    (hc : Claims ssl nw blob timestamp a nw₁) : nw₁.Sound [a] ∧ nw₁.Counted := by
  obtain ⟨nw₀, hclaim, rfl⟩ := hc
  obtain ⟨hsound, hcount⟩ := h.claimInventory hclaim
  exact ⟨hsound.setInventory rfl (.inl List.mem_cons_self), hcount⟩

theorem Claims.nRejectedInventories {ssl : OpenSSL} {blob : Blob} {timestamp : Int} {nw₁ : State}
    (hc : Claims ssl nw blob timestamp a nw₁) :
    nw₁.nRejectedInventories = nw.nRejectedInventories := by
  obtain ⟨nw₀, hclaim, rfl⟩ := hc
  show nw₀.nRejectedInventories = nw.nRejectedInventories
  unfold State.claimInventory at hclaim
  split at hclaim
  · cases hclaim
    exact congrArg (·.nRejectedInventories) (alloc_frame nw)
  · split at hclaim
    · split at hclaim
      · cases hclaim
        rfl
      · cases hclaim
    · cases hclaim

section AddObject

variable {ssl : OpenSSL} {now : Int} {blob : Blob} {flags : AddObjectFlags}

theorem Inv.addObject (h : nw.Inv) (hs : nw.addObject ssl now blob flags = some nw')
    (hroom : Rejects ssl nw now blob flags → nw.nRejectedInventories < maxRejectedInventories) :
    nw'.Inv := by
  rcases addObject_cases hs with ⟨rfl, -⟩ | ⟨timestamp, a, nw₁, hc, hrej, hs⟩ |
    ⟨timestamp, a, nw₁, hc, -, rfl⟩
  · exact h
  · obtain ⟨hsound, hcount⟩ := h.claims hc
    exact hsound.rejectInventory hcount (hc.nRejectedInventories ▸ hroom hrej) hs
  · obtain ⟨hsound, hcount⟩ := h.claims hc
    exact hsound.acceptInventory hcount _ _ _

theorem Inv.addObject_full (h : nw.Inv) (hs : nw.addObject ssl now blob flags = some nw')
    (hrej : Rejects ssl nw now blob flags)
    (hfull : maxRejectedInventories ≤ nw.nRejectedInventories) : ¬ nw'.Consistent := by
  rcases addObject_cases hs with ⟨-, hnot⟩ | ⟨timestamp, a, nw₁, hc, -, hs⟩ | ⟨_, _, _, -, hnot, -⟩
  · exact absurd hrej hnot
  · exact (h.claims hc).1.evict_not_consistent (hc.nRejectedInventories ▸ hfull) hs
  · exact absurd hrej hnot

end AddObject

theorem Inv.storeForEachBlobCb (h : nw.Inv) (type : InvType) (hash : Hash) (timestamp : Int) :
    (nw.storeForEachBlobCb type hash timestamp).Inv := by
  unfold State.storeForEachBlobCb
  cases hget : nw.hashGet hash with
  | some b => exact h
  | none =>
    have hheld := h.sound.new
      { state := .accepted, type := some type, hash, time := timestamp, blob := some none }
      (h.sound.hashGet_none.mp hget)
    have hlink := hheld.linkAccepted (by simp [hashSet, State.setInventory])
    exact Inv.emit ⟨hlink, counted_alloc h.counted⟩ _

/-! ## 3. Garbage collection -/

theorem Sound.setCount (h : nw.Sound held) (n : Int) :
    { nw with nRejectedInventories := n }.Sound held :=
  h.move ⟨rfl, List.Perm.refl _, { h.toListed with }⟩

-- Taking an inventory out of its list, out of the table and freeing it.
theorem Sound.collect (h : nw.Sound []) (ha : a ∈ nw.linked) :
    ((nw.listRemove a).dropInventory a).Sound [] :=
  (h.listRemove ha).dropInventory

theorem mem_requested_gcRequestedInventory (now : Nat) (h : nw.requested.Nodup) {b : Nat}
    (hb : b ∈ nw.requested) (hne : b ≠ a) : b ∈ (nw.gcRequestedInventory now a).requested := by
  unfold State.gcRequestedInventory
  split_ifs
  · exact (mem_requested_listRemove h).mpr ⟨hb, hne⟩
  · exact hb

theorem Inv.gcRequestedInventory (now : Nat) (h : nw.Inv) (ha : a ∈ nw.requested) :
    (nw.gcRequestedInventory now a).Inv ∧
      ∀ b ∈ nw.requested, b ≠ a → b ∈ (nw.gcRequestedInventory now a).requested := by
  have hparts := List.nodup_append'.mp (List.nodup_append'.mp h.sound.owned.nodup_linked).1
  refine ⟨?_, fun b hb hne => mem_requested_gcRequestedInventory now hparts.1 hb hne⟩
  unfold State.gcRequestedInventory
  split_ifs
  · refine ⟨h.sound.collect (mem_linked.mpr (.inl ha)), ?_⟩
    have hnot : a ∉ nw.rejectedInventories := by
      intro hrej
      have hstub := h.sound.stub a ha
      rw [h.sound.rejected a hrej] at hstub
      cases hstub
    show _ = ((nw.rejectedInventories.erase a).length : Int) ∧ _
    rw [List.erase_of_not_mem hnot]
    exact h.counted
  · exact h

/-- The lists of received inventories, which share `gc_inventories`. -/
def received (nw : State) : List Nat := nw.acceptedInventories ++ nw.rejectedInventories

theorem mem_received_gcInventory (now : Int) {b : Nat} (hb : b ∈ nw.received) (hne : b ≠ a) :
    b ∈ (nw.gcInventory now a).received := by
  have hcollect : ∀ nw₁ : State, nw₁.received = nw.received →
      b ∈ ((nw₁.listRemove a).dropInventory a).received := by
    intro nw₁ heq
    rw [← heq] at hb
    rcases List.mem_append.mp hb with hacc | hrej
    · exact List.mem_append_left _ ((List.mem_erase_of_ne hne).mpr hacc)
    · exact List.mem_append_right _ ((List.mem_erase_of_ne hne).mpr hrej)
  unfold State.gcInventory
  simp only
  split_ifs
  · exact hcollect _ rfl
  · exact hcollect _ rfl
  · exact hb
  · exact hb

theorem Inv.gcInventory (now : Int) (h : nw.Inv) (ha : a ∈ nw.received) :
    (nw.gcInventory now a).Inv ∧
      ∀ b ∈ nw.received, b ≠ a → b ∈ (nw.gcInventory now a).received := by
  have hlinked : a ∈ nw.linked := by
    rw [mem_linked, ← List.mem_append]
    exact .inr ha
  refine ⟨?_, fun b hb hne => mem_received_gcInventory now hb hne⟩
  unfold State.gcInventory
  simp only
  split_ifs with hexp hstate hcache
  · refine ⟨(h.sound.setCount _).collect hlinked, ?_⟩
    -- a rejected inventory is counted
    have hrej : a ∈ nw.rejectedInventories := by
      rcases List.mem_append.mp ha with hacc | hrej
      · rw [h.sound.accepted a hacc] at hstate
        cases hstate
      · exact hrej
    obtain ⟨heq, hle⟩ := h.counted
    have hpos : 0 < nw.rejectedInventories.length := List.length_pos_of_mem hrej
    constructor
    · show nw.nRejectedInventories - 1 = ((nw.rejectedInventories.erase a).length : Int)
      rw [heq, List.length_erase_of_mem hrej]
      omega
    · show nw.nRejectedInventories - 1 ≤ maxRejectedInventories
      omega
  · refine ⟨(h.emit _).sound.collect hlinked, ?_⟩
    have hnot : a ∉ nw.rejectedInventories := fun hrej => hstate (h.sound.rejected a hrej)
    show _ = ((nw.rejectedInventories.erase a).length : Int) ∧ _
    rw [List.erase_of_not_mem hnot]
    exact h.counted
  · exact ⟨h.sound.setInventory rfl (.inr rfl), h.counted⟩
  · exact h

theorem Inv.gcInventories (now : Int) (h : nw.Inv) {l : List Nat} (hl : l.Nodup)
    (hmem : ∀ a ∈ l, a ∈ nw.received) : (l.foldl (State.gcInventory now) nw).Inv :=
  Runs.foldl_members (L := received) (fun _ _ hs ha => hs.gcInventory now ha) hl hmem h

theorem Inv.gcTimeoutCb (h : nw.Inv) (now : Int) (monotonic : Nat) :
    (nw.gcTimeoutCb now monotonic).Inv := by
  have hnodup : ∀ nw₁ : State, nw₁.Inv → nw₁.requested.Nodup ∧ nw₁.acceptedInventories.Nodup ∧
      nw₁.rejectedInventories.Nodup := by
    intro nw₁ h₁
    have houter := List.nodup_append'.mp h₁.sound.owned.nodup_linked
    have hinner := List.nodup_append'.mp houter.1
    exact ⟨hinner.1, hinner.2.1, houter.2.1⟩
  unfold State.gcTimeoutCb
  have hstubs : (nw.requested.foldl (State.gcRequestedInventory monotonic) nw).Inv :=
    Runs.foldl_members (L := requested) (fun _ _ hs ha => hs.gcRequestedInventory monotonic ha)
      (hnodup nw h).1 (fun _ hb => hb) h
  have hacc := hstubs.gcInventories now (hnodup _ hstubs).2.1 fun _ hb => List.mem_append_left _ hb
  have hrej := hacc.gcInventories now (hnodup _ hacc).2.2 fun _ hb => List.mem_append_right _ hb
  exact hrej.frame rfl rfl rfl

end State

/-! ## 4. Runs -/

/-- No object is rejected while the list of rejected inventories is full. -/
def RejectedHasRoom (ssl : OpenSSL) (nw : State) (e : Event) : Prop :=
  ∀ now blob flags, e.addedObject = some (now, blob, flags) →
    nw.Rejects ssl now blob flags → nw.nRejectedInventories < maxRejectedInventories

variable {ssl : OpenSSL} {nw nw' : State} {e : Event}

theorem State.Inv.step (h : nw.Inv) (hok : RejectedHasRoom ssl nw e)
    (hs : step ssl nw e = some nw') : nw'.Inv := by
  cases step_cases hs with
  | framed _ hframed => exact h.framed hframed
  | addPeer _ hadds =>
    obtain ⟨nw₁, state, direction, addr, hbefore, hbehind⟩ := hadds
    exact ((h.framed hbefore).addPeer state direction addr).framed hbehind
  | removePeer _ peer hpeer heq =>
    rw [heq]
    exact h.removePeer hpeer
  | inv peer monotonic hashes hpeer heq =>
    rw [heq]
    exact h.handleInv monotonic hashes hpeer
  | object now blob flags hadded hobject => exact h.addObject hobject (hok now blob flags hadded)
  | gc now monotonic heq =>
    rw [heq]
    exact h.gcTimeoutCb now monotonic
  | loadBlob type hash timestamp heq =>
    rw [heq]
    exact h.storeForEachBlobCb type hash timestamp

/-- A rejection while the list is full breaks the table. -/
theorem State.Inv.step_full (h : nw.Inv) (hbad : ¬ RejectedHasRoom ssl nw e)
    (hs : Network.step ssl nw e = some nw') : ¬ nw'.Consistent := by
  simp only [RejectedHasRoom, not_forall, Int.not_lt] at hbad
  obtain ⟨now, blob, flags, hadd, hrej, hfull⟩ := hbad
  have hadded : nw.addObject ssl now blob flags = some nw' := by
    cases step_cases hs with
    | framed hnone _ => rw [hadd] at hnone; cases hnone
    | addPeer hnone _ => rw [hadd] at hnone; cases hnone
    | removePeer hnone _ _ _ => rw [hadd] at hnone; cases hnone
    | inv _ _ _ _ _ => cases hadd
    | object now' blob' flags' hadded hobject =>
      rw [hadd] at hadded
      cases hadded
      exact hobject
    | gc _ _ _ => cases hadd
    | loadBlob _ _ _ _ => cases hadd
  exact h.addObject_full hadded hrej hfull

theorem State.inv_new (nonce : Nat) (defaultAddrs : List Netaddress) :
    (State.new nonce defaultAddrs).Inv where
  counted := ⟨rfl, show (0 : Int) ≤ maxRejectedInventories by decide⟩
  sound := {
    stub := by simp [State.new, State.requested]
    accepted := by simp [State.new]
    rejected := by simp [State.new]
    ids := List.nodup_nil
    ids_lt := by simp [State.new]
    nodup := List.nodup_nil
    inUse := by simp [State.new, State.linked, State.requested]
    magazine := List.nodup_nil
    magazine_lt := by simp [State.new]
    table := HashTable.wf_new
    entries := by simp [State.new, State.linked, State.requested, HashTable.values, HashTable.new] }

/-- From the start of the program on, table and lists agree in all states of a run exactly if
nothing is rejected while the rejected list is full. -/
theorem inventories_consistent_iff (ssl : OpenSSL) (nonce : Nat) (defaultAddrs : List Netaddress)
    (events : List Event) :
    (∀ pre, pre <+: events →
      (Runs.run (step ssl) (State.new nonce defaultAddrs) pre).Consistent) ↔
      Runs.Along (step ssl) (RejectedHasRoom ssl) (State.new nonce defaultAddrs) events :=
  Runs.always_iff_along (I := State.Inv) (fun _ h => h.sound.consistent h.counted)
    (fun _ _ _ h hok hs => h.step hok hs) (fun _ _ _ h hbad hs => h.step_full hbad hs)
    (State.inv_new nonce defaultAddrs) events

/-! ## 5. A peer that floods the list

One peer sends objects that are too old, each with another nonce, until one more is rejected than
the list can hold. -/

section Flood

/-- The `i`th object: a nonce, the time stamp zero and the stream. -/
def floodBlob (i : Nat) : Blob where
  type := .msg
  data := add64 i ++ add64 0 ++ addVarInt 1

/-- It arrives after its two and a half days. -/
def floodEvent (i : Nat) : Event := .object 0 216000 (floodBlob i)

/-- The program listens and accepts one connection. -/
def floodStart : State :=
  Runs.run (step .additive) (State.new 0 []) [.addListenAddress, .accept 0]

def flooded (n : Nat) : State :=
  Runs.run (step .additive) floodStart ((List.range n).map floodEvent)

theorem flooded_succ (n : Nat) :
    flooded (n + 1) = Runs.next (step .additive) (flooded n) (floodEvent n) := by
  rw [flooded, List.range_succ, List.map_append, Runs.run_append]
  rfl

theorem doubleHash_floodBlob (i : Nat) :
    (doubleHash .additive (floodBlob i).data).val.take 8 = add64 i := by
  simp [doubleHash, OpenSSL.additive, fitTo, floodBlob, add64, List.take_append, List.take_take]

theorem floodBlob_hash_injective {i j : Nat} (hi : i < 2 ^ 64) (hj : j < 2 ^ 64)
    (h : doubleHash .additive (floodBlob i).data = doubleHash .additive (floodBlob j).data) :
    i = j := by
  have hbytes : add64 i = add64 j := by
    rw [← doubleHash_floodBlob i, ← doubleHash_floodBlob j, h]
  have hofBE := congrArg Bytes.ofBE hbytes
  rwa [add64, add64, Bytes.ofBE_toBE_of_lt hi, Bytes.ofBE_toBE_of_lt hj] at hofBE

theorem floodBlob_timestamp (i : Nat) : objectTimestamp (floodBlob i).data = some 0 :=
  objectTimestamp_append (by decide) (by decide)

theorem floodBlob_rejected (i : Nat) :
    shouldReject .additive (floodBlob i).type (floodBlob i).data (216000 - 0) = true := by
  have hage : ((216000 : Int) - 0 ≥ maxAgeForType .msg) := by decide
  rw [shouldReject, show (floodBlob i).type = .msg from rfl, decide_eq_true hage]
  simp

/-- After `n` objects there are `n` rejected inventories, and no other hash is known. -/
structure Flooded (n : Nat) (nw : State) : Prop where
  inv : nw.Inv
  peer : ∃ peer, nw.findPeer 0 = some peer
  count : nw.nRejectedInventories = n
  hashes : ∀ a ∈ nw.linked, ∃ i < n, (nw.heap a).hash = doubleHash .additive (floodBlob i).data

theorem flooded_zero : Flooded 0 (flooded 0) where
  inv := by
    apply Runs.invariant_along (fun _ _ _ h hok hs => State.Inv.step h hok hs) _
      (State.inv_new 0 [])
    refine ⟨fun _ _ _ _ hadd => ?_, fun _ _ _ _ hadd => ?_, trivial⟩ <;> cases hadd
  peer := ⟨_, rfl⟩
  count := rfl
  hashes := fun a ha => by cases ha

variable {n : Nat}

theorem Flooded.hashGet (h : Flooded n nw) (hn : n < 2 ^ 64) :
    nw.hashGet (doubleHash .additive (floodBlob n).data) = none := by
  rw [h.inv.sound.hashGet_none]
  intro v hv heq
  obtain ⟨a, ha, rfl⟩ := (h.inv.sound.entries v).mp hv
  obtain ⟨i, hi, hhash⟩ := h.hashes a ha
  have hsame := floodBlob_hash_injective (by omega) hn (hhash.symm.trans heq)
  omega

theorem Flooded.rejects (h : Flooded n nw) (hn : n < 2 ^ 64) :
    nw.Rejects .additive 216000 (floodBlob n) {} := by
  refine ⟨0, floodBlob_timestamp n, ?_, rfl, floodBlob_rejected n⟩
  intro a hget
  rw [h.hashGet hn] at hget
  cases hget

/-- What a new object that is rejected leaves behind, while there is room. -/
theorem addObject_rejected {now timestamp : Int} {blob : Blob}
    (hget : nw.hashGet (doubleHash ssl blob.data) = none)
    (htime : objectTimestamp blob.data = some timestamp)
    (hrej : shouldReject ssl blob.type blob.data (now - timestamp) = true)
    (hroom : nw.nRejectedInventories < maxRejectedInventories) :
    ∃ nw', nw.addObject ssl now blob {} = some nw' ∧
      nw'.nRejectedInventories = nw.nRejectedInventories + 1 ∧ nw'.peers = nw.peers ∧
      ∀ b ∈ nw'.linked, (nw'.heap b).hash = doubleHash ssl blob.data ∨
        b ∈ nw.linked ∧ (nw'.heap b).hash = (nw.heap b).hash := by
  have hframe := State.alloc_frame nw
  simp only [State.addObject, htime, State.claimInventory, hget, Option.bind_eq_bind,
    Option.bind_some, hrej, Bool.not_false, Bool.and_true, if_true]
  generalize nw.alloc = r at hframe ⊢
  obtain ⟨a, nw₁⟩ := r
  simp only at hframe ⊢
  have hcount : nw₁.nRejectedInventories = nw.nRejectedInventories :=
    congrArg (·.nRejectedInventories) hframe
  have hpeers : nw₁.peers = nw.peers := congrArg (·.peers) hframe
  have hheap : nw₁.heap = nw.heap := congrArg (·.heap) hframe
  have hacc : nw₁.acceptedInventories = nw.acceptedInventories :=
    congrArg (·.acceptedInventories) hframe
  have hrejected : nw₁.rejectedInventories = nw.rejectedInventories :=
    congrArg (·.rejectedInventories) hframe
  have hnot : ¬ nw₁.nRejectedInventories ≥ maxRejectedInventories := by
    rw [hcount]
    exact Int.not_le.mpr hroom
  simp only [State.rejectInventory, State.setInventory, State.hashSet, hnot, if_false,
    Option.bind_eq_bind, Option.bind_some]
  refine ⟨_, rfl, ?_, hpeers, fun b hb => ?_⟩
  · simp only [hcount]
  · by_cases hba : b = a
    · exact .inl (by simp [hba])
    · refine .inr ⟨?_, by simp [hba, hheap]⟩
      rw [State.mem_linked] at hb ⊢
      simp only [State.requested, hpeers, hacc, hrejected, List.mem_cons, hba, false_or] at hb ⊢
      exact hb

theorem Flooded.next (h : Flooded n nw) (hn : n < 16384) :
    Flooded (n + 1) (Runs.next (step .additive) nw (floodEvent n)) := by
  have hroom : nw.nRejectedInventories < maxRejectedInventories := by
    rw [h.count]
    exact Int.ofNat_lt.mpr hn
  obtain ⟨nw', hadd, hcount, hpeers, hlinked⟩ := addObject_rejected (h.hashGet (by omega))
    (floodBlob_timestamp n) (floodBlob_rejected n) hroom
  obtain ⟨peer, hpeer⟩ := h.peer
  have hs : step .additive nw (floodEvent n) = some nw' := by
    simp only [step, floodEvent, hpeer, Option.bind_some, hadd]
  rw [Runs.next_of_some hs]
  constructor
  · exact h.inv.addObject hadd fun _ => hroom
  · exact ⟨peer, by rw [State.findPeer, hpeers]; exact hpeer⟩
  · rw [hcount, h.count]
    rfl
  · intro b hb
    rcases hlinked b hb with hnew | ⟨hold, heq⟩
    · exact ⟨n, Nat.lt_succ_self n, hnew⟩
    · obtain ⟨i, hi, hhash⟩ := h.hashes b hold
      exact ⟨i, Nat.lt_succ_of_lt hi, heq.trans hhash⟩

theorem flooded_of_le (hn : n ≤ 16384) : Flooded n (flooded n) := by
  induction n with
  | zero => exact flooded_zero
  | succ n ih =>
    rw [flooded_succ]
    exact (ih (by omega)).next hn

theorem State.rejectInventory_isSome {a : Nat} (h : nw.rejectedInventories ≠ []) :
    ∃ nw', nw.rejectInventory a = some nw' := by
  obtain ⟨old, hold⟩ := Option.isSome_iff_exists.mp (List.getLast?_isSome.mpr h)
  by_cases hfull : nw.nRejectedInventories ≥ maxRejectedInventories
  · simp only [State.rejectInventory, State.evictRejected, State.setInventory, hfull, if_true, hold]
    exact ⟨_, rfl⟩
  · simp only [State.rejectInventory, State.setInventory, hfull, if_false]
    exact ⟨_, rfl⟩

-- The list is full: the next object is rejected too, and takes the place of the first one.
theorem Flooded.evicts (h : Flooded 16384 nw) :
    ¬ (Runs.next (step .additive) nw (floodEvent 16384)).Consistent := by
  have hfull : maxRejectedInventories ≤ nw.nRejectedInventories := by
    rw [h.count]
    decide
  have hnonempty : nw.rejectedInventories ≠ [] := by
    intro hnil
    have hcount := h.inv.counted.1
    rw [h.count, hnil] at hcount
    cases hcount
  obtain ⟨nw', hadd⟩ : ∃ nw', nw.addObject .additive 216000 (floodBlob 16384) {} = some nw' := by
    simp only [State.addObject, floodBlob_timestamp, State.claimInventory, h.hashGet (by decide),
      Option.bind_eq_bind, Option.bind_some, floodBlob_rejected, Bool.not_false, Bool.and_true,
      if_true]
    apply State.rejectInventory_isSome
    have hframe := congrArg (·.rejectedInventories) (State.alloc_frame nw)
    exact fun hnil => hnonempty (hframe.symm.trans hnil)
  obtain ⟨peer, hpeer⟩ := h.peer
  have hs : step .additive nw (floodEvent 16384) = some nw' := by
    simp only [step, floodEvent, hpeer, Option.bind_some, hadd]
  rw [Runs.next_of_some hs]
  exact h.inv.addObject_full hadd (h.rejects (by decide)) hfull

/-- After 16385 objects the first one is free and still in the table. -/
theorem flooded_not_consistent :
    ¬ (Runs.run (step .additive) (State.new 0 [])
      ([.addListenAddress, .accept 0] ++ (List.range 16385).map floodEvent)).Consistent := by
  rw [Runs.run_append]
  show ¬ (flooded (16384 + 1)).Consistent
  rw [flooded_succ]
  exact (flooded_of_le (le_refl _)).evicts

end Flood

end Notbit.Network
