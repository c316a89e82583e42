import Notbit.Network.Consistent

/-!
# Ties — the part of the network that inventories have nothing to do with (`ntb-network.c`)

The peers without the inventories they were asked for, the address book, and the commands of the
handshake that were sent.  Requests, objects and the collection of old inventories leave this part
as it is, so that what is said about connections need not mention them.
-/

open Notbit.Proto

namespace Notbit.Network

/-- A command of the handshake. -/
def Effect.isGreeting : Effect → Bool
  | .sendVersion _ | .sendVerack _ => true
  | _ => false

/-- The events that are about inventories only. -/
def Event.isInventory : Event → Bool
  | .inv .. | .getdata .. | .object .. | .addBlob .. | .addObjectFromData .. | .delayedBroadcast ..
  | .loadBlob .. => true
  | _ => false

def Peer.bare (peer : Peer) : Peer := { peer with requestedInventories := [] }

structure Ties where
  peers : List Peer
  nextPeer : Nat
  nonce : Nat
  book : AddrBook
  greetings : List Effect

namespace State

variable {nw nw' : State} {a : Nat}

def ties (nw : State) : Ties where
  peers := nw.peers.map Peer.bare
  nextPeer := nw.nextPeer
  nonce := nw.nonce
  book := nw.book
  greetings := nw.log.filter Effect.isGreeting

/-! ## 1. Inventories -/

theorem ties_emit {effects : List Effect} (h : ∀ e ∈ effects, e.isGreeting = false) :
    (nw.emit effects).ties = nw.ties := by
  have hnone : effects.filter Effect.isGreeting = [] := by
    rw [List.filter_eq_nil_iff]
    intro e he
    rw [h e he]
    exact Bool.false_ne_true
  simp only [ties, emit, List.filter_append, hnone, List.append_nil]

@[simp] theorem ties_setInventory (inv : Inventory) : (nw.setInventory a inv).ties = nw.ties := rfl

@[simp] theorem ties_hashSet : (nw.hashSet a).ties = nw.ties := rfl

@[simp] theorem ties_hashRemove (p : Ptr) : (nw.hashRemove p).ties = nw.ties := rfl

@[simp] theorem ties_freeInventory : (nw.freeInventory a).ties = nw.ties := rfl

@[simp] theorem ties_dropInventory : (nw.dropInventory a).ties = nw.ties := rfl

@[simp] theorem ties_alloc : nw.alloc.2.ties = nw.ties := by
  rw [alloc_frame]
  rfl

@[simp] theorem ties_listRemove : (nw.listRemove a).ties = nw.ties := by
  have hpeers : (nw.listRemove a).peers.map Peer.bare = nw.peers.map Peer.bare := by
    simp only [listRemove, List.map_map]
    exact List.map_congr_left fun _ _ => rfl
  simp only [ties, hpeers]
  rfl

theorem ties_foldl {f : State → Nat → State} (hf : ∀ nw a, (f nw a).ties = nw.ties) (l : List Nat)
    (nw : State) : (l.foldl f nw).ties = nw.ties := by
  induction l generalizing nw with
  | nil => rfl
  | cons a l ih => rw [List.foldl_cons, ih, hf]

theorem ties_foldl_dropInventory (l : List Nat) (nw : State) :
    (l.foldl dropInventory nw).ties = nw.ties :=
  ties_foldl (fun _ _ => ties_dropInventory) l nw

-- A change of a peer's inventories.
theorem ties_updatePeer {f : Peer → Peer} (hf : ∀ peer, (f peer).bare = peer.bare) (id : Nat) :
    (nw.updatePeer id f).ties = nw.ties := by
  have hpeers : (nw.updatePeer id f).peers.map Peer.bare = nw.peers.map Peer.bare := by
    simp only [updatePeer, List.map_map]
    apply List.map_congr_left
    intro peer _
    simp only [Function.comp]
    split
    · exact hf peer
    · rfl
  simp only [ties, hpeers]
  rfl

/-! ## 2. Events -/

@[simp] theorem ties_requestInventory (peer now : Nat) (hash : Hash) :
    (nw.requestInventory peer now hash).ties = nw.ties := by
  have hbare : ∀ p : Peer, Peer.bare
      { p with requestedInventories := nw.alloc.1 :: p.requestedInventories } = p.bare :=
    fun _ => rfl
  unfold requestInventory
  dsimp only
  rw [ties_hashSet, ties_updatePeer hbare, ties_setInventory, ties_alloc]

@[simp] theorem ties_handleInv (peer now : Nat) (hashes : List Hash) :
    (nw.handleInv peer now hashes).ties = nw.ties := by
  have hloop : ∀ s : State × List Hash, (hashes.foldl (handleInvHash peer now) s).1.ties =
      s.1.ties := by
    induction hashes with
    | nil => exact fun _ => rfl
    | cons hash hashes ih =>
      intro s
      rw [List.foldl_cons, ih]
      unfold handleInvHash
      split
      · exact ties_requestInventory peer now hash
      · rfl
  have hs := hloop (nw, [])
  unfold handleInv
  cases hfold : hashes.foldl (handleInvHash peer now) (nw, []) with
  | mk nw₁ requests =>
    rw [hfold] at hs
    dsimp only
    rw [ties_emit (by simp [Effect.isGreeting])]
    exact hs

@[simp] theorem ties_handleGetdata (peer : Nat) (hashes : List Hash) :
    (nw.handleGetdata peer hashes).ties = nw.ties := by
  apply ties_emit
  intro e he
  obtain ⟨inv, -, rfl⟩ := List.mem_map.mp he
  rfl

@[simp] theorem ties_broadcastInv (hash : Hash) : (nw.broadcastInv hash).ties = nw.ties := by
  apply ties_emit
  intro e he
  obtain ⟨peer, -, rfl⟩ := List.mem_map.mp he
  rfl

theorem ties_rejectInventory (h : nw.rejectInventory a = some nw') : nw'.ties = nw.ties := by
  simp only [rejectInventory, evictRejected] at h
  split at h
  · obtain ⟨nw₁, hevict, h⟩ := Option.bind_eq_some_iff.mp h
    obtain ⟨old, -, heq⟩ := Option.bind_eq_some_iff.mp hevict
    cases heq
    cases h
    show ((nw.setInventory a { nw.heap a with state := .rejected }).listRemove old).ties = nw.ties
    rw [ties_listRemove, ties_setInventory]
  · cases h
    rfl

theorem ties_claimInventory {hash : Hash} (h : nw.claimInventory hash = some (some (a, nw'))) :
    nw'.ties = nw.ties := by
  unfold claimInventory at h
  split at h
  · cases h
    rw [ties_hashSet, ties_setInventory]
    exact ties_alloc
  · split_ifs at h
    · cases h
      exact ties_listRemove
    · cases h

theorem ties_acceptInventory (blob : Blob) (age : Int) (delay : Bool) :
    (nw.acceptInventory a blob age delay).ties = nw.ties := by
  have hnone : ∀ (peers : List Nat) (hash : Hash),
      (peers.map fun peer => Effect.sendInv peer [hash]).filter Effect.isGreeting = [] := by
    intro peers hash
    rw [List.filter_eq_nil_iff]
    intro e he
    obtain ⟨peer, -, rfl⟩ := List.mem_map.mp he
    exact Bool.false_ne_true
  unfold acceptInventory
  dsimp only
  split_ifs
  all_goals
    simp [ties, setInventory, emit, broadcastInv, hnone, Effect.isGreeting]

theorem ties_addObject {ssl : OpenSSL} {now : Int} {blob : Blob} {flags : AddObjectFlags}
    (h : nw.addObject ssl now blob flags = some nw') : nw'.ties = nw.ties := by
  rcases addObject_cases h with ⟨rfl, -⟩ | ⟨timestamp, a, nw₁, ⟨nw₀, hclaim, rfl⟩, -, hreject⟩ |
    ⟨timestamp, a, nw₁, ⟨nw₀, hclaim, rfl⟩, -, rfl⟩
  · rfl
  · rw [ties_rejectInventory hreject, ties_setInventory]
    exact ties_claimInventory hclaim
  · rw [ties_acceptInventory, ties_setInventory]
    exact ties_claimInventory hclaim

theorem ties_storeForEachBlobCb (type : InvType) (hash : Hash) (timestamp : Int) :
    (nw.storeForEachBlobCb type hash timestamp).ties = nw.ties := by
  unfold storeForEachBlobCb
  split
  · rfl
  · have hemit : ∀ nw : State, (nw.emit [.loadedBlob hash]).ties = nw.ties :=
      fun _ => ties_emit (by simp [Effect.isGreeting])
    have hlink : ∀ (nw : State) (l : List Nat),
        { nw with acceptedInventories := l }.ties = nw.ties := fun _ _ => rfl
    dsimp only
    rw [hlink, hemit, ties_hashSet, ties_setInventory, ties_alloc]

theorem ties_gcRequestedInventory (now : Nat) (nw : State) (a : Nat) :
    (nw.gcRequestedInventory now a).ties = nw.ties := by
  unfold gcRequestedInventory
  split
  · rw [ties_dropInventory, ties_listRemove]
  · rfl

theorem ties_gcInventory (now : Int) (nw : State) (a : Nat) :
    (nw.gcInventory now a).ties = nw.ties := by
  have hcount : ∀ (nw : State) (n : Int), { nw with nRejectedInventories := n }.ties = nw.ties :=
    fun _ _ => rfl
  have hdelete : ∀ (nw : State) (hash : Hash), (nw.emit [.deleteObject hash]).ties = nw.ties :=
    fun _ _ => ties_emit (by simp [Effect.isGreeting])
  unfold gcInventory
  dsimp only
  split_ifs
  · rw [ties_dropInventory, ties_listRemove, hcount]
  · rw [ties_dropInventory, ties_listRemove, hdelete]
  · exact ties_setInventory _
  · rfl

-- The collection of old inventories and old addresses is only that of the addresses.
theorem ties_gcTimeoutCb (nw : State) (now : Int) (monotonic : Nat) :
    (nw.gcTimeoutCb now monotonic).ties = { nw.ties with book := nw.book.gcAddrs now } := by
  have hbook : ∀ (nw : State) (book : AddrBook), { nw with book }.ties = { nw.ties with book } :=
    fun _ _ => rfl
  have hbook_foldl : ∀ (l : List Nat) (nw : State),
      (l.foldl (gcInventory now) nw).book = nw.book := fun l nw =>
    congrArg Ties.book (ties_foldl (ties_gcInventory now) l nw)
  have hrequested := ties_foldl (ties_gcRequestedInventory monotonic) nw.requested nw
  unfold gcTimeoutCb
  dsimp only
  rw [hbook, hbook_foldl, hbook_foldl, ties_foldl (ties_gcInventory now),
    ties_foldl (ties_gcInventory now), hrequested]
  have hsame : (nw.requested.foldl (gcRequestedInventory monotonic) nw).book = nw.book :=
    congrArg Ties.book hrequested
  rw [hsame]

theorem ties_step {ssl : OpenSSL} {e : Event} (he : e.isInventory = true)
    (hs : step ssl nw e = some nw') : nw'.ties = nw.ties := by
  cases e with
  | inv peer monotonic hashes =>
    obtain ⟨peer, -, rfl⟩ := Option.map_eq_some_iff.mp hs
    exact ties_handleInv _ _ _
  | getdata peer hashes =>
    obtain ⟨peer, -, rfl⟩ := Option.map_eq_some_iff.mp hs
    exact ties_handleGetdata _ _
  | object peer now blob =>
    obtain ⟨peer, -, hadd⟩ := Option.bind_eq_some_iff.mp hs
    exact ties_addObject hadd
  | addBlob now blob flags => exact ties_addObject hs
  | addObjectFromData now blob flags => exact ties_addObject hs
  | delayedBroadcast i =>
    obtain ⟨hash, -, rfl⟩ := Option.map_eq_some_iff.mp hs
    have hties : (nw.broadcastInv hash).ties = nw.ties := ties_broadcastInv hash
    rw [← hties]
    rfl
  | loadBlob type hash timestamp =>
    cases hs
    exact ties_storeForEachBlobCb type hash timestamp
  | _ => cases he

end State

end Notbit.Network
