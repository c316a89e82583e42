import Notbit.Network.Objects
import Notbit.Network.Ties

/-!
# Announcements — which objects the peers are told of (`ntb-network.c`)

An object is announced by `broadcast_inv` when it is accepted, by its delayed broadcast, or in the
list that a peer gets when its handshake is complete.  `announces_step` says what each step sends, and
to whom.
-/

open Notbit.Proto Runs

namespace Notbit.Network

/-- The inv command an effect is: the peer and the hashes. -/
def Effect.inv : Effect → Option (Nat × List Hash)
  | .sendInv peer hashes => some (peer, hashes)
  | _ => none

namespace State

variable {nw nw' : State} {a : Nat}

/-- The inv commands so far. -/
def invs (nw : State) : List (Nat × List Hash) := nw.log.filterMap Effect.inv

/-- The broadcasts to come, and the inv commands that were sent. -/
def posted (nw : State) : List Hash × List (Nat × List Hash) := (nw.delayedBroadcasts, nw.invs)

/-! ## 1. What is sent by the functions -/

theorem invs_emit (effects : List Effect) :
    (nw.emit effects).invs = nw.invs ++ effects.filterMap Effect.inv := List.filterMap_append

theorem posted_emit {effects : List Effect} (h : ∀ e ∈ effects, e.inv = none) :
    (nw.emit effects).posted = nw.posted := by
  refine Prod.ext rfl ?_
  show (nw.emit effects).invs = nw.invs
  rw [invs_emit, List.filterMap_eq_nil_iff.mpr h, List.append_nil]

@[simp] theorem posted_setInventory (inv : Inventory) :
    (nw.setInventory a inv).posted = nw.posted := rfl

@[simp] theorem posted_hashSet : (nw.hashSet a).posted = nw.posted := rfl

@[simp] theorem posted_dropInventory : (nw.dropInventory a).posted = nw.posted := rfl

@[simp] theorem posted_listRemove : (nw.listRemove a).posted = nw.posted := rfl

@[simp] theorem posted_updatePeer (id : Nat) (f : Peer → Peer) :
    (nw.updatePeer id f).posted = nw.posted := rfl

@[simp] theorem posted_alloc : nw.alloc.2.posted = nw.posted := by
  rw [alloc_frame]
  rfl

theorem posted_foldl {α : Type} {f : State → α → State}
    (hf : ∀ nw a, (f nw a).posted = nw.posted) (l : List α) (nw : State) :
    (l.foldl f nw).posted = nw.posted := by
  induction l generalizing nw with
  | nil => rfl
  | cons a l ih => rw [List.foldl_cons, ih, hf]

theorem posted_addAddr (now timestamp : Int) (stream services : Nat) (address : Netaddress) :
    (nw.addAddr now timestamp stream services address).1.posted = nw.posted := by
  refine @posted_emit { nw with book := _ } _ fun e he => ?_
  obtain ⟨peer, -, he⟩ := List.mem_flatMap.mp he
  obtain ⟨address, -, rfl⟩ := List.mem_map.mp he
  rfl

theorem posted_claimAddr (peer : Peer) (addr : Option Nat) :
    (nw.claimAddr peer addr).posted = nw.posted := by
  unfold claimAddr
  split <;> rfl

theorem posted_removePeer (peer : Peer) : (nw.removePeer peer).posted = nw.posted :=
  posted_foldl (fun _ _ => posted_dropInventory) peer.requestedInventories nw

theorem posted_connectQueueCb {now rand : Nat} {ok : Bool}
    (hs : nw.connectQueueCb now rand ok = some nw') : nw'.posted = nw.posted := by
  simp only [connectQueueCb] at hs
  split at hs
  · cases hs
    rfl
  · split at hs
    · cases hs
      rfl
    · obtain ⟨addr, -, hs⟩ := Option.bind_eq_some_iff.mp hs
      split at hs
      · cases hs
        exact posted_emit (by simp [Effect.inv])
      · cases hs
        rfl

theorem posted_handleInv (peer now : Nat) (hashes : List Hash) :
    (nw.handleInv peer now hashes).posted = nw.posted := by
  have hloop : ∀ s : State × List Hash,
      (hashes.foldl (handleInvHash peer now) s).1.posted = s.1.posted := by
    induction hashes with
    | nil => exact fun _ => rfl
    | cons hash hashes ih =>
      intro s
      rw [List.foldl_cons, ih]
      unfold handleInvHash
      split
      · simp [requestInventory]
      · rfl
  rw [← hloop (nw, [])]
  exact posted_emit (by simp [Effect.inv])

theorem posted_claimInventory {hash : Hash} (h : nw.claimInventory hash = some (some (a, nw'))) :
    nw'.posted = nw.posted := by
  unfold claimInventory at h
  split at h
  · cases h
    rw [posted_hashSet, posted_setInventory]
    exact posted_alloc
  · split_ifs at h
    · cases h
      rfl
    · cases h

theorem posted_rejectInventory (h : nw.rejectInventory a = some nw') :
    nw'.posted = nw.posted := by
  simp only [rejectInventory, evictRejected] at h
  split at h
  · obtain ⟨nw₁, hevict, h⟩ := Option.bind_eq_some_iff.mp h
    obtain ⟨old, -, heq⟩ := Option.bind_eq_some_iff.mp hevict
    cases heq
    cases h
    rfl
  · cases h
    rfl

theorem posted_storeForEachBlobCb (type : InvType) (hash : Hash) (timestamp : Int) :
    (nw.storeForEachBlobCb type hash timestamp).posted = nw.posted := by
  unfold storeForEachBlobCb
  split
  · rfl
  · have hloaded : ∀ nw : State, (nw.emit [.loadedBlob hash]).posted = nw.posted :=
      fun nw => posted_emit (by simp [Effect.inv])
    have hheld : ∀ inv : Inventory,
        ((nw.alloc.2.setInventory nw.alloc.1 inv).hashSet nw.alloc.1).posted = nw.posted := by
      intro inv
      rw [posted_hashSet, posted_setInventory]
      exact posted_alloc
    exact (hloaded _).trans (hheld _)

theorem posted_gcTimeoutCb (now : Int) (monotonic : Nat) :
    (nw.gcTimeoutCb now monotonic).posted = nw.posted := by
  have hstub : ∀ (nw : State) (a : Nat),
      (nw.gcRequestedInventory monotonic a).posted = nw.posted := by
    intro nw a
    unfold gcRequestedInventory
    split_ifs <;> rfl
  have hinventory : ∀ (nw : State) (a : Nat), (nw.gcInventory now a).posted = nw.posted := by
    intro nw a
    unfold gcInventory
    dsimp only
    split_ifs
    · rfl
    · exact @posted_emit nw _ (by simp [Effect.inv])
    · rfl
    · rfl
  exact (posted_foldl hinventory _ _).trans
    ((posted_foldl hinventory _ _).trans (posted_foldl hstub _ _))

theorem invs_broadcastInv (hash : Hash) :
    (nw.broadcastInv hash).invs = nw.invs ++ nw.connectedPeers.map fun peer => (peer, [hash]) := by
  rw [broadcastInv, invs_emit, List.filterMap_map]
  exact congrArg _ (congrFun (@List.filterMap_eq_map _ _ fun peer => (peer, [hash])) _)

/-- An object that is accepted is announced to all connected peers, or its broadcast is delayed. -/
theorem posted_acceptInventory (blob : Blob) (age : Int) (delay : Bool) :
    (nw.acceptInventory a blob age delay).posted =
      if delay then ((nw.heap a).hash :: nw.delayedBroadcasts, nw.invs)
      else (nw.delayedBroadcasts,
        nw.invs ++ nw.connectedPeers.map fun peer => (peer, [(nw.heap a).hash])) := by
  let hash := (nw.heap a).hash
  -- the object in its list, before anything is announced
  let nw₁ : State := { (nw.setInventory a { nw.heap a with
      blob := some (some blob), type := some blob.type, state := .accepted }).emit
        [.saveBlob hash blob] with acceptedInventories := a :: nw.acceptedInventories }
  have hsaved : nw₁.invs = nw.invs := by
    refine (@invs_emit nw _).trans (List.append_nil _)
  have hcached : ∀ nw₂ : State, (if age ≥ invCacheAge then
      nw₂.setInventory a { nw₂.heap a with blob := some none } else nw₂).posted = nw₂.posted := by
    intro nw₂
    split_ifs <;> rfl
  have hnew : ∀ nw₂ : State, (nw₂.emit [.newObject blob]).posted = nw₂.posted :=
    fun nw₂ => posted_emit (by simp [Effect.inv])
  unfold acceptInventory
  dsimp only
  rw [hcached, hnew]
  cases delay with
  | true => exact Prod.ext rfl hsaved
  | false =>
    refine Prod.ext rfl ?_
    show (nw₁.broadcastInv hash).invs = _
    rw [invs_broadcastInv, hsaved]
    rfl

theorem posted_handshake (id : Nat) (now : Int) :
    (nw.connectionEstablished id now).posted =
      (nw.delayedBroadcasts, nw.invs ++ [(id, nw.unexpired now)]) :=
  Prod.ext rfl (invs_emit _)

/-! ## 2. Whom it is sent to -/

theorem connectedPeers_of_ties (hpeers : nw'.ties.peers = nw.ties.peers) :
    nw'.connectedPeers = nw.connectedPeers := by
  have hbare : ∀ nw : State, nw.connectedPeers =
      (nw.ties.peers.filter (·.state = .connected)).map (·.id) := by
    intro nw
    rw [connectedPeers, ties, List.filter_map, List.map_map]
    rfl
  rw [hbare, hbare nw, hpeers]

theorem mem_connectedPeers {p : Nat} :
    p ∈ nw.connectedPeers ↔ ∃ peer ∈ nw.peers, peer.state = .connected ∧ peer.id = p := by
  simp [connectedPeers, and_assoc]

theorem connectedPeers_removePeer (peer : Peer) :
    (nw.removePeer peer).connectedPeers ⊆ nw.connectedPeers := by
  intro p hp
  obtain ⟨q, hq, hconnected, hid⟩ := mem_connectedPeers.mp hp
  obtain ⟨-, hpeers, -, -⟩ := foldl_dropInventory_frame peer.requestedInventories nw.peers nw
  have hmem := (List.mem_filter.mp hq).1
  rw [hpeers] at hmem
  exact mem_connectedPeers.mpr ⟨q, hmem, hconnected, hid⟩

theorem connectedPeers_updatePeer {id : Nat} {f : Peer → Peer}
    (hid : ∀ peer, (f peer).id = peer.id)
    (hf : ∀ peer, (f peer).state = .connected → peer.state = .connected) :
    (nw.updatePeer id f).connectedPeers ⊆ nw.connectedPeers := by
  intro p hp
  obtain ⟨q, hq, hconnected, hqid⟩ := mem_connectedPeers.mp hp
  obtain ⟨peer, hpeer, rfl⟩ := List.mem_map.mp hq
  apply mem_connectedPeers.mpr
  split at hconnected
  next h =>
    rw [if_pos h, hid] at hqid
    exact ⟨peer, hpeer, hf peer hconnected, hqid⟩
  next h =>
    rw [if_neg h] at hqid
    exact ⟨peer, hpeer, hconnected, hqid⟩

theorem connectedPeers_claimAddr (peer : Peer) (addr : Option Nat) :
    (nw.claimAddr peer addr).connectedPeers ⊆ nw.connectedPeers := by
  unfold claimAddr
  split
  next a _ =>
    exact @connectedPeers_updatePeer nw peer.id (fun peer => { peer with addr := some a.id })
      (fun _ => rfl) fun _ h => h
  next => exact List.Subset.refl _

theorem connectedPeers_addPeer {state : PeerState} (hstate : state ≠ .connected)
    (direction : Direction) (addr : Option Nat) :
    (nw.addPeer state direction addr).connectedPeers ⊆ nw.connectedPeers := by
  intro p hp
  obtain ⟨q, hq, hconnected, hid⟩ := mem_connectedPeers.mp hp
  rcases List.mem_cons.mp hq with rfl | hq
  · exact absurd hconnected hstate
  · exact mem_connectedPeers.mpr ⟨q, hq, hconnected, hid⟩

theorem connectedPeers_handshake (id : Nat) (now : Int) :
    (nw.connectionEstablished id now).connectedPeers ⊆ id :: nw.connectedPeers := by
  intro p hp
  obtain ⟨q, hq, hconnected, hqid⟩ := mem_connectedPeers.mp hp
  obtain ⟨peer, hpeer, rfl⟩ := List.mem_map.mp hq
  split at hqid
  next h => exact List.mem_cons.mpr (.inl (hqid.symm.trans h))
  next h =>
    rw [if_neg h] at hconnected
    exact List.mem_cons_of_mem _ (mem_connectedPeers.mpr ⟨peer, hpeer, hconnected, hqid⟩)

theorem connectedPeers_connectQueueCb {now rand : Nat} {ok : Bool}
    (hs : nw.connectQueueCb now rand ok = some nw') :
    nw'.connectedPeers ⊆ nw.connectedPeers := by
  simp only [connectQueueCb] at hs
  split at hs
  · cases hs
    exact List.Subset.refl _
  · split at hs
    · cases hs
      exact List.Subset.refl _
    · obtain ⟨addr, -, hs⟩ := Option.bind_eq_some_iff.mp hs
      split at hs
      · cases hs
        exact @connectedPeers_addPeer { nw with book := _ } .awaitingVerackOut (by decide)
          .outgoing (some addr.id)
      · cases hs
        exact List.Subset.refl _

/-- The peer whose handshake an event completes, with the time at which it does. -/
def completes (nw : State) : Event → Option (Nat × Int)
  | .version id now nonce version _ _ _ _ => (nw.findPeer id).bind fun peer =>
    if nonce ≠ nw.nonce ∧ version = protoVersion ∧ peer.state = .awaitingVersionOut then
      some (id, now)
    else none
  | .verack id now => (nw.findPeer id).bind fun peer =>
    if peer.state = .awaitingVerackIn then some (id, now) else none
  | _ => none

end State

/-! ## 3. Steps -/

open State in
/-- What a step announces. -/
inductive Announces (ssl : OpenSSL) (nw nw' : State) (e : Event) : Prop
  | quiet (hcompletes : nw.completes e = none)
    (hadded : ∀ now blob flags, e.addedObject = some (now, blob, flags) →
      ¬ Accepts ssl nw now blob flags) (hfired : ∀ i, e ≠ .delayedBroadcast i)
    (hconnected : nw'.connectedPeers ⊆ nw.connectedPeers) (hposted : nw'.posted = nw.posted)
  | accepted (now : Int) (blob : Blob) (flags : AddObjectFlags)
    (hadded : e.addedObject = some (now, blob, flags)) (haccepts : Accepts ssl nw now blob flags)
    (hconnected : nw'.connectedPeers ⊆ nw.connectedPeers)
    (hposted : nw'.posted =
      if flags.delay then (doubleHash ssl blob.data :: nw.delayedBroadcasts, nw.invs)
      else (nw.delayedBroadcasts,
        nw.invs ++ nw.connectedPeers.map fun peer => (peer, [doubleHash ssl blob.data])))
  | fired (i : Nat) (hash : Hash) (he : e = .delayedBroadcast i)
    (hi : nw.delayedBroadcasts[i]? = some hash)
    (hconnected : nw'.connectedPeers ⊆ nw.connectedPeers)
    (hposted : nw'.posted = (nw.delayedBroadcasts.eraseIdx i,
      nw.invs ++ nw.connectedPeers.map fun peer => (peer, [hash])))
  | established (p : Nat) (now : Int) (hcompletes : nw.completes e = some (p, now))
    (hconnected : nw'.connectedPeers ⊆ p :: nw.connectedPeers)
    (hposted : nw'.posted = (nw.delayedBroadcasts, nw.invs ++ [(p, nw.unexpired now)]))

section Step

variable {ssl : OpenSSL} {nw nw' : State} {e : Event}

open State

theorem Announces.of_quiet (hcompletes : nw.completes e = none) (hadded : e.addedObject = none)
    (hfired : ∀ i, e ≠ .delayedBroadcast i) (hconnected : nw'.connectedPeers ⊆ nw.connectedPeers)
    (hposted : nw'.posted = nw.posted) : Announces ssl nw nw' e := by
  refine .quiet hcompletes (fun now blob flags hsome => ?_) hfired hconnected hposted
  rw [hadded] at hsome
  cases hsome

theorem connectedPeers_subset (hpeers : nw'.ties.peers = nw.ties.peers) :
    nw'.connectedPeers ⊆ nw.connectedPeers := by
  rw [connectedPeers_of_ties hpeers]
  exact List.Subset.refl _

theorem announces_addObject {now : Int} {blob : Blob} {flags : AddObjectFlags} (h : nw.Tracked [])
    (hadded : e.addedObject = some (now, blob, flags)) (hcompletes : nw.completes e = none)
    (hfired : ∀ i, e ≠ .delayedBroadcast i) (hties : nw'.ties = nw.ties)
    (hs : nw.addObject ssl now blob flags = some nw') : Announces ssl nw nw' e := by
  have hconnected := connectedPeers_subset (congrArg Ties.peers hties)
  have hclaimed : ∀ {timestamp a nw₁}, Claims ssl nw blob timestamp a nw₁ →
      nw₁.posted = nw.posted := by
    rintro timestamp a nw₁ ⟨nw₀, hclaim, rfl⟩
    rw [posted_setInventory]
    exact posted_claimInventory hclaim
  rcases addObject_accepts hs with ⟨hno, hcase⟩ |
    ⟨hyes, timestamp, a, nw₁, -, hclaims, rfl⟩
  · have hposted : nw'.posted = nw.posted := by
      rcases hcase with rfl | ⟨timestamp, a, nw₁, hclaims, hreject⟩
      · rfl
      · exact (posted_rejectInventory hreject).trans (hclaimed hclaims)
    refine .quiet hcompletes (fun now' blob' flags' hadded' => ?_) hfired hconnected hposted
    rw [hadded] at hadded'
    cases hadded'
    exact hno
  · refine .accepted now blob flags hadded hyes hconnected ?_
    obtain ⟨-, -, hhash, -⟩ := h.claims hclaims
    obtain ⟨hdelayed, hinvs⟩ := Prod.mk.inj (hclaimed hclaims)
    have hpeers : nw₁.connectedPeers = nw.connectedPeers := by
      apply connectedPeers_of_ties
      rw [← hties, ties_acceptInventory]
    rw [posted_acceptInventory, hhash, hdelayed, hinvs, hpeers]

theorem unexpired_congr (hinventories : nw'.toInventories = nw.toInventories) (now : Int) :
    nw'.unexpired now = nw.unexpired now := by
  rw [unexpired, unexpired, hinventories]

-- The handshake is complete, after effects that announce nothing.
theorem announces_established {id : Nat} {now : Int} {nw₁ : State}
    (hcompletes : nw.completes e = some (id, now))
    (hinventories : nw₁.toInventories = nw.toInventories) (hposted : nw₁.posted = nw.posted)
    (hconnected : nw₁.connectedPeers ⊆ nw.connectedPeers) :
    Announces ssl nw (nw₁.connectionEstablished id now) e := by
  obtain ⟨hdelayed, hinvs⟩ := Prod.mk.inj hposted
  refine .established id now hcompletes ?_ ?_
  · exact List.Subset.trans (connectedPeers_handshake id now) (List.cons_subset_cons id hconnected)
  · rw [posted_handshake, hdelayed, hinvs, unexpired_congr hinventories]

theorem announces_handleVersion {id : Nat} {peer : Peer} (hfind : nw.findPeer id = some peer)
    (now : Int) (nonce version : Nat) (timestamp : Int) (stream services : Nat)
    (address : Netaddress) :
    Announces ssl nw (nw.handleVersion peer now nonce version timestamp stream services address)
      (.version id now nonce version timestamp stream services address) := by
  have hcompletes : nw.completes (.version id now nonce version timestamp stream services address) =
      if nonce ≠ nw.nonce ∧ version = protoVersion ∧ peer.state = .awaitingVersionOut then
        some (id, now)
      else none := by
    rw [completes, hfind, Option.bind_some]
  by_cases hbad : nonce = nw.nonce ∨ version ≠ protoVersion
  · rw [handleVersion_of_not_ok hbad]
    rw [if_neg (by grind)] at hcompletes
    exact .of_quiet hcompletes rfl (by simp) (connectedPeers_removePeer peer)
      (posted_removePeer peer)
  · rw [not_or, not_not] at hbad
    rw [handleVersion_of_ok hbad.1 hbad.2]
    -- the addresses are updated and the version is acknowledged
    have hframed := @Framed.emit _ _ ((framed_addAddr nw now timestamp stream services
      address).claimAddr peer (nw.addAddr now timestamp stream services address).2)
        [.sendVerack peer.id] (by simp [Effect.fileTask])
    have hposted : (((nw.addAddr now timestamp stream services address).1.claimAddr peer
        (nw.addAddr now timestamp stream services address).2).emit [.sendVerack peer.id]).posted =
          nw.posted := by
      rw [posted_emit (by simp [Effect.inv]), posted_claimAddr, posted_addAddr]
    have hconnected : (((nw.addAddr now timestamp stream services address).1.claimAddr peer
        (nw.addAddr now timestamp stream services address).2).emit
          [.sendVerack peer.id]).connectedPeers ⊆ nw.connectedPeers :=
      @connectedPeers_claimAddr (nw.addAddr now timestamp stream services address).1 peer _
    unfold answerVersion
    dsimp only
    generalize ((nw.addAddr now timestamp stream services address).1.claimAddr peer
      (nw.addAddr now timestamp stream services address).2).emit [.sendVerack peer.id] = nw₁
      at hframed hposted hconnected
    obtain ⟨-, rfl⟩ := findPeer_mem hfind
    cases hstate : peer.state with
    | awaitingVersionOut =>
      rw [if_pos ⟨hbad.1, hbad.2, hstate⟩] at hcompletes
      exact announces_established hcompletes hframed.inventories hposted hconnected
    | awaitingVersionIn =>
      rw [if_neg (by simp [hstate])] at hcompletes
      refine .of_quiet hcompletes rfl (by simp) ?_ ?_
      · refine List.Subset.trans ?_ hconnected
        exact @connectedPeers_updatePeer nw₁ peer.id
          (fun peer => { peer with state := .awaitingVerackIn }) (fun _ => rfl) (by simp)
      · rw [posted_emit (by simp [Effect.inv]), posted_updatePeer, hposted]
    | awaitingVerackOut =>
      rw [if_neg (by simp [hstate])] at hcompletes
      exact .of_quiet hcompletes rfl (by simp) hconnected hposted
    | awaitingVerackIn =>
      rw [if_neg (by simp [hstate])] at hcompletes
      exact .of_quiet hcompletes rfl (by simp) hconnected hposted
    | connected =>
      rw [if_neg (by simp [hstate])] at hcompletes
      exact .of_quiet hcompletes rfl (by simp) hconnected hposted

theorem announces_handleVerack {id : Nat} {peer : Peer} (hfind : nw.findPeer id = some peer)
    (now : Int) : Announces ssl nw (nw.handleVerack peer now) (.verack id now) := by
  have hcompletes : nw.completes (.verack id now) =
      if peer.state = .awaitingVerackIn then some (id, now) else none := by
    rw [completes, hfind, Option.bind_some]
  obtain ⟨-, rfl⟩ := findPeer_mem hfind
  unfold handleVerack
  cases hstate : peer.state with
  | awaitingVerackIn =>
    rw [if_pos hstate] at hcompletes
    exact announces_established hcompletes rfl rfl (List.Subset.refl _)
  | awaitingVerackOut =>
    rw [if_neg (by simp [hstate])] at hcompletes
    refine .of_quiet hcompletes rfl (by simp) ?_ rfl
    exact @connectedPeers_updatePeer nw peer.id
      (fun peer => { peer with state := .awaitingVersionOut }) (fun _ => rfl) (by simp)
  | awaitingVersionOut =>
    rw [if_neg (by simp [hstate])] at hcompletes
    exact .of_quiet hcompletes rfl (by simp) (List.Subset.refl _) rfl
  | awaitingVersionIn =>
    rw [if_neg (by simp [hstate])] at hcompletes
    exact .of_quiet hcompletes rfl (by simp) (List.Subset.refl _) rfl
  | connected =>
    rw [if_neg (by simp [hstate])] at hcompletes
    exact .of_quiet hcompletes rfl (by simp) (List.Subset.refl _) rfl

theorem announces_step (h : nw.Tracked []) (hs : step ssl nw e = some nw') :
    Announces ssl nw nw' e := by
  cases e with
  | connectQueue monotonic rand ok =>
    rw [step] at hs
    split at hs
    · exact .of_quiet rfl rfl (by simp) (connectedPeers_connectQueueCb hs) (posted_connectQueueCb hs)
    · cases hs
  | accept socket =>
    rw [step] at hs
    split at hs
    · cases hs
      exact .of_quiet rfl rfl (by simp)
        (@connectedPeers_addPeer nw .awaitingVersionIn (by decide) .incoming none) rfl
    · cases hs
  | error peer =>
    obtain ⟨peer, hfind, rfl⟩ := Option.map_eq_some_iff.mp hs
    exact .of_quiet rfl rfl (by simp) (connectedPeers_removePeer peer) (posted_removePeer peer)
  | version peer now nonce version timestamp stream services address =>
    obtain ⟨peer, hfind, rfl⟩ := Option.map_eq_some_iff.mp hs
    exact announces_handleVersion hfind now nonce version timestamp stream services address
  | verack peer now =>
    obtain ⟨peer, hfind, rfl⟩ := Option.map_eq_some_iff.mp hs
    exact announces_handleVerack hfind now
  | inv peer monotonic hashes =>
    have hties := ties_step rfl hs
    obtain ⟨peer, -, rfl⟩ := Option.map_eq_some_iff.mp hs
    exact .of_quiet rfl rfl (by simp) (connectedPeers_subset (congrArg Ties.peers hties))
      (posted_handleInv peer.id monotonic hashes)
  | addr peer now timestamp stream services address =>
    obtain ⟨peer, -, rfl⟩ := Option.map_eq_some_iff.mp hs
    split
    · exact .of_quiet rfl rfl (by simp) (List.Subset.refl _) (posted_addAddr _ _ _ _ _)
    · exact .of_quiet rfl rfl (by simp) (List.Subset.refl _) rfl
  | getdata peer hashes =>
    obtain ⟨peer, -, rfl⟩ := Option.map_eq_some_iff.mp hs
    refine .of_quiet rfl rfl (by simp) (List.Subset.refl _) (posted_emit fun e he => ?_)
    obtain ⟨inv, -, rfl⟩ := List.mem_map.mp he
    rfl
  | object peer now blob =>
    have hties := ties_step rfl hs
    obtain ⟨peer, -, hs⟩ := Option.bind_eq_some_iff.mp hs
    exact announces_addObject h rfl rfl (by simp) hties hs
  | addBlob now blob flags => exact announces_addObject h rfl rfl (by simp) (ties_step rfl hs) hs
  | addObjectFromData now blob flags =>
    exact announces_addObject h rfl rfl (by simp) (ties_step rfl hs) hs
  | delayedBroadcast i =>
    obtain ⟨hash, hi, rfl⟩ := Option.map_eq_some_iff.mp hs
    refine .fired i hash rfl hi (List.Subset.refl _) (Prod.ext rfl ?_)
    show (nw.broadcastInv hash).invs = _
    rw [invs_broadcastInv]
  | gc now monotonic =>
    cases hs
    have hpeers : (nw.gcTimeoutCb now monotonic).ties.peers = nw.ties.peers := by
      rw [ties_gcTimeoutCb]
    exact .of_quiet rfl rfl (by simp) (connectedPeers_subset hpeers)
      (posted_gcTimeoutCb now monotonic)
  | loadBlob type hash timestamp =>
    have hties := ties_step rfl hs
    cases hs
    exact .of_quiet rfl rfl (by simp) (connectedPeers_subset (congrArg Ties.peers hties))
      (posted_storeForEachBlobCb type hash timestamp)
  | loadAddr now timestamp stream services address =>
    cases hs
    exact .of_quiet rfl rfl (by simp) (List.Subset.refl _) (posted_addAddr _ _ _ _ _)
  | dnsAddress address =>
    rw [step] at hs
    split at hs
    · cases hs
      exact .of_quiet rfl rfl (by simp) (List.Subset.refl _) rfl
    · cases hs
      exact .of_quiet rfl rfl (by simp) (List.Subset.refl _) rfl
  | addPeerAddress address =>
    cases hs
    exact .of_quiet rfl rfl (by simp) (List.Subset.refl _) rfl
  | addListenAddress =>
    cases hs
    exact .of_quiet rfl rfl (by simp) (List.Subset.refl _) rfl
  | listenError socket =>
    cases hs
    exact .of_quiet rfl rfl (by simp) (List.Subset.refl _) rfl
  | storeLoaded =>
    cases hs
    exact .of_quiet rfl rfl (by simp) (List.Subset.refl _) rfl
  | useOnlyExplicitAddresses value =>
    cases hs
    exact .of_quiet rfl rfl (by simp) (List.Subset.refl _) rfl
  | saveAddrList =>
    cases hs
    exact .of_quiet rfl rfl (by simp) (List.Subset.refl _) rfl

end Step

end Notbit.Network
