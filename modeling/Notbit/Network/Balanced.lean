import Notbit.Network.Peers
import Notbit.Network.Ties

/-!
# Balanced — the numbers of peers and addresses over whole runs (`ntb-network.c`)

Every event keeps the links of the peers and the address book together, so that no assertion about
them can fail: neither while addresses are collected nor when the network is freed.
-/

open Notbit.Proto Keyed Runs

namespace Notbit.Network

namespace State

variable {nw nw' : State} {ssl : OpenSSL}

/-! ## 1. Steps -/

/-- The invariant of the peers and the addresses. -/
def Tied (nw : State) : Prop := Linked nw.links nw.nextPeer nw.book

theorem links_ties (nw : State) : nw.links = nw.ties.peers.map Peer.link := by
  show nw.peers.map Peer.link = (nw.peers.map Peer.bare).map Peer.link
  rw [List.map_map]
  rfl

theorem Tied.of_ties (h : nw.Tied) (hties : nw'.ties = nw.ties) : nw'.Tied := by
  have hlinks : nw'.links = nw.links := by
    rw [links_ties, links_ties, hties]
  have hnext : nw'.nextPeer = nw.nextPeer := congrArg Ties.nextPeer hties
  have hbook : nw'.book = nw.book := congrArg Ties.book hties
  rw [Tied, hlinks, hnext, hbook]
  exact h

-- The events of peers that only touch their state.
theorem Tied.updateState (h : nw.Tied) (id : Nat) (state : PeerState) :
    (nw.updatePeer id fun peer => { peer with state }).Tied := by
  have hlinks : (nw.updatePeer id fun peer => { peer with state }).links = nw.links := by
    simp only [links, State.updatePeer, List.map_map]
    apply List.map_congr_left
    intro peer _
    simp only [Function.comp]
    split <;> rfl
  rw [Tied, hlinks]
  exact h

theorem Tied.emit (h : nw.Tied) (effects : List Effect) : (nw.emit effects).Tied := h

theorem Tied.connectionEstablished (h : nw.Tied) (id : Nat) (now : Int) :
    (nw.connectionEstablished id now).Tied :=
  h.updateState id .connected

theorem Tied.handleVerack (h : nw.Tied) (peer : Peer) (now : Int) :
    (nw.handleVerack peer now).Tied := by
  unfold State.handleVerack
  cases peer.state with
  | awaitingVerackOut => exact h.updateState peer.id .awaitingVersionOut
  | awaitingVerackIn => exact h.connectionEstablished peer.id now
  | awaitingVersionOut => exact h
  | awaitingVersionIn => exact h
  | connected => exact h


theorem Tied.setBook (h : nw.Tied) {book : AddrBook} (hcore : book.core = nw.book.core) :
    { nw with book }.Tied :=
  Linked.frame h hcore

-- The address that is picked is one that can be connected to.
theorem chooseAddr_mem {book : AddrBook} {now rand : Nat} {addr : Addr}
    (h : book.chooseAddr now rand = some addr) : addr ∈ book.addrs ∧ addr.connected = false := by
  have hmem := List.mem_of_getElem? h
  obtain ⟨haddr, hcan⟩ := List.mem_filter.mp hmem
  refine ⟨haddr, ?_⟩
  simp only [AddrBook.canConnectToAddr, Bool.and_eq_true, Bool.not_eq_true'] at hcan
  exact hcan.1.1

theorem Tied.connectQueueCb (h : nw.Tied) {now rand : Nat} {ok : Bool}
    (hs : nw.connectQueueCb now rand ok = some nw') : nw'.Tied := by
  unfold State.connectQueueCb at hs
  dsimp only at hs
  split at hs
  · cases hs
    exact h.setBook rfl
  · rename_i hlimit
    rw [not_or, not_le] at hlimit
    split at hs
    · cases hs
      exact Linked.maybeQueueConnect h false
    · obtain ⟨addr, hchoose, hs⟩ := Option.bind_eq_some_iff.mp hs
      obtain ⟨haddr, hfree⟩ := chooseAddr_mem hchoose
      -- the time of the attempt is written into the address first
      have hf : ∀ a : Addr, ({ a with lastConnectTime := now } : Addr).id = a.id ∧
          ({ a with lastConnectTime := now } : Addr).connected = a.connected := fun _ => ⟨rfl, rfl⟩
      have hattempt := Linked.update h addr.id hf
      have htimed : { addr with lastConnectTime := now } ∈
          (nw.book.update addr.id fun a => { a with lastConnectTime := now }).addrs := by
        refine List.mem_map.mpr ⟨addr, haddr, ?_⟩
        rw [if_pos rfl]
      cases ok with
      | false =>
        cases hs
        exact hattempt
      | true =>
        cases hs
        exact (hattempt.connect htimed hfree hlimit.1).frame rfl

theorem Tied.acceptCb (h : nw.Tied) : nw.acceptCb.Tied :=
  (Linked.accept h).frame rfl

theorem links_filter (peers : List Peer) (id : Nat) :
    (peers.filter (·.id ≠ id)).map Peer.link = Keyed.remove Link.id (peers.map Peer.link) id := by
  rw [Keyed.remove, List.filter_map]
  rfl

theorem Tied.removePeer (h : nw.Tied) {peer : Peer} (hpeer : peer ∈ nw.peers) :
    (nw.removePeer peer).Tied := by
  have hties := ties_foldl_dropInventory peer.requestedInventories nw
  have hpeers := (foldl_dropInventory_frame peer.requestedInventories nw.peers nw).2.1
  have hbook : (peer.requestedInventories.foldl dropInventory nw).book = nw.book :=
    congrArg Ties.book hties
  have hnext : (peer.requestedInventories.foldl dropInventory nw).nextPeer = nw.nextPeer :=
    congrArg Ties.nextPeer hties
  have hleave := (Linked.leave h (List.mem_map_of_mem hpeer)).maybeQueueConnect true
  rw [State.links, ← links_filter] at hleave
  unfold State.removePeer Tied
  dsimp only [links]
  rw [hpeers, hbook, hnext]
  exact hleave.frame rfl

theorem Tied.addAddr (h : nw.Tied) (now timestamp : Int) (stream services : Nat)
    (address : Netaddress) : (nw.addAddr now timestamp stream services address).1.Tied :=
  Linked.addAddr h now timestamp stream services address

theorem links_update (peers : List Peer) (id addr : Nat) :
    (peers.map fun peer => if peer.id = id then { peer with addr := some addr } else peer).map
      Peer.link =
    Keyed.update Link.id (peers.map Peer.link) id fun l => { l with addr := some addr } := by
  rw [Keyed.update, List.map_map, List.map_map]
  apply List.map_congr_left
  intro peer _
  simp only [Function.comp]
  by_cases hid : peer.id = id
  · rw [if_pos hid, if_pos (show peer.link.id = id from hid)]
    rfl
  · rw [if_neg hid, if_neg (show ¬ peer.link.id = id from hid)]

theorem Tied.claimAddr (h : nw.Tied) {peer : Peer} (hpeer : peer ∈ nw.peers) (addr : Option Nat) :
    (nw.claimAddr peer addr).Tied := by
  unfold State.claimAddr
  cases hfind : nw.book.addrs.find? fun a => some a.id = addr ∧ peer.addr = none ∧ !a.connected with
  | none => exact h
  | some a =>
    have hcond := List.find?_some hfind
    simp only [Bool.not_eq_true', decide_eq_true_eq] at hcond
    obtain ⟨-, hnone, hfree⟩ := hcond
    have hclaim := Linked.claim h (l := peer.link) (List.mem_map_of_mem hpeer) hnone
      (List.mem_of_find?_eq_some hfind) hfree
    unfold Tied links
    dsimp only [State.updatePeer]
    rw [links_update]
    exact hclaim

theorem Tied.answerVersion (h : nw.Tied) (peer : Peer) (now : Int) :
    (nw.answerVersion peer now).Tied := by
  unfold State.answerVersion
  cases peer.state with
  | awaitingVerackOut => exact h
  | awaitingVerackIn => exact h
  | connected => exact h
  | awaitingVersionOut => exact (h.emit _).connectionEstablished peer.id now
  | awaitingVersionIn => exact (h.emit _).updateState peer.id .awaitingVerackIn

theorem Tied.handleVersion (h : nw.Tied) {peer : Peer} (hpeer : peer ∈ nw.peers) (now : Int)
    (nonce version : Nat) (timestamp : Int) (stream services : Nat) (address : Netaddress) :
    (nw.handleVersion peer now nonce version timestamp stream services address).Tied := by
  by_cases hbad : nonce = nw.nonce ∨ version ≠ protoVersion
  · rw [handleVersion_of_not_ok hbad]
    exact h.removePeer hpeer
  · rw [not_or, not_not] at hbad
    rw [handleVersion_of_ok hbad.1 hbad.2]
    have hadd := h.addAddr now timestamp stream services address
    exact (hadd.claimAddr hpeer _).answerVersion peer now

theorem Tied.gcTimeoutCb (h : nw.Tied) (now : Int) (monotonic : Nat) :
    (nw.gcTimeoutCb now monotonic).Tied := by
  have hgc : { nw with book := nw.book.gcAddrs now }.Tied := by
    apply Linked.filter h
    intro a hold
    simp only [Bool.and_eq_true, Bool.not_eq_true'] at hold
    exact hold.2
  exact hgc.of_ties (ties_gcTimeoutCb nw now monotonic)

theorem Tied.step (h : nw.Tied) {e : Event} (hs : step ssl nw e = some nw') : nw'.Tied := by
  cases e with
  | connectQueue monotonic rand ok =>
    rw [Network.step] at hs
    split at hs
    · exact h.connectQueueCb hs
    · cases hs
  | accept socket =>
    rw [Network.step] at hs
    split at hs
    · cases hs
      exact h.acceptCb
    · cases hs
  | error peer =>
    obtain ⟨peer, hfind, rfl⟩ := Option.map_eq_some_iff.mp hs
    exact h.removePeer (findPeer_mem hfind).1
  | version peer now nonce version timestamp stream services address =>
    obtain ⟨peer, hfind, rfl⟩ := Option.map_eq_some_iff.mp hs
    exact h.handleVersion (findPeer_mem hfind).1 _ _ _ _ _ _ _
  | verack peer now =>
    obtain ⟨peer, -, rfl⟩ := Option.map_eq_some_iff.mp hs
    exact h.handleVerack peer now
  | addr peer now timestamp stream services address =>
    obtain ⟨peer, -, rfl⟩ := Option.map_eq_some_iff.mp hs
    split
    · exact h.addAddr _ _ _ _ _
    · exact h
  | inv peer monotonic hashes => exact h.of_ties (ties_step rfl hs)
  | getdata peer hashes => exact h.of_ties (ties_step rfl hs)
  | object peer now blob => exact h.of_ties (ties_step rfl hs)
  | addBlob now blob flags => exact h.of_ties (ties_step rfl hs)
  | addObjectFromData now blob flags => exact h.of_ties (ties_step rfl hs)
  | delayedBroadcast i => exact h.of_ties (ties_step rfl hs)
  | loadBlob type hash timestamp => exact h.of_ties (ties_step rfl hs)
  | gc now monotonic =>
    cases hs
    exact h.gcTimeoutCb now monotonic
  | loadAddr now timestamp stream services address =>
    cases hs
    exact h.addAddr _ _ _ _ _
  | addPeerAddress address =>
    cases hs
    exact Linked.newAddr h _ _ _ _ _
  | addListenAddress =>
    cases hs
    exact h.setBook rfl
  | listenError socket =>
    cases hs
    exact h.setBook rfl
  | storeLoaded =>
    cases hs
    exact Linked.maybeQueueConnect h true
  | dnsAddress address =>
    rw [Network.step] at hs
    split at hs
    · cases hs
      exact Linked.newAddr h _ _ _ _ _
    · cases hs
      exact h
  | useOnlyExplicitAddresses value =>
    cases hs
    have hset : { nw with book := { nw.book with onlyUseExplicitAddresses := value } }.Tied :=
      h.setBook rfl
    exact Linked.maybeQueueConnect hset true
  | saveAddrList =>
    cases hs
    exact h.setBook rfl

theorem Tied.new (nonce : Nat) (defaultAddrs : List Netaddress) :
    (State.new nonce defaultAddrs).Tied := by
  have hempty : Linked [] 0 {} := by
    constructor <;> simp [numOutgoingPeers]
  have hloop : ∀ book : AddrBook, Linked [] 0 book → Linked [] 0 (defaultAddrs.foldl
      (fun (book : AddrBook) address => book.newAddr .default address 0 1 1) book) := by
    induction defaultAddrs with
    | nil => exact fun _ h => h
    | cons address defaultAddrs ih => exact fun book h => ih _ (h.newAddr _ _ _ _ _)
  exact (hloop {} hempty).maybeQueueConnect true

theorem Tied.run (ssl : OpenSSL) (nonce : Nat) (defaultAddrs : List Netaddress)
    (events : List Event) : (run (Network.step ssl) (State.new nonce defaultAddrs) events).Tied :=
  invariant (fun _ _ _ h hs => h.step hs) (Tied.new nonce defaultAddrs) events

/-! ## 2. Assertions -/

/-- Of addresses that are not connected any number can be removed one by one. -/
theorem foldlM_removeAddr {old : Addr → Bool} {l : List Addr}
    (hold : ∀ a ∈ l, old a = true → a.connected = false) (book : AddrBook) :
    l.foldlM (fun book addr => if old addr = true then book.removeAddr addr else some book) book =
      some { book with
        addrs := book.addrs.filter fun a => a.id ∉ (l.filter old).map (·.id)
        nUnconnectedAddrs := book.nUnconnectedAddrs - (l.filter old).length } := by
  induction l generalizing book with
  | nil => simp
  | cons a l ih =>
    have hrest : ∀ b ∈ l, old b = true → b.connected = false := fun b hb =>
      hold b (List.mem_cons_of_mem a hb)
    rw [List.foldlM_cons]
    cases ha : old a with
    | false =>
      rw [List.filter_cons_of_neg (by simp [ha])]
      exact ih hrest book
    | true =>
      have hfree : a.connected = false := hold a List.mem_cons_self ha
      have hremove : book.removeAddr a = some { book with
          addrs := book.addrs.filter (·.id ≠ a.id)
          nUnconnectedAddrs := book.nUnconnectedAddrs - 1 } := by
        rw [AddrBook.removeAddr, hfree]
        rfl
      have haddrs : (book.addrs.filter (·.id ≠ a.id)).filter
            (fun b => b.id ∉ (l.filter old).map (·.id)) =
          book.addrs.filter fun b => b.id ∉ (a :: l.filter old).map (·.id) := by
        rw [List.filter_filter]
        apply List.filter_congr
        intro b _
        simp only [List.map_cons, List.mem_cons, not_or, ne_eq, Bool.decide_and, Bool.and_comm]
      rw [if_pos rfl, hremove, Option.bind_eq_bind, Option.bind_some, ih hrest,
        List.filter_cons_of_pos ha]
      dsimp only
      rw [haddrs, List.length_cons]
      congr 2
      push_cast
      ring

/-- The assertion of `remove_addr` holds in `gc_addrs`. -/
theorem Tied.gcAddrsLoop_eq (h : nw.Tied) (now : Int) :
    nw.book.gcAddrsLoop now = some (nw.book.gcAddrs now) := by
  let old (addr : Addr) : Bool :=
    now - addr.advertiseTime ≥ maxAddrAge && addr.type = .discovered && !addr.connected
  have hold : ∀ a ∈ nw.book.addrs, old a = true → a.connected = false := by
    intro a _ ha
    simp only [old, Bool.and_eq_true, Bool.not_eq_true'] at ha
    exact ha.2
  have hloop : nw.book.gcAddrsLoop now = nw.book.addrs.foldlM
      (fun book addr => if old addr = true then book.removeAddr addr else some book) nw.book := by
    unfold AddrBook.gcAddrsLoop
    congr 1
    funext book addr
    simp only [old, Bool.and_eq_true, decide_eq_true_eq, Bool.not_eq_true', and_assoc]
  -- an address is old if an old one has its number
  have haddrs : nw.book.addrs.filter (fun a => a.id ∉ (nw.book.addrs.filter old).map (·.id)) =
      nw.book.addrs.filter fun a => !old a := by
    apply List.filter_congr
    intro a ha
    have hiff : a.id ∈ (nw.book.addrs.filter old).map (·.id) ↔ old a = true := by
      constructor
      · intro hin
        obtain ⟨b, hb, hid⟩ := List.mem_map.mp hin
        obtain ⟨hb, hbold⟩ := List.mem_filter.mp hb
        rwa [eq_of_key h.addrIds hb ha hid] at hbold
      · exact fun hself => List.mem_map_of_mem (List.mem_filter.mpr ⟨ha, hself⟩)
    simp only [hiff, decide_not, Bool.decide_eq_true]
  rw [hloop, foldlM_removeAddr hold, haddrs]
  rfl

-- The assertion of `remove_addr` holds in `free_addrs` when no peer is left.
theorem freeAddrs_eq {n : Nat} {book : AddrBook} (h : Linked [] n book) :
    book.freeAddrs = some { book with addrs := [], nUnconnectedAddrs := 0 } := by
  let old (_ : Addr) : Bool := true
  have hfree : ∀ a ∈ book.addrs, old a = true → a.connected = false := by
    intro a ha _
    have hclaimed := h.claimed a ha
    rw [List.countP_nil] at hclaimed
    exact Bool.toNat_eq_zero.mp hclaimed.symm
  have hnone : book.addrs.filter (fun a => a.id ∉ book.addrs.map (·.id)) = [] := by
    rw [List.filter_eq_nil_iff]
    intro a ha hmem
    exact (of_decide_eq_true hmem) (List.mem_map_of_mem ha)
  have hall : book.addrs.countP (!·.connected) = book.addrs.length := by
    rw [List.countP_eq_length]
    intro a ha
    rw [hfree a ha rfl]
    rfl
  have hloop := foldlM_removeAddr hfree book
  simp only [old, if_true, List.filter_true] at hloop
  rw [AddrBook.freeAddrs, hloop, hnone, h.unconnected, hall, sub_self]

theorem removePeer_peers (peer : Peer) :
    (nw.removePeer peer).peers = nw.peers.filter (·.id ≠ peer.id) := by
  have hpeers := (foldl_dropInventory_frame peer.requestedInventories nw.peers nw).2.1
  simp only [State.removePeer, hpeers]

theorem foldl_removePeer_peers (l : List Peer) (nw : State) :
    (l.foldl State.removePeer nw).peers = nw.peers.filter fun p => p.id ∉ l.map (·.id) := by
  induction l generalizing nw with
  | nil => simp
  | cons peer l ih =>
    rw [List.foldl_cons, ih, removePeer_peers, List.filter_filter]
    apply List.filter_congr
    intro p _
    simp only [List.map_cons, List.mem_cons, not_or, ne_eq, Bool.decide_and, Bool.and_comm]

theorem Tied.freePeers (h : nw.Tied) : nw.freePeers.Tied ∧ nw.freePeers.peers = [] := by
  have hids : (nw.peers.map Peer.id).Nodup := by
    have hlinks := h.ids
    rw [links, List.map_map] at hlinks
    exact hlinks
  constructor
  · -- no other peer has the number of the one that goes
    apply foldl_members (P := Tied) (L := State.peers) ?_ hids.of_map (fun _ hp => hp) h
    intro nw peer hnw hpeer
    refine ⟨hnw.removePeer hpeer, ?_⟩
    intro other hother hne
    rw [removePeer_peers, List.mem_filter]
    refine ⟨hother, decide_eq_true ?_⟩
    intro hid
    have hlinks := hnw.ids
    rw [links, List.map_map] at hlinks
    exact hne (List.inj_on_of_nodup_map hlinks hother hpeer hid)
  · rw [State.freePeers, foldl_removePeer_peers, List.filter_eq_nil_iff]
    intro peer hpeer hmem
    exact (of_decide_eq_true hmem) (List.mem_map_of_mem hpeer)

-- The assertions at the end of `ntb_network_free` hold.
theorem Tied.free_isSome (h : nw.Tied) : nw.free.isSome = true := by
  obtain ⟨hfreed, hpeers⟩ := h.freePeers
  have hlinks : nw.freePeers.links = [] := by
    rw [links, hpeers, List.map_nil]
  rw [Tied, hlinks] at hfreed
  have hout : nw.freePeers.book.nOutgoingPeers = 0 := hfreed.outgoing
  have hin : nw.freePeers.book.nIncomingPeers = 0 := hfreed.incoming
  unfold State.free
  simp only [freeAddrs_eq hfreed, hout, hin, Option.bind_eq_bind, Option.bind_some, and_self,
    if_true, Option.isSome_some]

/-! ## 3. All runs -/

/-- The counters, the flags and the pointers agree, and the assertions about them hold. -/
structure Balanced (nw : State) : Prop where
  outgoing : nw.book.nOutgoingPeers = (nw.peers.filter (·.direction = .outgoing)).length
  incoming : nw.book.nIncomingPeers = (nw.peers.filter (·.direction = .incoming)).length
  unconnected : nw.book.nUnconnectedAddrs = (nw.book.addrs.filter (!·.connected)).length
  connected : ∀ a ∈ nw.book.addrs,
    (a.connected = true ↔ ∃! peer, peer ∈ nw.peers ∧ peer.addr = some a.id)
  listed : ∀ peer ∈ nw.peers, ∀ id, peer.addr = some id → ∃! a, a ∈ nw.book.addrs ∧ a.id = id
  limited : nw.book.nOutgoingPeers ≤ numOutgoingPeers
  /-- Every peer and every address is in its list once. -/
  distinct : (nw.peers.map (·.id)).Nodup ∧ (nw.book.addrs.map (·.id)).Nodup
  /-- The assertion of `remove_addr` holds whenever addresses are collected. -/
  collected : ∀ now, nw.book.gcAddrsLoop now = some (nw.book.gcAddrs now)
  /-- It holds for an address that could not be parsed. -/
  invalid : ∀ address advertiseTime stream services,
    (nw.book.addInvalidString address advertiseTime stream services).isSome = true
  /-- The assertions of `ntb_network_free` hold. -/
  freed : nw.free.isSome = true

theorem Tied.connected_iff (h : nw.Tied) {a : Addr} (ha : a ∈ nw.book.addrs) :
    a.connected = true ↔ ∃! peer, peer ∈ nw.peers ∧ peer.addr = some a.id := by
  have hcount : (nw.peers.filter fun peer => peer.addr = some a.id).length = a.connected.toNat := by
    have hclaimed := h.claimed a ha
    rw [links, List.countP_map, List.countP_eq_length_filter] at hclaimed
    exact hclaimed
  constructor
  · intro hconnected
    rw [hconnected, Bool.toNat_true, List.length_eq_one_iff] at hcount
    obtain ⟨peer, hpeer⟩ := hcount
    have hmem : ∀ p, p ∈ nw.peers ∧ p.addr = some a.id ↔ p = peer := by
      intro p
      have hin : p ∈ nw.peers.filter (fun p => p.addr = some a.id) ↔ p ∈ [peer] := by
        rw [hpeer]
      rwa [List.mem_filter, decide_eq_true_eq, List.mem_singleton] at hin
    exact ⟨peer, (hmem peer).mpr rfl, fun p hp => (hmem p).mp hp⟩
  · rintro ⟨peer, ⟨hpeer, haddr⟩, -⟩
    by_contra hfree
    exact h.not_claimed ha (Bool.eq_false_iff.mpr hfree) (List.mem_map_of_mem hpeer) haddr

theorem Tied.balanced (h : nw.Tied) : nw.Balanced where
  outgoing := by
    rw [h.outgoing, links, List.countP_map, List.countP_eq_length_filter]
    rfl
  incoming := by
    rw [h.incoming, links, List.countP_map, List.countP_eq_length_filter]
    rfl
  unconnected := by
    rw [h.unconnected, List.countP_eq_length_filter]
  connected _ ha := h.connected_iff ha
  listed := by
    intro peer hpeer id haddr
    obtain ⟨a, ha, hid⟩ := h.listed peer.link (List.mem_map_of_mem hpeer) id haddr
    refine ⟨a, ⟨ha, hid⟩, ?_⟩
    rintro b ⟨hb, hid'⟩
    exact eq_of_key h.addrIds hb ha (hid'.trans hid.symm)
  limited := h.limited
  distinct := by
    have hlinks := h.ids
    rw [links, List.map_map] at hlinks
    exact ⟨hlinks, h.addrIds⟩
  collected := h.gcAddrsLoop_eq
  invalid _ _ _ _ := rfl
  freed := h.free_isSome

end State

/-- Whatever happens to the network, its counters, flags and pointers agree. -/
theorem network_balanced (ssl : OpenSSL) (nonce : Nat) (defaultAddrs : List Netaddress)
    (events : List Event) :
    (run (step ssl) (State.new nonce defaultAddrs) events).Balanced :=
  (State.Tied.run ssl nonce defaultAddrs events).balanced

end Notbit.Network
