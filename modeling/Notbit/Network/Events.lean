import Notbit.Lib.Runs
import Notbit.Network.State
import Notbit.Pow.Target

/-!
# Events — what the network does with everything that can happen to it (`ntb-network.c`)

One function for each function of the source, and `step`, which is `connection_event_cb` with the
timers and the calls from the rest of the program.  The clocks are arguments of the events.
-/

open Notbit.Proto Notbit.Pow

namespace Notbit.Network

/-- `NTB_NETWORK_INV_CACHE_AGE` -/
def invCacheAge : Int := 10 * 60

/-- `NTB_NETWORK_INV_FUTURE_AGE` -/
def invFutureAge : Int := 30 * 60

/-- `NTB_NETWORK_MAX_STUB_INVENTORY_AGE`, in microseconds. -/
def maxStubInventoryAge : Nat := 5 * 60 * 1000000

/-- `NTB_NETWORK_MAX_REJECTED_INVENTORIES` -/
def maxRejectedInventories : Int := 16384

/-- `NTB_PROTO_VERSION` -/
def protoVersion : Nat := 2

/-- `enum ntb_network_add_object_flags` -/
structure AddObjectFlags where
  skipValidation : Bool := false
  delay : Bool := false

/-- `should_reject`; the assertion of `ntb_pow_check` cannot fail behind a whole header. -/
def shouldReject (ssl : OpenSSL) (type : InvType) (payload : List UInt8) (age : Int) : Bool :=
  age ≤ -invFutureAge || age ≥ maxAgeForType type ||
    powCheck ssl payload minExtraBytes minNonceTrialsPerByte != some true

namespace State

/-! ## 1. Peers and addresses -/

/-- `add_peer`, with what its two callers set afterwards.  The listen sockets are updated before
the counters. -/
def addPeer (nw : State) (state : PeerState) (direction : Direction) (addr : Option Nat) :
    State :=
  { nw with
    peers := { id := nw.nextPeer, state, direction, addr } :: nw.peers
    nextPeer := nw.nextPeer + 1
    book := nw.book.updateAllListenSocketSources }

/-- `connect_queue_cb` with `connect_to_addr`; `ok` says whether the connection could be made.
There is no result when the choice runs past the end of the list. -/
def connectQueueCb (nw : State) (now rand : Nat) (ok : Bool) : Option State :=
  let book := nw.book
  if book.nOutgoingPeers ≥ numOutgoingPeers ∨ book.nUnconnectedAddrs ≤ 0 then
    some { nw with book := { book with connectQueueSource := none } }
  else if book.addrs.filter (book.canConnectToAddr now) = [] then
    some { nw with book := book.maybeQueueConnect false }
  else do
    let addr ← book.chooseAddr now rand
    let nw := { nw with
      book := book.update addr.id fun addr => { addr with lastConnectTime := now } }
    if ok then
      let nw := nw.addPeer .awaitingVerackOut .outgoing (some addr.id)
      let book := nw.book.update addr.id fun addr => { addr with connected := true }
      let nw := { nw with
        book := { book with
          nOutgoingPeers := book.nOutgoingPeers + 1
          nUnconnectedAddrs := book.nUnconnectedAddrs - 1 } }
      return nw.emit [.sendVersion (nw.nextPeer - 1)]
    else return nw

/-- `listen_socket_source_cb` with a connection. -/
def acceptCb (nw : State) : State :=
  let nw := nw.addPeer .awaitingVersionIn .incoming none
  { nw with book := { nw.book with nIncomingPeers := nw.book.nIncomingPeers + 1 } }

/-- Taking an inventory out of the table and freeing it. -/
def dropInventory (nw : State) (a : Nat) : State :=
  (nw.hashRemove (.inventory a)).freeInventory a

/-- `remove_peer` -/
def removePeer (nw : State) (peer : Peer) : State :=
  let nw := peer.requestedInventories.foldl dropInventory nw
  let book := nw.book
  let book := match peer.addr with
    | some id =>
      { book.update id fun addr => { addr with connected := false } with
        nUnconnectedAddrs := book.nUnconnectedAddrs + 1 }
    | none => book
  let book := match peer.direction with
    | .outgoing => { book with nOutgoingPeers := book.nOutgoingPeers - 1 }
    | .incoming => { book with nIncomingPeers := book.nIncomingPeers - 1 }
  { nw with
    peers := nw.peers.filter (·.id ≠ peer.id)
    book := (book.maybeQueueConnect true).updateAllListenSocketSources }

/-- The peers a broadcast goes to. -/
def connectedPeers (nw : State) : List Nat :=
  (nw.peers.filter (·.state = .connected)).map (·.id)

/-- `add_addr` with `broadcast_addr`. -/
def addAddr (nw : State) (now timestamp : Int) (stream services : Nat) (address : Netaddress) :
    State × Option Nat :=
  let (book, id, broadcast) := nw.book.addAddr now timestamp stream services address
  let nw := { nw with book }
  (nw.emit (nw.connectedPeers.flatMap fun peer =>
    broadcast.toList.map fun address => .sendAddr peer [address]), id)

/-- The hashes `send_inventory` announces. -/
def unexpired (nw : State) (now : Int) : List Hash :=
  (nw.acceptedInventories.filter fun a =>
    now - (nw.heap a).time < maxAgeForType ((nw.heap a).type.getD .getpubkey)).map
      fun a => (nw.heap a).hash

/-- `connection_established` with `send_addresses` and `send_inventory`. -/
def connectionEstablished (nw : State) (id : Nat) (now : Int) : State :=
  let addresses := (nw.book.addrs.filter fun addr => now - addr.advertiseTime ≤ maxAddrAge).map
    (·.address)
  (nw.updatePeer id fun peer => { peer with state := .connected }).emit
    [.sendAddr id addresses, .sendInv id (nw.unexpired now)]

/-- `handle_version`; `address` is the remote host with the port the peer claims. -/
def handleVersion (nw : State) (peer : Peer) (now : Int) (nonce version : Nat) (timestamp : Int)
    (stream services : Nat) (address : Netaddress) : State :=
  if nonce = nw.nonce ∨ version ≠ protoVersion then nw.removePeer peer
  else
    let (nw, addr) := nw.addAddr now timestamp stream services address
    let unclaimed := nw.book.addrs.find? fun a => some a.id = addr ∧ peer.addr = none ∧ !a.connected
    let nw := match unclaimed with
      | some a =>
        { nw.updatePeer peer.id fun peer => { peer with addr := some a.id } with
          book := { nw.book.update a.id fun a => { a with connected := true } with
            nUnconnectedAddrs := nw.book.nUnconnectedAddrs - 1 } }
      | none => nw
    let nw := nw.emit [.sendVerack peer.id]
    match peer.state with
    | .awaitingVerackOut | .awaitingVerackIn | .connected => nw
    | .awaitingVersionOut => nw.connectionEstablished peer.id now
    | .awaitingVersionIn =>
      (nw.updatePeer peer.id fun peer => { peer with state := .awaitingVerackIn }).emit
        [.sendVersion peer.id]

/-- `handle_verack` -/
def handleVerack (nw : State) (peer : Peer) (now : Int) : State :=
  match peer.state with
  | .awaitingVerackOut =>
    nw.updatePeer peer.id fun peer => { peer with state := .awaitingVersionOut }
  | .awaitingVerackIn => nw.connectionEstablished peer.id now
  | .awaitingVersionOut | .awaitingVersionIn | .connected => nw

/-! ## 2. Inventories -/

/-- `request_inventory` -/
def requestInventory (nw : State) (peer : Nat) (now : Nat) (hash : Hash) : State :=
  let (a, nw) := nw.alloc
  let nw := nw.setInventory a { state := .stub, hash, time := now }
  let nw := nw.updatePeer peer fun peer =>
    { peer with requestedInventories := a :: peer.requestedInventories }
  nw.hashSet a

/-- One round of the loop in `handle_inv`, with the hashes that are requested so far. -/
def handleInvHash (peer : Nat) (now : Nat) (s : State × List Hash) (hash : Hash) :
    State × List Hash :=
  match s.1.hashGet hash with
  | none => (s.1.requestInventory peer now hash, s.2 ++ [hash])
  | some _ => s

/-- `handle_inv` -/
def handleInv (nw : State) (peer : Nat) (now : Nat) (hashes : List Hash) : State :=
  let (nw, requests) := hashes.foldl (handleInvHash peer now) (nw, [])
  nw.emit [.sendGetdata peer requests]

/-- The inventories whose hash and blob `handle_getdata` passes to `ntb_connection_send_blob`. -/
def getdataInventories (nw : State) (hashes : List Hash) : List Inventory :=
  (hashes.filterMap nw.hashGet).map nw.heap |>.filter (·.state ≠ .rejected)

/-- `handle_getdata` -/
def handleGetdata (nw : State) (peer : Nat) (hashes : List Hash) : State :=
  nw.emit ((nw.getdataInventories hashes).map fun inv => .sendBlob peer inv.hash inv.blob)

/-- `broadcast_inv` -/
def broadcastInv (nw : State) (hash : Hash) : State :=
  nw.emit (nw.connectedPeers.map fun peer => .sendInv peer [hash])

/-- The removal of the earliest rejected inventory in `reject_inventory`.  The hash table is given
a pointer to the hash where it expects one to the inventory. -/
def evictRejected (nw : State) : Option State := do
  let old ← nw.rejectedInventories.getLast?
  return ((nw.listRemove old).hashRemove (.hashField old)).freeInventory old

/-- `reject_inventory` -/
def rejectInventory (nw : State) (a : Nat) : Option State := do
  let nw := nw.setInventory a { nw.heap a with state := .rejected }
  let nw ←
    if nw.nRejectedInventories ≥ maxRejectedInventories then nw.evictRejected
    else some { nw with nRejectedInventories := nw.nRejectedInventories + 1 }
  return { nw with rejectedInventories := a :: nw.rejectedInventories }

/-- The branch of `add_object` for an object that is not rejected. -/
def acceptInventory (nw : State) (a : Nat) (blob : Blob) (age : Int) (delay : Bool) : State :=
  let hash := (nw.heap a).hash
  let nw := nw.setInventory a
    { nw.heap a with blob := some (some blob), type := some blob.type, state := .accepted }
  let nw := { nw.emit [.saveBlob hash blob] with acceptedInventories := a :: nw.acceptedInventories }
  let nw :=
    if delay then { nw with delayedBroadcasts := hash :: nw.delayedBroadcasts }
    else nw.broadcastInv hash
  let nw := nw.emit [.newObject blob]
  -- what is not quite new is not kept in memory
  if age ≥ invCacheAge then nw.setInventory a { nw.heap a with blob := some none } else nw

/-- The inventory `add_object` goes on with: a new one, or the stub of the same hash taken out of
its list.  The first `none` is an object that is known already, the second a crash on the null
link of a slice that is free. -/
def claimInventory (nw : State) (hash : Hash) : Option (Option (Nat × State)) :=
  match nw.hashGet hash with
  | none =>
    let (a, nw) := nw.alloc
    some (some (a, (nw.setInventory a { hash }).hashSet a))
  | some a =>
    if (nw.heap a).state.isStub then
      if a ∈ nw.linked then some (some (a, nw.listRemove a)) else none
    else some none

/-- `add_object`, for all three callers: a blob that is passed in has the same type and data. -/
def addObject (ssl : OpenSSL) (nw : State) (now : Int) (blob : Blob) (flags : AddObjectFlags) :
    Option State :=
  match objectTimestamp blob.data with
  | none => some nw
  | some timestamp => do
    match ← nw.claimInventory (doubleHash ssl blob.data) with
    | none => return nw
    | some (a, nw) =>
      let age := now - timestamp
      let nw := nw.setInventory a { nw.heap a with time := timestamp }
      if !flags.skipValidation && shouldReject ssl blob.type blob.data age then
        nw.rejectInventory a
      else
        return nw.acceptInventory a blob age flags.delay

/-- `store_for_each_blob_cb` -/
def storeForEachBlobCb (nw : State) (type : InvType) (hash : Hash) (timestamp : Int) : State :=
  match nw.hashGet hash with
  | some _ => nw
  | none =>
    let (a, nw) := nw.alloc
    let nw := nw.setInventory a
      { state := .accepted, type := some type, hash, time := timestamp, blob := some none }
    let nw := nw.hashSet a
    { nw.emit [.loadedBlob hash] with acceptedInventories := a :: nw.acceptedInventories }

/-! ## 3. Garbage collection -/

/-- The test of `gc_requested_inventories`, on `uint64_t` clocks. -/
def stubExpired (now : Nat) (inv : Inventory) : Bool :=
  ((now : Int) - inv.time) % 2 ^ 64 ≥ maxStubInventoryAge

/-- `gc_requested_inventories`, one inventory. -/
def gcRequestedInventory (now : Nat) (nw : State) (a : Nat) : State :=
  if stubExpired now (nw.heap a) then (nw.listRemove a).dropInventory a else nw

/-- The test of `gc_inventories`: a rejected inventory lives as long as a message. -/
def expired (now : Int) (inv : Inventory) : Bool :=
  let age := now - inv.time
  let type := if inv.state = .accepted then inv.type.getD .getpubkey else .msg
  age ≤ -invFutureAge || age ≥ maxAgeForType type + extraAge

/-- `gc_inventories`, one inventory. -/
def gcInventory (now : Int) (nw : State) (a : Nat) : State :=
  let inv := nw.heap a
  if expired now inv then
    let nw := if inv.state = .rejected then
        { nw with nRejectedInventories := nw.nRejectedInventories - 1 }
      else nw.emit [.deleteObject inv.hash]
    (nw.listRemove a).dropInventory a
  else if now - inv.time ≥ invCacheAge ∧ inv.blob ≠ some none ∧ inv.state ≠ .rejected then
    nw.setInventory a { inv with blob := some none }
  else nw

/-- `gc_timeout_cb` -/
def gcTimeoutCb (nw : State) (now : Int) (monotonic : Nat) : State :=
  let nw := nw.requested.foldl (gcRequestedInventory monotonic) nw
  let nw := nw.acceptedInventories.foldl (gcInventory now) nw
  let nw := nw.rejectedInventories.foldl (gcInventory now) nw
  { nw with book := nw.book.gcAddrs now }

end State

/-! ## 4. Runs -/

/-- Everything that can happen.  The events of a connection name the peer; `now` is the wall clock
and `monotonic` the other one. -/
inductive Event where
  | connectQueue (monotonic rand : Nat) (ok : Bool)
  | accept (socket : Nat)
  | error (peer : Nat)
  | version (peer : Nat) (now : Int) (nonce version : Nat) (timestamp : Int)
      (stream services : Nat) (address : Netaddress)
  | verack (peer : Nat) (now : Int)
  | inv (peer : Nat) (monotonic : Nat) (hashes : List Hash)
  | addr (peer : Nat) (now timestamp : Int) (stream services : Nat) (address : Netaddress)
  | getdata (peer : Nat) (hashes : List Hash)
  | object (peer : Nat) (now : Int) (blob : Blob)
  | addBlob (now : Int) (blob : Blob) (flags : AddObjectFlags)
  | addObjectFromData (now : Int) (blob : Blob) (flags : AddObjectFlags)
  | delayedBroadcast (i : Nat)
  | gc (now : Int) (monotonic : Nat)
  | loadBlob (type : InvType) (hash : Hash) (timestamp : Int)
  | loadAddr (now timestamp : Int) (stream services : Nat) (address : Netaddress)
  | addPeerAddress (address : Netaddress)
  | addListenAddress
  | listenError (socket : Nat)
  | storeLoaded
  | dnsAddress (address : Netaddress)
  | useOnlyExplicitAddresses (value : Bool)
  | saveAddrList

def step (ssl : OpenSSL) (nw : State) : Event → Option State
  | .connectQueue monotonic rand ok =>
    if nw.book.connectQueueSource.isSome then nw.connectQueueCb monotonic rand ok else none
  | .accept socket => if nw.book.listenSockets[socket]? = some true then some nw.acceptCb else none
  | .error peer => (nw.findPeer peer).map nw.removePeer
  | .version peer now nonce version timestamp stream services address =>
    (nw.findPeer peer).map fun peer =>
      nw.handleVersion peer now nonce version timestamp stream services address
  | .verack peer now => (nw.findPeer peer).map fun peer => nw.handleVerack peer now
  | .inv peer monotonic hashes => (nw.findPeer peer).map fun peer =>
      nw.handleInv peer.id monotonic hashes
  | .addr peer now timestamp stream services address => (nw.findPeer peer).map fun _ =>
      if isAllowed address then (nw.addAddr now timestamp stream services address).1 else nw
  | .getdata peer hashes => (nw.findPeer peer).map fun peer => nw.handleGetdata peer.id hashes
  | .object peer now blob => (nw.findPeer peer).bind fun _ => nw.addObject ssl now blob {}
  | .addBlob now blob flags => nw.addObject ssl now blob flags
  | .addObjectFromData now blob flags => nw.addObject ssl now blob flags
  | .delayedBroadcast i => nw.delayedBroadcasts[i]?.map fun hash =>
      { nw.broadcastInv hash with delayedBroadcasts := nw.delayedBroadcasts.eraseIdx i }
  | .gc now monotonic => some (nw.gcTimeoutCb now monotonic)
  | .loadBlob type hash timestamp => some (nw.storeForEachBlobCb type hash timestamp)
  | .loadAddr now timestamp stream services address =>
    some (nw.addAddr now timestamp stream services address).1
  | .addPeerAddress address => some { nw with book := nw.book.newAddr .explicitlyAdded address 0 1 1 }
  | .addListenAddress =>
    let polled := nw.book.nIncomingPeers < maxIncomingPeers
    some { nw with book := { nw.book with listenSockets := polled :: nw.book.listenSockets } }
  | .listenError socket => some { nw with
      book := { nw.book with listenSockets := nw.book.listenSockets.eraseIdx socket } }
  | .storeLoaded => some { nw with book := nw.book.maybeQueueConnect true }
  | .dnsAddress address =>
    if isAllowed address ∧ nw.book.findAddress address = none then
      some { nw with book := nw.book.newAddr .default address 0 1 1 }
    else some nw
  | .useOnlyExplicitAddresses value =>
    some { nw with
      book := { nw.book with onlyUseExplicitAddresses := value }.maybeQueueConnect true }
  | .saveAddrList => some { nw with book := { nw.book with saveAddrListSource := false } }

/-- `ntb_network_new`, with the default addresses it starts from. -/
def State.new (nonce : Nat) (defaultAddrs : List Netaddress) : State where
  nonce := nonce
  book := (defaultAddrs.foldl (fun (book : AddrBook) address => book.newAddr .default address 0 1 1)
    {}).maybeQueueConnect true

end Notbit.Network
