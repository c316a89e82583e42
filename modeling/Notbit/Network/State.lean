import Notbit.Blob
import Notbit.Network.Addrs

/-!
# State — inventories, peers and the memory behind them (`ntb-network.c`, `ntb-slice.c`)

An inventory is a slice of the allocator: a numbered cell of the heap whose bytes stay behind when
it is freed.  The hash table holds pointers into the heap, and every inventory is linked into one
of the lists of the network or of a peer; table and lists are updated one by one, by hand.
-/

namespace Notbit.Network

/-! ## 1. Inventories -/

/-- `enum ntb_network_inv_state`, or what `ntb_slice_free` leaves in the field: the link to the next
free slice covers it. -/
inductive InvState where
  | stub | rejected | accepted
  | freed (next : Option Nat)
  deriving DecidableEq, Repr

/-- What a comparison with `NTB_NETWORK_INV_STATE_STUB` gives: the value is zero, as a null link. -/
def InvState.isStub : InvState → Bool
  | .stub | .freed none => true
  | _ => false

/-- `struct ntb_network_inventory` without its link.  `none` in a field means that nothing was
written to it since the allocation. -/
structure Inventory where
  state : InvState := .freed none
  type : Option InvType := none
  hash : Hash := zeroHash
  /-- The first word of the union: the monotonic `last_request_time` of a stub and the `timestamp`
  of the others. -/
  time : Int := 0
  /-- The pointer behind it, which is null when the blob is on the disk only. -/
  blob : Option (Option Blob) := none
  deriving DecidableEq, Repr

/-- The pointers that are handed to the hash table: to an inventory, or to its hash field. -/
inductive Ptr where
  | inventory (a : Nat)
  | hashField (a : Nat)
  deriving DecidableEq, Repr

/-- The inventory a pointer points into. -/
def Ptr.slice : Ptr → Nat
  | .inventory a => a
  | .hashField a => a

/-! ## 2. The network -/

/-- `enum ntb_network_peer_state` -/
inductive PeerState where
  | awaitingVerackOut | awaitingVersionOut | awaitingVersionIn | awaitingVerackIn | connected
  deriving DecidableEq, Repr

/-- `enum ntb_network_direction` -/
inductive Direction where
  | outgoing | incoming
  deriving DecidableEq, Repr

/-- `struct ntb_network_peer` -/
structure Peer where
  id : Nat
  state : PeerState
  direction : Direction
  /-- `addr`: the id of an address. -/
  addr : Option Nat := none
  requestedInventories : List Nat := []
  deriving DecidableEq, Repr

/-- The calls the network makes to a connection, to the store and to the listeners of its signal. -/
inductive Effect where
  | sendVersion (peer : Nat)
  | sendVerack (peer : Nat)
  | sendAddr (peer : Nat) (addresses : List Proto.Netaddress)
  | sendInv (peer : Nat) (hashes : List Hash)
  | sendGetdata (peer : Nat) (hashes : List Hash)
  | sendBlob (peer : Nat) (hash : Hash) (blob : Option (Option Blob))
  | saveBlob (hash : Hash) (blob : Blob)
  | deleteObject (hash : Hash)
  | newObject (blob : Blob)
  | loadedBlob (hash : Hash)
  deriving DecidableEq, Repr

/-- The part of `struct ntb_network` that is about inventories, with their heap. -/
structure Inventories where
  heap : Nat → Inventory := fun _ => {}
  /-- The free slices, last freed first (`allocator->magazine`), and the first slice of the slab
  that was never handed out. -/
  magazine : List Nat := []
  nextSlice : Nat := 0
  inventoryHash : HashTable Ptr := HashTable.new
  acceptedInventories : List Nat := []
  rejectedInventories : List Nat := []
  nRejectedInventories : Int := 0

/-- `struct ntb_network`, with the calls it has made. -/
structure State extends Inventories where
  peers : List Peer := []
  nextPeer : Nat := 0
  delayedBroadcasts : List Hash := []
  book : AddrBook := {}
  nonce : Nat := 0
  log : List Effect := []

namespace State

/-- What the hash table reads behind a pointer.  Behind the hash field it reads the hash from its
ninth byte on and then the link, which is null. -/
def hashAt (nw : State) : Ptr → Hash
  | .inventory a => (nw.heap a).hash
  | .hashField a => ⟨(nw.heap a).hash.val.drop 8 ++ List.replicate 8 0, by
      rw [List.length_append, List.length_drop, (nw.heap a).hash.property, List.length_replicate]⟩

def setInventory (nw : State) (a : Nat) (inv : Inventory) : State :=
  { nw with heap := Function.update nw.heap a inv }

def emit (nw : State) (effects : List Effect) : State :=
  { nw with log := nw.log ++ effects }

/-- `ntb_slice_alloc`: the new slice still has the bytes of the last one. -/
def alloc (nw : State) : Nat × State :=
  match nw.magazine with
  | a :: rest => (a, { nw with magazine := rest })
  | [] => (nw.nextSlice, { nw with nextSlice := nw.nextSlice + 1 })

/-- `free_inventory`: `ntb_slice_free` writes the link of the magazine over the first two fields. -/
def freeInventory (nw : State) (a : Nat) : State :=
  { nw.setInventory a { nw.heap a with state := .freed nw.magazine.head?, type := none } with
    magazine := a :: nw.magazine }

/-- `ntb_list_remove` on the link of an inventory, which is in at most one list. -/
def listRemove (nw : State) (a : Nat) : State :=
  { nw with
    peers := nw.peers.map fun peer =>
      { peer with requestedInventories := peer.requestedInventories.erase a }
    acceptedInventories := nw.acceptedInventories.erase a
    rejectedInventories := nw.rejectedInventories.erase a }

/-- `ntb_hash_table_get` -/
def hashGet (nw : State) (hash : Hash) : Option Nat :=
  (nw.inventoryHash.get nw.hashAt hash).map Ptr.slice

/-- `ntb_hash_table_set` with an inventory. -/
def hashSet (nw : State) (a : Nat) : State :=
  { nw with inventoryHash := (nw.inventoryHash.set nw.hashAt (.inventory a)).2 }

/-- `ntb_hash_table_remove`: the hash is read behind the pointer. -/
def hashRemove (nw : State) (p : Ptr) : State :=
  { nw with inventoryHash := (nw.inventoryHash.remove p (nw.hashAt p)).2 }

def findPeer (nw : State) (id : Nat) : Option Peer := nw.peers.find? (·.id = id)

def updatePeer (nw : State) (id : Nat) (f : Peer → Peer) : State :=
  { nw with peers := nw.peers.map fun peer => if peer.id = id then f peer else peer }

/-- All requested inventories, peer by peer. -/
def requested (nw : State) : List Nat := nw.peers.flatMap (·.requestedInventories)

/-- Every inventory that is in a list, as often as it is. -/
def linked (nw : State) : List Nat :=
  nw.requested ++ nw.acceptedInventories ++ nw.rejectedInventories

/-- The slices that are not in use. -/
def Free (nw : State) (a : Nat) : Prop := a ∈ nw.magazine ∨ nw.nextSlice ≤ a

end State

end Notbit.Network
