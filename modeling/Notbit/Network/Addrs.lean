import Notbit.Proto.Fields

/-!
# Addrs — the list of known addresses (`ntb-network.c`)

The addresses with the counters and timers that go with them.  An address is referred to by its
`id`, which stands for the pointer to it.
-/

open Notbit.Proto

namespace Notbit.Network

/-- `enum ntb_network_addr_type` -/
inductive AddrType where
  | default | explicitlyAdded | discovered
  deriving DecidableEq, Repr

/-- `struct ntb_network_addr` -/
structure Addr where
  id : Nat
  address : Netaddress
  advertiseTime : Int
  stream : Nat
  services : Nat
  lastConnectTime : Nat
  connected : Bool
  type : AddrType
  deriving DecidableEq, Repr

/-- `NTB_NETWORK_NUM_OUTGOING_PEERS` -/
def numOutgoingPeers : Int := 8

/-- `NTB_NETWORK_MAX_INCOMING_PEERS` -/
def maxIncomingPeers : Int := 8

/-- `NTB_NETWORK_MAX_ADDR_AGE`, in seconds. -/
def maxAddrAge : Int := 2 * 60 * 60

/-- `NTB_NETWORK_MIN_RECONNECT_TIME`, in microseconds. -/
def minReconnectTime : Nat := 60 * 1000000

/-- `RAND_MAX` of the C library. -/
def randMax : Nat := 2 ^ 31 - 1

/-- The part of `struct ntb_network` that is about addresses and connections. -/
structure AddrBook where
  addrs : List Addr := []
  nextId : Nat := 0
  nOutgoingPeers : Int := 0
  nIncomingPeers : Int := 0
  nUnconnectedAddrs : Int := 0
  onlyUseExplicitAddresses : Bool := false
  /-- `connect_queue_source`, with `connect_queue_source_is_idle`. -/
  connectQueueSource : Option Bool := none
  /-- Whether `save_addr_list_source` is set. -/
  saveAddrListSource : Bool := false
  /-- For each listen socket whether it has a source. -/
  listenSockets : List Bool := []

namespace AddrBook

/-- `maybe_queue_connect` -/
def maybeQueueConnect (book : AddrBook) (useIdle : Bool) : AddrBook :=
  if book.nOutgoingPeers ≥ numOutgoingPeers then book
  else if book.nUnconnectedAddrs ≤ 0 then book
  else { book with connectQueueSource := some useIdle }

/-- `update_all_listen_socket_sources` -/
def updateAllListenSocketSources (book : AddrBook) : AddrBook :=
  { book with
    listenSockets := book.listenSockets.map fun _ => book.nIncomingPeers < maxIncomingPeers }

/-- `find_address` -/
def findAddress (book : AddrBook) (address : Netaddress) : Option Addr :=
  book.addrs.find? fun addr => addr.address.host = address.host ∧ addr.address.port = address.port

def update (book : AddrBook) (id : Nat) (f : Addr → Addr) : AddrBook :=
  { book with addrs := book.addrs.map fun addr => if addr.id = id then f addr else addr }

/-- `can_connect_to_addr` -/
def canConnectToAddr (book : AddrBook) (now : Nat) (addr : Addr) : Bool :=
  !addr.connected &&
  !((now + 2 ^ 64 - addr.lastConnectTime) % 2 ^ 64 < minReconnectTime) &&
  !(book.onlyUseExplicitAddresses && addr.type != .explicitlyAdded)

/-- The address `connect_queue_cb` picks: it counts down over the addresses that can be connected
to, from a number between zero and their count. -/
def chooseAddr (book : AddrBook) (now rand : Nat) : Option Addr :=
  let candidates := book.addrs.filter (book.canConnectToAddr now)
  candidates[rand * candidates.length / randMax]?

/-- `new_addr`; the caller fills in the fields that come after the type. -/
def newAddr (book : AddrBook) (type : AddrType) (address : Netaddress) (advertiseTime : Int)
    (stream services : Nat) : AddrBook :=
  { book with
    addrs := { id := book.nextId, address, advertiseTime, stream, services,
               lastConnectTime := 0, connected := false, type } :: book.addrs
    nextId := book.nextId + 1
    nUnconnectedAddrs := book.nUnconnectedAddrs + 1 }

/-- `add_addr`: the address it returns, and the address it broadcasts. -/
def addAddr (book : AddrBook) (now timestamp : Int) (stream services : Nat)
    (address : Netaddress) : AddrBook × Option Nat × Option Netaddress :=
  if now - timestamp ≥ maxAddrAge then (book, none, none)
  else
    -- addresses are not advertised in the future
    let timestamp := if timestamp > now then now else timestamp
    match book.findAddress address with
    | some addr =>
      if addr.advertiseTime < timestamp then
        let book := book.update addr.id fun addr => { addr with advertiseTime := timestamp }
        ({ book with saveAddrListSource := true }, some addr.id, some addr.address)
      else (book, some addr.id, none)
    | none =>
      let book := book.newAddr .discovered address timestamp stream services
      let book := { book with saveAddrListSource := true }
      (book.maybeQueueConnect true, some (book.nextId - 1), some address)

-- What `add_addr` can do to the addresses: nothing, advertise one of them, or add one.
theorem addAddr_cases {P : AddrBook → Prop} {book : AddrBook} (now timestamp : Int)
    {stream services : Nat} {address : Netaddress} (hsame : P book)
    (hadvertise : ∀ (id : Nat) (time : Int), P { book.update id fun addr =>
      { addr with advertiseTime := time } with saveAddrListSource := true })
    (hnew : ∀ time : Int, P (maybeQueueConnect
      { book.newAddr .discovered address time stream services with saveAddrListSource := true }
      true)) :
    P (book.addAddr now timestamp stream services address).1 := by
  unfold addAddr
  split
  · exact hsame
  · dsimp only
    generalize (if timestamp > now then now else timestamp) = time
    cases book.findAddress address with
    | some addr =>
      dsimp only
      split
      · exact hadvertise addr.id time
      · exact hsame
    | none => exact hnew time

/-- `gc_addrs` -/
def gcAddrs (book : AddrBook) (now : Int) : AddrBook :=
  let old (addr : Addr) : Bool :=
    now - addr.advertiseTime ≥ maxAddrAge && addr.type = .discovered && !addr.connected
  { book with
    addrs := book.addrs.filter fun addr => !old addr
    nUnconnectedAddrs := book.nUnconnectedAddrs - (book.addrs.filter old).length }

end AddrBook

/-- `ntb_netaddress_is_allowed` -/
def isAllowed (address : Netaddress) : Bool :=
  let ipv4Magic : List UInt8 := [0, 0, 0, 0, 0, 0, 0, 0, 0, 0, 0xff, 0xff]
  let host := fun i => address.host.getD i 0
  if address.host.take 12 ≠ ipv4Magic then
    address.host ≠ List.replicate 15 0 ++ [1] ∧
    ¬(host 0 = 0xfe ∧ host 1 &&& 0xc0 = 0x80) ∧
    host 0 &&& 0xfe ≠ 0xfc
  else
    host 12 ≠ 127 ∧ host 12 ≠ 10 ∧
    ¬(host 12 = 172 ∧ 16 ≤ host 13 ∧ host 13 ≤ 31) ∧
    ¬(host 12 = 192 ∧ host 13 = 168)

end Notbit.Network
