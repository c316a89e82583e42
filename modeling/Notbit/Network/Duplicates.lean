import Notbit.Network.Balanced

/-!
# Duplicates — the addresses in the list of the network (`ntb-network.c`)

Addresses come from the source itself, the command line, name lookups, the store and the other
peers.  An address is looked up before it is added everywhere but in `add_addr_string`.
-/

open Notbit.Proto Runs

namespace Notbit.Network

/-! ## 1. The list of addresses -/

namespace AddrBook

variable {book : AddrBook}

def addresses (book : AddrBook) : List Netaddress := book.addrs.map (·.address)

/-- No two entries have the same host and port. -/
def Distinct (book : AddrBook) : Prop := book.addresses.Nodup

theorem findAddress_eq_none_iff {address : Netaddress} :
    book.findAddress address = none ↔ address ∉ book.addresses := by
  have hsame : ∀ addr : Addr, addr.address.host = address.host ∧
      addr.address.port = address.port ↔ addr.address = address := by
    intro addr
    cases address
    cases addr.address
    simp
  rw [findAddress, List.find?_eq_none, addresses, List.mem_map, not_exists]
  simp only [decide_eq_true_eq, hsame, not_and]

theorem addresses_newAddr (type : AddrType) (address : Netaddress) (advertiseTime : Int)
    (stream services : Nat) :
    (book.newAddr type address advertiseTime stream services).addresses =
      address :: book.addresses := rfl

theorem addresses_update {f : Addr → Addr} (hf : ∀ addr, (f addr).address = addr.address)
    (id : Nat) : (book.update id f).addresses = book.addresses := by
  simp only [addresses, update, List.map_map]
  apply List.map_congr_left
  intro addr _
  show (if addr.id = id then f addr else addr).address = addr.address
  split
  · exact hf addr
  · rfl

theorem addresses_maybeQueueConnect (useIdle : Bool) :
    (book.maybeQueueConnect useIdle).addresses = book.addresses := by
  unfold maybeQueueConnect
  split_ifs <;> rfl

-- A new address is not in the list yet, as `find_address` has just said.
theorem Distinct.newAddr (h : book.Distinct) {address : Netaddress}
    (hnew : book.findAddress address = none) (type : AddrType) (advertiseTime : Int)
    (stream services : Nat) :
    (book.newAddr type address advertiseTime stream services).Distinct :=
  List.nodup_cons.mpr ⟨findAddress_eq_none_iff.mp hnew, h⟩

theorem Distinct.of_addresses {book' : AddrBook} (h : book.Distinct)
    (haddresses : book'.addresses = book.addresses) : book'.Distinct := by
  rw [Distinct, haddresses]
  exact h

theorem Distinct.addAddr (h : book.Distinct) (now timestamp : Int) (stream services : Nat)
    (address : Netaddress) : (book.addAddr now timestamp stream services address).1.Distinct := by
  unfold AddrBook.addAddr
  split
  · exact h
  · dsimp only
    generalize (if timestamp > now then now else timestamp) = time
    cases hfind : book.findAddress address with
    | some addr =>
      dsimp only
      split
      · refine h.of_addresses ?_
        show (book.update addr.id _).addresses = book.addresses
        exact addresses_update (by exact fun _ => rfl) addr.id
      · exact h
    | none =>
      exact (h.newAddr hfind .discovered time stream services).of_addresses
        (addresses_maybeQueueConnect true)

theorem Distinct.gcAddrs (h : book.Distinct) (now : Int) : (book.gcAddrs now).Distinct :=
  List.Nodup.sublist (List.filter_sublist.map _) h

end AddrBook

/-! ## 2. Steps and runs -/

namespace State

variable {ssl : OpenSSL} {nw nw' : State}

theorem Distinct.of_ties (h : nw.book.Distinct) (hties : nw'.ties = nw.ties) :
    nw'.book.Distinct := by
  have hbook : nw'.book = nw.book := congrArg Ties.book hties
  rw [hbook]
  exact h

theorem addresses_connectQueueCb {now rand : Nat} {ok : Bool}
    (hs : nw.connectQueueCb now rand ok = some nw') :
    nw'.book.addresses = nw.book.addresses := by
  unfold connectQueueCb at hs
  dsimp only at hs
  split at hs
  · cases hs
    rfl
  · split at hs
    · cases hs
      exact AddrBook.addresses_maybeQueueConnect false
    · obtain ⟨addr, -, hs⟩ := Option.bind_eq_some_iff.mp hs
      have htime : (nw.book.update addr.id fun a => { a with lastConnectTime := now }).addresses =
          nw.book.addresses := by
        rw [AddrBook.addresses_update (by exact fun _ => rfl)]
      cases ok with
      | false =>
        cases hs
        exact htime
      | true =>
        cases hs
        refine Eq.trans ?_ htime
        show ((nw.book.update addr.id fun a => { a with lastConnectTime := now }).update
          addr.id _).addresses = _
        rw [AddrBook.addresses_update (by exact fun _ => rfl)]

theorem addresses_removePeer (peer : Peer) :
    (nw.removePeer peer).book.addresses = nw.book.addresses := by
  have hbook : (peer.requestedInventories.foldl dropInventory nw).book = nw.book :=
    congrArg Ties.book (ties_foldl_dropInventory peer.requestedInventories nw)
  have hleave : (nw.book.leave peer.link).addresses = nw.book.addresses := by
    have hupdate : ∀ id, (nw.book.update id fun addr => { addr with connected := false }).addresses =
        nw.book.addresses := fun id => AddrBook.addresses_update (by exact fun _ => rfl) id
    unfold AddrBook.leave
    cases peer.link.addr with
    | none => cases peer.link.direction <;> rfl
    | some id => cases peer.link.direction <;> exact hupdate id
  unfold removePeer
  dsimp only
  rw [hbook]
  exact (AddrBook.addresses_maybeQueueConnect true).trans hleave

theorem addresses_claimAddr (peer : Peer) (addr : Option Nat) :
    (nw.claimAddr peer addr).book.addresses = nw.book.addresses := by
  unfold claimAddr
  split
  · show (nw.book.update _ _).addresses = _
    rw [AddrBook.addresses_update (by exact fun _ => rfl)]
  · rfl

theorem book_answerVersion (peer : Peer) (now : Int) :
    (nw.answerVersion peer now).book = nw.book := by
  unfold answerVersion
  cases peer.state <;> rfl

theorem book_handleVerack (peer : Peer) (now : Int) :
    (nw.handleVerack peer now).book = nw.book := by
  unfold handleVerack
  cases peer.state <;> rfl

theorem Distinct.handleVersion (h : nw.book.Distinct) (peer : Peer) (now : Int)
    (nonce version : Nat) (timestamp : Int) (stream services : Nat) (address : Netaddress) :
    (nw.handleVersion peer now nonce version timestamp stream services address).book.Distinct := by
  by_cases hbad : nonce = nw.nonce ∨ version ≠ protoVersion
  · rw [handleVersion_of_not_ok hbad]
    exact h.of_addresses (addresses_removePeer peer)
  · rw [not_or, not_not] at hbad
    rw [handleVersion_of_ok hbad.1 hbad.2, book_answerVersion]
    have hadd := h.addAddr now timestamp stream services address
    exact hadd.of_addresses (addresses_claimAddr peer _)

end State

/-- A new address from the command line is not in the list yet. -/
def Event.Fresh (nw : State) (e : Event) : Prop :=
  ∀ address, e = .addPeerAddress address → nw.book.findAddress address = none

variable {ssl : OpenSSL} {nw nw' : State} {e : Event}

theorem Distinct.step (h : nw.book.Distinct) (hfresh : e.Fresh nw)
    (hs : step ssl nw e = some nw') : nw'.book.Distinct := by
  cases e with
  | connectQueue monotonic rand ok =>
    rw [Network.step] at hs
    split at hs
    · exact h.of_addresses (State.addresses_connectQueueCb hs)
    · cases hs
  | accept socket =>
    rw [Network.step] at hs
    split at hs
    · cases hs
      exact h
    · cases hs
  | error peer =>
    obtain ⟨peer, -, rfl⟩ := Option.map_eq_some_iff.mp hs
    exact h.of_addresses (State.addresses_removePeer peer)
  | version peer now nonce version timestamp stream services address =>
    obtain ⟨peer, -, rfl⟩ := Option.map_eq_some_iff.mp hs
    exact State.Distinct.handleVersion h _ _ _ _ _ _ _ _
  | verack peer now =>
    obtain ⟨peer, -, rfl⟩ := Option.map_eq_some_iff.mp hs
    rw [State.book_handleVerack]
    exact h
  | addr peer now timestamp stream services address =>
    obtain ⟨peer, -, rfl⟩ := Option.map_eq_some_iff.mp hs
    split
    · exact h.addAddr _ _ _ _ _
    · exact h
  | inv peer monotonic hashes => exact State.Distinct.of_ties h (State.ties_step rfl hs)
  | getdata peer hashes => exact State.Distinct.of_ties h (State.ties_step rfl hs)
  | object peer now blob => exact State.Distinct.of_ties h (State.ties_step rfl hs)
  | addBlob now blob flags => exact State.Distinct.of_ties h (State.ties_step rfl hs)
  | addObjectFromData now blob flags => exact State.Distinct.of_ties h (State.ties_step rfl hs)
  | delayedBroadcast i => exact State.Distinct.of_ties h (State.ties_step rfl hs)
  | loadBlob type hash timestamp => exact State.Distinct.of_ties h (State.ties_step rfl hs)
  | gc now monotonic =>
    cases hs
    have hbook : (nw.gcTimeoutCb now monotonic).book = nw.book.gcAddrs now :=
      congrArg Ties.book (State.ties_gcTimeoutCb nw now monotonic)
    rw [hbook]
    exact h.gcAddrs now
  | loadAddr now timestamp stream services address =>
    cases hs
    exact h.addAddr _ _ _ _ _
  | addPeerAddress address =>
    cases hs
    exact h.newAddr (hfresh address rfl) _ _ _ _
  | addListenAddress =>
    cases hs
    exact h
  | listenError socket =>
    cases hs
    exact h
  | storeLoaded =>
    cases hs
    exact h.of_addresses (AddrBook.addresses_maybeQueueConnect true)
  | dnsAddress address =>
    rw [Network.step] at hs
    split at hs
    next hnew =>
      cases hs
      exact h.newAddr hnew.2 _ _ _ _
    next =>
      cases hs
      exact h
  | useOnlyExplicitAddresses value =>
    cases hs
    exact h.of_addresses (AddrBook.addresses_maybeQueueConnect true)
  | saveAddrList =>
    cases hs
    exact h

theorem not_distinct_of_not_fresh (hfresh : ¬ e.Fresh nw) (hs : step ssl nw e = some nw') :
    ¬ nw'.book.Distinct := by
  unfold Event.Fresh at hfresh
  push Not at hfresh
  obtain ⟨address, rfl, hfound⟩ := hfresh
  cases hs
  intro hdistinct
  have hnew := (List.nodup_cons.mp hdistinct).1
  exact hfound (AddrBook.findAddress_eq_none_iff.mpr hnew)

/-! ## 3. The program -/

/-- An IPv4 address as it is kept, with `ipv4_magic` before it. -/
def ipv4Address (a b c d : UInt8) (port : Nat) : Netaddress where
  host := [0, 0, 0, 0, 0, 0, 0, 0, 0, 0, 0xff, 0xff, a, b, c, d]
  port := port

/-- `default_addrs` -/
def defaultAddrs : List Netaddress :=
  [ipv4Address 176 31 246 114 8444, ipv4Address 109 229 197 133 8444,
    ipv4Address 174 3 101 111 8444, ipv4Address 90 188 238 79 7829, ipv4Address 184 75 69 2 8444,
    ipv4Address 60 225 209 243 8444, ipv4Address 5 145 140 218 8444,
    ipv4Address 5 19 255 216 8444, ipv4Address 193 159 162 189 8444,
    ipv4Address 86 26 15 171 8444]

theorem addresses_new (nonce : Nat) (defaultAddrs : List Netaddress) :
    (State.new nonce defaultAddrs).book.addresses = defaultAddrs.reverse := by
  have hloop : ∀ book : AddrBook, (defaultAddrs.foldl
      (fun (book : AddrBook) address => book.newAddr .default address 0 1 1) book).addresses =
        defaultAddrs.reverse ++ book.addresses := by
    induction defaultAddrs with
    | nil => exact fun _ => rfl
    | cons address defaultAddrs ih =>
      intro book
      rw [List.foldl_cons, ih, AddrBook.addresses_newAddr, List.reverse_cons, List.append_assoc]
      rfl
  unfold State.new
  rw [AddrBook.addresses_maybeQueueConnect, hloop]
  exact List.append_nil _

theorem distinct_new (nonce : Nat) : (State.new nonce defaultAddrs).book.Distinct := by
  unfold AddrBook.Distinct
  rw [addresses_new, List.nodup_reverse]
  decide

/-- The list of addresses never has two entries with the same host and port, exactly if no address
is in the list already when it comes from the command line. -/
theorem addresses_distinct_iff (ssl : OpenSSL) (nonce : Nat) (events : List Event) :
    (∀ pre, pre <+: events →
        (run (step ssl) (State.new nonce defaultAddrs) pre).book.Distinct) ↔
      Along (step ssl) (fun nw e => e.Fresh nw) (State.new nonce defaultAddrs) events :=
  always_iff_along (I := fun nw => nw.book.Distinct) (P := fun nw => nw.book.Distinct)
    (fun _ h => h)
    (fun _ _ _ h hfresh hs => Distinct.step h hfresh hs)
    (fun _ _ _ _ hfresh hs => not_distinct_of_not_fresh hfresh hs) (distinct_new nonce) events

/-- The first of the default addresses given on the command line. -/
theorem addPeerAddress_not_distinct :
    let events : List Event := [.addPeerAddress (ipv4Address 176 31 246 114 8444)]
    ¬ ∀ pre, pre <+: events →
      (run (step OpenSSL.additive) (State.new 0 defaultAddrs) pre).book.Distinct := by
  intro events hall
  have hnew := (List.nodup_cons.mp (hall events List.prefix_rfl)).1
  apply hnew
  show ipv4Address 176 31 246 114 8444 ∈ (State.new 0 defaultAddrs).book.addresses
  rw [addresses_new]
  decide

end Notbit.Network
