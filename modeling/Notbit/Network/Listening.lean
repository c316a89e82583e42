import Notbit.Network.Ties

/-!
# Listening — the limit of incoming connections (`ntb-network.c`)

A listen socket is polled while there is room for one more incoming peer.  `add_peer` updates the
sockets before its caller counts the new peer, so that the connection that takes the last place
leaves the sockets polled.
-/

open Notbit.Proto Runs

namespace Notbit.Network

/-- The limit is kept, and the sockets are polled if it is not reached. -/
def AddrBook.Polled (book : AddrBook) : Prop :=
  book.nIncomingPeers ≤ maxIncomingPeers ∧
    ∀ polled ∈ book.listenSockets, (polled = true ↔ book.nIncomingPeers < maxIncomingPeers)

/-- The part of the address book that the limit has to do with. -/
def AddrBook.ears (book : AddrBook) : Int × List Bool := (book.nIncomingPeers, book.listenSockets)

/-- A connection is accepted only while there is room for two. -/
def LeavesRoom (nw : State) : Event → Prop
  | .accept _ => nw.book.nIncomingPeers + 1 < maxIncomingPeers
  | _ => True

namespace AddrBook

variable {book book' : AddrBook}

theorem Polled.of_ears (h : book.Polled) (hears : book'.ears = book.ears) : book'.Polled := by
  obtain ⟨hcount, hsockets⟩ := Prod.mk.inj hears
  rw [Polled, hcount, hsockets]
  exact h

theorem Polled.of_ties {nw nw' : State} (h : nw.book.Polled) (hties : nw'.ties = nw.ties) :
    nw'.book.Polled := by
  have hbook : nw'.book = nw.book := congrArg Ties.book hties
  rw [hbook]
  exact h

theorem polled_update (h : book.nIncomingPeers ≤ maxIncomingPeers) :
    book.updateAllListenSocketSources.Polled := by
  refine ⟨h, ?_⟩
  intro polled hpolled
  obtain ⟨_, -, rfl⟩ := List.mem_map.mp hpolled
  exact decide_eq_true_iff

theorem ears_maybeQueueConnect (book : AddrBook) (useIdle : Bool) :
    (book.maybeQueueConnect useIdle).ears = book.ears := by
  unfold maybeQueueConnect
  split_ifs <;> rfl

theorem ears_addAddr (now timestamp : Int) (stream services : Nat) (address : Netaddress) :
    (book.addAddr now timestamp stream services address).1.ears = book.ears := by
  refine addAddr_cases (P := fun book' => book'.ears = book.ears) now timestamp rfl ?_ ?_
  · exact fun _ _ => rfl
  · exact fun _ => ears_maybeQueueConnect _ true

end AddrBook

namespace State

variable {nw nw' : State} {ssl : OpenSSL}

/-! ## 1. Steps -/

theorem polled_connectQueueCb (h : nw.book.Polled) {now rand : Nat} {ok : Bool}
    (hs : nw.connectQueueCb now rand ok = some nw') : nw'.book.Polled := by
  unfold connectQueueCb at hs
  dsimp only at hs
  split at hs
  · cases hs
    exact h.of_ears rfl
  · split at hs
    · cases hs
      exact h.of_ears (AddrBook.ears_maybeQueueConnect nw.book false)
    · obtain ⟨addr, -, hs⟩ := Option.bind_eq_some_iff.mp hs
      cases ok with
      | false =>
        cases hs
        exact h.of_ears rfl
      | true =>
        cases hs
        have hupdated : nw.book.updateAllListenSocketSources.Polled := AddrBook.polled_update h.1
        exact hupdated.of_ears rfl

theorem polled_removePeer (h : nw.book.Polled) (peer : Peer) : (nw.removePeer peer).book.Polled := by
  have hbook : (peer.requestedInventories.foldl dropInventory nw).book = nw.book :=
    congrArg Ties.book (ties_foldl_dropInventory peer.requestedInventories nw)
  have hcount := h.1
  apply AddrBook.polled_update
  rw [hbook, (Prod.mk.inj (AddrBook.ears_maybeQueueConnect _ true)).1]
  cases peer.addr with
  | none =>
    cases peer.direction with
    | outgoing => exact hcount
    | incoming =>
      show nw.book.nIncomingPeers - 1 ≤ _
      omega
  | some id =>
    cases peer.direction with
    | outgoing => exact hcount
    | incoming =>
      show nw.book.nIncomingPeers - 1 ≤ _
      omega

theorem ears_handleVersion {peer : Peer} {nonce version : Nat} (hnonce : nonce ≠ nw.nonce)
    (hversion : version = protoVersion) (now timestamp : Int) (stream services : Nat)
    (address : Netaddress) :
    (nw.handleVersion peer now nonce version timestamp stream services address).book.ears =
      nw.book.ears := by
  have hclaim : ∀ (nw : State) (addr : Option Nat),
      (nw.claimAddr peer addr).book.ears = nw.book.ears := by
    intro nw addr
    unfold claimAddr
    split <;> rfl
  have hanswer : ∀ nw : State, (nw.answerVersion peer now).book = nw.book := by
    intro nw
    unfold answerVersion
    cases peer.state <;> rfl
  rw [handleVersion_of_ok hnonce hversion, hanswer, hclaim]
  exact AddrBook.ears_addAddr now timestamp stream services address

theorem polled_step (h : nw.book.Polled) {e : Event} (hroom : LeavesRoom nw e)
    (hs : step ssl nw e = some nw') : nw'.book.Polled := by
  cases e with
  | connectQueue monotonic rand ok =>
    rw [step] at hs
    split at hs
    · exact polled_connectQueueCb h hs
    · cases hs
  | accept socket =>
    rw [step] at hs
    split at hs
    · cases hs
      -- the sockets stay polled, and there is still room
      have hlt : nw.book.nIncomingPeers + 1 < maxIncomingPeers := hroom
      have hbefore : nw.book.nIncomingPeers < maxIncomingPeers := by omega
      have hupdated : nw.book.updateAllListenSocketSources.Polled := AddrBook.polled_update h.1
      refine ⟨le_of_lt hlt, ?_⟩
      intro polled hpolled
      rw [hupdated.2 polled hpolled]
      exact iff_of_true hbefore hlt
    · cases hs
  | error peer =>
    obtain ⟨peer, -, rfl⟩ := Option.map_eq_some_iff.mp hs
    exact polled_removePeer h peer
  | version peer now nonce version timestamp stream services address =>
    obtain ⟨peer, -, rfl⟩ := Option.map_eq_some_iff.mp hs
    by_cases hbad : nonce = nw.nonce ∨ version ≠ protoVersion
    · rw [handleVersion_of_not_ok hbad]
      exact polled_removePeer h peer
    · rw [not_or, not_not] at hbad
      exact h.of_ears (ears_handleVersion hbad.1 hbad.2 _ _ _ _ _)
  | verack peer now =>
    obtain ⟨peer, -, rfl⟩ := Option.map_eq_some_iff.mp hs
    have hbook : (nw.handleVerack peer now).book = nw.book := by
      unfold handleVerack
      cases peer.state <;> rfl
    rw [hbook]
    exact h
  | addr peer now timestamp stream services address =>
    obtain ⟨peer, -, rfl⟩ := Option.map_eq_some_iff.mp hs
    split
    · exact h.of_ears (AddrBook.ears_addAddr _ _ _ _ _)
    · exact h
  | inv peer monotonic hashes => exact h.of_ties (ties_step rfl hs)
  | getdata peer hashes => exact h.of_ties (ties_step rfl hs)
  | object peer now blob => exact h.of_ties (ties_step rfl hs)
  | addBlob now blob flags => exact h.of_ties (ties_step rfl hs)
  | addObjectFromData now blob flags => exact h.of_ties (ties_step rfl hs)
  | delayedBroadcast i => exact h.of_ties (ties_step rfl hs)
  | loadBlob type hash timestamp => exact h.of_ties (ties_step rfl hs)
  | gc now monotonic =>
    cases hs
    have hgc : { nw with book := nw.book.gcAddrs now }.book.Polled := h.of_ears rfl
    exact hgc.of_ties (ties_gcTimeoutCb nw now monotonic)
  | loadAddr now timestamp stream services address =>
    cases hs
    exact h.of_ears (AddrBook.ears_addAddr _ _ _ _ _)
  | addPeerAddress address =>
    cases hs
    exact h.of_ears rfl
  | addListenAddress =>
    cases hs
    refine ⟨h.1, ?_⟩
    intro polled hpolled
    rcases List.mem_cons.mp hpolled with rfl | hpolled
    · exact decide_eq_true_iff
    · exact h.2 polled hpolled
  | listenError socket =>
    cases hs
    exact ⟨h.1, fun polled hpolled => h.2 polled (List.mem_of_mem_eraseIdx hpolled)⟩
  | storeLoaded =>
    cases hs
    exact h.of_ears (AddrBook.ears_maybeQueueConnect nw.book true)
  | dnsAddress address =>
    rw [step] at hs
    split at hs
    · cases hs
      exact h.of_ears rfl
    · cases hs
      exact h
  | useOnlyExplicitAddresses value =>
    cases hs
    exact h.of_ears (AddrBook.ears_maybeQueueConnect _ true)
  | saveAddrList =>
    cases hs
    exact h.of_ears rfl

/-- The connection that takes the last place leaves its socket polled. -/
theorem not_polled_step (h : nw.book.Polled) {e : Event} (hroom : ¬ LeavesRoom nw e)
    (hs : step ssl nw e = some nw') : ¬ nw'.book.Polled := by
  cases e with
  | accept socket =>
    have hfull : ¬ nw.book.nIncomingPeers + 1 < maxIncomingPeers := hroom
    rw [step] at hs
    split at hs
    · rename_i hsocket
      cases hs
      have hmem := List.mem_of_getElem? hsocket
      have hbefore := (h.2 true hmem).mp rfl
      intro hafter
      have hpolled : true ∈ nw.acceptCb.book.listenSockets :=
        List.mem_map.mpr ⟨true, hmem, decide_eq_true hbefore⟩
      exact hfull ((hafter.2 true hpolled).mp rfl)
    · cases hs
  | _ => exact absurd trivial hroom

theorem polled_new (nonce : Nat) (defaultAddrs : List Netaddress) :
    (State.new nonce defaultAddrs).book.Polled := by
  have hloop : ∀ book : AddrBook, (defaultAddrs.foldl (fun (book : AddrBook) address =>
      book.newAddr .default address 0 1 1) book).ears = book.ears := by
    induction defaultAddrs with
    | nil => exact fun _ => rfl
    | cons address defaultAddrs ih => exact fun book => ih _
  have hempty : AddrBook.Polled {} := ⟨by decide, by simp⟩
  refine hempty.of_ears ?_
  exact (AddrBook.ears_maybeQueueConnect _ true).trans (hloop {})

end State

/-! ## 2. All runs -/

/-- The limit of incoming connections is kept in all states of a run, and the listen sockets are
polled exactly while it is not reached, if and only if no connection takes the last place. -/
theorem listening_polled_iff (ssl : OpenSSL) (nonce : Nat) (defaultAddrs : List Netaddress)
    (events : List Event) :
    (∀ pre, pre <+: events → (run (step ssl) (State.new nonce defaultAddrs) pre).book.Polled) ↔
      Along (step ssl) LeavesRoom (State.new nonce defaultAddrs) events :=
  always_iff_along (I := fun nw => nw.book.Polled) (P := fun nw => nw.book.Polled) (fun _ h => h)
    (fun _ _ _ h hok hs => State.polled_step h hok hs)
    (fun _ _ _ h hbad hs => State.not_polled_step h hbad hs)
    (State.polled_new nonce defaultAddrs) events

/-- One listen socket, and nine connections to it. -/
def nineConnections : List Event := .addListenAddress :: List.replicate 9 (.accept 0)

/-- The ninth connection is accepted like the others. -/
theorem nineConnections_not_polled :
    ¬ ∀ pre, pre <+: nineConnections →
      (run (step .additive) (State.new 0 []) pre).book.Polled := by
  intro hall
  have hcount : (run (step .additive) (State.new 0 []) nineConnections).book.nIncomingPeers = 9 :=
    rfl
  have hlimit := (hall nineConnections (List.prefix_refl _)).1
  rw [hcount] at hlimit
  exact absurd hlimit (by decide)

end Notbit.Network
