import Notbit.Network.Handshake

/-!
# ConnectQueue — looking for peers to connect to (`ntb-network.c`)

`connect_queue_cb` counts the addresses that it can connect to, scales a random number to that
count, and goes over the list again to skip as many of them.  The source that calls it is removed
when there is nothing to do and is queued again by whatever changes the counters.
-/

open Notbit.Proto Runs

namespace Notbit.Network

/-! ## 1. The choice of an address -/

/-- The second loop of `connect_queue_cb`: the number is counted down over the addresses that can
be connected to.  There is no result when the loop ends at the head of the list. -/
def skipToAddr (canConnect : Addr → Bool) : List Addr → Int → Option Addr
  | [], _ => none
  | addr :: addrs, addrNum =>
    if canConnect addr then
      if addrNum ≤ 0 then some addr else skipToAddr canConnect addrs (addrNum - 1)
    else skipToAddr canConnect addrs addrNum

theorem skipToAddr_eq (canConnect : Addr → Bool) (addrs : List Addr) (n : Nat) :
    skipToAddr canConnect addrs n = (addrs.filter canConnect)[n]? := by
  induction addrs generalizing n with
  | nil => rfl
  | cons addr addrs ih =>
    rw [skipToAddr]
    by_cases hcan : canConnect addr
    · rw [if_pos hcan, List.filter_cons_of_pos hcan]
      cases n with
      | zero => rfl
      | succ n =>
        rw [if_neg (by omega), List.getElem?_cons_succ, ← ih]
        congr 1
        omega
    · rw [if_neg hcan, List.filter_cons_of_neg hcan]
      exact ih n

-- A number below `m` is scaled to one below `n`, but `m` itself is scaled to `n`.
theorem scaled_lt_iff {r n m : Nat} (hn : 0 < n) (hm : 0 < m) : r * n / m < n ↔ r < m := by
  rw [Nat.div_lt_iff_lt_mul hm, Nat.mul_comm n m]
  exact Nat.mul_lt_mul_right hn

-- Every number below `n` is met when there are enough numbers to scale.
theorem exists_scaled_eq {j n m : Nat} (hj : j < n) (hnm : n ≤ m) : ∃ r ≤ m, r * n / m = j := by
  have hn : 0 < n := by omega
  have hmod := Nat.div_add_mod (j * m + (n - 1)) n
  have hlt := Nat.mod_lt (j * m + (n - 1)) hn
  have hnext : (j + 1) * m = j * m + m := Nat.succ_mul j m
  have hlast : (j + 1) * m ≤ n * m := Nat.mul_le_mul_right m hj
  refine ⟨(j * m + (n - 1)) / n, ?_, ?_⟩
  · rw [Nat.div_le_iff_le_mul_add_pred hn]
    omega
  · rw [Nat.div_eq_of_lt_le]
    · rw [Nat.mul_comm _ n]
      omega
    · rw [Nat.mul_comm _ n]
      omega

namespace AddrBook

variable {book : AddrBook} {now rand : Nat}

/-- The number that is counted down. -/
def addrNum (book : AddrBook) (now rand : Nat) : Nat :=
  rand * (book.addrs.filter (book.canConnectToAddr now)).length / randMax

theorem chooseAddr_eq (book : AddrBook) (now rand : Nat) :
    book.chooseAddr now rand =
      skipToAddr (book.canConnectToAddr now) book.addrs (book.addrNum now rand) :=
  (skipToAddr_eq _ _ _).symm

/-- With an address to connect to, the loop stops at one exactly when the random number is not the
greatest there is; and every address can be picked. -/
theorem skipToAddr_iff (book : AddrBook) (now rand : Nat)
    (hcan : ∃ addr ∈ book.addrs, book.canConnectToAddr now addr = true) :
    ((∃ addr ∈ book.addrs, book.canConnectToAddr now addr = true ∧
        skipToAddr (book.canConnectToAddr now) book.addrs (book.addrNum now rand) = some addr) ↔
      rand < randMax) ∧
    (book.addrs.length < randMax → ∀ addr ∈ book.addrs, book.canConnectToAddr now addr = true →
      ∃ rand' ≤ randMax,
        skipToAddr (book.canConnectToAddr now) book.addrs (book.addrNum now rand') = some addr) := by
  have hmax : 0 < randMax := by decide
  simp only [skipToAddr_eq, addrNum]
  generalize hc : book.addrs.filter (book.canConnectToAddr now) = candidates
  have hmem : ∀ addr, addr ∈ candidates ↔
      addr ∈ book.addrs ∧ book.canConnectToAddr now addr = true := by
    intro addr
    rw [← hc, List.mem_filter]
  have hpos : 0 < candidates.length := by
    obtain ⟨addr, hin, hok⟩ := hcan
    exact List.length_pos_of_mem ((hmem addr).mpr ⟨hin, hok⟩)
  constructor
  · rw [← scaled_lt_iff hpos hmax]
    constructor
    · rintro ⟨addr, -, -, hget⟩
      exact (List.getElem?_eq_some_iff.mp hget).1
    · intro hlt
      obtain ⟨hin, hok⟩ := (hmem _).mp (List.getElem_mem hlt)
      exact ⟨_, hin, hok, List.getElem?_eq_getElem hlt⟩
  · intro hshort addr hin hok
    have hle : candidates.length ≤ book.addrs.length := hc ▸ List.length_filter_le _ _
    obtain ⟨j, hj, hget⟩ := List.getElem_of_mem ((hmem addr).mpr ⟨hin, hok⟩)
    obtain ⟨rand', hle', hscaled⟩ := exists_scaled_eq hj (by omega : candidates.length ≤ randMax)
    exact ⟨rand', hle', by rw [hscaled, List.getElem?_eq_getElem hj, hget]⟩

def sampleAddr (id : Nat) (connected : Bool) : Addr where
  id := id
  address := { host := [], port := 8444 }
  advertiseTime := 0
  stream := 1
  services := 1
  lastConnectTime := 0
  connected := connected
  type := .default

/-- Four addresses, a minute after the clock started.  The second is connected, the others have not
been tried. -/
def fourAddrs : AddrBook where
  addrs := [sampleAddr 0 false, sampleAddr 1 true, sampleAddr 2 false, sampleAddr 3 false]
  nUnconnectedAddrs := 3

-- Two addresses are skipped, and the one that is connected is passed over.
theorem skipToAddr_iff_fourAddrs :
    ((∃ addr ∈ fourAddrs.addrs, fourAddrs.canConnectToAddr minReconnectTime addr = true ∧
        skipToAddr (fourAddrs.canConnectToAddr minReconnectTime) fourAddrs.addrs
          (fourAddrs.addrNum minReconnectTime 1500000000) = some addr) ↔ 1500000000 < randMax) ∧
    (fourAddrs.addrs.length < randMax → ∀ addr ∈ fourAddrs.addrs,
      fourAddrs.canConnectToAddr minReconnectTime addr = true → ∃ rand' ≤ randMax,
        skipToAddr (fourAddrs.canConnectToAddr minReconnectTime) fourAddrs.addrs
          (fourAddrs.addrNum minReconnectTime rand') = some addr) ∧
    skipToAddr (fourAddrs.canConnectToAddr minReconnectTime) fourAddrs.addrs
      (fourAddrs.addrNum minReconnectTime 1500000000) = some (sampleAddr 3 false) := by
  obtain ⟨hiff, hall⟩ := skipToAddr_iff fourAddrs minReconnectTime 1500000000
    ⟨_, List.mem_cons_self, by decide⟩
  exact ⟨hiff, hall, by decide⟩

-- The greatest random number skips all the addresses there are.
theorem greatest_rand_skips_all :
    ¬ ∀ (book : AddrBook) (now rand : Nat), rand ≤ randMax →
      (∃ addr ∈ book.addrs, book.canConnectToAddr now addr = true) →
      ∃ addr ∈ book.addrs, book.canConnectToAddr now addr = true ∧
        skipToAddr (book.canConnectToAddr now) book.addrs (book.addrNum now rand) = some addr := by
  intro h
  obtain ⟨addr, -, -, hskip⟩ := h fourAddrs minReconnectTime randMax (le_refl _)
    ⟨_, List.mem_cons_self, by decide⟩
  have hnone : skipToAddr (fourAddrs.canConnectToAddr minReconnectTime) fourAddrs.addrs
      (fourAddrs.addrNum minReconnectTime randMax) = none := by decide
  rw [hnone] at hskip
  cases hskip

end AddrBook

/-! ## 2. The source -/

/-- As long as there are too few outgoing peers and an address to try, somebody will try it. -/
def AddrBook.Queued (book : AddrBook) : Prop :=
  book.nOutgoingPeers < numOutgoingPeers → 0 < book.nUnconnectedAddrs →
    book.connectQueueSource.isSome = true

/-- What the daemon does before it enters the main loop: it adds the addresses of the command line,
loads the store and asks the name servers. -/
def Event.isStartup : Event → Bool
  | .addListenAddress | .addPeerAddress _ | .loadBlob .. | .loadAddr .. | .dnsAddress _
  | .storeLoaded => true
  | _ => false

namespace AddrBook

variable {book book' : AddrBook}

theorem queued_maybeQueueConnect (book : AddrBook) (useIdle : Bool) :
    (book.maybeQueueConnect useIdle).Queued := by
  intro hpeers haddrs
  unfold maybeQueueConnect at *
  split_ifs at * with hfull hnone
  · omega
  · omega
  · rfl

theorem queued_of_source (h : book.connectQueueSource.isSome = true) : book.Queued := fun _ _ => h

-- More peers and fewer addresses do no harm.
theorem Queued.mono (h : book.Queued) (hpeers : book.nOutgoingPeers ≤ book'.nOutgoingPeers)
    (haddrs : book'.nUnconnectedAddrs ≤ book.nUnconnectedAddrs)
    (hsource : book'.connectQueueSource = book.connectQueueSource) : book'.Queued := by
  intro hpeers' haddrs'
  rw [hsource]
  exact h (by omega) (by omega)

theorem Queued.addAddr (h : book.Queued) (now timestamp : Int) (stream services : Nat)
    (address : Netaddress) : (book.addAddr now timestamp stream services address).1.Queued := by
  apply addAddr_cases now timestamp
  · exact h
  · exact fun _ _ => h
  · exact fun _ => queued_maybeQueueConnect _ true

end AddrBook

namespace State

variable {nw nw' : State} {ssl : OpenSSL}

theorem Queued.of_ties (h : nw.book.Queued) (hties : nw'.ties = nw.ties) : nw'.book.Queued := by
  have hbook : nw'.book = nw.book := congrArg Ties.book hties
  rwa [hbook]

/-- The callback gives up its source only when the counters say so. -/
theorem queued_connectQueueCb (hsource : nw.book.connectQueueSource.isSome = true)
    {now rand : Nat} {ok : Bool} (hs : nw.connectQueueCb now rand ok = some nw') :
    nw'.book.Queued := by
  unfold connectQueueCb at hs
  dsimp only at hs
  split at hs
  next hlimit =>
    cases hs
    intro hpeers haddrs
    simp only at hpeers haddrs
    omega
  next =>
    split at hs
    next =>
      cases hs
      exact AddrBook.queued_maybeQueueConnect nw.book false
    next =>
      obtain ⟨addr, -, hs⟩ := Option.bind_eq_some_iff.mp hs
      cases ok with
      | false =>
        cases hs
        exact AddrBook.queued_of_source hsource
      | true =>
        cases hs
        exact AddrBook.queued_of_source hsource

theorem queued_removePeer (nw : State) (peer : Peer) : (nw.removePeer peer).book.Queued :=
  (AddrBook.queued_maybeQueueConnect _ true).mono (le_refl _) (le_refl _) rfl

theorem queued_handleVersion (h : nw.book.Queued) (peer : Peer) (now : Int) (nonce version : Nat)
    (timestamp : Int) (stream services : Nat) (address : Netaddress) :
    (nw.handleVersion peer now nonce version timestamp stream services address).book.Queued := by
  by_cases hbad : nonce = nw.nonce ∨ version ≠ protoVersion
  · rw [handleVersion_of_not_ok hbad]
    exact queued_removePeer nw peer
  · rw [not_or, not_not] at hbad
    have hanswer : ∀ nw : State, (nw.answerVersion peer now).book = nw.book := by
      intro nw
      unfold answerVersion
      cases peer.state <;> rfl
    -- the peer may claim an address, which is then no longer free
    have hclaim : ∀ (nw : State) (addr : Option Nat), nw.book.Queued →
        (nw.claimAddr peer addr).book.Queued := by
      intro nw addr h
      unfold claimAddr
      split
      · exact h.mono (le_refl _) (by simp only; omega) rfl
      · exact h
    rw [handleVersion_of_ok hbad.1 hbad.2, hanswer]
    exact hclaim _ _ (h.addAddr now timestamp stream services address)

theorem queued_step (h : nw.book.Queued) {e : Event} (he : e.isStartup = false)
    (hs : step ssl nw e = some nw') : nw'.book.Queued := by
  cases e with
  | connectQueue monotonic rand ok =>
    rw [step] at hs
    split at hs
    next hsource => exact queued_connectQueueCb hsource hs
    next => cases hs
  | accept socket =>
    rw [step] at hs
    split at hs
    next =>
      cases hs
      exact h
    next => cases hs
  | error peer =>
    obtain ⟨peer, -, rfl⟩ := Option.map_eq_some_iff.mp hs
    exact queued_removePeer nw peer
  | version peer now nonce version timestamp stream services address =>
    obtain ⟨peer, -, rfl⟩ := Option.map_eq_some_iff.mp hs
    exact queued_handleVersion h peer now nonce version timestamp stream services address
  | verack peer now =>
    obtain ⟨peer, -, rfl⟩ := Option.map_eq_some_iff.mp hs
    have hbook : (nw.handleVerack peer now).book = nw.book := by
      unfold handleVerack
      cases peer.state <;> rfl
    rwa [hbook]
  | addr peer now timestamp stream services address =>
    obtain ⟨peer, -, rfl⟩ := Option.map_eq_some_iff.mp hs
    split
    · exact h.addAddr now timestamp stream services address
    · exact h
  | inv peer monotonic hashes => exact Queued.of_ties h (ties_step rfl hs)
  | getdata peer hashes => exact Queued.of_ties h (ties_step rfl hs)
  | object peer now blob => exact Queued.of_ties h (ties_step rfl hs)
  | addBlob now blob flags => exact Queued.of_ties h (ties_step rfl hs)
  | addObjectFromData now blob flags => exact Queued.of_ties h (ties_step rfl hs)
  | delayedBroadcast i => exact Queued.of_ties h (ties_step rfl hs)
  | gc now monotonic =>
    cases hs
    have hgc : { nw with book := nw.book.gcAddrs now }.book.Queued :=
      h.mono (le_refl _) (by simp only [AddrBook.gcAddrs]; omega) rfl
    exact Queued.of_ties hgc (ties_gcTimeoutCb nw now monotonic)
  | listenError socket =>
    cases hs
    exact h
  | useOnlyExplicitAddresses value =>
    cases hs
    exact AddrBook.queued_maybeQueueConnect _ true
  | saveAddrList =>
    cases hs
    exact h
  | _ => cases he

end State

-- Once the store is loaded, the source is there whenever it is needed.
theorem connect_queued (ssl : OpenSSL) (nonce : Nat) (defaultAddrs : List Netaddress)
    (startup events : List Event) (hevents : ∀ e ∈ events, e.isStartup = false) :
    (run (step ssl) (State.new nonce defaultAddrs)
      (startup ++ .storeLoaded :: events)).book.Queued := by
  rw [run_append, run_cons]
  exact invariant_along (P := fun nw : State => nw.book.Queued)
    (fun _ _ _ h he hs => State.queued_step h he hs) (along_of_forall hevents)
    (AddrBook.queued_maybeQueueConnect _ true)

-- One address to start from, an attempt to connect to it, and the end of that connection.
theorem connect_queued_sample :
    (run (step .additive) (State.new 7 [{ host := [], port := 8444 }])
      ([] ++ .storeLoaded :: [.connectQueue minReconnectTime 0 true, .error 0])).book.Queued :=
  connect_queued .additive 7 [{ host := [], port := 8444 }] []
    [.connectQueue minReconnectTime 0 true, .error 0] (by simp [Event.isStartup])

end Notbit.Network
