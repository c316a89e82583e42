import Notbit.Lib.Keyed
import Notbit.Network.Consistent

/-!
# Peers — who is connected to which address (`ntb-network.c`)

The numbers of peers and of unconnected addresses, the `connected` flag of an address and the
pointer of a peer to its address are kept by hand, in five functions.  `Linked` says how they fit
together; it is about the links of the peers and the address book only, so that everything that
happens to inventories leaves it alone.
-/

open Notbit.Proto Keyed Runs

namespace Notbit.Network

/-! ## 1. Assertions -/

namespace AddrBook

/-- `remove_addr`; there is no result when its assertion fails. -/
def removeAddr (book : AddrBook) (addr : Addr) : Option AddrBook :=
  if addr.connected then none
  else some { book with
    addrs := book.addrs.filter (·.id ≠ addr.id)
    nUnconnectedAddrs := book.nUnconnectedAddrs - 1 }

/-- The loop of `gc_addrs` with the assertion of `remove_addr`. -/
def gcAddrsLoop (book : AddrBook) (now : Int) : Option AddrBook :=
  book.addrs.foldlM (fun book addr =>
    if now - addr.advertiseTime ≥ maxAddrAge ∧ addr.type = .discovered ∧ addr.connected = false then
      book.removeAddr addr
    else some book) book

/-- `add_addr_string` with a string that is no address: the new address, with whatever is in its
fields, is removed again. -/
def addInvalidString (book : AddrBook) (address : Netaddress) (advertiseTime : Int)
    (stream services : Nat) : Option AddrBook := do
  let book := book.newAddr .discovered address advertiseTime stream services
  let addr ← book.addrs.head?
  book.removeAddr addr

/-- `free_addrs` -/
def freeAddrs (book : AddrBook) : Option AddrBook := book.addrs.foldlM removeAddr book

end AddrBook

/-- `free_peers` -/
def State.freePeers (nw : State) : State := nw.peers.foldl State.removePeer nw

/-- `ntb_network_free`; there is no result when an assertion fails. -/
def State.free (nw : State) : Option State := do
  let nw := nw.freePeers
  let book ← nw.book.freeAddrs
  let nw := nw.acceptedInventories.foldl State.freeInventory nw
  let nw := nw.rejectedInventories.foldl State.freeInventory nw
  if book.nOutgoingPeers = 0 ∧ book.nIncomingPeers = 0 ∧ book.nUnconnectedAddrs = 0 then
    some { nw with
      delayedBroadcasts := []
      book := { book with
        listenSockets := [], connectQueueSource := none, saveAddrListSource := false } }
  else none

/-! ## 2. Links -/

/-- What ties a peer to the addresses. -/
structure Link where
  id : Nat
  direction : Direction
  addr : Option Nat

def Peer.link (peer : Peer) : Link :=
  { id := peer.id, direction := peer.direction, addr := peer.addr }

def State.links (nw : State) : List Link := nw.peers.map Peer.link

/-- The part of the address book that the links have to do with. -/
def AddrBook.core (book : AddrBook) : List Addr × Nat × Int × Int × Int :=
  (book.addrs, book.nextId, book.nOutgoingPeers, book.nIncomingPeers, book.nUnconnectedAddrs)

/-- What `remove_peer` does to the address book before it looks for another connection. -/
def AddrBook.leave (book : AddrBook) (l : Link) : AddrBook :=
  let book := match l.addr with
    | some id =>
      { book.update id fun addr => { addr with connected := false } with
        nUnconnectedAddrs := book.nUnconnectedAddrs + 1 }
    | none => book
  match l.direction with
  | .outgoing => { book with nOutgoingPeers := book.nOutgoingPeers - 1 }
  | .incoming => { book with nIncomingPeers := book.nIncomingPeers - 1 }

structure Linked (links : List Link) (nextPeer : Nat) (book : AddrBook) : Prop where
  ids : (links.map Link.id).Nodup
  ids_lt : ∀ l ∈ links, l.id < nextPeer
  addrIds : (book.addrs.map (·.id)).Nodup
  addrIds_lt : ∀ a ∈ book.addrs, a.id < book.nextId
  outgoing : book.nOutgoingPeers = links.countP (·.direction = .outgoing)
  incoming : book.nIncomingPeers = links.countP (·.direction = .incoming)
  unconnected : book.nUnconnectedAddrs = book.addrs.countP (!·.connected)
  /-- An address is connected if one peer points to it, and no two peers point to one address. -/
  claimed : ∀ a ∈ book.addrs, links.countP (·.addr = some a.id) = a.connected.toNat
  listed : ∀ l ∈ links, ∀ id, l.addr = some id → ∃ a ∈ book.addrs, a.id = id
  limited : book.nOutgoingPeers ≤ numOutgoingPeers

namespace Linked

variable {links : List Link} {n : Nat} {book book' : AddrBook} {a : Addr} {l : Link}

theorem frame (h : Linked links n book) (hcore : book'.core = book.core) :
    Linked links n book' := by
  simp only [AddrBook.core, Prod.mk.injEq] at hcore
  obtain ⟨haddrs, hnext, hout, hin, hun⟩ := hcore
  refine ⟨h.ids, h.ids_lt, ?_, ?_, ?_, ?_, ?_, ?_, ?_, ?_⟩
  · rw [haddrs]
    exact h.addrIds
  · rw [haddrs, hnext]
    exact h.addrIds_lt
  · rw [hout]
    exact h.outgoing
  · rw [hin]
    exact h.incoming
  · rw [hun, haddrs]
    exact h.unconnected
  · rw [haddrs]
    exact h.claimed
  · rw [haddrs]
    exact h.listed
  · rw [hout]
    exact h.limited

theorem core_maybeQueueConnect (book : AddrBook) (useIdle : Bool) :
    (book.maybeQueueConnect useIdle).core = book.core := by
  unfold AddrBook.maybeQueueConnect
  split_ifs <;> rfl

-- The addresses that no peer points to are those that are not connected.
theorem not_claimed (h : Linked links n book) (ha : a ∈ book.addrs) (hfree : a.connected = false)
    (hl : l ∈ links) : l.addr ≠ some a.id := by
  intro heq
  have hcount := h.claimed a ha
  rw [hfree, Bool.toNat_false, List.countP_eq_zero] at hcount
  exact hcount l hl (by simpa using heq)

/-! ### Addresses -/

theorem map_id_update {f : Addr → Addr} (hf : ∀ a, (f a).id = a.id) (book : AddrBook) (id : Nat) :
    (book.update id f).addrs.map (·.id) = book.addrs.map (·.id) :=
  map_key_update hf book.addrs id

/-- A change of an address that keeps its identity and its flag. -/
theorem update (h : Linked links n book) (id : Nat) {f : Addr → Addr}
    (hf : ∀ a, (f a).id = a.id ∧ (f a).connected = a.connected) :
    Linked links n (book.update id f) := by
  have hmem : ∀ b ∈ (book.update id f).addrs,
      ∃ a ∈ book.addrs, b.id = a.id ∧ b.connected = a.connected := by
    intro b hb
    obtain ⟨a, ha, rfl⟩ := List.mem_map.mp hb
    refine ⟨a, ha, ?_⟩
    split
    · exact hf a
    · exact ⟨rfl, rfl⟩
  have hids := map_id_update (fun a => (hf a).1) book id
  refine ⟨h.ids, h.ids_lt, ?_, ?_, h.outgoing, h.incoming, ?_, ?_, ?_, h.limited⟩
  · rw [hids]
    exact h.addrIds
  · intro b hb
    obtain ⟨a, ha, hid, -⟩ := hmem b hb
    rw [hid]
    exact h.addrIds_lt a ha
  · have hcount : (book.update id f).addrs.countP (!·.connected) =
        book.addrs.countP (!·.connected) := by
      show (book.addrs.map _).countP _ = _
      rw [List.countP_map]
      apply List.countP_congr
      intro a _
      simp only [Function.comp]
      split
      · rw [(hf a).2]
      · exact Iff.rfl
    rw [hcount]
    exact h.unconnected
  · intro b hb
    obtain ⟨a, ha, hid, hconnected⟩ := hmem b hb
    rw [hid, hconnected]
    exact h.claimed a ha
  · intro l hl id' haddr
    obtain ⟨a, ha, rfl⟩ := h.listed l hl id' haddr
    have hin : a.id ∈ (book.update id f).addrs.map (·.id) := by
      rw [hids]
      exact List.mem_map_of_mem ha
    obtain ⟨b, hb, heq⟩ := List.mem_map.mp hin
    exact ⟨b, hb, heq⟩

theorem newAddr (h : Linked links n book) (type : AddrType) (address : Netaddress)
    (advertiseTime : Int) (stream services : Nat) :
    Linked links n (book.newAddr type address advertiseTime stream services) := by
  refine ⟨h.ids, h.ids_lt, ?_, ?_, h.outgoing, h.incoming, ?_, ?_, ?_, h.limited⟩
  · refine List.nodup_cons.mpr ⟨?_, h.addrIds⟩
    intro hin
    obtain ⟨a, ha, heq⟩ := List.mem_map.mp hin
    have hlt := h.addrIds_lt a ha
    simp only at heq
    omega
  · intro a ha
    show a.id < book.nextId + 1
    rcases List.mem_cons.mp ha with rfl | ha
    · exact Nat.lt_succ_self _
    · exact Nat.lt_succ_of_lt (h.addrIds_lt a ha)
  · show book.nUnconnectedAddrs + 1 = _
    have hunconnected := h.unconnected
    simp only [AddrBook.newAddr, List.countP_cons, Bool.not_false, if_true]
    omega
  · intro a ha
    rcases List.mem_cons.mp ha with rfl | ha
    · -- the new number is above those that the peers know
      apply List.countP_eq_zero.mpr
      intro l hl haddr
      obtain ⟨b, hb, hid⟩ := h.listed l hl _ (by simpa using haddr)
      have hlt := h.addrIds_lt b hb
      omega
    · exact h.claimed a ha
  · intro l hl id haddr
    obtain ⟨a, ha, hid⟩ := h.listed l hl id haddr
    exact ⟨a, List.mem_cons_of_mem _ ha, hid⟩

theorem maybeQueueConnect (h : Linked links n book) (useIdle : Bool) :
    Linked links n (book.maybeQueueConnect useIdle) :=
  h.frame (core_maybeQueueConnect book useIdle)

theorem addAddr (h : Linked links n book) (now timestamp : Int) (stream services : Nat)
    (address : Netaddress) :
    Linked links n (book.addAddr now timestamp stream services address).1 := by
  refine AddrBook.addAddr_cases now timestamp h ?_ ?_
  · intro id time
    have hf : ∀ a : Addr, ({ a with advertiseTime := time } : Addr).id = a.id ∧
        ({ a with advertiseTime := time } : Addr).connected = a.connected := fun _ => ⟨rfl, rfl⟩
    exact (h.update id hf).frame rfl
  · intro time
    have hnew : Linked links n { book.newAddr .discovered address time stream services with
        saveAddrListSource := true } :=
      (h.newAddr .discovered address time stream services).frame rfl
    exact hnew.maybeQueueConnect true

-- Addresses that are not connected go, whichever they are.
theorem filter (h : Linked links n book) {old : Addr → Bool}
    (hold : ∀ a, old a = true → a.connected = false) :
    Linked links n { book with
      addrs := book.addrs.filter fun a => !old a
      nUnconnectedAddrs := book.nUnconnectedAddrs - (book.addrs.filter old).length } := by
  refine ⟨h.ids, h.ids_lt, ?_, ?_, h.outgoing, h.incoming, ?_, ?_, ?_, h.limited⟩
  · exact h.addrIds.sublist (List.filter_sublist.map _)
  · exact fun a ha => h.addrIds_lt a (List.mem_of_mem_filter ha)
  · have hunconnected := h.unconnected
    have hcount := countP_filter_not (p := fun a : Addr => !a.connected) (q := old)
      (fun a ha => by rw [hold a ha]; rfl) book.addrs
    show book.nUnconnectedAddrs - _ = ((book.addrs.filter fun a => !old a).countP _ : Int)
    omega
  · exact fun a ha => h.claimed a (List.mem_of_mem_filter ha)
  · intro l hl id haddr
    obtain ⟨a, ha, rfl⟩ := h.listed l hl id haddr
    refine ⟨a, ?_, rfl⟩
    rw [List.mem_filter]
    refine ⟨ha, ?_⟩
    cases hgone : old a with
    | false => rfl
    | true => exact absurd haddr (h.not_claimed ha (hold a hgone) hl)

/-! ### Peers -/

/-- The flag of an address is set, and the links are what the flag says. -/
theorem setConnected (h : Linked links n book) (ha : a ∈ book.addrs) {links' : List Link} {n' : Nat}
    {connected : Bool} {nOut nIn nUn : Int} (hids : (links'.map Link.id).Nodup)
    (hids_lt : ∀ l ∈ links', l.id < n')
    (hout : nOut = links'.countP (·.direction = .outgoing))
    (hin : nIn = links'.countP (·.direction = .incoming)) (hlimited : nOut ≤ numOutgoingPeers)
    (hun : nUn = book.nUnconnectedAddrs + a.connected.toNat - connected.toNat)
    (hself : links'.countP (·.addr = some a.id) = connected.toNat)
    (hothers : ∀ b ∈ book.addrs, b.id ≠ a.id →
      links'.countP (·.addr = some b.id) = links.countP (·.addr = some b.id))
    (hlisted : ∀ l ∈ links', ∀ id, l.addr = some id → id = a.id ∨ ∃ l' ∈ links, l'.addr = some id) :
    Linked links' n' { book.update a.id fun addr => { addr with connected } with
      nOutgoingPeers := nOut, nIncomingPeers := nIn, nUnconnectedAddrs := nUn } := by
  have hf : ∀ addr : Addr, ({ addr with connected } : Addr).id = addr.id := fun _ => rfl
  have haddrs := map_id_update hf book a.id
  have hmem : ∀ b ∈ (book.update a.id fun addr => { addr with connected }).addrs,
      (b.id = a.id ∧ b.connected = connected) ∨ (b ∈ book.addrs ∧ b.id ≠ a.id) := by
    intro b hb
    obtain ⟨c, hc, rfl⟩ := List.mem_map.mp hb
    by_cases hid : c.id = a.id
    · rw [if_pos hid]
      exact Or.inl ⟨hid, rfl⟩
    · rw [if_neg hid]
      exact Or.inr ⟨hc, hid⟩
  have hkept : ∀ b ∈ book.addrs,
      ∃ c ∈ (book.update a.id fun addr => { addr with connected }).addrs, c.id = b.id := by
    intro b hb
    have hid : b.id ∈ (book.update a.id fun addr => { addr with connected }).addrs.map (·.id) := by
      rw [haddrs]
      exact List.mem_map_of_mem hb
    exact List.mem_map.mp hid
  refine ⟨hids, hids_lt, ?_, ?_, hout, hin, ?_, ?_, ?_, hlimited⟩
  · rw [haddrs]
    exact h.addrIds
  · intro b hb
    rcases hmem b hb with ⟨hid, -⟩ | ⟨hb, -⟩
    · rw [hid]
      exact h.addrIds_lt a ha
    · exact h.addrIds_lt b hb
  · have hunconnected := h.unconnected
    have hcount : (book.update a.id fun addr => { addr with connected }).addrs.countP
          (!·.connected) + (!a.connected).toNat =
        book.addrs.countP (!·.connected) + (!connected).toNat :=
      countP_update h.addrIds ha _ _
    show nUn = _
    rw [hun]
    cases hold : a.connected <;> cases connected <;> simp [hold] at hcount ⊢ <;> omega
  · intro b hb
    rcases hmem b hb with ⟨hid, hconnected⟩ | ⟨hb, hne⟩
    · rw [hid, hconnected]
      exact hself
    · rw [hothers b hb hne]
      exact h.claimed b hb
  · intro l hl id haddr
    rcases hlisted l hl id haddr with rfl | ⟨l', hl', haddr'⟩
    · exact hkept a ha
    · obtain ⟨b, hb, rfl⟩ := h.listed l' hl' id haddr'
      exact hkept b hb

-- A new peer has a number that no other has.
theorem nodup_new (h : Linked links n book) (direction : Direction) (addr : Option Nat) :
    (({ id := n, direction, addr } :: links).map Link.id).Nodup ∧
      ∀ l ∈ ({ id := n, direction, addr } :: links : List Link), l.id < n + 1 := by
  refine ⟨List.nodup_cons.mpr ⟨?_, h.ids⟩, ?_⟩
  · intro hin
    obtain ⟨l, hl, heq⟩ := List.mem_map.mp hin
    have hlt := h.ids_lt l hl
    simp only at heq
    omega
  · intro l hl
    rcases List.mem_cons.mp hl with rfl | hl
    · exact Nat.lt_succ_self n
    · exact Nat.lt_succ_of_lt (h.ids_lt l hl)

/-- A connection is made to an address. -/
theorem connect (h : Linked links n book) (ha : a ∈ book.addrs) (hfree : a.connected = false)
    (hlimit : book.nOutgoingPeers < numOutgoingPeers) :
    Linked ({ id := n, direction := .outgoing, addr := some a.id } :: links) (n + 1)
      { book.update a.id fun addr => { addr with connected := true } with
        nOutgoingPeers := book.nOutgoingPeers + 1
        nUnconnectedAddrs := book.nUnconnectedAddrs - 1 } := by
  obtain ⟨hids, hids_lt⟩ := h.nodup_new .outgoing (some a.id)
  have hclaimed := h.claimed a ha
  rw [hfree, Bool.toNat_false] at hclaimed
  refine h.setConnected ha hids hids_lt ?_ ?_ ?_ ?_ ?_ ?_ ?_
  · rw [List.countP_cons_of_pos rfl, h.outgoing]
    rfl
  · rw [List.countP_cons_of_neg (by simp)]
    exact h.incoming
  · omega
  · rw [hfree]
    simp
  · rw [List.countP_cons_of_pos (by simp), hclaimed]
    rfl
  · intro b _ hne
    rw [List.countP_cons_of_neg (by simpa using fun heq => hne heq.symm)]
  · intro l hl id haddr
    rcases List.mem_cons.mp hl with rfl | hl
    · exact Or.inl (Option.some.inj haddr).symm
    · exact Or.inr ⟨l, hl, haddr⟩

-- A connection is accepted.
theorem accept (h : Linked links n book) :
    Linked ({ id := n, direction := .incoming, addr := none } :: links) (n + 1)
      { book with nIncomingPeers := book.nIncomingPeers + 1 } := by
  obtain ⟨hids, hids_lt⟩ := h.nodup_new .incoming none
  refine ⟨hids, hids_lt, h.addrIds, h.addrIds_lt, ?_, ?_, h.unconnected, ?_, ?_, h.limited⟩
  · rw [List.countP_cons_of_neg (by simp)]
    exact h.outgoing
  · rw [List.countP_cons_of_pos rfl]
    show book.nIncomingPeers + 1 = _
    rw [h.incoming]
    rfl
  · intro a ha
    rw [List.countP_cons_of_neg (by simp)]
    exact h.claimed a ha
  · intro l hl id haddr
    rcases List.mem_cons.mp hl with rfl | hl
    · cases haddr
    · exact h.listed l hl id haddr

/-- A peer without an address claims one that nobody has. -/
theorem claim (h : Linked links n book) (hl : l ∈ links) (hnone : l.addr = none)
    (ha : a ∈ book.addrs) (hfree : a.connected = false) :
    Linked (Keyed.update Link.id links l.id fun l => { l with addr := some a.id }) n
      { book.update a.id fun addr => { addr with connected := true } with
        nUnconnectedAddrs := book.nUnconnectedAddrs - 1 } := by
  have hcount := countP_update h.ids hl fun l => { l with addr := some a.id }
  have hf : ∀ l : Link, ({ l with addr := some a.id } : Link).id = l.id := fun _ => rfl
  have hkeys := map_key_update hf links l.id
  have hclaimed := h.claimed a ha
  rw [hfree, Bool.toNat_false] at hclaimed
  refine h.setConnected ha ?_ ?_ ?_ ?_ h.limited ?_ ?_ ?_ ?_
  · rw [hkeys]
    exact h.ids
  · intro m hm
    obtain ⟨m', hm', rfl⟩ := mem_update.mp hm
    have hlt := h.ids_lt m' hm'
    split <;> exact hlt
  · have hsame := hcount (·.direction = .outgoing)
    rw [Nat.add_right_cancel hsame]
    exact h.outgoing
  · have hsame := hcount (·.direction = .incoming)
    rw [Nat.add_right_cancel hsame]
    exact h.incoming
  · rw [hfree]
    simp
  · have hone := hcount (·.addr = some a.id)
    simp only [hnone, hclaimed, reduceCtorEq, decide_false, decide_true, Bool.toNat_true,
      Bool.toNat_false] at hone
    rw [Bool.toNat_true]
    omega
  · intro b _ hne
    have hsame := hcount (·.addr = some b.id)
    have hne' : ¬ some a.id = some b.id := fun heq => hne (Option.some.inj heq).symm
    simp only [hnone, hne', reduceCtorEq, decide_false, Bool.toNat_false] at hsame
    exact hsame
  · intro m hm id haddr
    obtain ⟨m', hm', rfl⟩ := mem_update.mp hm
    split at haddr
    · exact Or.inl (Option.some.inj haddr).symm
    · exact Or.inr ⟨m', hm', haddr⟩

/-- A peer goes. -/
theorem leave (h : Linked links n book) (hl : l ∈ links) :
    Linked (Keyed.remove Link.id links l.id) n (book.leave l) := by
  have hcount := countP_remove h.ids hl
  have hids := nodup_remove h.ids l.id
  have hids_lt : ∀ m ∈ Keyed.remove Link.id links l.id, m.id < n := fun m hm =>
    h.ids_lt m (mem_remove.mp hm).1
  have hout := hcount (·.direction = .outgoing)
  have hin := hcount (·.direction = .incoming)
  have houtgoing := h.outgoing
  have hincoming := h.incoming
  have hlimited := h.limited
  cases haddr : l.addr with
  | some id =>
    obtain ⟨a, ha, rfl⟩ := h.listed l hl id haddr
    have hself := hcount (·.addr = some a.id)
    rw [h.claimed a ha, haddr, decide_eq_true rfl, Bool.toNat_true] at hself
    have hconnected : a.connected = true := by
      cases hflag : a.connected with
      | true => rfl
      | false =>
        rw [hflag, Bool.toNat_false] at hself
        omega
    rw [hconnected, Bool.toNat_true] at hself
    have hothers : ∀ b ∈ book.addrs, b.id ≠ a.id →
        (Keyed.remove Link.id links l.id).countP (·.addr = some b.id) =
          links.countP (·.addr = some b.id) := by
      intro b _ hne
      have hsame := hcount (·.addr = some b.id)
      have hne' : ¬ some a.id = some b.id := fun heq => hne (Option.some.inj heq).symm
      simp only [haddr, hne', decide_false, Bool.toNat_false] at hsame
      exact hsame
    have hlisted : ∀ m ∈ Keyed.remove Link.id links l.id, ∀ id, m.addr = some id →
        id = a.id ∨ ∃ l' ∈ links, l'.addr = some id := fun m hm id hid =>
      Or.inr ⟨m, (mem_remove.mp hm).1, hid⟩
    have hun : book.nUnconnectedAddrs + 1 =
        book.nUnconnectedAddrs + a.connected.toNat - false.toNat := by
      rw [hconnected, Bool.toNat_true, Bool.toNat_false]
      omega
    unfold AddrBook.leave
    rw [haddr]
    cases hdirection : l.direction with
    | outgoing =>
      simp only [hdirection, decide_true, reduceCtorEq, decide_false, Bool.toNat_true,
        Bool.toNat_false] at hout hin
      refine h.setConnected ha hids hids_lt ?_ ?_ ?_ hun ?_ hothers hlisted
      · show book.nOutgoingPeers - 1 = _
        omega
      · show book.nIncomingPeers = _
        omega
      · show book.nOutgoingPeers - 1 ≤ _
        omega
      · rw [Bool.toNat_false]
        omega
    | incoming =>
      simp only [hdirection, decide_true, reduceCtorEq, decide_false, Bool.toNat_true,
        Bool.toNat_false] at hout hin
      refine h.setConnected ha hids hids_lt ?_ ?_ hlimited hun ?_ hothers hlisted
      · show book.nOutgoingPeers = _
        omega
      · show book.nIncomingPeers - 1 = _
        omega
      · rw [Bool.toNat_false]
        omega
  | none =>
    have hclaimed : ∀ a ∈ book.addrs,
        (Keyed.remove Link.id links l.id).countP (·.addr = some a.id) = a.connected.toNat := by
      intro a ha
      have hsame := hcount (·.addr = some a.id)
      simp only [haddr, reduceCtorEq, decide_false, Bool.toNat_false] at hsame
      rw [← h.claimed a ha]
      exact hsame
    have hlisted : ∀ m ∈ Keyed.remove Link.id links l.id, ∀ id, m.addr = some id →
        ∃ a ∈ book.addrs, a.id = id := fun m hm => h.listed m (mem_remove.mp hm).1
    unfold AddrBook.leave
    rw [haddr]
    cases hdirection : l.direction with
    | outgoing =>
      simp only [hdirection, decide_true, reduceCtorEq, decide_false, Bool.toNat_true,
        Bool.toNat_false] at hout hin
      refine ⟨hids, hids_lt, h.addrIds, h.addrIds_lt, ?_, ?_, h.unconnected, hclaimed, hlisted, ?_⟩
      · show book.nOutgoingPeers - 1 = _
        omega
      · show book.nIncomingPeers = _
        omega
      · show book.nOutgoingPeers - 1 ≤ _
        omega
    | incoming =>
      simp only [hdirection, decide_true, reduceCtorEq, decide_false, Bool.toNat_true,
        Bool.toNat_false] at hout hin
      refine ⟨hids, hids_lt, h.addrIds, h.addrIds_lt, ?_, ?_, h.unconnected, hclaimed, hlisted,
        hlimited⟩
      · show book.nOutgoingPeers = _
        omega
      · show book.nIncomingPeers - 1 = _
        omega

end Linked

end Notbit.Network
