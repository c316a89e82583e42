import Notbit.Network.Balanced

/-!
# Moves — what can happen to the handshake with one peer (`ntb-network.c`)

Of everything that happens to the network, few events concern the handshake with one peer: the
connection itself, its version and verack commands, and its end.  `Move` lists what they do to the
state of the peer and to the commands that were sent to it.
-/

open Notbit.Proto Runs

namespace Notbit.Network

/-! ## 1. Moves -/

/-- The commands of the handshake on the wire. -/
inductive Greeting where
  | version (nonce : Nat)
  | verack
  deriving DecidableEq, Repr

/-- The command that goes to a peer. -/
def Effect.greeting (nonce p : Nat) : Effect → Option Greeting
  | .sendVersion peer => if peer = p then some (.version nonce) else none
  | .sendVerack peer => if peer = p then some .verack else none
  | _ => none

/-- A version command from the peer that is not refused. -/
def Event.IsVersion (nonce p : Nat) : Event → Prop
  | .version peer _ n v _ _ _ _ => peer = p ∧ n ≠ nonce ∧ v = protoVersion
  | _ => False

def Event.IsVerack (p : Nat) : Event → Prop
  | .verack peer _ => peer = p
  | _ => False

/-- The connection fails, or a version command from the peer is refused. -/
def Event.IsEnd (nonce p : Nat) : Event → Prop
  | .error peer => peer = p
  | .version peer _ n v _ _ _ _ => peer = p ∧ (n = nonce ∨ v ≠ protoVersion)
  | _ => False

/-- An event of the handshake with the peer. -/
def Event.isHandshake (p : Nat) : Event → Bool
  | .error peer => peer = p
  | .version peer .. => peer = p
  | .verack peer _ => peer = p
  | _ => false

/-- The state after a version command. -/
def PeerState.afterVersion : PeerState → PeerState
  | .awaitingVersionOut => .connected
  | .awaitingVersionIn => .awaitingVerackIn
  | state => state

/-- What a version command is answered with. -/
def PeerState.answer (nonce : Nat) : PeerState → List Greeting
  | .awaitingVersionIn => [.verack, .version nonce]
  | _ => [.verack]

/-- The state after a verack command. -/
def PeerState.afterVerack : PeerState → PeerState
  | .awaitingVerackOut => .awaitingVersionOut
  | .awaitingVerackIn => .connected
  | state => state

namespace State

variable {nw nw' : State} {ssl : OpenSSL} {p : Nat}

/-- The state of the peer. -/
def peerState (nw : State) (p : Nat) : Option PeerState := (nw.findPeer p).map (·.state)

/-- The commands of the handshake that were sent to the peer. -/
def sent (nw : State) (p : Nat) : List Greeting := nw.log.filterMap (Effect.greeting nw.nonce p)

def talk (nw : State) (p : Nat) : Option PeerState × List Greeting := (nw.peerState p, nw.sent p)

/-- What a step can do to the handshake with a peer. -/
inductive Move (nw nw' : State) (p : Nat) (e : Event) : Prop where
  | spared (hp : p < nw.nextPeer ∨ nw'.nextPeer ≤ p)
      (he : ¬ e.IsVersion nw.nonce p ∧ ¬ e.IsVerack p ∧ ¬ e.IsEnd nw.nonce p)
      (h : nw'.talk p = nw.talk p)
  | connected (he : ∃ monotonic rand, e = .connectQueue monotonic rand true)
      (hp : p = nw.nextPeer) (hnext : nw'.nextPeer = p + 1)
      (h : nw'.talk p = (some .awaitingVerackOut, nw.sent p ++ [.version nw.nonce]))
  | accepted (he : ∃ socket, e = .accept socket)
      (hp : p = nw.nextPeer) (hnext : nw'.nextPeer = p + 1)
      (h : nw'.talk p = (some .awaitingVersionIn, nw.sent p))
  | removed (he : e.IsEnd nw.nonce p) (h : nw'.talk p = (none, nw.sent p))
  | version (state : PeerState) (hstate : nw.peerState p = some state)
      (he : e.IsVersion nw.nonce p)
      (h : nw'.talk p = (some state.afterVersion, nw.sent p ++ state.answer nw.nonce))
  | verack (state : PeerState) (hstate : nw.peerState p = some state) (he : e.IsVerack p)
      (h : nw'.talk p = (some state.afterVerack, nw.sent p))

structure Moves (nw nw' : State) (p : Nat) (e : Event) : Prop where
  nonce : nw'.nonce = nw.nonce
  nextPeer : nw.nextPeer ≤ nw'.nextPeer
  move : Move nw nw' p e

/-! ## 2. Peers -/

theorem peerState_ties (nw : State) (p : Nat) :
    nw.peerState p = (nw.ties.peers.find? (·.id = p)).map (·.state) := by
  simp only [peerState, findPeer, ties, List.find?_map, Option.map_map]
  rfl

theorem sent_ties (nw : State) (p : Nat) :
    nw.sent p = nw.ties.greetings.filterMap (Effect.greeting nw.ties.nonce p) := by
  simp only [sent, ties, List.filterMap_filter]
  congr 1
  funext e
  cases e <;> rfl

theorem talk_of_ties (hties : nw'.ties = nw.ties) (p : Nat) : nw'.talk p = nw.talk p := by
  rw [talk, talk, peerState_ties, sent_ties, peerState_ties nw, sent_ties nw, hties]

theorem sent_emit (effects : List Effect) (p : Nat) :
    (nw.emit effects).sent p = nw.sent p ++ effects.filterMap (Effect.greeting nw.nonce p) :=
  List.filterMap_append

theorem findPeer_updatePeer {f : Peer → Peer} (hf : ∀ peer, (f peer).id = peer.id) (id p : Nat) :
    (nw.updatePeer id f).findPeer p =
      (nw.findPeer p).map fun peer => if peer.id = id then f peer else peer := by
  simp only [findPeer, State.updatePeer, List.find?_map]
  congr 2
  funext peer
  simp only [Function.comp]
  split
  · rw [hf]
  · rfl

-- A change of a peer that keeps its state.
theorem peerState_updatePeer {f : Peer → Peer}
    (hf : ∀ peer, (f peer).id = peer.id ∧ (f peer).state = peer.state) (id p : Nat) :
    (nw.updatePeer id f).peerState p = nw.peerState p := by
  rw [peerState, findPeer_updatePeer fun peer => (hf peer).1, Option.map_map, peerState]
  congr 1
  funext peer
  simp only [Function.comp]
  split
  · exact (hf peer).2
  · rfl

theorem peerState_setState (nw : State) (id p : Nat) (state : PeerState) :
    (nw.updatePeer id fun peer => { peer with state }).peerState p =
      if p = id then (nw.peerState p).map fun _ => state else nw.peerState p := by
  have hf : ∀ peer : Peer, ({ peer with state } : Peer).id = peer.id := fun _ => rfl
  rw [peerState, findPeer_updatePeer hf, Option.map_map, peerState]
  cases hfind : nw.findPeer p with
  | none => simp
  | some peer =>
    have hid := (findPeer_mem hfind).2
    simp only [Option.map_some, Function.comp, hid]
    split <;> rfl

theorem talk_addAddr (now timestamp : Int) (stream services : Nat) (address : Netaddress)
    (p : Nat) : (nw.addAddr now timestamp stream services address).1.talk p = nw.talk p := by
  have hnone : ∀ (peers : List Nat) (addresses : List Netaddress),
      (peers.flatMap fun peer => addresses.map fun address => Effect.sendAddr peer [address]).filterMap
        (Effect.greeting nw.nonce p) = [] := by
    intro peers addresses
    rw [List.filterMap_eq_nil_iff]
    intro e he
    obtain ⟨peer, -, he⟩ := List.mem_flatMap.mp he
    obtain ⟨address, -, rfl⟩ := List.mem_map.mp he
    rfl
  unfold State.addAddr
  dsimp only
  rw [talk, sent_emit, hnone, List.append_nil]
  rfl

theorem talk_claimAddr (peer : Peer) (addr : Option Nat) (p : Nat) :
    (nw.claimAddr peer addr).talk p = nw.talk p := by
  unfold State.claimAddr
  split
  · rename_i a _
    have hf : ∀ peer : Peer, ({ peer with addr := some a.id } : Peer).id = peer.id ∧
        ({ peer with addr := some a.id } : Peer).state = peer.state := fun _ => ⟨rfl, rfl⟩
    exact Prod.ext (peerState_updatePeer hf peer.id p) rfl
  · rfl

theorem talk_removePeer (nw : State) (peer : Peer) (p : Nat) :
    (nw.removePeer peer).talk p = (if p = peer.id then none else nw.peerState p, nw.sent p) := by
  have hsent : (nw.removePeer peer).sent p = nw.sent p := by
    have hties := ties_foldl_dropInventory peer.requestedInventories nw
    have hdropped : (nw.removePeer peer).sent p =
        (peer.requestedInventories.foldl dropInventory nw).sent p := rfl
    rw [hdropped, sent_ties, hties, ← sent_ties]
  have hstate : (nw.removePeer peer).peerState p = if p = peer.id then none else nw.peerState p := by
    rw [peerState, findPeer, removePeer_peers, List.find?_filter]
    split
    · rename_i hp
      have hnone : nw.peers.find? (fun q => decide (decide (q.id ≠ peer.id) = true ∧
          decide (q.id = p) = true)) = none := by
        rw [List.find?_eq_none]
        intro q _
        simp [hp]
      rw [hnone]
      rfl
    · rename_i hp
      rw [peerState, findPeer]
      congr 2
      funext q
      by_cases hq : q.id = p
      · simp [hq, hp]
      · simp [hq]
  rw [talk, hsent, hstate]

theorem talk_connectionEstablished (id : Nat) (now : Int) (p : Nat) :
    (nw.connectionEstablished id now).talk p =
      (if p = id then (nw.peerState p).map fun _ => .connected else nw.peerState p, nw.sent p) := by
  unfold State.connectionEstablished
  dsimp only
  rw [talk, sent_emit]
  refine Prod.ext (peerState_setState nw id p .connected) ?_
  show nw.sent p ++ [] = nw.sent p
  rw [List.append_nil]

theorem talk_answerVersion {peer : Peer} (hpeer : nw.peerState peer.id = some peer.state)
    (now : Int) : (nw.answerVersion peer now).talk peer.id =
      (some peer.state.afterVersion, nw.sent peer.id ++ peer.state.answer nw.nonce) := by
  have hverack : (nw.emit [.sendVerack peer.id]).sent peer.id = nw.sent peer.id ++ [.verack] := by
    simp [sent_emit, Effect.greeting]
  have hsame : (nw.emit [.sendVerack peer.id]).peerState peer.id = some peer.state := hpeer
  unfold State.answerVersion
  dsimp only
  cases hstate : peer.state with
  | awaitingVersionOut =>
    dsimp only
    rw [talk_connectionEstablished, if_pos rfl, hsame, hverack]
    rfl
  | awaitingVersionIn =>
    dsimp only
    have hset := peerState_setState (nw.emit [.sendVerack peer.id]) peer.id peer.id
      .awaitingVerackIn
    rw [if_pos rfl, hsame] at hset
    have hversion : [Effect.sendVersion peer.id].filterMap (Effect.greeting nw.nonce peer.id) =
        [.version nw.nonce] := by
      simp [Effect.greeting]
    rw [talk, sent_emit]
    refine Prod.ext hset ?_
    show (nw.emit [.sendVerack peer.id]).sent peer.id ++ [Effect.sendVersion peer.id].filterMap
      (Effect.greeting nw.nonce peer.id) = _
    rw [hverack, hversion, List.append_assoc]
    rfl
  | awaitingVerackOut =>
    dsimp only
    rw [talk, hsame, hverack, hstate]
    rfl
  | awaitingVerackIn =>
    dsimp only
    rw [talk, hsame, hverack, hstate]
    rfl
  | connected =>
    dsimp only
    rw [talk, hsame, hverack, hstate]
    rfl

theorem talk_answerVersion_of_ne {peer : Peer} (hp : p ≠ peer.id) (now : Int) :
    (nw.answerVersion peer now).talk p = nw.talk p := by
  have hverack : (nw.emit [.sendVerack peer.id]).talk p = nw.talk p := by
    rw [talk, sent_emit]
    have hnone : [Effect.sendVerack peer.id].filterMap (Effect.greeting nw.nonce p) = [] := by
      simp [Effect.greeting, hp.symm]
    rw [hnone, List.append_nil]
    rfl
  unfold State.answerVersion
  dsimp only
  cases peer.state with
  | awaitingVersionOut =>
    dsimp only
    rw [talk_connectionEstablished, if_neg hp]
    exact hverack
  | awaitingVersionIn =>
    dsimp only
    have hset := peerState_setState (nw.emit [.sendVerack peer.id]) peer.id p
      .awaitingVerackIn
    rw [if_neg hp] at hset
    have hnone : [Effect.sendVersion peer.id].filterMap (Effect.greeting nw.nonce p) = [] := by
      simp [Effect.greeting, hp.symm]
    rw [talk, sent_emit, ← hverack]
    refine Prod.ext hset ?_
    show (nw.emit [.sendVerack peer.id]).sent p ++ [Effect.sendVersion peer.id].filterMap
      (Effect.greeting nw.nonce p) = _
    rw [hnone, List.append_nil]
    rfl
  | awaitingVerackOut => exact hverack
  | awaitingVerackIn => exact hverack
  | connected => exact hverack

theorem talk_handleVerack {peer : Peer} (hpeer : nw.peerState peer.id = some peer.state)
    (now : Int) : (nw.handleVerack peer now).talk peer.id =
      (some peer.state.afterVerack, nw.sent peer.id) := by
  unfold State.handleVerack
  cases hstate : peer.state with
  | awaitingVerackOut =>
    refine Prod.ext ?_ rfl
    dsimp only [talk]
    rw [peerState_setState, if_pos rfl, hpeer]
    rfl
  | awaitingVerackIn =>
    dsimp only
    rw [talk_connectionEstablished, if_pos rfl, hpeer]
    rfl
  | awaitingVersionOut =>
    dsimp only
    rw [talk, hpeer, hstate]
    rfl
  | awaitingVersionIn =>
    dsimp only
    rw [talk, hpeer, hstate]
    rfl
  | connected =>
    dsimp only
    rw [talk, hpeer, hstate]
    rfl

theorem talk_handleVerack_of_ne {peer : Peer} (hp : p ≠ peer.id) (now : Int) :
    (nw.handleVerack peer now).talk p = nw.talk p := by
  unfold State.handleVerack
  cases peer.state with
  | awaitingVerackOut =>
    refine Prod.ext ?_ rfl
    dsimp only [talk]
    rw [peerState_setState, if_neg hp]
  | awaitingVerackIn =>
    dsimp only
    rw [talk_connectionEstablished, if_neg hp]
    rfl
  | awaitingVersionOut => rfl
  | awaitingVersionIn => rfl
  | connected => rfl

/-! ## 3. Steps -/

/-- What no command changes. -/
def fixed (nw : State) : Nat × Nat := (nw.nonce, nw.nextPeer)

theorem fixed_of_ties (hties : nw'.ties = nw.ties) : nw'.fixed = nw.fixed :=
  congrArg (fun t : Ties => (t.nonce, t.nextPeer)) hties

theorem fixed_removePeer (nw : State) (peer : Peer) : (nw.removePeer peer).fixed = nw.fixed := by
  have hdropped : (nw.removePeer peer).fixed =
      (peer.requestedInventories.foldl dropInventory nw).fixed := rfl
  rw [hdropped]
  exact fixed_of_ties (ties_foldl_dropInventory peer.requestedInventories nw)

theorem fixed_handleVersion (nw : State) (peer : Peer) (now : Int) (nonce version : Nat) (timestamp : Int)
    (stream services : Nat) (address : Netaddress) :
    (nw.handleVersion peer now nonce version timestamp stream services address).fixed =
      nw.fixed := by
  have hclaim : ∀ (nw : State) (addr : Option Nat), (nw.claimAddr peer addr).fixed = nw.fixed := by
    intro nw addr
    unfold claimAddr
    split <;> rfl
  have hanswer : ∀ nw : State, (nw.answerVersion peer now).fixed = nw.fixed := by
    intro nw
    unfold answerVersion
    cases peer.state <;> rfl
  by_cases hbad : nonce = nw.nonce ∨ version ≠ protoVersion
  · rw [handleVersion_of_not_ok hbad]
    exact fixed_removePeer nw peer
  · rw [not_or, not_not] at hbad
    rw [handleVersion_of_ok hbad.1 hbad.2, hanswer, hclaim]
    rfl

theorem fixed_handleVerack (nw : State) (peer : Peer) (now : Int) :
    (nw.handleVerack peer now).fixed = nw.fixed := by
  unfold handleVerack
  cases peer.state <;> rfl

-- An event that has nothing to do with the peer.
theorem Moves.of_fixed {e : Event} (hfixed : nw'.fixed = nw.fixed)
    (he : ¬ e.IsVersion nw.nonce p ∧ ¬ e.IsVerack p ∧ ¬ e.IsEnd nw.nonce p)
    (h : nw'.talk p = nw.talk p) : Moves nw nw' p e := by
  obtain ⟨hnonce, hnext⟩ := Prod.mk.inj hfixed
  refine ⟨hnonce, ge_of_eq hnext, .spared ?_ he h⟩
  rw [hnext]
  exact lt_or_ge p nw.nextPeer

theorem Moves.of_ties {e : Event} (hties : nw'.ties = nw.ties)
    (he : ¬ e.IsVersion nw.nonce p ∧ ¬ e.IsVerack p ∧ ¬ e.IsEnd nw.nonce p) : Moves nw nw' p e :=
  .of_fixed (fixed_of_ties hties) he (talk_of_ties hties p)

theorem moves_newPeer {e : Event} {state : PeerState} {new : Peer} {greetings : List Greeting}
    (he : ¬ e.IsVersion nw.nonce p ∧ ¬ e.IsVerack p ∧ ¬ e.IsEnd nw.nonce p)
    (hpeers : nw'.peers = new :: nw.peers) (hid : new.id = nw.nextPeer) (hstate : new.state = state)
    (hnext : nw'.nextPeer = nw.nextPeer + 1)
    (hsent : nw'.sent p = if p = nw.nextPeer then nw.sent p ++ greetings else nw.sent p)
    (hnew : p = nw.nextPeer → nw'.nextPeer = p + 1 →
      nw'.talk p = (some state, nw.sent p ++ greetings) → Move nw nw' p e)
    (hnonce : nw'.nonce = nw.nonce) : Moves nw nw' p e := by
  refine ⟨hnonce, by omega, ?_⟩
  by_cases hp : p = nw.nextPeer
  · rw [if_pos hp] at hsent
    refine hnew hp (by rw [hnext, hp]) ?_
    rw [talk, hsent, peerState, findPeer, hpeers, List.find?_cons_of_pos (by simp [hid, hp]),
      ← hstate]
    rfl
  · rw [if_neg hp] at hsent
    refine .spared ?_ he ?_
    · omega
    · have hne : ¬ new.id = p := by
        rw [hid]
        exact fun heq => hp heq.symm
      rw [talk, hsent, peerState, findPeer, hpeers, List.find?_cons_of_neg (by simpa using hne)]
      rfl

theorem moves_connectQueueCb {now rand : Nat} {ok : Bool} (p : Nat)
    (hs : nw.connectQueueCb now rand ok = some nw') :
    Moves nw nw' p (.connectQueue now rand ok) := by
  have he : ¬ (Event.connectQueue now rand ok).IsVersion nw.nonce p ∧
      ¬ (Event.connectQueue now rand ok).IsVerack p ∧
      ¬ (Event.connectQueue now rand ok).IsEnd nw.nonce p := ⟨nofun, nofun, nofun⟩
  unfold State.connectQueueCb at hs
  dsimp only at hs
  split at hs
  · cases hs
    exact .of_fixed rfl he rfl
  · split at hs
    · cases hs
      exact .of_fixed rfl he rfl
    · obtain ⟨addr, -, hs⟩ := Option.bind_eq_some_iff.mp hs
      cases ok with
      | false =>
        cases hs
        exact .of_fixed rfl he rfl
      | true =>
        cases hs
        refine moves_newPeer he rfl rfl rfl rfl ?_ (.connected ⟨now, rand, rfl⟩) rfl
        show (nw.log ++ [Effect.sendVersion nw.nextPeer]).filterMap (Effect.greeting nw.nonce p) = _
        rw [List.filterMap_append]
        by_cases hp : p = nw.nextPeer
        · rw [if_pos hp]
          simp [sent, Effect.greeting, hp]
        · rw [if_neg hp]
          have hne : ¬ nw.nextPeer = p := fun heq => hp heq.symm
          simp [sent, Effect.greeting, hne]

theorem moves_acceptCb (socket p : Nat) : Moves nw nw.acceptCb p (.accept socket) := by
  have hmove : p = nw.nextPeer → nw.acceptCb.nextPeer = p + 1 →
      nw.acceptCb.talk p = (some .awaitingVersionIn, nw.sent p ++ []) →
      Move nw nw.acceptCb p (.accept socket) := by
    intro hp hnext h
    rw [List.append_nil] at h
    exact .accepted ⟨socket, rfl⟩ hp hnext h
  refine moves_newPeer ⟨nofun, nofun, nofun⟩ rfl rfl rfl rfl ?_ hmove rfl
  rw [List.append_nil, ite_self]
  rfl

theorem peerState_of_findPeer {peer : Peer} (hfind : nw.findPeer p = some peer) :
    nw.peerState p = some peer.state := by
  rw [peerState, hfind, Option.map_some]

theorem moves_removePeer {e : Event} {id : Nat} {peer : Peer} (hid : peer.id = id)
    (hend : e.IsEnd nw.nonce id)
    (hother : p ≠ id → ¬ e.IsVersion nw.nonce p ∧ ¬ e.IsVerack p ∧ ¬ e.IsEnd nw.nonce p) :
    Moves nw (nw.removePeer peer) p e := by
  have htalk := talk_removePeer nw peer p
  by_cases hp : p = id
  · rw [if_pos (hp.trans hid.symm)] at htalk
    rw [← hp] at hend
    obtain ⟨hnonce, hnext⟩ := Prod.mk.inj (fixed_removePeer nw peer)
    exact ⟨hnonce, ge_of_eq hnext, .removed hend htalk⟩
  · rw [if_neg (fun heq => hp (heq.trans hid))] at htalk
    exact .of_fixed (fixed_removePeer nw peer) (hother hp) htalk

theorem moves_handleVersion {id : Nat} {peer : Peer} (hfind : nw.findPeer id = some peer)
    (now : Int) (nonce version : Nat) (timestamp : Int) (stream services : Nat)
    (address : Netaddress) (p : Nat) :
    Moves nw (nw.handleVersion peer now nonce version timestamp stream services address) p
      (.version id now nonce version timestamp stream services address) := by
  have hid := (findPeer_mem hfind).2
  have hfixed := fixed_handleVersion nw peer now nonce version timestamp stream services
    address
  have hother : p ≠ id →
      ¬ (Event.version id now nonce version timestamp stream services address).IsVersion nw.nonce p ∧
      ¬ (Event.version id now nonce version timestamp stream services address).IsVerack p ∧
      ¬ (Event.version id now nonce version timestamp stream services address).IsEnd nw.nonce p :=
    fun hp => ⟨fun h => hp h.1.symm, nofun, fun h => hp h.1.symm⟩
  by_cases hbad : nonce = nw.nonce ∨ version ≠ protoVersion
  · rw [handleVersion_of_not_ok hbad]
    exact moves_removePeer hid ⟨rfl, hbad⟩ hother
  · rw [not_or, not_not] at hbad
    rw [handleVersion_of_ok hbad.1 hbad.2] at hfixed ⊢
    -- what is done to the addresses does not concern the handshake
    have hbefore : ∀ q, ((nw.addAddr now timestamp stream services address).1.claimAddr peer
        (nw.addAddr now timestamp stream services address).2).talk q = nw.talk q := by
      intro q
      rw [talk_claimAddr, talk_addAddr]
    have hnonce : ((nw.addAddr now timestamp stream services address).1.claimAddr peer
        (nw.addAddr now timestamp stream services address).2).nonce = nw.nonce := by
      unfold claimAddr
      split <;> rfl
    generalize (nw.addAddr now timestamp stream services address).1.claimAddr peer
      (nw.addAddr now timestamp stream services address).2 = nw₁ at hbefore hnonce hfixed
    by_cases hp : p = id
    · subst hp
      obtain ⟨hstate, hsent⟩ := Prod.mk.inj (hbefore p)
      rw [peerState_of_findPeer hfind] at hstate
      have hanswer : nw₁.peerState peer.id = some peer.state := by
        rw [hid]
        exact hstate
      have htalk := talk_answerVersion hanswer now
      rw [hid, hsent, hnonce] at htalk
      exact ⟨(Prod.mk.inj hfixed).1, ge_of_eq (Prod.mk.inj hfixed).2,
        .version peer.state (peerState_of_findPeer hfind) ⟨rfl, hbad⟩ htalk⟩
    · refine .of_fixed hfixed (hother hp) ?_
      rw [talk_answerVersion_of_ne (fun heq => hp (heq.trans hid)), hbefore]

theorem moves_handleVerack {id : Nat} {peer : Peer} (hfind : nw.findPeer id = some peer)
    (now : Int) (p : Nat) : Moves nw (nw.handleVerack peer now) p (.verack id now) := by
  have hid := (findPeer_mem hfind).2
  by_cases hp : p = id
  · subst hp
    have hstate := peerState_of_findPeer hfind
    have hpeer : nw.peerState peer.id = some peer.state := by
      rw [hid]
      exact hstate
    have htalk := talk_handleVerack hpeer now
    rw [hid] at htalk
    obtain ⟨hnonce, hnext⟩ := Prod.mk.inj (fixed_handleVerack nw peer now)
    exact ⟨hnonce, ge_of_eq hnext, .verack peer.state hstate rfl htalk⟩
  · refine .of_fixed (fixed_handleVerack nw peer now) ⟨nofun, fun h => hp h.symm, nofun⟩ ?_
    exact talk_handleVerack_of_ne (fun heq => hp (heq.trans hid)) now

/-- Every step does to the handshake with a peer what `Moves` lists. -/
theorem moves_step {e : Event} (hs : step ssl nw e = some nw') (p : Nat) : Moves nw nw' p e := by
  -- most events are neither a part of a handshake nor its end
  have hnone : ¬ False ∧ ¬ False ∧ ¬ False := ⟨not_false, not_false, not_false⟩
  cases e with
  | connectQueue monotonic rand ok =>
    rw [step] at hs
    split at hs
    · exact moves_connectQueueCb p hs
    · cases hs
  | accept socket =>
    rw [step] at hs
    split at hs
    · cases hs
      exact moves_acceptCb socket p
    · cases hs
  | error peer =>
    obtain ⟨peer, hfind, rfl⟩ := Option.map_eq_some_iff.mp hs
    exact moves_removePeer (findPeer_mem hfind).2 rfl
      fun hp => ⟨not_false, not_false, fun h => hp (Eq.symm h)⟩
  | version peer now nonce version timestamp stream services address =>
    obtain ⟨peer, hfind, rfl⟩ := Option.map_eq_some_iff.mp hs
    exact moves_handleVersion hfind now nonce version timestamp stream services address p
  | verack peer now =>
    obtain ⟨peer, hfind, rfl⟩ := Option.map_eq_some_iff.mp hs
    exact moves_handleVerack hfind now p
  | addr peer now timestamp stream services address =>
    obtain ⟨peer, -, rfl⟩ := Option.map_eq_some_iff.mp hs
    split
    · exact .of_fixed rfl hnone (talk_addAddr _ _ _ _ _ p)
    · exact .of_fixed rfl hnone rfl
  | inv peer monotonic hashes => exact .of_ties (ties_step rfl hs) hnone
  | getdata peer hashes => exact .of_ties (ties_step rfl hs) hnone
  | object peer now blob => exact .of_ties (ties_step rfl hs) hnone
  | addBlob now blob flags => exact .of_ties (ties_step rfl hs) hnone
  | addObjectFromData now blob flags => exact .of_ties (ties_step rfl hs) hnone
  | delayedBroadcast i => exact .of_ties (ties_step rfl hs) hnone
  | loadBlob type hash timestamp => exact .of_ties (ties_step rfl hs) hnone
  | gc now monotonic =>
    cases hs
    have hties := ties_gcTimeoutCb nw now monotonic
    refine .of_fixed (congrArg (fun t : Ties => (t.nonce, t.nextPeer)) hties) hnone ?_
    rw [talk, peerState_ties, sent_ties, hties, talk, peerState_ties nw, sent_ties nw]
  | loadAddr now timestamp stream services address =>
    cases hs
    exact .of_fixed rfl hnone (talk_addAddr _ _ _ _ _ p)
  | addPeerAddress address =>
    cases hs
    exact .of_fixed rfl hnone rfl
  | addListenAddress =>
    cases hs
    exact .of_fixed rfl hnone rfl
  | listenError socket =>
    cases hs
    exact .of_fixed rfl hnone rfl
  | storeLoaded =>
    cases hs
    exact .of_fixed rfl hnone rfl
  | dnsAddress address =>
    rw [step] at hs
    split at hs
    · cases hs
      exact .of_fixed rfl hnone rfl
    · cases hs
      exact .of_fixed rfl hnone rfl
  | useOnlyExplicitAddresses value =>
    cases hs
    exact .of_fixed rfl hnone rfl
  | saveAddrList =>
    cases hs
    exact .of_fixed rfl hnone rfl

end State

end Notbit.Network
