import Notbit.Network.Moves

/-!
# Handshake — two networks that are joined by a connection (`ntb-network.c`)

A peer is connected only if it has sent both commands of the handshake.  Two networks at the ends of
one connection go through a sequence of joint states, whatever else happens to both of them, and
come to rest only when both are connected.
-/

open Notbit.Proto Runs

namespace Notbit.Network

namespace State

variable {nw nw' : State} {ssl : OpenSSL} {p : Nat}

/-! ## 1. What was received -/

/-- The commands that must have come from the peer for it to be in a state. -/
def Greeted (nonce p : Nat) (past : List Event) : PeerState → Prop
  | .awaitingVersionOut => ∃ e ∈ past, e.IsVerack p
  | .awaitingVerackIn => ∃ e ∈ past, e.IsVersion nonce p
  | .connected => (∃ e ∈ past, e.IsVersion nonce p) ∧ ∃ e ∈ past, e.IsVerack p
  | .awaitingVerackOut | .awaitingVersionIn => True

theorem Greeted.mono {nonce : Nat} {past past' : List Event} (hsub : past ⊆ past')
    {state : PeerState} (h : Greeted nonce p past state) : Greeted nonce p past' state := by
  have hmono : ∀ {P : Event → Prop}, (∃ e ∈ past, P e) → ∃ e ∈ past', P e :=
    fun ⟨e, he, hP⟩ => ⟨e, hsub he, hP⟩
  cases state with
  | awaitingVersionOut => exact hmono h
  | awaitingVerackIn => exact hmono h
  | connected => exact ⟨hmono h.1, hmono h.2⟩
  | awaitingVerackOut => trivial
  | awaitingVersionIn => trivial

theorem Greeted.version {nonce : Nat} {past : List Event} {e : Event} {state : PeerState}
    (h : Greeted nonce p past state) (he : e.IsVersion nonce p) :
    Greeted nonce p (past ++ [e]) state.afterVersion := by
  have hold := h.mono (List.subset_append_left past [e])
  have hlast : ∃ e' ∈ past ++ [e], e'.IsVersion nonce p :=
    ⟨e, List.mem_append_right _ List.mem_cons_self, he⟩
  cases state with
  | awaitingVersionOut => exact ⟨hlast, hold⟩
  | awaitingVersionIn => exact hlast
  | awaitingVerackIn => exact hold
  | connected => exact hold
  | awaitingVerackOut => trivial

theorem Greeted.verack {nonce : Nat} {past : List Event} {e : Event} {state : PeerState}
    (h : Greeted nonce p past state) (he : e.IsVerack p) :
    Greeted nonce p (past ++ [e]) state.afterVerack := by
  have hold := h.mono (List.subset_append_left past [e])
  have hlast : ∃ e' ∈ past ++ [e], e'.IsVerack p :=
    ⟨e, List.mem_append_right _ List.mem_cons_self, he⟩
  cases state with
  | awaitingVerackOut => exact hlast
  | awaitingVerackIn => exact ⟨hold, hlast⟩
  | awaitingVersionOut => exact hold
  | awaitingVersionIn => trivial
  | connected => exact hold

/-- Every peer is in a state that the commands from it account for. -/
def AllGreeted (nonce : Nat) (nw : State) (past : List Event) : Prop :=
  nw.nonce = nonce ∧ ∀ p state, nw.peerState p = some state → Greeted nonce p past state

theorem AllGreeted.step {nonce : Nat} {past : List Event} {e : Event} (h : AllGreeted nonce nw past)
    (hs : step ssl nw e = some nw') : AllGreeted nonce nw' (past ++ [e]) := by
  obtain ⟨rfl, hgreeted⟩ := h
  refine ⟨(moves_step hs 0).nonce, ?_⟩
  intro p state hstate
  cases (moves_step hs p).move with
  | spared _ _ h =>
    rw [(Prod.mk.inj h).1] at hstate
    exact (hgreeted p state hstate).mono (List.subset_append_left past [e])
  | connected _ _ _ h =>
    rw [(Prod.mk.inj h).1] at hstate
    cases hstate
    trivial
  | accepted _ _ _ h =>
    rw [(Prod.mk.inj h).1] at hstate
    cases hstate
    trivial
  | removed _ h =>
    rw [(Prod.mk.inj h).1] at hstate
    cases hstate
  | version old hold he h =>
    rw [(Prod.mk.inj h).1] at hstate
    cases hstate
    exact (hgreeted p old hold).version he
  | verack old hold he h =>
    rw [(Prod.mk.inj h).1] at hstate
    cases hstate
    exact (hgreeted p old hold).verack he

theorem AllGreeted.run (ssl : OpenSSL) (nonce : Nat) (defaultAddrs : List Netaddress)
    (events : List Event) :
    AllGreeted nonce (run (Network.step ssl) (State.new nonce defaultAddrs) events)
      (happened (Network.step ssl) (State.new nonce defaultAddrs) events) := by
  have hstart : AllGreeted nonce (State.new nonce defaultAddrs) [] := ⟨rfl, nofun⟩
  exact invariant_happened (fun _ _ _ _ h hs => AllGreeted.step h hs) hstart events

/-- No peer has a number that was not given away yet. -/
def Unborn (nw : State) : Prop := ∀ p, nw.nextPeer ≤ p → nw.talk p = (none, [])

theorem Unborn.step {e : Event} (h : nw.Unborn) (hs : step ssl nw e = some nw') : nw'.Unborn := by
  intro p hp
  have hmoves := moves_step hs p
  have hbefore := h p (hmoves.nextPeer.trans hp)
  obtain ⟨hnone, hnil⟩ := Prod.mk.inj hbefore
  cases hmoves.move with
  | spared _ _ htalk => rw [htalk, hbefore]
  | connected _ _ hnext _ => omega
  | accepted _ _ hnext _ => omega
  | removed _ htalk => rw [htalk, hnil]
  | version state hstate _ _ =>
    rw [hnone] at hstate
    cases hstate
  | verack state hstate _ _ =>
    rw [hnone] at hstate
    cases hstate

-- What the moves say for the events that are possible on a given connection.

theorem talk_other {e : Event} (hs : step ssl nw e = some nw') (hp : p < nw.nextPeer)
    (he : e.isHandshake p = false) : nw'.talk p = nw.talk p := by
  have hnone : ∀ nonce, ¬ e.IsVersion nonce p ∧ ¬ e.IsVerack p ∧ ¬ e.IsEnd nonce p := by
    intro nonce
    cases e with
    | error peer =>
      have hne : ¬ peer = p := of_decide_eq_false he
      exact ⟨nofun, nofun, hne⟩
    | version peer now n v timestamp stream services address =>
      have hne : ¬ peer = p := of_decide_eq_false he
      exact ⟨fun h => hne h.1, nofun, fun h => hne h.1⟩
    | verack peer now =>
      have hne : ¬ peer = p := of_decide_eq_false he
      exact ⟨nofun, hne, nofun⟩
    | _ => exact ⟨nofun, nofun, nofun⟩
  obtain ⟨hversion, hverack, hend⟩ := hnone nw.nonce
  cases (moves_step hs p).move with
  | spared _ _ h => exact h
  | connected _ heq _ _ => omega
  | accepted _ heq _ _ => omega
  | removed he _ => exact absurd he hend
  | version _ _ he _ => exact absurd he hversion
  | verack _ _ he _ => exact absurd he hverack

theorem talk_version {n stream services : Nat} {now timestamp : Int} {address : Netaddress}
    {state : PeerState}
    (hs : step ssl nw (.version p now n protoVersion timestamp stream services address) = some nw')
    (hp : p < nw.nextPeer) (hnonce : n ≠ nw.nonce) (hstate : nw.peerState p = some state) :
    nw'.talk p = (some state.afterVersion, nw.sent p ++ state.answer nw.nonce) := by
  cases (moves_step hs p).move with
  | spared _ hnone _ => exact absurd ⟨rfl, hnonce, rfl⟩ hnone.1
  | connected _ heq _ _ => omega
  | accepted _ heq _ _ => omega
  | removed he _ =>
    rcases he.2 with heq | hversion
    · exact absurd heq hnonce
    · exact absurd rfl hversion
  | version old hold _ h =>
    rw [hstate] at hold
    cases hold
    exact h
  | verack _ _ he _ => exact he.elim

theorem talk_verack {now : Int} {state : PeerState} (hs : step ssl nw (.verack p now) = some nw')
    (hp : p < nw.nextPeer) (hstate : nw.peerState p = some state) :
    nw'.talk p = (some state.afterVerack, nw.sent p) := by
  cases (moves_step hs p).move with
  | spared _ hnone _ => exact absurd rfl hnone.2.1
  | connected _ heq _ _ => omega
  | accepted _ heq _ _ => omega
  | removed he _ => exact he.elim
  | version _ _ he _ => exact he.elim
  | verack old hold _ h =>
    rw [hstate] at hold
    cases hold
    exact h

end State

/-! ## 2. Two sides -/

/-- Two networks.  The first one makes a connection, which the second one accepts; from then on
each has a peer that stands for the other, and what they send each other is in two queues. -/
structure Pair where
  outgoing : State
  incoming : State
  /-- The peer of the first network that stands for the second one. -/
  outPeer : Option Nat := none
  /-- The peer of the second network that stands for the first one. -/
  inPeer : Option Nat := none
  toIncoming : List Greeting := []
  toOutgoing : List Greeting := []

/-- What can happen to two networks.  The arguments of a delivery are the clock and those fields of
the command that have nothing to do with the handshake. -/
inductive PairEvent where
  | connect (monotonic rand : Nat)
  | accept (socket : Nat)
  | deliverIncoming (now timestamp : Int) (stream services : Nat) (address : Netaddress)
  | deliverOutgoing (now timestamp : Int) (stream services : Nat) (address : Netaddress)
  | outgoing (e : Event)
  | incoming (e : Event)

/-- The event of a command that is delivered.  A version command has `NTB_PROTO_VERSION` in it. -/
def Greeting.event (p : Nat) (now timestamp : Int) (stream services : Nat) (address : Netaddress) :
    Greeting → Event
  | .version nonce => .version p now nonce protoVersion timestamp stream services address
  | .verack => .verack p now

/-- The commands that were sent to a peer in a step. -/
def State.sentSince (nw old : State) (peer : Option Nat) : List Greeting :=
  match peer with
  | some p => (nw.sent p).drop (old.sent p).length
  | none => []

/-- A step of the two networks.  No command of the handshake comes from anywhere but the queues,
and the connection does not fail; everything else can happen to each network at any time, also to
the connection between them. -/
def Pair.step (ssl : OpenSSL) (s : Pair) : PairEvent → Option Pair
  | .connect monotonic rand =>
    if s.outPeer = none then do
      let nw ← Network.step ssl s.outgoing (.connectQueue monotonic rand true)
      let p := s.outgoing.nextPeer
      if nw.nextPeer = p + 1 then
        some { s with
          outgoing := nw, outPeer := some p, toIncoming := nw.sentSince s.outgoing (some p) }
      else none
    else none
  | .accept socket =>
    if s.outPeer ≠ none ∧ s.inPeer = none then do
      let nw ← Network.step ssl s.incoming (.accept socket)
      let q := s.incoming.nextPeer
      some { s with
        incoming := nw, inPeer := some q, toOutgoing := nw.sentSince s.incoming (some q) }
    else none
  | .deliverIncoming now timestamp stream services address =>
    match s.inPeer, s.toIncoming with
    | some q, g :: rest => do
      let nw ← Network.step ssl s.incoming (g.event q now timestamp stream services address)
      some { s with
        incoming := nw, toIncoming := rest
        toOutgoing := s.toOutgoing ++ nw.sentSince s.incoming s.inPeer }
    | _, _ => none
  | .deliverOutgoing now timestamp stream services address =>
    match s.outPeer, s.toOutgoing with
    | some p, g :: rest => do
      let nw ← Network.step ssl s.outgoing (g.event p now timestamp stream services address)
      some { s with
        outgoing := nw, toOutgoing := rest
        toIncoming := s.toIncoming ++ nw.sentSince s.outgoing s.outPeer }
    | _, _ => none
  | .outgoing e =>
    if s.outPeer.all fun p => !e.isHandshake p then do
      let nw ← Network.step ssl s.outgoing e
      some { s with
        outgoing := nw, toIncoming := s.toIncoming ++ nw.sentSince s.outgoing s.outPeer }
    else none
  | .incoming e =>
    if s.inPeer.all fun q => !e.isHandshake q then do
      let nw ← Network.step ssl s.incoming e
      some { s with
        incoming := nw, toOutgoing := s.toOutgoing ++ nw.sentSince s.incoming s.inPeer }
    else none

/-- The joint states of two networks that are joined. -/
inductive Stage where
  | accepted | answered | acknowledged | settled | established

namespace Stage

def outState : Stage → PeerState
  | accepted | answered => .awaitingVerackOut
  | acknowledged => .awaitingVersionOut
  | settled | established => .connected

def inState : Stage → PeerState
  | accepted => .awaitingVersionIn
  | answered | acknowledged | settled => .awaitingVerackIn
  | established => .connected

def toIncoming (nonce : Nat) : Stage → List Greeting
  | accepted => [.version nonce]
  | settled => [.verack]
  | _ => []

def toOutgoing (nonce : Nat) : Stage → List Greeting
  | answered => [.verack, .version nonce]
  | acknowledged => [.version nonce]
  | _ => []

end Stage

namespace Pair

variable {s s' : Pair} {p q : Nat} {stage : Stage} {ssl : OpenSSL}

structure At (s : Pair) (p q : Nat) (stage : Stage) : Prop where
  outPeer : s.outPeer = some p
  inPeer : s.inPeer = some q
  outBorn : p < s.outgoing.nextPeer
  inBorn : q < s.incoming.nextPeer
  outState : s.outgoing.peerState p = some stage.outState
  inState : s.incoming.peerState q = some stage.inState
  toIncoming : s.toIncoming = stage.toIncoming s.outgoing.nonce
  toOutgoing : s.toOutgoing = stage.toOutgoing s.incoming.nonce

/-- How far two networks have got. -/
inductive Phase (s : Pair) : Prop where
  | apart (outPeer : s.outPeer = none) (inPeer : s.inPeer = none) (toIncoming : s.toIncoming = [])
      (toOutgoing : s.toOutgoing = [])
  | offered (p : Nat) (outPeer : s.outPeer = some p) (inPeer : s.inPeer = none)
      (outBorn : p < s.outgoing.nextPeer)
      (outState : s.outgoing.peerState p = some .awaitingVerackOut)
      (toIncoming : s.toIncoming = [.version s.outgoing.nonce]) (toOutgoing : s.toOutgoing = [])
  | joined (p q : Nat) (stage : Stage) (h : s.At p q stage)

structure Inv (s : Pair) : Prop where
  nonces : s.outgoing.nonce ≠ s.incoming.nonce
  outUnborn : s.outgoing.Unborn
  inUnborn : s.incoming.Unborn
  phase : s.Phase

theorem sentSince_append {nw nw' : State} {state : Option PeerState} {l : List Greeting}
    (h : nw'.talk p = (state, nw.sent p ++ l)) : nw'.sentSince nw (some p) = l := by
  rw [State.sentSince, (Prod.mk.inj h).2, List.drop_left]

theorem sentSince_same {nw nw' : State} (h : nw'.talk p = nw.talk p) :
    nw'.sentSince nw (some p) = [] := by
  rw [State.sentSince, (Prod.mk.inj h).2, List.drop_length]

theorem Inv.connect (h : s.Inv) {monotonic rand : Nat}
    (hs : s.step ssl (.connect monotonic rand) = some s') : s'.Inv := by
  rw [Pair.step] at hs
  split at hs
  · rename_i hnone
    obtain ⟨nw, hstep, hs⟩ := Option.bind_eq_some_iff.mp hs
    dsimp only at hs
    split at hs
    · rename_i hnext
      cases hs
      have hmoves := State.moves_step hstep s.outgoing.nextPeer
      have hbefore := h.outUnborn s.outgoing.nextPeer (le_refl _)
      obtain ⟨hinPeer, htoOutgoing⟩ : s.inPeer = none ∧ s.toOutgoing = [] := by
        cases h.phase with
        | apart _ hinPeer _ htoOutgoing => exact ⟨hinPeer, htoOutgoing⟩
        | offered _ houtPeer _ _ _ _ _ => cases hnone ▸ houtPeer
        | joined _ _ _ hat => cases hnone ▸ hat.outPeer
      refine ⟨?_, h.outUnborn.step hstep, h.inUnborn, ?_⟩
      · show nw.nonce ≠ _
        rw [hmoves.nonce]
        exact h.nonces
      · -- a new peer that was sent a version command
        cases hmoves.move with
        | connected _ _ _ htalk =>
          refine .offered s.outgoing.nextPeer rfl hinPeer ?_ (Prod.mk.inj htalk).1 ?_ htoOutgoing
          · show _ < nw.nextPeer
            omega
          · show nw.sentSince s.outgoing (some s.outgoing.nextPeer) = [.version nw.nonce]
            rw [sentSince_append htalk, hmoves.nonce]
        | spared hp _ _ => omega
        | accepted he _ _ _ =>
          obtain ⟨_, he⟩ := he
          cases he
        | removed he _ => exact he.elim
        | version _ _ he _ => exact he.elim
        | verack _ _ he _ => exact he.elim
    · cases hs
  · cases hs

theorem Inv.accept (h : s.Inv) {socket : Nat} (hs : s.step ssl (.accept socket) = some s') :
    s'.Inv := by
  rw [Pair.step] at hs
  split at hs
  · rename_i hcond
    obtain ⟨nw, hstep, hs⟩ := Option.bind_eq_some_iff.mp hs
    cases hs
    have hmoves := State.moves_step hstep s.incoming.nextPeer
    refine ⟨?_, h.outUnborn, h.inUnborn.step hstep, ?_⟩
    · show _ ≠ nw.nonce
      rw [hmoves.nonce]
      exact h.nonces
    · have hnext : nw.nextPeer = s.incoming.nextPeer + 1 := by
        rw [Network.step] at hstep
        split at hstep
        · cases hstep
          rfl
        · cases hstep
      cases h.phase with
      | apart houtPeer _ _ _ => exact absurd houtPeer hcond.1
      | joined _ _ _ hat => cases hcond.2 ▸ hat.inPeer
      | offered p houtPeer _ houtBorn houtState htoIncoming htoOutgoing =>
        cases hmoves.move with
        | accepted _ _ _ htalk =>
          have hsince : nw.sentSince s.incoming (some s.incoming.nextPeer) = [] := by
            apply sentSince_append
            rw [List.append_nil]
            exact htalk
          exact .joined p s.incoming.nextPeer .accepted
            { outPeer := houtPeer
              inPeer := rfl
              outBorn := houtBorn
              inBorn := by
                show _ < nw.nextPeer
                omega
              outState := houtState
              inState := (Prod.mk.inj htalk).1
              toIncoming := htoIncoming
              toOutgoing := hsince }
        | spared hp _ _ => omega
        | connected he _ _ _ =>
          obtain ⟨_, _, he⟩ := he
          cases he
        | removed he _ => exact he.elim
        | version _ _ he _ => exact he.elim
        | verack _ _ he _ => exact he.elim
  · cases hs

/-- The commands that are on their way to one network have been sent by the other. -/
theorem At.deliverIncoming (h : s.At p q stage) (hnonces : s.outgoing.nonce ≠ s.incoming.nonce)
    {g : Greeting} {rest : List Greeting} (hqueue : s.toIncoming = g :: rest) {nw : State}
    {now timestamp : Int} {stream services : Nat} {address : Netaddress}
    (hstep : Network.step ssl s.incoming (g.event q now timestamp stream services address) =
      some nw) :
    ∃ stage', At { s with
      incoming := nw, toIncoming := rest
      toOutgoing := s.toOutgoing ++ nw.sentSince s.incoming s.inPeer } p q stage' := by
  have hmoves := State.moves_step hstep q
  have hborn : q < nw.nextPeer := h.inBorn.trans_le hmoves.nextPeer
  have hsent := h.toIncoming
  have hwaiting := h.toOutgoing
  have hinState := h.inState
  rw [hqueue] at hsent
  cases stage with
  | accepted =>
    cases hsent
    have htalk := State.talk_version hstep h.inBorn hnonces hinState
    refine ⟨.answered, h.outPeer, h.inPeer, h.outBorn, hborn, h.outState, (Prod.mk.inj htalk).1,
      rfl, ?_⟩
    dsimp only
    rw [hwaiting, h.inPeer, sentSince_append htalk, hmoves.nonce]
    rfl
  | settled =>
    cases hsent
    have htalk := State.talk_verack hstep h.inBorn hinState
    rw [← List.append_nil (s.incoming.sent q)] at htalk
    refine ⟨.established, h.outPeer, h.inPeer, h.outBorn, hborn, h.outState, (Prod.mk.inj htalk).1,
      rfl, ?_⟩
    dsimp only
    rw [hwaiting, h.inPeer, sentSince_append htalk]
    rfl
  | answered => cases hsent
  | acknowledged => cases hsent
  | established => cases hsent

theorem At.deliverOutgoing (h : s.At p q stage) (hnonces : s.outgoing.nonce ≠ s.incoming.nonce)
    {g : Greeting} {rest : List Greeting} (hqueue : s.toOutgoing = g :: rest) {nw : State}
    {now timestamp : Int} {stream services : Nat} {address : Netaddress}
    (hstep : Network.step ssl s.outgoing (g.event p now timestamp stream services address) =
      some nw) :
    ∃ stage', At { s with
      outgoing := nw, toOutgoing := rest
      toIncoming := s.toIncoming ++ nw.sentSince s.outgoing s.outPeer } p q stage' := by
  have hmoves := State.moves_step hstep p
  have hborn : p < nw.nextPeer := h.outBorn.trans_le hmoves.nextPeer
  have hsent := h.toOutgoing
  have hwaiting := h.toIncoming
  have houtState := h.outState
  rw [hqueue] at hsent
  cases stage with
  | answered =>
    cases hsent
    have htalk := State.talk_verack hstep h.outBorn houtState
    rw [← List.append_nil (s.outgoing.sent p)] at htalk
    refine ⟨.acknowledged, h.outPeer, h.inPeer, hborn, h.inBorn, (Prod.mk.inj htalk).1, h.inState,
      ?_, rfl⟩
    dsimp only
    rw [hwaiting, h.outPeer, sentSince_append htalk]
    rfl
  | acknowledged =>
    cases hsent
    have htalk := State.talk_version hstep h.outBorn hnonces.symm houtState
    refine ⟨.settled, h.outPeer, h.inPeer, hborn, h.inBorn, (Prod.mk.inj htalk).1, h.inState,
      ?_, rfl⟩
    dsimp only
    rw [hwaiting, h.outPeer, sentSince_append htalk]
    rfl
  | accepted => cases hsent
  | settled => cases hsent
  | established => cases hsent

theorem Inv.deliverIncoming (h : s.Inv) {now timestamp : Int} {stream services : Nat}
    {address : Netaddress}
    (hs : s.step ssl (.deliverIncoming now timestamp stream services address) = some s') :
    s'.Inv := by
  rw [Pair.step] at hs
  split at hs
  · rename_i q g rest hinPeer hqueue
    obtain ⟨nw, hstep, hs⟩ := Option.bind_eq_some_iff.mp hs
    cases hs
    refine ⟨?_, h.outUnborn, h.inUnborn.step hstep, ?_⟩
    · show _ ≠ nw.nonce
      rw [(State.moves_step hstep q).nonce]
      exact h.nonces
    · cases h.phase with
      | apart _ hnone _ _ => cases hnone ▸ hinPeer
      | offered _ _ hnone _ _ _ _ => cases hnone ▸ hinPeer
      | joined p q' stage hat =>
        cases hat.inPeer ▸ hinPeer
        obtain ⟨stage', hat'⟩ := hat.deliverIncoming h.nonces hqueue hstep
        exact .joined p q stage' hat'
  · cases hs

theorem Inv.deliverOutgoing (h : s.Inv) {now timestamp : Int} {stream services : Nat}
    {address : Netaddress}
    (hs : s.step ssl (.deliverOutgoing now timestamp stream services address) = some s') :
    s'.Inv := by
  rw [Pair.step] at hs
  split at hs
  · rename_i p g rest houtPeer hqueue
    obtain ⟨nw, hstep, hs⟩ := Option.bind_eq_some_iff.mp hs
    cases hs
    refine ⟨?_, h.outUnborn.step hstep, h.inUnborn, ?_⟩
    · show nw.nonce ≠ _
      rw [(State.moves_step hstep p).nonce]
      exact h.nonces
    · cases h.phase with
      | apart hnone _ _ _ => cases hnone ▸ houtPeer
      | offered _ _ _ _ _ _ hempty => cases hempty ▸ hqueue
      | joined p' q stage hat =>
        cases hat.outPeer ▸ houtPeer
        obtain ⟨stage', hat'⟩ := hat.deliverOutgoing h.nonces hqueue hstep
        exact .joined p q stage' hat'
  · cases hs

theorem Inv.outgoing (h : s.Inv) {e : Event} (hs : s.step ssl (.outgoing e) = some s') :
    s'.Inv := by
  rw [Pair.step] at hs
  split at hs
  · rename_i hother
    obtain ⟨nw, hstep, hs⟩ := Option.bind_eq_some_iff.mp hs
    cases hs
    have hnonce := (State.moves_step hstep 0).nonce
    have hnext := (State.moves_step hstep 0).nextPeer
    refine ⟨?_, h.outUnborn.step hstep, h.inUnborn, ?_⟩
    · show nw.nonce ≠ _
      rw [hnonce]
      exact h.nonces
    · cases h.phase with
      | apart houtPeer hinPeer htoIncoming htoOutgoing =>
        refine .apart houtPeer hinPeer ?_ htoOutgoing
        dsimp only
        rw [htoIncoming, houtPeer]
        rfl
      | offered p houtPeer hinPeer houtBorn houtState htoIncoming htoOutgoing =>
        rw [houtPeer, Option.all_some, Bool.not_eq_true'] at hother
        have htalk := State.talk_other hstep houtBorn hother
        refine .offered p houtPeer hinPeer (houtBorn.trans_le hnext) ?_ ?_ htoOutgoing
        · exact (Prod.mk.inj htalk).1.trans houtState
        · dsimp only
          rw [houtPeer, sentSince_same htalk, List.append_nil, hnonce]
          exact htoIncoming
      | joined p q stage hat =>
        rw [hat.outPeer, Option.all_some, Bool.not_eq_true'] at hother
        have htalk := State.talk_other hstep hat.outBorn hother
        exact .joined p q stage
          { hat with
            outBorn := hat.outBorn.trans_le hnext
            outState := (Prod.mk.inj htalk).1.trans hat.outState
            toIncoming := by
              dsimp only
              rw [hat.outPeer, sentSince_same htalk, List.append_nil, hnonce]
              exact hat.toIncoming }
  · cases hs

theorem Inv.incoming (h : s.Inv) {e : Event} (hs : s.step ssl (.incoming e) = some s') :
    s'.Inv := by
  rw [Pair.step] at hs
  split at hs
  · rename_i hother
    obtain ⟨nw, hstep, hs⟩ := Option.bind_eq_some_iff.mp hs
    cases hs
    have hnonce := (State.moves_step hstep 0).nonce
    have hnext := (State.moves_step hstep 0).nextPeer
    refine ⟨?_, h.outUnborn, h.inUnborn.step hstep, ?_⟩
    · show _ ≠ nw.nonce
      rw [hnonce]
      exact h.nonces
    · cases h.phase with
      | apart houtPeer hinPeer htoIncoming htoOutgoing =>
        refine .apart houtPeer hinPeer htoIncoming ?_
        dsimp only
        rw [htoOutgoing, hinPeer]
        rfl
      | offered p houtPeer hinPeer houtBorn houtState htoIncoming htoOutgoing =>
        refine .offered p houtPeer hinPeer houtBorn houtState htoIncoming ?_
        dsimp only
        rw [htoOutgoing, hinPeer]
        rfl
      | joined p q stage hat =>
        rw [hat.inPeer, Option.all_some, Bool.not_eq_true'] at hother
        have htalk := State.talk_other hstep hat.inBorn hother
        exact .joined p q stage
          { hat with
            inBorn := hat.inBorn.trans_le hnext
            inState := (Prod.mk.inj htalk).1.trans hat.inState
            toOutgoing := by
              dsimp only
              rw [hat.inPeer, sentSince_same htalk, List.append_nil, hnonce]
              exact hat.toOutgoing }
  · cases hs

theorem Inv.step (h : s.Inv) {e : PairEvent} (hs : s.step ssl e = some s') : s'.Inv := by
  cases e with
  | connect monotonic rand => exact h.connect hs
  | accept socket => exact h.accept hs
  | deliverIncoming now timestamp stream services address => exact h.deliverIncoming hs
  | deliverOutgoing now timestamp stream services address => exact h.deliverOutgoing hs
  | outgoing e => exact h.outgoing hs
  | incoming e => exact h.incoming hs

/-- Two networks that have just been started. -/
def new (outNonce inNonce : Nat) (outAddrs inAddrs : List Netaddress) : Pair where
  outgoing := State.new outNonce outAddrs
  incoming := State.new inNonce inAddrs

theorem Inv.run (ssl : OpenSSL) {outNonce inNonce : Nat} (hne : outNonce ≠ inNonce)
    (outAddrs inAddrs : List Netaddress) (events : List PairEvent) :
    (run (Pair.step ssl) (Pair.new outNonce inNonce outAddrs inAddrs) events).Inv :=
  invariant (fun _ _ _ h hs => h.step hs)
    ⟨hne, fun _ _ => rfl, fun _ _ => rfl, .apart rfl rfl rfl rfl⟩ events

-- The queues are empty at the end only.
theorem Inv.drained (h : s.Inv) (houtPeer : s.outPeer = some p) (hin : s.toIncoming = [])
    (hout : s.toOutgoing = []) : ∃ q, s.inPeer = some q ∧
      s.outgoing.peerState p = some .connected ∧ s.incoming.peerState q = some .connected := by
  cases h.phase with
  | apart hnone _ _ _ => cases hnone ▸ houtPeer
  | offered _ _ _ _ _ hqueue _ => cases hin ▸ hqueue
  | joined p' q stage hat =>
    cases hat.outPeer ▸ houtPeer
    have hqueue := hat.toIncoming
    have hqueue' := hat.toOutgoing
    rw [hin] at hqueue
    rw [hout] at hqueue'
    cases stage with
    | established => exact ⟨q, hat.inPeer, hat.outState, hat.inState⟩
    | accepted => cases hqueue
    | settled => cases hqueue
    | answered => cases hqueue'
    | acknowledged => cases hqueue'

end Pair

/-! ## 3. All runs -/

theorem State.Tied.peerState_of_mem {nw : State} (h : nw.Tied) {peer : Peer}
    (hpeer : peer ∈ nw.peers) : nw.peerState peer.id = some peer.state := by
  have hids := h.ids
  rw [State.links, List.map_map] at hids
  have hsome : (nw.findPeer peer.id).isSome = true := by
    rw [State.findPeer, List.find?_isSome]
    exact ⟨peer, hpeer, decide_eq_true rfl⟩
  obtain ⟨found, hfind⟩ := Option.isSome_iff_exists.mp hsome
  obtain ⟨hmem, hid⟩ := State.findPeer_mem hfind
  rw [State.peerState_of_findPeer hfind, List.inj_on_of_nodup_map hids hmem hpeer hid]

/-- A peer is connected only if it has sent a version command that is not refused and a verack
command; and two networks with different nonces that are joined by a connection are both connected
when everything that they sent each other has been received. -/
theorem handshake_sound (ssl : OpenSSL) :
    (∀ (nonce : Nat) (defaultAddrs : List Netaddress) (events : List Event),
      let past := happened (step ssl) (State.new nonce defaultAddrs) events
      ∀ peer ∈ (run (step ssl) (State.new nonce defaultAddrs) events).peers,
        peer.state = .connected →
          (∃ e ∈ past, e.IsVersion nonce peer.id) ∧ ∃ e ∈ past, e.IsVerack peer.id) ∧
    ∀ (outNonce inNonce : Nat) (outAddrs inAddrs : List Netaddress) (events : List PairEvent),
      outNonce ≠ inNonce →
      let s := run (Pair.step ssl) (Pair.new outNonce inNonce outAddrs inAddrs) events
      ∀ p, s.outPeer = some p → s.toIncoming = [] → s.toOutgoing = [] →
        ∃ q, s.inPeer = some q ∧ s.outgoing.peerState p = some .connected ∧
          s.incoming.peerState q = some .connected := by
  constructor
  · intro nonce defaultAddrs events past peer hpeer hstate
    have htied := State.Tied.run ssl nonce defaultAddrs events
    have hgreeted := State.AllGreeted.run ssl nonce defaultAddrs events
    have hconnected := htied.peerState_of_mem hpeer
    rw [hstate] at hconnected
    exact hgreeted.2 peer.id .connected hconnected
  · intro outNonce inNonce outAddrs inAddrs events hne s p houtPeer hin hout
    exact (Pair.Inv.run ssl hne outAddrs inAddrs events).drained houtPeer hin hout

/-- A connection is made, accepted, and the four commands of the handshake are delivered. -/
def sampleHandshake : List PairEvent :=
  let address : Netaddress := { host := List.replicate 16 1, port := 8444 }
  [.incoming .addListenAddress, .connect minReconnectTime 0, .accept 0,
    .deliverIncoming 0 0 1 1 address, .deliverOutgoing 0 0 1 1 address,
    .deliverOutgoing 0 0 1 1 address, .deliverIncoming 0 0 1 1 address]

def sampleAddr : Netaddress := { host := List.replicate 16 2, port := 8444 }

theorem sampleHandshake_connected :
    let s := run (Pair.step .additive) (Pair.new 1 2 [sampleAddr] []) sampleHandshake
    s.outPeer = some 0 ∧ s.toIncoming = [] ∧ s.toOutgoing = [] ∧
      ∃ q, s.inPeer = some q ∧ s.outgoing.peerState 0 = some .connected ∧
        s.incoming.peerState q = some .connected :=
  ⟨rfl, rfl, rfl,
    (handshake_sound .additive).2 1 2 [sampleAddr] [] sampleHandshake (by decide) 0 rfl rfl rfl⟩

end Notbit.Network
