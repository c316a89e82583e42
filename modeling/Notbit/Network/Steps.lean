import Notbit.Network.Inventories

/-!
# Steps — what an event does to the inventories

Most events leave the inventories alone.  `step_cases` names the others, so that an invariant of the
inventories need not look at the handshake and the addresses.
-/

open Notbit.Proto

namespace Notbit.Network

/-- What the store thread is asked to do with the files of the objects. -/
inductive FileTask where
  | save (hash : Hash) (blob : Blob)
  | delete (hash : Hash)
  deriving DecidableEq, Repr

def Effect.fileTask : Effect → Option FileTask
  | .saveBlob hash blob => some (.save hash blob)
  | .deleteObject hash => some (.delete hash)
  | _ => none

namespace State

/-- All the tasks for the files of the objects so far. -/
def fileTasks (nw : State) : List FileTask := nw.log.filterMap Effect.fileTask

variable {nw nw' nw'' : State}

theorem fileTasks_emit (effects : List Effect) :
    (nw.emit effects).fileTasks = nw.fileTasks ++ effects.filterMap Effect.fileTask :=
  List.filterMap_append

/-! ## 1. Changes outside the inventories -/

/-- The inventories, those each peer was asked for and the files of the objects are the same. -/
structure Framed (nw nw' : State) : Prop where
  inventories : nw'.toInventories = nw.toInventories
  owners : nw'.owners = nw.owners
  nextPeer : nw'.nextPeer = nw.nextPeer
  fileTasks : nw'.fileTasks = nw.fileTasks

theorem Framed.refl (nw : State) : Framed nw nw := ⟨rfl, rfl, rfl, rfl⟩

theorem Framed.trans (h : Framed nw nw') (h' : Framed nw' nw'') : Framed nw nw'' :=
  ⟨h'.inventories.trans h.inventories, h'.owners.trans h.owners, h'.nextPeer.trans h.nextPeer,
    h'.fileTasks.trans h.fileTasks⟩

theorem Framed.emit (h : Framed nw nw') {effects : List Effect}
    (heffects : ∀ e ∈ effects, e.fileTask = none) : Framed nw (nw'.emit effects) :=
  h.trans ⟨rfl, rfl, rfl, by
    rw [fileTasks_emit, List.filterMap_eq_nil_iff.mpr heffects, List.append_nil]⟩

theorem Framed.setBook (h : Framed nw nw') (book : AddrBook) : Framed nw { nw' with book } :=
  h.trans ⟨rfl, rfl, rfl, rfl⟩

-- A change of a peer's handshake state or address.
theorem Framed.updatePeer (h : Framed nw nw') (id : Nat) {f : Peer → Peer}
    (hf : ∀ peer, (f peer).id = peer.id ∧
      (f peer).requestedInventories = peer.requestedInventories) :
    Framed nw (nw'.updatePeer id f) := by
  refine h.trans ⟨rfl, ?_, rfl, rfl⟩
  simp only [State.owners, State.updatePeer, List.map_map]
  apply List.map_congr_left
  intro peer _
  simp only [Function.comp]
  split_ifs
  · rw [(hf peer).1, (hf peer).2]
  · rfl

theorem framed_addAddr (nw : State) (now timestamp : Int) (stream services : Nat)
    (address : Netaddress) :
    Framed nw (nw.addAddr now timestamp stream services address).1 := by
  refine ((Framed.refl nw).setBook _).emit fun e he => ?_
  obtain ⟨peer, -, he⟩ := List.mem_flatMap.mp he
  obtain ⟨address, -, rfl⟩ := List.mem_map.mp he
  rfl

theorem Framed.connectionEstablished (h : Framed nw nw') (id : Nat) (now : Int) :
    Framed nw (nw'.connectionEstablished id now) :=
  (h.updatePeer id (f := fun peer => { peer with state := .connected }) fun _ => ⟨rfl, rfl⟩).emit
    (by simp [Effect.fileTask])

theorem framed_handleVerack (nw : State) (peer : Peer) (now : Int) :
    Framed nw (nw.handleVerack peer now) := by
  unfold handleVerack
  cases peer.state with
  | awaitingVerackOut =>
    exact (Framed.refl nw).updatePeer peer.id
      (f := fun peer => { peer with state := .awaitingVersionOut }) fun _ => ⟨rfl, rfl⟩
  | awaitingVerackIn => exact (Framed.refl nw).connectionEstablished _ _
  | awaitingVersionOut => exact Framed.refl nw
  | awaitingVersionIn => exact Framed.refl nw
  | connected => exact Framed.refl nw

/-- The part of `handle_version` that gives the peer the address it came from. -/
def claimAddr (nw : State) (peer : Peer) (addr : Option Nat) : State :=
  match nw.book.addrs.find? fun a => some a.id = addr ∧ peer.addr = none ∧ !a.connected with
  | some a =>
    { nw.updatePeer peer.id fun peer => { peer with addr := some a.id } with
      book := { nw.book.update a.id fun a => { a with connected := true } with
        nUnconnectedAddrs := nw.book.nUnconnectedAddrs - 1 } }
  | none => nw

/-- The part of `handle_version` that is about the handshake. -/
def answerVersion (nw : State) (peer : Peer) (now : Int) : State :=
  let nw := nw.emit [.sendVerack peer.id]
  match peer.state with
  | .awaitingVerackOut | .awaitingVerackIn | .connected => nw
  | .awaitingVersionOut => nw.connectionEstablished peer.id now
  | .awaitingVersionIn =>
    (nw.updatePeer peer.id fun peer => { peer with state := .awaitingVerackIn }).emit
      [.sendVersion peer.id]

theorem handleVersion_of_ok {nonce version : Nat} (hnonce : nonce ≠ nw.nonce)
    (hversion : version = protoVersion) (peer : Peer) (now timestamp : Int) (stream services : Nat)
    (address : Netaddress) :
    nw.handleVersion peer now nonce version timestamp stream services address =
      ((nw.addAddr now timestamp stream services address).1.claimAddr peer
        (nw.addAddr now timestamp stream services address).2).answerVersion peer now := by
  have hok : ¬ (nonce = nw.nonce ∨ version ≠ protoVersion) := by
    rintro (h | h)
    · exact hnonce h
    · exact h hversion
  rw [handleVersion, if_neg hok]
  rfl

theorem handleVersion_of_not_ok {nonce version : Nat}
    (h : nonce = nw.nonce ∨ version ≠ protoVersion) (peer : Peer) (now timestamp : Int)
    (stream services : Nat) (address : Netaddress) :
    nw.handleVersion peer now nonce version timestamp stream services address =
      nw.removePeer peer := by
  rw [handleVersion, if_pos h]

theorem Framed.claimAddr (h : Framed nw nw') (peer : Peer) (addr : Option Nat) :
    Framed nw (nw'.claimAddr peer addr) := by
  unfold State.claimAddr
  split
  next a _ =>
    exact (h.updatePeer peer.id (f := fun peer => { peer with addr := some a.id })
      fun _ => ⟨rfl, rfl⟩).setBook _
  next => exact h

theorem Framed.answerVersion (h : Framed nw nw') (peer : Peer) (now : Int) :
    Framed nw (nw'.answerVersion peer now) := by
  have hverack := @Framed.emit _ _ h [.sendVerack peer.id] (by simp [Effect.fileTask])
  unfold State.answerVersion
  cases peer.state with
  | awaitingVerackOut => exact hverack
  | awaitingVerackIn => exact hverack
  | connected => exact hverack
  | awaitingVersionOut => exact hverack.connectionEstablished _ _
  | awaitingVersionIn =>
    exact (hverack.updatePeer peer.id (f := fun peer => { peer with state := .awaitingVerackIn })
      fun _ => ⟨rfl, rfl⟩).emit (by simp [Effect.fileTask])

-- A version message ends the connection or is answered.
theorem handleVersion_cases (nw : State) (peer : Peer) (now : Int) (nonce version : Nat)
    (timestamp : Int) (stream services : Nat) (address : Netaddress) :
    nw.handleVersion peer now nonce version timestamp stream services address =
        nw.removePeer peer ∨
      Framed nw (nw.handleVersion peer now nonce version timestamp stream services address) := by
  by_cases hbad : nonce = nw.nonce ∨ version ≠ protoVersion
  · exact .inl (handleVersion_of_not_ok hbad peer now timestamp stream services address)
  · rw [not_or, not_not] at hbad
    rw [handleVersion_of_ok hbad.1 hbad.2]
    exact .inr (((framed_addAddr nw now timestamp stream services address).claimAddr peer
      _).answerVersion peer now)

/-- A peer is added between changes outside the inventories. -/
def AddsPeer (nw nw' : State) : Prop :=
  ∃ nw₁ state direction addr, Framed nw nw₁ ∧ Framed (nw₁.addPeer state direction addr) nw'

theorem connectQueueCb_cases {now rand : Nat} {ok : Bool}
    (hs : nw.connectQueueCb now rand ok = some nw') : Framed nw nw' ∨ AddsPeer nw nw' := by
  simp only [connectQueueCb] at hs
  split at hs
  · cases hs
    exact .inl ((Framed.refl nw).setBook _)
  · split at hs
    · cases hs
      exact .inl ((Framed.refl nw).setBook _)
    · obtain ⟨addr, -, hs⟩ := Option.bind_eq_some_iff.mp hs
      split at hs
      · cases hs
        exact .inr ⟨_, _, _, _, (Framed.refl nw).setBook _,
          ((Framed.refl _).setBook _).emit (by simp [Effect.fileTask])⟩
      · cases hs
        exact .inl ((Framed.refl nw).setBook _)

theorem findPeer_mem {id : Nat} {peer : Peer} (h : nw.findPeer id = some peer) :
    peer ∈ nw.peers ∧ peer.id = id := by
  have hid := List.find?_some h
  exact ⟨List.mem_of_find?_eq_some h, of_decide_eq_true hid⟩

end State

/-! ## 2. The events -/

/-- The object an event hands to `add_object`. -/
def Event.addedObject : Event → Option (Int × Blob × AddObjectFlags)
  | .object _ now blob => some (now, blob, {})
  | .addBlob now blob flags => some (now, blob, flags)
  | .addObjectFromData now blob flags => some (now, blob, flags)
  | _ => none

/-- How an event can change the inventories: not at all, by a peer that comes or goes, by the
announcement of objects, by an object, by the garbage collection or from the store. -/
inductive StepCase (ssl : OpenSSL) (nw nw' : State) : Event → Prop
  | framed {e : Event} (hadded : e.addedObject = none) (h : State.Framed nw nw') :
    StepCase ssl nw nw' e
  | addPeer {e : Event} (hadded : e.addedObject = none) (h : State.AddsPeer nw nw') :
    StepCase ssl nw nw' e
  | removePeer {e : Event} (hadded : e.addedObject = none) (peer : Peer) (hpeer : peer ∈ nw.peers)
    (h : nw' = nw.removePeer peer) : StepCase ssl nw nw' e
  | inv (peer monotonic : Nat) (hashes : List Hash) (hpeer : peer ∈ nw.peers.map (·.id))
    (h : nw' = nw.handleInv peer monotonic hashes) : StepCase ssl nw nw' (.inv peer monotonic hashes)
  | object {e : Event} (now : Int) (blob : Blob) (flags : AddObjectFlags)
    (hadded : e.addedObject = some (now, blob, flags))
    (h : nw.addObject ssl now blob flags = some nw') : StepCase ssl nw nw' e
  | gc (now : Int) (monotonic : Nat) (h : nw' = nw.gcTimeoutCb now monotonic) :
    StepCase ssl nw nw' (.gc now monotonic)
  | loadBlob (type : InvType) (hash : Hash) (timestamp : Int)
    (h : nw' = nw.storeForEachBlobCb type hash timestamp) :
    StepCase ssl nw nw' (.loadBlob type hash timestamp)

variable {ssl : OpenSSL} {nw nw' : State} {e : Event}

open State in
theorem step_cases (hs : step ssl nw e = some nw') : StepCase ssl nw nw' e := by
  have hbook : ∀ book : AddrBook, Framed nw { nw with book } := (Framed.refl nw).setBook
  cases e with
  | connectQueue monotonic rand ok =>
    simp only [step] at hs
    split at hs
    · rcases connectQueueCb_cases hs with h | h
      · exact .framed rfl h
      · exact .addPeer rfl h
    · cases hs
  | accept socket =>
    simp only [step] at hs
    split at hs
    · cases hs
      exact .addPeer rfl ⟨nw, _, _, _, Framed.refl nw, (Framed.refl _).setBook _⟩
    · cases hs
  | error peer =>
    obtain ⟨p, hp, rfl⟩ := Option.map_eq_some_iff.mp hs
    exact .removePeer rfl p (findPeer_mem hp).1 rfl
  | version peer now nonce version timestamp stream services address =>
    obtain ⟨p, hp, rfl⟩ := Option.map_eq_some_iff.mp hs
    rcases handleVersion_cases nw p now nonce version timestamp stream services address with h | h
    · exact .removePeer rfl p (findPeer_mem hp).1 h
    · exact .framed rfl h
  | verack peer now =>
    obtain ⟨p, -, rfl⟩ := Option.map_eq_some_iff.mp hs
    exact .framed rfl (framed_handleVerack nw p now)
  | inv peer monotonic hashes =>
    obtain ⟨p, hp, rfl⟩ := Option.map_eq_some_iff.mp hs
    obtain ⟨hmem, rfl⟩ := findPeer_mem hp
    exact .inv p.id monotonic hashes (List.mem_map_of_mem hmem) rfl
  | addr peer now timestamp stream services address =>
    obtain ⟨p, -, rfl⟩ := Option.map_eq_some_iff.mp hs
    split_ifs
    · exact .framed rfl (framed_addAddr nw now timestamp stream services address)
    · exact .framed rfl (Framed.refl nw)
  | getdata peer hashes =>
    obtain ⟨p, -, rfl⟩ := Option.map_eq_some_iff.mp hs
    exact .framed rfl ((Framed.refl nw).emit (by simp [Effect.fileTask]))
  | object peer now blob =>
    obtain ⟨p, -, hs⟩ := Option.bind_eq_some_iff.mp hs
    exact .object now blob {} rfl hs
  | addBlob now blob flags => exact .object now blob flags rfl hs
  | addObjectFromData now blob flags => exact .object now blob flags rfl hs
  | delayedBroadcast i =>
    obtain ⟨hash, -, rfl⟩ := Option.map_eq_some_iff.mp hs
    have hsent : Framed nw (nw.broadcastInv hash) :=
      (Framed.refl nw).emit (by simp [Effect.fileTask])
    exact .framed rfl (hsent.trans ⟨rfl, rfl, rfl, rfl⟩)
  | gc now monotonic =>
    cases hs
    exact .gc now monotonic rfl
  | loadBlob type hash timestamp =>
    cases hs
    exact .loadBlob type hash timestamp rfl
  | loadAddr now timestamp stream services address =>
    cases hs
    exact .framed rfl (framed_addAddr nw now timestamp stream services address)
  | dnsAddress address =>
    simp only [step] at hs
    split at hs
    · cases hs
      exact .framed rfl (hbook _)
    · cases hs
      exact .framed rfl (Framed.refl nw)
  | addPeerAddress address => cases hs; exact .framed rfl (hbook _)
  | addListenAddress => cases hs; exact .framed rfl (hbook _)
  | listenError socket => cases hs; exact .framed rfl (hbook _)
  | storeLoaded => cases hs; exact .framed rfl (hbook _)
  | useOnlyExplicitAddresses value => cases hs; exact .framed rfl (hbook _)
  | saveAddrList => cases hs; exact .framed rfl (hbook _)

end Notbit.Network
