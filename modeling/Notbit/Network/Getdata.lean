import Notbit.Network.Events

/-!
# Getdata — what the network sends when a peer asks for objects

Every accepted inventory has its blob, or the blob is in the store.  `handle_getdata` only leaves
out the rejected inventories, so what it sends is good exactly if no peer asks for an object that
was announced and has not arrived.
-/

open Notbit.Proto

namespace Notbit.Network

/-- The blob of an inventory can be sent: it is in memory since it was received, or the field says
that it is in the store and it was saved there or found there. -/
def Inventory.Available (inv : Inventory) (log : List Effect) : Prop :=
  match inv.blob with
  | none => False
  | some none => (∃ blob, .saveBlob inv.hash blob ∈ log) ∨ .loadedBlob inv.hash ∈ log
  | some (some blob) => .saveBlob inv.hash blob ∈ log

/-- Every accepted inventory can be sent. -/
def Filled (heap : Nat → Inventory) (log : List Effect) : Prop :=
  ∀ a, (heap a).state = .accepted → (heap a).Available log

variable {inv : Inventory} {heap : Nat → Inventory} {log log' : List Effect} {a : Nat}

theorem Inventory.Available.mono (h : inv.Available log) (hlog : log ⊆ log') :
    inv.Available log' := by
  unfold Inventory.Available at h ⊢
  split
  next heq => simp [heq] at h
  next heq =>
    simp only [heq] at h
    exact h.imp (fun ⟨blob, hb⟩ => ⟨blob, hlog hb⟩) fun hb => hlog hb
  next heq =>
    simp only [heq] at h
    exact hlog h

-- The blob may be dropped from memory.
theorem Inventory.Available.unload (h : inv.Available log) :
    { inv with blob := some none }.Available log := by
  unfold Inventory.Available at h ⊢
  split at h
  · cases h
  · exact h
  · exact .inl ⟨_, h⟩

theorem Filled.mono (h : Filled heap log) (hlog : log ⊆ log') : Filled heap log' :=
  fun a ha => (h a ha).mono hlog

theorem Filled.set (h : Filled heap log) (hinv : inv.state = .accepted → inv.Available log) :
    Filled (Function.update heap a inv) log := by
  intro b hb
  by_cases hba : b = a
  · subst hba
    rw [Function.update_self] at hb ⊢
    exact hinv hb
  · rw [Function.update_of_ne hba] at hb ⊢
    exact h b hb

-- Writing anything but the state, the hash and the blob.
theorem Filled.setTime (h : Filled heap log) (time : Int) :
    Filled (Function.update heap a { heap a with time }) log :=
  h.set fun hstate => h a hstate

/-! ## 1. One event -/

namespace State

/-- The invariant, of a network. -/
abbrev Filled (nw : State) : Prop := Network.Filled nw.heap nw.log

variable {nw nw' : State}

theorem Filled.emit (h : nw.Filled) (effects : List Effect) : (nw.emit effects).Filled :=
  h.mono (List.subset_append_left _ _)

theorem Filled.alloc (h : nw.Filled) : nw.alloc.2.Filled := by
  unfold State.alloc
  split <;> exact h

theorem Filled.dropInventory (h : nw.Filled) (a : Nat) : (nw.dropInventory a).Filled :=
  h.set fun hstate => by cases hstate

theorem Filled.removePeer (h : nw.Filled) (peer : Peer) : (nw.removePeer peer).Filled := by
  have hdropped : (peer.requestedInventories.foldl State.dropInventory nw).Filled := by
    induction peer.requestedInventories generalizing nw with
    | nil => exact h
    | cons a l ih => exact ih (h.dropInventory a)
  exact hdropped

theorem Filled.connectionEstablished (h : nw.Filled) (id : Nat) (now : Int) :
    (nw.connectionEstablished id now).Filled :=
  (show (nw.updatePeer id _).Filled from h).emit _

theorem Filled.addAddr (h : nw.Filled) (now timestamp : Int) (stream services : Nat)
    (address : Netaddress) : (nw.addAddr now timestamp stream services address).1.Filled :=
  h.mono (List.subset_append_left _ _)

theorem Filled.handleVersion (h : nw.Filled) (peer : Peer) (now : Int) (nonce version : Nat)
    (timestamp : Int) (stream services : Nat) (address : Netaddress) :
    (nw.handleVersion peer now nonce version timestamp stream services address).Filled := by
  unfold State.handleVersion
  split_ifs
  · exact h.removePeer peer
  · have hadd := h.addAddr now timestamp stream services address
    generalize nw.addAddr now timestamp stream services address = r at hadd ⊢
    obtain ⟨nw₁, addr⟩ := r
    simp only
    generalize nw₁.book.addrs.find? _ = unclaimed
    have hverack : Network.Filled nw₁.heap (nw₁.log ++ [.sendVerack peer.id]) :=
      hadd.mono (List.subset_append_left _ _)
    -- claiming the address touches neither heap nor log
    cases unclaimed <;> cases peer.state
    case none.awaitingVersionOut | some.awaitingVersionOut =>
      exact hverack.mono (List.subset_append_left _ _)
    case none.awaitingVersionIn | some.awaitingVersionIn =>
      exact hverack.mono (List.subset_append_left _ _)
    all_goals exact hverack

theorem Filled.handleVerack (h : nw.Filled) (peer : Peer) (now : Int) :
    (nw.handleVerack peer now).Filled := by
  unfold State.handleVerack
  cases peer.state with
  | awaitingVerackIn => exact h.connectionEstablished _ _
  | _ => exact h

theorem Filled.connectQueueCb {now rand : Nat} {ok : Bool} (h : nw.Filled)
    (hs : nw.connectQueueCb now rand ok = some nw') : nw'.Filled := by
  simp only [State.connectQueueCb] at hs
  split at hs
  · cases hs
    exact h
  · split at hs
    · cases hs
      exact h
    · obtain ⟨addr, -, hs⟩ := Option.bind_eq_some_iff.mp hs
      split at hs
      · cases hs
        exact h.mono (List.subset_append_left _ _)
      · cases hs
        exact h

theorem Filled.requestInventory (h : nw.Filled) (peer now : Nat) (hash : Hash) :
    (nw.requestInventory peer now hash).Filled :=
  h.alloc.set fun hstate => by cases hstate

theorem Filled.handleInv (h : nw.Filled) (peer now : Nat) (hashes : List Hash) :
    (nw.handleInv peer now hashes).Filled := by
  have hloop : ∀ s : State × List Hash, s.1.Filled →
      (hashes.foldl (handleInvHash peer now) s).1.Filled := by
    induction hashes with
    | nil => exact fun s hs => hs
    | cons hash hashes ih =>
      intro s hs
      apply ih
      unfold handleInvHash
      split
      · exact hs.requestInventory peer now hash
      · exact hs
  exact (hloop (nw, []) h).emit _

theorem Filled.rejectInventory {a : Nat} (h : nw.Filled)
    (hs : nw.rejectInventory a = some nw') : nw'.Filled := by
  have hset : (nw.setInventory a { nw.heap a with state := .rejected }).Filled :=
    h.set fun hstate => by cases hstate
  simp only [State.rejectInventory, evictRejected] at hs
  split at hs
  · obtain ⟨nw₁, hevict, hs⟩ := Option.bind_eq_some_iff.mp hs
    obtain ⟨old, -, heq⟩ := Option.bind_eq_some_iff.mp hevict
    cases heq
    cases hs
    exact hset.set fun hstate => by cases hstate
  · cases hs
    exact hset

theorem Filled.acceptInventory (h : nw.Filled) (a : Nat) (blob : Blob) (age : Int) (delay : Bool) :
    (nw.acceptInventory a blob age delay).Filled := by
  -- the blob is saved before the inventory becomes an accepted one
  have hsaved : Network.Filled (Function.update nw.heap a
      { nw.heap a with blob := some (some blob), type := some blob.type, state := .accepted })
      (nw.log ++ [.saveBlob (nw.heap a).hash blob]) :=
    (h.mono (List.subset_append_left _ _)).set fun _ =>
      List.mem_append_right _ List.mem_cons_self
  have hsent : ∀ effects, Network.Filled (Function.update nw.heap a
      { nw.heap a with blob := some (some blob), type := some blob.type, state := .accepted })
      (nw.log ++ [.saveBlob (nw.heap a).hash blob] ++ effects) := fun effects =>
    hsaved.mono (List.subset_append_left _ _)
  have hdrop : ∀ {heap : Nat → Inventory} {log : List Effect}, Network.Filled heap log →
      Network.Filled (Function.update heap a { heap a with blob := some none }) log :=
    fun h => h.set fun hstate => (h a hstate).unload
  unfold State.acceptInventory
  simp only
  split_ifs
  · exact hdrop (hsent _)
  · exact hdrop ((hsent _).mono (List.subset_append_left _ _))
  · exact hsent _
  · exact (hsent _).mono (List.subset_append_left _ _)

theorem Filled.claimInventory {hash : Hash} {a : Nat} (h : nw.Filled)
    (hs : nw.claimInventory hash = some (some (a, nw'))) : nw'.Filled := by
  unfold State.claimInventory at hs
  split at hs
  · cases hs
    exact h.alloc.set fun hstate => by cases hstate
  · split at hs
    · split at hs
      · cases hs
        exact h
      · cases hs
    · cases hs

theorem Filled.addObject {ssl : OpenSSL} {now : Int} {blob : Blob} {flags : AddObjectFlags}
    (h : nw.Filled) (hs : nw.addObject ssl now blob flags = some nw') : nw'.Filled := by
  unfold State.addObject at hs
  split at hs
  · cases hs
    exact h
  · obtain ⟨claimed, hclaim, hs⟩ := Option.bind_eq_some_iff.mp hs
    cases claimed with
    | none =>
      cases hs
      exact h
    | some r =>
      obtain ⟨a, nw₁⟩ := r
      have htime := (h.claimInventory hclaim).setTime (a := a)
      simp only at hs
      split at hs
      · exact Filled.rejectInventory (htime _) hs
      · cases hs
        exact Filled.acceptInventory (htime _) _ _ _ _

theorem Filled.storeForEachBlobCb (h : nw.Filled) (type : InvType) (hash : Hash)
    (timestamp : Int) : (nw.storeForEachBlobCb type hash timestamp).Filled := by
  unfold State.storeForEachBlobCb
  split
  · exact h
  · exact (h.alloc.mono (List.subset_append_left _ _)).set fun _ =>
      .inr (List.mem_append_right _ List.mem_cons_self)

theorem Filled.gcRequestedInventory (h : nw.Filled) (now a : Nat) :
    (nw.gcRequestedInventory now a).Filled := by
  unfold State.gcRequestedInventory
  split_ifs
  · exact (show (nw.listRemove a).Filled from h).dropInventory a
  · exact h

theorem Filled.gcInventory (h : nw.Filled) (now : Int) (a : Nat) :
    (nw.gcInventory now a).Filled := by
  unfold State.gcInventory
  simp only
  split_ifs
  · exact (show (State.listRemove _ a).Filled from h).dropInventory a
  · exact (show ((nw.emit _).listRemove a).Filled from h.emit _).dropInventory a
  · exact h.set fun hstate => (h a hstate).unload
  · exact h

theorem Filled.foldl {f : State → Nat → State} (hf : ∀ nw a, Filled nw → Filled (f nw a))
    (h : nw.Filled) (l : List Nat) : (l.foldl f nw).Filled := by
  induction l generalizing nw with
  | nil => exact h
  | cons a l ih => exact ih (hf nw a h)

theorem Filled.gcTimeoutCb (h : nw.Filled) (now : Int) (monotonic : Nat) :
    (nw.gcTimeoutCb now monotonic).Filled := by
  have hgc : ∀ {nw : State} (l : List Nat), nw.Filled →
      (l.foldl (State.gcInventory now) nw).Filled := fun l h =>
    h.foldl (fun _ a h => Filled.gcInventory h now a) l
  have hstubs := h.foldl (fun _ a h => Filled.gcRequestedInventory h monotonic a) nw.requested
  exact hgc _ (hgc _ hstubs)

end State

theorem Filled.step {ssl : OpenSSL} {nw nw' : State} {e : Event} (h : nw.Filled)
    (hs : step ssl nw e = some nw') : nw'.Filled := by
  cases e with
  | connectQueue monotonic rand ok =>
    simp only [Network.step] at hs
    split at hs
    · exact State.Filled.connectQueueCb h hs
    · cases hs
  | accept socket =>
    simp only [Network.step] at hs
    split at hs
    · cases hs
      exact h
    · cases hs
  | error peer =>
    obtain ⟨p, -, rfl⟩ := Option.map_eq_some_iff.mp hs
    exact State.Filled.removePeer h p
  | version peer now nonce version timestamp stream services address =>
    obtain ⟨p, -, rfl⟩ := Option.map_eq_some_iff.mp hs
    exact State.Filled.handleVersion h _ _ _ _ _ _ _ _
  | verack peer now =>
    obtain ⟨p, -, rfl⟩ := Option.map_eq_some_iff.mp hs
    exact State.Filled.handleVerack h _ _
  | inv peer monotonic hashes =>
    obtain ⟨p, -, rfl⟩ := Option.map_eq_some_iff.mp hs
    exact State.Filled.handleInv h _ _ _
  | addr peer now timestamp stream services address =>
    obtain ⟨p, -, rfl⟩ := Option.map_eq_some_iff.mp hs
    split_ifs
    · exact State.Filled.addAddr h _ _ _ _ _
    · exact h
  | getdata peer hashes =>
    obtain ⟨p, -, rfl⟩ := Option.map_eq_some_iff.mp hs
    exact State.Filled.emit h _
  | object peer now blob =>
    obtain ⟨p, -, hs⟩ := Option.bind_eq_some_iff.mp hs
    exact State.Filled.addObject h hs
  | addBlob now blob flags => exact State.Filled.addObject h hs
  | addObjectFromData now blob flags => exact State.Filled.addObject h hs
  | delayedBroadcast i =>
    obtain ⟨hash, -, rfl⟩ := Option.map_eq_some_iff.mp hs
    exact State.Filled.emit h _
  | gc now monotonic =>
    cases hs
    exact State.Filled.gcTimeoutCb h now monotonic
  | loadBlob type hash timestamp =>
    cases hs
    exact State.Filled.storeForEachBlobCb h type hash timestamp
  | loadAddr now timestamp stream services address =>
    cases hs
    exact State.Filled.addAddr h _ _ _ _ _
  | dnsAddress address =>
    simp only [Network.step] at hs
    split at hs <;> cases hs <;> exact h
  | addPeerAddress address => cases hs; exact h
  | addListenAddress => cases hs; exact h
  | listenError socket => cases hs; exact h
  | storeLoaded => cases hs; exact h
  | useOnlyExplicitAddresses value => cases hs; exact h
  | saveAddrList => cases hs; exact h

/-! ## 2. Runs -/

/-- Everything `handle_getdata` sends comes from an accepted inventory whose blob is there. -/
def SendsOnlyAccepted (nw : State) (e : Event) : Prop :=
  ∀ peer hashes, e = .getdata peer hashes → ∀ inv ∈ nw.getdataInventories hashes,
    inv.state = .accepted ∧ inv.Available nw.log

/-- Nobody asks for an object that was only announced so far, nor for one that was freed. -/
def NoStubRequested (nw : State) (e : Event) : Prop :=
  ∀ peer hashes, e = .getdata peer hashes → ∀ hash ∈ hashes, ∀ a, nw.hashGet hash = some a →
    (nw.heap a).state ≠ .stub ∧ ∀ next, (nw.heap a).state ≠ .freed next

theorem mem_getdataInventories {nw : State} {hashes : List Hash} {inv : Inventory} :
    inv ∈ nw.getdataInventories hashes ↔
      ∃ hash ∈ hashes, ∃ a, nw.hashGet hash = some a ∧ nw.heap a = inv ∧ inv.state ≠ .rejected := by
  simp only [State.getdataInventories, List.mem_filter, List.mem_map, List.mem_filterMap,
    decide_eq_true_eq]
  constructor
  · rintro ⟨⟨a, ⟨hash, hmem, hget⟩, heq⟩, hstate⟩
    exact ⟨hash, hmem, a, hget, heq, hstate⟩
  · rintro ⟨hash, hmem, a, hget, heq, hstate⟩
    exact ⟨⟨a, ⟨hash, hmem, hget⟩, heq⟩, hstate⟩

theorem sendsOnlyAccepted_iff {nw : State} (h : nw.Filled) (e : Event) :
    SendsOnlyAccepted nw e ↔ NoStubRequested nw e := by
  constructor
  · intro hsends peer hashes heq hash hmem a hget
    by_cases hrej : (nw.heap a).state = .rejected
    · simp [hrej]
    · have hinv := mem_getdataInventories.mpr ⟨hash, hmem, a, hget, rfl, hrej⟩
      simp [(hsends peer hashes heq _ hinv).1]
  · intro hstub peer hashes heq inv hinv
    obtain ⟨hash, hmem, a, hget, rfl, hrej⟩ := mem_getdataInventories.mp hinv
    obtain ⟨hnotStub, hnotFreed⟩ := hstub peer hashes heq hash hmem a hget
    have hacc : (nw.heap a).state = .accepted := by
      cases hstate : (nw.heap a).state with
      | stub => exact absurd hstate hnotStub
      | rejected => exact absurd hstate hrej
      | accepted => rfl
      | freed next => exact absurd hstate (hnotFreed next)
    exact ⟨hacc, h a hacc⟩

/-- In every run the network sends nothing but accepted objects exactly if no peer asks for an
object at a moment when there is only a stub of it. -/
theorem getdata_sends_only_accepted_iff (ssl : OpenSSL) (nonce : Nat)
    (defaultAddrs : List Netaddress) (events : List Event) :
    Runs.Along (step ssl) SendsOnlyAccepted (State.new nonce defaultAddrs) events ↔
      Runs.Along (step ssl) NoStubRequested (State.new nonce defaultAddrs) events :=
  Runs.along_congr (I := State.Filled) (fun _ _ _ h hs => Filled.step h hs)
    (fun _ e _ h _ => sendsOnlyAccepted_iff h e) (fun a hstate => by cases hstate) events

/-- One peer announces an object and another one asks for it at once. -/
def stubRequest : List Event :=
  let hash : Hash := ⟨List.replicate 32 1, by decide⟩
  [.addListenAddress, .accept 0, .accept 0, .inv 0 0 [hash], .getdata 1 [hash]]

/-- A stub is sent, with a blob field that was never written. -/
theorem stubRequest_sends_stub :
    ¬ Runs.Along (step .additive) SendsOnlyAccepted (State.new 0 []) stubRequest := by
  rintro ⟨-, -, -, -, hgetdata, -⟩
  have hsends := hgetdata rfl 1 _ rfl
    { state := .stub, hash := ⟨List.replicate 32 1, by decide⟩, time := 0 } (by decide)
  exact absurd hsends.1 (by decide)

end Notbit.Network
