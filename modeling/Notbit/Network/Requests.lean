import Notbit.Network.Announced
import Notbit.Network.Getdata

/-!
# Requests — what the network waits for, and from whom (`ntb-network.c`)

An announced object that is not known is requested from the peer that announced it.  No other step
adds to what a peer is asked for, and the object ends the wait, whoever it comes from.
-/

open Notbit.Proto Runs Relation

namespace Notbit.Network

/-- A call of `ntb_connection_send_blob`. -/
def Effect.isBlob : Effect → Bool
  | .sendBlob .. => true
  | _ => false

namespace State

variable {nw nw' nw'' : State} {a p : Nat} {h : Hash}

/-! ## 1. What is done is not undone -/

/-- Calls were made, and no blob was sent. -/
def Grows (nw nw' : State) : Prop :=
  ∃ effects, nw'.log = nw.log ++ effects ∧ ∀ e ∈ effects, e.isBlob = false

theorem Grows.of_eq (h : nw'.log = nw.log) : Grows nw nw' :=
  ⟨[], by rw [h, List.append_nil], by simp⟩

theorem Grows.trans (h : Grows nw nw') (h' : Grows nw' nw'') : Grows nw nw'' := by
  obtain ⟨effects, heq, hnone⟩ := h
  obtain ⟨effects', heq', hnone'⟩ := h'
  refine ⟨effects ++ effects', by rw [heq', heq, List.append_assoc], fun e he => ?_⟩
  exact (List.mem_append.mp he).elim (hnone e) (hnone' e)

theorem grows_emit {effects : List Effect} (h : ∀ e ∈ effects, e.isBlob = false) :
    Grows nw (nw.emit effects) := ⟨effects, rfl, h⟩

theorem grows_foldl {α : Type} {f : State → α → State} (hf : ∀ nw a, Grows nw (f nw a))
    (l : List α) (nw : State) : Grows nw (l.foldl f nw) := by
  induction l generalizing nw with
  | nil => exact .of_eq rfl
  | cons a l ih => exact (hf nw a).trans (ih _)

theorem grows_removePeer (peer : Peer) : Grows nw (nw.removePeer peer) := by
  have hdropped : Grows nw (peer.requestedInventories.foldl dropInventory nw) :=
    grows_foldl (f := dropInventory) (fun _ _ => .of_eq rfl) _ nw
  exact hdropped.trans (.of_eq rfl)

theorem grows_addAddr (now timestamp : Int) (stream services : Nat) (address : Netaddress) :
    Grows nw (nw.addAddr now timestamp stream services address).1 := by
  refine ⟨_, rfl, fun e he => ?_⟩
  obtain ⟨peer, -, he⟩ := List.mem_flatMap.mp he
  obtain ⟨address, -, rfl⟩ := List.mem_map.mp he
  rfl

theorem grows_connectionEstablished (id : Nat) (now : Int) :
    Grows nw (nw.connectionEstablished id now) :=
  ⟨_, rfl, by simp [Effect.isBlob]⟩

theorem grows_handleVerack (peer : Peer) (now : Int) : Grows nw (nw.handleVerack peer now) := by
  unfold handleVerack
  cases peer.state with
  | awaitingVerackIn => exact grows_connectionEstablished peer.id now
  | awaitingVerackOut => exact .of_eq rfl
  | awaitingVersionOut => exact .of_eq rfl
  | awaitingVersionIn => exact .of_eq rfl
  | connected => exact .of_eq rfl

theorem grows_handleVersion (peer : Peer) (now : Int) (nonce version : Nat) (timestamp : Int)
    (stream services : Nat) (address : Netaddress) :
    Grows nw (nw.handleVersion peer now nonce version timestamp stream services address) := by
  by_cases hbad : nonce = nw.nonce ∨ version ≠ protoVersion
  · rw [handleVersion_of_not_ok hbad]
    exact grows_removePeer peer
  · rw [not_or, not_not] at hbad
    rw [handleVersion_of_ok hbad.1 hbad.2]
    have hadd := @grows_addAddr nw now timestamp stream services address
    have hclaim : Grows (nw.addAddr now timestamp stream services address).1
        ((nw.addAddr now timestamp stream services address).1.claimAddr peer
          (nw.addAddr now timestamp stream services address).2) := by
      unfold claimAddr
      split <;> exact .of_eq rfl
    refine (hadd.trans hclaim).trans ?_
    unfold answerVersion
    have hverack : ∀ nw₁ : State, Grows nw₁ (nw₁.emit [.sendVerack peer.id]) := fun nw₁ =>
      grows_emit (by simp [Effect.isBlob])
    refine (hverack _).trans ?_
    cases peer.state with
    | awaitingVersionOut => exact grows_connectionEstablished peer.id now
    | awaitingVersionIn => exact ⟨_, rfl, by simp [Effect.isBlob]⟩
    | awaitingVerackOut => exact .of_eq rfl
    | awaitingVerackIn => exact .of_eq rfl
    | connected => exact .of_eq rfl

theorem log_alloc (nw : State) : nw.alloc.2.log = nw.log := by
  rw [alloc_frame]

theorem log_requestInventory (peer now : Nat) (hash : Hash) :
    (nw.requestInventory peer now hash).log = nw.log := by
  rw [← log_alloc nw]
  rfl

theorem grows_connectQueueCb {now rand : Nat} {ok : Bool}
    (hs : nw.connectQueueCb now rand ok = some nw') : Grows nw nw' := by
  simp only [connectQueueCb] at hs
  split at hs
  · cases hs
    exact .of_eq rfl
  · split at hs
    · cases hs
      exact .of_eq rfl
    · obtain ⟨addr, -, hs⟩ := Option.bind_eq_some_iff.mp hs
      split at hs
      · cases hs
        exact ⟨_, rfl, by simp [Effect.isBlob]⟩
      · cases hs
        exact .of_eq rfl

theorem log_claimInventory {hash : Hash} (hs : nw.claimInventory hash = some (some (a, nw'))) :
    nw'.log = nw.log := by
  unfold claimInventory at hs
  split at hs
  · cases hs
    exact log_alloc nw
  · split_ifs at hs
    · cases hs
      rfl
    · cases hs

theorem log_rejectInventory (hs : nw.rejectInventory a = some nw') : nw'.log = nw.log := by
  simp only [rejectInventory, evictRejected] at hs
  split at hs
  · obtain ⟨nw₁, hevict, hs⟩ := Option.bind_eq_some_iff.mp hs
    obtain ⟨old, -, heq⟩ := Option.bind_eq_some_iff.mp hevict
    cases heq
    cases hs
    rfl
  · cases hs
    rfl

theorem log_acceptInventory (a : Nat) (blob : Blob) (age : Int) (delay : Bool) :
    (nw.acceptInventory a blob age delay).log =
      nw.log ++ [.saveBlob (nw.heap a).hash blob] ++ (if delay then [] else
        nw.connectedPeers.map fun peer => .sendInv peer [(nw.heap a).hash]) ++
          [.newObject blob] := by
  cases delay with
  | false =>
    rw [if_neg Bool.false_ne_true]
    unfold acceptInventory
    simp only [if_neg Bool.false_ne_true]
    split_ifs <;> rfl
  | true =>
    rw [if_pos rfl, List.append_nil]
    unfold acceptInventory
    simp only [if_true]
    split_ifs <;> rfl

theorem grows_acceptInventory (a : Nat) (blob : Blob) (age : Int) (delay : Bool) :
    Grows nw (nw.acceptInventory a blob age delay) := by
  refine ⟨_, by rw [log_acceptInventory, List.append_assoc, List.append_assoc], fun e he => ?_⟩
  split at he
  · simp only [List.nil_append, List.cons_append, List.mem_cons, List.not_mem_nil, or_false] at he
    rcases he with rfl | rfl <;> rfl
  · simp only [List.cons_append, List.nil_append, List.mem_cons, List.mem_append, List.mem_map,
      List.not_mem_nil, or_false] at he
    rcases he with rfl | ⟨peer, -, rfl⟩ | rfl <;> rfl

theorem grows_addObject {ssl : OpenSSL} {now : Int} {blob : Blob} {flags : AddObjectFlags}
    (hs : nw.addObject ssl now blob flags = some nw') : Grows nw nw' := by
  have hclaimed : ∀ {timestamp a nw₁}, Claims ssl nw blob timestamp a nw₁ → nw₁.log = nw.log := by
    rintro timestamp a nw₁ ⟨nw₀, hclaim, rfl⟩
    show nw₀.log = nw.log
    exact log_claimInventory hclaim
  rcases addObject_accepts hs with ⟨-, rfl | ⟨timestamp, a, nw₁, hclaims, hreject⟩⟩ |
    ⟨-, timestamp, a, nw₁, -, hclaims, rfl⟩
  · exact .of_eq rfl
  · exact .of_eq ((log_rejectInventory hreject).trans (hclaimed hclaims))
  · exact (Grows.of_eq (hclaimed hclaims)).trans (grows_acceptInventory a blob _ _)

theorem grows_storeForEachBlobCb (type : InvType) (hash : Hash) (timestamp : Int) :
    Grows nw (nw.storeForEachBlobCb type hash timestamp) := by
  unfold storeForEachBlobCb
  split
  · exact .of_eq rfl
  · exact (Grows.of_eq (log_alloc nw)).trans ⟨[.loadedBlob hash], rfl, by simp [Effect.isBlob]⟩

theorem grows_gcInventory (now : Int) (nw : State) (a : Nat) : Grows nw (nw.gcInventory now a) := by
  unfold gcInventory
  dsimp only
  split_ifs
  · exact .of_eq rfl
  · exact ⟨[.deleteObject (nw.heap a).hash], rfl, by simp [Effect.isBlob]⟩
  · exact .of_eq rfl
  · exact .of_eq rfl

theorem grows_gcTimeoutCb (now : Int) (monotonic : Nat) :
    Grows nw (nw.gcTimeoutCb now monotonic) := by
  have hrequested : ∀ nw a, Grows nw (gcRequestedInventory monotonic nw a) := fun nw a => by
    unfold gcRequestedInventory
    split_ifs <;> exact .of_eq rfl
  have hstubs := grows_foldl hrequested nw.requested nw
  exact ((hstubs.trans (grows_foldl (grows_gcInventory now) _ _)).trans
    (grows_foldl (grows_gcInventory now) _ _)).trans (.of_eq rfl)

theorem handleInv_foldl_log (peer now : Nat) (hashes : List Hash) (s : State × List Hash) :
    (hashes.foldl (handleInvHash peer now) s).1.log = s.1.log := by
  induction hashes generalizing s with
  | nil => rfl
  | cons hash hashes ih =>
    rw [List.foldl_cons, ih]
    unfold handleInvHash
    split
    · exact log_requestInventory peer now hash
    · rfl

theorem log_handleInv (peer now : Nat) (hashes : List Hash) :
    (nw.handleInv peer now hashes).log = nw.log ++
      [.sendGetdata peer (hashes.foldl (handleInvHash peer now) (nw, [])).2] := by
  rw [← handleInv_foldl_log peer now hashes (nw, [])]
  rfl

/-! ## 2. What is awaited -/

/-- The hashes of the objects that a peer was asked for and that have not come. -/
def awaited (nw : State) (p : Nat) : List Hash :=
  (nw.owners.filter fun owner => owner.1 = p).flatMap fun owner =>
    owner.2.map fun a => (nw.heap a).hash

/-- An object is accepted. -/
def Has (nw : State) (h : Hash) : Prop := h ∈ nw.objects.map (·.hash)

/-- An object is accepted, or some peer was asked for it. -/
def Holds (nw : State) (h : Hash) : Prop := nw.Has h ∨ ∃ owner ∈ nw.owners, h ∈ nw.awaited owner.1

theorem mem_awaited : h ∈ nw.awaited p ↔
    ∃ l, (p, l) ∈ nw.owners ∧ ∃ a ∈ l, (nw.heap a).hash = h := by
  simp only [awaited, List.mem_flatMap, List.mem_filter, List.mem_map, decide_eq_true_eq]
  constructor
  · rintro ⟨⟨q, l⟩, ⟨hmem, rfl⟩, a, ha, rfl⟩
    exact ⟨l, hmem, a, ha, rfl⟩
  · rintro ⟨l, hmem, a, ha, rfl⟩
    exact ⟨(p, l), ⟨hmem, rfl⟩, a, ha, rfl⟩

/-- Nothing more is awaited. -/
def Shrinks (nw nw' : State) : Prop := ∀ p, nw'.awaited p ⊆ nw.awaited p

theorem Shrinks.refl (nw : State) : Shrinks nw nw := fun _ => List.Subset.refl _

theorem Shrinks.trans (h : Shrinks nw nw') (h' : Shrinks nw' nw'') : Shrinks nw nw'' :=
  fun p => List.Subset.trans (h' p) (h p)

-- Fewer inventories are in the lists of the peers, and those that are have kept their hashes.
theorem Shrinks.of_owners (howners : ∀ p l', (p, l') ∈ nw'.owners → ∃ l, (p, l) ∈ nw.owners ∧ l' ⊆ l)
    (hheap : ∀ a ∈ nw.requested, (nw'.heap a).hash = (nw.heap a).hash) : Shrinks nw nw' := by
  intro p h hh
  obtain ⟨l', hmem, a, ha, rfl⟩ := mem_awaited.mp hh
  obtain ⟨l, hold, hsub⟩ := howners p l' hmem
  have hreq : a ∈ nw.requested := by
    rw [requested_eq]
    exact List.mem_flatMap.mpr ⟨(p, l), hold, hsub ha⟩
  exact mem_awaited.mpr ⟨l, hold, a, hsub ha, (hheap a hreq).symm⟩

theorem Shrinks.of_eq (howners : nw'.owners = nw.owners)
    (hheap : ∀ a ∈ nw.requested, (nw'.heap a).hash = (nw.heap a).hash) : Shrinks nw nw' :=
  .of_owners (fun _ l hmem => ⟨l, howners ▸ hmem, List.Subset.refl l⟩) hheap

theorem shrinks_setInventory {inv : Inventory}
    (h : a ∉ nw.requested ∨ inv.hash = (nw.heap a).hash) : Shrinks nw (nw.setInventory a inv) := by
  refine .of_eq rfl fun b hb => ?_
  by_cases hba : b = a
  · subst hba
    rcases h with hnot | hhash
    · exact absurd hb hnot
    · simpa [setInventory] using hhash
  · simp [setInventory, hba]

theorem shrinks_listRemove (nw : State) (a : Nat) : Shrinks nw (nw.listRemove a) := by
  refine .of_owners (fun p l hmem => ?_) fun _ _ => rfl
  simp only [owners, listRemove, List.map_map, List.mem_map, Function.comp, Prod.mk.injEq] at hmem
  obtain ⟨peer, hpeer, rfl, rfl⟩ := hmem
  exact ⟨_, List.mem_map_of_mem hpeer, List.erase_subset⟩

-- The hash stays readable in the freed slice.
theorem shrinks_freeInventory (nw : State) (a : Nat) : Shrinks nw (nw.freeInventory a) := by
  refine .of_eq rfl fun b _ => ?_
  by_cases hba : b = a <;> simp [freeInventory, setInventory, hba]

theorem shrinks_dropInventory (nw : State) (a : Nat) : Shrinks nw (nw.dropInventory a) :=
  shrinks_freeInventory (nw.hashRemove (.inventory a)) a

theorem shrinks_foldl {α : Type} {f : State → α → State} (hf : ∀ nw a, Shrinks nw (f nw a))
    (l : List α) (nw : State) : Shrinks nw (l.foldl f nw) := by
  induction l generalizing nw with
  | nil => exact .refl nw
  | cons a l ih => exact (hf nw a).trans (ih _)

theorem shrinks_removePeer (peer : Peer) : Shrinks nw (nw.removePeer peer) := by
  have hdropped := shrinks_foldl shrinks_dropInventory peer.requestedInventories nw
  refine hdropped.trans (.of_owners (fun p l hmem => ⟨l, ?_, List.Subset.refl l⟩) fun _ _ => rfl)
  obtain ⟨q, hq, heq⟩ := List.mem_map.mp hmem
  exact List.mem_map.mpr ⟨q, List.mem_of_mem_filter hq, heq⟩

theorem shrinks_alloc (nw : State) : Shrinks nw nw.alloc.2 := by
  rw [alloc_frame]
  exact .refl nw

-- A new slice is not in a list.
theorem Tracked.notMem_requested_alloc (h : nw.Tracked []) : nw.alloc.1 ∉ nw.alloc.2.requested := by
  obtain ⟨-, hlinked, hfresh⟩ := h.toOwned.new {}
  intro hmem
  have hold : nw.alloc.1 ∈ nw.linked := hlinked ▸ mem_linked.mpr (.inl hmem)
  exact hfresh _ (List.mem_append_right _ hold) rfl

theorem shrinks_claims {ssl : OpenSSL} {blob : Blob} {timestamp : Int} {nw₁ : State}
    (h : nw.Tracked []) (hc : Claims ssl nw blob timestamp a nw₁) : Shrinks nw nw₁ := by
  obtain ⟨nw₀, hclaim, rfl⟩ := hc
  refine Shrinks.trans ?_ (shrinks_setInventory (.inr rfl))
  unfold claimInventory at hclaim
  split at hclaim
  · cases hclaim
    exact (shrinks_alloc nw).trans (shrinks_setInventory (.inl h.notMem_requested_alloc))
  · split_ifs at hclaim
    · cases hclaim
      exact shrinks_listRemove nw _
    · cases hclaim

theorem shrinks_rejectInventory (hs : nw.rejectInventory a = some nw') : Shrinks nw nw' := by
  have hset : Shrinks nw (nw.setInventory a { nw.heap a with state := .rejected }) :=
    shrinks_setInventory (.inr rfl)
  simp only [rejectInventory, evictRejected] at hs
  split at hs
  · obtain ⟨nw₁, hevict, hs⟩ := Option.bind_eq_some_iff.mp hs
    obtain ⟨old, -, heq⟩ := Option.bind_eq_some_iff.mp hevict
    cases heq
    cases hs
    refine (hset.trans (shrinks_listRemove _ old)).trans ?_
    exact shrinks_freeInventory (State.hashRemove _ (.hashField old)) old
  · cases hs
    exact hset

theorem shrinks_acceptInventory (blob : Blob) (age : Int) (delay : Bool) :
    Shrinks nw (nw.acceptInventory a blob age delay) := by
  have hset : Shrinks nw (nw.setInventory a { nw.heap a with
      blob := some (some blob), type := some blob.type, state := .accepted }) :=
    shrinks_setInventory (.inr rfl)
  refine hset.trans ?_
  unfold acceptInventory
  dsimp only
  split_ifs
  · exact shrinks_setInventory (.inr rfl)
  · exact shrinks_setInventory (.inr rfl)
  · exact .refl _
  · exact .refl _

theorem shrinks_addObject {ssl : OpenSSL} {now : Int} {blob : Blob} {flags : AddObjectFlags}
    (h : nw.Tracked []) (hs : nw.addObject ssl now blob flags = some nw') : Shrinks nw nw' := by
  rcases addObject_accepts hs with ⟨-, rfl | ⟨timestamp, a, nw₁, hclaims, hreject⟩⟩ |
    ⟨-, timestamp, a, nw₁, -, hclaims, rfl⟩
  · exact .refl _
  · exact (shrinks_claims h hclaims).trans (shrinks_rejectInventory hreject)
  · exact (shrinks_claims h hclaims).trans (shrinks_acceptInventory blob _ _)

theorem shrinks_storeForEachBlobCb (h : nw.Tracked []) (type : InvType) (hash : Hash)
    (timestamp : Int) : Shrinks nw (nw.storeForEachBlobCb type hash timestamp) := by
  unfold storeForEachBlobCb
  split
  · exact .refl nw
  · exact (shrinks_alloc nw).trans (shrinks_setInventory (.inl h.notMem_requested_alloc))

theorem shrinks_gcInventory (now : Int) (nw : State) (a : Nat) :
    Shrinks nw (nw.gcInventory now a) := by
  have hcollect : ∀ nw₁ : State, Shrinks nw nw₁ →
      Shrinks nw ((nw₁.listRemove a).dropInventory a) := fun nw₁ h₁ =>
    (h₁.trans (shrinks_listRemove nw₁ a)).trans (shrinks_dropInventory _ a)
  unfold gcInventory
  dsimp only
  split_ifs
  · exact hcollect _ (.refl nw)
  · exact hcollect _ (.refl nw)
  · exact shrinks_setInventory (.inr rfl)
  · exact .refl nw

theorem shrinks_gcTimeoutCb (now : Int) (monotonic : Nat) :
    Shrinks nw (nw.gcTimeoutCb now monotonic) := by
  have hrequested : ∀ nw a, Shrinks nw (gcRequestedInventory monotonic nw a) := fun nw a => by
    unfold gcRequestedInventory
    split_ifs
    · exact (shrinks_listRemove nw a).trans (shrinks_dropInventory _ a)
    · exact .refl nw
  have hstubs := shrinks_foldl hrequested nw.requested nw
  exact (hstubs.trans (shrinks_foldl (shrinks_gcInventory now) _ _)).trans
    (shrinks_foldl (shrinks_gcInventory now) _ _)

/-! ## 3. Announcements -/

/-- An inventory of the hash is in a list. -/
def Knows (nw : State) (h : Hash) : Prop := ∃ a ∈ nw.linked, (nw.heap a).hash = h

theorem Inv.knows_iff (hinv : nw.Inv) : nw.Knows h ↔ nw.hashGet h ≠ none := by
  rw [Ne, hinv.sound.hashGet_none]
  push Not
  constructor
  · rintro ⟨a, ha, rfl⟩
    exact ⟨.inventory a, (hinv.sound.entries _).mpr ⟨a, ha, rfl⟩, rfl⟩
  · rintro ⟨v, hv, rfl⟩
    obtain ⟨a, ha, rfl⟩ := (hinv.sound.entries v).mp hv
    exact ⟨a, ha, rfl⟩

theorem Inv.hashGet_mem (hinv : nw.Inv) (htracked : nw.Tracked []) (hget : nw.hashGet h = some a) :
    a ∈ nw.linked ∧ (nw.heap a).hash = h := by
  refine ⟨?_, htracked.hash_of_hashGet hget⟩
  obtain ⟨v, hv, rfl⟩ := Option.map_eq_some_iff.mp hget
  obtain ⟨b, hb, rfl⟩ := (hinv.sound.entries v).mp
    (Chains.mem_flatten_iff.mpr ⟨_, List.mem_of_find?_eq_some hv⟩)
  exact hb

theorem Knows.holds (h₁ : nw.Knows h)
    (hspared : ∀ a ∈ nw.rejectedInventories, (nw.heap a).hash ≠ h) : nw.Holds h := by
  obtain ⟨a, ha, rfl⟩ := h₁
  rcases mem_linked.mp ha with hrequested | haccepted | hrejected
  · rw [requested_eq] at hrequested
    obtain ⟨⟨p, l⟩, hmem, hl⟩ := List.mem_flatMap.mp hrequested
    exact .inr ⟨(p, l), hmem, mem_awaited.mpr ⟨l, hmem, a, hl, rfl⟩⟩
  · exact .inl (List.mem_map.mpr ⟨_, List.mem_map_of_mem haccepted, rfl⟩)
  · exact absurd rfl (hspared a hrejected)

theorem owners_requestInventory (peer now : Nat) (hash : Hash) :
    (nw.requestInventory peer now hash).owners = nw.owners.map fun owner =>
      if owner.1 = peer then (owner.1, nw.alloc.1 :: owner.2) else owner := by
  have hpeers : nw.alloc.2.peers = nw.peers := congrArg (·.peers) (alloc_frame nw)
  show (nw.alloc.2.peers.map _).map _ = (nw.peers.map _).map _
  rw [hpeers, List.map_map, List.map_map]
  apply List.map_congr_left
  intro p _
  simp only [Function.comp]
  split_ifs <;> rfl

theorem requestInventory_spec {peer : Nat} {hash : Hash} (h : nw.Tracked []) (now : Nat)
    (hpeer : peer ∈ nw.peers.map (·.id)) (hnone : nw.hashGet hash = none) :
    (∀ p, (nw.requestInventory peer now hash).awaited p ⊆
      if p = peer then hash :: nw.awaited p else nw.awaited p) ∧
      (nw.requestInventory peer now hash).Knows hash ∧
      ∀ hash', nw.Knows hash' → (nw.requestInventory peer now hash).Knows hash' := by
  have hfresh := (h.toOwned.new { state := .stub, hash, time := now }).2
  have hheld := h.new { state := .stub, hash, time := now } hnone
  have hpeers : nw.alloc.2.peers = nw.peers := congrArg (·.peers) (alloc_frame nw)
  have hheap : nw.alloc.2.heap = nw.heap := congrArg (·.heap) (alloc_frame nw)
  have hself : (nw.requestInventory peer now hash).heap nw.alloc.1 =
      { state := .stub, hash, time := now } := by
    simp [requestInventory, hashSet, State.updatePeer, State.setInventory]
  have hother : ∀ b ∈ nw.linked,
      (nw.requestInventory peer now hash).heap b = nw.heap b := fun b hb => by
    simp [requestInventory, hashSet, State.updatePeer, State.setInventory, hheap,
      hfresh.2 b (List.mem_append_right _ hb)]
  have hlinked : ∀ b, b ∈ (nw.requestInventory peer now hash).linked ↔
      b = nw.alloc.1 ∨ b ∈ nw.linked := fun b => by
    have hmoved := hheld.linkRequested_moved (by simp [hashSet, State.setInventory])
      (by rwa [← hpeers] at hpeer)
    have hperm := hmoved.perm.mem_iff (a := b)
    rw [List.nil_append, List.cons_append, List.mem_cons, List.nil_append] at hperm
    rw [← hfresh.1]
    exact hperm
  refine ⟨fun p hash' hmem => ?_, ⟨_, (hlinked _).mpr (.inl rfl), by rw [hself]⟩, ?_⟩
  · obtain ⟨l, hl, a, ha, rfl⟩ := mem_awaited.mp hmem
    rw [owners_requestInventory] at hl
    obtain ⟨owner, howner, heq⟩ := List.mem_map.mp hl
    have hkept : ∀ b ∈ owner.2,
        ((nw.requestInventory peer now hash).heap b).hash ∈ nw.awaited owner.1 := fun b hb => by
      have hb' : b ∈ nw.linked := mem_linked.mpr (.inl (by
        rw [requested_eq]
        exact List.mem_flatMap.mpr ⟨owner, howner, hb⟩))
      rw [hother b hb']
      exact mem_awaited.mpr ⟨owner.2, howner, b, hb, rfl⟩
    split_ifs at heq with hid
    · cases heq
      rw [if_pos hid]
      rcases List.mem_cons.mp ha with rfl | ha
      · rw [hself]
        exact List.mem_cons_self
      · exact List.mem_cons_of_mem _ (hkept a ha)
    · cases heq
      rw [if_neg hid]
      exact hkept a ha
  · rintro hash' ⟨b, hb, rfl⟩
    exact ⟨b, (hlinked b).mpr (.inr hb), by rw [hother b hb]⟩

/-- What the loop of `handle_inv` has done since it began with `s`. -/
structure Requested (peer : Nat) (hashes : List Hash) (s r : State × List Hash) : Prop where
  awaited : ∀ p, r.1.awaited p ⊆ s.1.awaited p ++ if p = peer then r.2 else []
  requests : s.2 ⊆ r.2
  announced : r.2 ⊆ s.2 ++ hashes
  known : ∀ hash ∈ hashes, r.1.Knows hash
  kept : ∀ hash, s.1.Knows hash → r.1.Knows hash

theorem requested_foldl {peer : Nat} (now : Nat) (hashes : List Hash) {s : State × List Hash}
    (hinv : s.1.Inv) (htracked : s.1.Tracked []) (hpeer : peer ∈ s.1.peers.map (·.id)) :
    Requested peer hashes s (hashes.foldl (handleInvHash peer now) s) := by
  induction hashes generalizing s with
  | nil => exact ⟨fun _ => List.subset_append_left _ _, List.Subset.refl _,
      List.subset_append_left _ _, by simp, fun _ hk => hk⟩
  | cons hash hashes ih =>
    rw [List.foldl_cons]
    cases hget : s.1.hashGet hash with
    | some a =>
      have hsame : handleInvHash peer now s hash = s := by simp only [handleInvHash, hget]
      have hrest := ih hinv htracked hpeer
      rw [hsame]
      refine { hrest with
        announced := fun x hx => ?_
        known := List.forall_mem_cons.mpr ⟨hrest.kept hash ?_, hrest.known⟩ }
      · exact List.mem_append.mpr ((List.mem_append.mp (hrest.announced hx)).imp id
          (List.mem_cons_of_mem hash))
      · exact hinv.knows_iff.mpr (by simp [hget])
    | none =>
      obtain ⟨hawaited, hself, hkept⟩ := requestInventory_spec htracked now hpeer hget
      have hsame : handleInvHash peer now s hash =
          (s.1.requestInventory peer now hash, s.2 ++ [hash]) := by simp only [handleInvHash, hget]
      rw [hsame]
      have hrest := ih (s := (s.1.requestInventory peer now hash, s.2 ++ [hash]))
        (hinv.requestInventory now hpeer hget) (htracked.requestInventory now hpeer hget).1
        (by rwa [ids_requestInventory])
      refine ⟨fun p x hx => ?_, fun x hx => hrest.requests (List.mem_append_left _ hx),
        fun x hx => ?_, List.forall_mem_cons.mpr ⟨hrest.kept hash hself, hrest.known⟩,
        fun x hx => hrest.kept x (hkept x hx)⟩
      · rcases List.mem_append.mp (hrest.awaited p hx) with hold | hnew
        · have hstep := hawaited p hold
          split_ifs at hstep ⊢ with hid
          · rcases List.mem_cons.mp hstep with rfl | hstep
            · exact List.mem_append_right _ (hrest.requests (List.mem_append_right _
                List.mem_cons_self))
            · exact List.mem_append_left _ hstep
          · exact List.mem_append_left _ hstep
        · exact List.mem_append_right _ hnew
      · have hx := hrest.announced hx
        simpa only [List.append_assoc, List.singleton_append] using hx

theorem handleInv_spec {peer : Nat} (hinv : nw.Inv) (htracked : nw.Tracked []) (now : Nat)
    (hashes : List Hash) (hpeer : peer ∈ nw.peers.map (·.id)) : ∃ requests,
      (nw.handleInv peer now hashes).log = nw.log ++ [.sendGetdata peer requests] ∧
      requests ⊆ hashes ∧
      (∀ p, (nw.handleInv peer now hashes).awaited p ⊆
        nw.awaited p ++ if p = peer then requests else []) ∧
      ∀ hash ∈ hashes, (nw.handleInv peer now hashes).Knows hash := by
  have hspec := requested_foldl (s := (nw, [])) now hashes hinv htracked hpeer
  exact ⟨_, log_handleInv peer now hashes, fun x hx => by simpa using hspec.announced hx,
    hspec.awaited, hspec.known⟩

/-! ## 4. Objects -/

/-- Whoever sent the object: it is awaited no more. -/
theorem notMem_awaited_addObject {ssl : OpenSSL} {now : Int} {blob : Blob} {flags : AddObjectFlags}
    (hinv : nw.Inv) (htracked : nw.Tracked [])
    (hs : nw.addObject ssl now blob flags = some nw') (htime : (objectTimestamp blob.data).isSome)
    (p : Nat) : doubleHash ssl blob.data ∉ nw'.awaited p := by
  have hclaimed : ∀ {timestamp a nw₁}, Claims ssl nw blob timestamp a nw₁ →
      doubleHash ssl blob.data ∉ nw₁.awaited p := by
    intro timestamp a nw₁ hclaims hmem
    obtain ⟨hheld, -, hhash, -⟩ := htracked.claims hclaims
    obtain ⟨l, hl, b, hb, heq⟩ := mem_awaited.mp hmem
    have hlinked : b ∈ nw₁.linked := mem_linked.mpr (.inl (by
      rw [requested_eq]
      exact List.mem_flatMap.mpr ⟨_, hl, hb⟩))
    have hba : b = a := hheld.distinct b (List.mem_cons_of_mem a hlinked) a List.mem_cons_self
      (heq.trans hhash.symm)
    exact (List.nodup_cons.mp hheld.nodup).1 (hba ▸ hlinked)
  rcases addObject_cases hs with ⟨hsame, hnot⟩ | ⟨timestamp, a, nw₁, hclaims, -, hreject⟩ |
    ⟨timestamp, a, nw₁, hclaims, -, rfl⟩
  · -- what is awaited is a stub, and it would have been judged
    intro hmem
    rw [hsame] at hmem
    have hstub : ∀ a, nw.hashGet (doubleHash ssl blob.data) = some a → (nw.heap a).state.isStub := by
      intro a hget
      obtain ⟨l, hl, b, hb, heq⟩ := mem_awaited.mp hmem
      have hrequested : b ∈ nw.requested := by
        rw [requested_eq]
        exact List.mem_flatMap.mpr ⟨_, hl, hb⟩
      obtain ⟨ha, hhash⟩ := hinv.hashGet_mem htracked hget
      have hab : a = b := (hinv.sound.consistent hinv.counted).hashes a ha b
        (mem_linked.mpr (.inl hrequested)) (hhash.trans heq.symm)
      rw [hab, htracked.stub b hrequested]
      rfl
    obtain ⟨timestamp, htime⟩ := Option.isSome_iff_exists.mp htime
    rcases addObject_accepts hs with ⟨hno, -⟩ | ⟨-, timestamp, a, nw₁, -, hclaims, heq⟩
    · refine hno ⟨⟨timestamp, htime, fun hskip => ?_⟩, hstub⟩
      by_contra hbad
      exact hnot ⟨timestamp, htime, hstub, hskip, by simpa using hbad⟩
    · rw [← hsame, heq] at hmem
      exact hclaimed hclaims (shrinks_acceptInventory blob _ _ p hmem)
  · exact fun hmem => hclaimed hclaims (shrinks_rejectInventory hreject p hmem)
  · exact fun hmem => hclaimed hclaims (shrinks_acceptInventory blob _ _ p hmem)

/-! ## 5. Steps -/

end State

section Step

variable {ssl : OpenSSL} {nw nw' : State} {e : Event}

open State

/-- Only an announcement adds to what is awaited. -/
theorem shrinks_step (htracked : nw.Tracked []) (hs : step ssl nw e = some nw')
    (he : ∀ peer monotonic hashes, e ≠ .inv peer monotonic hashes) : Shrinks nw nw' := by
  have hframed : ∀ {nw nw' : State}, Framed nw nw' → Shrinks nw nw' := fun hf =>
    .of_eq hf.owners fun a _ => by rw [hf.inventories]
  cases step_cases hs with
  | framed hadded h => exact hframed h
  | addPeer hadded h =>
    obtain ⟨nw₁, state, direction, addr, hbefore, hafter⟩ := h
    refine ((hframed hbefore).trans ?_).trans (hframed hafter)
    intro p h hmem
    obtain ⟨l, hl, a, ha, rfl⟩ := mem_awaited.mp hmem
    rcases List.mem_cons.mp hl with heq | hl
    · cases heq
      cases ha
    · exact mem_awaited.mpr ⟨l, hl, a, ha, rfl⟩
  | removePeer hadded peer hpeer heq =>
    rw [heq]
    exact shrinks_removePeer peer
  | inv peer monotonic hashes hpeer heq => exact absurd rfl (he peer monotonic hashes)
  | object now blob flags hadded hobject => exact shrinks_addObject htracked hobject
  | gc now monotonic heq =>
    rw [heq]
    exact shrinks_gcTimeoutCb now monotonic
  | loadBlob type hash timestamp heq =>
    rw [heq]
    exact shrinks_storeForEachBlobCb htracked type hash timestamp

/-- Only an answer to a getdata command sends a blob. -/
theorem grows_step (hs : step ssl nw e = some nw') (he : ∀ peer hashes, e ≠ .getdata peer hashes) :
    Grows nw nw' := by
  cases e with
  | connectQueue monotonic rand ok =>
    simp only [step] at hs
    split at hs
    · exact grows_connectQueueCb hs
    · cases hs
  | accept socket =>
    simp only [step] at hs
    split at hs
    · cases hs
      exact .of_eq rfl
    · cases hs
  | error peer =>
    obtain ⟨p, -, rfl⟩ := Option.map_eq_some_iff.mp hs
    exact grows_removePeer p
  | version peer now nonce version timestamp stream services address =>
    obtain ⟨p, -, rfl⟩ := Option.map_eq_some_iff.mp hs
    exact grows_handleVersion p now nonce version timestamp stream services address
  | verack peer now =>
    obtain ⟨p, -, rfl⟩ := Option.map_eq_some_iff.mp hs
    exact grows_handleVerack p now
  | inv peer monotonic hashes =>
    obtain ⟨p, -, rfl⟩ := Option.map_eq_some_iff.mp hs
    exact ⟨_, log_handleInv p.id monotonic hashes, by simp [Effect.isBlob]⟩
  | addr peer now timestamp stream services address =>
    obtain ⟨p, -, rfl⟩ := Option.map_eq_some_iff.mp hs
    split_ifs
    · exact grows_addAddr now timestamp stream services address
    · exact .of_eq rfl
  | getdata peer hashes => exact absurd rfl (he peer hashes)
  | object peer now blob =>
    obtain ⟨p, -, hs⟩ := Option.bind_eq_some_iff.mp hs
    exact grows_addObject hs
  | addBlob now blob flags => exact grows_addObject hs
  | addObjectFromData now blob flags => exact grows_addObject hs
  | delayedBroadcast i =>
    obtain ⟨hash, -, rfl⟩ := Option.map_eq_some_iff.mp hs
    exact ⟨_, rfl, by simp [Effect.isBlob]⟩
  | gc now monotonic =>
    cases hs
    exact grows_gcTimeoutCb now monotonic
  | loadBlob type hash timestamp =>
    cases hs
    exact grows_storeForEachBlobCb type hash timestamp
  | loadAddr now timestamp stream services address =>
    cases hs
    exact grows_addAddr now timestamp stream services address
  | dnsAddress address =>
    simp only [step] at hs
    split at hs
    · cases hs
      exact .of_eq rfl
    · cases hs
      exact .of_eq rfl
  | addPeerAddress address => cases hs; exact .of_eq rfl
  | addListenAddress => cases hs; exact .of_eq rfl
  | listenError socket => cases hs; exact .of_eq rfl
  | storeLoaded => cases hs; exact .of_eq rfl
  | useOnlyExplicitAddresses value => cases hs; exact .of_eq rfl
  | saveAddrList => cases hs; exact .of_eq rfl

end Step

end Notbit.Network
