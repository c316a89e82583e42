import Notbit.Network.Gossip
import Notbit.Network.Moves

/-!
# Convergence — every network that is connected gets every object (`ntb-network.c`)

A connected peer is told of an object or will be, a network that is told of it has it or asks for it,
and who is asked sends it.  So when nothing is on its way any more, no network is left without the
object, as long as none of them gives it up on the way.
-/

open Notbit.Proto Runs Relation

namespace Notbit.Network

/-! ## 1. One network -/

/-- The store hands over a file. -/
def Event.isLoadBlob : Event → Bool
  | .loadBlob .. => true
  | _ => false

namespace State

variable {ssl : OpenSSL} {nw nw' : State} {e : Event} {p : Nat} {h : Hash}

instance (nw : State) (h : Hash) : Decidable (nw.Has h) := inferInstanceAs (Decidable (_ ∈ _))

instance (nw : State) (h : Hash) : Decidable (nw.Holds h) := inferInstanceAs (Decidable (_ ∨ _))

instance (nw : State) (e : Event) : Decidable (LoadsFirst nw e) :=
  decidable_of_iff (e.isLoadBlob = true → nw.connectedPeers = []) <| by
    cases e <;> simp [LoadsFirst, Event.isLoadBlob]

/-- A hash was announced to a peer. -/
def Posted (nw : State) (p : Nat) (h : Hash) : Prop := ∃ inv ∈ nw.invs, inv.1 = p ∧ h ∈ inv.2

/-- All connected peers are told of the object, at once or by the delayed broadcast. -/
def Told (nw : State) (h : Hash) : Prop :=
  nw.Has h → ∀ p ∈ nw.connectedPeers, nw.Posted p h ∨ h ∈ nw.delayedBroadcasts

/-- The object is there if it was announced or will be. -/
def Vouched (nw : State) (h : Hash) : Prop :=
  (h ∈ nw.delayedBroadcasts ∨ ∃ p, nw.Posted p h) → nw.Has h

/-- The object is not too old to be announced to a peer that becomes connected. -/
def Young (nw nw' : State) (e : Event) (h : Hash) : Prop :=
  ∀ done ∈ nw.completes e, ∀ o ∈ nw'.objects, o.hash = h →
    done.2 - o.timestamp < maxAgeForType o.type

instance (nw nw' : State) (e : Event) (h : Hash) : Decidable (nw.Young nw' e h) :=
  inferInstanceAs (Decidable (∀ _ ∈ _, _))

theorem Told.step (htold : nw.Told h) (htracked : nw.Tracked [])
    (hs : Network.step ssl nw e = some nw') (hfirst : LoadsFirst nw e) (hyoung : nw.Young nw' e h) :
    nw'.Told h := by
  intro hhas p hp
  obtain ⟨o, ho, rfl⟩ := List.mem_map.mp hhas
  have hinvs : nw.invs <+: nw'.invs := by
    have hnext := @invs_next ssl _ htracked e
    rwa [next_of_some hs] at hnext
  -- a network that has announced nothing, and a time at which the object is not too old
  let old : State := {}
  have hold : old.invs <+: nw.invs := List.nil_prefix
  let now := o.timestamp + maxAgeForType o.type - 1
  have hposted : nw'.Announced old p now o → nw'.Posted p o.hash ∨ o.hash ∈ nw'.delayedBroadcasts := by
    rintro (hsent | hdelayed | hage)
    · exact .inl hsent
    · exact .inr hdelayed
    · exact absurd hage (by simp only [now]; omega)
  by_cases hbefore : p ∈ nw.connectedPeers
  · by_cases hmem : o ∈ nw.objects
    · have hhas : nw.Has o.hash := List.mem_map_of_mem hmem
      have hannounced : nw.Announced old p now o := (htold hhas p hbefore).imp id .inl
      exact hposted (Announced.step htracked hold hs hbefore hannounced)
    · exact hposted (announced_new htracked hold hs hfirst hbefore ho hmem)
  · obtain ⟨now', hcompletes, hall⟩ := announced_established htracked hs hp hbefore
    rcases hall o ho with ⟨inv, hinv, hpeer, hhash⟩ | hdelayed | hage
    · exact .inl ⟨inv, List.mem_of_mem_drop hinv, hpeer, hhash⟩
    · exact .inr hdelayed
    · exact absurd hage (Int.not_le.mpr (hyoung (p, now') hcompletes o ho rfl))

theorem Vouched.step (hvouched : nw.Vouched h) (htracked : nw.Tracked [])
    (hs : Network.step ssl nw e = some nw') (hkeeps : nw.Has h → nw'.Has h) : nw'.Vouched h := by
  have hsame : ∀ {l : List (Nat × List Hash)}, nw'.posted = (nw.delayedBroadcasts, l) →
      (∀ inv ∈ l, h ∈ inv.2 → nw.Has h) → nw'.Vouched h := by
    intro l hposted hl hcase
    obtain ⟨hdelayed, hinvs⟩ := Prod.mk.inj hposted
    rcases hcase with hmem | ⟨p, inv, hinv, -, hmem⟩
    · exact hkeeps (hvouched (.inl (hdelayed ▸ hmem)))
    · exact hkeeps (hl inv (hinvs ▸ hinv) hmem)
  have hold : ∀ inv ∈ nw.invs, h ∈ inv.2 → nw.Has h := fun inv hinv hmem =>
    hvouched (.inr ⟨inv.1, inv, hinv, rfl, hmem⟩)
  have hbroadcast : ∀ {hash : Hash}, (hash = h → nw.Has h) → ∀ inv ∈ nw.invs ++
      nw.connectedPeers.map (fun peer => (peer, [hash])), h ∈ inv.2 → nw.Has h := by
    intro hash hhash inv hinv hmem
    rcases List.mem_append.mp hinv with hinv | hinv
    · exact hold inv hinv hmem
    · obtain ⟨peer, -, rfl⟩ := List.mem_map.mp hinv
      exact hhash (List.mem_singleton.mp hmem).symm
  cases announces_step htracked hs with
  | quiet hcompletes hadded hfired hconnected hposted => exact hsame hposted hold
  | accepted now blob flags hadded haccepts hconnected hposted =>
    have hnew : doubleHash ssl blob.data = h → nw'.Has h := by
      rintro rfl
      cases (htracked.step hs).2 with
      | same hnone hview => exact absurd haccepts (hnone now blob flags hadded)
      | accepted now' blob' flags' hadded' haccepts' hview =>
        rw [hadded] at hadded'
        cases hadded'
        obtain ⟨timestamp, -, -, hview⟩ := hview
        rw [Has, show nw'.objects = _ from congrArg Prod.fst hview]
        exact List.mem_cons_self
      | collected now' monotonic hview => cases hadded
      | loaded type hash timestamp hnone hview => cases hadded
    by_cases hhash : doubleHash ssl blob.data = h
    · exact fun _ => hnew hhash
    · split at hposted
      · intro hcase
        obtain ⟨hdelayed, hinvs⟩ := Prod.mk.inj hposted
        rcases hcase with hmem | ⟨p, inv, hinv, -, hmem⟩
        · rw [hdelayed] at hmem
          rcases List.mem_cons.mp hmem with heq | hmem
          · exact absurd heq.symm hhash
          · exact hkeeps (hvouched (.inl hmem))
        · exact hkeeps (hold inv (hinvs ▸ hinv) hmem)
      · exact hsame hposted (hbroadcast fun heq => absurd heq hhash)
  | fired i hash he hi hconnected hposted =>
    have hdelayed : hash ∈ nw.delayedBroadcasts := List.mem_of_getElem? hi
    obtain ⟨hrest, hinvs⟩ := Prod.mk.inj hposted
    rintro (hmem | ⟨p, inv, hinv, -, hmem⟩)
    · exact hkeeps (hvouched (.inl (List.mem_of_mem_eraseIdx (hrest ▸ hmem))))
    · refine hkeeps (hbroadcast (fun heq => ?_) inv (hinvs ▸ hinv) hmem)
      exact hvouched (.inl (heq ▸ hdelayed))
  | established p now hcompletes hconnected hposted =>
    refine hsame hposted fun inv hinv hmem => ?_
    rcases List.mem_append.mp hinv with hinv | hinv
    · exact hold inv hinv hmem
    · cases List.mem_singleton.mp hinv
      obtain ⟨a, ha, heq⟩ := List.mem_map.mp hmem
      exact List.mem_map.mpr ⟨_, List.mem_map_of_mem (List.mem_filter.mp ha).1, heq⟩

-- Nothing was asked of a peer that is to come.
theorem Tracked.notMem_awaited (htracked : nw.Tracked []) : h ∉ nw.awaited nw.nextPeer := by
  intro hmem
  obtain ⟨l, hl, -⟩ := mem_awaited.mp hmem
  obtain ⟨peer, hpeer, heq⟩ := List.mem_map.mp hl
  have hlt := htracked.ids_lt peer hpeer
  rw [(Prod.mk.inj heq).1] at hlt
  exact Nat.lt_irrefl _ hlt

end State

namespace Mesh

variable {ι : Type} [DecidableEq ι] {ssl : OpenSSL} {s s' : Mesh ι} {e : MeshEvent ι}
  {i j : ι} {p q : Nat} {ev : Event} {effects : List Effect} {h : Hash}

/-! ## 2. The connections -/

/-- The two ends of a connection name each other, and a connection that was made is in use nowhere
before it is accepted. -/
structure Wired (s : Mesh ι) : Prop where
  born : ∀ i p x, s.wire i p = some x → p < (s.node i).nextPeer
  paired : ∀ i p j q, s.wire i p = some (j, q) → s.wire j q = some (i, p)
  dials : s.dials.Nodup
  dialed : ∀ i p, (i, p) ∈ s.dials → p < (s.node i).nextPeer ∧ s.wire i p = none

theorem Acts.nextPeer (hacts : Acts ssl s e i ev effects s') (j : ι) :
    (s.node j).nextPeer ≤ (s'.node j).nextPeer := by
  by_cases hj : j = i
  · subst hj
    exact (State.moves_step hacts.step 0).nextPeer
  · rw [hacts.others j hj]

theorem Wired.wire_mono (hwired : s.Wired) (hacts : Acts ssl s e i ev effects s') {x : ι × Nat}
    (hx : s.wire j q = some x) : s'.wire j q = some x := by
  cases hacts.joined with
  | same hwire hdials => rwa [hwire]
  | dialed hev hborn hwire hdials => rwa [hwire]
  | accepted socket k a b he hborn hdial hdials hwire =>
    rw [hwire]
    have hfresh : (j, q) ≠ (i, (s.node i).nextPeer) := by
      rintro heq
      cases heq
      exact Nat.lt_irrefl _ (hwired.born _ _ _ hx)
    have hused : (j, q) ≠ (a, b) := by
      rintro heq
      cases heq
      rw [(hwired.dialed _ _ (List.mem_of_getElem? hdial)).2] at hx
      cases hx
    simp only [if_neg hfresh, if_neg hused, hx]

theorem Wired.step (hwired : s.Wired) (hacts : Acts ssl s e i ev effects s') : s'.Wired := by
  have hlt : ∀ {j q}, q < (s.node j).nextPeer → q < (s'.node j).nextPeer := fun hq =>
    Nat.lt_of_lt_of_le hq (hacts.nextPeer _)
  cases hacts.joined with
  | same hwire hdials =>
    refine ⟨fun j q x hx => hlt (hwired.born j q x (hwire ▸ hx)), ?_, hdials ▸ hwired.dials,
      fun j q hmem => ?_⟩
    · rw [hwire]
      exact hwired.paired
    · obtain ⟨hborn, hnone⟩ := hwired.dialed j q (hdials ▸ hmem)
      exact ⟨hlt hborn, by rw [hwire, hnone]⟩
  | dialed hev hborn hwire hdials =>
    have hfresh : s.wire i (s.node i).nextPeer = none := by
      by_contra hsome
      obtain ⟨x, hx⟩ := Option.ne_none_iff_exists'.mp hsome
      exact Nat.lt_irrefl _ (hwired.born _ _ _ hx)
    refine ⟨fun j q x hx => hlt (hwired.born j q x (hwire ▸ hx)), ?_, ?_, fun j q hmem => ?_⟩
    · rw [hwire]
      exact hwired.paired
    · rw [hdials]
      refine List.nodup_cons.mpr ⟨fun hmem => ?_, hwired.dials⟩
      exact Nat.lt_irrefl _ (hwired.dialed _ _ hmem).1
    · rw [hdials] at hmem
      rw [hwire]
      rcases List.mem_cons.mp hmem with heq | hmem
      · cases heq
        exact ⟨by rw [hborn]; exact Nat.lt_succ_self _, hfresh⟩
      · exact ⟨hlt (hwired.dialed j q hmem).1, (hwired.dialed j q hmem).2⟩
  | accepted socket k a b he hborn hdial hdials hwire =>
    obtain ⟨hborn', hnone⟩ := hwired.dialed a b (List.mem_of_getElem? hdial)
    have hne : (a, b) ≠ (i, (s.node i).nextPeer) := by
      rintro heq
      cases heq
      exact Nat.lt_irrefl _ hborn'
    have hunused : ∀ {j q x}, s.wire j q = some x →
        x ≠ (i, (s.node i).nextPeer) ∧ x ≠ (a, b) := by
      rintro j q ⟨c, d⟩ hx
      have hback := hwired.paired _ _ _ _ hx
      refine ⟨fun heq => ?_, fun heq => ?_⟩
      · cases heq
        exact Nat.lt_irrefl _ (hwired.born _ _ _ hback)
      · cases heq
        rw [hnone] at hback
        cases hback
    have hself : s'.wire i (s.node i).nextPeer = some (a, b) := by rw [hwire]; exact if_pos rfl
    have hother : s'.wire a b = some (i, (s.node i).nextPeer) := by
      rw [hwire]
      exact (if_neg hne).trans (if_pos rfl)
    refine ⟨fun j q x hx => ?_, fun j q c d hx => ?_, ?_, fun j q hmem => ?_⟩
    · rw [hwire] at hx
      simp only at hx
      split_ifs at hx with h₁ h₂
      · cases h₁
        rw [hborn]
        exact Nat.lt_succ_self _
      · cases h₂
        exact hlt hborn'
      · exact hlt (hwired.born j q x hx)
    · rw [hwire] at hx
      simp only at hx
      split_ifs at hx with h₁ h₂
      · cases h₁
        cases hx
        exact hother
      · cases h₂
        cases hx
        exact hself
      · obtain ⟨hne₁, hne₂⟩ := hunused hx
        rw [hwire]
        simp only [if_neg hne₁, if_neg hne₂]
        exact hwired.paired _ _ _ _ hx
    · rw [hdials]
      exact hwired.dials.sublist (List.eraseIdx_sublist ..)
    · rw [hdials] at hmem
      have hold := List.mem_of_mem_eraseIdx hmem
      obtain ⟨hborn'', hnone'⟩ := hwired.dialed j q hold
      refine ⟨hlt hborn'', ?_⟩
      have hne₁ : (j, q) ≠ (i, (s.node i).nextPeer) := by
        rintro heq
        cases heq
        exact Nat.lt_irrefl _ hborn''
      -- the list holds the connection once, and it was taken out
      have hne₂ : (j, q) ≠ (a, b) := by
        rintro heq
        rw [heq, List.mem_eraseIdx_iff_getElem?] at hmem
        obtain ⟨l, hl, hget⟩ := hmem
        have hlt := (List.getElem?_eq_some_iff.mp hget).1
        exact hl ((List.getElem?_inj hlt hwired.dials).mp (hget.trans hdial.symm))
      rw [hwire]
      simp only [if_neg hne₁, if_neg hne₂, hnone']

theorem wired_run (ssl : OpenSSL) (start : ι → Disk) (nonce : ι → Nat)
    (defaultAddrs : ι → List Netaddress) (events : List (MeshEvent ι)) :
    (run (step ssl) (new start nonce defaultAddrs) events).Wired :=
  invariant (fun _ _ _ hwired hs => by
    obtain ⟨i, ev, effects, hacts⟩ := acts_of_step hs
    exact hwired.step hacts) ⟨by simp [new], by simp [new], List.nodup_nil, by simp [new]⟩ events

/-! ## 3. The queues -/

theorem take_notices_subset {n : Notice} (hmem : n ∈ (s.take e).notices i p) : n ∈ s.notices i p := by
  have hdrop : ∀ {a : ι} {b k : Nat},
      n ∈ (if (i, p) = (a, b) then (s.notices a b).drop k else s.notices i p) →
      n ∈ s.notices i p := by
    intro a b k hmem
    split_ifs at hmem with heq
    · cases heq
      exact List.mem_of_mem_drop hmem
    · exact hmem
  cases e with
  | inv j q monotonic k =>
    simp only [take] at hmem
    split at hmem
    · exact hdrop hmem
    · exact hmem
  | getdata j q k stray =>
    simp only [take] at hmem
    split at hmem
    · exact hdrop hmem
    · exact hmem
  | object j q k now =>
    simp only [take] at hmem
    split at hmem <;> exact hmem
  | dial j monotonic rand => exact hmem
  | accept j socket k => exact hmem
  | own j ev => exact hmem

/-- What is taken out of a queue is in the command that is delivered. -/
theorem notice_kept (hevent : s.event e = some (j, ev)) {n : Notice} (hmem : n ∈ s.notices i p) :
    n ∈ (s.take e).notices i p ∨ ∃ q hashes, s.wire j q = some (i, p) ∧ n.hash ∈ hashes ∧
      ((n.isInv = true ∧ ∃ monotonic, ev = .inv q monotonic hashes) ∨
        n.isInv = false ∧ ev = .getdata q hashes) := by
  have hsplit : ∀ k, n ∈ (s.notices i p).take k ∨ n ∈ (s.notices i p).drop k := fun k =>
    List.mem_append.mp (by rwa [List.take_append_drop])
  cases event_cases hevent with
  | inv q monotonic k c d he hwire hall =>
    simp only [he, take, hwire]
    by_cases heq : (i, p) = (c, d)
    · cases heq
      rw [if_pos rfl]
      rcases hsplit k with htaken | hrest
      · exact .inr ⟨q, _, hwire, List.mem_map_of_mem htaken, .inl ⟨hall n htaken, monotonic, rfl⟩⟩
      · exact .inl hrest
    · rw [if_neg heq]
      exact .inl hmem
  | getdata q k stray c d he hwire hall =>
    simp only [he, take, hwire]
    by_cases heq : (i, p) = (c, d)
    · cases heq
      rw [if_pos rfl]
      rcases hsplit k with htaken | hrest
      · exact .inr ⟨q, _, hwire, List.mem_map_of_mem htaken, .inr ⟨hall n htaken, rfl⟩⟩
      · exact .inl hrest
    · rw [if_neg heq]
      exact .inl hmem
  | object q k now c d blob he hwire hget =>
    simp only [he, take, hwire]
    exact .inl hmem
  | dial monotonic rand he => rw [he]; exact .inl hmem
  | accept socket k he => rw [he]; exact .inl hmem
  | own he hallows => rw [he]; exact .inl hmem

theorem blob_kept (hevent : s.event e = some (j, ev)) {blob : Blob} (hmem : blob ∈ s.blobs i p) :
    blob ∈ (s.take e).blobs i p ∨
      ∃ q now, s.wire j q = some (i, p) ∧ ev = .object q now blob := by
  cases event_cases hevent with
  | object q k now c d sent he hwire hget =>
    simp only [he, take, hwire]
    by_cases heq : (i, p) = (c, d)
    · cases heq
      rw [if_pos rfl]
      obtain ⟨l, hl⟩ := List.mem_iff_getElem?.mp hmem
      by_cases hlk : l = k
      · subst hlk
        rw [hget] at hl
        cases hl
        exact .inr ⟨q, now, hwire, rfl⟩
      · exact .inl (List.mem_eraseIdx_iff_getElem?.mpr ⟨l, hlk, hl⟩)
    · rw [if_neg heq]
      exact .inl hmem
  | inv q monotonic k c d he hwire hall => simp only [he, take, hwire]; exact .inl hmem
  | getdata q k stray c d he hwire hall => simp only [he, take, hwire]; exact .inl hmem
  | dial monotonic rand he => rw [he]; exact .inl hmem
  | accept socket k he => rw [he]; exact .inl hmem
  | own he hallows => rw [he]; exact .inl hmem

-- An announcement from one of the networks was in the queue, and none comes before the connection
-- is accepted.
theorem announcement_queued {monotonic : Nat} {hashes : List Hash}
    (hevent : s.event e = some (j, .inv q monotonic hashes)) (hinside : s.inside j q = true) :
    ∃ i p, s.wire j q = some (i, p) ∧ ∀ h ∈ hashes, .inv h ∈ s.notices i p := by
  cases event_cases hevent with
  | inv q monotonic k i p he hwire hall =>
    refine ⟨i, p, hwire, fun h hh => ?_⟩
    obtain ⟨n, hn, rfl⟩ := List.mem_map.mp hh
    have hinv := hall n hn
    cases n with
    | inv hash => exact List.mem_of_mem_take hn
    | getdata hash => cases hinv
  | own he hallows =>
    rw [allows, hinside] at hallows
    cases hallows

/-! ## 4. The files -/

/-- Every accepted object has its file, when the store has done what it was asked to do. -/
def Stocked (start : Disk) (v : List Object × List FileTask) : Prop :=
  ∀ o ∈ v.1, ∃ blob, v.2.foldl FileTask.apply start o.hash = some blob

theorem Stocked.dropped {start : Disk} {v v' : List Object × List FileTask} (hstock : Stocked start v)
    (hdropped : ReflTransGen State.Dropped v v') : Stocked start v' := by
  induction hdropped with
  | refl => exact hstock
  | tail _ hdropped ih =>
    obtain ⟨hash, rfl⟩ := hdropped
    intro o ho
    obtain ⟨hmem, hne⟩ := List.mem_filter.mp ho
    obtain ⟨blob, hblob⟩ := ih o hmem
    refine ⟨blob, ?_⟩
    rw [List.foldl_append, List.foldl_cons, List.foldl_nil, FileTask.apply,
      Function.update_of_ne (of_decide_eq_true hne), hblob]

theorem Stocked.step (hstock : Stocked (s.start i) (s.node i).view)
    (hacts : Acts ssl s e i ev effects s') (htracked : (s.node i).Tracked []) :
    Stocked (s'.start i) (s'.node i).view := by
  rw [hacts.start]
  cases (htracked.step hacts.step).2 with
  | same hadded h => rwa [h]
  | accepted now blob flags hadded haccepts h =>
    obtain ⟨timestamp, -, -, h⟩ := h
    rw [h]
    intro o ho
    rw [List.foldl_append, List.foldl_cons, List.foldl_nil, FileTask.apply]
    by_cases hhash : o.hash = doubleHash ssl blob.data
    · exact ⟨blob, by rw [hhash, Function.update_self]⟩
    · rw [Function.update_of_ne hhash]
      rcases List.mem_cons.mp ho with rfl | ho
      · exact absurd rfl hhash
      · exact hstock o ho
  | collected now monotonic h => exact hstock.dropped h
  | loaded type hash timestamp hnone h =>
    rw [h]
    intro o ho
    rcases List.mem_cons.mp ho with rfl | ho
    · -- the store hands over only what is there
      have hallows : s.allows i (.loadBlob type hash timestamp) = true := by
        cases event_cases hacts.event with
        | own he hallows => exact hallows
      obtain ⟨blob, hblob, -⟩ := (Option.any_eq_true _ _).mp hallows
      exact ⟨blob, hblob⟩
    · exact hstock o ho

/-- A network that has the object sends it to whom asks for it. -/
theorem answered {hashes : List Hash}
    (hacts : Acts ssl s e i (.getdata p hashes) effects s') {past : List Blob}
    (hhonest : s.Honest ssl past) (hinv : (s.node i).Inv)
    (hstock : Stocked (s.start i) (s.node i).view) (hmem : h ∈ hashes) (hhas : (s.node i).Has h) :
    ∃ blob ∈ s'.blobs i p, doubleHash ssl blob.data = h := by
  obtain ⟨o, ho, rfl⟩ := List.mem_map.mp hhas
  obtain ⟨b, hb, rfl⟩ := List.mem_map.mp ho
  have htracked := hhonest.tracked i
  have hlinked : b ∈ (s.node i).linked := State.mem_linked.mpr (.inr (.inl hb))
  -- it is the accepted inventory that is found
  obtain ⟨a, hget⟩ := Option.ne_none_iff_exists'.mp (hinv.knows_iff.mp ⟨b, hlinked, rfl⟩)
  obtain ⟨ha, hhash⟩ := hinv.hashGet_mem htracked hget
  have hab : a = b := (hinv.sound.consistent hinv.counted).hashes a ha b hlinked hhash
  subst hab
  have hstate := htracked.accepted a hb
  have hsent : (s.node i).heap a ∈ (s.node i).getdataInventories hashes :=
    mem_getdataInventories.mpr ⟨_, hmem, a, hget, rfl, by rw [hstate]; simp⟩
  have hfound : ∃ blob, ((s.node i).heap a).content (s.disk i) e.stray = some blob ∧
      s.Stored i ((s.node i).heap a).hash blob := by
    have havailable := hhonest.filled i a hstate
    rw [Inventory.content, if_pos hstate]
    unfold Inventory.Available at havailable
    cases hblob : ((s.node i).heap a).blob with
    | none => rw [hblob] at havailable; exact absurd havailable id
    | some loaded =>
      rw [hblob] at havailable
      cases loaded with
      | none =>
        obtain ⟨blob, hdisk⟩ := hstock _ ho
        exact ⟨blob, hdisk, stored_of_disk hdisk⟩
      | some blob =>
        exact ⟨blob, rfl, .inl (List.mem_filterMap.mpr ⟨_, havailable, rfl⟩)⟩
  obtain ⟨blob, hcontent, hstored⟩ := hfound
  refine ⟨blob, ?_, (hhonest.stored i _ blob hstored).1.1⟩
  rw [hacts.blobs, if_pos rfl, State.sentBlobs, if_pos rfl]
  exact List.mem_append_right _ (List.mem_filterMap.mpr ⟨_, hsent, hcontent⟩)

/-! ## 5. One object -/

/-- No network gives up an object, or its request for it, in a step.  It does not reject the object
either, no list of rejected objects is full, no connection is made so late that the object is not
announced any more, the files are loaded first, and no stray is sent that has the object's hash. -/
structure Calm (ssl : OpenSSL) (h : Hash) (s : Mesh ι) (e : MeshEvent ι) : Prop where
  keeps : ∀ i, (s.node i).Has h → ((next (step ssl) s e).node i).Has h
  waits : ∀ i, (s.node i).Holds h → ((next (step ssl) s e).node i).Holds h
  spares : ∀ i, ∀ a ∈ ((next (step ssl) s e).node i).rejectedInventories,
    (((next (step ssl) s e).node i).heap a).hash ≠ h
  room : ∀ i, (s.node i).nRejectedInventories < maxRejectedInventories
  young : ∀ x ∈ s.event e, (s.node x.1).Young ((next (step ssl) s e).node x.1) x.2 h
  loadsFirst : ∀ x ∈ s.event e, LoadsFirst (s.node x.1) x.2
  strays : ∀ blob ∈ s.strays e, doubleHash ssl blob.data ≠ h

instance [Fintype ι] (ssl : OpenSSL) (h : Hash) (s : Mesh ι) (e : MeshEvent ι) :
    Decidable (Calm ssl h s e) :=
  decidable_of_iff (_ ∧ _ ∧ _ ∧ _ ∧ _ ∧ _ ∧ _)
    ⟨fun ⟨keeps, waits, spares, room, young, loadsFirst, strays⟩ =>
      ⟨keeps, waits, spares, room, young, loadsFirst, strays⟩,
    fun hcalm => ⟨hcalm.keeps, hcalm.waits, hcalm.spares, hcalm.room, hcalm.young,
      hcalm.loadsFirst, hcalm.strays⟩⟩

/-- Where the object and the commands about it are. -/
structure Spread (ssl : OpenSSL) (h : Hash) (s : Mesh ι) : Prop where
  honest : ∃ past, s.Honest ssl past
  inv : ∀ i, (s.node i).Inv
  stocked : ∀ i, Stocked (s.start i) (s.node i).view
  wired : s.Wired
  told : ∀ i, (s.node i).Told h
  vouched : ∀ i, (s.node i).Vouched h
  /-- Who was told of the object has it or asks for it. -/
  announced : ∀ i p, (s.node i).Posted p h →
    .inv h ∈ s.notices i p ∨ ∃ j q, s.wire i p = some (j, q) ∧ (s.node j).Holds h
  announcing : ∀ i p, .inv h ∈ s.notices i p → (s.node i).Has h
  unasked : ∀ i p, (i, p) ∈ s.dials → h ∉ (s.node i).awaited p
  /-- What is on its way under the hash is an object. -/
  dated : ∀ i p, ∀ blob ∈ s.blobs i p, doubleHash ssl blob.data = h →
    (objectTimestamp blob.data).isSome
  /-- Who was asked for the object has it and sends it. -/
  asked : ∀ j q i p, s.wire j q = some (i, p) → h ∈ (s.node j).awaited q → (s.node i).Has h ∧
    (.getdata h ∈ s.notices j q ∨ ∃ blob ∈ s.blobs i p, doubleHash ssl blob.data = h)

/-- What a network has posted goes into the queue. -/
theorem posted_queued (hacts : Acts ssl s e i ev effects s') (hposted : (s'.node i).Posted p h) :
    (s.node i).Posted p h ∨ .inv h ∈ s'.notices i p := by
  obtain ⟨inv, hinv, hpeer, hmem⟩ := hposted
  rw [State.invs, hacts.log, List.filterMap_append] at hinv
  rcases List.mem_append.mp hinv with hold | hnew
  · exact .inl ⟨inv, hold, hpeer, hmem⟩
  · refine .inr ?_
    obtain ⟨effect, heffect, hsome⟩ := List.mem_filterMap.mp hnew
    rw [hacts.notices, if_pos rfl]
    refine List.mem_append_right _ (List.mem_flatMap.mpr ⟨effect, heffect, ?_⟩)
    cases effect with
    | sendInv peer hashes =>
      cases hsome
      rw [Effect.notices, if_pos hpeer]
      exact List.mem_map_of_mem hmem
    | sendVersion peer => cases hsome
    | sendVerack peer => cases hsome
    | sendAddr peer addresses => cases hsome
    | sendGetdata peer hashes => cases hsome
    | sendBlob peer hash blob => cases hsome
    | saveBlob hash blob => cases hsome
    | deleteObject hash => cases hsome
    | newObject blob => cases hsome
    | loadedBlob hash => cases hsome

/-- What is new in a queue was posted. -/
theorem queued_posted (hacts : Acts ssl s e i ev effects s') (hmem : .inv h ∈ s'.notices j p) :
    .inv h ∈ s.notices j p ∨ j = i ∧ (s'.node i).Posted p h := by
  rw [hacts.notices] at hmem
  rcases List.mem_append.mp hmem with hold | hnew
  · exact .inl (take_notices_subset hold)
  · split_ifs at hnew with hj
    · obtain ⟨effect, heffect, hnew⟩ := List.mem_flatMap.mp hnew
      refine .inr ⟨hj, ?_⟩
      have hlog : effect ∈ (s'.node i).log := by
        rw [hacts.log]
        exact List.mem_append_right _ heffect
      cases effect with
      | sendInv peer hashes =>
        simp only [Effect.notices] at hnew
        split_ifs at hnew with hpeer
        · obtain ⟨hash, hhash, heq⟩ := List.mem_map.mp hnew
          cases heq
          exact ⟨(peer, hashes), List.mem_filterMap.mpr ⟨_, hlog, rfl⟩, hpeer, hhash⟩
        · cases hnew
      | sendGetdata peer hashes =>
        simp only [Effect.notices] at hnew
        split_ifs at hnew
        · obtain ⟨hash, -, heq⟩ := List.mem_map.mp hnew
          cases heq
        · cases hnew
      | sendVersion peer => cases hnew
      | sendVerack peer => cases hnew
      | sendAddr peer addresses => cases hnew
      | sendBlob peer hash blob => cases hnew
      | saveBlob hash blob => cases hnew
      | deleteObject hash => cases hnew
      | newObject blob => cases hnew
      | loadedBlob hash => cases hnew
    · cases hnew

-- A network that begins to wait for an object has been told of it by the peer it asks.
theorem awaited_cases (hacts : Acts ssl s e i ev effects s') (hinv : (s.node i).Inv)
    (htracked : (s.node i).Tracked []) (hmem : h ∈ (s'.node i).awaited p) :
    h ∈ (s.node i).awaited p ∨ ∃ monotonic hashes, ev = .inv p monotonic hashes ∧ h ∈ hashes ∧
      .getdata h ∈ s'.notices i p := by
  by_cases hev : ∃ peer monotonic hashes, ev = .inv peer monotonic hashes
  · obtain ⟨peer, monotonic, hashes, rfl⟩ := hev
    obtain ⟨q, hq, heq⟩ := Option.map_eq_some_iff.mp hacts.step
    obtain ⟨hpeer, rfl⟩ := State.findPeer_mem hq
    obtain ⟨requests, hlog, hsub, hawaited, -⟩ := State.handleInv_spec hinv htracked monotonic
      hashes (List.mem_map_of_mem hpeer)
    rw [heq] at hlog hawaited
    rcases List.mem_append.mp (hawaited p hmem) with hold | hnew
    · exact .inl hold
    · split_ifs at hnew with hp
      · subst hp
        refine .inr ⟨monotonic, hashes, rfl, hsub hnew, ?_⟩
        rw [hacts.notices, if_pos rfl, List.append_cancel_left (hacts.log.symm.trans hlog)]
        refine List.mem_append_right _ (List.mem_flatMap.mpr ⟨_, List.mem_cons_self, ?_⟩)
        rw [Effect.notices, if_pos rfl]
        exact List.mem_map_of_mem hnew
      · cases hnew
  · refine .inl (shrinks_step htracked hacts.step (fun peer monotonic hashes heq => ?_) p hmem)
    exact hev ⟨peer, monotonic, hashes, heq⟩

section Step

variable (hspread : Spread ssl h s) (hacts : Acts ssl s e i ev effects s')
  (hkeeps : ∀ i, (s.node i).Has h → (s'.node i).Has h)
  (hwaits : ∀ i, (s.node i).Holds h → (s'.node i).Holds h)

include hspread hacts

-- A network that was told of the object has it, asks for it, or had asked for it already.
theorem Spread.delivered {monotonic : Nat} {hashes : List Hash} (hev : ev = .inv p monotonic hashes)
    (hspares : ∀ a ∈ (s'.node i).rejectedInventories, ((s'.node i).heap a).hash ≠ h)
    (hmem : h ∈ hashes) : (s'.node i).Holds h := by
  obtain ⟨past, hhonest⟩ := hspread.honest
  subst hev
  obtain ⟨q, hq, heq⟩ := Option.map_eq_some_iff.mp hacts.step
  obtain ⟨hpeer, rfl⟩ := State.findPeer_mem hq
  obtain ⟨requests, -, -, -, hknown⟩ := State.handleInv_spec (hspread.inv i) (hhonest.tracked i)
    monotonic hashes (List.mem_map_of_mem hpeer)
  rw [heq] at hknown
  exact (hknown h hmem).holds hspares

include hwaits in
theorem Spread.announced_step
    (hspares : ∀ a ∈ (s'.node i).rejectedInventories, ((s'.node i).heap a).hash ≠ h)
    (hposted : (s'.node j).Posted p h) : .inv h ∈ s'.notices j p ∨
      ∃ k q, s'.wire j p = some (k, q) ∧ (s'.node k).Holds h := by
  have hold : (s.node j).Posted p h ∨ .inv h ∈ s'.notices j p := by
    by_cases hj : j = i
    · subst hj
      exact posted_queued hacts hposted
    · rw [hacts.others j hj] at hposted
      exact .inl hposted
  rcases hold with hold | hnew
  · rcases hspread.announced j p hold with hqueued | ⟨k, q, hwire, hholds⟩
    · rcases notice_kept hacts.event hqueued with hkept | ⟨q, hashes, hwire, hmem, hcase⟩
      · refine .inl ?_
        rw [hacts.notices]
        exact List.mem_append_left _ hkept
      · -- it has just been delivered
        rcases hcase with ⟨-, monotonic, hev⟩ | ⟨hno, -⟩
        · refine .inr ⟨i, q, ?_, hspread.delivered hacts hev hspares hmem⟩
          exact hspread.wired.wire_mono hacts (hspread.wired.paired _ _ _ _ hwire)
        · cases hno
    · exact .inr ⟨k, q, hspread.wired.wire_mono hacts hwire, hwaits k hholds⟩
  · exact .inl hnew

include hkeeps in
theorem Spread.asked_old {k : ι} (hwire : s.wire j q = some (k, p))
    (hmem : h ∈ (s'.node j).awaited q) (hold : h ∈ (s.node j).awaited q) :
    (s'.node k).Has h ∧
      (.getdata h ∈ s'.notices j q ∨ ∃ blob ∈ s'.blobs k p, doubleHash ssl blob.data = h) := by
  obtain ⟨past, hhonest⟩ := hspread.honest
  obtain ⟨hhas, hcase⟩ := hspread.asked j q k p hwire hold
  refine ⟨hkeeps k hhas, ?_⟩
  rcases hcase with hqueued | ⟨blob, hblob, hhash⟩
  · rcases notice_kept hacts.event hqueued with hkept | ⟨p', hashes, hback, hasked, hcase⟩
    · refine .inl ?_
      rw [hacts.notices]
      exact List.mem_append_left _ hkept
    · -- the other network has just been asked
      rcases hcase with ⟨hno, -⟩ | ⟨-, hev⟩
      · cases hno
      · have hsame := hspread.wired.paired _ _ _ _ hback
        rw [hwire] at hsame
        cases hsame
        subst hev
        exact .inr (answered hacts hhonest (hspread.inv i) (hspread.stocked i) hasked hhas)
  · rcases blob_kept hacts.event hblob with hkept | ⟨q', now, hback, hev⟩
    · refine .inr ⟨blob, ?_, hhash⟩
      rw [hacts.blobs]
      exact List.mem_append_left _ hkept
    · -- the object has just come
      have hsame := hspread.wired.paired _ _ _ _ hback
      rw [hspread.wired.paired _ _ _ _ hwire] at hsame
      cases hsame
      subst hev
      obtain ⟨peer, -, hadded⟩ := Option.bind_eq_some_iff.mp hacts.step
      have hgone := State.notMem_awaited_addObject (hspread.inv i) (hhonest.tracked i) hadded
        (hspread.dated k p blob hblob hhash) q
      exact absurd (hhash ▸ hmem) hgone

include hkeeps in
theorem Spread.asked_step {k : ι} (hwire : s'.wire j q = some (k, p))
    (hmem : h ∈ (s'.node j).awaited q) : (s'.node k).Has h ∧
      (.getdata h ∈ s'.notices j q ∨ ∃ blob ∈ s'.blobs k p, doubleHash ssl blob.data = h) := by
  obtain ⟨past, hhonest⟩ := hspread.honest
  have hcases : h ∈ (s.node j).awaited q ∨ j = i ∧ ∃ monotonic hashes,
      ev = .inv q monotonic hashes ∧ h ∈ hashes ∧ .getdata h ∈ s'.notices j q := by
    by_cases hj : j = i
    · subst hj
      rcases awaited_cases hacts (hspread.inv j) (hhonest.tracked j) hmem with hold | hnew
      · exact .inl hold
      · exact .inr ⟨rfl, hnew⟩
    · rw [hacts.others j hj] at hmem
      exact .inl hmem
  -- a connection that is new is one that nobody was asked through
  have hwires : s.wire j q = some (k, p) ∨ h ∉ (s.node j).awaited q ∧
      ∃ socket, ev = .accept socket := by
    cases hacts.joined with
    | same hsame hdials => exact .inl (hsame ▸ hwire)
    | dialed hev hborn hsame hdials => exact .inl (hsame ▸ hwire)
    | accepted socket l a b he hnext hdial hdials hnew =>
      have hev : ∃ socket, ev = .accept socket := by
        cases event_cases hacts.event with
        | accept socket k he' => exact ⟨socket, rfl⟩
        | dial monotonic rand he' => rw [he] at he'; cases he'
        | inv p monotonic n j q he' hwire hall => rw [he] at he'; cases he'
        | getdata p n stray j q he' hwire hall => rw [he] at he'; cases he'
        | object p k now j q blob he' hwire hget => rw [he] at he'; cases he'
        | own he' hallows => rw [he] at he'; cases he'
      rw [hnew] at hwire
      simp only at hwire
      split_ifs at hwire with h₁ h₂
      · cases h₁
        exact .inr ⟨(hhonest.tracked i).notMem_awaited, hev⟩
      · cases h₂
        exact .inr ⟨hspread.unasked j q (List.mem_of_getElem? hdial), hev⟩
      · exact .inl hwire
  rcases hwires with hwire | ⟨hnone, socket, hev⟩
  · rcases hcases with hold | ⟨rfl, monotonic, hashes, rfl, hhash, hqueued⟩
    · exact hspread.asked_old hacts hkeeps hwire hmem hold
    · have hinside : s.inside j q = true := by rw [inside, hwire]; rfl
      obtain ⟨a, b, hwire', hall⟩ := announcement_queued hacts.event hinside
      rw [hwire] at hwire'
      cases hwire'
      exact ⟨hkeeps k (hspread.announcing k p (hall h hhash)), .inl hqueued⟩
  · rcases hcases with hold | ⟨-, monotonic, hashes, rfl, -⟩
    · exact absurd hold hnone
    · cases hev

theorem Spread.unasked_step (hmem : (j, q) ∈ s'.dials) : h ∉ (s'.node j).awaited q := by
  obtain ⟨past, hhonest⟩ := hspread.honest
  intro hawaited
  have hold : (j, q) ∈ s.dials → False := by
    intro hdial
    have hnone := hspread.unasked j q hdial
    by_cases hj : j = i
    · subst hj
      rcases awaited_cases hacts (hspread.inv j) (hhonest.tracked j) hawaited with hmem | hnew
      · exact hnone hmem
      · obtain ⟨monotonic, hashes, rfl, -⟩ := hnew
        have hinside : s.inside j q = true := by
          rw [inside, Bool.or_eq_true]
          exact .inr (List.contains_iff_mem.mpr hdial)
        obtain ⟨a, b, hwire, -⟩ := announcement_queued hacts.event hinside
        rw [(hspread.wired.dialed j q hdial).2] at hwire
        cases hwire
    · rw [hacts.others j hj] at hawaited
      exact hnone hawaited
  cases hacts.joined with
  | same hwire hdials => exact hold (hdials ▸ hmem)
  | dialed hev hnext hwire hdials =>
    rw [hdials] at hmem
    rcases List.mem_cons.mp hmem with heq | hmem
    · cases heq
      obtain ⟨monotonic, rand, rfl⟩ := hev
      exact (hhonest.tracked i).notMem_awaited
        (shrinks_step (hhonest.tracked i) hacts.step (by simp) _ hawaited)
    · exact hold hmem
  | accepted socket l a b he hnext hdial hdials hwire =>
    rw [hdials] at hmem
    exact hold (List.mem_of_mem_eraseIdx hmem)

end Step

theorem Spread.step (hspread : Spread ssl h s) (hcalm : Calm ssl h s e)
    (hs : s.step ssl e = some s') : Spread ssl h s' := by
  obtain ⟨i, ev, effects, hacts⟩ := acts_of_step hs
  obtain ⟨hkeeps, hwaits, hspares, hroom, hyoung, hfirst, hstrays⟩ := hcalm
  rw [next_of_some hs] at hkeeps hwaits hspares hyoung
  obtain ⟨past, hhonest⟩ := hspread.honest
  have hnode : ∀ {P : ι → State → Prop}, (∀ j, P j (s.node j)) → P i (s'.node i) →
      ∀ j, P j (s'.node j) := by
    intro P hold hnew j
    by_cases hj : j = i
    · exact hj ▸ hnew
    · exact hacts.others j hj ▸ hold j
  have hvouched : ∀ j, (s'.node j).Vouched h := hnode (P := fun _ nw => nw.Vouched h)
    hspread.vouched ((hspread.vouched i).step (hhonest.tracked i) hacts.step (hkeeps i))
  refine {
    honest := ⟨_, hhonest.step hs⟩
    inv := hnode (P := fun _ nw => nw.Inv) hspread.inv ((hspread.inv i).step
      (fun now blob flags _ _ => hroom i) hacts.step)
    stocked := fun j => ?_
    wired := hspread.wired.step hacts
    told := hnode (P := fun _ nw => nw.Told h) hspread.told ((hspread.told i).step
      (hhonest.tracked i) hacts.step (hfirst (i, ev) hacts.event) (hyoung (i, ev) hacts.event))
    vouched := hvouched
    announced := fun j p hposted => hspread.announced_step hacts hwaits (hspares i) hposted
    announcing := fun j p hmem => ?_
    unasked := fun j p hmem => hspread.unasked_step hacts hmem
    dated := fun j p blob hblob hhash => ?_
    asked := fun j q k p hwire hmem => hspread.asked_step hacts hkeeps hwire hmem }
  · by_cases hj : j = i
    · rw [hj]
      exact (hspread.stocked i).step hacts (hhonest.tracked i)
    · rw [hacts.others j hj, hacts.start]
      exact hspread.stocked j
  · rcases queued_posted hacts hmem with hold | ⟨hj, hposted⟩
    · exact hkeeps j (hspread.announcing j p hold)
    · exact hj ▸ hvouched i (.inr ⟨p, hposted⟩)
  · rw [hacts.blobs] at hblob
    rcases List.mem_append.mp hblob with hold | hnew
    · exact hspread.dated j p blob (mem_take_blobs hold) hhash
    · split_ifs at hnew
      · rcases stored_of_sent hacts.event (hhonest.filled i) hnew with ⟨hash, hstored⟩ | hstray
        · exact (hhonest.stored i hash blob hstored).1.2
        · exact absurd hhash (hstrays blob hstray)
      · cases hnew

omit [DecidableEq ι] in
theorem spread_new {start : ι → Disk} (hstart : ∀ i hash blob, start i hash = some blob →
    Genuine ssl hash blob) (nonce : ι → Nat) (defaultAddrs : ι → List Netaddress) (h : Hash) :
    Spread ssl h (new start nonce defaultAddrs) where
  honest := ⟨[], honest_new hstart nonce defaultAddrs⟩
  inv i := State.inv_new _ _
  stocked i o ho := by cases ho
  wired := ⟨by simp [new], by simp [new], List.nodup_nil, by simp [new]⟩
  told i hhas := by cases hhas
  vouched i hcase := by
    rcases hcase with hmem | ⟨p, inv, hinv, -⟩
    · cases hmem
    · cases hinv
  announced i p hposted := by
    obtain ⟨inv, hinv, -⟩ := hposted
    cases hinv
  announcing i p hmem := by cases hmem
  unasked i p hmem := by cases hmem
  dated i p blob hblob := by cases hblob
  asked j q i p hwire := by cases hwire

/-! ## 6. Nothing on its way -/

/-- A connection between two networks that is open at both ends. -/
def Live (s : Mesh ι) (i : ι) (p : Nat) (j : ι) (q : Nat) : Prop :=
  s.wire i p = some (j, q) ∧ p ∈ (s.node i).peers.map (·.id) ∧ q ∈ (s.node j).peers.map (·.id)

/-- A network has completed the handshake with another one. -/
def Passes (s : Mesh ι) (i j : ι) : Prop :=
  ∃ p q, s.Live i p j q ∧ p ∈ (s.node i).connectedPeers

/-- What was sent about the object has arrived, no broadcast of it is to come, and nobody waits for
it from a peer outside or after the connection has ended. -/
structure Quiet (ssl : OpenSSL) (s : Mesh ι) (h : Hash) : Prop where
  drained : ∀ i p j q, s.Live i p j q → .inv h ∉ s.notices i p ∧ .getdata h ∉ s.notices i p ∧
    ∀ blob ∈ s.blobs i p, doubleHash ssl blob.data ≠ h
  announced : ∀ i, h ∉ (s.node i).delayedBroadcasts
  asked : ∀ i p, h ∈ (s.node i).awaited p → ∃ j q, s.Live i p j q

omit [DecidableEq ι] in
theorem Spread.passes (hspread : Spread ssl h s) (hquiet : s.Quiet ssl h) (hpasses : s.Passes i j)
    (hhas : (s.node i).Has h) : (s.node j).Has h := by
  obtain ⟨p, q, hlive, hconnected⟩ := hpasses
  have hposted := (hspread.told i hhas p hconnected).resolve_right (hquiet.announced i)
  rcases hspread.announced i p hposted with hqueued | ⟨k, q', hwire, hholds⟩
  · exact absurd hqueued (hquiet.drained i p j q hlive).1
  · have hsame := hlive.1
    rw [hwire] at hsame
    cases hsame
    rcases hholds with hhas | ⟨owner, -, hawaited⟩
    · exact hhas
    · -- nobody can still be waiting
      obtain ⟨k, p', hlive'⟩ := hquiet.asked j owner.1 hawaited
      obtain ⟨-, hcase⟩ := hspread.asked j owner.1 k p' hlive'.1 hawaited
      have hback : s.Live k p' j owner.1 :=
        ⟨hspread.wired.paired _ _ _ _ hlive'.1, hlive'.2.2, hlive'.2.1⟩
      rcases hcase with hqueued | ⟨blob, hblob, hhash⟩
      · exact absurd hqueued (hquiet.drained _ _ _ _ hlive').2.1
      · exact absurd hhash ((hquiet.drained _ _ _ _ hback).2.2 blob hblob)

/-- Whatever the networks have done and in whatever order, as long as none of them gives the object
up: when nothing about it is on its way any more, the object is everywhere where connections lead
from a network that has it. -/
theorem object_everywhere {start : ι → Disk} (hstart : ∀ i hash blob, start i hash = some blob →
    Genuine ssl hash blob) (nonce : ι → Nat) (defaultAddrs : ι → List Netaddress)
    (events : List (MeshEvent ι)) (h : Hash)
    (hcalm : Along (step ssl) (Calm ssl h) (new start nonce defaultAddrs) events)
    (hquiet : (run (step ssl) (new start nonce defaultAddrs) events).Quiet ssl h) {i j : ι}
    (hpath : ReflTransGen (run (step ssl) (new start nonce defaultAddrs) events).Passes i j)
    (hhas : ((run (step ssl) (new start nonce defaultAddrs) events).node i).Has h) :
    ((run (step ssl) (new start nonce defaultAddrs) events).node j).Has h := by
  have hspread := invariant_along (P := Spread ssl h) (fun _ _ _ hsp hc hs => hsp.step hc hs) hcalm
    (spread_new hstart nonce defaultAddrs h)
  induction hpath with
  | refl => exact hhas
  | tail _ hpasses ih => exact hspread.passes hquiet hpasses ih

/-- The second network has the object. -/
theorem sampleGossip_everywhere :
    (sampleMesh.node true).Has (doubleHash .additive sampleBlob.data) := by
  have hwired : sampleMesh.Wired := wired_run .additive _ _ _ sampleGossip
  have hborn : ∀ i, (sampleMesh.node i).nextPeer = 1 := by decide +kernel
  have hfirst : ∀ {i p x}, sampleMesh.wire i p = some x → p = 0 := fun hx => by
    have hlt := hwired.born _ _ _ hx
    rw [hborn] at hlt
    exact Nat.lt_one_iff.mp hlt
  have hdrained : ∀ i, sampleMesh.notices i 0 = [] ∧ sampleMesh.blobs i 0 = [] := by decide +kernel
  have hnone : ∀ i, (sampleMesh.node i).requested = [] := by decide +kernel
  refine object_everywhere (i := false) (by simp) _ _ sampleGossip _ (by decide +kernel)
    ⟨fun i p j q hlive => ?_, by decide +kernel, fun i p hmem => ?_⟩
    (.single ⟨0, 0, ⟨by decide +kernel, by decide +kernel, by decide +kernel⟩, by decide +kernel⟩)
    (by decide +kernel)
  · obtain rfl := hfirst hlive.1
    obtain ⟨hnotices, hblobs⟩ := hdrained i
    change .inv _ ∉ sampleMesh.notices i 0 ∧ .getdata _ ∉ sampleMesh.notices i 0 ∧
      ∀ blob ∈ sampleMesh.blobs i 0, _
    rw [hnotices, hblobs]
    exact ⟨List.not_mem_nil, List.not_mem_nil, nofun⟩
  · obtain ⟨l, hl, a, ha, -⟩ := State.mem_awaited.mp hmem
    have hrequested : a ∈ (sampleMesh.node i).requested := by
      rw [State.requested_eq]
      exact List.mem_flatMap.mpr ⟨_, hl, ha⟩
    rw [hnone] at hrequested
    cases hrequested

end Mesh

end Notbit.Network
