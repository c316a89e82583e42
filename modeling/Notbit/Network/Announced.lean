import Notbit.Network.Delays

/-!
# Announced — no accepted object is withheld from a connected peer (`ntb-network.c`)

A peer that becomes connected gets the list of the accepted objects, and from then on it is told of
every object that is accepted, at once or when its delayed broadcast fires.
-/

open Notbit.Proto Runs Relation

namespace Notbit.Network

section Announced

variable {ssl : OpenSSL} {nw nw' start : State} {e : Event} {p : Nat} {now : Int} {o : Object}

open State

/-- The store hands over what it has saved before any peer is connected. -/
def LoadsFirst (nw : State) (e : Event) : Prop :=
  ∀ type hash timestamp, e = .loadBlob type hash timestamp → nw.connectedPeers = []

/-- Peer `p` becomes connected at `now` in the step after `before`, and it is connected in all states
after that one. -/
structure ConnectedSince (ssl : OpenSSL) (start : State) (before : List Event) (e : Event)
    (after : List Event) (p : Nat) (now : Int) : Prop where
  notYet : p ∉ (run (step ssl) start before).connectedPeers
  completes : (run (step ssl) start before).completes e = some (p, now)
  connected : ∀ pre, pre <+: after →
    p ∈ (run (step ssl) start (before ++ e :: pre)).connectedPeers

/-- An inv command with the hash of the object has been sent to the peer since an earlier state, or
the broadcast of the object is to come, or the object had reached its maximum age at `now`. -/
def State.Announced (nw old : State) (p : Nat) (now : Int) (o : Object) : Prop :=
  (∃ inv ∈ nw.invsSince old, inv.1 = p ∧ o.hash ∈ inv.2) ∨ o.hash ∈ nw.delayedBroadcasts ∨
    maxAgeForType o.type ≤ now - o.timestamp

/-! ## 1. One step -/

theorem Announced.of_sent {old : State} (h : old.invs <+: nw.invs) (h' : nw.invs <+: nw'.invs)
    {hashes : List Hash} (hsent : (p, hashes) ∈ nw'.invsSince nw) (hhash : o.hash ∈ hashes) :
    nw'.Announced old p now o := by
  refine .inl ⟨(p, hashes), ?_, rfl, hhash⟩
  rw [invsSince_trans h h']
  exact List.mem_append_right _ hsent

theorem mem_unexpired (ho : o ∈ nw.objects) (hage : now - o.timestamp < maxAgeForType o.type) :
    o.hash ∈ nw.unexpired now := by
  obtain ⟨a, ha, rfl⟩ := List.mem_map.mp ho
  apply List.mem_map.mpr
  exact ⟨a, List.mem_filter.mpr ⟨ha, decide_eq_true hage⟩, rfl⟩

/-- What was sent stays sent, and a broadcast that is no longer to come has fired. -/
theorem Announced.step {old : State} (htracked : nw.Tracked []) (hold : old.invs <+: nw.invs)
    (hs : step ssl nw e = some nw') (hp : p ∈ nw.connectedPeers) (h : nw.Announced old p now o) :
    nw'.Announced old p now o := by
  have hnew : nw.invs <+: nw'.invs := by
    have hnext := @invs_next ssl _ htracked e
    rwa [next_of_some hs] at hnext
  rcases h with ⟨inv, hinv, hpeer, hhash⟩ | hpending | hold'
  · refine .inl ⟨inv, ?_, hpeer, hhash⟩
    rw [invsSince_trans hold hnew]
    exact List.mem_append_left _ hinv
  · cases announces_step htracked hs with
    | quiet hcompletes hadded hfired hconnected hposted =>
      rw [← (Prod.mk.inj hposted).1] at hpending
      exact .inr (.inl hpending)
    | accepted now' blob flags hadded haccepts hconnected hposted =>
      refine .inr (.inl ?_)
      split at hposted
      · rw [(Prod.mk.inj hposted).1]
        exact List.mem_cons_of_mem _ hpending
      · rw [(Prod.mk.inj hposted).1]
        exact hpending
    | fired i hash he hi hconnected hposted =>
      obtain ⟨hdelayed, hinvs⟩ := Prod.mk.inj hposted
      by_cases hkept : o.hash ∈ nw'.delayedBroadcasts
      · exact .inr (.inl hkept)
      · -- it is the one that has fired
        have heq : o.hash = hash := by
          obtain ⟨j, hj⟩ := List.mem_iff_getElem?.mp hpending
          rw [hdelayed, List.mem_eraseIdx_iff_getElem?] at hkept
          have hji : j = i := by
            by_contra hne
            exact hkept ⟨j, hne, hj⟩
          rw [hji, hi] at hj
          exact (Option.some.inj hj).symm
        have hsent : (p, [hash]) ∈ nw'.invsSince nw := by
          rw [invsSince_of_append hinvs]
          exact List.mem_map.mpr ⟨p, hp, rfl⟩
        exact Announced.of_sent hold hnew hsent (heq ▸ List.mem_cons_self)
    | established p' now' hcompletes hconnected hposted =>
      rw [← (Prod.mk.inj hposted).1] at hpending
      exact .inr (.inl hpending)
  · exact .inr (.inr hold')

theorem objects_of_dropped {v v' : List Object × List FileTask} (h : ReflTransGen Dropped v v') :
    v'.1 ⊆ v.1 := by
  induction h with
  | refl => exact List.Subset.refl _
  | tail _ hdropped ih =>
    obtain ⟨hash, rfl⟩ := hdropped
    exact fun o ho => ih (List.mem_filter.mp ho).1

/-- An object that is new in the list has just been accepted. -/
theorem announced_new {old : State} (htracked : nw.Tracked []) (hold : old.invs <+: nw.invs)
    (hs : step ssl nw e = some nw') (hfirst : LoadsFirst nw e) (hp : p ∈ nw.connectedPeers)
    (ho : o ∈ nw'.objects) (hnot : o ∉ nw.objects) : nw'.Announced old p now o := by
  have hnew : nw.invs <+: nw'.invs := by
    have hnext := @invs_next ssl _ htracked e
    rwa [next_of_some hs] at hnext
  cases (htracked.step hs).2 with
  | same hadded hview =>
    rw [show nw'.objects = nw.objects from congrArg Prod.fst hview] at ho
    exact absurd ho hnot
  | accepted now' blob flags hadded haccepts hview =>
    obtain ⟨timestamp, -, -, hview⟩ := hview
    rw [show nw'.objects = _ from congrArg Prod.fst hview] at ho
    have hhash : o.hash = doubleHash ssl blob.data := by
      rcases List.mem_cons.mp ho with rfl | ho
      · rfl
      · exact absurd ho hnot
    cases announces_step htracked hs with
    | quiet hcompletes hadded' hfired hconnected hposted =>
      exact absurd haccepts (hadded' now' blob flags hadded)
    | accepted now'' blob' flags' hadded' haccepts' hconnected hposted =>
      rw [hadded] at hadded'
      cases hadded'
      split at hposted
      · refine .inr (.inl ?_)
        rw [(Prod.mk.inj hposted).1, hhash]
        exact List.mem_cons_self
      · have hsent : (p, [doubleHash ssl blob.data]) ∈ nw'.invsSince nw := by
          rw [invsSince_of_append (Prod.mk.inj hposted).2]
          exact List.mem_map.mpr ⟨p, hp, rfl⟩
        exact Announced.of_sent hold hnew hsent (hhash ▸ List.mem_cons_self)
    | fired i hash he hi hconnected hposted =>
      rw [he] at hadded
      cases hadded
    | established p' now'' hcompletes hconnected hposted =>
      rw [completes_of_addedObject hadded] at hcompletes
      cases hcompletes
  | collected now' monotonic hview => exact absurd (objects_of_dropped hview ho) hnot
  | loaded type hash timestamp hnone hview =>
    rw [hfirst type hash timestamp rfl] at hp
    exact absurd hp List.not_mem_nil

/-- A peer that becomes connected gets the list. -/
theorem announced_established (htracked : nw.Tracked []) (hs : step ssl nw e = some nw')
    (hp : p ∈ nw'.connectedPeers) (hnot : p ∉ nw.connectedPeers) :
    ∃ now, nw.completes e = some (p, now) ∧ ∀ o ∈ nw'.objects, nw'.Announced nw p now o := by
  cases announces_step htracked hs with
  | quiet hcompletes hadded hfired hconnected hposted => exact absurd (hconnected hp) hnot
  | accepted now blob flags hadded haccepts hconnected hposted =>
    exact absurd (hconnected hp) hnot
  | fired i hash he hi hconnected hposted => exact absurd (hconnected hp) hnot
  | established p' now hcompletes hconnected hposted =>
    rcases List.mem_cons.mp (hconnected hp) with rfl | hp
    · refine ⟨now, hcompletes, fun o ho => ?_⟩
      have hsame : nw'.objects = nw.objects := by
        cases (htracked.step hs).2 with
        | same hadded hview => exact congrArg Prod.fst hview
        | accepted now' blob flags hadded haccepts hview =>
          rw [completes_of_addedObject hadded] at hcompletes
          cases hcompletes
        | collected now' monotonic hview => cases hcompletes
        | loaded type hash timestamp hnone hview => cases hcompletes
      rw [hsame] at ho
      by_cases hage : now - o.timestamp < maxAgeForType o.type
      · refine .inl ⟨(p, nw.unexpired now), ?_, rfl, mem_unexpired ho hage⟩
        rw [invsSince_of_append (Prod.mk.inj hposted).2]
        exact List.mem_cons_self
      · exact .inr (.inr (by omega))
    · exact absurd hp hnot

/-! ## 2. Runs -/

/-- When the store is loaded before any peer is connected, every connected peer has become connected
in a step of the run, and every accepted object is announced to it. -/
theorem connected_announced (nonce : Nat) (defaultAddrs : List Netaddress) (events : List Event)
    (hfirst : Along (step ssl) LoadsFirst (State.new nonce defaultAddrs) events)
    (hp : p ∈ (run (step ssl) (State.new nonce defaultAddrs) events).connectedPeers) :
    ∃ before e after now, events = before ++ e :: after ∧
      ConnectedSince ssl (State.new nonce defaultAddrs) before e after p now ∧
      ∀ o ∈ (run (step ssl) (State.new nonce defaultAddrs) events).objects,
        (run (step ssl) (State.new nonce defaultAddrs) events).Announced
          (run (step ssl) (State.new nonce defaultAddrs) before) p now o := by
  have htracked := @tracked_run ssl _ (tracked_new nonce defaultAddrs)
  induction events using List.reverseRecOn with
  | nil => cases hp
  | append_singleton events e ih =>
    obtain ⟨hfirst, hlast⟩ := (along_append events [e]).mp hfirst
    rw [run_concat] at hp ⊢
    by_cases hbefore : p ∈ (run (step ssl) (State.new nonce defaultAddrs) events).connectedPeers
    · obtain ⟨before, e₀, after, now, rfl, hsince, hannounced⟩ := ih hfirst hbefore
      refine ⟨before, e₀, after ++ [e], now, by simp, ?_, fun o ho => ?_⟩
      · refine ⟨hsince.notYet, hsince.completes, fun pre hpre => ?_⟩
        rcases List.prefix_concat_iff.mp hpre with rfl | hpre
        · rw [← run_concat] at hp
          simpa using hp
        · exact hsince.connected pre hpre
      · have hold := @invs_run ssl _ (htracked before) (e₀ :: after)
        rw [← run_append] at hold
        cases hs : step ssl
            (run (step ssl) (State.new nonce defaultAddrs) (before ++ e₀ :: after)) e with
        | none =>
          rw [next_of_none hs] at ho ⊢
          exact hannounced o ho
        | some nw' =>
          rw [next_of_some hs] at ho ⊢
          by_cases hmem :
              o ∈ (run (step ssl) (State.new nonce defaultAddrs) (before ++ e₀ :: after)).objects
          · exact Announced.step (htracked _) hold hs hbefore (hannounced o hmem)
          · exact announced_new (htracked _) hold hs (hlast.1 (by rw [hs]; rfl)) hbefore ho hmem
    · cases hs : step ssl (run (step ssl) (State.new nonce defaultAddrs) events) e with
      | none =>
        rw [next_of_none hs] at hp
        exact absurd hp hbefore
      | some nw' =>
        have hnext : run (step ssl) (State.new nonce defaultAddrs) (events ++ [e]) = nw' := by
          rw [run_concat, next_of_some hs]
        rw [next_of_some hs] at hp ⊢
        obtain ⟨now, hcompletes, hall⟩ := announced_established (htracked events) hs hp hbefore
        refine ⟨events, e, [], now, rfl, ⟨hbefore, hcompletes, fun pre hpre => ?_⟩, hall⟩
        rw [List.prefix_nil.mp hpre, hnext]
        exact hp

end Announced

open State

def youngHash : Hash := ⟨List.replicate 32 (UInt8.ofNat 1), by decide⟩

/-- Two messages come from the store, of which the first is as old as messages get when the handshake
of a peer is complete. -/
def agedMessage : List Event :=
  [.loadBlob .msg zeroHash 1400000000, .loadBlob .msg youngHash 1400100000, .addListenAddress,
    .accept 0,
    .version 0 1400216000 1 2 1400216000 1 1 { host := List.replicate 16 2, port := 8444 }]

theorem loadsFirst_agedMessage (e : Event)
    (he : ∀ type hash timestamp, e ≠ .loadBlob type hash timestamp) :
    Along (step OpenSSL.additive) LoadsFirst (State.new 0 []) (agedMessage ++ [e]) := by
  refine ⟨fun _ _ _ _ _ => rfl, ⟨fun _ _ _ _ _ => rfl, ?_, ?_, ?_, ?_, trivial⟩⟩
  all_goals
    intro _ type hash timestamp heq
  · cases heq
  · cases heq
  · cases heq
  · exact absurd heq (he type hash timestamp)

/-- The peer is told of all objects that are younger, and there is one. -/
theorem connected_announced_agedMessage :
    (∃ before e after now, agedMessage ++ [.verack 0 1400216000] = before ++ e :: after ∧
      ConnectedSince OpenSSL.additive (State.new 0 []) before e after 0 now ∧
      ∀ o ∈ (run (step OpenSSL.additive) (State.new 0 [])
          (agedMessage ++ [.verack 0 1400216000])).objects,
        (run (step OpenSSL.additive) (State.new 0 [])
          (agedMessage ++ [.verack 0 1400216000])).Announced
          (run (step OpenSSL.additive) (State.new 0 []) before) 0 now o) ∧
      ∃ inv ∈ (run (step OpenSSL.additive) (State.new 0 [])
          (agedMessage ++ [.verack 0 1400216000])).invsSince
            (run (step OpenSSL.additive) (State.new 0 []) agedMessage),
        inv.1 = 0 ∧ youngHash ∈ inv.2 :=
  ⟨connected_announced 0 [] (agedMessage ++ [.verack 0 1400216000])
    (loadsFirst_agedMessage _ (by simp)) (by decide +kernel), by decide +kernel⟩

/-- Its age is its maximum age and no more, and the peer does not get its hash. -/
theorem agedMessage_not_announced :
    let events := agedMessage ++ [.verack 0 1400216000]
    let nw := run (step OpenSSL.additive) (State.new 0 []) events
    Along (step OpenSSL.additive) LoadsFirst (State.new 0 []) events ∧ 0 ∈ nw.connectedPeers ∧
      ConnectedSince OpenSSL.additive (State.new 0 []) agedMessage (.verack 0 1400216000) [] 0
        1400216000 ∧
      ∃ o ∈ nw.objects, ¬ ((∃ inv ∈ nw.invsSince (run (step OpenSSL.additive) (State.new 0 [])
          agedMessage), inv.1 = 0 ∧ o.hash ∈ inv.2) ∨ o.hash ∈ nw.delayedBroadcasts ∨
        maxAgeForType o.type < 1400216000 - o.timestamp) := by
  refine ⟨loadsFirst_agedMessage _ (by simp), by decide +kernel, ⟨by decide +kernel, ?_, ?_⟩,
    { type := .msg, hash := zeroHash, timestamp := 1400000000 }, by decide +kernel,
    by decide +kernel⟩
  · decide +kernel
  · intro pre hpre
    rw [List.prefix_nil.mp hpre]
    decide +kernel

end Notbit.Network
