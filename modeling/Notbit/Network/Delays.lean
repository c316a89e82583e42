import Notbit.Network.Announcements

/-!
# Delays — objects that are not to be announced at once (`ntb-network.c`)

An object that is added with `NTB_NETWORK_DELAY` is in the list of accepted inventories while its
broadcast is to come, and `send_inventory` announces the whole list.
-/

open Notbit.Proto Runs

namespace Notbit.Network

section Delays

variable {ssl : OpenSSL} {nw nw' : State} {e : Event} {hash : Hash}

open State

/-- The event adds the object with this hash and has its broadcast delayed. -/
def Event.AddsDelayed (ssl : OpenSSL) (hash : Hash) (e : Event) : Prop :=
  ∃ now blob flags, e.addedObject = some (now, blob, flags) ∧ flags.delay = true ∧
    doubleHash ssl blob.data = hash

/-- The inv commands that were sent since an earlier state. -/
def State.invsSince (nw old : State) : List (Nat × List Hash) := nw.invs.drop old.invs.length

/-- From when an object is added with a delay, and for as long as its broadcast is to come, no inv
command has its hash. -/
def Concealed (ssl : OpenSSL) (start : State) (events : List Event) : Prop :=
  ∀ before e between hash, before ++ e :: between <+: events → e.AddsDelayed ssl hash →
    (∀ pre, pre <+: between →
      hash ∈ (run (step ssl) start (before ++ e :: pre)).delayedBroadcasts) →
    ∀ inv ∈ (run (step ssl) start (before ++ e :: between)).invsSince (run (step ssl) start before),
      hash ∉ inv.2

/-- What an event must not do while broadcasts are to come: complete a handshake when one of the
objects is young enough to be in the list, accept the object again and announce it at once, or fire
one of two broadcasts of the same object. -/
structure Discreet (ssl : OpenSSL) (nw : State) (e : Event) : Prop where
  handshake : ∀ p now, nw.completes e = some (p, now) →
    ∀ hash ∈ nw.delayedBroadcasts, hash ∉ nw.unexpired now
  again : nw.connectedPeers ≠ [] → ∀ now blob flags, e.addedObject = some (now, blob, flags) →
    Accepts ssl nw now blob flags → flags.delay = false →
    doubleHash ssl blob.data ∉ nw.delayedBroadcasts
  twice : nw.connectedPeers ≠ [] → ∀ i hash, e = .delayedBroadcast i →
    nw.delayedBroadcasts[i]? = some hash → hash ∉ nw.delayedBroadcasts.eraseIdx i

/-! ## 1. One step -/

theorem invsSince_of_append {invs : List (Nat × List Hash)} (h : nw'.invs = nw.invs ++ invs) :
    nw'.invsSince nw = invs := by
  rw [invsSince, h, List.drop_left]

theorem completes_of_addedObject {added : Int × Blob × AddObjectFlags}
    (h : e.addedObject = some added) : nw.completes e = none := by
  cases e <;> first | rfl | cases h

-- What is sent to all connected peers.
theorem not_mem_broadcast {invs : List (Nat × List Hash)}
    (hinvs : invs = nw.connectedPeers.map fun peer => (peer, [hash])) {other : Hash} :
    (∀ inv ∈ invs, other ∉ inv.2) ↔ nw.connectedPeers ≠ [] → other ≠ hash := by
  rw [hinvs, List.forall_mem_map]
  simp only [List.mem_singleton]
  constructor
  · intro hall hne
    obtain ⟨p, hp⟩ := List.exists_mem_of_ne_nil _ hne
    exact hall p hp
  · intro hne p hp
    exact hne (List.ne_nil_of_mem hp)

/-- A step announces no object whose broadcast is to come before and after it, exactly if it is
discreet. -/
theorem discreet_iff (h : nw.Tracked []) (hs : step ssl nw e = some nw') :
    Discreet ssl nw e ↔ ∀ hash ∈ nw.delayedBroadcasts, hash ∈ nw'.delayedBroadcasts →
      ∀ inv ∈ nw'.invsSince nw, hash ∉ inv.2 := by
  cases announces_step h hs with
  | quiet hcompletes hadded hfired hconnected hposted =>
    obtain ⟨-, hinvs⟩ := Prod.mk.inj hposted
    have hnone : nw'.invsSince nw = [] := invsSince_of_append (by rw [hinvs, List.append_nil])
    refine iff_of_true ⟨?_, ?_, ?_⟩ (by simp [hnone])
    · intro p now hsome
      rw [hcompletes] at hsome
      cases hsome
    · intro _ now blob flags hsome haccepts
      exact absurd haccepts (hadded now blob flags hsome)
    · intro _ i _ he
      exact absurd he (hfired i)
  | accepted now blob flags hadded haccepts hconnected hposted =>
    have hcompletes := @completes_of_addedObject nw e _ hadded
    have hdiscreet : Discreet ssl nw e ↔ (nw.connectedPeers ≠ [] → flags.delay = false →
        doubleHash ssl blob.data ∉ nw.delayedBroadcasts) := by
      constructor
      · intro hd hne
        exact hd.again hne now blob flags hadded haccepts
      · intro hd
        refine ⟨?_, ?_, ?_⟩
        · intro p now hsome
          rw [hcompletes] at hsome
          cases hsome
        · intro hne now' blob' flags' hsome _
          rw [hadded] at hsome
          cases hsome
          exact hd hne
        · rintro _ i _ rfl
          cases hadded
    rw [hdiscreet]
    cases hdelay : flags.delay with
    | true =>
      rw [hdelay, if_pos rfl] at hposted
      obtain ⟨-, hinvs⟩ := Prod.mk.inj hposted
      have hnone : nw'.invsSince nw = [] := invsSince_of_append (by rw [hinvs, List.append_nil])
      exact iff_of_true (by simp) (by simp [hnone])
    | false =>
      rw [hdelay, if_neg Bool.false_ne_true] at hposted
      obtain ⟨hdelayed, hinvs⟩ := Prod.mk.inj hposted
      rw [hdelayed]
      simp only [not_mem_broadcast (invsSince_of_append hinvs)]
      grind
  | fired i hash he hi hconnected hposted =>
    obtain ⟨hdelayed, hinvs⟩ := Prod.mk.inj hposted
    have hdiscreet : Discreet ssl nw e ↔
        (nw.connectedPeers ≠ [] → hash ∉ nw.delayedBroadcasts.eraseIdx i) := by
      subst he
      constructor
      · intro hd hne
        exact hd.twice hne i hash rfl hi
      · intro hd
        refine ⟨?_, ?_, ?_⟩
        · intro p now hsome
          cases hsome
        · intro _ now blob flags hsome
          cases hsome
        · intro hne i' hash' heq hi'
          cases heq
          rw [hi] at hi'
          cases hi'
          exact hd hne
    rw [hdiscreet, hdelayed]
    simp only [not_mem_broadcast (invsSince_of_append hinvs)]
    have hmem : hash ∈ nw.delayedBroadcasts := List.mem_of_getElem? hi
    grind
  | established p now hcompletes hconnected hposted =>
    obtain ⟨hdelayed, hinvs⟩ := Prod.mk.inj hposted
    have hdiscreet : Discreet ssl nw e ↔
        ∀ hash ∈ nw.delayedBroadcasts, hash ∉ nw.unexpired now := by
      constructor
      · intro hd
        exact hd.handshake p now hcompletes
      · intro hd
        refine ⟨?_, ?_, ?_⟩
        · intro p' now' hsome
          rw [hcompletes] at hsome
          cases hsome
          exact hd
        · intro _ now' blob flags hsome
          rw [completes_of_addedObject hsome] at hcompletes
          cases hcompletes
        · rintro _ i _ rfl
          cases hcompletes
    rw [hdiscreet, hdelayed, invsSince_of_append hinvs]
    simp

/-! ## 2. Runs -/

-- A step that cannot happen sends nothing.
theorem invs_next (h : nw.Tracked []) (e : Event) : nw.invs <+: (next (step ssl) nw e).invs := by
  cases hs : step ssl nw e with
  | none => rw [next_of_none hs]
  | some nw' =>
    rw [next_of_some hs]
    cases announces_step h hs with
    | quiet hcompletes hadded hfired hconnected hposted =>
      rw [(Prod.mk.inj hposted).2]
    | accepted now blob flags hadded haccepts hconnected hposted =>
      split at hposted
      · rw [(Prod.mk.inj hposted).2]
      · rw [(Prod.mk.inj hposted).2]
        exact List.prefix_append _ _
    | fired i hash he hi hconnected hposted =>
      rw [(Prod.mk.inj hposted).2]
      exact List.prefix_append _ _
    | established p now hcompletes hconnected hposted =>
      rw [(Prod.mk.inj hposted).2]
      exact List.prefix_append _ _

theorem tracked_run (h : nw.Tracked []) (events : List Event) :
    (run (step ssl) nw events).Tracked [] :=
  invariant (P := fun nw : State => nw.Tracked []) (fun _ _ _ h hs => (h.step hs).1) h events

theorem invs_run (h : nw.Tracked []) (events : List Event) :
    nw.invs <+: (run (step ssl) nw events).invs := by
  induction events using List.reverseRecOn with
  | nil => exact List.prefix_refl _
  | append_singleton events e ih =>
    rw [run_concat]
    exact ih.trans (invs_next (tracked_run h events) e)

theorem invsSince_trans {old : State} (h : old.invs <+: nw.invs) (h' : nw.invs <+: nw'.invs) :
    nw'.invsSince old = nw.invsSince old ++ nw'.invsSince nw := by
  obtain ⟨l, hl⟩ := h
  obtain ⟨l', hl'⟩ := h'
  rw [invsSince_of_append hl'.symm, invsSince_of_append hl.symm, invsSince, ← hl', ← hl,
    List.append_assoc, List.drop_left]

/-- A broadcast that is to come is that of an object that was added with a delay, and it has been to
come ever since. -/
theorem waiting_of_mem (h : nw.Tracked []) (hnone : nw.delayedBroadcasts = []) {events : List Event}
    (hmem : hash ∈ (run (step ssl) nw events).delayedBroadcasts) :
    ∃ before e between, events = before ++ e :: between ∧ e.AddsDelayed ssl hash ∧
      ∀ pre, pre <+: between →
        hash ∈ (run (step ssl) nw (before ++ e :: pre)).delayedBroadcasts := by
  induction events using List.reverseRecOn with
  | nil =>
    rw [run_nil, hnone] at hmem
    exact absurd hmem List.not_mem_nil
  | append_singleton events e ih =>
    by_cases hbefore : hash ∈ (run (step ssl) nw events).delayedBroadcasts
    · obtain ⟨before, e₀, between, rfl, hadds, hpending⟩ := ih hbefore
      refine ⟨before, e₀, between ++ [e], by simp, hadds, fun pre hpre => ?_⟩
      rcases List.prefix_concat_iff.mp hpre with rfl | hpre
      · simpa using hmem
      · exact hpending pre hpre
    · rw [run_concat] at hmem
      cases hs : step ssl (run (step ssl) nw events) e with
      | none =>
        rw [next_of_none hs] at hmem
        exact absurd hmem hbefore
      | some nw' =>
        rw [next_of_some hs] at hmem
        -- only an object that is accepted adds a broadcast
        cases announces_step (tracked_run h events) hs with
        | quiet hcompletes hadded hfired hconnected hposted =>
          rw [(Prod.mk.inj hposted).1] at hmem
          exact absurd hmem hbefore
        | accepted now blob flags hadded haccepts hconnected hposted =>
          split at hposted
          next hdelay =>
            rw [(Prod.mk.inj hposted).1] at hmem
            rcases List.mem_cons.mp hmem with rfl | hmem
            · refine ⟨events, e, [], rfl, ⟨now, blob, flags, hadded, hdelay, rfl⟩, ?_⟩
              intro pre hpre
              rw [List.prefix_nil.mp hpre, run_concat, next_of_some hs, (Prod.mk.inj hposted).1]
              exact List.mem_cons_self
            · exact absurd hmem hbefore
          next =>
            rw [(Prod.mk.inj hposted).1] at hmem
            exact absurd hmem hbefore
        | fired i hash' he hi hconnected hposted =>
          rw [(Prod.mk.inj hposted).1] at hmem
          exact absurd (List.mem_of_mem_eraseIdx hmem) hbefore
        | established p now hcompletes hconnected hposted =>
          rw [(Prod.mk.inj hposted).1] at hmem
          exact absurd hmem hbefore

/-- The step that adds the object announces nothing. -/
theorem invsSince_adds (h : nw.Tracked []) (hadds : e.AddsDelayed ssl hash) :
    (next (step ssl) nw e).invsSince nw = [] := by
  obtain ⟨now, blob, flags, hadded, hdelay, -⟩ := hadds
  cases hs : step ssl nw e with
  | none =>
    rw [next_of_none hs]
    exact invsSince_of_append (List.append_nil _).symm
  | some nw' =>
    rw [next_of_some hs]
    have hinvs : nw'.invs = nw.invs := by
      cases announces_step h hs with
      | quiet hcompletes hadded' hfired hconnected hposted => exact (Prod.mk.inj hposted).2
      | accepted now' blob' flags' hadded' haccepts hconnected hposted =>
        rw [hadded] at hadded'
        cases hadded'
        rw [if_pos hdelay] at hposted
        exact (Prod.mk.inj hposted).2
      | fired i hash' he hi hconnected hposted =>
        rw [he] at hadded
        cases hadded
      | established p now' hcompletes hconnected hposted =>
        rw [completes_of_addedObject hadded] at hcompletes
        cases hcompletes
    exact invsSince_of_append (by rw [hinvs, List.append_nil])

/-- From the start of the program on, no object is announced while its broadcast is to come, exactly
if all steps of the run are discreet. -/
theorem delayed_concealed_iff (ssl : OpenSSL) (nonce : Nat) (defaultAddrs : List Netaddress)
    (events : List Event) :
    Concealed ssl (State.new nonce defaultAddrs) events ↔
      Along (step ssl) (Discreet ssl) (State.new nonce defaultAddrs) events := by
  have htracked := tracked_new nonce defaultAddrs
  have hrun := fun events => @tracked_run ssl _ htracked events
  rw [along_iff_forall]
  constructor
  · intro hconcealed before e hprefix hsome
    obtain ⟨nw', hs⟩ := Option.isSome_iff_exists.mp hsome
    rw [discreet_iff (hrun before) hs]
    intro hash hmem hmem' inv hinv
    have hnext : run (step ssl) (State.new nonce defaultAddrs) (before ++ [e]) = nw' := by
      rw [run_concat, next_of_some hs]
    obtain ⟨before₀, e₀, between, rfl, hadds, hpending⟩ := waiting_of_mem htracked rfl hmem
    rw [List.append_assoc, List.cons_append] at hnext hprefix
    refine hconcealed before₀ e₀ (between ++ [e]) hash hprefix hadds (fun pre hpre => ?_) inv ?_
    · rcases List.prefix_concat_iff.mp hpre with rfl | hpre
      · rw [hnext]
        exact hmem'
      · exact hpending pre hpre
    · have hold := @invs_run ssl _ (hrun before₀) (e₀ :: between)
      have hnew := @invs_next ssl _ (hrun (before₀ ++ e₀ :: between)) e
      rw [← run_append] at hold
      rw [next_of_some hs] at hnew
      rw [hnext, invsSince_trans hold hnew]
      exact List.mem_append_right _ hinv
  · intro halong before e between hash hprefix hadds hpending
    induction between using List.reverseRecOn with
    | nil =>
      rw [run_concat, invsSince_adds (hrun before) hadds]
      simp
    | append_singleton between e' ih =>
      have hassoc : before ++ e :: (between ++ [e']) = (before ++ e :: between) ++ [e'] := by simp
      have hsofar := ih ((List.prefix_append _ [e']).trans (hassoc ▸ hprefix))
        fun pre hpre => hpending pre (hpre.trans (List.prefix_append _ [e']))
      have hnow := hpending between (List.prefix_append _ [e'])
      have hthen := hpending (between ++ [e']) List.prefix_rfl
      have hold := @invs_run ssl _ (hrun before) (e :: between)
      have hnew := @invs_next ssl _ (hrun (before ++ e :: between)) e'
      rw [← run_append] at hold
      rw [hassoc, run_concat] at hthen ⊢
      rw [invsSince_trans hold hnew, List.forall_mem_append]
      refine ⟨hsofar, ?_⟩
      cases hs : step ssl (run (step ssl) (State.new nonce defaultAddrs) (before ++ e :: between))
          e' with
      | none =>
        rw [next_of_none hs, invsSince_of_append (List.append_nil _).symm]
        simp
      | some nw' =>
        rw [next_of_some hs] at hthen ⊢
        have hdiscreet := halong (before ++ e :: between) e' (hassoc ▸ hprefix) (by rw [hs]; rfl)
        exact (discreet_iff (hrun _) hs).mp hdiscreet hash hnow hthen

end Delays

/-- A pubkey object of version 2. -/
def responseBlob : Blob where
  type := .pubkey
  data := add64 0 ++ add64 1400000000 ++ [2, 1] ++ List.replicate 132 0

/-- A peer connects and sends its version, the response to a getpubkey request is added, and the peer
acknowledges the version. -/
def hastyHandshake : List Event :=
  [.addListenAddress, .accept 0,
    .version 0 1400000000 1 2 1400000000 1 1 { host := List.replicate 16 2, port := 8444 },
    .addBlob 1400000000 responseBlob { skipValidation := true, delay := true },
    .verack 0 1400000000]

/-- The peer gets the hash of the response in its list. -/
theorem hastyHandshake_not_concealed :
    ¬ Concealed OpenSSL.additive (State.new 0 []) hastyHandshake := by
  intro hconcealed
  let hash := doubleHash OpenSSL.additive responseBlob.data
  let start := State.new 0 []
  have hpending : hash ∈ (run (step OpenSSL.additive) start
      (hastyHandshake.take 4)).delayedBroadcasts := by decide +kernel
  have hpending' : hash ∈ (run (step OpenSSL.additive) start
      hastyHandshake).delayedBroadcasts := by decide +kernel
  have hsent : (0, [hash]) ∈ (run (step OpenSSL.additive) start hastyHandshake).invsSince
      (run (step OpenSSL.additive) start (hastyHandshake.take 3)) := by decide +kernel
  refine hconcealed (hastyHandshake.take 3)
    (.addBlob 1400000000 responseBlob { skipValidation := true, delay := true })
    [.verack 0 1400000000] hash List.prefix_rfl ⟨_, _, _, rfl, rfl, rfl⟩ (fun pre hpre => ?_)
    (0, [hash]) hsent List.mem_cons_self
  rcases List.prefix_cons_iff.mp hpre with rfl | ⟨tail, rfl, htail⟩
  · exact hpending
  · obtain rfl := List.prefix_nil.mp htail
    exact hpending'

end Notbit.Network
