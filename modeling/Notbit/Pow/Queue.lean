import Notbit.Pow.Nonces

/-!
# Queue — which request a thread takes next (`ntb-pow.c`)

A thread takes the first cookie of the queue.  A new cookie is not linked behind the last one but
behind the first, so the queue is in the order of the requests only as long as no request is made
while two others wait in it.
-/

namespace Notbit.Pow

/-! ## 1. The oldest request -/

/-- A request with offsets that no thread has: it was made, it was not cancelled, and fewer offsets
were handed out for it than there are threads. -/
def History.Unassigned (n : Nat) (h : History) (id : Nat) : Prop :=
  id < h.state.cookies.length ∧ (h.offsetsOf id).length < n ∧ id ∉ h.cancelled

/-- A thread that gets an offset gets it for the oldest request that has one left.  The cookies are
numbered in the order in which the requests are made. -/
def TakesOldest (ssl : OpenSSL) (n : Nat) (h : History) : Prop :=
  ∀ w h' id offset, h.step ssl (.worker w) = some h' → h'.handed = h.handed ++ [(id, offset)] →
    h.Unassigned n id ∧ ∀ j, h.Unassigned n j → id ≤ j

/-- No request is made while two others are in the queue of running threads. -/
def AtMostOneQueued (h : History) : Event → Prop
  | .calculate _ => h.state.quit = true ∨ h.state.queue.length ≤ 1
  | _ => True

section Order

variable {ssl : OpenSSL} {n : Nat} {h h' : History} {s s' : State}

/-- Only a thread that waits gets an offset, and it gets it for the first cookie of the queue. -/
theorem queue_of_handed {w id offset : Nat} (hs : h.step ssl (.worker w) = some h')
    (hhanded : h'.handed = h.handed ++ [(id, offset)]) :
    h.state.workers[w]? = some .waiting ∧ h.state.quit = false ∧
      ∃ rest, h.state.queue = id :: rest := by
  have hnone : h.handed ≠ h.handed ++ [(id, offset)] := by simp
  obtain ⟨s', -, rfl⟩ := Option.map_eq_some_iff.mp hs
  unfold History.after at hhanded
  dsimp only at hhanded
  cases hw : h.state.workers[w]? with
  | none =>
    rw [hw] at hhanded
    exact absurd hhanded hnone
  | some p =>
    rw [hw] at hhanded
    cases p with
    | waiting =>
      cases hquit : h.state.quit with
      | true =>
        rw [hquit] at hhanded
        exact absurd hhanded hnone
      | false =>
        rw [hquit] at hhanded
        cases hqueue : h.state.queue with
        | nil =>
          rw [hqueue] at hhanded
          exact absurd hhanded hnone
        | cons first rest =>
          rw [hqueue] at hhanded
          have hfirst := List.append_cancel_left hhanded
          simp only [List.cons.injEq, Prod.mk.injEq] at hfirst
          exact ⟨rfl, rfl, rest, by rw [hfirst.1.1]⟩
    | searching _ _ i =>
      dsimp only at hhanded
      split_ifs at hhanded
      · exact absurd hhanded hnone
      · exact absurd hhanded hnone
    | solved _ _ => exact absurd hhanded hnone
    | locking _ _ => exact absurd hhanded hnone
    | exited => exact absurd hhanded hnone

/-! ### The queue grows by requests only -/

theorem testLoop_queue (s : State) (w id nonce : Nat) :
    (testLoop s w id nonce).queue = s.queue := by
  unfold testLoop State.setWorker State.setCookie
  dsimp only
  split_ifs <;> rfl

theorem testLoop_quit (s : State) (w id nonce : Nat) :
    (testLoop s w id nonce).quit = s.quit := by
  unfold testLoop State.setWorker State.setCookie
  dsimp only
  split_ifs <;> rfl

theorem testLoop_nextOffset (s : State) (w id nonce j : Nat) :
    (testLoop s w id nonce).nextOffset j = s.nextOffset j := by
  unfold testLoop
  dsimp only
  split_ifs
  · rfl
  · show (s.setCookie id Cookie.unref).nextOffset j = _
    apply nextOffset_setCookie
    intro c
    rfl

theorem testLoop_workers (s : State) (w id nonce : Nat) :
    ∃ p, (p = .searching id nonce 0 ∨ p = .waiting) ∧
      (testLoop s w id nonce).workers = s.workers.set w p := by
  unfold testLoop
  dsimp only
  split_ifs
  · exact ⟨.searching id nonce 0, Or.inl rfl, rfl⟩
  · exact ⟨.waiting, Or.inr rfl, rfl⟩

theorem taken_quit (s : State) (id : Nat) (c : Cookie) : (s.taken id c).quit = s.quit := by
  unfold State.taken State.removeQueuedCookie State.setCookie
  dsimp only
  split_ifs <;> rfl

theorem take_queue (s : State) (w id : Nat) (c : Cookie) : (take s w id c).queue =
    if c.nextNonceOffset + 1 ≥ s.workers.length then s.queue.erase id else s.queue := by
  show (testLoop (s.taken id c) w id c.nextNonceOffset).queue = _
  rw [testLoop_queue, taken_queue]

theorem take_quit (s : State) (w id : Nat) (c : Cookie) : (take s w id c).quit = s.quit := by
  show (testLoop (s.taken id c) w id c.nextNonceOffset).quit = _
  rw [testLoop_quit, taken_quit]

theorem cancel_quit (s : State) (id : Nat) (c : Cookie) : (cancel s id c).quit = s.quit := by
  unfold cancel State.removeQueuedCookie State.setCookie
  dsimp only
  split_ifs <;> rfl

theorem erase_if_sublist {p : Prop} [Decidable p] (queue : List Nat) (id : Nat) :
    (if p then queue.erase id else queue).Sublist queue := by
  split_ifs
  · exact List.erase_sublist
  · exact List.Sublist.refl queue

/-- What the steps other than a request do to the queue, to the requests behind its first one and
to the threads. -/
structure Shrinks (s s' : State) : Prop where
  queue : s'.queue.Sublist s.queue
  offsets : ∀ id ∈ s.queue.tail, s'.nextOffset id = s.nextOffset id
  quit : s.quit = true → s'.quit = true
  exited : Worker.exited ∈ s'.workers → Worker.exited ∈ s.workers ∨ s.quit = true

theorem shrinks_of_set {w : Nat} {p : Worker} (hqueue : s'.queue.Sublist s.queue)
    (hoffsets : ∀ id ∈ s.queue.tail, s'.nextOffset id = s.nextOffset id)
    (hquit : s'.quit = s.quit) (hworkers : s'.workers = s.workers.set w p)
    (hp : p = .exited → s.quit = true) : Shrinks s s' := by
  refine ⟨hqueue, hoffsets, by rw [hquit]; exact fun h => h, fun hexited => ?_⟩
  rw [hworkers] at hexited
  rcases List.mem_or_eq_of_mem_set hexited with hold | hnew
  · exact Or.inl hold
  · exact Or.inr (hp hnew.symm)

theorem shrinks_setWorker {w : Nat} {p : Worker} (hp : p = .exited → s.quit = true) :
    Shrinks s (s.setWorker w p) :=
  shrinks_of_set (List.Sublist.refl _) (fun _ _ => rfl) rfl rfl hp

theorem not_exited {p : Worker} {id nonce : Nat} (hp : p = .searching id nonce 0 ∨ p = .waiting)
    (hexited : p = .exited) : s.quit = true := by
  subst hexited
  rcases hp with heq | heq <;> cases heq

theorem shrinks_testLoop (s : State) (w id nonce : Nat) : Shrinks s (testLoop s w id nonce) := by
  obtain ⟨p, hp, hworkers⟩ := testLoop_workers s w id nonce
  apply shrinks_of_set _ _ (testLoop_quit s w id nonce) hworkers (not_exited hp)
  · rw [testLoop_queue]
  · intro j _
    exact testLoop_nextOffset s w id nonce j

-- Offsets are handed out for the first request of the queue only.
theorem shrinks_take {w id : Nat} {rest : List Nat} {c : Cookie} (hnodup : s.queue.Nodup)
    (hqueue : s.queue = id :: rest) (hc : s.cookies[id]? = some c) : Shrinks s (take s w id c) := by
  obtain ⟨p, hp, hworkers⟩ := testLoop_workers (s.taken id c) w id c.nextNonceOffset
  rw [taken_workers] at hworkers
  apply shrinks_of_set _ _ (take_quit s w id c) hworkers (not_exited hp)
  · rw [take_queue]
    exact erase_if_sublist s.queue id
  · intro j hj
    rw [hqueue] at hnodup hj
    have hne : j ≠ id := fun heq => (List.nodup_cons.mp hnodup).1 (heq ▸ hj)
    show (testLoop (s.taken id c) w id c.nextNonceOffset).nextOffset j = _
    rw [testLoop_nextOffset, nextOffset_taken hc, if_neg hne]
    rfl

theorem shrinks_workerStep {w : Nat} (hnodup : s.queue.Nodup)
    (hs : workerStep ssl s w = some s') : Shrinks s s' := by
  unfold workerStep at hs
  split at hs
  next =>
    split_ifs at hs with hquit
    · rw [← Option.some.inj hs]
      exact shrinks_setWorker fun _ => hquit
    · split at hs
      next => exact absurd hs (by simp)
      next id rest hqueue =>
        obtain ⟨c, hc, rfl⟩ := Option.map_eq_some_iff.mp hs
        exact shrinks_take hnodup hqueue hc
  next id nonce i hw =>
    split_ifs at hs
    · obtain ⟨c, -, rfl⟩ := Option.map_eq_some_iff.mp hs
      split_ifs <;> exact shrinks_setWorker nofun
    · rw [← Option.some.inj hs]
      exact shrinks_setWorker nofun
  next id nonce hw =>
    rw [← Option.some.inj hs]
    refine shrinks_of_set (w := w) (p := .locking id nonce) (List.Sublist.refl _) ?_ rfl rfl nofun
    intro j _
    show (s.setCookie id fun c => c.setSolution nonce).nextOffset j = _
    apply nextOffset_setCookie
    intro c
    unfold Cookie.setSolution
    split_ifs <;> rfl
  next id nonce hw =>
    rw [← Option.some.inj hs]
    exact shrinks_testLoop s w id nonce
  next => exact absurd hs (by simp)
  next => exact absurd hs (by simp)

theorem shrinks_of_step {e : Event} (hnodup : h.state.queue.Nodup) (he : ∀ r, e ≠ .calculate r)
    (hs : h.step ssl e = some h') : Shrinks h.state h'.state := by
  cases e with
  | calculate r => exact absurd rfl (he r)
  | free => cases hs
  | quit =>
    cases hs
    exact ⟨List.Sublist.refl _, fun _ _ => rfl, fun _ => rfl, Or.inl⟩
  | cancel id =>
    obtain ⟨s', hs', rfl⟩ := Option.map_eq_some_iff.mp hs
    rw [history_state_after]
    simp only [Pow.step] at hs'
    split at hs'
    · next c hc =>
      split_ifs at hs'
      cases hs'
      refine ⟨?_, fun j _ => nextOffset_cancel hc j, ?_, ?_⟩
      · rw [cancel_queue]
        exact erase_if_sublist h.state.queue id
      · rw [cancel_quit]
        exact fun hquit => hquit
      · rw [cancel_workers]
        exact Or.inl
    · cases hs'
  | idle id =>
    obtain ⟨s', hs', rfl⟩ := Option.map_eq_some_iff.mp hs
    rw [history_state_after]
    simp only [Pow.step] at hs'
    split at hs'
    · next c hc =>
      split_ifs at hs'
      cases hs'
      refine ⟨List.Sublist.refl _, fun j _ => ?_, fun hquit => hquit, Or.inl⟩
      show (h.state.setCookie id fun c =>
        { c with idleSource := false, held := false }.unref.unref).nextOffset j = _
      apply nextOffset_setCookie
      intro c
      rfl
    · cases hs'
  | worker w =>
    obtain ⟨s', hs', rfl⟩ := Option.map_eq_some_iff.mp hs
    rw [history_state_after]
    exact shrinks_workerStep hnodup hs'

/-! ### The order of the requests -/

/-- While the threads run, the queue is in the order in which the requests were made. -/
def InOrder (h : History) : Prop := h.state.quit = true ∨ h.state.queue.Pairwise (· < ·)

theorem InOrder.step {e : Event} (ho : InOrder h) (hh : Held n h) (hok : AtMostOneQueued h e)
    (hs : h.step ssl e = some h') : InOrder h' := by
  by_cases hcalc : ∃ r, e = .calculate r
  · obtain ⟨r, rfl⟩ := hcalc
    cases hs
    rcases hok with hquit | hshort
    · exact Or.inl hquit
    · right
      show (insertAfterFirst h.state.queue h.state.cookies.length).Pairwise (· < ·)
      cases hqueue : h.state.queue with
      | nil => simp [insertAfterFirst]
      | cons first rest =>
        -- the only request in the queue is older than the new one
        have hfirst : first < h.state.cookies.length :=
          ((hh.queued_iff first).mp (by rw [hqueue]; exact List.mem_cons_self)).1
        rw [hqueue, List.length_cons] at hshort
        obtain rfl : rest = [] := List.length_eq_zero_iff.mp (by omega)
        simpa [insertAfterFirst] using hfirst
  · have hshrinks := shrinks_of_step hh.queue (fun r hr => hcalc ⟨r, hr⟩) hs
    exact ho.imp hshrinks.quit fun hsorted => hsorted.sublist hshrinks.queue

theorem InOrder.takesOldest (ho : InOrder h) (hh : Held n h) : TakesOldest ssl n h := by
  intro w h' id offset hs hhanded
  obtain ⟨-, hquit, rest, hqueue⟩ := queue_of_handed hs hhanded
  have hsorted : h.state.queue.Pairwise (· < ·) :=
    ho.resolve_left (by rw [hquit]; exact Bool.false_ne_true)
  rw [hqueue, List.pairwise_cons] at hsorted
  refine ⟨(hh.queued_iff id).mp (by rw [hqueue]; exact List.mem_cons_self), fun j hj => ?_⟩
  have hmem := (hh.queued_iff j).mpr hj
  rw [hqueue, List.mem_cons] at hmem
  rcases hmem with rfl | hrest
  · exact le_refl j
  · exact le_of_lt (hsorted.1 j hrest)

end Order

end Notbit.Pow
