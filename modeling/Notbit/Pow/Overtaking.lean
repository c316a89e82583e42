import Notbit.Pow.Queue

/-!
# Overtaking — what happens to a request behind which others are linked in (`ntb-pow.c`)

When a request is made while two wait, it comes before the second of them.  From there cancelled
requests and steps of threads lead to a thread that takes the younger one first; and as long as
requests are made one after the other behind the first of the queue, the older one does not get an
offset at all.
-/

open Bytes Runs

namespace Notbit.Pow

/-! ## 1. Runs without new requests -/

/-- The steps that leave the requests as they are or cancel one, and those of the threads. -/
def Event.serves : Event → Bool
  | .cancel _ => true
  | .worker _ => true
  | _ => false

/-- Cancelled requests and steps of threads lead from one history to the other. -/
def Reaches (ssl : OpenSSL) (h h' : History) : Prop :=
  ∃ more, (∀ e ∈ more, e.serves = true) ∧ run (History.step ssl) h more = h'

/-- Whatever is cancelled and whichever threads go on, a thread takes the oldest request. -/
def ServesInOrder (ssl : OpenSSL) (n : Nat) (h : History) : Prop :=
  ∀ more, (∀ e ∈ more, e.serves = true) → TakesOldest ssl n (run (History.step ssl) h more)

/-- Nothing was handed out for a request that is not the first of the queue, and no thread ends
before it is told to. -/
structure Tidy (h : History) : Prop where
  behind : ∀ id ∈ h.state.queue.tail, h.state.nextOffset id = 0
  running : h.state.quit = false → Worker.exited ∉ h.state.workers

/-- The invariants of a run together. -/
structure Kept (n : Nat) (h : History) : Prop where
  held : Held n h
  shared : Shared n h
  tidy : Tidy h

section Overtaking

variable {ssl : OpenSSL} {n : Nat} {h h' h'' : History} {s : State}

theorem Reaches.refl (ssl : OpenSSL) (h : History) : Reaches ssl h h :=
  ⟨[], fun _ he => absurd he List.not_mem_nil, rfl⟩

theorem Reaches.trans (h₁ : Reaches ssl h h') (h₂ : Reaches ssl h' h'') : Reaches ssl h h'' := by
  obtain ⟨more₁, hserves₁, rfl⟩ := h₁
  obtain ⟨more₂, hserves₂, rfl⟩ := h₂
  refine ⟨more₁ ++ more₂, fun e he => ?_, run_append more₁ more₂⟩
  exact (List.mem_append.mp he).elim (hserves₁ e) (hserves₂ e)

theorem Reaches.of_step {e : Event} (he : e.serves = true) (hs : h.step ssl e = some h') :
    Reaches ssl h h' := by
  refine ⟨[e], fun e' he' => ?_, ?_⟩
  · rw [List.mem_singleton.mp he']
    exact he
  · rw [run_cons, run_nil, next_of_some hs]

/-! ### The invariants -/

theorem Tidy.step {e : Event} (ht : Tidy h) (hh : Held n h) (hs : h.step ssl e = some h') :
    Tidy h' := by
  by_cases hcalc : ∃ r, e = .calculate r
  · obtain ⟨r, rfl⟩ := hcalc
    cases hs
    refine ⟨fun id hid => ?_, ht.running⟩
    show (calculate ssl h.state r).nextOffset id = 0
    rw [nextOffset_calculate]
    have htail : id ∈ (insertAfterFirst h.state.queue h.state.cookies.length).tail := hid
    cases hqueue : h.state.queue with
    | nil =>
      rw [hqueue] at htail
      cases htail
    | cons first rest =>
      rw [hqueue] at htail
      rcases List.mem_cons.mp htail with rfl | hrest
      · -- the new request had no cookie before
        rw [State.nextOffset, List.getElem?_eq_none (le_refl _)]
      · exact ht.behind id (by rw [hqueue]; exact hrest)
  · have hshrinks := shrinks_of_step hh.queue (fun r hr => hcalc ⟨r, hr⟩) hs
    refine ⟨fun id hid => ?_, fun hquit hexited => ?_⟩
    · have hold : id ∈ h.state.queue.tail := hshrinks.queue.tail.subset hid
      rw [hshrinks.offsets id hold, ht.behind id hold]
    · have hrunning : h.state.quit = false := by
        by_contra hnot
        rw [hshrinks.quit (by simpa using hnot)] at hquit
        cases hquit
      rcases hshrinks.exited hexited with hold | hquit'
      · exact ht.running hrunning hold
      · rw [hrunning] at hquit'
        cases hquit'

theorem Kept.step {e : Event} (hk : Kept n h) (hn : 0 < n) (hs : h.step ssl e = some h') :
    Kept n h' := by
  have hmove := move_of_step hs
  exact ⟨hk.held.step hn hmove, hk.shared.step hk.held hmove, hk.tidy.step hk.held hs⟩

theorem kept_init (n : Nat) : Kept n (History.init n) where
  held := held_init n
  shared := shared_init n
  tidy := by
    refine ⟨fun id hid => absurd hid List.not_mem_nil, fun _ hexited => ?_⟩
    exact absurd (List.eq_of_mem_replicate hexited) nofun

theorem Kept.reaches (hk : Kept n h) (hn : 0 < n) (hreaches : Reaches ssl h h') : Kept n h' := by
  obtain ⟨more, -, rfl⟩ := hreaches
  exact invariant (fun _ _ _ hk hs => hk.step hn hs) hk more

/-! ### One step of a thread -/

theorem step_take {w id : Nat} {rest : List Nat} {c : Cookie}
    (hw : h.state.workers[w]? = some .waiting) (hquit : h.state.quit = false)
    (hqueue : h.state.queue = id :: rest) (hc : h.state.cookies[id]? = some c) :
    h.step ssl (.worker w) = some { h with
      state := take h.state w id c
      handed := h.handed ++ [(id, c.nextNonceOffset)]
      current := Function.update h.current w c.nextNonceOffset } := by
  show (workerStep ssl h.state w).map (h.after (.worker w)) = _
  have hoffset : h.state.nextOffset id = c.nextNonceOffset := nextOffset_of_some hc
  simp [workerStep, History.after, hw, hquit, hqueue, hc, hoffset]

theorem step_test {w id nonce : Nat} (hw : h.state.workers[w]? = some (.locking id nonce)) :
    h.step ssl (.worker w) = some { h with state := testLoop h.state w id nonce } := by
  show (workerStep ssl h.state w).map (h.after (.worker w)) = _
  simp [workerStep, History.after, hw]

theorem step_store {w id nonce : Nat} (hw : h.state.workers[w]? = some (.solved id nonce)) :
    h.step ssl (.worker w) = some { h with state :=
      (h.state.setCookie id fun c => c.setSolution nonce).setWorker w (.locking id nonce) } := by
  show (workerStep ssl h.state w).map (h.after (.worker w)) = _
  simp [workerStep, History.after, hw]

theorem step_pause {w id nonce i : Nat}
    (hw : h.state.workers[w]? = some (.searching id nonce i)) (hi : ¬ i < noncesPerCheck) :
    h.step ssl (.worker w) = some { h with state := h.state.setWorker w (.locking id nonce) } := by
  show (workerStep ssl h.state w).map (h.after (.worker w)) = _
  simp [workerStep, History.after, hw, hi]

theorem step_try (ssl : OpenSSL) {w id nonce i : Nat} {c : Cookie}
    (hw : h.state.workers[w]? = some (.searching id nonce i)) (hi : i < noncesPerCheck)
    (hc : h.state.cookies[id]? = some c) :
    ∃ p, (p = .solved id nonce ∨ ∃ nonce', p = .searching id nonce' (i + 1)) ∧
      h.step ssl (.worker w) = some { h with
        state := h.state.setWorker w p
        tried := h.tried ++ [(id, h.current w, nonce)] } := by
  have hstep : h.step ssl (.worker w) =
      (workerStep ssl h.state w).map (h.after (.worker w)) := rfl
  by_cases hsolves : powValue ssl (toBE 8 nonce) c.hash ≤ c.target
  · refine ⟨.solved id nonce, Or.inl rfl, ?_⟩
    rw [hstep]
    simp [workerStep, History.after, hw, hi, hc, hsolves]
  · refine ⟨.searching id ((nonce + h.state.workers.length) % 2 ^ 64) (i + 1),
      Or.inr ⟨_, rfl⟩, ?_⟩
    rw [hstep]
    simp [workerStep, History.after, hw, hi, hc, hsolves]

theorem step_cancel {id : Nat} {c : Cookie} (hc : h.state.cookies[id]? = some c)
    (hheld : c.held = true) :
    h.step ssl (.cancel id) = some { h with
      state := cancel h.state id c
      cancelled := h.cancelled ++ [id] } := by
  show (Pow.step ssl h.state (.cancel id)).map (h.after (.cancel id)) = _
  simp [Pow.step, History.after, hc, hheld]

/-! ### A thread comes back to the queue -/

/-- The thread waits at the queue, which runs on with `queue`. -/
structure Waits (w : Nat) (queue : List Nat) (s : State) : Prop where
  waiting : s.workers[w]? = some .waiting
  running : s.quit = false
  queue_eq : s.queue = queue

theorem testLoop_of_done {w id nonce : Nat} (hdone : s.IsDone id) :
    testLoop s w id nonce = (s.setCookie id Cookie.unref).setWorker w .waiting := by
  obtain ⟨c, hc, hdone⟩ := hdone
  simp [testLoop, hc, hdone]

theorem getElem?_setWorker_self {w : Nat} {p : Worker} (hw : s.workers[w]? = some p)
    (p' : Worker) : (s.setWorker w p').workers[w]? = some p' :=
  List.getElem?_set_self (List.getElem?_eq_some_iff.mp hw).1

-- A thread that takes the lock at a cookie that is done lets go of it.
theorem leaves_of_locking (ssl : OpenSSL) {w id nonce : Nat}
    (hw : h.state.workers[w]? = some (.locking id nonce))
    (hdone : h.state.IsDone id) (hquit : h.state.quit = false) :
    ∃ h', Reaches ssl h h' ∧ Waits w h.state.queue h'.state := by
  refine ⟨_, .of_step rfl (step_test hw), ?_, ?_, ?_⟩
  · show (testLoop h.state w id nonce).workers[w]? = _
    rw [testLoop_of_done hdone]
    exact getElem?_setWorker_self hw .waiting
  · show (testLoop h.state w id nonce).quit = false
    rw [testLoop_quit, hquit]
  · exact testLoop_queue h.state w id nonce

theorem leaves_of_solved (ssl : OpenSSL) {w id nonce : Nat}
    (hw : h.state.workers[w]? = some (.solved id nonce))
    (hdone : h.state.IsDone id) (hquit : h.state.quit = false) :
    ∃ h', Reaches ssl h h' ∧ Waits w h.state.queue h'.state := by
  have hdone' : (h.state.setCookie id fun c => c.setSolution nonce).IsDone id := by
    apply hdone.setCookie
    intro c hc
    rw [Cookie.setSolution, if_pos hc]
    exact hc
  obtain ⟨h₁, hstep, hstate⟩ : ∃ h₁, h.step ssl (.worker w) = some h₁ ∧ h₁.state =
      (h.state.setCookie id fun c => c.setSolution nonce).setWorker w (.locking id nonce) :=
    ⟨_, step_store hw, rfl⟩
  have hw₁ : h₁.state.workers[w]? = some (.locking id nonce) := by
    rw [hstate]
    exact getElem?_setWorker_self (s := h.state.setCookie id _) hw _
  obtain ⟨h', hreaches, hwaits⟩ := leaves_of_locking ssl hw₁ (by rw [hstate]; exact hdone')
    (by rw [hstate]; exact hquit)
  refine ⟨h', (Reaches.of_step rfl hstep).trans hreaches, ?_⟩
  rw [hstate] at hwaits
  exact hwaits

/-- A thread looks at its cookie again after it has tried its share of nonces. -/
theorem leaves_of_searching (ssl : OpenSSL) {w id nonce i left : Nat}
    (hleft : noncesPerCheck - i = left)
    (hw : h.state.workers[w]? = some (.searching id nonce i)) (hdone : h.state.IsDone id)
    (hquit : h.state.quit = false) :
    ∃ h', Reaches ssl h h' ∧ Waits w h.state.queue h'.state := by
  induction left generalizing h nonce i with
  | zero =>
    have hi : ¬ i < noncesPerCheck := by omega
    obtain ⟨h₁, hstep, hstate⟩ : ∃ h₁, h.step ssl (.worker w) = some h₁ ∧
        h₁.state = h.state.setWorker w (.locking id nonce) := ⟨_, step_pause hw hi, rfl⟩
    have hw₁ : h₁.state.workers[w]? = some (.locking id nonce) := by
      rw [hstate]
      exact getElem?_setWorker_self hw _
    obtain ⟨h', hreaches, hwaits⟩ := leaves_of_locking ssl hw₁ (by rw [hstate]; exact hdone)
      (by rw [hstate]; exact hquit)
    refine ⟨h', (Reaches.of_step rfl hstep).trans hreaches, ?_⟩
    rw [hstate] at hwaits
    exact hwaits
  | succ left ih =>
    have hi : i < noncesPerCheck := by omega
    have ⟨c, hc, _⟩ := hdone
    obtain ⟨p, hp, hstep⟩ := step_try ssl hw hi hc
    obtain ⟨h₁, hstep, hstate⟩ : ∃ h₁, h.step ssl (.worker w) = some h₁ ∧
        h₁.state = h.state.setWorker w p := ⟨_, hstep, rfl⟩
    have hw₁ : h₁.state.workers[w]? = some p := by
      rw [hstate]
      exact getElem?_setWorker_self hw p
    have hdone₁ : h₁.state.IsDone id := by rw [hstate]; exact hdone
    have hquit₁ : h₁.state.quit = false := by rw [hstate]; exact hquit
    have hback : ∃ h', Reaches ssl h₁ h' ∧ Waits w h₁.state.queue h'.state := by
      rcases hp with rfl | ⟨nonce', rfl⟩
      · exact leaves_of_solved ssl hw₁ hdone₁ hquit₁
      · exact ih (by omega) hw₁ hdone₁ hquit₁
    obtain ⟨h', hreaches, hwaits⟩ := hback
    refine ⟨h', (Reaches.of_step rfl hstep).trans hreaches, ?_⟩
    rw [hstate] at hwaits
    exact hwaits

theorem leaves (ssl : OpenSSL) {w id : Nat} {p : Worker} (hw : h.state.workers[w]? = some p)
    (hp : p.cookie = some id) (hdone : h.state.IsDone id) (hquit : h.state.quit = false) :
    ∃ h', Reaches ssl h h' ∧ Waits w h.state.queue h'.state := by
  cases p with
  | waiting => cases hp
  | exited => cases hp
  | searching _ nonce i =>
    obtain rfl := Option.some.inj hp
    exact leaves_of_searching ssl rfl hw hdone hquit
  | solved _ nonce =>
    obtain rfl := Option.some.inj hp
    exact leaves_of_solved ssl hw hdone hquit
  | locking _ nonce =>
    obtain rfl := Option.some.inj hp
    exact leaves_of_locking ssl hw hdone hquit

/-! ### The first request is out of the way -/

-- A request whose caller is gone has its solution.
theorem Held.held_or_done (hh : Held n h) {id : Nat} {c : Cookie}
    (hc : h.state.cookies[id]? = some c) : c.held = true ∨ h.state.IsDone id := by
  by_cases hheld : c.held = true
  · exact Or.inl hheld
  · right
    refine ⟨c, hc, ?_⟩
    by_contra hopen
    exact hheld ((hh.fits hc).unsolved (by simpa using hopen))

theorem isDone_cancel {id : Nat} {c : Cookie} (hc : s.cookies[id]? = some c) :
    (cancel s id c).IsDone id := by
  refine ⟨c.afterCancel s.workers.length, ?_, rfl⟩
  rw [cancel_cookies hc, if_pos rfl]

-- A thread is at the first request of the queue or at one that is not queued.
theorem Kept.not_mem_tail (hk : Kept n h) {w id : Nat} {p : Worker}
    (hw : h.state.workers[w]? = some p) (hp : p.cookie = some id) : id ∉ h.state.queue.tail := by
  intro hid
  have hlt := (hk.shared.offsets w p id hw hp).1
  rw [hk.tidy.behind id hid] at hlt
  omega

theorem erase_of_not_mem_tail {queue : List Nat} {id : Nat} (hid : id ∉ queue.tail) :
    queue.erase id = queue ∨ queue.erase id = queue.tail := by
  cases queue with
  | nil => exact Or.inl rfl
  | cons first rest =>
    by_cases heq : first = id
    · subst heq
      exact Or.inr (List.erase_cons_head first rest)
    · left
      rw [List.erase_of_not_mem]
      rw [List.mem_cons, not_or]
      exact ⟨fun heq' => heq heq'.symm, hid⟩

/-- The first thread comes back to the queue; the request it is at may be cancelled for it. -/
theorem Kept.comes_back (ssl : OpenSSL) (hk : Kept n h) (hn : 0 < n) (hquit : h.state.quit = false) :
    ∃ h' queue, Reaches ssl h h' ∧ Waits 0 queue h'.state ∧ (queue = h.state.queue ∨
      ∃ p id, h.state.workers[0]? = some p ∧ p.cookie = some id ∧
        queue = h.state.queue.erase id) := by
  obtain ⟨p, hw⟩ : ∃ p, h.state.workers[0]? = some p :=
    ⟨_, List.getElem?_eq_getElem (by rw [hk.held.threads]; exact hn)⟩
  cases hp : p.cookie with
  | none =>
    cases p with
    | waiting => exact ⟨h, h.state.queue, .refl ssl h, ⟨hw, hquit, rfl⟩, Or.inl rfl⟩
    | exited => exact absurd (List.mem_of_getElem? hw) (hk.tidy.running hquit)
    | searching _ _ _ => cases hp
    | solved _ _ => cases hp
    | locking _ _ => cases hp
  | some id =>
    obtain ⟨c, hc, -⟩ := hk.held.cookie_of_worker hw hp
    rcases hk.held.held_or_done hc with hheld | hdone
    · obtain ⟨h₁, hstep, hstate⟩ : ∃ h₁, h.step ssl (.cancel id) = some h₁ ∧
          h₁.state = cancel h.state id c := ⟨_, step_cancel hc hheld, rfl⟩
      have hw₁ : h₁.state.workers[0]? = some p := by
        rw [hstate, cancel_workers]
        exact hw
      have hdone₁ : h₁.state.IsDone id := by
        rw [hstate]
        exact isDone_cancel hc
      have hquit₁ : h₁.state.quit = false := by
        rw [hstate, cancel_quit]
        exact hquit
      obtain ⟨h', hreaches, hwaits⟩ := leaves ssl hw₁ hp hdone₁ hquit₁
      refine ⟨h', h₁.state.queue, (Reaches.of_step rfl hstep).trans hreaches, hwaits, ?_⟩
      rw [hstate, cancel_queue]
      split_ifs
      · exact Or.inr ⟨p, id, hw, hp, rfl⟩
      · exact Or.inl rfl
    · obtain ⟨h', hreaches, hwaits⟩ := leaves ssl hw hp hdone hquit
      exact ⟨h', h.state.queue, hreaches, hwaits, Or.inl rfl⟩

/-- Threads come and go at a request that has its solution, until its last offset is handed out. -/
theorem drains (ssl : OpenSSL) {w id left : Nat} {rest : List Nat} (hn : 0 < n) (hk : Kept n h)
    (hleft : n - h.state.nextOffset id = left) (hwaits : Waits w (id :: rest) h.state)
    (hdone : h.state.IsDone id) :
    ∃ h', Reaches ssl h h' ∧ Waits w rest h'.state := by
  induction left generalizing h with
  | zero =>
    -- a request in the queue has an offset left
    have hmem : id ∈ h.state.queue := by
      rw [hwaits.queue_eq]
      exact List.mem_cons_self
    have hlt := ((hk.held.queued_iff id).mp hmem).2.1
    rw [hk.held.offsetsOf_eq, List.length_range] at hlt
    omega
  | succ left ih =>
    have ⟨c, hc, _⟩ := hdone
    have hoffset : h.state.nextOffset id = c.nextNonceOffset := nextOffset_of_some hc
    obtain ⟨h₁, hstep, hstate⟩ : ∃ h₁, h.step ssl (.worker w) = some h₁ ∧
        h₁.state = take h.state w id c :=
      ⟨_, step_take hwaits.waiting hwaits.running hwaits.queue_eq hc, rfl⟩
    have htake : take h.state w id c =
        ((h.state.taken id c).setCookie id Cookie.unref).setWorker w .waiting :=
      testLoop_of_done (hdone.taken hc)
    have hw₁ : h₁.state.workers[w]? = some .waiting := by
      rw [hstate, htake]
      exact getElem?_setWorker_self (s := (h.state.taken id c).setCookie id Cookie.unref)
        (taken_waiting hwaits.waiting id c) _
    have hquit₁ : h₁.state.quit = false := by
      rw [hstate, take_quit, hwaits.running]
    have hqueue₁ : h₁.state.queue = if c.nextNonceOffset + 1 ≥ n then rest else id :: rest := by
      rw [hstate, take_queue, hk.held.threads, hwaits.queue_eq, List.erase_cons_head]
    by_cases hlast : c.nextNonceOffset + 1 ≥ n
    · rw [if_pos hlast] at hqueue₁
      exact ⟨h₁, .of_step rfl hstep, hw₁, hquit₁, hqueue₁⟩
    · rw [if_neg hlast] at hqueue₁
      have hoffset₁ : h₁.state.nextOffset id = c.nextNonceOffset + 1 := by
        rw [hstate]
        show (testLoop (h.state.taken id c) w id c.nextNonceOffset).nextOffset id = _
        rw [testLoop_nextOffset, nextOffset_taken hc, if_pos rfl, hoffset]
      have hdone₁ : h₁.state.IsDone id := by
        rw [hstate, htake]
        have hunref : ((h.state.taken id c).setCookie id Cookie.unref).IsDone id :=
          (hdone.taken hc).setCookie fun _ hd => hd
        exact hunref
      obtain ⟨h', hreaches, hwaits'⟩ := ih (hk.step hn hstep) (by omega) ⟨hw₁, hquit₁, hqueue₁⟩
        hdone₁
      exact ⟨h', (Reaches.of_step rfl hstep).trans hreaches, hwaits'⟩

-- The first request of the queue is cancelled or, when its caller is gone, used up.
theorem Kept.drops_first (ssl : OpenSSL) (hk : Kept n h) (hn : 0 < n) {w id : Nat} {rest : List Nat}
    (hwaits : Waits w (id :: rest) h.state) :
    ∃ h', Reaches ssl h h' ∧ Waits w rest h'.state := by
  have hmem : id ∈ h.state.queue := by
    rw [hwaits.queue_eq]
    exact List.mem_cons_self
  have hqueued := (hk.held.queued_iff id).mp hmem
  obtain ⟨c, hc⟩ : ∃ c, h.state.cookies[id]? = some c := ⟨_, List.getElem?_eq_getElem hqueued.1⟩
  rcases hk.held.held_or_done hc with hheld | hdone
  · refine ⟨_, .of_step rfl (step_cancel hc hheld), ?_, ?_, ?_⟩
    · show (cancel h.state id c).workers[w]? = _
      rw [cancel_workers]
      exact hwaits.waiting
    · show (cancel h.state id c).quit = false
      rw [cancel_quit, hwaits.running]
    · have hlt := hqueued.2.1
      rw [hk.held.offsetsOf_eq, List.length_range, nextOffset_of_some hc] at hlt
      show (cancel h.state id c).queue = rest
      rw [cancel_queue, hk.held.threads, if_pos hlt, hwaits.queue_eq, List.erase_cons_head]
  · exact drains ssl hn hk rfl hwaits hdone

-- A thread that waits at a queue whose first request is not the oldest takes it all the same.
theorem not_takesOldest {w id j : Nat} {rest : List Nat} (hh : Held n h)
    (hwaits : Waits w (id :: rest) h.state) (hj : j ∈ rest) (hlt : j < id) :
    ¬ TakesOldest ssl n h := by
  intro htakes
  have hqueued : ∀ k, k = id ∨ k ∈ rest → h.Unassigned n k := by
    intro k hk
    apply (hh.queued_iff k).mp
    rw [hwaits.queue_eq]
    exact List.mem_cons.mpr hk
  have hid := (hqueued id (Or.inl rfl)).1
  have hstep : h.step ssl (.worker w) = some _ :=
    step_take hwaits.waiting hwaits.running hwaits.queue_eq (List.getElem?_eq_getElem hid)
  have hle := (htakes w _ id _ hstep rfl).2 j (hqueued j (Or.inr hj))
  omega

-- A request that is made while two wait comes before the second of them.
theorem Kept.overtaken (hk : Kept n h) (hn : 0 < n) {first new second : Nat} {rest : List Nat}
    (hquit : h.state.quit = false) (hqueue : h.state.queue = first :: new :: second :: rest)
    (hlt : second < new) : ¬ ServesInOrder ssl n h := by
  have hend : ∀ h', Reaches ssl h h' → Waits 0 (new :: second :: rest) h'.state →
      ¬ ServesInOrder ssl n h := by
    intro h' hreaches hwaits hserves
    have ⟨more, hmore, hrun⟩ := hreaches
    have htakes := hserves more hmore
    rw [hrun] at htakes
    exact not_takesOldest (hk.reaches hn hreaches).held hwaits List.mem_cons_self hlt htakes
  obtain ⟨h₁, queue, hreaches, hwaits, hcases⟩ := hk.comes_back ssl hn hquit
  have htail : queue = h.state.queue ∨ queue = h.state.queue.tail := by
    rcases hcases with hsame | ⟨p, id, hw, hp, rfl⟩
    · exact Or.inl hsame
    · exact erase_of_not_mem_tail (hk.not_mem_tail hw hp)
  rw [hqueue] at htail
  rcases htail with rfl | rfl
  · obtain ⟨h₂, hreaches₂, hwaits₂⟩ :=
      (hk.reaches hn hreaches).drops_first ssl hn hwaits
    exact hend h₂ (hreaches.trans hreaches₂) hwaits₂
  · exact hend h₁ hreaches hwaits

end Overtaking

/-! ## 2. Whole runs -/

theorem insertAfterFirst_of_two {queue : List Nat} (hlong : ¬ queue.length ≤ 1) (id : Nat) :
    ∃ first second rest, queue = first :: second :: rest ∧
      insertAfterFirst queue id = first :: id :: second :: rest := by
  match queue with
  | [] => exact absurd (Nat.zero_le 1) hlong
  | [_] => exact absurd (le_refl 1) hlong
  | first :: second :: rest => exact ⟨first, second, rest, rfl, rfl⟩

/-- A run serves the requests in the order in which they were made, whatever is cancelled and
whichever threads go on at any point of it, exactly if no request of it is made while two others
are in the queue. -/
theorem serves_in_order_iff (ssl : OpenSSL) (nThreads : Nat) (hn : 0 < nThreads)
    (events : List Event) :
    (∀ pre, pre <+: events →
      ServesInOrder ssl nThreads (run (History.step ssl) (History.init nThreads) pre)) ↔
    Along (History.step ssl) AtMostOneQueued (History.init nThreads) events := by
  have hstep : ∀ h e h', Kept nThreads h ∧ InOrder h → AtMostOneQueued h e →
      h.step ssl e = some h' → Kept nThreads h' ∧ InOrder h' := fun h e h' hinv hok hs =>
    ⟨hinv.1.step hn hs, hinv.2.step hinv.1.held hok hs⟩
  apply always_iff_along (I := fun h => Kept nThreads h ∧ InOrder h)
  · -- no request comes in, so the queue stays in order
    intro h hinv more hmore
    have hserves : Along (History.step ssl) (fun _ e => e.serves = true) h more :=
      along_of_forall hmore
    have hlast := invariant_along (P := fun h => Kept nThreads h ∧ InOrder h) (by
      intro h₁ e h₂ hinv₁ he hs
      apply hstep h₁ e h₂ hinv₁ _ hs
      cases e with
      | calculate r => cases he
      | _ => trivial) hserves hinv
    exact hlast.2.takesOldest hlast.1.held
  · exact hstep
  · intro h e h' hinv hbad hs
    have hk' := hinv.1.step hn hs
    cases e with
    | calculate r =>
      obtain ⟨hquit, hlong⟩ := not_or.mp hbad
      obtain ⟨first, second, rest, hqueue, hinsert⟩ :=
        insertAfterFirst_of_two hlong h.state.cookies.length
      have hsecond : second < h.state.cookies.length :=
        ((hinv.1.held.queued_iff second).mp (by simp [hqueue])).1
      cases hs
      rw [Bool.not_eq_true] at hquit
      exact hk'.overtaken hn hquit hinsert hsecond
    | _ => exact absurd trivial hbad
  · exact ⟨kept_init nThreads, Or.inr List.Pairwise.nil⟩

/-! ## 3. Any number of later requests -/

section Rounds

variable {ssl : OpenSSL} {n : Nat} {h h' : History}

theorem handed_grows_of_step {e : Event} (hs : h.step ssl e = some h') :
    h.handed <+: h'.handed := by
  have hmove := move_of_step hs
  cases hmove with
  | take _ _ _ => exact List.prefix_append h.handed _
  | _ => exact List.prefix_refl h.handed

theorem Reaches.handed_grows (hreaches : Reaches ssl h h') : h.handed <+: h'.handed := by
  obtain ⟨more, -, rfl⟩ := hreaches
  exact invariant (P := fun h₁ => h.handed <+: h₁.handed)
    (fun _ _ _ hle hs => hle.trans (handed_grows_of_step hs)) (List.prefix_refl _) more

theorem mem_offsetsOf {id offset : Nat} :
    offset ∈ h.offsetsOf id ↔ (id, offset) ∈ h.handed := by
  simp only [History.offsetsOf, List.mem_map, List.mem_filter, decide_eq_true_eq]
  constructor
  · rintro ⟨⟨_, _⟩, ⟨hmem, rfl⟩, rfl⟩
    exact hmem
  · intro hmem
    exact ⟨(id, offset), ⟨hmem, rfl⟩, rfl⟩

/-- The first thread takes the first request, and comes back when that is out of the queue. -/
theorem Kept.takes_first (ssl : OpenSSL) (hk : Kept n h) (hn : 0 < n) {first : Nat}
    {rest : List Nat} (hwaits : Waits 0 (first :: rest) h.state) :
    ∃ h' offset, Reaches ssl h h' ∧ Waits 0 rest h'.state ∧
      h.handed ++ [(first, offset)] <+: h'.handed := by
  have hfirst : first ∉ rest := by
    have hnodup := hk.held.queue
    rw [hwaits.queue_eq] at hnodup
    exact (List.nodup_cons.mp hnodup).1
  have hmem : first ∈ h.state.queue := by
    rw [hwaits.queue_eq]
    exact List.mem_cons_self
  obtain ⟨c, hc⟩ : ∃ c, h.state.cookies[first]? = some c :=
    ⟨_, List.getElem?_eq_getElem ((hk.held.queued_iff first).mp hmem).1⟩
  obtain ⟨h₁, hstep, hstate, hhanded⟩ : ∃ h₁, h.step ssl (.worker 0) = some h₁ ∧
      h₁.state = take h.state 0 first c ∧
      h₁.handed = h.handed ++ [(first, c.nextNonceOffset)] :=
    ⟨_, step_take hwaits.waiting hwaits.running hwaits.queue_eq hc, rfl, rfl⟩
  have hk₁ := hk.step hn hstep
  have hquit₁ : h₁.state.quit = false := by
    rw [hstate, take_quit, hwaits.running]
  -- the request may be in the queue still, with the rest of its offsets
  have hqueue₁ : h₁.state.queue = rest ∨ h₁.state.queue = first :: rest := by
    rw [hstate, take_queue, hwaits.queue_eq, List.erase_cons_head]
    split_ifs
    · exact Or.inl rfl
    · exact Or.inr rfl
  have hcookie : ∀ p id, h₁.state.workers[0]? = some p → p.cookie = some id → id = first := by
    intro p id hp hid
    obtain ⟨p', hp', hworkers⟩ := testLoop_workers (h.state.taken first c) 0 first c.nextNonceOffset
    have hget : h₁.state.workers[0]? = some p' := by
      rw [hstate]
      show (testLoop (h.state.taken first c) 0 first c.nextNonceOffset).workers[0]? = some p'
      rw [hworkers]
      exact getElem?_setWorker_self (s := h.state.taken first c)
        (taken_waiting hwaits.waiting first c) p'
    obtain rfl := Option.some.inj (hp.symm.trans hget)
    rcases hp' with rfl | rfl
    · exact (Option.some.inj hid).symm
    · cases hid
  obtain ⟨h₂, queue, hreaches, hwaits₂, hcases⟩ := hk₁.comes_back ssl hn hquit₁
  have hqueue₂ : queue = rest ∨ queue = first :: rest := by
    rcases hcases with rfl | ⟨p, id, hp, hid, rfl⟩
    · exact hqueue₁
    · left
      rw [hcookie p id hp hid]
      rcases hqueue₁ with hq | hq
      · rw [hq, List.erase_of_not_mem hfirst]
      · rw [hq, List.erase_cons_head]
  have hstart := Reaches.of_step rfl hstep
  rcases hqueue₂ with rfl | rfl
  · exact ⟨h₂, c.nextNonceOffset, hstart.trans hreaches, hwaits₂, hhanded ▸ hreaches.handed_grows⟩
  · obtain ⟨h₃, hreaches', hwaits₃⟩ := (hk₁.reaches hn hreaches).drops_first ssl hn hwaits₂
    exact ⟨h₃, c.nextNonceOffset, hstart.trans (hreaches.trans hreaches'), hwaits₃,
      hhanded ▸ (hreaches.trans hreaches').handed_grows⟩

/-- The request `old` waits behind the request `first`, and each of `later` was made after it and
has an offset. -/
structure Overtaken (n old first : Nat) (later : List Nat) (h : History) : Prop where
  kept : Kept n h
  waits : Waits 0 [first, old] h.state
  nodup : later.Nodup
  between : ∀ id ∈ later, old < id ∧ id < first
  younger : old < first
  handed : ∀ id ∈ later, h.offsetsOf id ≠ []

/-- One more request is made, the one before it is taken, and its thread comes back. -/
theorem Overtaken.round (ssl : OpenSSL) (hn : 0 < n) {old first : Nat} {later : List Nat}
    (ho : Overtaken n old first later h) (r : Request) :
    ∃ events first', Overtaken n old first' (first :: later)
      (run (History.step ssl) h events) := by
  have hfirst : first < h.state.cookies.length :=
    ((ho.kept.held.queued_iff first).mp (by rw [ho.waits.queue_eq]; exact List.mem_cons_self)).1
  obtain ⟨h₁, hstep, hstate, hhanded⟩ : ∃ h₁, h.step ssl (.calculate r) = some h₁ ∧
      h₁.state = calculate ssl h.state r ∧ h₁.handed = h.handed := ⟨_, rfl, rfl, rfl⟩
  have hwaits₁ : Waits 0 [first, h.state.cookies.length, old] h₁.state := by
    rw [hstate]
    refine ⟨ho.waits.waiting, ho.waits.running, ?_⟩
    show insertAfterFirst h.state.queue h.state.cookies.length = _
    rw [ho.waits.queue_eq]
    rfl
  have hk₁ := ho.kept.step hn hstep
  obtain ⟨h₂, offset, hreaches, hwaits₂, hprefix⟩ := hk₁.takes_first ssl hn hwaits₁
  rw [hhanded] at hprefix
  have hmem : ∀ id, h.offsetsOf id ≠ [] ∨ id = first → h₂.offsetsOf id ≠ [] := by
    intro id hid
    rcases hid with hne | rfl
    · obtain ⟨o, ho'⟩ := List.exists_mem_of_ne_nil _ hne
      apply List.ne_nil_of_mem (a := o)
      rw [mem_offsetsOf] at ho' ⊢
      exact hprefix.subset (List.mem_append_left _ ho')
    · apply List.ne_nil_of_mem (a := offset)
      rw [mem_offsetsOf]
      exact hprefix.subset (List.mem_append_right _ List.mem_cons_self)
  have hyounger := ho.younger
  have ⟨more, _, hrun⟩ := hreaches
  refine ⟨.calculate r :: more, h.state.cookies.length, ?_⟩
  rw [run_cons, next_of_some hstep, hrun]
  refine ⟨hk₁.reaches hn hreaches, hwaits₂, ?_, ?_, by omega, ?_⟩
  · rw [List.nodup_cons]
    refine ⟨fun hin => ?_, ho.nodup⟩
    have hlt := (ho.between first hin).2
    omega
  · intro id hid
    rcases List.mem_cons.mp hid with rfl | hid
    · exact ⟨hyounger, hfirst⟩
    · have hbetween := ho.between id hid
      omega
  · intro id hid
    rcases List.mem_cons.mp hid with rfl | hid
    · exact hmem id (Or.inr rfl)
    · exact hmem id (Or.inl (ho.handed id hid))

/-- After three requests the third waits before the second, behind which any number can be made. -/
theorem exists_overtaken (ssl : OpenSSL) (hn : 0 < n) (r : Request) (k : Nat) :
    ∃ events first later, later.length = k ∧
      Overtaken n 1 first later (run (History.step ssl) (History.init n) events) := by
  induction k with
  | zero =>
    obtain ⟨h₁, hrun₁, hwaits₁⟩ : ∃ h₁, run (History.step ssl) (History.init n)
        [.calculate r, .calculate r, .calculate r] = h₁ ∧ Waits 0 [0, 2, 1] h₁.state := by
      refine ⟨_, rfl, ?_, rfl, rfl⟩
      show (List.replicate n Worker.waiting)[0]? = some .waiting
      rw [List.getElem?_replicate, if_pos hn]
    have hk₁ : Kept n h₁ := by
      rw [← hrun₁]
      exact invariant (fun _ _ _ hk hs => hk.step hn hs) (kept_init n) _
    obtain ⟨h₂, hreaches, hwaits₂⟩ := hk₁.drops_first ssl hn hwaits₁
    have ⟨more, _, hrun₂⟩ := hreaches
    refine ⟨[.calculate r, .calculate r, .calculate r] ++ more, 2, [], rfl, ?_⟩
    rw [run_append, hrun₁, hrun₂]
    exact ⟨hk₁.reaches hn hreaches, hwaits₂, List.nodup_nil, by simp, by decide, by simp⟩
  | succ k ih =>
    obtain ⟨events, first, later, hlength, ho⟩ := ih
    obtain ⟨events', first', ho'⟩ := ho.round ssl hn r
    refine ⟨events ++ events', first', first :: later, by rw [List.length_cons, hlength], ?_⟩
    rw [run_append]
    exact ho'

/-- For every number there is a run in which that many requests get offsets that were made after a
request that has none. -/
theorem overtaken_by_any_number (ssl : OpenSSL) (hn : 0 < n) (k : Nat) :
    ∃ (events : List Event) (later : List Nat), later.length = k ∧ later.Nodup ∧
      let h := run (History.step ssl) (History.init n) events
      h.Unassigned n 1 ∧ h.offsetsOf 1 = [] ∧ ∀ id ∈ later, 1 < id ∧ h.offsetsOf id ≠ [] := by
  obtain ⟨events, first, later, hlength, ho⟩ := exists_overtaken ssl hn emptyObject k
  refine ⟨events, later, hlength, ho.nodup, ?_, ?_, fun id hid =>
    ⟨(ho.between id hid).1, ho.handed id hid⟩⟩
  · apply (ho.kept.held.queued_iff 1).mp
    rw [ho.waits.queue_eq]
    exact List.mem_cons_of_mem _ List.mem_cons_self
  · rw [ho.kept.held.offsetsOf_eq, ho.kept.tidy.behind 1]
    · rfl
    · rw [ho.waits.queue_eq]
      exact List.mem_cons_self

end Rounds

/-- Three requests are made and one thread, which takes the first of them, solves it. -/
def threeRequests : List Event :=
  [.calculate emptyObject, .calculate emptyObject, .calculate emptyObject, .worker 0, .worker 0,
    .worker 0, .worker 0]

theorem third_before_second :
    ¬ TakesOldest OpenSSL.additive 1
      (run (History.step OpenSSL.additive) (History.init 1) threeRequests) ∧
    ∀ k : Nat, ∃ (events : List Event) (later : List Nat), later.length = k ∧ later.Nodup ∧
      let h := run (History.step OpenSSL.additive) (History.init 1) events
      h.Unassigned 1 1 ∧ h.offsetsOf 1 = [] ∧ ∀ id ∈ later, 1 < id ∧ h.offsetsOf id ≠ [] := by
  have hkept : Kept 1 (run (History.step OpenSSL.additive) (History.init 1) threeRequests) :=
    invariant (fun _ _ _ hk hs => hk.step Nat.one_pos hs) (kept_init 1) threeRequests
  have hwaits : Waits 0 [2, 1]
      (run (History.step OpenSSL.additive) (History.init 1) threeRequests).state :=
    ⟨by decide +kernel, by decide +kernel, by decide +kernel⟩
  refine ⟨not_takesOldest hkept.held hwaits List.mem_cons_self (by decide), fun k => ?_⟩
  exact overtaken_by_any_number OpenSSL.additive Nat.one_pos k

/-- Each request is made when the one before it has been taken. -/
def oneByOne : List Event :=
  [.calculate emptyObject, .worker 0, .calculate emptyObject, .worker 1, .cancel 0, .worker 0]

theorem oneByOne_served :
    let h := run (History.step OpenSSL.additive) (History.init 2) oneByOne
    h.handed = [(0, 0), (0, 1)] ∧ h.state.queue = [1] ∧ TakesOldest OpenSSL.additive 2 h := by
  refine ⟨by decide +kernel, by decide +kernel, ?_⟩
  have halong : Along (History.step OpenSSL.additive) AtMostOneQueued (History.init 2) oneByOne :=
    ⟨fun _ => Or.inr (by decide), fun _ => trivial, fun _ => Or.inr (by decide), fun _ => trivial,
      fun _ => trivial, fun _ => trivial, trivial⟩
  have hserves := (serves_in_order_iff OpenSSL.additive 2 (by decide) oneByOne).mpr halong
    oneByOne (List.prefix_refl oneByOne)
  exact hserves [] fun _ he => absurd he List.not_mem_nil

end Notbit.Pow
