import Notbit.Lib.Refs
import Notbit.Lib.Tables
import Notbit.Pow.Workers

/-!
# Holders — who holds a cookie, and which nonces are tried for it (`ntb-pow.c`)

A cookie is held by its caller, by the queue, by the threads that search it and by its idle source.
The history of a run adds what the program does not keep: the cookies that were cancelled, the
offsets that were handed to threads and the nonces that were tried.
-/

open Runs Refs Tables

namespace Notbit.Pow

/-! ## 1. The history of a run -/

/-- The cookie a thread holds. -/
def Worker.cookie : Worker → Option Nat
  | .searching id _ _ => some id
  | .solved id _ => some id
  | .locking id _ => some id
  | .waiting => none
  | .exited => none

structure History where
  state : State
  /-- The cookies that were cancelled. -/
  cancelled : List Nat
  /-- The offsets that were handed out, each with its cookie. -/
  handed : List (Nat × Nat)
  /-- The offset that was last handed to each thread. -/
  current : Nat → Nat
  /-- The nonces that were tried, each with its cookie and the offset of the thread. -/
  tried : List (Nat × Nat × Nat)

def History.init (nThreads : Nat) : History :=
  { state := State.init nThreads, cancelled := [], handed := [], current := fun _ => 0, tried := [] }

/-- The offset the next thread gets that takes a cookie. -/
def State.nextOffset (s : State) (id : Nat) : Nat :=
  match s.cookies[id]? with
  | some c => c.nextNonceOffset
  | none => 0

/-- What an event that leads to `s'` adds to the history. -/
def History.after (h : History) (e : Event) (s' : State) : History :=
  match e with
  | .cancel id => { h with state := s', cancelled := h.cancelled ++ [id] }
  | .worker w =>
    match h.state.workers[w]? with
    | some .waiting =>
      match h.state.quit, h.state.queue with
      | false, id :: _ =>
        { h with
          state := s'
          handed := h.handed ++ [(id, h.state.nextOffset id)]
          current := Function.update h.current w (h.state.nextOffset id) }
      | _, _ => { h with state := s' }
    | some (.searching id nonce i) =>
      if i < noncesPerCheck then
        { h with state := s', tried := h.tried ++ [(id, h.current w, nonce)] }
      else { h with state := s' }
    | _ => { h with state := s' }
  | _ => { h with state := s' }

theorem history_state_after (h : History) (e : Event) (s' : State) :
    (h.after e s').state = s' := by
  unfold History.after
  split
  · rfl
  · split
    · split <;> rfl
    · split_ifs <;> rfl
    · rfl
  · rfl

/-- One step with its history.  Nothing is watched after the threads were joined. -/
def History.step (ssl : OpenSSL) (h : History) : Event → Option History
  | .free => none
  | e => (Pow.step ssl h.state e).map (h.after e)

/-- The offsets that were handed out for a cookie. -/
def History.offsetsOf (h : History) (id : Nat) : List Nat :=
  (h.handed.filter (·.1 = id)).map (·.2)

/-- The nonces that the thread with an offset of a cookie has tried. -/
def History.triedBy (h : History) (id offset : Nat) : List Nat :=
  (h.tried.filter fun t => t.1 = id ∧ t.2.1 = offset).map (·.2.2)

/-! ## 2. Everything a step can do -/

/-- The steps with their histories, one for each thing that can happen. -/
inductive Move (ssl : OpenSSL) (h : History) : History → Prop where
  | calculate (r : Request) : Move ssl h { h with state := calculate ssl h.state r }
  | cancel {id : Nat} {c : Cookie} (hc : h.state.cookies[id]? = some c) (hheld : c.held = true) :
      Move ssl h { h with state := cancel h.state id c, cancelled := h.cancelled ++ [id] }
  | idle {id : Nat} {c : Cookie} (hc : h.state.cookies[id]? = some c)
      (hidle : c.idleSource = true) : Move ssl h { h with state := idleCb h.state id c }
  | quit : Move ssl h { h with state := { h.state with quit := true } }
  | exit {w : Nat} (hw : h.state.workers[w]? = some .waiting) :
      Move ssl h { h with state := h.state.setWorker w .exited }
  | take {w id : Nat} {rest : List Nat} {c : Cookie} (hw : h.state.workers[w]? = some .waiting)
      (hqueue : h.state.queue = id :: rest) (hc : h.state.cookies[id]? = some c) :
      Move ssl h { h with
        state := take h.state w id c
        handed := h.handed ++ [(id, c.nextNonceOffset)]
        current := Function.update h.current w c.nextNonceOffset }
  /-- One nonce is tried and is a solution. -/
  | solve {w id nonce i : Nat} (hw : h.state.workers[w]? = some (.searching id nonce i)) :
      Move ssl h { h with
        state := h.state.setWorker w (.solved id nonce)
        tried := h.tried ++ [(id, h.current w, nonce)] }
  /-- One nonce is tried and is no solution. -/
  | next {w id nonce i : Nat} (hw : h.state.workers[w]? = some (.searching id nonce i)) :
      Move ssl h { h with
        state := h.state.setWorker w
          (.searching id ((nonce + h.state.workers.length) % 2 ^ 64) (i + 1))
        tried := h.tried ++ [(id, h.current w, nonce)] }
  | pause {w id nonce i : Nat} (hw : h.state.workers[w]? = some (.searching id nonce i)) :
      Move ssl h { h with state := h.state.setWorker w (.locking id nonce) }
  | store {w id nonce : Nat} (hw : h.state.workers[w]? = some (.solved id nonce)) :
      Move ssl h { h with state :=
        (h.state.setCookie id fun c => c.setSolution nonce).setWorker w (.locking id nonce) }
  | test {w id nonce : Nat} (hw : h.state.workers[w]? = some (.locking id nonce)) :
      Move ssl h { h with state := testLoop h.state w id nonce }

theorem move_of_worker {ssl : OpenSSL} {h : History} {w : Nat} {s' : State}
    (hs : workerStep ssl h.state w = some s') : Move ssl h (h.after (.worker w) s') := by
  unfold workerStep at hs
  unfold History.after
  dsimp only
  cases hw : h.state.workers[w]? with
  | none =>
    rw [hw] at hs
    cases hs
  | some p =>
    rw [hw] at hs
    cases p with
    | waiting =>
      dsimp only at hs ⊢
      cases hquit : h.state.quit with
      | true =>
        rw [hquit] at hs
        cases hs
        exact .exit hw
      | false =>
        rw [hquit] at hs
        cases hqueue : h.state.queue with
        | nil =>
          rw [hqueue] at hs
          cases hs
        | cons id rest =>
          rw [hqueue] at hs
          obtain ⟨c, hc, rfl⟩ := Option.map_eq_some_iff.mp hs
          have hoffset : h.state.nextOffset id = c.nextNonceOffset := by
            rw [State.nextOffset, hc]
          dsimp only
          rw [hoffset]
          exact .take hw hqueue hc
    | searching id nonce i =>
      dsimp only at hs ⊢
      by_cases hmore : i < noncesPerCheck
      · rw [if_pos hmore] at hs ⊢
        obtain ⟨c, -, rfl⟩ := Option.map_eq_some_iff.mp hs
        split
        · exact .solve hw
        · exact .next hw
      · rw [if_neg hmore] at hs ⊢
        cases hs
        exact .pause hw
    | solved id nonce =>
      cases hs
      exact .store hw
    | locking id nonce =>
      cases hs
      exact .test hw
    | exited => cases hs

theorem move_of_step {ssl : OpenSSL} {h h' : History} {e : Event} (hs : h.step ssl e = some h') :
    Move ssl h h' := by
  cases e with
  | free => cases hs
  | calculate r =>
    cases hs
    exact .calculate r
  | cancel id =>
    obtain ⟨s', hs', rfl⟩ := Option.map_eq_some_iff.mp hs
    simp only [Pow.step] at hs'
    split at hs'
    · next c hc =>
      split_ifs at hs' with hheld
      cases hs'
      exact .cancel hc hheld
    · cases hs'
  | idle id =>
    obtain ⟨s', hs', rfl⟩ := Option.map_eq_some_iff.mp hs
    simp only [Pow.step] at hs'
    split at hs'
    · next c hc =>
      split_ifs at hs' with hidle
      cases hs'
      exact .idle hc hidle
    · cases hs'
  | worker w =>
    obtain ⟨s', hs', rfl⟩ := Option.map_eq_some_iff.mp hs
    exact move_of_worker hs'
  | quit =>
    cases hs
    exact .quit

/-! ## 3. One cookie -/

/-- What the rest of the program has to do with one cookie. -/
structure View where
  queued : Bool
  workers : Nat
  cancelled : Bool
  deliveries : Nat
  offsets : List Nat

def History.view (h : History) (id : Nat) : View where
  queued := id ∈ h.state.queue
  workers := h.state.workers.countP (·.cookie = some id)
  cancelled := id ∈ h.cancelled
  deliveries := (h.state.delivered.filter (·.1 = id)).length
  offsets := h.offsetsOf id

/-- Those who hold a cookie: the caller, the queue, the threads and the idle source. -/
def View.holders (v : View) (c : Cookie) : Nat :=
  c.held.toNat + v.queued.toNat + v.workers + c.idleSource.toNat

/-- A cookie and what the rest of the program has to do with it fit together. -/
structure Cookie.Fits (n : Nat) (v : View) (c : Cookie) : Prop where
  queued : v.queued = true ↔ c.nextNonceOffset < n ∧ v.cancelled = false
  refs : Exact c.refCount c.frees (v.holders c)
  bounded : c.nextNonceOffset ≤ n
  offsets : v.offsets = List.range c.nextNonceOffset
  idle : c.idleSource = true → c.done = true ∧ c.held = true
  unsolved : c.done = false → c.held = true
  cancelled : v.cancelled = true → c.held = false
  deliveries : v.deliveries = if c.held = true ∨ v.cancelled = true then 0 else 1

namespace Cookie.Fits

variable {n : Nat} {v : View} {c : Cookie}

-- A thread lets go of a cookie.
theorem unref_worker (h : c.Fits n { v with workers := v.workers + 1 }) : c.unref.Fits n v where
  queued := h.queued
  refs := by
    have hrefs := h.refs
    have hholders : View.holders { v with workers := v.workers + 1 } c = v.holders c + 1 := by
      simp only [View.holders]
      omega
    rw [hholders] at hrefs
    exact hrefs.unref
  bounded := h.bounded
  offsets := h.offsets
  idle := h.idle
  unsolved := h.unsolved
  cancelled := h.cancelled
  deliveries := h.deliveries

-- A thread that holds a cookie stores a solution; the idle source becomes a holder.
theorem setSolution (h : c.Fits n v) (hworker : 0 < v.workers) (nonce : Nat) :
    (c.setSolution nonce).Fits n v := by
  unfold Cookie.setSolution
  by_cases hdone : c.done = true
  · rw [if_pos hdone]
    exact h
  · rw [if_neg hdone]
    have hnotIdle : c.idleSource = false := by
      by_contra hidle
      exact hdone (h.idle (by simpa using hidle)).1
    have hheld : c.held = true := h.unsolved (by simpa using hdone)
    have hrefs := h.refs.ref (by simp only [View.holders]; omega)
    have hholders : v.holders c + 1 = v.holders
        ({ c with nonce := nonce, done := true, idleSource := true }.ref) := by
      simp only [View.holders, Cookie.ref, hnotIdle, Bool.toNat_false, Bool.toNat_true]
    rw [hholders] at hrefs
    exact { h with
      refs := hrefs
      idle := fun _ => ⟨rfl, hheld⟩
      unsolved := fun _ => hheld }

/-- `idle_cb`: the idle source and the caller let go together. -/
theorem idleCb (h : c.Fits n v) (hidle : c.idleSource = true) :
    ({ c with idleSource := false, held := false }.unref.unref).Fits n
      { v with deliveries := v.deliveries + 1 } := by
  obtain ⟨hdone, hheld⟩ := h.idle hidle
  have hcancelled : v.cancelled = false := by
    by_contra hcancelled
    rw [h.cancelled (by simpa using hcancelled)] at hheld
    cases hheld
  have hholders : v.holders c = v.queued.toNat + v.workers + 1 + 1 := by
    simp only [View.holders, hidle, hheld, Bool.toNat_true]
    omega
  have hrefs := h.refs
  rw [hholders] at hrefs
  have hdeliveries := h.deliveries
  rw [if_pos (Or.inl hheld)] at hdeliveries
  refine
    { queued := h.queued
      refs := ?_
      bounded := h.bounded
      offsets := h.offsets
      idle := fun hidle' => absurd hidle' Bool.false_ne_true
      unsolved := fun hopen => absurd (hdone.symm.trans hopen) (by simp)
      cancelled := fun _ => rfl
      deliveries := ?_ }
  · have hleft : View.holders { v with deliveries := v.deliveries + 1 }
        ({ c with idleSource := false, held := false }.unref.unref) =
          v.queued.toNat + v.workers := by
      simp only [View.holders, Cookie.unref, Bool.toNat_false]
      omega
    rw [hleft]
    exact hrefs.unref.unref
  · simp [Cookie.unref, hcancelled, hdeliveries]

end Cookie.Fits

/-- What `ntb_pow_cancel` does to its cookie. -/
def Cookie.afterCancel (n : Nat) (c : Cookie) : Cookie :=
  let c₁ := if c.nextNonceOffset < n then c.unref else c
  let c₂ := if c.idleSource then { c₁ with idleSource := false }.unref else c₁
  { c₂ with done := true, held := false }.unref

/-- What a thread that takes a cookie from the queue does to it. -/
def Cookie.afterTake (n : Nat) (c : Cookie) : Cookie :=
  let c' := { c.ref with nextNonceOffset := c.nextNonceOffset + 1 }
  if c.nextNonceOffset + 1 ≥ n then c'.unref else c'

theorem Cookie.afterCancel_nextNonceOffset (c : Cookie) (n : Nat) :
    (c.afterCancel n).nextNonceOffset = c.nextNonceOffset := by
  unfold Cookie.afterCancel
  dsimp only
  split_ifs <;> rfl

theorem Cookie.afterCancel_idleSource (c : Cookie) (n : Nat) :
    (c.afterCancel n).idleSource = false := by
  have hunref : ∀ c : Cookie, c.unref.idleSource = c.idleSource := fun _ => rfl
  unfold Cookie.afterCancel
  dsimp only
  rw [hunref]
  by_cases hidle : c.idleSource = true
  · rw [if_pos hidle, hunref]
  · rw [if_neg hidle]
    rw [Bool.not_eq_true] at hidle
    split_ifs <;> exact hidle

/-- The references of the queue, of the idle source and of the caller are given up, in this order.
-/
theorem Cookie.afterCancel_refs {c : Cookie} {n workers : Nat}
    (h : Exact c.refCount c.frees (workers + true.toNat + c.idleSource.toNat +
      (decide (c.nextNonceOffset < n)).toNat)) :
    Exact (c.afterCancel n).refCount (c.afterCancel n).frees workers := by
  have hqueue : ∀ holders, Exact c.refCount c.frees
      (holders + (decide (c.nextNonceOffset < n)).toNat) →
      Exact (if c.nextNonceOffset < n then c.unref else c).refCount
        (if c.nextNonceOffset < n then c.unref else c).frees holders := by
    intro holders hrefs
    split_ifs with hlt
    · rw [decide_eq_true hlt] at hrefs
      exact hrefs.unref
    · rw [decide_eq_false hlt] at hrefs
      exact hrefs
  have hidle : ∀ (c₁ : Cookie) (holders : Nat), Exact c₁.refCount c₁.frees
      (holders + c.idleSource.toNat) →
      Exact (if c.idleSource then { c₁ with idleSource := false }.unref else c₁).refCount
        (if c.idleSource then { c₁ with idleSource := false }.unref else c₁).frees holders := by
    intro c₁ holders hrefs
    cases hsource : c.idleSource with
    | true =>
      rw [hsource] at hrefs
      exact hrefs.unref
    | false =>
      rw [hsource] at hrefs
      exact hrefs
  exact (hidle _ _ (hqueue _ h)).unref

namespace Cookie.Fits

variable {n : Nat} {v : View} {c : Cookie}

theorem new (ssl : OpenSSL) (r : Request) (hn : 0 < n) : (Cookie.new ssl r).Fits n
    { queued := true, workers := 0, cancelled := false, deliveries := 0, offsets := [] } where
  queued := by simp [Cookie.new, hn]
  refs := exact_new 2 (by norm_num)
  bounded := Nat.zero_le _
  offsets := rfl
  idle hidle := nomatch hidle
  unsolved _ := rfl
  cancelled hcancelled := nomatch hcancelled
  deliveries := rfl

/-- A cookie that is taken has a thread more, and leaves the queue with its last offset. -/
theorem afterTake (h : c.Fits n v) (hqueued : v.queued = true) : (c.afterTake n).Fits n
    { v with
      queued := decide (c.nextNonceOffset + 1 < n)
      workers := v.workers + 1
      offsets := v.offsets ++ [c.nextNonceOffset] } := by
  obtain ⟨hlt, hcancelled⟩ := h.queued.mp hqueued
  have hoffsets : v.offsets ++ [c.nextNonceOffset] = List.range (c.nextNonceOffset + 1) := by
    rw [h.offsets, List.range_succ]
  have hrefs := h.refs.ref (by simp only [View.holders, hqueued, Bool.toNat_true]; omega)
  unfold Cookie.afterTake
  dsimp only
  by_cases hlast : c.nextNonceOffset + 1 ≥ n
  · rw [if_pos hlast]
    have hholders : v.holders c = View.holders { v with
        queued := decide (c.nextNonceOffset + 1 < n)
        workers := v.workers + 1
        offsets := v.offsets ++ [c.nextNonceOffset] } c := by
      rw [decide_eq_false (by omega)]
      simp only [View.holders, hqueued, Bool.toNat_true, Bool.toNat_false]
      omega
    rw [hholders] at hrefs
    exact { h with
      queued := by simp [Cookie.unref, hcancelled]
      refs := hrefs.unref
      bounded := hlt
      offsets := hoffsets }
  · rw [if_neg hlast]
    have hholders : v.holders c + 1 = View.holders { v with
        queued := decide (c.nextNonceOffset + 1 < n)
        workers := v.workers + 1
        offsets := v.offsets ++ [c.nextNonceOffset] } c := by
      rw [decide_eq_true (by omega)]
      simp only [View.holders, hqueued, Bool.toNat_true]
      omega
    rw [hholders] at hrefs
    exact { h with
      queued := by simp [hcancelled]
      refs := hrefs
      bounded := hlt
      offsets := hoffsets }

/-- A cookie that is cancelled is held by the threads that search it, and by nobody else. -/
theorem afterCancel (h : c.Fits n v) (hheld : c.held = true) :
    (c.afterCancel n).Fits n { v with queued := false, cancelled := true } := by
  have hcancelled : v.cancelled = false := by
    by_contra hcancelled
    rw [h.cancelled (by simpa using hcancelled)] at hheld
    cases hheld
  have hdeliveries := h.deliveries
  rw [if_pos (Or.inl hheld)] at hdeliveries
  have hqueued : v.queued = decide (c.nextNonceOffset < n) := by
    rw [Bool.eq_iff_iff, h.queued, decide_eq_true_eq, and_iff_left hcancelled]
  have hrefs := h.refs
  rw [View.holders, hheld, hqueued] at hrefs
  have hholders : v.workers + true.toNat + c.idleSource.toNat +
      (decide (c.nextNonceOffset < n)).toNat = true.toNat +
        (decide (c.nextNonceOffset < n)).toNat + v.workers + c.idleSource.toNat := by omega
  rw [← hholders] at hrefs
  exact
    { queued := by simp
      refs := by
        have hgone : (c.afterCancel n).held = false := rfl
        simpa [View.holders, hgone, Cookie.afterCancel_idleSource] using
          Cookie.afterCancel_refs hrefs
      bounded := by
        rw [Cookie.afterCancel_nextNonceOffset]
        exact h.bounded
      offsets := by
        rw [Cookie.afterCancel_nextNonceOffset]
        exact h.offsets
      idle := fun hidle => absurd hidle (by simp [Cookie.afterCancel_idleSource])
      unsolved := fun hopen => nomatch hopen
      cancelled := fun _ => rfl
      deliveries := by simp [hdeliveries] }

end Cookie.Fits

/-! ## 4. All cookies -/

def View.none : View :=
  { queued := false, workers := 0, cancelled := false, deliveries := 0, offsets := [] }

structure Held (n : Nat) (h : History) : Prop where
  threads : h.state.workers.length = n
  queue : h.state.queue.Nodup
  /-- A cookie fits what the program has to do with its number; a number that is not in use yet
  appears nowhere. -/
  cookies : Fits (fun v c => c.Fits n v) View.none h.view h.state.cookies

section Step

variable {ssl : OpenSSL} {n : Nat} {h h' : History} {s : State}

theorem Held.fits (hh : Held n h) {id : Nat} {c : Cookie} (hc : h.state.cookies[id]? = some c) :
    c.Fits n (h.view id) :=
  hh.cookies.get hc

theorem getElem?_setCookie_self {id : Nat} {c : Cookie} (hc : s.cookies[id]? = some c)
    (f : Cookie → Cookie) : (s.setCookie id f).cookies[id]? = some (f c) := by
  rw [getElem?_setCookie, hc]
  simp

/-! ### The main thread -/

theorem mem_insertAfterFirst {queue : List Nat} {id j : Nat} :
    j ∈ insertAfterFirst queue id ↔ j = id ∨ j ∈ queue := by
  cases queue with
  | nil => simp [insertAfterFirst]
  | cons first rest =>
    simp only [insertAfterFirst, List.mem_cons]
    tauto

theorem nodup_insertAfterFirst {queue : List Nat} {id : Nat} (hqueue : queue.Nodup)
    (hid : id ∉ queue) : (insertAfterFirst queue id).Nodup := by
  cases queue with
  | nil => simp [insertAfterFirst]
  | cons first rest =>
    simp only [insertAfterFirst, List.nodup_cons, List.mem_cons, not_or] at hqueue hid ⊢
    exact ⟨⟨fun heq => hid.1 heq.symm, hqueue.1⟩, hid.2, hqueue.2⟩

theorem Held.calculate (hh : Held n h) (hn : 0 < n) (r : Request) :
    Held n { h with state := calculate ssl h.state r } := by
  have hnew : h.view h.state.cookies.length = View.none := hh.cookies.unused_length
  have hfresh : h.state.cookies.length ∉ h.state.queue := by
    have hqueued := congrArg View.queued hnew
    simpa [History.view, View.none] using hqueued
  refine ⟨hh.threads, nodup_insertAfterFirst hh.queue hfresh, hh.cookies.concat ?_ ?_⟩
  · intro j hj
    simp [History.view, Pow.calculate, mem_insertAfterFirst, hj, History.offsetsOf]
  · -- the new cookie is in the queue and nowhere else
    have hview : History.view { h with state := Pow.calculate ssl h.state r }
        h.state.cookies.length = { h.view h.state.cookies.length with queued := true } := by
      simp [History.view, Pow.calculate, mem_insertAfterFirst, History.offsetsOf]
    rw [hview, hnew]
    exact Cookie.Fits.new ssl r hn

theorem cancel_queue (s : State) (id : Nat) (c : Cookie) : (cancel s id c).queue =
    if c.nextNonceOffset < s.workers.length then s.queue.erase id else s.queue := by
  unfold cancel State.removeQueuedCookie State.setCookie
  dsimp only
  split_ifs <;> rfl

theorem cancel_workers (s : State) (id : Nat) (c : Cookie) :
    (cancel s id c).workers = s.workers := by
  unfold cancel State.removeQueuedCookie State.setCookie
  dsimp only
  split_ifs <;> rfl

theorem cancel_delivered (s : State) (id : Nat) (c : Cookie) :
    (cancel s id c).delivered = s.delivered := by
  unfold cancel State.removeQueuedCookie State.setCookie
  dsimp only
  split_ifs <;> rfl

theorem cancel_cookies {id : Nat} {c : Cookie} (hc : s.cookies[id]? = some c) (j : Nat) :
    (cancel s id c).cookies[j]? =
      if j = id then some (c.afterCancel s.workers.length) else s.cookies[j]? := by
  have hqueue : ∀ s₁ : State, ({ s₁ with queue := s₁.queue.erase id } : State).cookies =
      s₁.cookies := fun _ => rfl
  unfold cancel State.removeQueuedCookie Cookie.afterCancel
  dsimp only
  by_cases hj : j = id
  · subst hj
    rw [if_pos rfl]
    split_ifs <;> simp [getElem?_setCookie, hc]
  · have hj' : ¬ id = j := fun heq => hj heq.symm
    rw [if_neg hj]
    split_ifs <;> simp [getElem?_setCookie, hj']

theorem Held.cancel {id : Nat} {c : Cookie} (hh : Held n h) (hc : h.state.cookies[id]? = some c)
    (hheld : c.held = true) :
    Held n { h with state := cancel h.state id c, cancelled := h.cancelled ++ [id] } := by
  have hfits := hh.fits hc
  have hqueue : ∀ j, j ∈ (Pow.cancel h.state id c).queue ↔ j ≠ id ∧ j ∈ h.state.queue := by
    rw [cancel_queue, hh.threads]
    -- a cookie that all threads have seen is not in the queue any more
    apply mem_erase_if hh.queue
    intro hin
    exact (hfits.queued.mp (by simpa [History.view] using hin)).1
  refine ⟨?_, ?_, hh.cookies.of_one id (c := c.afterCancel n) ?_ ?_ ?_⟩
  · rw [cancel_workers]
    exact hh.threads
  · rw [cancel_queue]
    exact nodup_erase_if hh.queue id
  · intro j hj
    refine ⟨?_, ?_⟩
    · simp [History.view, cancel_workers, cancel_delivered, hqueue, hj, History.offsetsOf]
    · show (Pow.cancel h.state id c).cookies[j]? = _
      rw [cancel_cookies hc, if_neg hj]
  · show (Pow.cancel h.state id c).cookies[id]? = _
    rw [cancel_cookies hc, if_pos rfl, hh.threads]
  · have hview : History.view
        { h with state := Pow.cancel h.state id c, cancelled := h.cancelled ++ [id] } id =
        { h.view id with queued := false, cancelled := true } := by
      simp [History.view, cancel_workers, cancel_delivered, hqueue, History.offsetsOf]
    rw [hview]
    exact hfits.afterCancel hheld

theorem mem_idleCb_queue (s : State) (id : Nat) (c : Cookie) (j : Nat) :
    j ∈ (idleCb s id c).queue ↔ j ∈ s.queue := Iff.rfl

theorem idleCb_workers (s : State) (id : Nat) (c : Cookie) :
    (idleCb s id c).workers = s.workers := rfl

theorem idleCb_delivered (s : State) (id : Nat) (c : Cookie) :
    (idleCb s id c).delivered = s.delivered ++ [(id, c.nonce)] := rfl

theorem Held.idleCb {id : Nat} {c : Cookie} (hh : Held n h) (hc : h.state.cookies[id]? = some c)
    (hidle : c.idleSource = true) : Held n { h with state := idleCb h.state id c } := by
  refine ⟨hh.threads, hh.queue, hh.cookies.modify ?_ hc ?_⟩
  · intro j hj
    have hj' : ¬ id = j := fun heq => hj heq.symm
    simp [History.view, mem_idleCb_queue, idleCb_workers, idleCb_delivered, hj', History.offsetsOf]
  · have hview : History.view { h with state := Pow.idleCb h.state id c } id =
        { h.view id with deliveries := (h.view id).deliveries + 1 } := by
      simp [History.view, mem_idleCb_queue, idleCb_workers, idleCb_delivered, History.offsetsOf]
    rw [hview]
    exact (hh.fits hc).idleCb hidle

/-! ### The threads -/

-- What a change of one thread means for the number of threads at a cookie.
theorem countP_setWorker {w : Nat} {p : Worker} (hw : s.workers[w]? = some p) (p' : Worker)
    (j : Nat) :
    (s.setWorker w p').workers.countP (·.cookie = some j) + (if p.cookie = some j then 1 else 0) =
      s.workers.countP (·.cookie = some j) + (if p'.cookie = some j then 1 else 0) := by
  obtain ⟨hlt, hget⟩ := List.getElem?_eq_some_iff.mp hw
  have hset := List.countP_set (p := fun x : Worker => decide (x.cookie = some j))
    (a := p') hlt
  have hpos : p.cookie = some j → 0 < s.workers.countP (·.cookie = some j) := by
    intro hp
    rw [List.countP_pos_iff]
    exact ⟨p, List.mem_of_getElem? hw, by simpa using hp⟩
  show (s.workers.set w p').countP _ + _ = _
  rw [hset, hget]
  by_cases hp : p.cookie = some j
  · have := hpos hp
    simp only [hp, decide_true, if_true]
    split_ifs <;> simp_all
  · simp only [hp, decide_false, if_false]
    split_ifs <;> simp_all

-- A thread that leaves its cookie.
theorem countP_leave {w id : Nat} {p : Worker} (hw : s.workers[w]? = some p)
    (hp : p.cookie = some id) (p' : Worker) (hp' : p'.cookie = none) (j : Nat) :
    s.workers.countP (·.cookie = some j) =
      (s.setWorker w p').workers.countP (·.cookie = some j) + if j = id then 1 else 0 := by
  have hchange := countP_setWorker hw p' j
  rw [hp, hp', if_neg (show ¬ (none : Option Nat) = some j by simp)] at hchange
  by_cases hj : j = id
  · subst hj
    rw [if_pos rfl] at hchange ⊢
    omega
  · have hj' : ¬ some id = some j := fun heq => hj (Option.some.inj heq).symm
    rw [if_neg hj'] at hchange
    rw [if_neg hj]
    omega

-- A thread that comes to a cookie.
theorem countP_come {w id : Nat} {p : Worker} (hw : s.workers[w]? = some p)
    (hp : p.cookie = none) (p' : Worker) (hp' : p'.cookie = some id) (j : Nat) :
    (s.setWorker w p').workers.countP (·.cookie = some j) =
      s.workers.countP (·.cookie = some j) + if j = id then 1 else 0 := by
  have hchange := countP_setWorker hw p' j
  rw [hp, hp', if_neg (show ¬ (none : Option Nat) = some j by simp)] at hchange
  by_cases hj : j = id
  · subst hj
    rw [if_pos rfl] at hchange ⊢
    omega
  · have hj' : ¬ some id = some j := fun heq => hj (Option.some.inj heq).symm
    rw [if_neg hj'] at hchange
    rw [if_neg hj]
    omega

-- A thread that stays at its cookie, whatever it has tried.
theorem Held.setWorker {w : Nat} {p : Worker} (hh : Held n h)
    (hw : h.state.workers[w]? = some p) (p' : Worker) (hsame : p'.cookie = p.cookie)
    (tried : List (Nat × Nat × Nat)) :
    Held n { h with state := h.state.setWorker w p', tried } := by
  refine ⟨?_, hh.queue, hh.cookies.of_none ?_⟩
  · show (h.state.workers.set w p').length = n
    rw [List.length_set]
    exact hh.threads
  · intro j
    have hcount := countP_setWorker hw p' j
    rw [hsame] at hcount
    have heq : (h.state.setWorker w p').workers.countP (·.cookie = some j) =
        h.state.workers.countP (·.cookie = some j) := by omega
    simp only [History.view, heq]
    rfl

-- A cookie that a thread is at exists.
theorem Held.cookie_of_worker {w id : Nat} {p : Worker} (hh : Held n h)
    (hw : h.state.workers[w]? = some p) (hp : p.cookie = some id) :
    ∃ c, h.state.cookies[id]? = some c ∧ 0 < (h.view id).workers := by
  have hcount : 0 < (h.view id).workers := by
    show 0 < h.state.workers.countP _
    rw [List.countP_pos_iff]
    exact ⟨_, List.mem_of_getElem? hw, by simpa using hp⟩
  obtain ⟨c, hc⟩ := hh.cookies.exists id (by
    intro hnone
    rw [hnone] at hcount
    cases hcount)
  exact ⟨c, hc, hcount⟩

-- A thread stores a solution.
theorem Held.setSolution {w id nonce : Nat} (hh : Held n h)
    (hw : h.state.workers[w]? = some (.solved id nonce)) :
    Held n { h with state :=
      (h.state.setCookie id fun c => c.setSolution nonce).setWorker w (.locking id nonce) } := by
  obtain ⟨c, hc, hcount⟩ := hh.cookie_of_worker hw rfl
  have hset : Held n { h with state := h.state.setCookie id fun c => c.setSolution nonce } := by
    refine ⟨hh.threads, hh.queue, hh.cookies.modify (fun _ _ => rfl) hc ?_⟩
    exact (hh.fits hc).setSolution hcount nonce
  exact hset.setWorker hw (.locking id nonce) rfl h.tried

-- A thread lets go of its cookie.
theorem Held.letGo {w id nonce : Nat} (hh : Held n h)
    (hw : h.state.workers[w]? = some (.locking id nonce)) :
    Held n { h with state := (h.state.setCookie id Cookie.unref).setWorker w .waiting } := by
  obtain ⟨c, hc, -⟩ := hh.cookie_of_worker hw rfl
  have hcount := countP_leave hw rfl .waiting rfl
  refine ⟨?_, hh.queue, hh.cookies.modify ?_ hc ?_⟩
  · show (h.state.workers.set w .waiting).length = n
    rw [List.length_set]
    exact hh.threads
  · intro j hj
    have hsame := hcount j
    rw [if_neg hj, Nat.add_zero] at hsame
    simp only [History.view, hsame]
    rfl
  · apply Cookie.Fits.unref_worker
    have hone := hcount id
    rw [if_pos rfl] at hone
    have hfits := hh.fits hc
    simp only [History.view, hone] at hfits
    exact hfits

-- The test at the head of the search loop.
theorem Held.testLoop {w id nonce : Nat} (hh : Held n h)
    (hw : h.state.workers[w]? = some (.locking id nonce)) :
    Held n { h with state := testLoop h.state w id nonce } := by
  unfold Pow.testLoop
  dsimp only
  split_ifs
  · exact hh.setWorker hw (.searching id nonce 0) rfl h.tried
  · exact hh.letGo hw

-- The test only looks at the cookie, so the thread may as well be at the lock already.
theorem testLoop_setWorker (w id nonce : Nat) (p : Worker) :
    testLoop (s.setWorker w p) w id nonce = testLoop s w id nonce := by
  unfold testLoop State.setWorker State.setCookie
  simp only [List.set_set]

/-- The state after a thread has taken a cookie, before its first test. -/
def State.taken (s : State) (id : Nat) (c : Cookie) : State :=
  let s' := s.setCookie id fun c => { c.ref with nextNonceOffset := c.nextNonceOffset + 1 }
  if c.nextNonceOffset + 1 ≥ s'.workers.length then s'.removeQueuedCookie id else s'

theorem take_eq (w id : Nat) (c : Cookie) :
    take s w id c =
      testLoop ((s.taken id c).setWorker w (.locking id c.nextNonceOffset)) w id
        c.nextNonceOffset := by
  rw [testLoop_setWorker]
  rfl

theorem taken_queue (id : Nat) (c : Cookie) : (s.taken id c).queue =
    if c.nextNonceOffset + 1 ≥ s.workers.length then s.queue.erase id else s.queue := by
  unfold State.taken State.removeQueuedCookie State.setCookie
  dsimp only
  split_ifs <;> rfl

theorem taken_workers (id : Nat) (c : Cookie) : (s.taken id c).workers = s.workers := by
  unfold State.taken State.removeQueuedCookie State.setCookie
  dsimp only
  split_ifs <;> rfl

theorem taken_delivered (id : Nat) (c : Cookie) : (s.taken id c).delivered = s.delivered := by
  unfold State.taken State.removeQueuedCookie State.setCookie
  dsimp only
  split_ifs <;> rfl

theorem taken_cookies {id : Nat} {c : Cookie} (hc : s.cookies[id]? = some c) (j : Nat) :
    (s.taken id c).cookies[j]? =
      if j = id then some (c.afterTake s.workers.length) else s.cookies[j]? := by
  unfold State.taken State.removeQueuedCookie Cookie.afterTake
  have hworkers : (s.setCookie id fun c =>
    { c.ref with nextNonceOffset := c.nextNonceOffset + 1 }).workers = s.workers := rfl
  dsimp only
  rw [hworkers]
  by_cases hj : j = id
  · subst hj
    rw [if_pos rfl]
    split_ifs <;> simp [getElem?_setCookie, hc]
  · have hj' : ¬ id = j := fun heq => hj heq.symm
    rw [if_neg hj]
    split_ifs <;> simp [getElem?_setCookie, hj']

theorem taken_waiting {w : Nat} (hw : s.workers[w]? = some .waiting) (id : Nat) (c : Cookie) :
    (s.taken id c).workers[w]? = some .waiting := by
  rw [taken_workers]
  exact hw

theorem taken_locking {w : Nat} (hw : s.workers[w]? = some .waiting) (id : Nat) (c : Cookie) :
    ((s.taken id c).setWorker w (.locking id c.nextNonceOffset)).workers[w]? =
      some (.locking id c.nextNonceOffset) := by
  show ((s.taken id c).workers.set w _)[w]? = _
  rw [List.getElem?_set_self (List.getElem?_eq_some_iff.mp (taken_waiting hw id c)).1]

-- The last thread that takes a cookie takes it out of the queue.
theorem Held.mem_taken_queue (hh : Held n h) (id : Nat) (c : Cookie) (j : Nat) :
    j ∈ (h.state.taken id c).queue ↔
      j ∈ h.state.queue ∧ (j = id → c.nextNonceOffset + 1 < n) := by
  rw [taken_queue, hh.threads]
  by_cases hlast : c.nextNonceOffset + 1 ≥ n
  · rw [if_pos hlast, hh.queue.mem_erase_iff]
    refine ⟨fun hj => ⟨hj.2, fun heq => absurd heq hj.1⟩, fun hj => ⟨fun heq => ?_, hj.1⟩⟩
    have := hj.2 heq
    omega
  · rw [if_neg hlast]
    exact ⟨fun hj => ⟨hj, fun _ => by omega⟩, fun hj => hj.1⟩

/-- A thread takes the first cookie of the queue. -/
theorem Held.taken {w id : Nat} {c : Cookie} (hh : Held n h)
    (hw : h.state.workers[w]? = some .waiting) (hin : id ∈ h.state.queue)
    (hc : h.state.cookies[id]? = some c) :
    Held n { h with
      state := (h.state.taken id c).setWorker w (.locking id c.nextNonceOffset)
      handed := h.handed ++ [(id, c.nextNonceOffset)]
      current := Function.update h.current w c.nextNonceOffset } := by
  have hcount := countP_come (taken_waiting hw id c) rfl (.locking id c.nextNonceOffset) rfl
  simp only [taken_workers] at hcount
  have hdelivered : ((h.state.taken id c).setWorker w
      (.locking id c.nextNonceOffset)).delivered = h.state.delivered := taken_delivered id c
  have hmem : ∀ j, j ∈ ((h.state.taken id c).setWorker w (.locking id c.nextNonceOffset)).queue ↔
      j ∈ h.state.queue ∧ (j = id → c.nextNonceOffset + 1 < n) := hh.mem_taken_queue id c
  refine ⟨?_, ?_, hh.cookies.of_one id (c := c.afterTake n) ?_ ?_ ?_⟩
  · show (((h.state.taken id c).workers.set w _)).length = n
    rw [List.length_set, taken_workers]
    exact hh.threads
  · show (h.state.taken id c).queue.Nodup
    rw [taken_queue]
    exact nodup_erase_if hh.queue id
  · intro j hj
    refine ⟨?_, ?_⟩
    · have hj' : ¬ id = j := fun heq => hj heq.symm
      have hsame := hcount j
      rw [if_neg hj, Nat.add_zero] at hsame
      simp [History.view, hmem, hj, hsame, hdelivered, History.offsetsOf, hj']
    · show (h.state.taken id c).cookies[j]? = _
      rw [taken_cookies hc, if_neg hj]
  · show (h.state.taken id c).cookies[id]? = _
    rw [taken_cookies hc, if_pos rfl, hh.threads]
  · -- one thread more is at the cookie, and one offset more was handed out
    have hone := hcount id
    rw [if_pos rfl] at hone
    have hafter := (hh.fits hc).afterTake (by simpa [History.view] using hin)
    simpa [History.view, hmem, hin, hone, hdelivered, History.offsetsOf] using hafter

theorem Held.take {w id : Nat} {rest : List Nat} {c : Cookie} (hh : Held n h)
    (hw : h.state.workers[w]? = some .waiting) (hqueue : h.state.queue = id :: rest)
    (hc : h.state.cookies[id]? = some c) :
    Held n { h with
      state := take h.state w id c
      handed := h.handed ++ [(id, c.nextNonceOffset)]
      current := Function.update h.current w c.nextNonceOffset } := by
  have hin : id ∈ h.state.queue := by
    rw [hqueue]
    exact List.mem_cons_self
  rw [take_eq]
  exact (hh.taken hw hin hc).testLoop (taken_locking hw id c)

theorem Held.step (hh : Held n h) (hn : 0 < n) (hmove : Move ssl h h') : Held n h' := by
  cases hmove with
  | calculate r => exact hh.calculate hn r
  | cancel hc hheld => exact hh.cancel hc hheld
  | idle hc hidle => exact hh.idleCb hc hidle
  | quit => exact ⟨hh.threads, hh.queue, hh.cookies.of_none fun _ => rfl⟩
  | exit hw => exact hh.setWorker hw .exited rfl h.tried
  | take hw hqueue hc => exact hh.take hw hqueue hc
  | solve hw => exact hh.setWorker hw (.solved _ _) rfl _
  | @next w id nonce i hw => exact hh.setWorker hw (.searching id _ (i + 1)) rfl _
  | pause hw => exact hh.setWorker hw (.locking _ _) rfl h.tried
  | store hw => exact hh.setSolution hw
  | test hw => exact hh.testLoop hw

theorem held_init (n : Nat) : Held n (History.init n) where
  threads := List.length_replicate
  queue := List.nodup_nil
  cookies := by
    apply Fits.nil
    intro id
    have hcount : (List.replicate n Worker.waiting).countP (·.cookie = some id) = 0 := by
      rw [List.countP_replicate]
      rfl
    simp [History.view, History.init, State.init, History.offsetsOf, View.none, hcount]

end Step

end Notbit.Pow
