import Notbit.Lib.Refs
import Notbit.Lib.Runs
import Notbit.Lib.Tables

/-!
# Tasks — the requests to the crypto thread (`ntb-crypto.c`)

A request is a cookie that goes from the caller through the queue to the thread and comes back to the
main loop in an idle source.  One step is what a thread does while it holds the mutex or until it
takes it again; what the handlers compute is the business of other modules.
-/

open Runs Refs Tables

namespace Notbit.Crypto

/-! ## 1. The state -/

/-- `enum ntb_crypto_cookie_type` -/
inductive Kind where
  | createKey | createPubkeyBlob | checkPubkey | createMsgBlob | createPublicKey | decryptMsg
  | generateAckdata
  deriving DecidableEq, Repr

/-- Who runs a callback. -/
inductive Caller where
  | mainLoop | thread
  deriving DecidableEq, Repr

/-- `struct ntb_crypto_cookie`; its callback is `func`, which every caller gives.  The fields behind
`cancelled` are the history of the request: whether its caller may still cancel it, who has invoked
the callback, how often it was freed and whether it was used after that. -/
structure Cookie where
  kind : Kind
  refCount : Int
  inQueue : Bool
  idleSource : Bool
  cancelled : Bool
  held : Bool
  invoked : List Caller
  frees : Nat
  usedFreed : Bool
  deriving DecidableEq, Repr

/-- Where the thread is: at its queue, in the handler of a request, back from the handler and before
the lock, or at the end of the round with the lock in its hands. -/
inductive Phase where
  | running | returned | finishing
  deriving DecidableEq, Repr

structure State where
  cookies : List Cookie
  queue : List Nat
  /-- The request the thread is at. -/
  thread : Option (Nat × Phase)
  /-- The idle sources of the main context. -/
  sources : List Nat
  /-- The request whose callback the main loop is in. -/
  calling : Option Nat

/-- `ntb_crypto_new` -/
def State.init : State := { cookies := [], queue := [], thread := none, sources := [], calling := none }

/-- The mutex is free for the main thread. -/
def State.unlocked (s : State) : Bool :=
  match s.thread with
  | some (_, .finishing) => false
  | _ => true

def State.setCookie (s : State) (id : Nat) (f : Cookie → Cookie) : State :=
  { s with cookies := s.cookies.modify id f }

/-- Something reads or writes the cookie. -/
def Cookie.use (c : Cookie) : Cookie := { c with usedFreed := c.usedFreed || decide (0 < c.frees) }

/-- `ntb_crypto_unref_cookie` -/
def Cookie.unref (c : Cookie) : Cookie :=
  let c := c.use
  { c with
    refCount := c.refCount - 1
    frees := if c.refCount - 1 ≤ 0 then c.frees + 1 else c.frees }

/-! ## 2. The steps -/

/-- `new_cookie`, as the seven functions that make a request call it. -/
def submit (s : State) (kind : Kind) : State :=
  { s with
    cookies := s.cookies ++
      [{ kind, refCount := 2, inQueue := true, idleSource := false, cancelled := false, held := true
         invoked := [], frees := 0, usedFreed := false }]
    queue := s.queue ++ [s.cookies.length] }

/-- `ntb_crypto_cancel_task`.  The flag `in_queue` and the pointer to the idle source stay as they
are. -/
def cancelTask (s : State) (id : Nat) (c : Cookie) : State :=
  let s := if c.inQueue then
    { s with queue := s.queue.erase id }.setCookie id Cookie.unref else s
  let s := s.setCookie id fun c => { c.use with cancelled := true, held := false }
  let s := if c.idleSource then { s with sources := s.sources.erase id } else s
  s.setCookie id Cookie.unref

/-- The thread takes the first request of the queue, with the reference the queue had. -/
def take (s : State) (id : Nat) (rest : List Nat) (c : Cookie) : State :=
  let s := { s with queue := rest }.setCookie id fun c => { c.use with inQueue := false }
  if c.cancelled then { s with thread := some (id, .finishing) }
  else { s with thread := some (id, .running) }

/-- The handler of a request.  Only `handle_create_key` invokes the callback. -/
def handle (s : State) (id : Nat) : State :=
  let s := s.setCookie id fun c =>
    { c.use with
      invoked := match c.kind with
        | .createKey => c.invoked ++ [.thread]
        | .createPubkeyBlob | .checkPubkey | .createMsgBlob | .createPublicKey | .decryptMsg
        | .generateAckdata => c.invoked }
  { s with thread := some (id, .returned) }

/-- The thread has the lock again and adds the idle source. -/
def announce (s : State) (id : Nat) (c : Cookie) : State :=
  let s := if c.cancelled then s.setCookie id Cookie.use
    else { s with sources := s.sources ++ [id] }.setCookie id fun c =>
      { c.use with idleSource := true }
  { s with thread := some (id, .finishing) }

/-- The next step of `thread_func`. -/
def threadStep (s : State) : Option State :=
  match s.thread with
  | none =>
    match s.queue with
    | [] => none
    | id :: rest => (s.cookies[id]?).map (take s id rest)
  | some (id, .running) => some (handle s id)
  | some (id, .returned) => (s.cookies[id]?).map (announce s id)
  | some (id, .finishing) => some { s.setCookie id Cookie.unref with thread := none }

/-- `idle_cb` up to the callback, which runs without the lock. -/
def idleCb (s : State) (id : Nat) : State :=
  { s.setCookie id fun c => { c.use with held := false, invoked := c.invoked ++ [.mainLoop] } with
    calling := some id }

/-- The rest of `idle_cb`: the reference of the caller is dropped. -/
def idleReturn (s : State) (id : Nat) : State :=
  { s.setCookie id Cookie.unref with sources := s.sources.erase id, calling := none }

inductive Event where
  | submit (kind : Kind)
  | cancel (id : Nat)
  | thread
  | idle (id : Nat)
  | idleReturn

def step (s : State) : Event → Option State
  | .submit kind => if s.unlocked then some (submit s kind) else none
  | .cancel id =>
    -- a caller may not cancel twice, nor once its callback is invoked
    match s.cookies[id]? with
    | some c => if c.held && s.unlocked then some (cancelTask s id c) else none
    | none => none
  | .thread => threadStep s
  | .idle id => if id ∈ s.sources ∧ s.calling = none then some (idleCb s id) else none
  | .idleReturn =>
    match s.calling with
    | some id => if s.unlocked then some (idleReturn s id) else none
    | none => none

/-! ## 3. What is expected of a request -/

/-- A request whose callback is still to come. -/
def State.Pending (s : State) (id : Nat) : Prop :=
  id ∈ s.queue ∨ s.thread = some (id, .running) ∨ s.thread = some (id, .returned) ∨
    (id ∈ s.sources ∧ s.calling ≠ some id)

/-- Some part of the program still has to do with the cookie. -/
def State.InUse (s : State) (id : Nat) : Prop :=
  id ∈ s.queue ∨ (∃ phase, s.thread = some (id, phase)) ∨ id ∈ s.sources

instance (s : State) (id : Nat) : Decidable (s.Pending id) :=
  inferInstanceAs (Decidable (_ ∨ _ ∨ _ ∨ (_ ∧ _)))

instance (s : State) (id : Nat) : Decidable (s.InUse id) :=
  decidable_of_iff (id ∈ s.queue ∨ s.thread.map (·.1) = some id ∨ id ∈ s.sources) (by
    unfold State.InUse
    cases s.thread with
    | none => simp
    | some p =>
      obtain ⟨j, phase⟩ := p
      simp)

/-- A callback is invoked from the main loop only, once when the request is not pending any more, and
not at all when it is cancelled; the cookie is freed once, when nothing uses it any more. -/
structure Cookie.Sound (s : State) (id : Nat) (c : Cookie) : Prop where
  mainLoop : ∀ caller ∈ c.invoked, caller = .mainLoop
  cancelled : c.cancelled = true → c.invoked = []
  once : c.cancelled = false → c.invoked.length = if s.Pending id then 0 else 1
  freed : c.frees = if s.InUse id then 0 else 1
  used : c.usedFreed = false

def Sound (s : State) : Prop := ∀ id (c : Cookie), s.cookies[id]? = some c → c.Sound s id

/-- The thread is not about to run `handle_create_key`. -/
def Event.Harmless (s : State) : Event → Prop
  | .thread => ∀ id c, s.thread = some (id, .running) → s.cookies[id]? = some c →
      c.kind ≠ .createKey
  | _ => True

/-! ## 4. The life of a request -/

/-- What the rest of the program has to do with a request. -/
structure View where
  queued : Bool
  phase : Option Phase
  source : Bool
  calling : Bool

def View.none : View := { queued := false, phase := .none, source := false, calling := false }

def State.view (s : State) (id : Nat) : View where
  queued := id ∈ s.queue
  phase := (s.thread.filter fun p => p.1 = id).map (·.2)
  source := id ∈ s.sources
  calling := s.calling = some id

/-- The stages of a request.  The thread may have announced it and not have dropped its own reference
yet, also while the callback runs. -/
inductive Stage where
  | queued
  | running (cancelled : Bool)
  | returned (cancelled : Bool)
  | leaving
  | announced (finishing : Bool)
  | calling (finishing : Bool)
  | delivered
  | withdrawn

def Stage.view : Stage → View
  | .queued => { queued := true, phase := none, source := false, calling := false }
  | .running _ => { queued := false, phase := some .running, source := false, calling := false }
  | .returned _ => { queued := false, phase := some .returned, source := false, calling := false }
  | .leaving => { queued := false, phase := some .finishing, source := false, calling := false }
  | .announced finishing =>
    { queued := false, phase := if finishing then some .finishing else none, source := true
      calling := false }
  | .calling finishing =>
    { queued := false, phase := if finishing then some .finishing else none, source := true
      calling := true }
  | .delivered => View.none
  | .withdrawn => View.none

/-- The caller may still cancel. -/
def Stage.held : Stage → Bool
  | .queued => true
  | .running cancelled => !cancelled
  | .returned cancelled => !cancelled
  | .announced _ => true
  | _ => false

def Stage.isCancelled : Stage → Bool
  | .running cancelled => cancelled
  | .returned cancelled => cancelled
  | .leaving => true
  | .withdrawn => true
  | _ => false

/-- The pointer to the idle source is set. -/
def Stage.hasSource : Stage → Bool
  | .announced _ => true
  | .calling _ => true
  | .delivered => true
  | _ => false

/-- The references: of the caller, of the queue or of the thread. -/
def Stage.holders : Stage → Nat
  | .queued => 2
  | .running cancelled => if cancelled then 1 else 2
  | .returned cancelled => if cancelled then 1 else 2
  | .leaving => 1
  | .announced finishing => if finishing then 2 else 1
  | .calling finishing => if finishing then 2 else 1
  | .delivered => 0
  | .withdrawn => 0

/-- The invocations of the callback that are meant. -/
def Stage.invoked : Stage → List Caller
  | .calling _ => [.mainLoop]
  | .delivered => [.mainLoop]
  | _ => []

/-- A cookie is at a stage of its life.  `strict` asks for the invocations as well. -/
structure Stage.Describes (strict : Prop) (st : Stage) (v : View) (c : Cookie) : Prop where
  view : v = st.view
  held : c.held = st.held
  cancelled : c.cancelled = st.isCancelled
  flags : st ≠ .withdrawn → c.inQueue = v.queued ∧ c.idleSource = st.hasSource
  refs : Exact c.refCount c.frees st.holders
  used : c.usedFreed = false
  invoked : strict → c.invoked = st.invoked

def Alive (strict : Prop) (v : View) (c : Cookie) : Prop := ∃ st, Stage.Describes strict st v c

-- A cookie that is held was not freed.
theorem Cookie.use_of_held {c : Cookie} {holders : Nat}
    (h : Exact c.refCount c.frees (holders + 1)) : c.use = c := by
  have hfrees := h.frees
  rw [if_neg (by omega)] at hfrees
  have hflag : (c.usedFreed || decide (0 < c.frees)) = c.usedFreed := by
    rw [hfrees]
    simp
  unfold Cookie.use
  rw [hflag]

theorem Cookie.unref_of_held {c : Cookie} {holders : Nat}
    (h : Exact c.refCount c.frees (holders + 1)) :
    c.unref.usedFreed = c.usedFreed ∧ Exact c.unref.refCount c.unref.frees holders := by
  unfold Cookie.unref
  rw [Cookie.use_of_held h]
  exact ⟨rfl, h.unref⟩

namespace Stage.Describes

variable {strict : Prop} {st : Stage} {v : View} {c : Cookie}

theorem use_eq (h : Describes strict st v c) (hheld : 0 < st.holders) : c.use = c := by
  have hrefs := h.refs
  obtain ⟨holders, hholders⟩ : ∃ holders, st.holders = holders + 1 := ⟨st.holders - 1, by omega⟩
  rw [hholders] at hrefs
  exact Cookie.use_of_held hrefs

theorem stage_of_queued (h : Describes strict st v c) (hqueued : v.queued = true) :
    st = .queued := by
  have hview := h.view
  subst hview
  cases st with
  | queued => rfl
  | announced finishing => cases hqueued
  | calling finishing => cases hqueued
  | _ => cases hqueued

theorem stage_of_running (h : Describes strict st v c) (hphase : v.phase = some .running) :
    ∃ cancelled, st = .running cancelled := by
  have hview := h.view
  subst hview
  cases st with
  | running cancelled => exact ⟨cancelled, rfl⟩
  | announced finishing => cases finishing <;> cases hphase
  | calling finishing => cases finishing <;> cases hphase
  | _ => cases hphase

theorem stage_of_returned (h : Describes strict st v c) (hphase : v.phase = some .returned) :
    ∃ cancelled, st = .returned cancelled := by
  have hview := h.view
  subst hview
  cases st with
  | returned cancelled => exact ⟨cancelled, rfl⟩
  | announced finishing => cases finishing <;> cases hphase
  | calling finishing => cases finishing <;> cases hphase
  | _ => cases hphase

theorem stage_of_finishing (h : Describes strict st v c) (hphase : v.phase = some .finishing) :
    st = .leaving ∨ st = .announced true ∨ st = .calling true := by
  have hview := h.view
  subst hview
  cases st with
  | leaving => exact Or.inl rfl
  | announced finishing =>
    cases finishing with
    | true => exact Or.inr (Or.inl rfl)
    | false => cases hphase
  | calling finishing =>
    cases finishing with
    | true => exact Or.inr (Or.inr rfl)
    | false => cases hphase
  | _ => cases hphase

theorem stage_of_source (h : Describes strict st v c) (hsource : v.source = true)
    (hcalling : v.calling = false) : ∃ finishing, st = .announced finishing := by
  have hview := h.view
  subst hview
  cases st with
  | announced finishing => exact ⟨finishing, rfl⟩
  | calling finishing => cases hcalling
  | _ => cases hsource

theorem stage_of_calling (h : Describes strict st v c) (hcalling : v.calling = true) :
    ∃ finishing, st = .calling finishing := by
  have hview := h.view
  subst hview
  cases st with
  | calling finishing => exact ⟨finishing, rfl⟩
  | _ => cases hcalling

theorem submitted (strict : Prop) (kind : Kind) : Describes strict .queued Stage.queued.view
    { kind, refCount := 2, inQueue := true, idleSource := false, cancelled := false, held := true
      invoked := [], frees := 0, usedFreed := false } where
  view := rfl
  held := rfl
  cancelled := rfl
  flags _ := ⟨rfl, rfl⟩
  refs := exact_new 2 (by norm_num)
  used := rfl
  invoked _ := rfl

theorem take (h : Describes strict .queued v c) :
    Describes strict (.running false) (Stage.running false).view
      { c.use with inQueue := false } := by
  rw [h.use_eq (by decide)]
  obtain ⟨-, hheld, hcancelled, hflags, hrefs, hused, hinvoked⟩ := h
  exact ⟨rfl, hheld, hcancelled, fun _ => ⟨rfl, (hflags nofun).2⟩, hrefs, hused, hinvoked⟩

-- Every handler but one leaves the callback alone.
theorem handle {cancelled : Bool} (h : Describes strict (.running cancelled) v c)
    (hkind : strict → c.kind ≠ .createKey) :
    Describes strict (.returned cancelled) (Stage.returned cancelled).view
      { c.use with
        invoked := match c.kind with
          | .createKey => c.invoked ++ [.thread]
          | .createPubkeyBlob | .checkPubkey | .createMsgBlob | .createPublicKey | .decryptMsg
          | .generateAckdata => c.invoked } := by
  rw [h.use_eq (by cases cancelled <;> decide)]
  obtain ⟨hview, hheld, hcancelled, hflags, hrefs, hused, hinvoked⟩ := h
  subst hview
  refine ⟨rfl, hheld, hcancelled, fun _ => hflags nofun, hrefs, hused, fun hstrict => ?_⟩
  have hnone := hinvoked hstrict
  cases hk : c.kind with
  | createKey => exact absurd hk (hkind hstrict)
  | _ => exact hnone

theorem announce (h : Describes strict (.returned false) v c) :
    Describes strict (.announced true) (Stage.announced true).view
      { c.use with idleSource := true } := by
  rw [h.use_eq (by decide)]
  obtain ⟨hview, hheld, hcancelled, hflags, hrefs, hused, hinvoked⟩ := h
  subst hview
  exact ⟨rfl, hheld, hcancelled, fun _ => ⟨(hflags nofun).1, rfl⟩, hrefs, hused, hinvoked⟩

theorem announce_cancelled (h : Describes strict (.returned true) v c) :
    Describes strict .leaving Stage.leaving.view c.use := by
  rw [h.use_eq (by decide)]
  obtain ⟨hview, hheld, hcancelled, hflags, hrefs, hused, hinvoked⟩ := h
  subst hview
  exact ⟨rfl, hheld, hcancelled, fun _ => hflags nofun, hrefs, hused, hinvoked⟩

/-- What is left of a stage when the thread drops its reference. -/
def finished : Stage → Stage
  | .leaving => .withdrawn
  | .announced _ => .announced false
  | .calling _ => .calling false
  | st => st

theorem finish (h : Describes strict st v c) (hphase : v.phase = some .finishing) :
    Describes strict (finished st) (finished st).view c.unref := by
  rcases h.stage_of_finishing hphase with rfl | rfl | rfl
  · obtain ⟨hused, hrefs⟩ := Cookie.unref_of_held h.refs
    exact ⟨rfl, h.held, h.cancelled, fun hne => absurd rfl hne, hrefs, hused.trans h.used,
      h.invoked⟩
  · obtain ⟨hused, hrefs⟩ := Cookie.unref_of_held h.refs
    have hview := h.view
    subst hview
    exact ⟨rfl, h.held, h.cancelled, fun _ => h.flags nofun, hrefs, hused.trans h.used,
      h.invoked⟩
  · obtain ⟨hused, hrefs⟩ := Cookie.unref_of_held h.refs
    have hview := h.view
    subst hview
    exact ⟨rfl, h.held, h.cancelled, fun _ => h.flags nofun, hrefs, hused.trans h.used,
      h.invoked⟩

theorem idleCb {finishing : Bool} (h : Describes strict (.announced finishing) v c) :
    Describes strict (.calling finishing) (Stage.calling finishing).view
      { c.use with held := false, invoked := c.invoked ++ [.mainLoop] } := by
  rw [h.use_eq (by cases finishing <;> decide)]
  obtain ⟨hview, hheld, hcancelled, hflags, hrefs, hused, hinvoked⟩ := h
  subst hview
  refine ⟨rfl, rfl, hcancelled, fun _ => hflags nofun, hrefs, hused, fun hstrict => ?_⟩
  show c.invoked ++ [.mainLoop] = [.mainLoop]
  rw [hinvoked hstrict]
  rfl

theorem idleReturn (h : Describes strict (.calling false) v c) :
    Describes strict .delivered Stage.delivered.view c.unref := by
  obtain ⟨hused, hrefs⟩ := Cookie.unref_of_held h.refs
  have hview := h.view
  subst hview
  exact ⟨rfl, h.held, h.cancelled, fun _ => h.flags nofun, hrefs, hused.trans h.used, h.invoked⟩

end Stage.Describes

/-- What `ntb_crypto_cancel_task` does to its cookie. -/
def Cookie.afterCancel (c : Cookie) : Cookie :=
  let c' := if c.inQueue then c.unref else c
  { c'.use with cancelled := true, held := false }.unref

/-- The stage of a request that is cancelled: only the thread may still have it. -/
def Stage.afterCancel : Stage → Stage
  | .running _ => .running true
  | .returned _ => .returned true
  | _ => .withdrawn

namespace Stage.Describes

variable {strict : Prop} {st : Stage} {v : View} {c : Cookie}

theorem afterCancel (h : Describes strict st v c) (hheld : c.held = true)
    (hlocked : v.phase ≠ some .finishing) :
    Describes strict st.afterCancel st.afterCancel.view c.afterCancel := by
  have hstage : st.held = true := by rw [← h.held]; exact hheld
  have hview := h.view
  subst hview
  have hqueue : c.inQueue = st.view.queued := by
    apply (h.flags _).1
    rintro rfl
    cases hstage
  unfold Cookie.afterCancel
  dsimp only
  cases st with
  | queued =>
    -- first the reference of the queue, then the caller's
    rw [hqueue, if_pos (show Stage.queued.view.queued = true from rfl)]
    obtain ⟨hused₁, hrefs₁⟩ := Cookie.unref_of_held h.refs
    rw [Cookie.use_of_held hrefs₁]
    obtain ⟨hused₂, hrefs₂⟩ := Cookie.unref_of_held
      (c := { c.unref with cancelled := true, held := false }) hrefs₁
    exact ⟨rfl, rfl, rfl, fun hne => absurd rfl hne, hrefs₂,
      hused₂.trans (hused₁.trans h.used), h.invoked⟩
  | running cancelled =>
    obtain rfl : cancelled = false := by simpa [Stage.held] using hstage
    rw [hqueue, if_neg (by decide), Cookie.use_of_held h.refs]
    obtain ⟨hused, hrefs⟩ := Cookie.unref_of_held
      (c := { c with cancelled := true, held := false }) h.refs
    exact ⟨rfl, rfl, rfl, fun _ => h.flags nofun, hrefs, hused.trans h.used, h.invoked⟩
  | returned cancelled =>
    obtain rfl : cancelled = false := by simpa [Stage.held] using hstage
    rw [hqueue, if_neg (by decide), Cookie.use_of_held h.refs]
    obtain ⟨hused, hrefs⟩ := Cookie.unref_of_held
      (c := { c with cancelled := true, held := false }) h.refs
    exact ⟨rfl, rfl, rfl, fun _ => h.flags nofun, hrefs, hused.trans h.used, h.invoked⟩
  | announced finishing =>
    obtain rfl : finishing = false := by
      cases finishing with
      | true => exact absurd rfl hlocked
      | false => rfl
    rw [hqueue, if_neg (by decide), Cookie.use_of_held h.refs]
    obtain ⟨hused, hrefs⟩ := Cookie.unref_of_held
      (c := { c with cancelled := true, held := false }) h.refs
    exact ⟨rfl, rfl, rfl, fun hne => absurd rfl hne, hrefs, hused.trans h.used, h.invoked⟩
  | leaving => cases hstage
  | calling finishing => cases hstage
  | delivered => cases hstage
  | withdrawn => cases hstage

end Stage.Describes

/-! ## 5. All requests -/

structure Inv (strict : Prop) (s : State) : Prop where
  queue : s.queue.Nodup
  sources : s.sources.Nodup
  cookies : Fits (Alive strict) View.none s.view s.cookies

section Step

variable {strict : Prop} {s s' : State} {id : Nat} {c : Cookie}

-- A view from what it is made of.
theorem view_eq {v : View} (hqueue : id ∈ s.queue ↔ v.queued = true)
    (hphase : (s.thread.filter fun p => p.1 = id).map (·.2) = v.phase)
    (hsource : id ∈ s.sources ↔ v.source = true)
    (hcalling : s.calling = some id ↔ v.calling = true) : s.view id = v := by
  obtain ⟨queued, phase, source, calling⟩ := v
  simp only at hqueue hphase hsource hcalling
  unfold State.view
  rw [hphase]
  simp [hqueue, hsource, hcalling]

theorem Stage.Describes.at {st : Stage} (h : Describes strict st st.view c)
    (hqueue : id ∈ s.queue ↔ st.view.queued = true)
    (hphase : (s.thread.filter fun p => p.1 = id).map (·.2) = st.view.phase)
    (hsource : id ∈ s.sources ↔ st.view.source = true)
    (hcalling : s.calling = some id ↔ st.view.calling = true) :
    Describes strict st (s.view id) c := by
  rw [view_eq hqueue hphase hsource hcalling]
  exact h

-- A step that does not concern a request.
theorem view_congr (hqueue : id ∈ s'.queue ↔ id ∈ s.queue)
    (hphase : (s'.thread.filter fun p => p.1 = id).map (·.2) =
      (s.thread.filter fun p => p.1 = id).map (·.2))
    (hsource : id ∈ s'.sources ↔ id ∈ s.sources)
    (hcalling : s'.calling = some id ↔ s.calling = some id) : s'.view id = s.view id := by
  apply view_eq
  · rw [hqueue]
    simp [State.view]
  · exact hphase
  · rw [hsource]
    simp [State.view]
  · rw [hcalling]
    simp [State.view]

theorem phase_self (p : Phase) :
    ((some (id, p)).filter fun q : Nat × Phase => q.1 = id).map (·.2) = some p := by
  simp

theorem phase_of_ne {j : Nat} {p : Phase} (hj : j ≠ id) :
    ((some (id, p)).filter fun q : Nat × Phase => q.1 = j).map (·.2) = none := by
  have hj' : ¬ id = j := fun heq => hj heq.symm
  simp [hj']

theorem phase_other {j : Nat} (hj : j ≠ id) (p q : Phase) :
    ((some (id, p)).filter fun r : Nat × Phase => r.1 = j).map (·.2) =
      ((some (id, q)).filter fun r : Nat × Phase => r.1 = j).map (·.2) :=
  (phase_of_ne hj).trans (phase_of_ne hj).symm

-- A stage says where its request is.
theorem mem_of_view (st : Stage) (h : s.view id = st.view) :
    (id ∈ s.queue ↔ st.view.queued = true) ∧
      (s.thread.filter fun p => p.1 = id).map (·.2) = st.view.phase ∧
      (id ∈ s.sources ↔ st.view.source = true) ∧ (s.calling = some id ↔ st.view.calling = true) := by
  rw [← h]
  simp [State.view]

/-- The thread holds the lock only at the request it is finishing. -/
theorem unlocked_phase (h : s.unlocked = true) (id : Nat) :
    (s.view id).phase ≠ some .finishing := by
  intro hphase
  unfold State.unlocked at h
  cases hthread : s.thread with
  | none => simp [State.view, hthread] at hphase
  | some q =>
    obtain ⟨j, p⟩ := q
    rw [hthread] at h
    simp only [State.view, hthread] at hphase
    by_cases hj : j = id
    · subst hj
      rw [phase_self, Option.some.injEq] at hphase
      subst hphase
      cases h
    · rw [phase_of_ne (fun heq => hj heq.symm)] at hphase
      cases hphase

-- The request the thread is at.
theorem Inv.at_thread {p : Phase} (h : Inv strict s) (hthread : s.thread = some (id, p)) :
    ∃ c st, s.cookies[id]? = some c ∧ Stage.Describes strict st (s.view id) c ∧
      (s.view id).phase = some p := by
  have hphase : (s.view id).phase = some p := by simp [State.view, hthread]
  obtain ⟨c, hc⟩ := h.cookies.exists id (by
    intro hnone
    rw [hnone] at hphase
    cases hphase)
  obtain ⟨st, hst⟩ := h.cookies.get hc
  exact ⟨c, st, hc, hst, hphase⟩

theorem Inv.submit (h : Inv strict s) (kind : Kind) : Inv strict (submit s kind) := by
  have hnew := h.cookies.unused_length
  obtain ⟨hqueue, hphase, hsource, hcalling⟩ := mem_of_view .delivered hnew
  have hout : s.cookies.length ∉ s.queue := fun hin => nomatch hqueue.mp hin
  refine ⟨?_, h.sources, h.cookies.concat ?_ ⟨.queued, ?_⟩⟩
  · show (s.queue ++ [s.cookies.length]).Nodup
    rw [List.nodup_append]
    refine ⟨h.queue, List.nodup_singleton _, ?_⟩
    rintro a ha b hb rfl
    rw [List.mem_singleton] at hb
    subst hb
    exact hout ha
  · intro j hj
    refine view_congr ?_ rfl Iff.rfl Iff.rfl
    simp [Crypto.submit, hj]
  · refine (Stage.Describes.submitted strict kind).at ?_ ?_ ?_ ?_
    · simp [Crypto.submit, Stage.view]
    · exact hphase
    · exact hsource
    · exact hcalling

theorem Inv.take {rest : List Nat} (h : Inv strict s) (hthread : s.thread = none)
    (hqueue : s.queue = id :: rest) (hc : s.cookies[id]? = some c) :
    Inv strict (take s id rest c) := by
  obtain ⟨st, hst⟩ := h.cookies.get hc
  obtain rfl := hst.stage_of_queued (by simp [State.view, hqueue])
  obtain ⟨-, -, hsource, hcalling⟩ := mem_of_view _ hst.view
  have hnodup := h.queue
  rw [hqueue, List.nodup_cons] at hnodup
  unfold Crypto.take
  dsimp only
  rw [if_neg (by rw [hst.cancelled]; decide)]
  refine ⟨hnodup.2, h.sources, h.cookies.modify ?_ hc ⟨.running false, ?_⟩⟩
  · intro j hj
    refine view_congr ?_ ?_ Iff.rfl Iff.rfl
    · rw [hqueue]
      simp [State.setCookie, hj]
    · rw [phase_of_ne hj, hthread]
      rfl
  · refine hst.take.at ?_ (phase_self _) ?_ ?_
    · simp [State.setCookie, Stage.view, hnodup.1]
    · exact hsource
    · exact hcalling

theorem Inv.handle (h : Inv strict s) (hthread : s.thread = some (id, .running))
    (hkind : strict → ∀ c : Cookie, s.cookies[id]? = some c → c.kind ≠ .createKey) :
    Inv strict (handle s id) := by
  obtain ⟨c, st, hc, hst, hphase⟩ := h.at_thread hthread
  obtain ⟨cancelled, rfl⟩ := hst.stage_of_running hphase
  obtain ⟨hqueue, -, hsource, hcalling⟩ := mem_of_view _ hst.view
  refine ⟨h.queue, h.sources, h.cookies.modify ?_ hc ⟨.returned cancelled, ?_⟩⟩
  · intro j hj
    refine view_congr Iff.rfl ?_ Iff.rfl Iff.rfl
    rw [hthread]
    exact phase_other hj _ _
  · refine (hst.handle fun hstrict => hkind hstrict c hc).at ?_ (phase_self _) ?_ ?_
    · exact hqueue
    · exact hsource
    · exact hcalling

theorem Inv.announce (h : Inv strict s) (hthread : s.thread = some (id, .returned))
    (hc : s.cookies[id]? = some c) : Inv strict (announce s id c) := by
  obtain ⟨c', st, hc', hst, hphase⟩ := h.at_thread hthread
  rw [hc] at hc'
  obtain rfl := Option.some.inj hc'
  obtain ⟨cancelled, rfl⟩ := hst.stage_of_returned hphase
  obtain ⟨hqueue, -, hsource, hcalling⟩ := mem_of_view _ hst.view
  unfold Crypto.announce
  dsimp only
  rw [hst.cancelled]
  cases cancelled with
  | true =>
    rw [if_pos (show (Stage.returned true).isCancelled = true from rfl)]
    refine ⟨h.queue, h.sources, h.cookies.modify ?_ hc ⟨.leaving, ?_⟩⟩
    · intro j hj
      refine view_congr Iff.rfl ?_ Iff.rfl Iff.rfl
      rw [hthread]
      exact phase_other hj _ _
    · refine hst.announce_cancelled.at ?_ (phase_self _) ?_ ?_
      · exact hqueue
      · exact hsource
      · exact hcalling
  | false =>
    have hout : id ∉ s.sources := fun hin => nomatch hsource.mp hin
    rw [if_neg (show ¬ (Stage.returned false).isCancelled = true from nofun)]
    refine ⟨h.queue, ?_, h.cookies.modify ?_ hc ⟨.announced true, ?_⟩⟩
    · show (s.sources ++ [id]).Nodup
      rw [List.nodup_append]
      refine ⟨h.sources, List.nodup_singleton _, ?_⟩
      rintro a ha b hb rfl
      rw [List.mem_singleton] at hb
      subst hb
      exact hout ha
    · intro j hj
      refine view_congr Iff.rfl ?_ ?_ Iff.rfl
      · rw [hthread]
        exact phase_other hj _ _
      · simp [State.setCookie, hj]
    · refine hst.announce.at ?_ (phase_self _) ?_ ?_
      · exact hqueue
      · simp [State.setCookie, Stage.view]
      · exact hcalling

theorem Inv.finish (h : Inv strict s) (hthread : s.thread = some (id, .finishing)) :
    Inv strict { s.setCookie id Cookie.unref with thread := none } := by
  obtain ⟨c, st, hc, hst, hphase⟩ := h.at_thread hthread
  obtain ⟨hqueue, -, hsource, hcalling⟩ := mem_of_view _ hst.view
  have hafter := hst.finish hphase
  refine ⟨h.queue, h.sources, h.cookies.modify ?_ hc ⟨_, hafter.at ?_ ?_ ?_ ?_⟩⟩
  · intro j hj
    refine view_congr Iff.rfl ?_ Iff.rfl Iff.rfl
    rw [hthread, phase_of_ne hj]
    rfl
  all_goals
    rcases hst.stage_of_finishing hphase with rfl | rfl | rfl
  · exact hqueue
  · exact hqueue
  · exact hqueue
  · rfl
  · rfl
  · rfl
  · exact hsource
  · exact hsource
  · exact hsource
  · exact hcalling
  · exact hcalling
  · exact hcalling

theorem Inv.idleCb (h : Inv strict s) (hin : id ∈ s.sources) (hidle : s.calling = none) :
    Inv strict (idleCb s id) := by
  have hsourced : (s.view id).source = true := by simp [State.view, hin]
  obtain ⟨c, hc⟩ := h.cookies.exists id (by
    intro hnone
    rw [hnone] at hsourced
    cases hsourced)
  obtain ⟨st, hst⟩ := h.cookies.get hc
  obtain ⟨finishing, rfl⟩ := hst.stage_of_source hsourced (by simp [State.view, hidle])
  obtain ⟨hqueue, hphase, hsource, -⟩ := mem_of_view _ hst.view
  refine ⟨h.queue, h.sources, h.cookies.modify ?_ hc ⟨.calling finishing, hst.idleCb.at ?_ ?_ ?_ ?_⟩⟩
  · intro j hj
    have hj' : ¬ id = j := fun heq => hj heq.symm
    refine view_congr Iff.rfl rfl Iff.rfl ?_
    rw [hidle]
    simp [Crypto.idleCb, hj']
  · exact hqueue
  · exact hphase
  · exact hsource
  · simp [Crypto.idleCb, Stage.view]

theorem Inv.idleReturn (h : Inv strict s) (hcalling : s.calling = some id)
    (hunlocked : s.unlocked = true) : Inv strict (idleReturn s id) := by
  have hcalled : (s.view id).calling = true := by simp [State.view, hcalling]
  obtain ⟨c, hc⟩ := h.cookies.exists id (by
    intro hnone
    rw [hnone] at hcalled
    cases hcalled)
  obtain ⟨st, hst⟩ := h.cookies.get hc
  obtain ⟨finishing, rfl⟩ := hst.stage_of_calling hcalled
  -- the thread has let go of the request, for it does not have the lock
  obtain rfl : finishing = false := by
    cases finishing with
    | false => rfl
    | true =>
      have hphase := unlocked_phase hunlocked id
      rw [hst.view] at hphase
      exact absurd rfl hphase
  obtain ⟨hqueue, hphase, -, -⟩ := mem_of_view _ hst.view
  refine ⟨h.queue, h.sources.erase id, h.cookies.modify ?_ hc
    ⟨.delivered, hst.idleReturn.at ?_ ?_ ?_ ?_⟩⟩
  · intro j hj
    have hj' : ¬ id = j := fun heq => hj heq.symm
    refine view_congr Iff.rfl rfl ?_ ?_
    · exact List.mem_erase_of_ne hj
    · rw [hcalling]
      simp [Crypto.idleReturn, hj']
  · exact hqueue
  · exact hphase
  · simp [Crypto.idleReturn, Stage.view, View.none, h.sources.mem_erase_iff]
  · simp [Crypto.idleReturn, Stage.view, View.none]

-- What `ntb_crypto_cancel_task` does to the lists.
theorem cancelTask_lists (s : State) (id : Nat) (c : Cookie) :
    (cancelTask s id c).queue = (if c.inQueue then s.queue.erase id else s.queue) ∧
      (cancelTask s id c).sources = (if c.idleSource then s.sources.erase id else s.sources) ∧
      (cancelTask s id c).thread = s.thread ∧ (cancelTask s id c).calling = s.calling := by
  unfold cancelTask State.setCookie
  dsimp only
  split_ifs <;> exact ⟨rfl, rfl, rfl, rfl⟩

theorem cancelTask_cookies (hc : s.cookies[id]? = some c) (j : Nat) :
    (cancelTask s id c).cookies[j]? = if j = id then some c.afterCancel else s.cookies[j]? := by
  unfold cancelTask State.setCookie Cookie.afterCancel
  dsimp only
  by_cases hj : j = id
  · subst hj
    rw [if_pos rfl]
    split_ifs <;> simp [hc]
  · have hj' : ¬ id = j := fun heq => hj heq.symm
    rw [if_neg hj]
    split_ifs <;> simp [hj']

theorem Inv.cancelTask (h : Inv strict s) (hc : s.cookies[id]? = some c) (hheld : c.held = true)
    (hunlocked : s.unlocked = true) : Inv strict (cancelTask s id c) := by
  obtain ⟨hqueue', hsources', hthread', hcalling'⟩ := cancelTask_lists s id c
  obtain ⟨st, hst⟩ := h.cookies.get hc
  have hafter := hst.afterCancel hheld (unlocked_phase hunlocked id)
  have hstage : st.held = true := by rw [← hst.held]; exact hheld
  obtain ⟨hqueue, hphase, hsource, hcalling⟩ := mem_of_view _ hst.view
  obtain ⟨hflag, hpointer⟩ := hst.flags (by
    rintro rfl
    cases hstage)
  -- the two flags of the cookie say where it is, so that it is in neither list afterwards
  have hqueueMem : ∀ j, j ∈ (Crypto.cancelTask s id c).queue ↔ j ≠ id ∧ j ∈ s.queue := by
    rw [hqueue']
    apply mem_erase_if h.queue
    intro hin
    rw [hflag, hst.view]
    exact hqueue.mp hin
  have hsourceMem : ∀ j, j ∈ (Crypto.cancelTask s id c).sources ↔ j ≠ id ∧ j ∈ s.sources := by
    rw [hsources']
    apply mem_erase_if h.sources
    intro hin
    rw [hpointer]
    cases st with
    | announced finishing => rfl
    | calling finishing => rfl
    | _ => cases hsource.mp hin
  refine ⟨?_, ?_, h.cookies.of_one id (c := c.afterCancel) ?_ ?_ ⟨_, hafter.at ?_ ?_ ?_ ?_⟩⟩
  · rw [hqueue']
    exact nodup_erase_if h.queue id
  · rw [hsources']
    exact nodup_erase_if h.sources id
  · intro j hj
    refine ⟨view_congr ?_ ?_ ?_ ?_, ?_⟩
    · rw [hqueueMem]
      simp [hj]
    · rw [hthread']
    · rw [hsourceMem]
      simp [hj]
    · rw [hcalling']
    · rw [cancelTask_cookies hc, if_neg hj]
  · rw [cancelTask_cookies hc, if_pos rfl]
  · rw [hqueueMem]
    cases st <;> simp [Stage.afterCancel, Stage.view, View.none]
  · -- the lock is free, so that the thread is not at the end of its round with the request
    rw [hthread', hphase]
    have hlocked := unlocked_phase hunlocked id
    rw [hst.view] at hlocked
    cases st with
    | queued => rfl
    | running cancelled => rfl
    | returned cancelled => rfl
    | announced finishing =>
      cases finishing with
      | true => exact absurd rfl hlocked
      | false => rfl
    | leaving => cases hstage
    | calling finishing => cases hstage
    | delivered => cases hstage
    | withdrawn => cases hstage
  · rw [hsourceMem]
    cases st <;> simp [Stage.afterCancel, Stage.view, View.none]
  · rw [hcalling', hcalling]
    cases st with
    | calling finishing => cases hstage
    | _ => exact Iff.rfl

theorem Inv.step {e : Event} (h : Inv strict s) (hok : strict → e.Harmless s)
    (hs : step s e = some s') : Inv strict s' := by
  cases e with
  | submit kind =>
    simp only [Crypto.step] at hs
    split_ifs at hs
    cases hs
    exact h.submit kind
  | cancel id =>
    simp only [Crypto.step] at hs
    split at hs
    · next c hc =>
      split_ifs at hs with hcan
      cases hs
      rw [Bool.and_eq_true] at hcan
      exact h.cancelTask hc hcan.1 hcan.2
    · cases hs
  | thread =>
    simp only [Crypto.step, threadStep] at hs
    split at hs
    · next hthread =>
      split at hs
      · cases hs
      · next id rest hqueue =>
        obtain ⟨c, hc, rfl⟩ := Option.map_eq_some_iff.mp hs
        exact h.take hthread hqueue hc
    · next id hthread =>
      cases hs
      exact h.handle hthread fun hstrict c hc => hok hstrict id c hthread hc
    · next id hthread =>
      obtain ⟨c, hc, rfl⟩ := Option.map_eq_some_iff.mp hs
      exact h.announce hthread hc
    · next id hthread =>
      cases hs
      exact h.finish hthread
  | idle id =>
    simp only [Crypto.step] at hs
    split_ifs at hs with hcan
    cases hs
    exact h.idleCb hcan.1 hcan.2
  | idleReturn =>
    simp only [Crypto.step] at hs
    split at hs
    · next id hcalling =>
      split_ifs at hs with hunlocked
      cases hs
      exact h.idleReturn hcalling hunlocked
    · cases hs

theorem inv_init (strict : Prop) : Inv strict State.init where
  queue := List.nodup_nil
  sources := List.nodup_nil
  cookies := Fits.nil fun id => by simp [State.view, State.init, View.none]

end Step

/-! ## 6. Every request is answered once, unless the thread answers it -/

section Answers

variable {s s' : State} {id : Nat} {c : Cookie} {st : Stage}

theorem thread_eq_iff (p : Phase) : s.thread = some (id, p) ↔
    (s.thread.filter fun q => q.1 = id).map (·.2) = some p := by
  cases hthread : s.thread with
  | none => simp
  | some q =>
    obtain ⟨j, p'⟩ := q
    by_cases hj : j = id
    · subst hj
      simp
    · rw [phase_of_ne fun heq => hj heq.symm]
      simp [hj]

/-- The stages before the callback. -/
def Stage.pending : Stage → Bool
  | .queued | .running _ | .returned _ | .announced _ => true
  | _ => false

theorem pending_iff (hview : s.view id = st.view) : s.Pending id ↔ st.pending = true := by
  obtain ⟨hqueue, hphase, hsource, hcalling⟩ := mem_of_view _ hview
  unfold State.Pending
  rw [thread_eq_iff, thread_eq_iff, hqueue, hphase, hsource, ne_eq, hcalling]
  cases st with
  | announced finishing => cases finishing <;> simp [Stage.view, Stage.pending]
  | calling finishing => cases finishing <;> simp [Stage.view, Stage.pending]
  | _ => simp [Stage.view, Stage.pending, View.none]

theorem inUse_iff (hview : s.view id = st.view) : s.InUse id ↔ 0 < st.holders := by
  obtain ⟨hqueue, hphase, hsource, -⟩ := mem_of_view _ hview
  unfold State.InUse
  simp only [thread_eq_iff]
  rw [hqueue, hphase, hsource]
  cases st with
  | running cancelled => cases cancelled <;> simp [Stage.view, Stage.holders]
  | returned cancelled => cases cancelled <;> simp [Stage.view, Stage.holders]
  | announced finishing => cases finishing <;> simp [Stage.view, Stage.holders]
  | calling finishing => cases finishing <;> simp [Stage.view, Stage.holders]
  | _ => simp [Stage.view, Stage.holders, View.none]

theorem Inv.sound (h : Inv True s) : Sound s := by
  intro id c hc
  obtain ⟨st, hst⟩ := h.cookies.get hc
  have hinvoked := hst.invoked trivial
  refine ⟨?_, ?_, ?_, ?_, hst.used⟩
  · rw [hinvoked]
    cases st <;> simp [Stage.invoked]
  · intro hcancelled
    rw [hst.cancelled] at hcancelled
    rw [hinvoked]
    cases st <;> first | rfl | cases hcancelled
  · intro hcancelled
    rw [hst.cancelled] at hcancelled
    simp only [hinvoked, pending_iff hst.view]
    cases st <;> first | rfl | cases hcancelled
  · have hfrees := hst.refs.frees
    simp only [inUse_iff hst.view]
    by_cases hheld : 0 < st.holders
    · rw [if_pos hheld, hfrees, if_neg (by omega)]
    · rw [if_neg hheld, hfrees, if_pos (by omega)]

/-- The handler of a key generation calls back from the thread. -/
theorem not_sound_of_not_harmless {e : Event} (hbad : ¬ e.Harmless s)
    (hs : step s e = some s') : ¬ Sound s' := by
  cases e with
  | thread =>
    simp only [Event.Harmless, not_forall, not_not] at hbad
    obtain ⟨id, c, hthread, hc, hkind⟩ := hbad
    simp only [step, threadStep, hthread, Option.some.injEq] at hs
    subst hs
    intro hsound
    have hc' : (handle s id).cookies[id]? =
        some { c.use with invoked := c.invoked ++ [.thread] } := by
      show (s.cookies.modify id _)[id]? = _
      rw [List.getElem?_modify_eq, hc]
      simp [hkind]
    have hmain := (hsound id _ hc').mainLoop .thread (by simp)
    cases hmain
  | _ => exact absurd trivial hbad

/-- The steps that nobody has to ask for. -/
def Event.Internal : Event → Prop
  | .thread | .idle _ | .idleReturn => True
  | _ => False

/-- How much there is left to do. -/
def State.work (s : State) : Nat :=
  7 * s.queue.length +
    (match s.thread with
      | none => 0
      | some (_, .running) => 6
      | some (_, .returned) => 5
      | some (_, .finishing) => 1) +
    3 * s.sources.length + (if s.calling = none then 1 else 0)

/-- As long as some request is in use, the thread or the main loop has something to do. -/
theorem Inv.exists_step (h : Inv False s) (hused : ∃ id, s.InUse id) :
    ∃ (e : Event) (s' : State), e.Internal ∧ Crypto.step s e = some s' ∧ s'.work < s.work := by
  cases hthread : s.thread with
  | some q =>
    obtain ⟨id, p⟩ := q
    obtain ⟨c, st, hc, hst, hphase⟩ := h.at_thread hthread
    cases p with
    | running =>
      refine ⟨.thread, Crypto.handle s id, trivial, by simp [Crypto.step, threadStep, hthread], ?_⟩
      simp [State.work, Crypto.handle, State.setCookie, hthread]
    | returned =>
      refine ⟨.thread, Crypto.announce s id c, trivial,
        by simp [Crypto.step, threadStep, hthread, hc], ?_⟩
      unfold Crypto.announce State.setCookie State.work
      dsimp only
      rw [hthread]
      split
      · simp
      · simp
        omega
    | finishing =>
      refine ⟨.thread, { s.setCookie id Cookie.unref with thread := none }, trivial,
        by simp [Crypto.step, threadStep, hthread], ?_⟩
      simp [State.work, State.setCookie, hthread]
  | none =>
    cases hqueue : s.queue with
    | cons id rest =>
      obtain ⟨c, hc⟩ := h.cookies.exists id (by
        intro hnone
        have hqueued := congrArg View.queued hnone
        simp [State.view, View.none, hqueue] at hqueued)
      refine ⟨.thread, Crypto.take s id rest c, trivial,
        by simp [Crypto.step, threadStep, hthread, hqueue, hc], ?_⟩
      unfold Crypto.take State.setCookie State.work
      dsimp only
      rw [hthread, hqueue]
      split <;> simp <;> omega
    | nil =>
      -- what is left is in the main loop
      obtain ⟨id, hid⟩ := hused
      have hin : id ∈ s.sources := by
        rcases hid with hid | ⟨p, hid⟩ | hid
        · rw [hqueue] at hid
          cases hid
        · rw [hthread] at hid
          cases hid
        · exact hid
      cases hcalling : s.calling with
      | none =>
        refine ⟨.idle id, Crypto.idleCb s id, trivial, by simp [Crypto.step, hin, hcalling], ?_⟩
        simp [State.work, Crypto.idleCb, State.setCookie, hcalling]
      | some j =>
        have hunlocked : s.unlocked = true := by rw [State.unlocked, hthread]
        have hsourced : j ∈ s.sources := by
          have hcalled : (s.view j).calling = true := by simp [State.view, hcalling]
          obtain ⟨c, hc⟩ := h.cookies.exists j (by
            intro hnone
            rw [hnone] at hcalled
            cases hcalled)
          obtain ⟨st, hst⟩ := h.cookies.get hc
          obtain ⟨finishing, rfl⟩ := hst.stage_of_calling hcalled
          exact (mem_of_view _ hst.view).2.2.1.mpr rfl
        have hlength := List.length_erase_of_mem hsourced
        have hpos := List.length_pos_of_mem hsourced
        refine ⟨.idleReturn, Crypto.idleReturn s j, trivial,
          by simp [Crypto.step, hcalling, hunlocked], ?_⟩
        simp [State.work, Crypto.idleReturn, State.setCookie, hcalling, hlength]
        omega

-- The thread and the main loop bring every request to its end.
theorem Inv.drain (h : Inv False s) :
    ∃ rest, (∀ e ∈ rest, Event.Internal e) ∧ ∀ id, ¬ (run Crypto.step s rest).InUse id := by
  induction hwork : s.work using Nat.strong_induction_on generalizing s with
  | _ work ih =>
    by_cases hused : ∃ id, s.InUse id
    · obtain ⟨e, s', hinternal, hs, hless⟩ := h.exists_step hused
      obtain ⟨rest, hrest, hdone⟩ := ih s'.work (by omega) (h.step (fun hfalse => hfalse.elim) hs) rfl
      refine ⟨e :: rest, ?_, ?_⟩
      · rintro e' (_ | ⟨_, hmem⟩)
        · exact hinternal
        · exact hrest e' hmem
      · rw [run_cons, next_of_some hs]
        exact hdone
    · rw [not_exists] at hused
      exact ⟨[], nofun, hused⟩

/-- Every callback comes once and from the main loop, and every cookie is freed once and in time, in
all states of a run, exactly if the thread never runs `handle_create_key` in it; and whatever has
happened, the thread and the main loop can bring every request to its end. -/
theorem requests_sound_iff (events : List Event) :
    ((∀ pre, pre <+: events → Sound (run step State.init pre)) ↔
        Along step (fun s e => e.Harmless s) State.init events) ∧
      ∃ rest, (∀ e ∈ rest, Event.Internal e) ∧
        ∀ id, ¬ (run step State.init (events ++ rest)).InUse id := by
  constructor
  · exact always_iff_along (fun _ h => h.sound) (fun _ _ _ h hok hs => h.step (fun _ => hok) hs)
      (fun _ _ _ _ hbad hs => not_sound_of_not_harmless hbad hs) (inv_init True) events
  · have hinv : Inv False (run step State.init events) :=
      invariant (fun _ _ _ h hs => h.step (fun hfalse => hfalse.elim) hs) (inv_init False) events
    obtain ⟨rest, hrest, hdone⟩ := hinv.drain
    exact ⟨rest, hrest, by rw [run_append]; exact hdone⟩

/-- A key generation that runs through the thread and the main loop. -/
def generatedKey : List Event :=
  [.submit .createKey, .thread, .thread, .thread, .thread, .idle 0, .idleReturn]

/-- Its callback is invoked twice, the first time from the thread. -/
theorem generatedKey_not_sound :
    ((run step State.init generatedKey).cookies.map (·.invoked)) = [[.thread, .mainLoop]] ∧
      ¬ Sound (run step State.init generatedKey) := by
  have hcookies : (run step State.init generatedKey).cookies = [{
      kind := .createKey, refCount := 0, inQueue := false, idleSource := true, cancelled := false
      held := false, invoked := [.thread, .mainLoop], frees := 1, usedFreed := false }] := by
    decide +kernel
  refine ⟨by rw [hcookies]; rfl, fun hsound => ?_⟩
  have hmain := (hsound 0 _ (by rw [hcookies]; rfl)).mainLoop .thread (by simp)
  cases hmain

end Answers

end Notbit.Crypto
