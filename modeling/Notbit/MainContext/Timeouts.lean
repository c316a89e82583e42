import Notbit.MainContext.Passes

/-!
# Timeouts — how long the main loop waits and when it calls a timer (`ntb-main-context.c`)

The main loop counts whole minutes from `last_timer_time`, which moves on by whole minutes only.  The
minutes of a bucket and this time together name the moment that the period of the bucket counts from:
a pass that charges the minutes leaves it where it is, and a pass that calls the bucket moves it to
the last minute that is full.  A new bucket counts from `last_timer_time` as it is, however old.
-/

open Runs

namespace Notbit.MainContext

/-! ## 1. The wait -/

/-- The microseconds of a minute. -/
def minute : Int := 60000000

/-- The values of an `int`. -/
def FitsInt (z : Int) : Prop := -2 ^ 31 ≤ z ∧ z < 2 ^ 31

instance (z : Int) : Decidable (FitsInt z) := inferInstanceAs (Decidable (_ ∧ _))

/-- The loop of `get_timeout`.  There is no result when an `int` overflows. -/
def minMinutes (least : Int) : List Bucket → Option Int
  | [] => some least
  | b :: bs =>
    let minutesToWait := b.minutes - b.minutesPassed
    if FitsInt minutesToWait then
      minMinutes (if minutesToWait < least then minutesToWait else least) bs
    else none

/-- `get_timeout`, in milliseconds -/
def getTimeout (t : Timers) (idle : Bool) (lastTimerTime now : Int) : Option Int :=
  if idle then some 0
  else if t.buckets = [] then some (-1)
  else
    (minMinutes (2 ^ 31 - 1) t.buckets).bind fun minMinutes =>
      let elapsed := now - lastTimerTime
      let elapsedMinutes := elapsed.tdiv minute
      if elapsedMinutes ≥ minMinutes then some 0
      else
        let left := minMinutes - elapsedMinutes
        let wait := 60000 - (elapsed.tdiv 1000).tmod 60000 + (left - 1) * 60000
        if FitsInt elapsedMinutes ∧ FitsInt left ∧ FitsInt (left - 1) ∧ FitsInt ((left - 1) * 60000) ∧
            FitsInt wait then some wait
        else none

/-- A bucket has been charged less than its period, or nothing. -/
def Timers.Counted (t : Timers) : Prop :=
  ∀ b ∈ t.buckets, 0 ≤ b.minutesPassed ∧ (b.minutesPassed < b.minutes ∨ b.minutesPassed = 0)

section Wait

variable {t : Timers} {b : Bucket} {bs : List Bucket} {least lastTimerTime now : Int}

theorem minMinutes_spec (h : ∀ b ∈ bs, FitsInt (b.minutes - b.minutesPassed)) :
    ∃ m, minMinutes least bs = some m ∧ m ≤ least ∧
      (∀ b ∈ bs, m ≤ b.minutes - b.minutesPassed) ∧
        (m = least ∨ ∃ b ∈ bs, m = b.minutes - b.minutesPassed) := by
  induction bs generalizing least with
  | nil => exact ⟨least, rfl, le_rfl, by simp, .inl rfl⟩
  | cons b bs ih =>
    rw [List.forall_mem_cons] at h
    rw [minMinutes, if_pos h.1]
    by_cases hlt : b.minutes - b.minutesPassed < least
    · rw [if_pos hlt]
      obtain ⟨m, hm, hle, hall, hattained⟩ := @ih (b.minutes - b.minutesPassed) h.2
      refine ⟨m, hm, by omega, List.forall_mem_cons.mpr ⟨hle, hall⟩, .inr ?_⟩
      rcases hattained with rfl | ⟨b', hb', rfl⟩
      · exact ⟨b, List.mem_cons_self, rfl⟩
      · exact ⟨b', List.mem_cons_of_mem b hb', rfl⟩
    · rw [if_neg hlt]
      obtain ⟨m, hm, hle, hall, hattained⟩ := @ih least h.2
      refine ⟨m, hm, hle, List.forall_mem_cons.mpr ⟨by omega, hall⟩, ?_⟩
      rcases hattained with rfl | ⟨b', hb', rfl⟩
      · exact .inl rfl
      · exact .inr ⟨b', List.mem_cons_of_mem b hb', rfl⟩

/-- The wait ends when the period of some bucket does, to the millisecond. -/
theorem getTimeout_spec (hne : t.buckets ≠ []) (hcounted : t.Counted)
    (hperiods : ∀ b ∈ t.buckets, -2 ^ 31 ≤ b.minutes ∧ b.minutes ≤ 35791)
    (hnow : lastTimerTime ≤ now) :
    ∃ wait, getTimeout t false lastTimerTime now = some wait ∧ 0 ≤ wait ∧
      ∃ b ∈ t.buckets,
        lastTimerTime + (b.minutes - b.minutesPassed) * minute ≤ now + 1000 * wait := by
  have hfits : ∀ b ∈ t.buckets, FitsInt (b.minutes - b.minutesPassed) := by
    intro b hb
    have hperiod := hperiods b hb
    have hcount := hcounted b hb
    unfold FitsInt
    omega
  obtain ⟨m, hm, -, hall, hattained⟩ := @minMinutes_spec _ (2 ^ 31 - 1) hfits
  obtain ⟨b, hb, hleast⟩ : ∃ b ∈ t.buckets, m = b.minutes - b.minutesPassed := by
    rcases hattained with rfl | hfound
    · obtain ⟨b, bs, hcons⟩ := List.exists_cons_of_ne_nil hne
      have hb : b ∈ t.buckets := hcons ▸ List.mem_cons_self
      have hsmall := hall b hb
      have hperiod := hperiods b hb
      have hcount := hcounted b hb
      omega
    · exact hfound
  have hperiod := hperiods b hb
  have hcount := hcounted b hb
  have helapsed : (now - lastTimerTime).tdiv minute = (now - lastTimerTime) / 60000000 :=
    Int.tdiv_eq_ediv_of_nonneg (by omega)
  have hmilli : ((now - lastTimerTime).tdiv 1000).tmod 60000 =
      (now - lastTimerTime) / 1000 % 60000 := by
    rw [Int.tdiv_eq_ediv_of_nonneg (by omega), Int.tmod_eq_emod_of_nonneg (by omega)]
  unfold getTimeout
  rw [if_neg Bool.false_ne_true, if_neg hne, hm, Option.bind_some]
  simp only [helapsed, hmilli]
  by_cases hover : (now - lastTimerTime) / 60000000 ≥ m
  · rw [if_pos hover]
    refine ⟨0, rfl, le_rfl, b, hb, ?_⟩
    unfold minute
    omega
  · rw [if_neg hover, if_pos]
    · refine ⟨_, rfl, by omega, b, hb, ?_⟩
      unfold minute
      omega
    · unfold FitsInt
      omega

end Wait

/-! ## 2. The main context on its clock -/

/-- `struct ntb_main_context`, of which timers need these.  `monotonicTime` is what the clock said at
last. -/
structure TimerContext where
  timers : Timers := Timers.new
  lastTimerTime : Int
  monotonicTime : Int

/-- What happens to the main context, each at its time on the clock.  A pass of
`ntb_main_context_poll` runs the callbacks of the poll sources, of the timers and of the idle sources;
it does nothing when the poll was interrupted. -/
inductive TimerEvent where
  | outside (now : Int) (ops : List TimerOp)
  | interrupted (now : Int)
  | poll (now : Int) (polled : List TimerOp) (effects : List (List TimerOp)) (idle : List TimerOp)

/-- A call of a timer in a pass. -/
structure TimedCall where
  time : Int
  bucket : Nat
  source : Nat
  deriving DecidableEq, Repr

namespace TimerContext

/-- `ntb_main_context_new` -/
def new (now : Int) : TimerContext := { lastTimerTime := now, monotonicTime := now }

def perform (c : TimerContext) (now : Int) (ops : List TimerOp) : TimerContext :=
  { c with timers := ops.foldl Timers.perform c.timers, monotonicTime := now }

/-- The minutes that `check_timer_sources` finds to have passed. -/
def elapsedMinutes (c : TimerContext) : Int := (c.monotonicTime - c.lastTimerTime).tdiv minute

/-- `check_timer_sources` with all that its callbacks do. -/
def checkTimers (c : TimerContext) (effects : List (List TimerOp)) :
    Option (TimerContext × List Calling) :=
  (runCallbacks (checkTimerSources c.timers c.elapsedMinutes) effects).map fun r =>
    ({ c with
        timers := r.1
        lastTimerTime :=
          if c.timers.buckets = [] then c.lastTimerTime
          else c.lastTimerTime + c.elapsedMinutes * minute }, r.2)

/-- An event: the context behind it and the timers that it has called.  The clock does not go back. -/
def handle (c : TimerContext) : TimerEvent → Option (TimerContext × List Calling)
  | .outside now ops => if c.monotonicTime ≤ now then some (c.perform now ops, []) else none
  | .interrupted now => if c.monotonicTime ≤ now then some (c.perform now [], []) else none
  | .poll now polled effects idle =>
    if c.monotonicTime ≤ now then
      ((c.perform now polled).checkTimers effects).map fun r => (r.1.perform now idle, r.2)
    else none

def step (c : TimerContext) (e : TimerEvent) : Option TimerContext := (c.handle e).map Prod.fst

def calls (c : TimerContext) (e : TimerEvent) : List TimedCall :=
  match c.handle e with
  | some r => r.2.map fun call =>
    { time := r.1.monotonicTime, bucket := call.bucket, source := call.source }
  | none => []

/-- What is true of every context: `last_timer_time` is a whole number of minutes behind the start. -/
structure Sound (start : Int) (c : TimerContext) : Prop where
  ordered : c.timers.Ordered
  counted : c.timers.Counted
  grid : ∃ n, c.lastTimerTime = start + n * minute
  reached : c.lastTimerTime ≤ c.monotonicTime

section Sound

variable {start now : Int} {c c' : TimerContext} {e : TimerEvent} {effects : List (List TimerOp)}
  {r : TimerContext × List Calling}

theorem sound_new (start : Int) : Sound start (new start) where
  ordered := ⟨.nil, by simp [new], by simp [new]⟩
  counted := by simp [new, Timers.Counted]
  grid := ⟨0, by simp [new]⟩
  reached := le_rfl

theorem counted_of_charged {f : Bucket → Int} {t t' : Timers} (h : Charged f t t')
    (hf : ∀ b ∈ t.buckets, 0 ≤ f b ∧ (f b < b.minutes ∨ f b = 0)) : t'.Counted := by
  intro b' hb'
  by_cases hid : b'.id < t.nextId
  · obtain ⟨b, hb, -, hminutes, hpassed⟩ := h.old b' hb' hid
    rw [hpassed, ← hminutes]
    exact hf b hb
  · have hzero := h.new b' hb' (by omega)
    omega

theorem Sound.perform (h : Sound start c) (hnow : c.monotonicTime ≤ now) (ops : List TimerOp) :
    Sound start (c.perform now ops) where
  ordered := h.ordered.foldl ops
  counted := counted_of_charged ((Charged.refl c.timers).foldl ops) h.counted
  grid := h.grid
  reached := h.reached.trans hnow

theorem Sound.elapsedMinutes_spec (h : Sound start c) :
    0 ≤ c.elapsedMinutes ∧ c.lastTimerTime + c.elapsedMinutes * minute ≤ c.monotonicTime ∧
      c.monotonicTime < c.lastTimerTime + (c.elapsedMinutes + 1) * minute := by
  have hreached := h.reached
  unfold elapsedMinutes
  rw [Int.tdiv_eq_ediv_of_nonneg (by omega)]
  unfold minute
  omega

theorem checkTimers_eq_some (h : c.checkTimers effects = some r) :
    runCallbacks (checkTimerSources c.timers c.elapsedMinutes) effects = some (r.1.timers, r.2) ∧
      r.1.monotonicTime = c.monotonicTime ∧
        r.1.lastTimerTime = if c.timers.buckets = [] then c.lastTimerTime
          else c.lastTimerTime + c.elapsedMinutes * minute := by
  obtain ⟨r', hr', rfl⟩ := Option.map_eq_some_iff.mp h
  exact ⟨hr', rfl, rfl⟩

-- The pass as it charges and calls the buckets.
theorem Sound.passed (h : Sound start c) (hcheck : c.checkTimers effects = some r) :
    Passed c.timers c.elapsedMinutes r.1.timers r.2 :=
  passed_of_runCallbacks h.ordered h.elapsedMinutes_spec.1 (checkTimers_eq_some hcheck).1

theorem Sound.checkTimers (h : Sound start c) (hcheck : c.checkTimers effects = some r) :
    Sound start r.1 := by
  obtain ⟨hnonneg, hle, hlt⟩ := h.elapsedMinutes_spec
  obtain ⟨-, hnow, hlast⟩ := checkTimers_eq_some hcheck
  have hpassed := h.passed hcheck
  obtain ⟨n, hn⟩ := h.grid
  have hreached := h.reached
  constructor
  · exact hpassed.ordered
  · apply counted_of_charged hpassed.charged
    intro b hb
    have hcount := h.counted b hb
    unfold Bucket.after
    by_cases hdue : b.Due c.elapsedMinutes
    · rw [if_pos hdue]
      exact ⟨le_rfl, .inr rfl⟩
    · rw [if_neg hdue]
      rw [Bucket.Due, not_and_or] at hdue
      omega
  · rw [hlast]
    split
    · exact ⟨n, hn⟩
    · exact ⟨n + c.elapsedMinutes, by rw [hn]; ring⟩
  · rw [hlast, hnow]
    split
    · exact hreached
    · exact hle

/-- An event does something to the timers and calls none, or it is a pass: something before the
check, the check and something after it. -/
theorem handle_cases (h : c.handle e = some r) :
    (∃ now ops, (e = .outside now ops ∨ e = .interrupted now ∧ ops = []) ∧ c.monotonicTime ≤ now ∧
      r = (c.perform now ops, [])) ∨
    ∃ now polled effects idle r', e = .poll now polled effects idle ∧ c.monotonicTime ≤ now ∧
      (c.perform now polled).checkTimers effects = some r' ∧ r = (r'.1.perform now idle, r'.2) := by
  cases e with
  | outside now ops =>
    rw [handle] at h
    split at h
    · rename_i hnow
      exact .inl ⟨now, ops, .inl rfl, hnow, (Option.some.inj h).symm⟩
    · exact absurd h nofun
  | interrupted now =>
    rw [handle] at h
    split at h
    · rename_i hnow
      exact .inl ⟨now, [], .inr ⟨rfl, rfl⟩, hnow, (Option.some.inj h).symm⟩
    · exact absurd h nofun
  | poll now polled effects idle =>
    rw [handle] at h
    split at h
    · rename_i hnow
      obtain ⟨r', hr', rfl⟩ := Option.map_eq_some_iff.mp h
      exact .inr ⟨now, polled, effects, idle, r', rfl, hnow, hr', rfl⟩
    · exact absurd h nofun

theorem handle_poll {polled idle : List TimerOp}
    (h : c.handle (.poll now polled effects idle) = some r) :
    c.monotonicTime ≤ now ∧ ∃ r', (c.perform now polled).checkTimers effects = some r' ∧
      r = (r'.1.perform now idle, r'.2) := by
  rcases handle_cases h with ⟨_, _, heq, -⟩ | ⟨_, _, _, _, r', heq, hnow, hr', rfl⟩
  · rcases heq with heq | ⟨heq, -⟩ <;> exact absurd heq nofun
  · obtain ⟨rfl, rfl, rfl, rfl⟩ := TimerEvent.poll.inj heq
    exact ⟨hnow, r', hr', rfl⟩

theorem Sound.handle (h : Sound start c) (hhandle : c.handle e = some r) : Sound start r.1 := by
  rcases handle_cases hhandle with
    ⟨now, ops, -, hnow, rfl⟩ | ⟨now, polled, effects, idle, r', -, hnow, hr', rfl⟩
  · exact h.perform hnow ops
  · have hsame := (checkTimers_eq_some hr').2.1
    exact ((h.perform hnow polled).checkTimers hr').perform (le_of_eq hsame) idle

theorem monotonicTime_le_handle (h : c.handle e = some r) :
    c.monotonicTime ≤ r.1.monotonicTime := by
  rcases handle_cases h with
    ⟨now, ops, -, hnow, rfl⟩ | ⟨now, polled, effects, idle, r', -, hnow, -, rfl⟩
  · exact hnow
  · exact hnow

theorem step_eq_some (h : c.step e = some c') : ∃ r, c.handle e = some r ∧ r.1 = c' :=
  Option.map_eq_some_iff.mp h

theorem Sound.step (h : Sound start c) (hstep : c.step e = some c') : Sound start c' := by
  obtain ⟨r, hr, rfl⟩ := step_eq_some hstep
  exact h.handle hr

theorem sound_run (start : Int) (es : List TimerEvent) : Sound start (run step (new start) es) :=
  invariant (fun _ _ _ h hstep => h.step hstep) (sound_new start) es

-- A pass that finds a bucket moves `last_timer_time` to the last full minute.
theorem Sound.boundary (h : Sound start c) (hcheck : c.checkTimers effects = some r)
    (hne : c.timers.buckets ≠ []) :
    r.1.lastTimerTime = start + (c.monotonicTime - start) / minute * minute ∧
      c.monotonicTime < r.1.lastTimerTime + minute := by
  obtain ⟨-, hle, hlt⟩ := h.elapsedMinutes_spec
  obtain ⟨n, hn⟩ := h.grid
  rw [(checkTimers_eq_some hcheck).2.2, if_neg hne]
  unfold minute at *
  omega

end Sound

/-! ## 3. The moment that a period counts from -/

/-- The minutes of the bucket count from this moment, if it is still there. -/
structure CountsFrom (bucket : Nat) (base : Int) (c : TimerContext) : Prop where
  made : bucket < c.timers.nextId
  counts : ∀ b ∈ c.timers.buckets, b.id = bucket → c.lastTimerTime - b.minutesPassed * minute = base

/-- The bucket has been called, or its minutes still count from this moment. -/
def Followed (bucket : Nat) (base : Int) (c : TimerContext) (log : List TimedCall) : Prop :=
  (∃ call ∈ log, call.bucket = bucket) ∨ CountsFrom bucket base c

section Counts

variable {start now base : Int} {bucket : Nat} {c c' : TimerContext} {e : TimerEvent}
  {effects : List (List TimerOp)} {polled idle : List TimerOp} {r : TimerContext × List Calling}

theorem CountsFrom.perform (h : CountsFrom bucket base c) (now : Int) (ops : List TimerOp) :
    CountsFrom bucket base (c.perform now ops) where
  made := h.made.trans_le (nextId_le_foldl c.timers ops)
  counts b' hb' hid' := by
    have hmade := h.made
    obtain ⟨b, hb, hid, -, hpassed⟩ :=
      ((Charged.refl c.timers).foldl ops).old b' hb' (by omega)
    rw [hpassed]
    exact h.counts b hb (hid.trans hid')

-- A pass charges the bucket what it moves the time by, if it does not call it.
theorem CountsFrom.checkTimers (hs : Sound start c) (h : CountsFrom bucket base c)
    (hcheck : c.checkTimers effects = some r) :
    (∃ call ∈ r.2, call.bucket = bucket) ∨ CountsFrom bucket base r.1 := by
  have hpassed := hs.passed hcheck
  by_cases hcalled : ∃ call ∈ r.2, call.bucket = bucket
  · exact .inl hcalled
  · refine .inr ⟨h.made.trans_le hpassed.charged.nextId_le, fun b' hb' hid' => ?_⟩
    have hmade := h.made
    obtain ⟨b, hb, hid, -, hafter⟩ := hpassed.charged.old b' hb' (by omega)
    have hwait : ¬ b.Due c.elapsedMinutes := by
      intro hdue
      obtain ⟨⟨call, hcall, hbucket⟩, -⟩ := hpassed.called b hb hdue b' hb' hid.symm
      exact hcalled ⟨call, hcall, hbucket.trans hid'⟩
    have hcounts := h.counts b hb (hid.trans hid')
    rw [(checkTimers_eq_some hcheck).2.2, if_neg (List.ne_nil_of_mem hb), hafter, Bucket.after,
      if_neg hwait]
    linarith

-- A bucket that is called counts from the last full minute.
theorem countsFrom_of_call (hs : Sound start c) (hcheck : c.checkTimers effects = some r)
    {call : Calling} (hcall : call ∈ r.2) : CountsFrom call.bucket r.1.lastTimerTime r.1 := by
  have hpassed := hs.passed hcheck
  obtain ⟨b₀, hb₀, hid₀, hdue⟩ := hpassed.due call hcall
  have hlt := (c.timers.numbered b₀ hb₀).1
  have hle := hpassed.charged.nextId_le
  refine ⟨by omega, fun b' hb' hid' => ?_⟩
  obtain ⟨b, hb, hid, -, hafter⟩ := hpassed.charged.old b' hb' (by omega)
  rw [hs.ordered.eq_of_id hb hb₀ (hid.trans (hid'.trans hid₀.symm)), Bucket.after, if_pos hdue]
    at hafter
  rw [hafter, zero_mul, sub_zero]

theorem CountsFrom.handle (hs : Sound start c) (h : CountsFrom bucket base c)
    (hhandle : c.handle e = some r) :
    (∃ call ∈ r.2, call.bucket = bucket) ∨ CountsFrom bucket base r.1 := by
  rcases handle_cases hhandle with
    ⟨now, ops, -, hnow, rfl⟩ | ⟨now, polled, effects, idle, r', -, hnow, hr', rfl⟩
  · exact .inr (h.perform now ops)
  · have hcheck := (h.perform now polled).checkTimers (hs.perform hnow polled) hr'
    exact hcheck.imp id fun hcounts => hcounts.perform now idle

/-- Behind a pass that leaves an old bucket there, less than a minute has not been counted. -/
theorem Sound.lt_of_poll (hs : Sound start c)
    (hhandle : c.handle (.poll now polled effects idle) = some r) {b : Bucket}
    (hb : b ∈ r.1.timers.buckets) (hid : b.id < c.timers.nextId) :
    now < r.1.lastTimerTime + minute := by
  obtain ⟨hnow, r', hr', rfl⟩ := handle_poll hhandle
  have hpolled := hs.perform hnow polled
  have hcharged := (hpolled.passed hr').charged
  have hle : c.timers.nextId ≤ (c.perform now polled).timers.nextId := nextId_le_foldl c.timers polled
  have hle' := hcharged.nextId_le
  obtain ⟨b₁, hb₁, hid₁, -⟩ := ((Charged.refl r'.1.timers).foldl idle).old b hb (by omega)
  obtain ⟨b₀, hb₀, -⟩ := hcharged.old b₁ hb₁ (by omega)
  exact (hpolled.boundary hr' (List.ne_nil_of_mem hb₀)).2

theorem mem_calls {call : TimedCall} (h : call ∈ c.calls e) :
    ∃ r, c.handle e = some r ∧ ∃ calling ∈ r.2,
      call = { time := r.1.monotonicTime, bucket := calling.bucket, source := calling.source } := by
  unfold calls at h
  split at h
  · rename_i r hr
    obtain ⟨calling, hcalling, rfl⟩ := List.mem_map.mp h
    exact ⟨r, hr, calling, hcalling, rfl⟩
  · exact absurd h List.not_mem_nil

theorem mem_calls_of_handle (h : c.handle e = some r) {calling : Calling}
    (hcalling : calling ∈ r.2) :
    { time := r.1.monotonicTime, bucket := calling.bucket, source := calling.source } ∈
      c.calls e := by
  unfold calls
  rw [h]
  exact List.mem_map.mpr ⟨calling, hcalling, rfl⟩

theorem CountsFrom.run (hs : Sound start c) (h : CountsFrom bucket base c) (es : List TimerEvent) :
    Followed bucket base (run step c es) (emitted step calls c es) := by
  have hstep : ∀ c past e c', Sound start c ∧ Followed bucket base c past → step c e = some c' →
      Sound start c' ∧ Followed bucket base c' (past ++ calls c e) := by
    intro c past e c' hpast hstep
    obtain ⟨hsound, hfollowed⟩ := hpast
    obtain ⟨r, hr, rfl⟩ := step_eq_some hstep
    refine ⟨hsound.handle hr, ?_⟩
    rcases hfollowed with ⟨call, hcall, hbucket⟩ | hcounts
    · exact .inl ⟨call, List.mem_append_left _ hcall, hbucket⟩
    · rcases hcounts.handle hsound hr with ⟨calling, hcalling, hbucket⟩ | hcounts
      · exact .inl ⟨_, List.mem_append_right _ (mem_calls_of_handle hr hcalling), hbucket⟩
      · exact .inr hcounts
  have hstart : Sound start c ∧ Followed bucket base c [] := ⟨hs, .inr h⟩
  exact (invariant_emitted hstep hstart es).2

theorem next_eq_of_handle (h : c.handle e = some r) : next step c e = r.1 :=
  next_of_some (by rw [step, h, Option.map_some])

-- The event that calls a timer is a pass, and the bucket counts from the last full minute behind it.
theorem countsFrom_of_mem_calls (hs : Sound start c) {call : TimedCall} (h : call ∈ c.calls e) :
    Sound start (next step c e) ∧
      (next step c e).lastTimerTime = start + (call.time - start) / minute * minute ∧
      CountsFrom call.bucket (next step c e).lastTimerTime (next step c e) := by
  obtain ⟨r, hr, calling, hcalling, rfl⟩ := mem_calls h
  rw [next_eq_of_handle hr]
  refine ⟨hs.handle hr, ?_⟩
  rcases handle_cases hr with
    ⟨now, ops, -, -, rfl⟩ | ⟨now, polled, effects, idle, r', -, hnow, hr', rfl⟩
  · exact absurd hcalling List.not_mem_nil
  · have hpolled := hs.perform hnow polled
    obtain ⟨b₀, hb₀, -⟩ := (hpolled.passed hr').due calling hcalling
    exact ⟨(hpolled.boundary hr' (List.ne_nil_of_mem hb₀)).1,
      (countsFrom_of_call hpolled hr' hcalling).perform now idle⟩

end Counts

/-- After any run the wait is a number of milliseconds, a pass that comes when it is over calls a
timer, and no part of a minute is lost: a bucket that is still there is called again in the first pass
a period after the last minute that was full when it was called. -/
theorem timers_on_time (start : Int) (es : List TimerEvent) :
    let c := run step (new start) es
    (∀ now, c.lastTimerTime ≤ now → c.timers.buckets ≠ [] →
      (∀ b ∈ c.timers.buckets, -2 ^ 31 ≤ b.minutes ∧ b.minutes ≤ 35791) →
      ∃ wait, getTimeout c.timers false c.lastTimerTime now = some wait ∧ 0 ≤ wait ∧
        ((∀ b ∈ c.timers.buckets, 1 ≤ b.minutes) → ∀ now', now + 1000 * wait ≤ now' →
          (checkTimerSources c.timers (c.perform now' []).elapsedMinutes).calling ≠ none)) ∧
    ∀ e, ∀ call ∈ c.calls e,
      let c₁ := next step c e
      c₁.lastTimerTime = start + (call.time - start) / minute * minute ∧
      ∀ es' now polled effects idle c₃,
        let c₂ := run step c₁ es'
        c₂.step (.poll now polled effects idle) = some c₃ →
        ∀ b ∈ c₃.timers.buckets, b.id = call.bucket → 1 ≤ b.minutes →
          c₁.lastTimerTime + b.minutes * minute ≤ now →
          ∃ call' ∈ emitted step calls c₁ es' ++ c₂.calls (.poll now polled effects idle),
            call'.bucket = call.bucket := by
  intro c
  have hs : Sound start c := sound_run start es
  refine ⟨fun now hnow hne hperiods => ?_, fun e call hcall => ?_⟩
  · obtain ⟨wait, hwait, hnonneg, b, hb, hle⟩ := getTimeout_spec hne hs.counted hperiods hnow
    refine ⟨wait, hwait, hnonneg, fun hpositive now' hnow' => ?_⟩
    have hperiod := hpositive b hb
    have hcount := hs.counted b hb
    apply calling_checkTimerSources hb
    unfold elapsedMinutes perform
    dsimp only
    rw [Int.tdiv_eq_ediv_of_nonneg (by omega)]
    unfold minute at *
    constructor <;> omega
  · obtain ⟨hs₁, hboundary, hcounts₁⟩ := countsFrom_of_mem_calls hs hcall
    refine ⟨hboundary, ?_⟩
    intro es' now polled effects idle c₃ c₂ hlast b hb hid hperiod hle
    have hs₂ : Sound start c₂ := invariant (fun _ _ _ h hstep => h.step hstep) hs₁ es'
    rcases hcounts₁.run hs₁ es' with ⟨call', hcall', hbucket⟩ | hcounts₂
    · exact ⟨call', List.mem_append_left _ hcall', hbucket⟩
    · obtain ⟨r, hr, rfl⟩ := step_eq_some hlast
      rcases hcounts₂.handle hs₂ hr with ⟨calling, hcalling, hbucket⟩ | hcounts₃
      · exact ⟨_, List.mem_append_right _ (mem_calls_of_handle hr hcalling), hbucket⟩
      · -- the bucket has not been called, and so its minutes count up to this pass
        have hlt := hs₂.lt_of_poll hr hb (hid ▸ hcounts₂.made)
        have hbase := hcounts₃.counts b hb hid
        have hcount := (hs₂.handle hr).counted b hb
        unfold minute at *
        omega

-- A timer of a minute: half a minute after the start the main loop waits for the other half, and
-- the timer is called in the next two minutes.
theorem timers_on_time_sample :
    let c := run step (new 0) [.outside 0 [.add 1]]
    (∃ wait, getTimeout c.timers false c.lastTimerTime 30000000 = some wait ∧ 0 ≤ wait ∧
      ∀ now', 30000000 + 1000 * wait ≤ now' →
        (checkTimerSources c.timers (c.perform now' []).elapsedMinutes).calling ≠ none) ∧
    ∃ call' ∈ c.calls (.poll 60000000 [] [[]] []) ++
        (next step c (.poll 60000000 [] [[]] [])).calls (.poll 120000000 [] [[]] []),
      call'.bucket = 1 := by
  obtain ⟨hwaits, hcalls⟩ := timers_on_time 0 [.outside 0 [.add 1]]
  constructor
  · obtain ⟨wait, hwait, hnonneg, hdispatch⟩ :=
      hwaits 30000000 (by decide +kernel) (by decide +kernel) (by decide +kernel)
    exact ⟨wait, hwait, hnonneg, hdispatch (by decide +kernel)⟩
  · obtain ⟨-, hagain⟩ := hcalls (.poll 60000000 [] [[]] [])
      { time := 60000000, bucket := 1, source := 0 } (by decide +kernel)
    obtain ⟨call', hcall', hbucket⟩ := hagain [] 120000000 [] [[]] [] _ rfl
      { id := 1, minutes := 1, sources := [0] } (by decide +kernel) rfl (by decide)
      (by decide +kernel)
    exact ⟨call', List.mem_append_right _ hcall', hbucket⟩

end TimerContext

end Notbit.MainContext
