import Notbit.MainContext.Timeouts

/-!
# Additions — when a new timer is called for the first time

A timer whose period has no bucket yet counts from `last_timer_time` as it is when it is added.  That
time is a minute back at most when timers have been checked just before.  It is older after a time
without timers, and in the callback of a poll source after a long wait.
-/

open Runs

namespace Notbit.MainContext

/-! ## 1. Additions -/

/-- A timer that is added when no bucket has its period: the time, what `last_timer_time` is then, and
whether a poll source does it. -/
structure Addition where
  source : Nat
  minutes : Int
  time : Int
  lastTimerTime : Int
  polled : Bool
  deriving DecidableEq, Repr

/-- The addition comes at most a minute after `last_timer_time` if the period is more than a minute,
and in the callback of a poll source before the period from then on is over. -/
def Addition.Timely (a : Addition) : Prop :=
  (a.minutes ≤ 1 ∨ a.time - a.lastTimerTime ≤ minute) ∧
    (a.polled = true → a.time - a.lastTimerTime < a.minutes * minute)

namespace TimerContext

/-- The timers with new periods that are added in an event. -/
def additions (c : TimerContext) : TimerEvent → List Addition
  | .outside now ops => (c.timers.started ops).map fun a =>
    { source := a.source, minutes := a.minutes, time := now, lastTimerTime := c.lastTimerTime
      polled := false }
  | .interrupted _ => []
  | .poll now polled effects idle =>
    (c.timers.started polled).map (fun a =>
      { source := a.source, minutes := a.minutes, time := now, lastTimerTime := c.lastTimerTime
        polled := true }) ++
    match (c.perform now polled).checkTimers effects with
    | none => []
    | some r =>
      (startedInPass (checkTimerSources (c.perform now polled).timers
        (c.perform now polled).elapsedMinutes) effects ++ r.1.timers.started idle).map fun a =>
          { source := a.source, minutes := a.minutes, time := now
            lastTimerTime := r.1.lastTimerTime, polled := false }

/-! ## 2. From the addition on -/

/-- A timer with a bucket of its own whose minutes count from this moment or later. -/
structure Awaits (source : Nat) (minutes base : Int) (c : TimerContext) : Prop where
  owns : c.timers.Owns source minutes
  counts : ∀ b ∈ c.timers.buckets, b.id = source + 1 →
    base ≤ c.lastTimerTime - b.minutesPassed * minute

section New

variable {start now base minutes : Int} {source : Nat} {c c' : TimerContext} {e : TimerEvent}
  {effects : List (List TimerOp)} {r : TimerContext × List Calling} {a : Addition}

theorem Awaits.perform (h : Awaits source minutes base c) (now : Int) (ops : List TimerOp) :
    Awaits source minutes base (c.perform now ops) where
  owns := h.owns.foldl ops
  counts b' hb' hid' := by
    have hmade := h.owns.made
    obtain ⟨b, hb, hid, -, hpassed⟩ := ((Charged.refl c.timers).foldl ops).old b' hb' (by omega)
    rw [hpassed]
    exact h.counts b hb (hid.trans hid')

/-- A pass calls the timer only when its period is over. -/
theorem Awaits.checkTimers (hs : Sound start c) (h : Awaits source minutes base c)
    (hcheck : c.checkTimers effects = some r) :
    (∀ call ∈ r.2, call.source = source → base + minutes * minute ≤ c.monotonicTime) ∧
      Awaits source minutes base r.1 := by
  obtain ⟨hrun, -, hlast⟩ := checkTimers_eq_some hcheck
  obtain ⟨howns, hbucket⟩ := h.owns.pass hs.ordered hrun
  obtain ⟨hnonneg, hle, -⟩ := hs.elapsedMinutes_spec
  have hpassed := hs.passed hcheck
  constructor
  · intro call hcall heq
    obtain ⟨b₀, hb₀, hid₀, hdue⟩ := hpassed.due call hcall
    have hown : b₀.id = source + 1 := hid₀.trans (hbucket call hcall heq)
    have hcounts := h.counts b₀ hb₀ hown
    have hminutes := h.owns.minutes b₀ hb₀ hown
    have hperiod := hdue.2
    unfold minute at *
    omega
  · refine ⟨howns, fun b' hb' hid' => ?_⟩
    have hmade := h.owns.made
    obtain ⟨b, hb, hid, -, hafter⟩ := hpassed.charged.old b' hb' (by omega)
    have hcounts := h.counts b hb (hid.trans hid')
    have hcount := hs.counted b hb
    rw [hlast, if_neg (List.ne_nil_of_mem hb), hafter, Bucket.after]
    split <;> unfold minute at * <;> omega

theorem Awaits.handle (hs : Sound start c) (h : Awaits source minutes base c)
    (hhandle : c.handle e = some r) :
    (∀ call ∈ r.2, call.source = source → base + minutes * minute ≤ r.1.monotonicTime) ∧
      Awaits source minutes base r.1 := by
  rcases handle_cases hhandle with
    ⟨now, ops, -, -, rfl⟩ | ⟨now, polled, effects, idle, r', -, hnow, hr', rfl⟩
  · exact ⟨by simp, h.perform now ops⟩
  · obtain ⟨hcalls, hend⟩ := (h.perform now polled).checkTimers (hs.perform hnow polled) hr'
    exact ⟨hcalls, hend.perform now idle⟩

theorem Awaits.run (hs : Sound start c) (h : Awaits source minutes base c) (es : List TimerEvent) :
    ∀ call ∈ emitted step calls c es, call.source = source → base + minutes * minute ≤ call.time := by
  have hstep : ∀ c past e c', (Sound start c ∧ Awaits source minutes base c ∧
        ∀ call ∈ past, TimedCall.source call = source → base + minutes * minute ≤ call.time) →
      step c e = some c' → Sound start c' ∧ Awaits source minutes base c' ∧
        ∀ call ∈ past ++ calls c e, call.source = source → base + minutes * minute ≤ call.time := by
    intro c past e c' hpast hstep
    obtain ⟨hsound, hawaits, hlog⟩ := hpast
    obtain ⟨r, hr, rfl⟩ := step_eq_some hstep
    obtain ⟨hcalls, hend⟩ := hawaits.handle hsound hr
    refine ⟨hsound.handle hr, hend, fun call hcall heq => ?_⟩
    rcases List.mem_append.mp hcall with hold | hnew
    · exact hlog call hold heq
    · obtain ⟨r', hr', calling, hcalling, rfl⟩ := mem_calls hnew
      obtain rfl := Option.some.inj (hr.symm.trans hr')
      exact hcalls calling hcalling heq
  have hstart : Sound start c ∧ Awaits source minutes base c ∧
      ∀ call ∈ ([] : List TimedCall), call.source = source → base + minutes * minute ≤ call.time :=
    ⟨hs, h, by simp⟩
  exact (invariant_emitted hstep hstart es).2.2

/-- A timer with a bucket of its own whose minutes count from exactly this moment. -/
structure Begins (source : Nat) (minutes base : Int) (c : TimerContext) : Prop where
  owns : c.timers.Owns source minutes
  counts : CountsFrom (source + 1) base c

theorem Begins.awaits (h : Begins source minutes base c) : Awaits source minutes base c where
  owns := h.owns
  counts b hb hid := le_of_eq (h.counts.counts b hb hid).symm

theorem Begins.perform (h : Begins source minutes base c) (now : Int) (ops : List TimerOp) :
    Begins source minutes base (c.perform now ops) where
  owns := h.owns.foldl ops
  counts := h.counts.perform now ops

-- A timer that has just been added with a new period counts from `last_timer_time`.
theorem begins_of_started {added : Started} {ops : List TimerOp} (h : added ∈ c.timers.started ops)
    (now : Int) : Begins added.source added.minutes c.lastTimerTime (c.perform now ops) := by
  obtain ⟨hle, howns⟩ := owns_of_started h
  refine ⟨howns, howns.made, fun b hb hid => ?_⟩
  have hzero := ((Charged.refl c.timers).foldl ops).new b hb (by omega)
  show c.lastTimerTime - b.minutesPassed * minute = c.lastTimerTime
  rw [hzero, zero_mul, sub_zero]

-- A pass leaves a timer alone whose period is not over.
theorem Begins.checkTimers (hs : Sound start c) (h : Begins source minutes base c)
    (hcheck : c.checkTimers effects = some r)
    (hover : c.monotonicTime < base + minutes * minute) :
    (∀ call ∈ r.2, call.source ≠ source) ∧ Begins source minutes base r.1 := by
  obtain ⟨hrun, -, -⟩ := checkTimers_eq_some hcheck
  obtain ⟨howns, hbucket⟩ := h.owns.pass hs.ordered hrun
  have hnot : ∀ call ∈ r.2, call.bucket ≠ source + 1 := by
    intro call hcall heq
    obtain ⟨b₀, hb₀, hid₀, hdue⟩ := (hs.passed hcheck).due call hcall
    have hcounts := h.counts.counts b₀ hb₀ (hid₀.trans heq)
    have hminutes := h.owns.minutes b₀ hb₀ (hid₀.trans heq)
    have hle := hs.elapsedMinutes_spec.2.1
    have hperiod := hdue.2
    unfold minute at *
    omega
  refine ⟨fun call hcall heq => hnot call hcall (hbucket call hcall heq), howns, ?_⟩
  rcases h.counts.checkTimers hs hcheck with ⟨call, hcall, heq⟩ | hcounts
  · exact absurd heq (hnot call hcall)
  · exact hcounts

-- A pass calls a timer whose period is over.
theorem Begins.called (hs : Sound start c) (h : Begins source minutes base c) (hperiod : 1 ≤ minutes)
    (hcheck : c.checkTimers effects = some r) (hover : base + minutes * minute ≤ c.monotonicTime)
    (hheld : r.1.timers.Holds source) : ∃ call ∈ r.2, call.source = source := by
  obtain ⟨hrun, -, -⟩ := checkTimers_eq_some hcheck
  obtain ⟨howns, -⟩ := h.owns.pass hs.ordered hrun
  have hmade := h.owns.made
  have hpassed := hs.passed hcheck
  obtain ⟨b', hb', hsource⟩ := hheld
  have hid' := howns.bucket b' hb' hsource
  obtain ⟨b, hb, hid, -⟩ := hpassed.charged.old b' hb' (by omega)
  have hdue : b.Due c.elapsedMinutes := by
    have hcounts := h.counts.counts b hb (hid.trans hid')
    have hminutes := h.owns.minutes b hb (hid.trans hid')
    have hcount := hs.counted b hb
    have hlt := hs.elapsedMinutes_spec.2.2
    unfold Bucket.Due
    unfold minute at *
    omega
  exact (hpassed.called b hb hdue b' hb' hid.symm).2 source hsource (by omega)

/-- What a new timer is to rely on: it is not called in the event that adds it, nor later before its
period less a minute is over. -/
def NotEarly (c : TimerContext) (e : TimerEvent) (es : List TimerEvent) (a : Addition) : Prop :=
  (∀ call ∈ c.calls e, call.source ≠ a.source) ∧
    ∀ call ∈ emitted step calls (next step c e) es, call.source = a.source →
      a.time + (a.minutes - 1) * minute ≤ call.time

/-- Behind its event a new timer counts from `last_timer_time` as it was, or it was added in the
callback of a poll source, its period from then on is over, and the same pass calls it. -/
theorem begins_of_additions (hs : Sound start c) (hhandle : c.handle e = some r)
    (ha : a ∈ c.additions e) :
    r.1.monotonicTime = a.time ∧
      ((∀ call ∈ r.2, call.source ≠ a.source) ∧
          Begins a.source a.minutes a.lastTimerTime r.1 ∧
          (a.polled = true → a.time - a.lastTimerTime < a.minutes * minute) ∨
        (a.polled = true ∧ a.minutes * minute ≤ a.time - a.lastTimerTime) ∧
          (1 ≤ a.minutes → r.1.timers.Holds a.source → ∃ call ∈ r.2, call.source = a.source)) := by
  rcases handle_cases hhandle with
    ⟨now, ops, he, -, rfl⟩ | ⟨now, polled, effects, idle, r', rfl, hnow, hr', rfl⟩
  · rcases he with rfl | ⟨rfl, -⟩
    · obtain ⟨added, hadded, rfl⟩ := List.mem_map.mp ha
      exact ⟨rfl, .inl ⟨by simp, begins_of_started hadded now, nofun⟩⟩
    · exact absurd ha List.not_mem_nil
  · have hpolled := hs.perform hnow polled
    have hpassed := hpolled.passed hr'
    rcases List.mem_append.mp ha with hbefore | hlater
    · obtain ⟨added, hadded, rfl⟩ := List.mem_map.mp hbefore
      refine ⟨rfl, ?_⟩
      have hbegins := begins_of_started hadded now
      by_cases hover : c.lastTimerTime + added.minutes * minute ≤ now
      · refine .inr ⟨⟨rfl, by dsimp only; omega⟩, fun hperiod hheld => ?_⟩
        have howns := (hbegins.owns.pass hpolled.ordered (checkTimers_eq_some hr').1).1
        obtain ⟨b, hb, hsource⟩ := hheld
        have hmade : added.source + 1 < r'.1.timers.nextId := howns.made
        obtain ⟨d, hd, -, hold⟩ := mem_foldl_of_source hb (by dsimp only; omega) hsource
        have hcalled := hbegins.called hpolled hperiod hr' hover ⟨d, hd, hold⟩
        exact hcalled
      · obtain ⟨hcalls, hend⟩ := hbegins.checkTimers hpolled hr' (lt_of_not_ge hover)
        exact .inl ⟨hcalls, hend.perform now idle, fun _ => by dsimp only; omega⟩
    · rw [hr'] at hlater
      obtain ⟨added, hadded, rfl⟩ := List.mem_map.mp hlater
      refine ⟨rfl, .inl ?_⟩
      rcases List.mem_append.mp hadded with hcallback | hidle
      · obtain ⟨hle, howns, hcalls⟩ :=
          Started.pass hpolled.ordered (checkTimers_eq_some hr').1 hcallback
        have hbegins : Begins added.source added.minutes r'.1.lastTimerTime r'.1 := by
          refine ⟨howns, howns.made, fun b hb hid => ?_⟩
          rw [hpassed.charged.new b hb (by omega), zero_mul, sub_zero]
        exact ⟨hcalls, hbegins.perform now idle, nofun⟩
      · refine ⟨fun call hcall heq => ?_, begins_of_started hidle now, nofun⟩
        have hlt := hpassed.numbered call hcall
        have hle := (owns_of_started hidle).1
        dsimp only at heq
        omega

theorem calls_eq_of_handle (h : c.handle e = some r) :
    (∀ call ∈ c.calls e, call.source ≠ source) ↔ ∀ call ∈ r.2, call.source ≠ source := by
  unfold calls
  rw [h]
  exact List.forall_mem_map

theorem monotonicTime_le_of_emitted (c : TimerContext) (es : List TimerEvent) :
    ∀ call ∈ emitted step calls c es, c.monotonicTime ≤ call.time := by
  have hstep : ∀ c' past e c'', (c.monotonicTime ≤ c'.monotonicTime ∧
        ∀ call ∈ past, c.monotonicTime ≤ TimedCall.time call) → step c' e = some c'' →
      c.monotonicTime ≤ c''.monotonicTime ∧
        ∀ call ∈ past ++ calls c' e, c.monotonicTime ≤ call.time := by
    intro c' past e c'' hpast hstep
    obtain ⟨hle, hlog⟩ := hpast
    obtain ⟨r, hr, rfl⟩ := step_eq_some hstep
    have hle' := hle.trans (monotonicTime_le_handle hr)
    refine ⟨hle', fun call hcall => ?_⟩
    rcases List.mem_append.mp hcall with hold | hnew
    · exact hlog call hold
    · obtain ⟨r', hr', calling, -, rfl⟩ := mem_calls hnew
      obtain rfl := Option.some.inj (hr.symm.trans hr')
      exact hle'
  have hstart : c.monotonicTime ≤ c.monotonicTime ∧
      ∀ call ∈ ([] : List TimedCall), c.monotonicTime ≤ call.time := ⟨le_rfl, by simp⟩
  exact (invariant_emitted hstep hstart es).2

theorem emitted_cons (h : c.handle e = some r) (es : List TimerEvent) :
    emitted step calls c (e :: es) = c.calls e ++ emitted step calls r.1 es := by
  have hsome : (step c e).isSome := by rw [step, h]; rfl
  rw [emitted, if_pos hsome, next_eq_of_handle h]

-- A pass calls a timer that is alone as soon as its period is over.
theorem Begins.called_alone (hs : Sound start c) (h : Begins source minutes base c) {b : Bucket}
    (hb : c.timers.buckets = [b]) (hsource : b.sources = [source]) (hperiod : 1 ≤ minutes)
    (hnow : c.monotonicTime ≤ now) (hover : base + minutes * minute ≤ now) :
    ∃ r, c.handle (.poll now [] [[]] []) = some r ∧
      { time := now, bucket := b.id, source } ∈ c.calls (.poll now [] [[]] []) := by
  have hmem : b ∈ c.timers.buckets := hb ▸ List.mem_singleton.mpr rfl
  have hid : b.id = source + 1 :=
    h.owns.bucket b hmem (by rw [hsource]; exact List.mem_singleton.mpr rfl)
  have hdue : b.Due (c.perform now []).elapsedMinutes := by
    have hcounts := h.counts.counts b hmem hid
    have hminutes := h.owns.minutes b hmem hid
    have hcount := hs.counted b hmem
    have hlt : now < c.lastTimerTime + ((c.perform now []).elapsedMinutes + 1) * minute :=
      (hs.perform hnow []).elapsedMinutes_spec.2.2
    unfold Bucket.Due
    unfold minute at *
    omega
  have hpass := runCallbacks_alone hb hsource hdue
  have hcheck : (c.perform now []).checkTimers [[]] = _ := congrArg (Option.map _) hpass
  have hhandle : c.handle (.poll now [] [[]] []) = _ :=
    (if_pos hnow).trans (congrArg (Option.map _) hcheck)
  exact ⟨_, hhandle, mem_calls_of_handle hhandle (List.mem_singleton.mpr rfl)⟩

-- The run goes on so that all other timers are removed.
theorem Begins.called_when_over (hs : Sound start c) (h : Begins source minutes base c)
    (hheld : c.timers.Holds source) (hperiod : 1 ≤ minutes) (hnow : c.monotonicTime ≤ now)
    (hover : base + minutes * minute ≤ now) :
    ∃ es, ∃ call ∈ emitted step calls c es, call.source = source ∧ call.time = now := by
  obtain ⟨b, hb, hsource, -⟩ := buckets_removeOthers hs.ordered h.owns hheld
  have hfirst : c.handle (.outside c.monotonicTime (c.timers.removeOthers source)) =
      some (c.perform c.monotonicTime (c.timers.removeOthers source), []) := if_pos (le_refl _)
  obtain ⟨r, hr, hcall⟩ := (h.perform c.monotonicTime (c.timers.removeOthers source)).called_alone
    (hs.handle hfirst) hb hsource hperiod hnow hover
  refine ⟨[.outside c.monotonicTime (c.timers.removeOthers source), .poll now [] [[]] []],
    { time := now, bucket := b.id, source }, ?_, rfl, rfl⟩
  rw [emitted_cons hfirst, emitted_cons hr]
  exact List.mem_append_right _ (List.mem_append_left _ hcall)

end New

/-- In every run a new timer that is added in time is not called early, and one that is not, and is
still there behind the event that adds it, is in some continuation of the run. -/
theorem added_not_early_iff (start : Int) (es : List TimerEvent) (e : TimerEvent) :
    let c := run step (new start) es
    ∀ c', c.step e = some c' → ∀ a ∈ c.additions e, 1 ≤ a.minutes →
      (a.Timely → ∀ es', c.NotEarly e es' a) ∧
        (c'.timers.Holds a.source → (∀ es', c.NotEarly e es' a) → a.Timely) := by
  intro c c' hstep a ha hperiod
  have hs : Sound start c := sound_run start es
  obtain ⟨r, hr, rfl⟩ := step_eq_some hstep
  obtain ⟨htime, hcases⟩ := begins_of_additions hs hr ha
  unfold NotEarly
  rw [calls_eq_of_handle hr, next_eq_of_handle hr]
  rcases hcases with ⟨hnot, hbegins, hpolled⟩ | ⟨⟨hpolled, hover⟩, hcalled⟩
  · constructor
    · refine fun htimely es' => ⟨hnot, fun call hcall heq => ?_⟩
      have hover := hbegins.awaits.run (hs.handle hr) es' call hcall heq
      have hlater := monotonicTime_le_of_emitted r.1 es' call hcall
      have hnear := htimely.1
      unfold minute at *
      omega
    · intro hheld hearly
      refine ⟨?_, hpolled⟩
      by_contra hlate
      rw [not_or] at hlate
      have hover : a.lastTimerTime + a.minutes * minute ≤
          max a.time (a.lastTimerTime + a.minutes * minute) := le_max_right _ _
      obtain ⟨es', call, hcall, heq, hcalltime⟩ :=
        hbegins.called_when_over (hs.handle hr) hheld hperiod (htime ▸ le_max_left _ _) hover
      have hbound := (hearly es').2 call hcall heq
      unfold minute at *
      omega
  · constructor
    · intro htimely
      have hnear := htimely.2 hpolled
      omega
    · intro hheld hearly
      obtain ⟨call, hcall, heq⟩ := hcalled hperiod hheld
      exact absurd heq ((hearly []).1 call hcall)

-- A timer of five minutes that is added at the start, and the pass five minutes later.
theorem added_not_early_iff_sample :
    let a : Addition :=
      { source := 0, minutes := 5, time := 0, lastTimerTime := 0, polled := false }
    (new 0).NotEarly (.outside 0 [.add 5]) [.poll 300000000 [] [[]] []] a ∧ a.Timely := by
  intro a
  have htimely : a.Timely := ⟨.inr (by decide), nofun⟩
  obtain ⟨hearly, hback⟩ :=
    added_not_early_iff 0 [] (.outside 0 [.add 5]) _ rfl a (by decide +kernel) (by decide)
  exact ⟨hearly htimely _, hback ⟨_, List.mem_singleton.mpr rfl, List.mem_singleton.mpr rfl⟩
    (hearly htimely)⟩

-- After ten minutes without timers one of five minutes is added: when the callback of a poll source
-- does it, the same pass calls it, and when that of an idle source does, the pass half a minute
-- later.
theorem added_early :
    (∃ a ∈ (new 0).additions (.poll 600000000 [.add 5] [[]] []),
      1 ≤ a.minutes ∧ ¬ (new 0).NotEarly (.poll 600000000 [.add 5] [[]] []) [] a) ∧
    ∃ a ∈ (new 0).additions (.poll 600000000 [] [] [.add 5]), 1 ≤ a.minutes ∧
      ¬ (new 0).NotEarly (.poll 600000000 [] [] [.add 5]) [.poll 630000000 [] [[]] []] a := by
  constructor
  · refine ⟨{ source := 0, minutes := 5, time := 600000000, lastTimerTime := 0, polled := true },
      by decide +kernel, by decide, fun h => ?_⟩
    exact h.1 { time := 600000000, bucket := 1, source := 0 } (by decide +kernel) rfl
  · refine ⟨{ source := 0, minutes := 5, time := 600000000, lastTimerTime := 0, polled := false },
      by decide +kernel, by decide, fun h => ?_⟩
    have hover := h.2 { time := 630000000, bucket := 1, source := 0 } (by decide +kernel) rfl
    exact absurd hover (by decide)

end TimerContext

end Notbit.MainContext
