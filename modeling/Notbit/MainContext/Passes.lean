import Notbit.MainContext.Buckets

/-!
# Passes — what a whole pass does to the minutes of the buckets

The numbers of the buckets tell which of them a pass has gone by, whatever its callbacks do.  A bucket
that was there before the pass has been called behind it and starts anew, or it has been charged the
minutes of the pass.
-/

open Runs

namespace Notbit.MainContext

/-! ## 1. The way of the loop -/

/-- A pass of `e` minutes calls the bucket. -/
def Bucket.Due (e : Int) (b : Bucket) : Prop := 1 ≤ e ∧ b.minutes ≤ b.minutesPassed + e

instance (e : Int) (b : Bucket) : Decidable (b.Due e) := inferInstanceAs (Decidable (_ ∧ _))

/-- The minutes of a bucket behind a pass of `e` minutes. -/
def Bucket.after (e : Int) (b : Bucket) : Int := if b.Due e then 0 else b.minutesPassed + e

/-- The minutes of a bucket when the pass has gone by those with numbers from `k` on. -/
def Bucket.visited (e : Int) (k : Nat) (b : Bucket) : Int :=
  if k ≤ b.id then b.after e else b.minutesPassed

/-- The bucket has been called, and so have its sources with numbers below `fresh`. -/
def Bucket.Called (fresh : Nat) (calls : List Calling) (b : Bucket) : Prop :=
  (∃ call ∈ calls, call.bucket = b.id) ∧
    ∀ source ∈ b.sources, source < fresh → ∃ call ∈ calls, call.source = source

/-- The loop has gone by the buckets with numbers from `k` on and has made `calls`. -/
structure Visited (t₀ : Timers) (e : Int) (calls : List Calling) (k : Nat) (t : Timers) :
    Prop where
  ordered : t.Ordered
  charged : Charged (Bucket.visited e k) t₀ t
  called : ∀ b ∈ t.buckets, k ≤ b.id → ∀ b₀ ∈ t₀.buckets, b₀.id = b.id → b₀.Due e →
    b.Called t₀.nextId calls

/-- The loop is in a bucket that is due, and has remembered the one behind it. -/
structure Visiting (t₀ : Timers) (e : Int) (calls : List Calling) (t : Timers) (c : Calling) :
    Prop where
  visited : Visited t₀ e calls (c.bucket + 1) t
  due : ∃ b₀ ∈ t₀.buckets, b₀.id = c.bucket ∧ b₀.Due e
  sources : ∃ b ∈ t.buckets, b.id = c.bucket ∧ c.source ∈ b.sources ∧
    ∀ next ∈ c.tmpSource, next ∈ b.sources
  left : ∀ b ∈ t.buckets, b.id = c.bucket → ∀ source ∈ b.sources, source < t₀.nextId →
    (∃ call ∈ calls, call.source = source) ∨ source = c.source ∨
      ∃ next ∈ c.tmpSource, source ∈ b.sources.dropWhile (· ≠ next)
  behind : ∀ next ∈ c.tmpBucket, next < c.bucket
  reached : ∀ b ∈ t.buckets, b.id < c.bucket → ∃ next ∈ c.tmpBucket, b.id ≤ next

/-- A pass from `t₀` that has made `calls`, and is at the next callback or at its end. -/
structure Stage (t₀ : Timers) (e : Int) (calls : List Calling) (p : TimerPass) : Prop where
  elapsed : p.elapsedMinutes = e
  ended : p.calling = none → Visited t₀ e calls 0 p.timers
  calling : ∀ c ∈ p.calling, Visiting t₀ e calls p.timers c

section Loop

variable {t₀ t : Timers} {e : Int} {calls : List Calling} {p p' : TimerPass} {c : Calling}

-- No bucket stands between the two numbers.
theorem Visited.down {j k : Nat} (h : Visited t₀ e calls k t) (hjk : j ≤ k)
    (hnone : ∀ b ∈ t.buckets, j ≤ b.id → k ≤ b.id) : Visited t₀ e calls j t where
  ordered := h.ordered
  charged := by
    refine h.charged.congr fun b hb => ?_
    rintro ⟨b', hb', hid⟩
    have hup := hnone b' hb'
    rw [hid] at hup
    unfold Bucket.visited
    by_cases hj : j ≤ b.id
    · rw [if_pos hj, if_pos (hup hj)]
    · rw [if_neg hj, if_neg (by omega)]
  called b hb hj := h.called b hb (hnone b hb hj)

theorem Visited.foldl {k : Nat} (h : Visited t₀ e calls k t) (ops : List TimerOp) :
    Visited t₀ e calls k (ops.foldl Timers.perform t) where
  ordered := h.ordered.foldl ops
  charged := h.charged.foldl ops
  called b hb hid b₀ hb₀ hid₀ hdue := by
    have hlt := (t₀.numbered b₀ hb₀).1
    have hle := h.charged.nextId_le
    constructor
    · obtain ⟨b', hb', hbid, -⟩ := ((Charged.refl t).foldl ops).old b hb (by omega)
      rw [← hbid]
      exact (h.called b' hb' (hbid ▸ hid) b₀ hb₀ (hid₀.trans hbid.symm) hdue).1
    · intro source hsource hfresh
      obtain ⟨b', hb', hbid, hold⟩ := mem_foldl_of_source hb (by omega) hsource
      exact (h.called b' hb' (hbid ▸ hid) b₀ hb₀ (hid₀.trans hbid.symm) hdue).2 source hold hfresh

theorem Visited.mono {k : Nat} (h : Visited t₀ e calls k t) (more : List Calling) :
    Visited t₀ e (calls ++ more) k t where
  ordered := h.ordered
  charged := h.charged
  called b hb hid b₀ hb₀ hid₀ hdue := by
    obtain ⟨⟨call, hcall, hbucket⟩, hsources⟩ := h.called b hb hid b₀ hb₀ hid₀ hdue
    refine ⟨⟨call, List.mem_append_left _ hcall, hbucket⟩, fun source hsource hlt => ?_⟩
    obtain ⟨call', hcall', heq⟩ := hsources source hsource hlt
    exact ⟨call', List.mem_append_left _ hcall', heq⟩

-- The loop goes by one bucket.
theorem Visited.setPassed {i : Nat} (h : Visited t₀ e calls (i + 1) t) (hi : i < t₀.nextId) {v : Int}
    (hv : ∀ b₀ ∈ t₀.buckets, b₀.id = i → b₀.after e = v ∧
      (b₀.Due e → ∀ b ∈ t.buckets, b.id = i → b.Called t₀.nextId calls)) :
    Visited t₀ e calls i (t.setPassed i v) where
  ordered := h.ordered.setPassed i v
  charged := by
    refine (h.charged.setPassed hi v).congr fun b₀ hb₀ _ => ?_
    unfold Bucket.visited
    by_cases hid : b₀.id = i
    · rw [if_pos hid, if_pos (by omega), (hv b₀ hb₀ hid).1]
    · by_cases hlt : i + 1 ≤ b₀.id
      · rw [if_neg hid, if_pos hlt, if_pos (by omega)]
      · rw [if_neg hid, if_neg hlt, if_neg (by omega)]
  called b hb hid b₀ hb₀ hid₀ hdue := by
    obtain ⟨b', hb', hbid, -, hsources, -⟩ := mem_setPassed hb
    rw [Bucket.Called, hbid, hsources]
    by_cases heq : b.id = i
    · exact (hv b₀ hb₀ (hid₀.trans heq)).2 hdue b' hb' (hbid.symm.trans heq)
    · exact h.called b' hb' (by omega) b₀ hb₀ (hid₀.trans hbid) hdue

theorem filter_setPassed (t : Timers) (i : Nat) (v : Int) :
    (t.setPassed i v).buckets.filter (·.id < i) = t.buckets.filter (·.id < i) := by
  unfold Timers.setPassed
  dsimp only
  induction t.buckets with
  | nil => rfl
  | cons b bs ih =>
    rw [List.map_cons]
    by_cases hb : b.id = i
    · rw [if_pos hb, List.filter_cons_of_neg (by simp [hb]), List.filter_cons_of_neg (by simp [hb]),
        ih]
    · rw [if_neg hb]
      by_cases hlt : b.id < i
      · rw [List.filter_cons_of_pos (by simp [hlt]), List.filter_cons_of_pos (by simp [hlt]), ih]
      · rw [List.filter_cons_of_neg (by simp [hlt]), List.filter_cons_of_neg (by simp [hlt]), ih]

/-- From the buckets with numbers below `k` on, up to the next callback. -/
theorem stage_nextBucket (h₀ : t₀.Ordered) (he : 1 ≤ e) (hp : p.elapsedMinutes = e) {k : Nat}
    (hk : k ≤ t₀.nextId) (h : Visited t₀ e calls k p.timers) {bs : List Bucket}
    (hbs : p.timers.buckets.filter (·.id < k) = bs) : Stage t₀ e calls (nextBucket p bs) := by
  induction bs generalizing p k with
  | nil =>
    refine ⟨hp, fun _ => h.down (Nat.zero_le k) fun b hb _ => ?_, nofun⟩
    by_contra hlt
    have hmem : b ∈ p.timers.buckets.filter (·.id < k) :=
      List.mem_filter.mpr ⟨hb, decide_eq_true (by omega)⟩
    rw [hbs] at hmem
    exact absurd hmem List.not_mem_nil
  | cons b bs ih =>
    have hmem : b ∈ p.timers.buckets ∧ b.id < k := by
      have hfilter : b ∈ p.timers.buckets.filter (·.id < k) := hbs ▸ List.mem_cons_self
      simpa using hfilter
    obtain ⟨hrest, htop⟩ := filter_of_cons h.ordered.sorted hbs
    have hhere : Visited t₀ e calls (b.id + 1) p.timers := h.down (by omega) fun b' hb' hid => by
      by_contra hlt
      have hle := htop b' hb' (by omega)
      omega
    obtain ⟨b₀, hb₀, hid, hminutes, hpassed⟩ := hhere.charged.old b hmem.1 (by omega)
    rw [Bucket.visited, if_neg (by omega)] at hpassed
    have hone : ∀ b₁ ∈ t₀.buckets, b₁.id = b.id → b₁ = b₀ := fun b₁ hb₁ hid₁ =>
      h₀.eq_of_id hb₁ hb₀ (hid₁.trans hid.symm)
    unfold nextBucket
    split
    · rename_i hge
      have hdue : b₀.Due e := ⟨he, by rw [hminutes, ← hpassed, ← hp]; exact hge⟩
      split
      · rename_i hnil
        exact absurd hnil (p.timers.nonempty b hmem.1)
      · rename_i source sources hsources
        refine ⟨hp, nofun, ?_⟩
        rintro c ⟨⟩
        refine ⟨hhere, ⟨b₀, hb₀, hid, hdue⟩, ⟨b, hmem.1, rfl, ?_, ?_⟩, ?_, ?_, ?_⟩
        · rw [hsources]
          exact List.mem_cons_self
        · intro next hnext
          rw [hsources]
          exact List.mem_cons_of_mem _ (List.mem_of_head? hnext)
        · intro b' hb' hid' other hother _
          obtain rfl := h.ordered.eq_of_id hb' hmem.1 hid'
          rw [hsources] at hother ⊢
          rcases List.mem_cons.mp hother with rfl | hrest
          · exact .inr (.inl rfl)
          · obtain ⟨next, rest, rfl⟩ := List.exists_cons_of_ne_nil (List.ne_nil_of_mem hrest)
            exact .inr (.inr ⟨next, rfl, mem_dropWhile_of_suffix (List.suffix_cons _ _) hrest⟩)
        · intro next hnext
          obtain ⟨b', hb', rfl⟩ := Option.map_eq_some_iff.mp hnext
          have hbehind := List.mem_of_head? hb'
          rw [← hrest] at hbehind
          exact of_decide_eq_true (List.mem_filter.mp hbehind).2
        · intro b' hb' hlt
          have hbehind : b' ∈ bs := hrest ▸ List.mem_filter.mpr ⟨hb', decide_eq_true hlt⟩
          obtain ⟨d, ds, rfl⟩ := List.exists_cons_of_ne_nil (List.ne_nil_of_mem hbehind)
          exact ⟨d.id, rfl, (filter_of_cons h.ordered.sorted hrest).2 b' hb' hlt⟩
    · rename_i hlt
      have hwait : ¬ b₀.Due e := fun hdue => hlt (by rw [hp, hpassed, ← hminutes]; exact hdue.2)
      apply ih (p := { p with
        timers := p.timers.setPassed b.id (b.minutesPassed + p.elapsedMinutes) }) hp
        (hmem.2.le.trans hk)
      · apply hhere.setPassed (by omega)
        intro b₁ hb₁ hid₁
        rw [hone b₁ hb₁ hid₁, Bucket.after, if_neg hwait, hp, hpassed]
        exact ⟨rfl, fun hdue => absurd hdue hwait⟩
      · rw [filter_setPassed]
        exact hrest

/-- The operations of a callback leave no bucket between the current one and the next. -/
theorem Visiting.reached_foldl (h : Visiting t₀ e calls t c) (effect : List TimerOp) :
    ∀ b ∈ (effect.foldl Timers.perform t).buckets, b.id < c.bucket →
      ∃ next ∈ c.tmpBucket, b.id ≤ next := by
  intro b hb hlt
  obtain ⟨b₀, hb₀, hid₀, -⟩ := h.due
  have hlt₀ := (t₀.numbered b₀ hb₀).1
  have hle := h.visited.charged.nextId_le
  obtain ⟨b', hb', hbid, -⟩ := ((Charged.refl t).foldl effect).old b hb (by omega)
  rw [← hbid]
  exact h.reached b' hb' (by omega)

/-- A source that is still there behind the callback was left to call, or it has been called. -/
theorem Visiting.left_foldl (h : Visiting t₀ e calls t c) {effect : List TimerOp} {b : Bucket}
    (hb : b ∈ (effect.foldl Timers.perform t).buckets) (hid : b.id = c.bucket) {source : Nat}
    (hsource : source ∈ b.sources) (hfresh : source < t₀.nextId) (htmp : c.tmpSource = none) :
    ∃ call ∈ calls ++ [c], call.source = source := by
  have hgrown := h.visited.charged.nextId_le
  obtain ⟨b', hb', hid', hsource'⟩ := mem_foldl_of_source hb (by omega) hsource
  rcases h.left b' hb' (hid'.trans hid) source hsource' hfresh with hcalled | rfl | hbehind
  · obtain ⟨call, hcall, heq⟩ := hcalled
    exact ⟨call, List.mem_append_left _ hcall, heq⟩
  · exact ⟨c, by simp, rfl⟩
  · obtain ⟨next, hnext, -⟩ := hbehind
    rw [htmp] at hnext
    exact absurd hnext nofun

/-- The next source of the bucket is there, and the loop goes on with it. -/
theorem Visiting.next (h : Visiting t₀ e calls t c) (effect : List TimerOp) {next : Nat}
    (htmp : c.tmpSource = some next) {b : Bucket}
    (hfind : (effect.foldl Timers.perform t).buckets.find? (next ∈ ·.sources) = some b) :
    Visiting t₀ e (calls ++ [c]) (effect.foldl Timers.perform t)
      { c with source := next, tmpSource := following b.sources next } := by
  obtain ⟨b₁, hb₁, hid₁, -, hnext₁⟩ := h.sources
  have hmem := hnext₁ next htmp
  have hheld : next < t.nextId := (t.numbered b₁ hb₁).2 next hmem
  have hb := List.mem_of_find?_eq_some hfind
  have hsource : next ∈ b.sources := by simpa using List.find?_some hfind
  have hbid : b.id = c.bucket := by
    obtain ⟨b', hb', hid', hsource'⟩ := mem_foldl_of_source hb hheld hsource
    rw [← hid', ← hid₁]
    exact h.visited.ordered.owned b' hb' b₁ hb₁ next hsource' hmem
  have hopened := (h.visited.foldl effect).mono [c]
  have hgrown := h.visited.charged.nextId_le
  refine ⟨hopened, h.due, ⟨b, hb, hbid, hsource, fun after hafter => mem_of_following hafter⟩, ?_,
    h.behind, h.reached_foldl effect⟩
  intro d hd hdid other hother hfresh
  obtain rfl := hopened.ordered.eq_of_id hd hb (hdid.trans hbid.symm)
  obtain ⟨d', hd', hdid', -, hother', hkeeps⟩ :=
    mem_foldl_behind hd hheld (by omega) hsource hother
  rcases h.left d' hd' (hdid'.trans hdid) other hother' hfresh with hcalled | rfl | hbehind'
  · obtain ⟨call, hcall, heq⟩ := hcalled
    exact .inl ⟨call, List.mem_append_left _ hcall, heq⟩
  · exact .inl ⟨c, by simp, rfl⟩
  · obtain ⟨next', hnext', hdrop⟩ := hbehind'
    rw [htmp] at hnext'
    obtain rfl := Option.some.inj hnext'
    exact .inr (mem_behind_following (hkeeps hdrop))

/-- The last source of the bucket has been called, and the bucket is done, also when it is gone. -/
theorem Visiting.done (h : Visiting t₀ e calls t c) (h₀ : t₀.Ordered) (effect : List TimerOp)
    (htmp : c.tmpSource = none) : Visited t₀ e (calls ++ [c]) c.bucket
      ((effect.foldl Timers.perform t).setPassed c.bucket 0) := by
  obtain ⟨b₀, hb₀, hid₀, hdue⟩ := h.due
  have hlt₀ := (t₀.numbered b₀ hb₀).1
  apply ((h.visited.foldl effect).mono [c]).setPassed (by omega)
  intro b₁ hb₁ hid₁
  rw [h₀.eq_of_id hb₁ hb₀ (hid₁.trans hid₀.symm), Bucket.after, if_pos hdue]
  exact ⟨rfl, fun _ d hd hdid => ⟨⟨c, by simp, hdid.symm⟩, fun other hother hfresh =>
    h.left_foldl hd hdid hother hfresh htmp⟩⟩

/-- Behind a callback: the next source of the bucket, or the bucket is done. -/
theorem stage_callTimer (h₀ : t₀.Ordered) (he : 1 ≤ e) (h : Stage t₀ e calls p)
    (hc : p.calling = some c) {effect : List TimerOp} (hstep : callTimer p effect = some p')
    (hfollowed : p'.lost = false) : Stage t₀ e (calls ++ [c]) p' := by
  have hvisiting := h.calling c hc
  obtain ⟨b₀, hb₀, hid₀, -⟩ := hvisiting.due
  have hlt₀ := (t₀.numbered b₀ hb₀).1
  unfold callTimer at hstep
  split at hstep
  · exact absurd hstep nofun
  rw [hc, Option.map_some, Option.some.injEq] at hstep
  subst hstep
  dsimp only at hfollowed ⊢
  cases htmp : c.tmpSource with
  | some next =>
    rw [htmp] at hfollowed
    dsimp only at hfollowed ⊢
    cases hfind : (effect.foldl Timers.perform p.timers).buckets.find? (next ∈ ·.sources) with
    | none =>
      rw [hfind] at hfollowed
      exact absurd hfollowed (by simp)
    | some b =>
      refine ⟨h.elapsed, nofun, ?_⟩
      rintro c' ⟨⟩
      exact hvisiting.next effect htmp hfind
  | none =>
    rw [htmp] at hfollowed
    dsimp only at hfollowed ⊢
    have hdone := hvisiting.done h₀ effect htmp
    have hold := hvisiting.reached_foldl effect
    generalize effect.foldl Timers.perform p.timers = t at hfollowed hdone hold ⊢
    generalize (p.usesFreed || (t.sourcesOf c.bucket).isEmpty) = freed at hfollowed ⊢
    have hleft : ∀ d ∈ (t.setPassed c.bucket 0).buckets, d.id < c.bucket →
        ∃ next ∈ c.tmpBucket, d.id ≤ next := by
      intro d hd hlt
      obtain ⟨d', hd', hid', -⟩ := mem_setPassed hd
      rw [hid'] at hlt ⊢
      exact hold d' hd' hlt
    cases hnextBucket : c.tmpBucket with
    | none =>
      refine ⟨h.elapsed, fun _ => hdone.down (Nat.zero_le _) fun d hd _ => ?_, nofun⟩
      by_contra hlt
      obtain ⟨next, hmem, -⟩ := hleft d hd (by omega)
      rw [hnextBucket] at hmem
      exact absurd hmem nofun
    | some next =>
      rw [hnextBucket] at hfollowed
      dsimp only at hfollowed ⊢
      have hlt := hvisiting.behind next hnextBucket
      cases hdrop : (t.setPassed c.bucket 0).buckets.dropWhile (·.id ≠ next) with
      | nil =>
        rw [hdrop] at hfollowed
        exact absurd hfollowed (by simp)
      | cons d rest =>
        apply stage_nextBucket h₀ he
          (p := { p with
            timers := t.setPassed c.bucket 0, calling := some c, usesFreed := freed }) h.elapsed
          (k := next + 1) (by omega)
        · refine hdone.down (by omega) fun d hd hid' => ?_
          by_contra hsmall
          obtain ⟨next', hmem, hle⟩ := hleft d hd (by omega)
          rw [hnextBucket] at hmem
          obtain rfl := Option.some.inj hmem
          omega
        · exact dropWhile_eq_filter hdone.ordered.sorted hdrop

end Loop

/-! ## 2. Whole passes -/

/-- The callbacks of a pass, each with what it does: the timers behind it and the calls that it made.
There is no such end when a loop is lost in memory that was freed, or when there are more callbacks
or fewer. -/
def runCallbacks (p : TimerPass) : List (List TimerOp) → Option (Timers × List Calling)
  | [] => if p.lost = false ∧ p.calling = none then some (p.timers, []) else none
  | effect :: effects =>
    p.calling.bind fun c => (callTimer p effect).bind fun p' =>
      (runCallbacks p' effects).map fun r => (r.1, c :: r.2)

-- A timer that takes itself away with its bucket does not keep the next bucket from being called.
example :
    let t := [TimerOp.add 1, .add 2].foldl Timers.perform .new
    ((runCallbacks (checkTimerSources t 2) [[.remove 2], []]).map fun r =>
      (r.1.buckets.map (·.sources), r.2.map (·.source))) = some ([[0]], [2, 0]) := by
  decide +kernel

/-- A timer that was added when no bucket had its period. -/
structure Started where
  source : Nat
  minutes : Int
  deriving DecidableEq, Repr

def Timers.started (t : Timers) : List TimerOp → List Started
  | [] => []
  | op :: ops =>
    (match op with
      | .add minutes => if t.buckets.any (·.minutes = minutes) then [] else [⟨t.nextId, minutes⟩]
      | .remove _ => []) ++ (t.perform op).started ops

/-- The timers that the callbacks of a pass have added so. -/
def startedInPass (p : TimerPass) : List (List TimerOp) → List Started
  | [] => []
  | effect :: effects =>
    p.timers.started effect ++
      match callTimer p effect with
      | some p' => startedInPass p' effects
      | none => []

/-- What a pass of `e` minutes from `t₀` on has done. -/
structure Passed (t₀ : Timers) (e : Int) (t : Timers) (calls : List Calling) : Prop where
  ordered : t.Ordered
  charged : Charged (Bucket.after e) t₀ t
  called : ∀ b₀ ∈ t₀.buckets, b₀.Due e → ∀ b ∈ t.buckets, b.id = b₀.id → b.Called t₀.nextId calls
  due : ∀ call ∈ calls, ∃ b₀ ∈ t₀.buckets, b₀.id = call.bucket ∧ b₀.Due e
  numbered : ∀ call ∈ calls, call.source < t.nextId

section Passes

variable {t₀ t : Timers} {e : Int} {calls : List Calling} {p p' : TimerPass} {c : Calling}
  {effects : List (List TimerOp)} {r : Timers × List Calling} {a : Started}

theorem runCallbacks_cons {effect : List TimerOp} (h : runCallbacks p (effect :: effects) = some r) :
    ∃ c p' r', p.calling = some c ∧ callTimer p effect = some p' ∧
      runCallbacks p' effects = some r' ∧ r = (r'.1, c :: r'.2) := by
  obtain ⟨c, hc, hrest⟩ := Option.bind_eq_some_iff.mp h
  obtain ⟨p', hp', hmap⟩ := Option.bind_eq_some_iff.mp hrest
  obtain ⟨r', hr', rfl⟩ := Option.map_eq_some_iff.mp hmap
  exact ⟨c, p', r', hc, hp', hr', rfl⟩

theorem runCallbacks_nil (h : runCallbacks p [] = some r) :
    p.lost = false ∧ p.calling = none ∧ r = (p.timers, []) := by
  rw [runCallbacks] at h
  split at h
  · rename_i hend
    exact ⟨hend.1, hend.2, (Option.some.inj h).symm⟩
  · exact absurd h nofun

theorem lost_of_runCallbacks (h : runCallbacks p effects = some r) : p.lost = false := by
  cases effects with
  | nil => exact (runCallbacks_nil h).1
  | cons effect effects =>
    obtain ⟨c, p', r', -, hp', -⟩ := runCallbacks_cons h
    unfold callTimer at hp'
    by_contra hlost
    rw [if_pos (Bool.eq_true_of_not_eq_false hlost)] at hp'
    exact absurd hp' nofun

section Preserved

variable {P : Timers → Prop} (hop : ∀ t op, P t → P (t.perform op))
  (hset : ∀ t i v, P t → P (t.setPassed i v))

include hset in
theorem preserved_nextBucket {bs : List Bucket} (h : P p.timers) : P (nextBucket p bs).timers := by
  induction bs generalizing p with
  | nil => exact h
  | cons b bs ih =>
    unfold nextBucket
    split
    · split
      · exact ih (hset _ _ _ h)
      · exact h
    · exact ih (hset _ _ _ h)

include hop in
theorem preserved_foldl {ops : List TimerOp} (h : P t) : P (ops.foldl Timers.perform t) := by
  induction ops generalizing t with
  | nil => exact h
  | cons op ops ih => exact ih (hop t op h)

include hset in
theorem preserved_callTimer {effect : List TimerOp}
    (hopened : P (effect.foldl Timers.perform p.timers)) (hstep : callTimer p effect = some p') :
    P p'.timers := by
  unfold callTimer at hstep
  split at hstep
  · exact absurd hstep nofun
  obtain ⟨c, -, rfl⟩ := Option.map_eq_some_iff.mp hstep
  dsimp only
  cases c.tmpSource with
  | some next =>
    dsimp only
    split <;> exact hopened
  | none =>
    have hdone := hset _ c.bucket 0 hopened
    cases c.tmpBucket with
    | none => exact hdone
    | some next =>
      dsimp only
      split
      · exact hdone
      · exact preserved_nextBucket hset hdone

include hop hset in
-- What the operations keep, and the minutes of the buckets, a pass keeps.
theorem preserved_runCallbacks (h : P p.timers) (hrun : runCallbacks p effects = some r) :
    P r.1 := by
  induction effects generalizing p r with
  | nil =>
    obtain ⟨-, -, rfl⟩ := runCallbacks_nil hrun
    exact h
  | cons effect effects ih =>
    obtain ⟨c, p', r', -, hp', hr', rfl⟩ := runCallbacks_cons hrun
    show P r'.1
    exact ih (preserved_callTimer hset (preserved_foldl hop h) hp') hr'

end Preserved

theorem nextId_le_runCallbacks (hrun : runCallbacks p effects = some r) :
    p.timers.nextId ≤ r.1.nextId :=
  preserved_runCallbacks (P := fun t => p.timers.nextId ≤ t.nextId)
    (fun t op h => h.trans (nextId_le_perform t op)) (fun _ _ _ h => h) le_rfl hrun

theorem Timers.Owns.callback {source : Nat} {minutes : Int} {effect : List TimerOp}
    (h : (effect.foldl Timers.perform p.timers).Owns source minutes)
    (hstep : callTimer p effect = some p') : p'.timers.Owns source minutes :=
  preserved_callTimer (P := fun t => t.Owns source minutes) (fun _ i v h => h.setPassed i v) h hstep

theorem Timers.Owns.callbacks {source : Nat} {minutes : Int} (h : p.timers.Owns source minutes)
    (hrun : runCallbacks p effects = some r) : r.1.Owns source minutes :=
  preserved_runCallbacks (P := fun t => t.Owns source minutes) (fun _ op h => h.perform op)
    (fun _ i v h => h.setPassed i v) h hrun

theorem source_lt_of_stage (h : Stage t₀ e calls p) (hc : p.calling = some c) :
    c.source < p.timers.nextId := by
  obtain ⟨b, hb, -, hsource, -⟩ := (h.calling c hc).sources
  exact (p.timers.numbered b hb).2 c.source hsource

theorem stage_runCallbacks (h₀ : t₀.Ordered) (he : 1 ≤ e) (h : Stage t₀ e calls p)
    (hrun : runCallbacks p effects = some r) :
    Visited t₀ e (calls ++ r.2) 0 r.1 ∧ ∀ call ∈ r.2,
      (∃ b₀ ∈ t₀.buckets, b₀.id = call.bucket ∧ b₀.Due e) ∧ call.source < r.1.nextId := by
  induction effects generalizing p calls r with
  | nil =>
    obtain ⟨-, hend, rfl⟩ := runCallbacks_nil hrun
    rw [List.append_nil]
    exact ⟨h.ended hend, by simp⟩
  | cons effect effects ih =>
    have hgrows := nextId_le_runCallbacks hrun
    obtain ⟨c, p', r', hc, hp', hr', rfl⟩ := runCallbacks_cons hrun
    obtain ⟨hvisited, hcalls⟩ :=
      ih (stage_callTimer h₀ he h hc hp' (lost_of_runCallbacks hr')) hr'
    rw [List.append_assoc] at hvisited
    refine ⟨hvisited, List.forall_mem_cons.mpr ⟨⟨(h.calling c hc).due, ?_⟩, hcalls⟩⟩
    exact (source_lt_of_stage h hc).trans_le hgrows

-- A timer with a bucket of its own is called in this bucket.
theorem bucket_of_owns (h₀ : t₀.Ordered) (he : 1 ≤ e) (h : Stage t₀ e calls p) {source : Nat}
    {minutes : Int} (howns : p.timers.Owns source minutes)
    (hrun : runCallbacks p effects = some r) :
    ∀ call ∈ r.2, call.source = source → call.bucket = source + 1 := by
  induction effects generalizing p calls r with
  | nil =>
    obtain ⟨-, -, rfl⟩ := runCallbacks_nil hrun
    simp
  | cons effect effects ih =>
    obtain ⟨c, p', r', hc, hp', hr', rfl⟩ := runCallbacks_cons hrun
    have howns' := (howns.foldl effect).callback hp'
    have hstage := stage_callTimer h₀ he h hc hp' (lost_of_runCallbacks hr')
    refine List.forall_mem_cons.mpr ⟨?_, ih hstage howns' hr'⟩
    rintro rfl
    obtain ⟨b, hb, hid, hsource, -⟩ := (h.calling c hc).sources
    exact hid.symm.trans (howns.bucket b hb hsource)

theorem owns_of_started {ops : List TimerOp} (h : a ∈ t.started ops) :
    t.nextId ≤ a.source ∧ (ops.foldl Timers.perform t).Owns a.source a.minutes := by
  induction ops generalizing t with
  | nil => exact absurd h List.not_mem_nil
  | cons op ops ih =>
    rcases List.mem_append.mp h with hhere | hrest
    · cases op with
      | remove source => exact absurd hhere List.not_mem_nil
      | add minutes =>
        dsimp only at hhere
        split at hhere
        · exact absurd hhere List.not_mem_nil
        · rename_i hnone
          obtain rfl := List.mem_singleton.mp hhere
          refine ⟨le_rfl, Timers.Owns.foldl (t := t.addTimer minutes) ?_ ops⟩
          simp only [Bool.not_eq_true] at hnone
          unfold Timers.addTimer
          simp only [hnone, Bool.false_eq_true, if_false]
          constructor
          · show t.nextId + 1 < t.nextId + 2
            omega
          · intro b hb hsource
            rcases List.mem_cons.mp hb with rfl | hold
            · rfl
            · exact absurd ((t.numbered b hold).2 _ hsource) (lt_irrefl _)
          · intro b hb hid
            rcases List.mem_cons.mp hb with rfl | hold
            · rfl
            · have hlt := (t.numbered b hold).1
              omega
    · obtain ⟨hle, howns⟩ := ih hrest
      exact ⟨(nextId_le_perform t op).trans hle, howns⟩

/-- A timer that a callback of the pass has added with a new period is not called in this pass. -/
theorem started_of_runCallbacks (h₀ : t₀.Ordered) (he : 1 ≤ e) (h : Stage t₀ e calls p)
    (hrun : runCallbacks p effects = some r) (ha : a ∈ startedInPass p effects) :
    p.timers.nextId ≤ a.source ∧ t₀.nextId ≤ a.source ∧ r.1.Owns a.source a.minutes ∧
      ∀ call ∈ r.2, call.source ≠ a.source := by
  induction effects generalizing p calls r with
  | nil => exact absurd ha List.not_mem_nil
  | cons effect effects ih =>
    obtain ⟨c, p', r', hc, hp', hr', rfl⟩ := runCallbacks_cons hrun
    have hstage := stage_callTimer h₀ he h hc hp' (lost_of_runCallbacks hr')
    have hsource := source_lt_of_stage h hc
    have hgrows : t₀.nextId ≤ p.timers.nextId := (h.calling c hc).visited.charged.nextId_le
    have hgrows' : p.timers.nextId ≤ p'.timers.nextId :=
      preserved_callTimer (P := fun t => p.timers.nextId ≤ t.nextId) (fun _ _ _ h => h)
        (nextId_le_foldl p.timers effect) hp'
    rw [startedInPass, hp'] at ha
    rcases List.mem_append.mp ha with hhere | hrest
    · obtain ⟨hle, howns⟩ := owns_of_started hhere
      have howns' := howns.callback hp'
      have hend := howns'.callbacks hr'
      refine ⟨hle, hgrows.trans hle, hend, List.forall_mem_cons.mpr ⟨by omega, ?_⟩⟩
      intro call hcall heq
      have hbucket := bucket_of_owns h₀ he hstage howns' hr' call hcall heq
      obtain ⟨⟨b₀, hb₀, hid, -⟩, -⟩ := (stage_runCallbacks h₀ he hstage hr').2 call hcall
      have hlt := (t₀.numbered b₀ hb₀).1
      omega
    · obtain ⟨hle, hle₀, howns, hcalls⟩ := ih hstage hr' hrest
      exact ⟨by omega, hle₀, howns, List.forall_mem_cons.mpr ⟨by omega, hcalls⟩⟩

-- The start of a pass, and the pass that finds no minute to charge.
theorem stage_checkTimerSources (h₀ : t₀.Ordered) (he : 1 ≤ e) (hne : t₀.buckets ≠ []) :
    Stage t₀ e [] (checkTimerSources t₀ e) := by
  unfold checkTimerSources
  dsimp only
  rw [if_neg (by rw [not_or]; exact ⟨hne, by omega⟩)]
  refine stage_nextBucket h₀ he rfl le_rfl ⟨h₀, ?_, ?_⟩ ?_
  · refine (Charged.refl t₀).congr fun b hb _ => ?_
    have hlt := (t₀.numbered b hb).1
    rw [Bucket.visited, if_neg (by omega)]
  · intro b hb hid
    have hlt := (t₀.numbered b hb).1
    omega
  · exact List.filter_eq_self.mpr fun b hb => decide_eq_true (t₀.numbered b hb).1

theorem runCallbacks_idle (h : t₀.buckets = [] ∨ e < 1)
    (hrun : runCallbacks (checkTimerSources t₀ e) effects = some r) :
    effects = [] ∧ r = (t₀, []) := by
  have hcheck : checkTimerSources t₀ e = { timers := t₀, elapsedMinutes := e } := if_pos h
  rw [hcheck] at hrun
  cases effects with
  | nil => exact ⟨rfl, (runCallbacks_nil hrun).2.2⟩
  | cons effect effects =>
    obtain ⟨c, -, -, hc, -⟩ := runCallbacks_cons hrun
    exact absurd hc nofun

theorem passed_of_runCallbacks (h₀ : t₀.Ordered) (he : 0 ≤ e)
    (hrun : runCallbacks (checkTimerSources t₀ e) effects = some r) : Passed t₀ e r.1 r.2 := by
  by_cases hidle : t₀.buckets = [] ∨ e < 1
  · obtain ⟨-, rfl⟩ := runCallbacks_idle hidle hrun
    have hwait : ∀ b ∈ t₀.buckets, ¬ b.Due e ∧ e = 0 := by
      intro b hb
      rcases hidle with hnil | hlt
      · rw [hnil] at hb
        exact absurd hb List.not_mem_nil
      · exact ⟨fun hdue => absurd hdue.1 (by omega), by omega⟩
    constructor
    · exact h₀
    · refine (Charged.refl t₀).congr fun b hb _ => ?_
      obtain ⟨hwait, rfl⟩ := hwait b hb
      rw [Bucket.after, if_neg hwait, add_zero]
    · exact fun b hb hdue => absurd hdue (hwait b hb).1
    · simp
    · simp
  · rw [not_or] at hidle
    obtain ⟨hvisited, hcalls⟩ := stage_runCallbacks h₀ (by omega)
      (stage_checkTimerSources h₀ (by omega) hidle.1) hrun
    rw [List.nil_append] at hvisited
    constructor
    · exact hvisited.ordered
    · refine hvisited.charged.congr fun b _ _ => ?_
      rw [Bucket.visited, if_pos (Nat.zero_le _)]
    · exact fun b₀ hb₀ hdue b hb hid => hvisited.called b hb (Nat.zero_le _) b₀ hb₀ hid.symm hdue
    · exact fun call hcall => (hcalls call hcall).1
    · exact fun call hcall => (hcalls call hcall).2

theorem Timers.Owns.pass {source : Nat} {minutes : Int} (howns : t₀.Owns source minutes)
    (h₀ : t₀.Ordered) (hrun : runCallbacks (checkTimerSources t₀ e) effects = some r) :
    r.1.Owns source minutes ∧ ∀ call ∈ r.2, call.source = source → call.bucket = source + 1 := by
  by_cases hidle : t₀.buckets = [] ∨ e < 1
  · obtain ⟨-, rfl⟩ := runCallbacks_idle hidle hrun
    exact ⟨howns, by simp⟩
  · rw [not_or] at hidle
    have hstart : (checkTimerSources t₀ e).timers.Owns source minutes := by
      unfold checkTimerSources
      dsimp only
      split
      · exact howns
      · exact preserved_nextBucket (P := fun t => t.Owns source minutes)
          (fun _ i v h => h.setPassed i v) howns
    exact ⟨hstart.callbacks hrun, bucket_of_owns h₀ (by omega)
      (stage_checkTimerSources h₀ (by omega) hidle.1) hstart hrun⟩

theorem Started.pass (h₀ : t₀.Ordered)
    (hrun : runCallbacks (checkTimerSources t₀ e) effects = some r)
    (ha : a ∈ startedInPass (checkTimerSources t₀ e) effects) :
    t₀.nextId ≤ a.source ∧ r.1.Owns a.source a.minutes ∧ ∀ call ∈ r.2, call.source ≠ a.source := by
  by_cases hidle : t₀.buckets = [] ∨ e < 1
  · obtain ⟨rfl, -⟩ := runCallbacks_idle hidle hrun
    exact absurd ha List.not_mem_nil
  · rw [not_or] at hidle
    exact (started_of_runCallbacks h₀ (by omega) (stage_checkTimerSources h₀ (by omega) hidle.1)
      hrun ha).2

-- A bucket that is due is called, unless another one is called first.
theorem calling_nextBucket {bs : List Bucket} (hsources : ∀ b ∈ bs, b.sources ≠ [])
    (hdue : ∃ b ∈ bs, b.minutes ≤ b.minutesPassed + p.elapsedMinutes) :
    (nextBucket p bs).calling ≠ none := by
  induction bs generalizing p with
  | nil =>
    obtain ⟨b, hb, -⟩ := hdue
    exact absurd hb List.not_mem_nil
  | cons b bs ih =>
    rw [List.forall_mem_cons] at hsources
    obtain ⟨b', hb', hle⟩ := hdue
    unfold nextBucket
    split
    · split
      · rename_i hnil
        exact absurd hnil hsources.1
      · exact nofun
    · rename_i hlt
      refine ih hsources.2 ⟨b', ?_, hle⟩
      rcases List.mem_cons.mp hb' with rfl | hrest
      · exact absurd hle hlt
      · exact hrest

theorem calling_checkTimerSources {b : Bucket} (hb : b ∈ t₀.buckets) (hdue : b.Due e) :
    (checkTimerSources t₀ e).calling ≠ none := by
  have hgo : ¬ (t₀.buckets = [] ∨ e < 1) := by
    rw [not_or]
    exact ⟨List.ne_nil_of_mem hb, by have := hdue.1; omega⟩
  unfold checkTimerSources
  dsimp only
  rw [if_neg hgo]
  exact calling_nextBucket t₀.nonempty ⟨b, hb, hdue.2⟩

end Passes

/-! ## 3. A timer alone -/

/-- All other timers are removed. -/
def Timers.removeOthers (t : Timers) (source : Nat) : List TimerOp :=
  ((t.buckets.flatMap (·.sources)).filter (· ≠ source)).map .remove

section Alone

variable {t : Timers} {e : Int} {source : Nat} {minutes : Int} {b : Bucket}

theorem nextId_foldl_remove (t : Timers) (sources : List Nat) :
    ((sources.map TimerOp.remove).foldl Timers.perform t).nextId = t.nextId := by
  induction sources generalizing t with
  | nil => rfl
  | cons source sources ih => exact ih (t.removeSource source)

theorem buckets_removeOthers (h : t.Ordered) (howns : t.Owns source minutes)
    (hheld : t.Holds source) :
    ∃ b, ((t.removeOthers source).foldl Timers.perform t).buckets = [b] ∧ b.sources = [source] ∧
      b.id = source + 1 := by
  have hordered := h.foldl (t.removeOthers source)
  have howns' := howns.foldl (t.removeOthers source)
  have hheld' : ((t.removeOthers source).foldl Timers.perform t).Holds source := by
    rw [holds_foldl (lt_of_holds hheld)]
    refine ⟨hheld, fun hmem => ?_⟩
    obtain ⟨other, hother, heq⟩ := List.mem_map.mp hmem
    have hne := (List.mem_filter.mp hother).2
    rw [TimerOp.remove.inj heq] at hne
    simp at hne
  -- whatever is left of a bucket is the source
  have honly : ∀ b ∈ ((t.removeOthers source).foldl Timers.perform t).buckets,
      ∀ other ∈ b.sources, other = source := by
    intro b hb other hother
    by_contra hne
    have hold : other < t.nextId := by
      rw [← nextId_foldl_remove t ((t.buckets.flatMap (·.sources)).filter (· ≠ source))]
      exact (Timers.numbered _ b hb).2 other hother
    have hboth := (holds_foldl hold).mp ⟨b, hb, hother⟩
    obtain ⟨⟨d, hd, hmem⟩, hkept⟩ := hboth
    apply hkept
    refine List.mem_map.mpr ⟨other, List.mem_filter.mpr ⟨?_, by simpa using hne⟩, rfl⟩
    exact List.mem_flatMap.mpr ⟨d, hd, hmem⟩
  generalize (t.removeOthers source).foldl Timers.perform t = t' at hordered howns' hheld' honly ⊢
  have hsources : ∀ b ∈ t'.buckets, b.sources = [source] := by
    intro b hb
    obtain ⟨other, rest, hcons⟩ := List.exists_cons_of_ne_nil (t'.nonempty b hb)
    have hnodup := hordered.nodup b hb
    have hall := honly b hb
    rw [hcons] at hnodup hall ⊢
    obtain rfl := hall other List.mem_cons_self
    cases rest with
    | nil => rfl
    | cons again rest =>
      obtain rfl := hall again (by simp)
      simp at hnodup
  have hids : ∀ b ∈ t'.buckets, b.id = source + 1 := fun b hb =>
    howns'.bucket b hb (by rw [hsources b hb]; exact List.mem_singleton.mpr rfl)
  obtain ⟨b, hb, -⟩ := hheld'
  refine ⟨b, ?_, hsources b hb, hids b hb⟩
  have hsorted := hordered.sorted
  cases hbuckets : t'.buckets with
  | nil =>
    rw [hbuckets] at hb
    exact absurd hb List.not_mem_nil
  | cons d ds =>
    rw [hbuckets] at hsorted hids
    have hd := hids d List.mem_cons_self
    cases ds with
    | nil =>
      have hid := (hids b (hbuckets ▸ hb)).trans hd.symm
      rw [hordered.eq_of_id hb (hbuckets ▸ List.mem_cons_self) hid]
    | cons d' ds =>
      have hlt := (List.pairwise_cons.mp hsorted).1 d' List.mem_cons_self
      have hd' := hids d' (by simp)
      omega

theorem runCallbacks_alone (hb : t.buckets = [b]) (hsource : b.sources = [source])
    (hdue : b.Due e) :
    runCallbacks (checkTimerSources t e) [[]] = some (t.setPassed b.id 0,
      [{ bucket := b.id, source, tmpSource := none, tmpBucket := none }]) := by
  have hcheck : checkTimerSources t e = {
      timers := t
      elapsedMinutes := e
      calling := some { bucket := b.id, source, tmpSource := none, tmpBucket := none } } := by
    unfold checkTimerSources
    dsimp only
    rw [if_neg (by rw [hb, not_or]; exact ⟨List.cons_ne_nil _ _, by have := hdue.1; omega⟩), hb,
      nextBucket, if_pos hdue.2, hsource]
    rfl
  rw [hcheck, runCallbacks, Option.bind_some, callTimer]
  simp only [Bool.false_eq_true, if_false, Option.map_some, List.foldl_nil]
  rfl

end Alone

end Notbit.MainContext
