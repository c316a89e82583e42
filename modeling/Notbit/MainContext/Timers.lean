import Mathlib.Data.List.TakeWhile
import Notbit.Lib.Runs

/-!
# Timers — the timer sources of the main loop (`ntb-main-context.c`)

Timers with the same period share a bucket, which is there as long as it has a source.  One loop goes
through the buckets and one through the sources of a bucket, and each has remembered the element that
follows when a callback runs.  The callbacks may register and remove timers as they like, and so what
was remembered may be gone.
-/

open Runs

namespace Notbit.MainContext

/-! ## 1. Buckets -/

/-- `struct ntb_main_context_bucket`.  Buckets and sources have the numbers of the calls that made
them, so that memory that is used again is not taken for what was there before. -/
structure Bucket where
  id : Nat
  minutes : Int
  minutesPassed : Int := 0
  sources : List Nat
  deriving DecidableEq, Repr

/-- The buckets of the main context, the newest one first, and in each the newest source first. -/
structure Timers where
  buckets : List Bucket := []
  nextId : Nat := 0
  nonempty : ∀ b ∈ buckets, b.sources ≠ [] := by simp
  numbered : ∀ b ∈ buckets, b.id < nextId ∧ ∀ source ∈ b.sources, source < nextId := by simp

/-- No timers. -/
def Timers.new : Timers := {}

@[simp] theorem Timers.buckets_new : Timers.new.buckets = [] := rfl

/-- What a callback can do to the timers. -/
inductive TimerOp where
  | add (minutes : Int)
  | remove (source : Nat)
  deriving DecidableEq, Repr

/-- A source in front of the others of a bucket. -/
def Bucket.insert (source : Nat) (b : Bucket) : Bucket := { b with sources := source :: b.sources }

/-- The buckets with a source more in the first one with this period. -/
def insertTimer (minutes : Int) (source : Nat) : List Bucket → List Bucket
  | [] => []
  | b :: bs =>
    if b.minutes = minutes then b.insert source :: bs else b :: insertTimer minutes source bs

/-- A bucket without a source; there is none when that was the last one. -/
def Bucket.drop (source : Nat) (b : Bucket) : Option Bucket :=
  if source ∈ b.sources then
    if b.sources.filter (· ≠ source) = [] then none
    else some { b with sources := b.sources.filter (· ≠ source) }
  else some b

theorem mem_insertTimer {minutes : Int} {source : Nat} {bs : List Bucket} {b' : Bucket}
    (h : b' ∈ insertTimer minutes source bs) : b' ∈ bs ∨ ∃ b ∈ bs, b' = b.insert source := by
  induction bs with
  | nil => cases h
  | cons b bs ih =>
    rw [insertTimer] at h
    split at h
    · rcases List.mem_cons.mp h with rfl | h
      · exact Or.inr ⟨b, List.mem_cons_self, rfl⟩
      · exact Or.inl (List.mem_cons_of_mem _ h)
    · rcases List.mem_cons.mp h with rfl | h
      · exact Or.inl List.mem_cons_self
      · rcases ih h with h | ⟨b, hb, rfl⟩
        · exact Or.inl (List.mem_cons_of_mem _ h)
        · exact Or.inr ⟨b, List.mem_cons_of_mem _ hb, rfl⟩

theorem insertTimer_mem (minutes : Int) (source : Nat) {bs : List Bucket} {b : Bucket}
    (h : b ∈ bs) :
    b ∈ insertTimer minutes source bs ∨ b.insert source ∈ insertTimer minutes source bs := by
  induction bs with
  | nil => cases h
  | cons c bs ih =>
    rw [insertTimer]
    rcases List.mem_cons.mp h with rfl | h
    · split
      · exact Or.inr List.mem_cons_self
      · exact Or.inl List.mem_cons_self
    · split
      · exact Or.inl (List.mem_cons_of_mem _ h)
      · exact (ih h).imp (List.mem_cons_of_mem _) (List.mem_cons_of_mem _)

theorem Bucket.drop_eq_some {source : Nat} {b b' : Bucket} (h : b.drop source = some b') :
    b'.id = b.id ∧ b'.sources = b.sources.filter (· ≠ source) ∧
      (b.sources ≠ [] → b'.sources ≠ []) := by
  unfold Bucket.drop at h
  split at h
  · split at h
    · cases h
    · next hne =>
      cases h
      exact ⟨rfl, rfl, fun _ => hne⟩
  · next hmem =>
    cases h
    refine ⟨rfl, (List.filter_eq_self.mpr fun other hother => ?_).symm, fun hne => hne⟩
    simp only [ne_eq, decide_not, Bool.not_eq_true', decide_eq_false_iff_not]
    rintro rfl
    exact hmem hother

namespace Timers

/-- `ntb_main_context_add_timer` with `get_bucket`. -/
def addTimer (t : Timers) (minutes : Int) : Timers where
  buckets :=
    if t.buckets.any (·.minutes = minutes) then insertTimer minutes t.nextId t.buckets
    else { id := t.nextId + 1, minutes, sources := [t.nextId] } :: t.buckets
  nextId := t.nextId + 2
  nonempty := by
    intro b hb
    split at hb
    · rcases mem_insertTimer hb with hb | ⟨b, -, rfl⟩
      · exact t.nonempty b hb
      · exact List.cons_ne_nil _ _
    · rcases List.mem_cons.mp hb with rfl | hb
      · exact List.cons_ne_nil _ _
      · exact t.nonempty b hb
  numbered := by
    have hold : ∀ b ∈ t.buckets, b.id < t.nextId + 2 ∧ ∀ source ∈ b.sources,
        source < t.nextId + 2 := fun b hb =>
      ⟨by have := (t.numbered b hb).1; omega, fun source hsource => by
        have := (t.numbered b hb).2 source hsource
        omega⟩
    intro b hb
    split at hb
    · rcases mem_insertTimer hb with hb | ⟨b, hmem, rfl⟩
      · exact hold b hb
      · exact ⟨(hold b hmem).1, List.forall_mem_cons.mpr ⟨by omega, (hold b hmem).2⟩⟩
    · rcases List.mem_cons.mp hb with rfl | hb
      · exact ⟨by simp, by simp⟩
      · exact hold b hb

/-- `ntb_main_context_remove_source` -/
def removeSource (t : Timers) (source : Nat) : Timers where
  buckets := t.buckets.filterMap (Bucket.drop source)
  nextId := t.nextId
  nonempty b' hb' := by
    obtain ⟨b, hb, hdrop⟩ := List.mem_filterMap.mp hb'
    exact (Bucket.drop_eq_some hdrop).2.2 (t.nonempty b hb)
  numbered b' hb' := by
    obtain ⟨b, hb, hdrop⟩ := List.mem_filterMap.mp hb'
    obtain ⟨hid, hsources, -⟩ := Bucket.drop_eq_some hdrop
    rw [hid, hsources]
    exact ⟨(t.numbered b hb).1, fun other hother =>
      (t.numbered b hb).2 other (List.mem_filter.mp hother).1⟩

/-- A bucket with another number of minutes. -/
def setPassed (t : Timers) (id : Nat) (minutesPassed : Int) : Timers where
  buckets := t.buckets.map fun b => if b.id = id then { b with minutesPassed } else b
  nextId := t.nextId
  nonempty b' hb' := by
    obtain ⟨b, hb, rfl⟩ := List.mem_map.mp hb'
    have hne := t.nonempty b hb
    split <;> exact hne
  numbered b' hb' := by
    obtain ⟨b, hb, rfl⟩ := List.mem_map.mp hb'
    have hlt := t.numbered b hb
    split <;> exact hlt

def perform (t : Timers) : TimerOp → Timers
  | .add minutes => t.addTimer minutes
  | .remove source => t.removeSource source

/-- The source is registered. -/
def Holds (t : Timers) (source : Nat) : Prop := ∃ b ∈ t.buckets, source ∈ b.sources

/-- The sources of a bucket; a bucket that is gone has none. -/
def sourcesOf (t : Timers) (bucket : Nat) : List Nat :=
  ((t.buckets.find? (·.id = bucket)).map (·.sources)).getD []

end Timers

/-! ## 2. One pass -/

/-- The element behind another one in a list. -/
def following (l : List Nat) (a : Nat) : Option Nat := (l.dropWhile (· ≠ a)).tail.head?

/-- Where the two loops are while a callback runs: the bucket and the source of the callback, and the
elements that are remembered, unless they are the ends of the lists. -/
structure Calling where
  bucket : Nat
  source : Nat
  tmpSource : Option Nat
  tmpBucket : Option Nat
  deriving DecidableEq, Repr

/-- A pass over the buckets.  `usesFreed` says that memory was used that had been freed, and `lost`
that a loop goes on with an element in such memory, so that nobody can say what follows. -/
structure TimerPass where
  timers : Timers
  elapsedMinutes : Int
  calling : Option Calling := none
  usesFreed : Bool := false
  lost : Bool := false

/-- The loop of `check_timer_sources` from one of its buckets on, up to the next callback. -/
def nextBucket (p : TimerPass) : List Bucket → TimerPass
  | [] => { p with calling := none }
  | b :: rest =>
    if b.minutesPassed + p.elapsedMinutes ≥ b.minutes then
      match b.sources with
      | [] => nextBucket { p with timers := p.timers.setPassed b.id 0 } rest
      | source :: sources =>
        { p with
          calling := some { bucket := b.id, source, tmpSource := sources.head?
                            tmpBucket := rest.head?.map (·.id) } }
    else
      nextBucket { p with
        timers := p.timers.setPassed b.id (b.minutesPassed + p.elapsedMinutes) } rest

/-- `check_timer_sources` up to the first callback, with the minutes since the last pass. -/
def checkTimerSources (t : Timers) (elapsedMinutes : Int) : TimerPass :=
  let p : TimerPass := { timers := t, elapsedMinutes }
  if t.buckets = [] ∨ elapsedMinutes < 1 then p else nextBucket p t.buckets

/-- The callback of the current source, which does `effect`, and the way of the two loops to the next
one. -/
def callTimer (p : TimerPass) (effect : List TimerOp) : Option TimerPass :=
  if p.lost then none
  else
    p.calling.map fun c =>
      let t := effect.foldl Timers.perform p.timers
      match c.tmpSource with
      | some next =>
        -- the source that was remembered is asked for the one behind it
        match t.buckets.find? (next ∈ ·.sources) with
        | none => { p with timers := t, usesFreed := true, lost := true }
        | some b =>
          { p with
            timers := t
            calling := some { c with source := next, tmpSource := following b.sources next } }
      | none =>
        -- the end of the list is in the bucket, and so are the minutes: a bucket that is gone is
        -- written to as it was freed, and the loop goes on with the next one
        let p := { p with
          timers := t.setPassed c.bucket 0
          usesFreed := p.usesFreed || (t.sourcesOf c.bucket).isEmpty }
        match c.tmpBucket with
        | none => { p with calling := none }
        | some next =>
          match p.timers.buckets.dropWhile (·.id ≠ next) with
          | [] => { p with usesFreed := true, lost := true }
          | b :: rest => nextBucket p (b :: rest)

/-- The bucket has a source before the callback and after everything that it does. -/
def Timers.Keeps (t : Timers) (bucket : Nat) (effect : List TimerOp) : Prop :=
  ∀ pre, pre <+: effect → (pre.foldl Timers.perform t).sourcesOf bucket ≠ []

/-- A callback that leaves alone what the loops have remembered: it does not remove the source behind
its own, and when it is the last one of its bucket, neither this bucket nor the next one has lost its
sources. -/
def Spares (p : TimerPass) (effect : List TimerOp) : Prop :=
  ∀ c ∈ p.calling, match c.tmpSource with
    | some next => .remove next ∉ effect
    | none => p.timers.Keeps c.bucket effect ∧ ∀ next ∈ c.tmpBucket, p.timers.Keeps next effect

/-! ## 3. What stays registered -/

section Alive

variable {t : Timers} {op : TimerOp} {effect : List TimerOp} {source bucket : Nat}

theorem lt_of_holds (h : t.Holds source) : source < t.nextId := by
  obtain ⟨b, hb, hsource⟩ := h
  exact (t.numbered b hb).2 source hsource

theorem nextId_le_perform (t : Timers) (op : TimerOp) : t.nextId ≤ (t.perform op).nextId := by
  cases op with
  | add minutes => exact Nat.le_add_right _ _
  | remove source => exact le_rfl

theorem holds_removeSource {removed : Nat} :
    (t.removeSource removed).Holds source ↔ t.Holds source ∧ source ≠ removed := by
  constructor
  · rintro ⟨b', hb', hsource⟩
    obtain ⟨b, hb, hdrop⟩ := List.mem_filterMap.mp hb'
    rw [(Bucket.drop_eq_some hdrop).2.1, List.mem_filter] at hsource
    exact ⟨⟨b, hb, hsource.1⟩, by simpa using hsource.2⟩
  · rintro ⟨⟨b, hb, hsource⟩, hne⟩
    have hkept : source ∈ b.sources.filter (· ≠ removed) :=
      List.mem_filter.mpr ⟨hsource, by simpa using hne⟩
    by_cases hmem : removed ∈ b.sources
    · refine ⟨{ b with sources := b.sources.filter (· ≠ removed) }, ?_, hkept⟩
      refine List.mem_filterMap.mpr ⟨b, hb, ?_⟩
      rw [Bucket.drop, if_pos hmem, if_neg (List.ne_nil_of_mem hkept)]
    · refine ⟨b, List.mem_filterMap.mpr ⟨b, hb, ?_⟩, hsource⟩
      rw [Bucket.drop, if_neg hmem]

theorem holds_addTimer {minutes : Int} (h : source < t.nextId) :
    (t.addTimer minutes).Holds source ↔ t.Holds source := by
  unfold Timers.Holds Timers.addTimer
  dsimp only
  constructor
  · rintro ⟨b', hb', hsource⟩
    split at hb'
    · rcases mem_insertTimer hb' with hb | ⟨b, hb, rfl⟩
      · exact ⟨b', hb, hsource⟩
      · rcases List.mem_cons.mp hsource with rfl | hsource
        · exact absurd h (lt_irrefl _)
        · exact ⟨b, hb, hsource⟩
    · rcases List.mem_cons.mp hb' with rfl | hb
      · rw [List.mem_singleton.mp hsource] at h
        exact absurd h (lt_irrefl _)
      · exact ⟨b', hb, hsource⟩
  · rintro ⟨b, hb, hsource⟩
    split
    · rcases insertTimer_mem minutes t.nextId hb with hb' | hb'
      · exact ⟨b, hb', hsource⟩
      · exact ⟨_, hb', List.mem_cons_of_mem _ hsource⟩
    · exact ⟨b, List.mem_cons_of_mem _ hb, hsource⟩

-- A source that was registered is there as long as nobody removes it.
theorem holds_foldl (h : source < t.nextId) :
    (effect.foldl Timers.perform t).Holds source ↔ t.Holds source ∧ .remove source ∉ effect := by
  induction effect generalizing t with
  | nil => simp
  | cons op effect ih =>
    have hstep : (t.perform op).Holds source ↔ t.Holds source ∧ op ≠ .remove source := by
      cases op with
      | add minutes =>
        rw [Timers.perform, holds_addTimer h]
        simp
      | remove removed =>
        rw [Timers.perform, holds_removeSource]
        simp [eq_comm]
    rw [List.foldl_cons, ih (lt_of_lt_of_le h (nextId_le_perform t op)), hstep, List.mem_cons,
      not_or, and_assoc]
    exact Iff.and Iff.rfl (Iff.and ne_comm Iff.rfl)

theorem sourcesOf_eq_nil_iff :
    t.sourcesOf bucket = [] ↔ ∀ b ∈ t.buckets, b.id ≠ bucket := by
  unfold Timers.sourcesOf
  cases hfind : t.buckets.find? (·.id = bucket) with
  | none =>
    simpa using hfind
  | some b =>
    have hb := List.mem_of_find?_eq_some hfind
    have hid : b.id = bucket := by simpa using List.find?_some hfind
    exact iff_of_false (t.nonempty b hb) fun hall => hall b hb hid

-- A bucket that is gone does not come back: another one has another number.
theorem gone_perform (h : bucket < t.nextId) (hgone : t.sourcesOf bucket = []) :
    (t.perform op).sourcesOf bucket = [] := by
  rw [sourcesOf_eq_nil_iff] at hgone ⊢
  intro b' hb'
  cases op with
  | add minutes =>
    unfold Timers.perform Timers.addTimer at hb'
    dsimp only at hb'
    split at hb'
    · rcases mem_insertTimer hb' with hb | ⟨b, hb, rfl⟩
      · exact hgone b' hb
      · exact hgone b hb
    · rcases List.mem_cons.mp hb' with rfl | hb
      · show t.nextId + 1 ≠ bucket
        omega
      · exact hgone b' hb
  | remove removed =>
    obtain ⟨b, hb, hdrop⟩ := List.mem_filterMap.mp hb'
    rw [(Bucket.drop_eq_some hdrop).1]
    exact hgone b hb

theorem gone_foldl (h : bucket < t.nextId) (hgone : t.sourcesOf bucket = []) :
    (effect.foldl Timers.perform t).sourcesOf bucket = [] := by
  induction effect generalizing t with
  | nil => exact hgone
  | cons op effect ih =>
    exact ih (lt_of_lt_of_le h (nextId_le_perform t op)) (gone_perform h hgone)

theorem nextId_le_foldl (t : Timers) (effect : List TimerOp) :
    t.nextId ≤ (effect.foldl Timers.perform t).nextId := by
  induction effect generalizing t with
  | nil => exact le_rfl
  | cons op effect ih => exact (nextId_le_perform t op).trans (ih _)

theorem keeps_iff (h : bucket < t.nextId) :
    t.Keeps bucket effect ↔ (effect.foldl Timers.perform t).sourcesOf bucket ≠ [] := by
  refine ⟨fun hkeeps => hkeeps effect List.prefix_rfl, ?_⟩
  rintro hend pre ⟨rest, rfl⟩ hgone
  apply hend
  rw [List.foldl_append]
  exact gone_foldl (lt_of_lt_of_le h (nextId_le_foldl t pre)) hgone

end Alive

/-! ## 4. Whole passes -/

/-- What the loops have remembered was there when they remembered it: the next source is registered,
and the buckets have been made. -/
structure Remembers (t : Timers) (c : Calling) : Prop where
  source : ∀ next ∈ c.tmpSource, t.Holds next
  bucket : c.bucket < t.nextId
  nextBucket : ∀ next ∈ c.tmpBucket, next < t.nextId

/-- A pass that has not gone wrong. -/
structure Sound (p : TimerPass) : Prop where
  calling : ∀ c ∈ p.calling, Remembers p.timers c
  spared : p.usesFreed = false
  followed : p.lost = false

variable {p p' : TimerPass} {effect : List TimerOp}

theorem holds_setPassed {t : Timers} {bucket source : Nat} {minutesPassed : Int} :
    (t.setPassed bucket minutesPassed).Holds source ↔ t.Holds source := by
  unfold Timers.Holds Timers.setPassed
  simp only [List.mem_map, exists_exists_and_eq_and]
  refine exists_congr fun b => and_congr_right fun _ => ?_
  split <;> rfl

theorem sourcesOf_setPassed {t : Timers} {bucket other : Nat} {minutesPassed : Int} :
    (t.setPassed bucket minutesPassed).sourcesOf other = [] ↔ t.sourcesOf other = [] := by
  rw [sourcesOf_eq_nil_iff, sourcesOf_eq_nil_iff]
  unfold Timers.setPassed
  rw [List.forall_mem_map]
  refine forall₂_congr fun b _ => ?_
  split <;> rfl

/-- The way to the next callback, past the buckets that are not due. -/
theorem sound_nextBucket (hspared : p.usesFreed = false) (hfollowed : p.lost = false)
    {bs : List Bucket}
    (hbs : ∀ b ∈ bs, b.id < p.timers.nextId ∧ ∀ source ∈ b.sources, p.timers.Holds source) :
    Sound (nextBucket p bs) := by
  induction bs generalizing p with
  | nil => exact ⟨nofun, hspared, hfollowed⟩
  | cons b bs ih =>
    obtain ⟨hb, hrest⟩ := List.forall_mem_cons.mp hbs
    have hpass : ∀ minutesPassed, ∀ c ∈ bs,
        c.id < (p.timers.setPassed b.id minutesPassed).nextId ∧
          ∀ source ∈ c.sources, (p.timers.setPassed b.id minutesPassed).Holds source :=
      fun minutesPassed c hc =>
        ⟨(hrest c hc).1, fun source hsource => holds_setPassed.mpr ((hrest c hc).2 source hsource)⟩
    unfold nextBucket
    split
    · split
      · exact ih hspared hfollowed (hpass 0)
      · next source sources hsources =>
        refine ⟨?_, hspared, hfollowed⟩
        rintro c ⟨⟩
        refine ⟨fun next hnext => ?_, hb.1, fun next hnext => ?_⟩
        · apply hb.2 next
          rw [hsources]
          exact List.mem_cons_of_mem _ (List.mem_of_head? hnext)
        · obtain ⟨c, hc, rfl⟩ := Option.map_eq_some_iff.mp hnext
          exact (hrest c (List.mem_of_head? hc)).1
    · exact ih hspared hfollowed (hpass _)

theorem usesFreed_nextBucket (bs : List Bucket) : (nextBucket p bs).usesFreed = p.usesFreed := by
  induction bs generalizing p with
  | nil => rfl
  | cons b bs ih =>
    unfold nextBucket
    split
    · split
      · exact ih
      · rfl
    · exact ih

theorem sound_checkTimerSources (t : Timers) (elapsedMinutes : Int) :
    Sound (checkTimerSources t elapsedMinutes) := by
  unfold checkTimerSources
  dsimp only
  split
  · exact ⟨nofun, rfl, rfl⟩
  · refine sound_nextBucket rfl rfl fun b hb => ⟨(t.numbered b hb).1, fun source hsource => ?_⟩
    exact ⟨b, hb, hsource⟩

theorem mem_of_following {l : List Nat} {a b : Nat} (h : following l a = some b) : b ∈ l :=
  (List.dropWhile_suffix _).subset (List.mem_of_mem_tail (List.mem_of_head? h))

theorem find_source_iff {t : Timers} {source : Nat} :
    (t.buckets.find? (source ∈ ·.sources)).isSome ↔ t.Holds source := by
  rw [List.find?_isSome]
  simp [Timers.Holds]

theorem dropWhile_bucket_iff {t : Timers} {bucket : Nat} :
    t.buckets.dropWhile (·.id ≠ bucket) ≠ [] ↔ t.sourcesOf bucket ≠ [] := by
  rw [ne_eq, List.dropWhile_eq_nil_iff, ne_eq, sourcesOf_eq_nil_iff]
  simp

/-- The step after a callback: the next source if there is one, and else the next bucket. -/
theorem callTimer_spares (h : Sound p) (hstep : callTimer p effect = some p') :
    (Spares p effect → Sound p') ∧ (¬ Spares p effect → p'.usesFreed = true) := by
  unfold callTimer at hstep
  rw [if_neg (by rw [h.followed]; exact Bool.false_ne_true)] at hstep
  obtain ⟨c, hc, rfl⟩ := Option.map_eq_some_iff.mp hstep
  obtain ⟨hsource, hbucket, hnext⟩ := h.calling c hc
  have hspares : Spares p effect ↔ match c.tmpSource with
      | some next => .remove next ∉ effect
      | none => p.timers.Keeps c.bucket effect ∧
        ∀ next ∈ c.tmpBucket, p.timers.Keeps next effect := by
    unfold Spares
    rw [hc]
    simp
  rw [hspares]
  have hgrows := nextId_le_foldl p.timers effect
  dsimp only
  generalize ht : effect.foldl Timers.perform p.timers = t at hgrows ⊢
  cases htmp : c.tmpSource with
  | some next =>
    have hheld : t.Holds next ↔ .remove next ∉ effect := by
      rw [← ht, holds_foldl (lt_of_holds (hsource next htmp)), and_iff_right (hsource next htmp)]
    dsimp only
    rw [← hheld, ← find_source_iff]
    cases hfind : t.buckets.find? (next ∈ ·.sources) with
    | none => exact ⟨fun hsome => absurd hsome (Bool.false_ne_true), fun _ => rfl⟩
    | some b =>
      have hb := List.mem_of_find?_eq_some hfind
      refine ⟨fun _ => ⟨?_, h.spared, h.followed⟩, fun hgone => absurd rfl hgone⟩
      rintro c' ⟨⟩
      refine ⟨fun after hafter => ⟨b, hb, mem_of_following hafter⟩, lt_of_lt_of_le hbucket hgrows,
        fun after hafter => lt_of_lt_of_le (hnext after hafter) hgrows⟩
  | none =>
    dsimp only
    rw [keeps_iff hbucket, ht]
    -- the flag says whether the bucket is gone
    have hflag : (p.usesFreed || (t.sourcesOf c.bucket).isEmpty) = false ↔
        t.sourcesOf c.bucket ≠ [] := by
      rw [h.spared, Bool.false_or, List.isEmpty_eq_false_iff]
    rw [← hflag]
    generalize (p.usesFreed || (t.sourcesOf c.bucket).isEmpty) = freed
    cases htmpBucket : c.tmpBucket with
    | none =>
      dsimp only
      refine ⟨fun hkept => ⟨by simp, hkept.1, h.followed⟩, fun hgone => ?_⟩
      exact Bool.eq_true_of_not_eq_false fun hkept => hgone ⟨hkept, by simp⟩
    | some next =>
      have hlt := hnext next htmpBucket
      have hkept : p.timers.Keeps next effect ↔
          (t.setPassed c.bucket 0).buckets.dropWhile (·.id ≠ next) ≠ [] := by
        rw [keeps_iff hlt, ht, dropWhile_bucket_iff, ne_eq, ne_eq, sourcesOf_setPassed]
      have hall : (∀ next' ∈ some next, p.timers.Keeps next' effect) ↔
          p.timers.Keeps next effect := by simp
      dsimp only
      rw [hall, hkept]
      cases hdrop : (t.setPassed c.bucket 0).buckets.dropWhile (·.id ≠ next) with
      | nil => exact ⟨fun hkeeps => absurd rfl hkeeps.2, fun _ => rfl⟩
      | cons b' rest =>
        dsimp only
        refine ⟨fun hkeeps => ?_, fun hgone => ?_⟩
        · obtain rfl := hkeeps.1
          refine @sound_nextBucket { p with
            timers := t.setPassed c.bucket 0, usesFreed := false } rfl h.followed _ fun d hd => ?_
          have hmem : d ∈ (t.setPassed c.bucket 0).buckets :=
            (List.dropWhile_suffix _).subset (hdrop ▸ hd)
          exact ⟨((t.setPassed c.bucket 0).numbered d hmem).1, fun source hsource =>
            ⟨d, hmem, hsource⟩⟩
        · rw [usesFreed_nextBucket]
          exact Bool.eq_true_of_not_eq_false fun hfreed =>
            hgone ⟨hfreed, List.cons_ne_nil _ _⟩

/-- No pass uses memory that was freed exactly if every callback leaves alone what the loops have
remembered. -/
theorem timers_spared_iff (t : Timers) (elapsedMinutes : Int) (effects : List (List TimerOp)) :
    (∀ pre, pre <+: effects →
        (run callTimer (checkTimerSources t elapsedMinutes) pre).usesFreed = false) ↔
      Along callTimer Spares (checkTimerSources t elapsedMinutes) effects := by
  refine always_iff_along (I := Sound) (P := fun p => p.usesFreed = false) (fun _ h => h.spared)
    (fun _ _ _ h hok hstep => (callTimer_spares h hstep).1 hok) (fun _ _ _ h hbad hstep => ?_)
    (sound_checkTimerSources t elapsedMinutes) effects
  rw [(callTimer_spares h hstep).2 hbad]
  exact Bool.true_eq_false.mp

/-- One timer that is due every minute. -/
def oneTimer : Timers := Timers.perform {} (.add 1)

/-- A callback that removes its own timer, as that of the connect queue does: the end of the list and
the minutes of the bucket are then looked for in memory that was freed. -/
theorem oneTimer_not_spared :
    (run callTimer (checkTimerSources oneTimer 1) [[.remove 0]]).usesFreed = true ∧
      ¬ ∀ pre, pre <+: [[TimerOp.remove 0]] →
        (run callTimer (checkTimerSources oneTimer 1) pre).usesFreed = false := by
  have hfreed : (run callTimer (checkTimerSources oneTimer 1) [[.remove 0]]).usesFreed = true := by
    decide +kernel
  refine ⟨hfreed, fun hall => ?_⟩
  have hspared := hall _ List.prefix_rfl
  rw [hfreed] at hspared
  cases hspared

end Notbit.MainContext
