import Notbit.MainContext.Timers

/-!
# Buckets — what the callbacks can do to the buckets of the timers

The newest bucket stands first and has the greatest number, and a source is in one bucket.  Whatever
is added and removed, a bucket that stays keeps its place, its period, its minutes and the order of
its sources.
-/

open Runs

namespace Notbit.MainContext

/-! ## 1. The order of the buckets -/

/-- The newest bucket stands first, and a source is in one bucket only, and once. -/
structure Timers.Ordered (t : Timers) : Prop where
  sorted : t.buckets.Pairwise fun newer older => older.id < newer.id
  owned : ∀ b ∈ t.buckets, ∀ b' ∈ t.buckets, ∀ source ∈ b.sources, source ∈ b'.sources →
    b.id = b'.id
  nodup : ∀ b ∈ t.buckets, b.sources.Nodup

/-- A bucket is the other one with other sources. -/
structure Bucket.Same (b b' : Bucket) : Prop where
  id : b.id = b'.id
  minutes : b.minutes = b'.minutes
  minutesPassed : b.minutesPassed = b'.minutesPassed

section Order

variable {t : Timers} {op : TimerOp} {ops : List TimerOp} {b b' : Bucket}

theorem Timers.Ordered.eq_of_id (h : t.Ordered) (hb : b ∈ t.buckets) (hb' : b' ∈ t.buckets)
    (hid : b.id = b'.id) : b = b' := by
  by_contra hne
  rcases List.Pairwise.forall_of_forall_of_flip (R := fun b b' : Bucket => b = b' ∨ b.id ≠ b'.id)
    (fun b _ => .inl rfl) (h.sorted.imp fun hlt => .inr (by omega))
    (h.sorted.imp fun hlt => .inr (by omega)) hb hb' with heq | hids
  · exact hne heq
  · exact hids hid

-- A source is put in front of the first bucket with its period.
theorem mem_insertTimer_find {minutes : Int} {source : Nat} {bs : List Bucket}
    (h : b' ∈ insertTimer minutes source bs) :
    b' ∈ bs ∨ ∃ b, bs.find? (·.minutes = minutes) = some b ∧ b' = b.insert source := by
  induction bs with
  | nil => exact absurd h List.not_mem_nil
  | cons b bs ih =>
    rw [insertTimer] at h
    by_cases hminutes : b.minutes = minutes
    · rw [if_pos hminutes] at h
      rcases List.mem_cons.mp h with rfl | hrest
      · exact .inr ⟨b, by simp [hminutes], rfl⟩
      · exact .inl (List.mem_cons_of_mem b hrest)
    · rw [if_neg hminutes] at h
      rcases List.mem_cons.mp h with rfl | hrest
      · exact .inl List.mem_cons_self
      · rcases ih hrest with hmem | ⟨found, hfound, rfl⟩
        · exact .inl (List.mem_cons_of_mem b hmem)
        · exact .inr ⟨found, by simp [hminutes, hfound], rfl⟩

theorem map_id_insertTimer (minutes : Int) (source : Nat) (bs : List Bucket) :
    (insertTimer minutes source bs).map (·.id) = bs.map (·.id) := by
  induction bs with
  | nil => rfl
  | cons b bs ih =>
    rw [insertTimer]
    split
    · rfl
    · rw [List.map_cons, ih, List.map_cons]

theorem sorted_iff {bs : List Bucket} :
    bs.Pairwise (fun newer older => older.id < newer.id) ↔ (bs.map (·.id)).Pairwise (· > ·) := by
  rw [List.pairwise_map]

/-- A bucket behind an operation that is to give the number `fresh` to a source. -/
def Bucket.Kept (op : TimerOp) (fresh : Nat) (b b' : Bucket) : Prop :=
  b.Same b' ∧ (b'.sources = b.sources ∨ b'.sources = fresh :: b.sources ∨
    ∃ removed, op = .remove removed ∧ b'.sources = b.sources.filter (· ≠ removed))

theorem Bucket.Kept.mem {fresh source : Nat} (h : b.Kept op fresh b')
    (hsource : source ∈ b'.sources) : source = fresh ∨ source ∈ b.sources := by
  rcases h.2 with heq | heq | ⟨removed, -, heq⟩ <;> rw [heq] at hsource
  · exact .inr hsource
  · exact List.mem_cons.mp hsource
  · exact .inr (List.mem_filter.mp hsource).1

/-- What an operation does to a bucket: nothing but to its sources, or it makes a new one. -/
theorem mem_perform (h : b' ∈ (t.perform op).buckets) :
    (∃ b ∈ t.buckets, b.Kept op t.nextId b') ∨
      b' = { id := t.nextId + 1, minutes := b'.minutes, sources := [t.nextId] } := by
  cases op with
  | add minutes =>
    unfold Timers.perform Timers.addTimer at h
    dsimp only at h
    split at h
    · rcases mem_insertTimer h with hmem | ⟨b, hb, rfl⟩
      · exact .inl ⟨b', hmem, ⟨rfl, rfl, rfl⟩, .inl rfl⟩
      · exact .inl ⟨b, hb, ⟨rfl, rfl, rfl⟩, .inr (.inl rfl)⟩
    · rcases List.mem_cons.mp h with rfl | hmem
      · exact .inr rfl
      · exact .inl ⟨b', hmem, ⟨rfl, rfl, rfl⟩, .inl rfl⟩
  | remove removed =>
    obtain ⟨b, hb, hdrop⟩ := List.mem_filterMap.mp h
    obtain ⟨-, hsources, -⟩ := Bucket.drop_eq_some hdrop
    refine .inl ⟨b, hb, ?_, .inr (.inr ⟨removed, rfl, hsources⟩)⟩
    unfold Bucket.drop at hdrop
    split at hdrop
    · split at hdrop
      · exact absurd hdrop nofun
      · obtain rfl := Option.some.inj hdrop
        exact ⟨rfl, rfl, rfl⟩
    · obtain rfl := Option.some.inj hdrop
      exact ⟨rfl, rfl, rfl⟩

theorem nodup_perform (h : ∀ b ∈ t.buckets, b.sources.Nodup) (hb' : b' ∈ (t.perform op).buckets) :
    b'.sources.Nodup := by
  rcases mem_perform hb' with ⟨b, hb, -, heq | heq | ⟨removed, -, heq⟩⟩ | hnew
  · rw [heq]
    exact h b hb
  · rw [heq]
    refine List.nodup_cons.mpr ⟨fun hmem => ?_, h b hb⟩
    exact absurd ((t.numbered b hb).2 _ hmem) (lt_irrefl _)
  · rw [heq]
    exact (h b hb).filter _
  · rw [hnew]
    exact List.nodup_singleton _

theorem sorted_perform (h : t.Ordered) :
    (t.perform op).buckets.Pairwise fun newer older => older.id < newer.id := by
  cases op with
  | add minutes =>
    unfold Timers.perform Timers.addTimer
    by_cases hany : t.buckets.any (·.minutes = minutes)
    · simp only [hany, if_true]
      rw [sorted_iff, map_id_insertTimer, ← sorted_iff]
      exact h.sorted
    · simp only [Bool.not_eq_true] at hany
      simp only [hany, Bool.false_eq_true, if_false]
      refine List.pairwise_cons.mpr ⟨fun b hb => ?_, h.sorted⟩
      exact ((t.numbered b hb).1).trans (Nat.lt_succ_self _)
  | remove removed =>
    have hids : ((t.removeSource removed).buckets.map (·.id)).Sublist (t.buckets.map (·.id)) := by
      unfold Timers.removeSource
      dsimp only
      generalize t.buckets = bs
      induction bs with
      | nil => exact List.Sublist.refl _
      | cons b bs ih =>
        cases hdrop : b.drop removed with
        | none =>
          rw [List.filterMap_cons_none hdrop, List.map_cons]
          exact ih.cons _
        | some b' =>
          rw [List.filterMap_cons_some hdrop, List.map_cons, List.map_cons,
            (Bucket.drop_eq_some hdrop).1]
          exact ih.cons_cons _
    rw [sorted_iff]
    exact (sorted_iff.mp h.sorted).sublist hids

/-- The new source is in the first bucket with its period or in a new one. -/
theorem fresh_perform (hb' : b' ∈ (t.perform op).buckets) (hfresh : t.nextId ∈ b'.sources) :
    ∃ minutes, op = .add minutes ∧ b'.id =
      ((t.buckets.find? (·.minutes = minutes)).map (·.id)).getD (t.nextId + 1) := by
  have hold : ∀ b ∈ t.buckets, t.nextId ∉ b.sources := fun b hb hmem =>
    absurd ((t.numbered b hb).2 _ hmem) (lt_irrefl _)
  cases op with
  | add minutes =>
    refine ⟨minutes, rfl, ?_⟩
    unfold Timers.perform Timers.addTimer at hb'
    dsimp only at hb'
    split at hb'
    · rcases mem_insertTimer_find hb' with hmem | ⟨found, hfound, rfl⟩
      · exact absurd hfresh (hold b' hmem)
      · rw [hfound]
        rfl
    · rename_i hnone
      rcases List.mem_cons.mp hb' with rfl | hmem
      · have hfind : t.buckets.find? (·.minutes = minutes) = none := by
          rw [List.find?_eq_none]
          intro b hb heq
          exact hnone (List.any_eq_true.mpr ⟨b, hb, heq⟩)
        rw [hfind]
        rfl
      · exact absurd hfresh (hold b' hmem)
  | remove removed =>
    obtain ⟨b, hb, hdrop⟩ := List.mem_filterMap.mp hb'
    rw [(Bucket.drop_eq_some hdrop).2.1] at hfresh
    exact absurd (List.mem_filter.mp hfresh).1 (hold b hb)

theorem source_perform {source : Nat} (hb' : b' ∈ (t.perform op).buckets) (hlt : source < t.nextId)
    (hsource : source ∈ b'.sources) : ∃ b ∈ t.buckets, b.id = b'.id ∧ source ∈ b.sources := by
  rcases mem_perform hb' with ⟨b, hb, hkept⟩ | hnew
  · exact ⟨b, hb, hkept.1.id, (hkept.mem hsource).resolve_left (by omega)⟩
  · rw [hnew] at hsource
    have heq := List.mem_singleton.mp hsource
    omega

theorem Timers.Ordered.perform (h : t.Ordered) (op : TimerOp) : (t.perform op).Ordered where
  sorted := sorted_perform h
  owned b' hb' c' hc' source hsource hsource' := by
    by_cases hlt : source < t.nextId
    · obtain ⟨b, hb, hid, hold⟩ := source_perform hb' hlt hsource
      obtain ⟨c, hc, hid', hold'⟩ := source_perform hc' hlt hsource'
      rw [← hid, ← hid']
      exact h.owned b hb c hc source hold hold'
    · have heq : source = t.nextId := by
        rcases mem_perform hb' with ⟨b, hb, hkept⟩ | hnew
        · exact (hkept.mem hsource).resolve_right fun hold =>
            absurd ((t.numbered b hb).2 _ hold) hlt
        · rw [hnew] at hsource
          exact List.mem_singleton.mp hsource
      rw [heq] at hsource hsource'
      obtain ⟨minutes, rfl, hid⟩ := fresh_perform hb' hsource
      obtain ⟨minutes', heq', hid'⟩ := fresh_perform hc' hsource'
      obtain rfl := TimerOp.add.inj heq'
      rw [hid, hid']
  nodup b' hb' := nodup_perform h.nodup hb'

theorem Timers.Ordered.foldl (h : t.Ordered) (ops : List TimerOp) :
    (ops.foldl Timers.perform t).Ordered := by
  induction ops generalizing t with
  | nil => exact h
  | cons op ops ih => exact ih (h.perform op)

theorem mem_setPassed {i : Nat} {minutesPassed : Int}
    (h : b' ∈ (t.setPassed i minutesPassed).buckets) :
    ∃ b ∈ t.buckets, b'.id = b.id ∧ b'.minutes = b.minutes ∧ b'.sources = b.sources ∧
      b'.minutesPassed = if b.id = i then minutesPassed else b.minutesPassed := by
  obtain ⟨b, hb, rfl⟩ := List.mem_map.mp h
  refine ⟨b, hb, ?_⟩
  split <;> exact ⟨rfl, rfl, rfl, rfl⟩

theorem Timers.Ordered.setPassed (h : t.Ordered) (i : Nat) (minutesPassed : Int) :
    (t.setPassed i minutesPassed).Ordered := by
  constructor
  · have hids : (t.setPassed i minutesPassed).buckets.map (·.id) = t.buckets.map (·.id) := by
      unfold Timers.setPassed
      rw [List.map_map]
      refine List.map_congr_left fun b _ => ?_
      rw [Function.comp_apply]
      split <;> rfl
    rw [sorted_iff, hids, ← sorted_iff]
    exact h.sorted
  · intro b hb b' hb' source hsource hsource'
    obtain ⟨c, hc, hid, -, hsources, -⟩ := mem_setPassed hb
    obtain ⟨c', hc', hid', -, hsources', -⟩ := mem_setPassed hb'
    rw [hid, hid']
    exact h.owned c hc c' hc' source (hsources ▸ hsource) (hsources' ▸ hsource')
  · intro b hb
    obtain ⟨c, hc, -, -, hsources, -⟩ := mem_setPassed hb
    rw [hsources]
    exact h.nodup c hc

/-- The buckets behind one of them are those with smaller numbers. -/
theorem filter_of_cons {bs rest : List Bucket} {k : Nat}
    (h : bs.Pairwise fun newer older => older.id < newer.id)
    (hfilter : bs.filter (·.id < k) = b :: rest) :
    bs.filter (·.id < b.id) = rest ∧ ∀ b' ∈ bs, b'.id < k → b'.id ≤ b.id := by
  have hb : b ∈ bs ∧ b.id < k := by
    have hmem : b ∈ bs.filter (·.id < k) := hfilter ▸ List.mem_cons_self
    simpa using hmem
  have hsorted : (b :: rest).Pairwise fun newer older => older.id < newer.id :=
    hfilter ▸ h.filter _
  rw [List.pairwise_cons] at hsorted
  constructor
  · have htwice : bs.filter (·.id < b.id) = (bs.filter (·.id < k)).filter (·.id < b.id) := by
      rw [List.filter_filter]
      refine List.filter_congr fun b' _ => ?_
      by_cases hlt : b'.id < b.id
      · simp [hlt, hlt.trans hb.2]
      · simp [hlt]
    rw [htwice, hfilter, List.filter_cons_of_neg (by simp)]
    exact List.filter_eq_self.mpr fun b' hb' => decide_eq_true (hsorted.1 b' hb')
  · intro b' hb' hlt
    have hmem : b' ∈ bs.filter (·.id < k) := List.mem_filter.mpr ⟨hb', decide_eq_true hlt⟩
    rw [hfilter] at hmem
    rcases List.mem_cons.mp hmem with rfl | hrest
    · exact le_rfl
    · exact (hsorted.1 b' hrest).le

theorem dropWhile_eq_filter {bs rest : List Bucket} {n : Nat}
    (h : bs.Pairwise fun newer older => older.id < newer.id)
    (hdrop : bs.dropWhile (·.id ≠ n) = b :: rest) : bs.filter (·.id < n + 1) = b :: rest := by
  induction bs with
  | nil => exact absurd hdrop nofun
  | cons a bs ih =>
    rw [List.pairwise_cons] at h
    by_cases ha : a.id = n
    · rw [List.dropWhile_cons_of_neg (by simp [ha])] at hdrop
      rw [← hdrop]
      refine List.filter_eq_self.mpr fun b' hb' => decide_eq_true ?_
      rcases List.mem_cons.mp hb' with rfl | hrest
      · omega
      · have hlt := h.1 b' hrest
        omega
    · rw [List.dropWhile_cons_of_pos (by simp [ha])] at hdrop
      have hfound := ih h.2 hdrop
      have hb : b ∈ bs := (List.dropWhile_suffix _).subset (hdrop ▸ List.mem_cons_self)
      have hid : b.id = n := by
        have hhead := List.head?_dropWhile_not (fun b : Bucket => decide (b.id ≠ n)) bs
        rw [hdrop] at hhead
        simpa using hhead
      have hlt := h.1 b hb
      rw [List.filter_cons_of_neg (by simp; omega)]
      exact hfound

end Order

/-! ## 2. The minutes that have been charged -/

/-- The second ones come from the first ones, and a bucket that was there before has the minutes that
`f` tells of it.  A new one has none. -/
structure Charged (f : Bucket → Int) (t t' : Timers) : Prop where
  nextId_le : t.nextId ≤ t'.nextId
  old : ∀ b' ∈ t'.buckets, b'.id < t.nextId → ∃ b ∈ t.buckets, b.id = b'.id ∧
    b.minutes = b'.minutes ∧ b'.minutesPassed = f b
  new : ∀ b' ∈ t'.buckets, t.nextId ≤ b'.id → b'.minutesPassed = 0

/-- A timer that had a bucket made for it, with its period, and is in no other one. -/
structure Timers.Owns (t : Timers) (source : Nat) (minutes : Int) : Prop where
  made : source + 1 < t.nextId
  bucket : ∀ b ∈ t.buckets, source ∈ b.sources → b.id = source + 1
  minutes : ∀ b ∈ t.buckets, b.id = source + 1 → b.minutes = minutes

section Charged

variable {f g : Bucket → Int} {t t' : Timers} {source : Nat} {minutes : Int}

theorem Charged.refl (t : Timers) : Charged (·.minutesPassed) t t where
  nextId_le := le_rfl
  old b hb _ := ⟨b, hb, rfl, rfl, rfl⟩
  new b hb hid := absurd (t.numbered b hb).1 (by omega)

theorem Charged.perform (h : Charged f t t') (op : TimerOp) : Charged f t (t'.perform op) where
  nextId_le := h.nextId_le.trans (nextId_le_perform t' op)
  old b'' hb'' hid := by
    rcases mem_perform hb'' with ⟨b', hb', hsame, -⟩ | hmade
    · obtain ⟨b, hb, hbid, hminutes, hpassed⟩ := h.old b' hb' (by rw [hsame.id]; exact hid)
      exact ⟨b, hb, hbid.trans hsame.id, hminutes.trans hsame.minutes,
        hsame.minutesPassed.symm.trans hpassed⟩
    · have hle := h.nextId_le
      have hnew : b''.id = t'.nextId + 1 := by rw [hmade]
      omega
  new b'' hb'' hid := by
    rcases mem_perform hb'' with ⟨b', hb', hsame, -⟩ | hmade
    · rw [← hsame.minutesPassed]
      exact h.new b' hb' (by rw [hsame.id]; exact hid)
    · rw [hmade]

theorem Charged.foldl (h : Charged f t t') (ops : List TimerOp) :
    Charged f t (ops.foldl Timers.perform t') := by
  induction ops generalizing t' with
  | nil => exact h
  | cons op ops ih => exact ih (h.perform op)

theorem Charged.setPassed (h : Charged f t t') {i : Nat} (hi : i < t.nextId) (v : Int) :
    Charged (fun b => if b.id = i then v else f b) t (t'.setPassed i v) where
  nextId_le := h.nextId_le
  old b'' hb'' hid := by
    obtain ⟨b', hb', hbid', hminutes', -, hpassed'⟩ := mem_setPassed hb''
    obtain ⟨b, hb, hbid, hminutes, hpassed⟩ := h.old b' hb' (hbid' ▸ hid)
    refine ⟨b, hb, hbid.trans hbid'.symm, hminutes.trans hminutes'.symm, ?_⟩
    rw [hpassed', hpassed, hbid]
  new b'' hb'' hid := by
    obtain ⟨b', hb', hbid', -, -, hpassed'⟩ := mem_setPassed hb''
    rw [hpassed', if_neg (by omega)]
    exact h.new b' hb' (hbid' ▸ hid)

-- Only the buckets that are still there matter.
theorem Charged.congr (h : Charged f t t')
    (heq : ∀ b ∈ t.buckets, (∃ b' ∈ t'.buckets, b'.id = b.id) → f b = g b) : Charged g t t' where
  nextId_le := h.nextId_le
  old b' hb' hid := by
    obtain ⟨b, hb, hbid, hminutes, hpassed⟩ := h.old b' hb' hid
    exact ⟨b, hb, hbid, hminutes, hpassed.trans (heq b hb ⟨b', hb', hbid.symm⟩)⟩
  new := h.new

-- A source that was registered is in the bucket where it was.
theorem mem_foldl_of_source {ops : List TimerOp} {b' : Bucket}
    (h : b' ∈ (ops.foldl Timers.perform t).buckets) (hlt : source < t.nextId)
    (hsource : source ∈ b'.sources) : ∃ b ∈ t.buckets, b.id = b'.id ∧ source ∈ b.sources := by
  induction ops generalizing t with
  | nil => exact ⟨b', h, rfl, hsource⟩
  | cons op ops ih =>
    obtain ⟨b₁, hb₁, hid₁, hsource₁⟩ := ih h (hlt.trans_le (nextId_le_perform t op))
    obtain ⟨b, hb, hid, hold⟩ := source_perform hb₁ hlt hsource₁
    exact ⟨b, hb, hid.trans hid₁, hold⟩

theorem mem_dropWhile_of_suffix {l rest : List Nat} {next source : Nat} (h : next :: rest <:+ l)
    (hsource : source ∈ next :: rest) : source ∈ l.dropWhile (· ≠ next) := by
  induction l with
  | nil => exact absurd (List.suffix_nil.mp h) (List.cons_ne_nil _ _)
  | cons a l ih =>
    by_cases ha : a = next
    · rw [List.dropWhile_cons_of_neg (by simp [ha])]
      exact h.subset hsource
    · rw [List.dropWhile_cons_of_pos (by simp [ha])]
      rcases List.suffix_cons_iff.mp h with heq | hrest
      · exact absurd (List.cons.inj heq).1.symm ha
      · exact ih hrest

theorem mem_behind_following {l : List Nat} {next source : Nat}
    (hsource : source ∈ l.dropWhile (· ≠ next)) :
    source = next ∨ ∃ after ∈ following l next, source ∈ l.dropWhile (· ≠ after) := by
  unfold following
  have hsuffix := List.dropWhile_suffix (l := l) (fun other => decide (other ≠ next))
  have hhead := List.head?_dropWhile_not (fun other => decide (other ≠ next)) l
  cases hdrop : l.dropWhile (· ≠ next) with
  | nil =>
    rw [hdrop] at hsource
    exact absurd hsource List.not_mem_nil
  | cons a rest =>
    rw [hdrop] at hsource hsuffix hhead
    have ha : a = next := by simpa using hhead
    rcases List.mem_cons.mp hsource with rfl | hrest
    · exact .inl ha
    · obtain ⟨after, rest, rfl⟩ := List.exists_cons_of_ne_nil (List.ne_nil_of_mem hrest)
      refine .inr ⟨after, rfl, mem_dropWhile_of_suffix ?_ hrest⟩
      exact (List.suffix_cons a _).trans hsuffix

theorem dropWhile_filter {removed next : Nat} (hne : next ≠ removed) (l : List Nat) :
    (l.filter (· ≠ removed)).dropWhile (· ≠ next) =
      (l.dropWhile (· ≠ next)).filter (· ≠ removed) := by
  induction l with
  | nil => rfl
  | cons a l ih =>
    by_cases ha : a = next
    · rw [List.dropWhile_cons_of_neg (by simp [ha]), List.filter_cons_of_pos (by simp [ha, hne]),
        List.dropWhile_cons_of_neg (by simp [ha])]
    · rw [List.dropWhile_cons_of_pos (by simp [ha]), ← ih]
      by_cases hremoved : a = removed
      · rw [List.filter_cons_of_neg (by simp [hremoved])]
      · rw [List.filter_cons_of_pos (by simp [hremoved]), List.dropWhile_cons_of_pos (by simp [ha])]

-- Sources that stay in a bucket stay in their order.
theorem Bucket.Kept.behind {op : TimerOp} {fresh next : Nat} {b b' : Bucket} (h : b.Kept op fresh b')
    (hlt : next < fresh) (hnext : next ∈ b'.sources) (hsource : source ∈ b'.sources)
    (hbehind : source ∈ b.sources.dropWhile (· ≠ next)) :
    source ∈ b'.sources.dropWhile (· ≠ next) := by
  rcases h.2 with heq | heq | ⟨removed, -, heq⟩
  · rw [heq]
    exact hbehind
  · rw [heq, List.dropWhile_cons_of_pos (by simp; omega)]
    exact hbehind
  · rw [heq] at hnext hsource
    have hne : next ≠ removed := by simpa using (List.mem_filter.mp hnext).2
    rw [heq, dropWhile_filter hne]
    exact List.mem_filter.mpr ⟨hbehind, (List.mem_filter.mp hsource).2⟩

theorem mem_foldl_behind {ops : List TimerOp} {next : Nat} {b' : Bucket}
    (h : b' ∈ (ops.foldl Timers.perform t).buckets) (hlt : next < t.nextId)
    (hlt' : source < t.nextId) (hnext : next ∈ b'.sources) (hsource : source ∈ b'.sources) :
    ∃ b ∈ t.buckets, b.id = b'.id ∧ next ∈ b.sources ∧ source ∈ b.sources ∧
      (source ∈ b.sources.dropWhile (· ≠ next) → source ∈ b'.sources.dropWhile (· ≠ next)) := by
  induction ops generalizing t with
  | nil => exact ⟨b', h, rfl, hnext, hsource, id⟩
  | cons op ops ih =>
    have hgrows := nextId_le_perform t op
    obtain ⟨b₁, hb₁, hid₁, hnext₁, hsource₁, hbehind₁⟩ := ih h (by omega) (by omega)
    rcases mem_perform hb₁ with ⟨b, hb, hkept⟩ | hnew
    · have hold := (hkept.mem hnext₁).resolve_left (by omega)
      have hold' := (hkept.mem hsource₁).resolve_left (by omega)
      exact ⟨b, hb, hkept.1.id.trans hid₁, hold, hold', fun hbehind =>
        hbehind₁ (hkept.behind hlt hnext₁ hsource₁ hbehind)⟩
    · rw [hnew] at hsource₁
      have heq := List.mem_singleton.mp hsource₁
      omega

theorem Timers.Owns.perform (h : t.Owns source minutes) (op : TimerOp) :
    (t.perform op).Owns source minutes where
  made := h.made.trans_le (nextId_le_perform t op)
  bucket b' hb' hsource := by
    have hmade := h.made
    obtain ⟨b, hb, hid, hold⟩ := source_perform hb' (by omega) hsource
    rw [← hid]
    exact h.bucket b hb hold
  minutes b' hb' hid := by
    have hmade := h.made
    rcases mem_perform hb' with ⟨b, hb, hsame, -⟩ | hnew
    · rw [← hsame.minutes]
      exact h.minutes b hb (hsame.id.trans hid)
    · have hnext : b'.id = t.nextId + 1 := by rw [hnew]
      omega

theorem Timers.Owns.foldl (h : t.Owns source minutes) (ops : List TimerOp) :
    (ops.foldl Timers.perform t).Owns source minutes := by
  induction ops generalizing t with
  | nil => exact h
  | cons op ops ih => exact ih (h.perform op)

theorem Timers.Owns.setPassed (h : t.Owns source minutes) (i : Nat) (v : Int) :
    (t.setPassed i v).Owns source minutes where
  made := h.made
  bucket b' hb' hsource := by
    obtain ⟨b, hb, hid, -, hsources, -⟩ := mem_setPassed hb'
    rw [hid]
    exact h.bucket b hb (hsources ▸ hsource)
  minutes b' hb' hid' := by
    obtain ⟨b, hb, hid, hminutes, -, -⟩ := mem_setPassed hb'
    rw [hminutes]
    exact h.minutes b hb (hid ▸ hid')

end Charged

end Notbit.MainContext
