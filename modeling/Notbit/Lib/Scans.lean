import Mathlib.Tactic

/-!
# Scans — one pass over a list by a machine that reports what it finds

The machine reads one element at a time and may report something at each of them.  `Yields` says
what is reported for a piece of the input, from every state in which the piece can start, so that
pieces can be put together.
-/

namespace Scans

variable {σ α β ι : Type} {step : σ → α → σ × Option β} {start mid stop : σ → Prop}
  {as as' : List α} {bs bs' : List β}

/-- The state after an input, and what was reported. -/
def scan (step : σ → α → σ × Option β) (s : σ) : List α → σ × List β
  | [] => (s, [])
  | a :: as =>
    let (s, found) := step s a
    let (s, founds) := scan step s as
    (s, found.toList ++ founds)

theorem scan_cons (s : σ) (a : α) (as : List α) :
    scan step s (a :: as) = ((scan step (step s a).1 as).1,
      (step s a).2.toList ++ (scan step (step s a).1 as).2) := rfl

theorem scan_append (s : σ) (as as' : List α) :
    scan step s (as ++ as') = ((scan step (scan step s as).1 as').1,
      (scan step s as).2 ++ (scan step (scan step s as).1 as').2) := by
  induction as generalizing s with
  | nil => rfl
  | cons a as ih => simp only [List.cons_append, scan, ih, List.append_assoc]

/-- From every state in `start`, the input leads to a state in `stop` with these reports. -/
def Yields (step : σ → α → σ × Option β) (start stop : σ → Prop) (as : List α) (bs : List β) :
    Prop :=
  ∀ s, start s → stop (scan step s as).1 ∧ (scan step s as).2 = bs

theorem Yields.nil (P : σ → Prop) : Yields step P P [] [] := fun _ hs => ⟨hs, rfl⟩

theorem Yields.append (h : Yields step start mid as bs) (h' : Yields step mid stop as' bs') :
    Yields step start stop (as ++ as') (bs ++ bs') := by
  intro s hs
  obtain ⟨hmid, hbs⟩ := h s hs
  obtain ⟨hstop, hbs'⟩ := h' _ hmid
  rw [scan_append]
  exact ⟨hstop, by rw [hbs, hbs']⟩

theorem Yields.mono {start' stop' : σ → Prop} (h : Yields step start stop as bs)
    (hstart : ∀ s, start' s → start s) (hstop : ∀ s, stop s → stop' s) :
    Yields step start' stop' as bs :=
  fun s hs => ⟨hstop _ (h s (hstart s hs)).1, (h s (hstart s hs)).2⟩

theorem Yields.flatMap {text : ι → List α} {found : ι → List β} {l : List ι}
    (h : ∀ i ∈ l, Yields step start start (text i) (found i)) :
    Yields step start start (l.flatMap text) (l.flatMap found) := by
  induction l with
  | nil => exact Yields.nil start
  | cons i l ih =>
    have hfirst := h i List.mem_cons_self
    have hrest := ih fun j hj => h j (List.mem_cons_of_mem i hj)
    exact hfirst.append hrest

-- A machine that keeps the last thing it has read and reports it at the start of the next one, or
-- when it is asked for it at the end.
theorem scan_sections {P : σ → Prop} {flush : σ → Option β} {text : ι → List α} {found : ι → β}
    {l : List ι} (h : ∀ i ∈ l, ∀ s, P s → P (scan step s (text i)).1 ∧
      (scan step s (text i)).2 = (flush s).toList ∧
      flush (scan step s (text i)).1 = some (found i)) {s : σ} (hs : P s) :
    (scan step s (l.flatMap text)).2 ++ (flush (scan step s (l.flatMap text)).1).toList =
      (flush s).toList ++ l.map found := by
  induction l generalizing s with
  | nil => simp [scan]
  | cons i l ih =>
    obtain ⟨hnext, hreport, hpending⟩ := h i List.mem_cons_self s hs
    have hrest := ih (fun j hj => h j (List.mem_cons_of_mem i hj)) hnext
    rw [List.flatMap_cons, scan_append]
    dsimp only
    rw [List.append_assoc, hrest, hreport, hpending, List.map_cons]
    rfl

-- As `scan_sections`, for what is reported of sections that may not be reported.
theorem forall_scan_sections {Q : β → Prop} {flush : σ → Option β} {text : ι → List α} {l : List ι}
    (h : ∀ i ∈ l, ∀ s, (scan step s (text i)).2 = (flush s).toList ∧
      ∀ b, flush (scan step s (text i)).1 = some b → Q b) {s : σ}
    (hs : ∀ b, flush s = some b → Q b) :
    ∀ b ∈ (scan step s (l.flatMap text)).2 ++ (flush (scan step s (l.flatMap text)).1).toList,
      Q b := by
  induction l generalizing s with
  | nil =>
    intro b hb
    exact hs b (Option.mem_toList.mp (by simpa [scan] using hb))
  | cons i l ih =>
    obtain ⟨hreport, hpending⟩ := h i List.mem_cons_self s
    have hrest := ih (fun j hj => h j (List.mem_cons_of_mem i hj)) hpending
    intro b hb
    rw [List.flatMap_cons, scan_append] at hb
    dsimp only at hb
    rw [List.append_assoc, hreport] at hb
    rcases List.mem_append.mp hb with hfirst | hlater
    · exact hs b (Option.mem_toList.mp hfirst)
    · exact hrest b hlater

/-! ## Groups

A machine may read its input in groups, each of them up to the next separator. -/

/-- The states in which the groups of an input end. -/
def groupEnds (step : σ → α → σ × Option β) (sep : α → Bool) (s : σ) : List α → List σ
  | [] => [s]
  | a :: as => (if sep a then [s] else []) ++ groupEnds step sep (step s a).1 as

section Groups

variable {sep : α → Bool} {flush : σ → Option β} {Read : List α → σ → Prop} {s : σ}

-- What holds behind the part of a group that has been read, holds behind every group.
theorem forall₂_groupEnds (hsep : ∀ pre s a, Read pre s → sep a = true → Read [] (step s a).1)
    (hplain : ∀ pre s a, Read pre s → sep a = false → Read (pre ++ [a]) (step s a).1)
    (h : Read [] s) (as : List α) :
    List.Forall₂ Read (as.splitOnP sep) (groupEnds step sep s as) := by
  rw [← List.splitOnPPrepend_nil_right]
  rw [← List.reverse_nil] at h
  generalize ([] : List α) = acc at h ⊢
  induction as generalizing s acc with
  | nil => exact .cons h .nil
  | cons a as ih =>
    rw [groupEnds]
    by_cases ha : sep a = true
    · rw [List.splitOnPPrepend_cons_pos ha, if_pos ha, ← List.splitOnPPrepend_nil_right]
      exact .cons h (ih [] (hsep _ s a h ha))
    · rw [List.splitOnPPrepend_cons_neg (Bool.eq_false_of_not_eq_true ha), if_neg ha]
      apply ih (a :: acc)
      rw [List.reverse_cons]
      exact hplain _ s a h (Bool.eq_false_of_not_eq_true ha)

-- A machine that reports a group at the separator behind it, or when it is asked for it at the end.
theorem scan_groupEnds (hsep : ∀ s a, sep a = true → (step s a).2 = flush s)
    (hplain : ∀ s a, sep a = false → (step s a).2 = none) (s : σ) (as : List α) :
    (scan step s as).2 ++ (flush (scan step s as).1).toList =
      (groupEnds step sep s as).filterMap flush := by
  induction as generalizing s with
  | nil => cases h : flush s <;> simp [scan, groupEnds, h]
  | cons a as ih =>
    rw [scan_cons, groupEnds, List.filterMap_append, ← ih]
    dsimp only
    rw [List.append_assoc]
    congr 1
    by_cases ha : sep a = true
    · rw [if_pos ha, hsep s a ha]
      cases h : flush s <;> simp [h]
    · rw [if_neg ha, hplain s a (Bool.eq_false_of_not_eq_true ha)]
      rfl

theorem forall₂_reported {R : α → σ → Prop} {ends : List σ} (h : List.Forall₂ R as ends)
    (hflush : bs.map some = ends.map flush) :
    List.Forall₂ (fun a b => ∃ s, R a s ∧ flush s = some b) as bs := by
  induction h generalizing bs with
  | nil =>
    obtain rfl := List.map_eq_nil_iff.mp hflush
    exact .nil
  | cons hR _ ih =>
    obtain ⟨b, bs, rfl, hb, hbs⟩ := List.map_eq_cons_iff.mp hflush
    exact .cons ⟨_, hR, hb.symm⟩ (ih hbs)

theorem forall_mem_iff_of_forall₂ {R : α → β → Prop} {P : α → Prop} {Q : β → Prop}
    (h : List.Forall₂ R as bs) (hiff : ∀ a b, R a b → (P a ↔ Q b)) :
    (∀ a ∈ as, P a) ↔ ∀ b ∈ bs, Q b := by
  induction h with
  | nil => exact ⟨nofun, nofun⟩
  | cons hab _ ih => rw [List.forall_mem_cons, List.forall_mem_cons, hiff _ _ hab, ih]

end Groups

end Scans
