import Mathlib.Tactic

/-!
# Runs — invariants of a deterministic step function over lists of events

A component is a partial function `step`: what an event does in a state, or `none` when it cannot
happen there.  `run` feeds it a list of events and passes over those that cannot happen, so that a
statement about `run` for all lists is a statement about all interleavings.  `Along` says that
every event that does happen in a run meets a condition on the state before it.
-/

namespace Runs

variable {σ ε : Type} {step : σ → ε → Option σ} {s : σ}

/-- What an event does, when it can happen. -/
def next (step : σ → ε → Option σ) (s : σ) (e : ε) : σ := (step s e).getD s

/-- The state after a list of events. -/
def run (step : σ → ε → Option σ) (s : σ) : List ε → σ
  | [] => s
  | e :: es => run step (next step s e) es

/-- Every event of the run that can happen meets `ok`. -/
def Along (step : σ → ε → Option σ) (ok : σ → ε → Prop) (s : σ) : List ε → Prop
  | [] => True
  | e :: es => ((step s e).isSome → ok s e) ∧ Along step ok (next step s e) es

/-- The events of the run that can happen. -/
def happened (step : σ → ε → Option σ) (s : σ) : List ε → List ε
  | [] => []
  | e :: es => (if (step s e).isSome then [e] else []) ++ happened step (next step s e) es

/-- What a run puts out, when `out` says it of each event that can happen. -/
def emitted {ω : Type} (step : σ → ε → Option σ) (out : σ → ε → List ω) (s : σ) : List ε → List ω
  | [] => []
  | e :: es => (if (step s e).isSome then out s e else []) ++ emitted step out (next step s e) es

instance decidableAlong {ok : σ → ε → Prop} [∀ s e, Decidable (ok s e)] (s : σ) :
    ∀ es, Decidable (Along step ok s es)
  | [] => isTrue trivial
  | e :: es =>
    have : Decidable (Along step ok (next step s e) es) := decidableAlong (next step s e) es
    inferInstanceAs (Decidable (((step s e).isSome → ok s e) ∧ _))

theorem next_of_some {e : ε} {s' : σ} (h : step s e = some s') : next step s e = s' := by
  rw [next, h, Option.getD_some]

theorem next_of_none {e : ε} (h : step s e = none) : next step s e = s := by
  rw [next, h, Option.getD_none]

@[simp] theorem run_nil : run step s [] = s := rfl

@[simp] theorem run_cons (e : ε) (es : List ε) :
    run step s (e :: es) = run step (next step s e) es := rfl

theorem run_append (es fs : List ε) : run step s (es ++ fs) = run step (run step s es) fs := by
  induction es generalizing s with
  | nil => rfl
  | cons e es ih => exact ih

theorem along_append {ok : σ → ε → Prop} (es fs : List ε) :
    Along step ok s (es ++ fs) ↔ Along step ok s es ∧ Along step ok (run step s es) fs := by
  induction es generalizing s with
  | nil => simp [Along]
  | cons e es ih => simp only [List.cons_append, Along, run_cons, ih, and_assoc]

/-- The steps of a run, each with the events before it. -/
theorem along_iff_forall {ok : σ → ε → Prop} (es : List ε) :
    Along step ok s es ↔ ∀ before e, before ++ [e] <+: es →
      (step (run step s before) e).isSome → ok (run step s before) e := by
  constructor
  · rintro halong before e ⟨rest, rfl⟩ hsome
    rw [List.append_assoc, along_append] at halong
    exact halong.2.1 hsome
  · intro hall
    induction es generalizing s with
    | nil => trivial
    | cons e es ih =>
      refine ⟨hall [] e (List.prefix_append [e] es), ih fun before e' hprefix => ?_⟩
      exact hall (e :: before) e' (List.cons_prefix_cons.mpr ⟨rfl, hprefix⟩)

theorem run_concat (es : List ε) (e : ε) :
    run step s (es ++ [e]) = next step (run step s es) e := run_append es [e]

/-- What every step that meets the condition preserves, a run whose steps all meet it preserves. -/
theorem invariant_along {ok : σ → ε → Prop} {P : σ → Prop}
    (hstep : ∀ s e s', P s → ok s e → step s e = some s' → P s') {es : List ε}
    (hok : Along step ok s es) (h : P s) : P (run step s es) := by
  induction es generalizing s with
  | nil => exact h
  | cons e es ih =>
    obtain ⟨hhere, hrest⟩ := hok
    apply ih hrest
    cases hs : step s e with
    | none =>
      rw [next_of_none hs]
      exact h
    | some s' =>
      rw [next_of_some hs]
      exact hstep s e s' h (hhere (by rw [hs]; rfl)) hs

-- A condition on the events alone.
theorem along_of_forall {ok : ε → Prop} {es : List ε} (h : ∀ e ∈ es, ok e) :
    Along step (fun _ e => ok e) s es := by
  induction es generalizing s with
  | nil => trivial
  | cons e es ih =>
    exact ⟨fun _ => h e List.mem_cons_self, ih fun e' he' => h e' (List.mem_cons_of_mem e he')⟩

-- What every step preserves, every run preserves.
theorem invariant {P : σ → Prop} (hstep : ∀ s e s', P s → step s e = some s' → P s') (h : P s)
    (es : List ε) : P (run step s es) :=
  invariant_along (fun s e s' hs _ he => hstep s e s' hs he)
    (@along_of_forall _ _ _ _ (fun _ => True) _ fun _ _ => trivial) h

/-- As `invariant`, for what relates a state to all that the run has put out so far. -/
theorem invariant_emitted {ω : Type} {out : σ → ε → List ω} {P : σ → List ω → Prop}
    (hstep : ∀ s past e s', P s past → step s e = some s' → P s' (past ++ out s e))
    {past : List ω} (h : P s past) (es : List ε) :
    P (run step s es) (past ++ emitted step out s es) := by
  induction es generalizing s past with
  | nil =>
    rw [emitted, List.append_nil]
    exact h
  | cons e es ih =>
    rw [emitted, ← List.append_assoc]
    apply ih
    cases hs : step s e with
    | none =>
      rw [next_of_none hs]
      simpa using h
    | some s' =>
      rw [next_of_some hs]
      exact hstep s past e s' h hs

theorem mem_emitted_append {ω : Type} {f g : σ → ε → List ω} {x : ω} (es : List ε) :
    x ∈ emitted step (fun s e => f s e ++ g s e) s es ↔
      x ∈ emitted step f s es ∨ x ∈ emitted step g s es := by
  induction es generalizing s with
  | nil => simp [emitted]
  | cons e es ih =>
    simp only [emitted, List.mem_append, ih]
    split_ifs
    · rw [List.mem_append]
      tauto
    · simp

theorem happened_eq_emitted (es : List ε) :
    happened step s es = emitted step (fun _ e => [e]) s es := by
  induction es generalizing s with
  | nil => rfl
  | cons e es ih => rw [happened, emitted, ih]

-- As `invariant`, for what relates a state to the events that led to it.
theorem invariant_happened {P : σ → List ε → Prop}
    (hstep : ∀ s past e s', P s past → step s e = some s' → P s' (past ++ [e])) {past : List ε}
    (h : P s past) (es : List ε) : P (run step s es) (past ++ happened step s es) := by
  rw [happened_eq_emitted]
  exact invariant_emitted hstep h es

theorem mem_of_mem_happened {e : ε} {es : List ε} (h : e ∈ happened step s es) : e ∈ es := by
  induction es generalizing s with
  | nil => exact h
  | cons e' es ih =>
    rw [happened] at h
    rcases List.mem_append.mp h with hhere | hrest
    · split at hhere
      next => rw [List.mem_singleton.mp hhere]; exact List.mem_cons_self
      next => cases hhere
    · exact List.mem_cons_of_mem _ (ih hrest)

/-- When every step that fails the condition breaks a property of the states, and every step that
meets it keeps it, the property holds in all states of a run exactly if its steps meet the
condition. -/
theorem always_iff_along {ok : σ → ε → Prop} {I P : σ → Prop} (hP : ∀ s, I s → P s)
    (hstep : ∀ s e s', I s → ok s e → step s e = some s' → I s')
    (hbreak : ∀ s e s', I s → ¬ ok s e → step s e = some s' → ¬ P s') (h : I s) (es : List ε) :
    (∀ pre, pre <+: es → P (run step s pre)) ↔ Along step ok s es := by
  constructor
  · intro hall
    induction es generalizing s with
    | nil => trivial
    | cons e es ih =>
      -- the state after the first event is the one that the event reaches
      have hnext : ∀ pre, pre <+: es → P (run step (next step s e) pre) := fun pre hpre =>
        hall (e :: pre) (List.cons_prefix_cons.mpr ⟨rfl, hpre⟩)
      cases hs : step s e with
      | none =>
        rw [next_of_none hs] at hnext
        exact ⟨by simp [hs], by rw [next_of_none hs]; exact ih h hnext⟩
      | some s' =>
        rw [next_of_some hs] at hnext
        have hok : ok s e := by
          by_contra hbad
          exact hbreak s e s' h hbad hs (hnext [] List.nil_prefix)
        exact ⟨fun _ => hok, by rw [next_of_some hs]; exact ih (hstep s e s' h hok hs) hnext⟩
  · rintro halong pre ⟨rest, rfl⟩
    exact hP _ (invariant_along hstep ((along_append pre rest).mp halong).1 h)

/-- When each step keeps a property exactly if it meets the condition, the last state tells whether
all steps met it. -/
theorem final_iff_along {ok admitted : σ → ε → Prop} {I G : σ → Prop}
    (hstep : ∀ s e s', I s → admitted s e → step s e = some s' → I s' ∧ (G s' ↔ G s ∧ ok s e))
    (h : I s) {es : List ε} (hadmitted : Along step admitted s es) :
    G (run step s es) ↔ G s ∧ Along step ok s es := by
  induction es generalizing s with
  | nil => exact (and_iff_left trivial).symm
  | cons e es ih =>
    obtain ⟨hhere, hrest⟩ := hadmitted
    rw [run_cons, Along]
    cases hs : step s e with
    | none =>
      rw [next_of_none hs] at hrest ⊢
      simpa using ih h hrest
    | some s' =>
      rw [next_of_some hs] at hrest ⊢
      obtain ⟨hinv, hkeeps⟩ := hstep s e s' h (hhere (by rw [hs]; rfl)) hs
      rw [ih hinv hrest, hkeeps]
      simp [and_assoc]

/-- Under an invariant two conditions that agree on what happens are met by the same runs. -/
theorem along_congr {ok ok' : σ → ε → Prop} {I : σ → Prop}
    (hstep : ∀ s e s', I s → step s e = some s' → I s')
    (heq : ∀ s e s', I s → step s e = some s' → (ok s e ↔ ok' s e)) (h : I s) (es : List ε) :
    Along step ok s es ↔ Along step ok' s es := by
  induction es generalizing s with
  | nil => exact Iff.rfl
  | cons e es ih =>
    have hnext : I (next step s e) := invariant hstep h [e]
    rw [Along, Along, ih hnext]
    refine and_congr_left fun _ => imp_congr_right fun hsome => ?_
    obtain ⟨s', hs⟩ := Option.isSome_iff_exists.mp hsome
    exact heq s e s' h hs

-- A loop over a list that the loop itself shortens: each round may remove the element it is at and
-- no other.
theorem foldl_members {α : Type} {f : σ → α → σ} {P : σ → Prop} {L : σ → List α}
    (hstep : ∀ s a, P s → a ∈ L s → P (f s a) ∧ ∀ b ∈ L s, b ≠ a → b ∈ L (f s a)) {l : List α}
    (hl : l.Nodup) (hmem : ∀ a ∈ l, a ∈ L s) (h : P s) : P (l.foldl f s) := by
  induction l generalizing s with
  | nil => exact h
  | cons a l ih =>
    rw [List.nodup_cons] at hl
    obtain ⟨hnext, hkept⟩ := hstep s a h (hmem a List.mem_cons_self)
    refine ih hl.2 (fun b hb => ?_) hnext
    apply hkept b (hmem b (List.mem_cons_of_mem a hb))
    rintro rfl
    exact hl.1 hb

end Runs
