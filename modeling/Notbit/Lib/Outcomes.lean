import Notbit.Lib.Streams

/-!
# Outcomes — what holds when a computation that emits something has succeeded

A postcondition is about the value and about everything that has been emitted, with what others had
emitted before.
-/

namespace Streams

variable {ε ε' ω α β γ σ : Type}

/-- Whenever `x` succeeds behind what has been emitted, the postcondition holds. -/
def Ensures (log : List ω) (x : Emits ε ω α) (post : α → List ω → Prop) : Prop :=
  ∀ a, x.value = .ok a → post a (log ++ x.log)

namespace Ensures

variable {log : List ω} {x : Emits ε ω α} {post post' : α → List ω → Prop}

theorem mono (h : Ensures log x post) (hpost : ∀ a log, post a log → post' a log) :
    Ensures log x post' :=
  fun a ha => hpost a _ (h a ha)

theorem and (h : Ensures log x post) (h' : Ensures log x post') :
    Ensures log x fun a log => post a log ∧ post' a log :=
  fun a ha => ⟨h a ha, h' a ha⟩

theorem pure {a : α} (h : post a log) : Ensures log (pure a : Emits ε ω α) post := by
  rintro _ ⟨⟩
  show post a (log ++ [])
  rwa [List.append_nil]

theorem fail (e : ε) : Ensures log (Emits.fail e) post := nofun

theorem tell {ws : List ω} {post : Unit → List ω → Prop} (h : post () (log ++ ws)) :
    Ensures log (Emits.tell ws : Emits ε ω Unit) post :=
  fun _ _ => h

theorem tell_bind {ws : List ω} {f : Unit → Emits ε ω α} (h : Ensures (log ++ ws) (f ()) post) :
    Ensures log (Emits.tell ws >>= f) post := by
  intro a ha
  show post a (log ++ (ws ++ (f ()).log))
  rw [← List.append_assoc]
  exact h a ha

theorem bind {f : α → Emits ε ω γ} {post' : γ → List ω → Prop} (h : Ensures log x post)
    (hf : ∀ a log, post a log → Ensures log (f a) post') : Ensures log (x >>= f) post' := by
  intro c hc
  obtain ⟨a, ha, hfa⟩ := Emits.value_bind_eq_ok hc
  rw [Emits.log_bind_of_ok ha, ← List.append_assoc]
  exact hf a _ (h a ha) c hfa

theorem mapError {f : ε → ε'} (h : Ensures log x post) : Ensures log (x.mapError f) post := by
  intro a ha
  obtain ⟨v, ws⟩ := x
  cases v with
  | error e => cases ha
  | ok b =>
    cases ha
    exact h _ rfl

-- What every step keeps is kept by all of them.
theorem foldlM {step : σ → β → Emits ε ω σ} {inv : σ → List ω → Prop}
    (hstep : ∀ s b log, inv s log → Ensures log (step s b) inv) {s : σ} (hs : inv s log)
    (data : List β) : Ensures log (data.foldlM step s) inv := by
  induction data generalizing s log with
  | nil => exact pure hs
  | cons b data ih =>
    rw [List.foldlM_cons]
    exact (hstep s b log hs).bind fun s' log' hs' => ih hs'

theorem drain {m : Machine ε ω σ β} {inv : σ → List ω → Prop}
    (hstep : ∀ s data log, inv s log → Ensures log (m.handle s data) fun p log => inv p.1 log)
    {s : σ} (hs : inv s log) (data : List β) : Ensures log (m.drain s data) inv := by
  fun_induction Machine.drain m s data generalizing log with
  | case1 s => exact pure hs
  | case2 s data hdata e ws heq => exact nofun
  | case3 s data hdata s' n ws heq rest =>
    rename_i ih
    have hvalue : (m.handle s data).value = .ok (s', n) := by
      rw [heq]
      rfl
    have hlog : (m.handle s data).log = ws := by
      rw [heq]
      rfl
    have hs' := hstep s data log hs (s', n) hvalue
    rw [hlog] at hs'
    intro final hfinal
    show inv final (log ++ (ws ++ (m.drain s' (data.drop n)).log))
    rw [← List.append_assoc]
    exact ih hs' final hfinal

end Ensures

end Streams
