import Mathlib.Tactic

/-!
# Streams — machines that take their input in chunks

A handler is given what is left of a chunk, takes some of it and reports things on the way; a loop
calls it until the chunk is used up.  What was reported stays reported when the handler fails.  If
each call does what a machine for single symbols does with the symbols it takes, the way in which
the input was cut into chunks is not seen in the result.
-/

namespace Streams

variable {ε ω σ β α γ κ : Type}

/-! ## 1. Results with what was reported before them -/

/-- A result or an error, and everything that was reported before. -/
def Emits (ε ω α : Type) : Type := Except ε α × List ω

namespace Emits

def value (x : Emits ε ω α) : Except ε α := x.1

def log (x : Emits ε ω α) : List ω := x.2

def fail (e : ε) : Emits ε ω α := (.error e, [])

def tell (ws : List ω) : Emits ε ω Unit := (.ok (), ws)

/-- The same with other errors. -/
def mapError {ε' : Type} (f : ε → ε') (x : Emits ε ω α) : Emits ε' ω α :=
  (x.value.mapError f, x.log)

/-- The result and the reports, if it is not an error. -/
def complete (x : Emits ε ω α) : Option (α × List ω) :=
  match x.value with
  | .ok a => some (a, x.log)
  | .error _ => none

instance : Monad (Emits ε ω) where
  pure a := (.ok a, [])
  bind x f := match x with
    | (.ok a, log) => ((f a).1, log ++ (f a).2)
    | (.error e, log) => (.error e, log)

variable {x : Emits ε ω α} {f : α → Emits ε ω γ} {a : α} {e : ε}

theorem ext {y : Emits ε ω α} (hvalue : x.value = y.value) (hlog : x.log = y.log) : x = y :=
  Prod.ext hvalue hlog

@[simp] theorem value_pure (a : α) : (pure a : Emits ε ω α).value = .ok a := rfl

@[simp] theorem log_pure (a : α) : (pure a : Emits ε ω α).log = [] := rfl

@[simp] theorem value_fail (e : ε) : (fail e : Emits ε ω α).value = .error e := rfl

@[simp] theorem log_fail (e : ε) : (fail e : Emits ε ω α).log = [] := rfl

theorem value_bind_of_ok (h : x.value = .ok a) : (x >>= f).value = (f a).value := by
  obtain ⟨v, log⟩ := x
  cases h
  rfl

theorem log_bind_of_ok (h : x.value = .ok a) : (x >>= f).log = x.log ++ (f a).log := by
  obtain ⟨v, log⟩ := x
  cases h
  rfl

theorem value_bind_of_error (h : x.value = .error e) : (x >>= f).value = .error e := by
  obtain ⟨v, log⟩ := x
  cases h
  rfl

theorem log_bind_of_error (h : x.value = .error e) : (x >>= f).log = x.log := by
  obtain ⟨v, log⟩ := x
  cases h
  rfl

@[simp] theorem value_tell (ws : List ω) : (tell ws : Emits ε ω Unit).value = .ok () := rfl

@[simp] theorem log_tell (ws : List ω) : (tell ws : Emits ε ω Unit).log = ws := rfl

theorem tell_append_bind (ws vs : List ω) (x : Emits ε ω α) :
    (tell (ws ++ vs) >>= fun _ => x) = tell ws >>= fun _ => tell vs >>= fun _ => x :=
  ext rfl (List.append_assoc ws vs x.log)

theorem value_bind_eq_ok {c : γ} (h : (x >>= f).value = .ok c) :
    ∃ a, x.value = .ok a ∧ (f a).value = .ok c := by
  cases hx : x.value with
  | error e =>
    rw [value_bind_of_error hx] at h
    cases h
  | ok a =>
    rw [value_bind_of_ok hx] at h
    exact ⟨a, rfl, h⟩

theorem bind_congr_of {g : α → Emits ε ω γ} (h : ∀ a, x.value = .ok a → f a = g a) :
    x >>= f = x >>= g := by
  obtain ⟨v, log⟩ := x
  cases v with
  | error e => rfl
  | ok a =>
    show ((f a).1, log ++ (f a).2) = ((g a).1, log ++ (g a).2)
    rw [h a rfl]

theorem bind_eq_or_error {g : α → Emits ε ω γ}
    (h : ∀ a, x.value = .ok a → (f a).value = .error e ∨ f a = g a) :
    (x >>= f).value = .error e ∨ x >>= f = x >>= g := by
  obtain ⟨v, log⟩ := x
  cases v with
  | error e' => exact .inr rfl
  | ok a =>
    refine (h a rfl).imp id fun heq => ?_
    show ((f a).1, log ++ (f a).2) = ((g a).1, log ++ (g a).2)
    rw [heq]

instance : LawfulMonad (Emits ε ω) := LawfulMonad.mk' _
  (by
    rintro α ⟨v, log⟩
    cases v
    · rfl
    · exact Prod.ext rfl (List.append_nil log))
  (by
    intro α γ a f
    rfl)
  (by
    rintro α γ δ ⟨v, log⟩ f g
    cases v with
    | error e => rfl
    | ok a =>
      show (match ((f a).1, log ++ (f a).2) with
        | (.ok b, log) => ((g b).1, log ++ (g b).2)
        | (.error e, log) => (.error e, log)) = ((f a >>= g).1, log ++ (f a >>= g).2)
      rcases hf : f a with ⟨v', log'⟩
      cases v' with
      | error e => rfl
      | ok b => exact Prod.ext rfl (List.append_assoc _ _ _))

section Steps

variable {step step' : σ → β → Emits ε ω σ}

theorem length_log_foldlM {k : Nat} (h : ∀ s b, (step s b).log.length ≤ k) (s : σ)
    (data : List β) : (data.foldlM step s).log.length ≤ k * data.length := by
  induction data generalizing s with
  | nil => exact Nat.zero_le _
  | cons b data ih =>
    rw [List.foldlM_cons, List.length_cons, Nat.mul_succ, Nat.add_comm]
    cases hvalue : (step s b).value with
    | error e =>
      rw [log_bind_of_error hvalue]
      exact (h s b).trans (Nat.le_add_right _ _)
    | ok s' =>
      rw [log_bind_of_ok hvalue, List.length_append]
      exact Nat.add_le_add (h s b) (ih s')

-- Two kinds of steps that are the same as long as something holds.
theorem foldlM_congr_of {inv : σ → Prop}
    (h : ∀ s b, inv s → step s b = step' s b ∧ ∀ s', (step s b).value = .ok s' → inv s')
    {s : σ} (hs : inv s) (data : List β) : data.foldlM step s = data.foldlM step' s := by
  induction data generalizing s with
  | nil => rfl
  | cons b data ih =>
    obtain ⟨heq, hinv⟩ := h s b hs
    rw [List.foldlM_cons, List.foldlM_cons, ← heq]
    exact bind_congr_of fun s' hs' => ih (hinv s' hs')

end Steps

end Emits

/-! ## 2. Alike results -/

/-- The same value, the same reports as far as they are kept, and the same flat text, but for a part
that is missing at the end when it fails. -/
structure Alike (keep : ω → List κ) (flat : ω → List γ) (x y : Emits ε ω α) : Prop where
  value : x.value = y.value
  kept : x.log.flatMap keep = y.log.flatMap keep
  flat_prefix : x.log.flatMap flat <+: y.log.flatMap flat
  flat_eq : ∀ a, x.value = .ok a → x.log.flatMap flat = y.log.flatMap flat

section Alike

variable {keep : ω → List κ} {flat : ω → List γ} {x y z : Emits ε ω α}

theorem Alike.refl (x : Emits ε ω α) : Alike keep flat x x :=
  ⟨rfl, rfl, List.prefix_refl _, fun _ _ => rfl⟩

theorem Alike.of_eq (h : x = y) : Alike keep flat x y := h ▸ Alike.refl x

theorem Alike.trans (h : Alike keep flat x y) (h' : Alike keep flat y z) : Alike keep flat x z where
  value := h.value.trans h'.value
  kept := h.kept.trans h'.kept
  flat_prefix := h.flat_prefix.trans h'.flat_prefix
  flat_eq a ha := (h.flat_eq a ha).trans (h'.flat_eq a (h.value ▸ ha))

theorem Alike.bind {δ : Type} {f g : α → Emits ε ω δ} (h : Alike keep flat x y)
    (hfg : ∀ a, x.value = .ok a → Alike keep flat (f a) (g a)) :
    Alike keep flat (x >>= f) (y >>= g) := by
  cases hx : x.value with
  | error e =>
    have hy : y.value = .error e := h.value ▸ hx
    constructor
    · rw [Emits.value_bind_of_error hx, Emits.value_bind_of_error hy]
    · rw [Emits.log_bind_of_error hx, Emits.log_bind_of_error hy]
      exact h.kept
    · rw [Emits.log_bind_of_error hx, Emits.log_bind_of_error hy]
      exact h.flat_prefix
    · intro c hc
      rw [Emits.value_bind_of_error hx] at hc
      cases hc
  | ok a =>
    have hy : y.value = .ok a := h.value ▸ hx
    have hrest := hfg a hx
    constructor
    · rw [Emits.value_bind_of_ok hx, Emits.value_bind_of_ok hy]
      exact hrest.value
    · rw [Emits.log_bind_of_ok hx, Emits.log_bind_of_ok hy, List.flatMap_append,
        List.flatMap_append, h.kept, hrest.kept]
    · rw [Emits.log_bind_of_ok hx, Emits.log_bind_of_ok hy, List.flatMap_append,
        List.flatMap_append, h.flat_eq a hx]
      exact (List.prefix_append_right_inj _).mpr hrest.flat_prefix
    · intro c hc
      rw [Emits.value_bind_of_ok hx] at hc
      rw [Emits.log_bind_of_ok hx, Emits.log_bind_of_ok hy, List.flatMap_append,
        List.flatMap_append, h.flat_eq a hx, hrest.flat_eq c hc]

-- Alike or stopped by some error.
theorem Alike.bind_or_of {δ : Type} {f g : α → Emits ε ω δ} {e : ε} (h : Alike keep flat x y)
    (hfg : ∀ a, x.value = .ok a → (f a).value = .error e ∨ Alike keep flat (f a) (g a)) :
    (x >>= f).value = .error e ∨ Alike keep flat (x >>= f) (y >>= g) := by
  cases hx : x.value with
  | error e' => exact .inr (h.bind fun a ha => by rw [hx] at ha; cases ha)
  | ok a =>
    rcases hfg a hx with herror | halike
    · exact .inl ((Emits.value_bind_of_ok hx).trans herror)
    · refine .inr (h.bind fun a' ha' => ?_)
      rw [hx] at ha'
      cases ha'
      exact halike

theorem Alike.bind_or {δ : Type} {f g : α → Emits ε ω δ} {e : ε}
    (hfg : ∀ a, x.value = .ok a → (f a).value = .error e ∨ Alike keep flat (f a) (g a)) :
    (x >>= f).value = .error e ∨ Alike keep flat (x >>= f) (x >>= g) :=
  (Alike.refl x).bind_or_of hfg

-- Where everything is kept nothing but the same result is alike.
theorem Alike.eq {x y : Emits ε ω α} (h : Alike (fun w => [w]) flat x y) : x = y := by
  refine Emits.ext h.value ?_
  have hkept := h.kept
  rwa [List.flatMap_singleton', List.flatMap_singleton'] at hkept

end Alike

section Related

variable {α' γ' : Type} {R : α → α' → Prop} {S : γ → γ' → Prop} {x : Emits ε ω α}
  {y : Emits ε ω α'}

/-- The same error or results that are related, after the same reports. -/
inductive Related (R : α → α' → Prop) : Emits ε ω α → Emits ε ω α' → Prop
  | ok {a : α} {a' : α'} (log : List ω) : R a a' → Related R (.ok a, log) (.ok a', log)
  | error (e : ε) (log : List ω) : Related R (.error e, log) (.error e, log)

theorem Related.pure {a : α} {a' : α'} (h : R a a') :
    Related (ε := ε) (ω := ω) R (Pure.pure a) (Pure.pure a') :=
  .ok [] h

theorem Related.fail (e : ε) : Related (ω := ω) R (Emits.fail e) (Emits.fail e) := .error e []

theorem Related.bind_of {f : α → Emits ε ω γ} {g : α' → Emits ε ω γ'} (h : Related R x y)
    (hfg : ∀ a a', y.value = .ok a' → R a a' → Related S (f a) (g a')) :
    Related S (x >>= f) (y >>= g) := by
  cases h with
  | error e log => exact .error e log
  | @ok a a' log hR =>
    have hrest := hfg a a' rfl hR
    show Related S ((f a).1, log ++ (f a).2) ((g a').1, log ++ (g a').2)
    generalize f a = x at hrest
    generalize g a' = y at hrest
    cases hrest with
    | ok log' hS => exact .ok (log ++ log') hS
    | error e log' => exact .error e (log ++ log')

theorem Related.bind {f : α → Emits ε ω γ} {g : α' → Emits ε ω γ'} (h : Related R x y)
    (hfg : ∀ a a', R a a' → Related S (f a) (g a')) : Related S (x >>= f) (y >>= g) :=
  h.bind_of fun a a' _ => hfg a a'

theorem Related.bind_same {δ δ' : Type} {T : δ → δ' → Prop} {f : α → Emits ε ω δ}
    {g : α → Emits ε ω δ'} (h : ∀ a, x.value = .ok a → Related T (f a) (g a)) :
    Related T (x >>= f) (x >>= g) := by
  have hsame : Related (fun a a' => a = a') x x := by
    obtain ⟨v, log⟩ := x
    cases v with
    | error e => exact .error e log
    | ok a => exact .ok log rfl
  refine hsame.bind_of fun a a' ha' haa' => ?_
  rw [haa']
  exact h a' ha'

theorem Related.mono {R' : α → α' → Prop} (h : Related R x y) (hR : ∀ a a', R a a' → R' a a') :
    Related R' x y := by
  cases h with
  | ok log h => exact .ok log (hR _ _ h)
  | error e log => exact .error e log

-- Related by equality is equal.
theorem Related.eq {y : Emits ε ω α} (h : Related (fun a a' => a = a') x y) : x = y := by
  cases h with
  | ok log h => rw [h]
  | error e log => rfl

end Related

/-! ## 3. Machines -/

/-- A handler that is called with what is left of a chunk.  It takes something or gets closer to
taking something. -/
structure Machine (ε ω σ β : Type) where
  handle : σ → List β → Emits ε ω (σ × Nat)
  rank : σ → Nat
  progress : ∀ s data, data ≠ [] → ∀ s' n, (handle s data).value = .ok (s', n) →
    0 < n ∨ rank s' < rank s

namespace Machine

variable (m : Machine ε ω σ β)

/-- The loop over a chunk.  It ends for every chunk. -/
def drain (s : σ) (data : List β) : Emits ε ω σ :=
  if data = [] then pure s
  else
    match _h : m.handle s data with
    | (.error e, log) => (.error e, log)
    | (.ok (s', n), log) =>
      let rest := drain s' (data.drop n)
      (rest.1, log ++ rest.2)
termination_by (data.length, m.rank s)
decreasing_by
  rename_i hdata
  have hvalue : (m.handle s data).value = .ok (s', n) := by
    rw [_h]
    rfl
  have hpos : 0 < data.length := List.length_pos_iff.mpr hdata
  rw [List.length_drop]
  rcases m.progress s data hdata s' n hvalue with hn | hrank
  · exact Prod.Lex.left _ _ (by omega)
  · rcases Nat.eq_zero_or_pos n with rfl | hn
    · exact Prod.Lex.right _ hrank
    · exact Prod.Lex.left _ _ (by omega)

/-- The loop with a bound on the number of calls. -/
def rounds : Nat → σ → List β → Option (Emits ε ω σ)
  | _, s, [] => some (pure s)
  | 0, _, _ :: _ => none
  | fuel + 1, s, b :: data =>
    match m.handle s (b :: data) with
    | (.error e, log) => some (.error e, log)
    | (.ok (s', n), log) => do
      let rest ← rounds fuel s' ((b :: data).drop n)
      return (rest.1, log ++ rest.2)

variable {m} {s : σ} {data : List β}

theorem drain_nil : m.drain s [] = pure s := by
  rw [drain, if_pos rfl]

theorem drain_of_ne (h : data ≠ []) :
    m.drain s data = m.handle s data >>= fun p => m.drain p.1 (data.drop p.2) := by
  rw [drain, if_neg h]
  split
  next e log heq =>
    rw [heq]
    rfl
  next s' n log heq =>
    rw [heq]
    rfl

-- What holds of a chunk if it holds of what a call leaves of it holds of every chunk.
theorem chunk_induction {motive : σ → List β → Prop} (hnil : ∀ s, motive s [])
    (hcall : ∀ s b data, (∀ s' n, (m.handle s (b :: data)).value = .ok (s', n) →
      motive s' ((b :: data).drop n)) → motive s (b :: data))
    (s : σ) (data : List β) : motive s data := by
  induction hlen : data.length using Nat.strong_induction_on generalizing s data with
  | _ length ihLength =>
    induction hrank : m.rank s using Nat.strong_induction_on generalizing s with
    | _ rank ihRank =>
      cases data with
      | nil => exact hnil s
      | cons b data =>
        have hne : b :: data ≠ [] := List.cons_ne_nil b data
        apply hcall
        intro s' taken hvalue
        -- less is left, or the loop is closer to taking something
        rcases Nat.eq_zero_or_pos taken with rfl | hpos
        · rcases m.progress s (b :: data) hne s' 0 hvalue with hn | hless
          · exact absurd hn (lt_irrefl 0)
          · exact ihRank _ (hrank ▸ hless) s' rfl
        · refine ihLength _ ?_ s' _ rfl
          rw [List.length_drop, ← hlen, List.length_cons]
          omega

-- For every chunk there is a bound that is enough.
theorem exists_rounds (m : Machine ε ω σ β) (s : σ) (data : List β) :
    ∃ fuel, m.rounds fuel s data = some (m.drain s data) := by
  apply m.chunk_induction (motive := fun s data =>
    ∃ fuel, m.rounds fuel s data = some (m.drain s data))
  · intro s
    exact ⟨0, by rw [rounds, drain_nil]⟩
  · intro s b data ih
    rw [drain_of_ne (List.cons_ne_nil b data)]
    rcases hcall : m.handle s (b :: data) with ⟨e | ⟨s', n⟩, log⟩
    · refine ⟨1, ?_⟩
      rw [rounds, hcall]
      rfl
    · obtain ⟨fuel, hfuel⟩ := ih s' n (by rw [hcall]; rfl)
      refine ⟨fuel + 1, ?_⟩
      rw [rounds, hcall]
      show (m.rounds fuel s' ((b :: data).drop n) >>= fun rest => _) = _
      rw [hfuel]
      rfl

section Unfold

variable {keep : ω → List κ} {flat : ω → List γ} {f : σ → List β → Emits ε ω σ}

-- The loop is alike whatever is alike to one call and itself on what the call leaves.
theorem drain_alike_of (hnil : ∀ s, f s [] = pure s)
    (hcall : ∀ s b data, Alike keep flat
      (m.handle s (b :: data) >>= fun p => f p.1 ((b :: data).drop p.2)) (f s (b :: data)))
    (s : σ) (data : List β) : Alike keep flat (m.drain s data) (f s data) := by
  apply m.chunk_induction (motive := fun s data => Alike keep flat (m.drain s data) (f s data))
  · intro s
    rw [drain_nil, hnil]
    exact Alike.refl _
  · intro s b data ih
    rw [drain_of_ne (List.cons_ne_nil b data)]
    exact ((Alike.refl _).bind fun p hvalue => ih p.1 p.2 hvalue).trans (hcall s b data)

theorem drain_eq_of (hnil : ∀ s, f s [] = pure s)
    (hcall : ∀ s b data,
      (m.handle s (b :: data) >>= fun p => f p.1 ((b :: data).drop p.2)) = f s (b :: data))
    (s : σ) (data : List β) : m.drain s data = f s data :=
  (drain_alike_of hnil (fun s b data => Alike.of_eq (hcall s b data)) s data :
    Alike (fun w => [w]) (fun _ => ([] : List Unit)) _ _).eq

end Unfold

/-- Each call does what `step` does with the symbols it takes. -/
def Stepwise (m : Machine ε ω σ β) (step : σ → β → Emits ε ω σ) : Prop :=
  ∀ s b data, ∃ n, m.handle s (b :: data) =
    ((b :: data).take n).foldlM step s >>= fun s' => pure (s', n)

theorem Stepwise.drain_eq {step : σ → β → Emits ε ω σ} (h : m.Stepwise step) (s : σ)
    (data : List β) : m.drain s data = data.foldlM step s := by
  refine @drain_eq_of _ _ _ _ m (fun s data => data.foldlM step s) (fun _ => rfl) ?_ s data
  intro s b data
  obtain ⟨n, hn⟩ := h s b data
  rw [hn, bind_assoc]
  simp only [pure_bind]
  rw [← List.foldlM_append, List.take_append_drop]

end Machine

end Streams
