import Mathlib.Tactic

/-!
# Framing — readers that cut a stream into pieces of their own

A reader looks at what is buffered of a stream and says whether it has to wait for more, takes the
first elements of it, or stops for good.  `loop` asks it again until it waits or stops.  A reader is
`Stable` when more input does not change what it has said; then the pieces in which a stream
arrives do not matter (`feed_eq_read`).
-/

namespace Framing

variable {α σ ε : Type}

/-- What a reader does with a buffer: nothing yet, take its first `n` elements, or stop. -/
inductive Verdict (σ ε : Type) where
  | wait
  | take (n : Nat) (s : σ)
  | stop (e : ε) (s : σ)

/-- The state after a loop, what is left in the buffer and why the reader stopped, if it did.  A
reader that has stopped keeps no buffer. -/
structure Outcome (α σ ε : Type) where
  state : σ
  rest : List α
  stopped : Option ε

/-- At most `fuel` rounds of a reader. -/
def loop (next : σ → List α → Verdict σ ε) : Nat → σ → List α → Outcome α σ ε
  | 0, s, buf => ⟨s, buf, none⟩
  | fuel + 1, s, buf =>
    match next s buf with
    | .wait => ⟨s, buf, none⟩
    | .take n s' => loop next fuel s' (buf.drop n)
    | .stop e s' => ⟨s', [], some e⟩

/-- As many rounds as there are elements. -/
def read (next : σ → List α → Verdict σ ε) (s : σ) (buf : List α) : Outcome α σ ε :=
  loop next buf.length s buf

/-- What a reader says of a buffer it says of every longer one, and it never takes nothing. -/
structure Stable (next : σ → List α → Verdict σ ε) : Prop where
  nil : ∀ s, next s [] = .wait
  take : ∀ {s buf n s'}, next s buf = .take n s' →
    0 < n ∧ n ≤ buf.length ∧ ∀ more, next s (buf ++ more) = .take n s'
  stop : ∀ {s buf e s'}, next s buf = .stop e s' → ∀ more, next s (buf ++ more) = .stop e s'

section Loop

variable {next : σ → List α → Verdict σ ε} {s s' : σ} {buf : List α} {n : Nat} {e : ε}

theorem loop_wait (fuel : Nat) (h : next s buf = .wait) :
    loop next fuel s buf = ⟨s, buf, none⟩ := by
  cases fuel with
  | zero => rfl
  | succ fuel => rw [loop, h]

theorem loop_take (fuel : Nat) (h : next s buf = .take n s') :
    loop next (fuel + 1) s buf = loop next fuel s' (buf.drop n) := by
  rw [loop, h]

theorem loop_stop (fuel : Nat) (h : next s buf = .stop e s') :
    loop next (fuel + 1) s buf = ⟨s', [], some e⟩ := by
  rw [loop, h]

/-- What every round keeps of the state and of what is left in the buffer, the loop keeps, up to the
round that stops it. -/
theorem loop_invariant_rest {J : σ → List α → Prop} {K : σ → Prop}
    (htake : ∀ s buf n s', J s buf → next s buf = .take n s' → J s' (buf.drop n))
    (hstop : ∀ s buf e s', J s buf → next s buf = .stop e s' → K s') (fuel : Nat) (h : J s buf) :
    ((loop next fuel s buf).stopped = none ∧
        J (loop next fuel s buf).state (loop next fuel s buf).rest) ∨
      ((loop next fuel s buf).stopped.isSome ∧ K (loop next fuel s buf).state) := by
  induction fuel generalizing s buf with
  | zero => exact Or.inl ⟨rfl, h⟩
  | succ fuel ih =>
    cases hverdict : next s buf with
    | wait =>
      rw [loop_wait _ hverdict]
      exact Or.inl ⟨rfl, h⟩
    | take n s' =>
      rw [loop_take _ hverdict]
      exact ih (htake s buf n s' h hverdict)
    | stop e s' =>
      rw [loop_stop _ hverdict]
      exact Or.inr ⟨rfl, hstop s buf e s' h hverdict⟩

theorem loop_invariant {J K : σ → Prop}
    (htake : ∀ s buf n s', J s → next s buf = .take n s' → J s')
    (hstop : ∀ s buf e s', J s → next s buf = .stop e s' → K s') (fuel : Nat) (h : J s) :
    ((loop next fuel s buf).stopped = none ∧ J (loop next fuel s buf).state) ∨
      ((loop next fuel s buf).stopped.isSome ∧ K (loop next fuel s buf).state) :=
  @loop_invariant_rest _ _ _ next s buf (fun s _ => J s) K htake hstop fuel h

/-- The places a loop comes to: the state and the rest of the buffer before some round. -/
inductive Visits (next : σ → List α → Verdict σ ε) : σ → List α → σ → List α → Prop where
  | here {s : σ} {buf : List α} : Visits next s buf s buf
  | take {s s' t : σ} {buf d : List α} {n : Nat} (h : next s buf = .take n s')
      (hrest : Visits next s' (buf.drop n) t d) : Visits next s buf t d

/-- A reader that keeps a ledger in its state: what each round enters is `enters`, and a round that
waits enters nothing.  `I` holds in the states the loop goes through. -/
structure Ledger {ι : Type} (next : σ → List α → Verdict σ ε) (I : σ → Prop) (log : σ → List ι)
    (enters : σ → List α → List ι) : Prop where
  wait : ∀ {s buf}, I s → next s buf = .wait → enters s buf = []
  take : ∀ {s buf n s'}, I s → next s buf = .take n s' → I s' ∧ log s' = log s ++ enters s buf
  stop : ∀ {s buf e s'}, I s → next s buf = .stop e s' → log s' = log s ++ enters s buf

/-- The ledger only grows. -/
theorem Ledger.log_loop {ι : Type} {I : σ → Prop} {log : σ → List ι}
    {enters : σ → List α → List ι} (hledger : Ledger next I log enters) (hs : I s) (fuel : Nat) :
    ∃ new, log (loop next fuel s buf).state = log s ++ new := by
  induction fuel generalizing s buf with
  | zero => exact ⟨[], (List.append_nil _).symm⟩
  | succ fuel ih =>
    cases hverdict : next s buf with
    | wait =>
      rw [loop_wait _ hverdict]
      exact ⟨[], (List.append_nil _).symm⟩
    | take n s' =>
      obtain ⟨hs', hlog⟩ := hledger.take hs hverdict
      obtain ⟨new, hnew⟩ := @ih s' (buf.drop n) hs'
      rw [loop_take _ hverdict, hnew, hlog, List.append_assoc]
      exact ⟨_, rfl⟩
    | stop e s' =>
      rw [loop_stop _ hverdict]
      exact ⟨_, hledger.stop hs hverdict⟩

/-- What holds of everything that is entered, whatever the number of rounds, is what holds of the
entries at the places the loop comes to. -/
theorem Ledger.forall_iff {ι : Type} {I : σ → Prop} {log : σ → List ι}
    {enters : σ → List α → List ι} (hledger : Ledger next I log enters) {P : ι → Prop} (hs : I s) :
    (∀ fuel, ∀ c ∈ (log (loop next fuel s buf).state).drop (log s).length, P c) ↔
      ∀ t d, Visits next s buf t d → ∀ c ∈ enters t d, P c := by
  constructor
  · intro hall t d hvisits
    induction hvisits with
    | @here s buf =>
      -- one round enters what this place enters
      have hround := hall 1
      cases hverdict : next s buf with
      | wait =>
        rw [hledger.wait hs hverdict]
        exact nofun
      | take n s' =>
        rw [loop_take _ hverdict, loop, (hledger.take hs hverdict).2, List.drop_left] at hround
        exact hround
      | stop e s' =>
        rw [loop_stop _ hverdict, hledger.stop hs hverdict, List.drop_left] at hround
        exact hround
    | @take s s' t buf d n h hrest ih =>
      obtain ⟨hs', hlog⟩ := hledger.take hs h
      apply ih hs'
      intro fuel c hc
      apply hall (fuel + 1)
      rw [loop_take _ h]
      rw [hlog, List.length_append, ← List.drop_drop] at hc
      exact List.mem_of_mem_drop hc
  · intro hall fuel
    induction fuel generalizing s buf with
    | zero =>
      rw [loop, List.drop_length]
      exact nofun
    | succ fuel ih =>
      cases hverdict : next s buf with
      | wait =>
        rw [loop_wait _ hverdict, List.drop_length]
        exact nofun
      | take n s' =>
        obtain ⟨hs', hlog⟩ := hledger.take hs hverdict
        have hrest := @ih s' (buf.drop n) hs' fun t d hvisits => hall t d (.take hverdict hvisits)
        obtain ⟨new, hnew⟩ := hledger.log_loop hs' fuel
        rw [hnew, List.drop_left] at hrest
        rw [loop_take _ hverdict, hnew, hlog, List.append_assoc, List.drop_left]
        intro c hc
        rcases List.mem_append.mp hc with hc | hc
        · exact hall s buf .here c hc
        · exact hrest c hc
      | stop e s' =>
        rw [loop_stop _ hverdict, hledger.stop hs hverdict, List.drop_left]
        exact hall s buf .here

theorem length_rest_le (fuel : Nat) : (loop next fuel s buf).rest.length ≤ buf.length := by
  induction fuel generalizing s buf with
  | zero => exact le_refl _
  | succ fuel ih =>
    cases hverdict : next s buf with
    | wait =>
      rw [loop_wait _ hverdict]
    | take n s' =>
      rw [loop_take _ hverdict]
      exact ih.trans (by rw [List.length_drop]; omega)
    | stop e s' =>
      rw [loop_stop _ hverdict]
      exact Nat.zero_le _

theorem read_wait (h : next s buf = .wait) : read next s buf = ⟨s, buf, none⟩ :=
  loop_wait _ h

variable (hstable : Stable next)

include hstable

/-- Any two numbers of rounds that are enough for the buffer give the same outcome. -/
theorem Stable.loop_eq_loop {m k : Nat} (hm : buf.length ≤ m) (hk : buf.length ≤ k) :
    loop next m s buf = loop next k s buf := by
  induction m generalizing k s buf with
  | zero =>
    have hnil : buf = [] := List.length_eq_zero_iff.mp (Nat.le_zero.mp hm)
    subst hnil
    rw [loop_wait _ (hstable.nil s), loop_wait _ (hstable.nil s)]
  | succ m ih =>
    cases hverdict : next s buf with
    | wait => rw [loop_wait _ hverdict, loop_wait _ hverdict]
    | stop e s' =>
      -- an empty buffer never stops the reader, so there is a round on both sides
      cases k with
      | zero =>
        rw [List.length_eq_zero_iff.mp (Nat.le_zero.mp hk), hstable.nil] at hverdict
        cases hverdict
      | succ k => rw [loop_stop _ hverdict, loop_stop _ hverdict]
    | take n s' =>
      obtain ⟨hpos, hle, -⟩ := hstable.take hverdict
      cases k with
      | zero => omega
      | succ k =>
        rw [loop_take _ hverdict, loop_take _ hverdict]
        apply ih
        · rw [List.length_drop]
          omega
        · rw [List.length_drop]
          omega

theorem Stable.read_take (h : next s buf = .take n s') :
    read next s buf = read next s' (buf.drop n) := by
  obtain ⟨hpos, hle, -⟩ := hstable.take h
  have henough : buf.length ≤ buf.length - 1 + 1 := by omega
  rw [read, hstable.loop_eq_loop (le_refl _) henough, loop_take _ h]
  apply hstable.loop_eq_loop
  · rw [List.length_drop]
    omega
  · exact le_refl _

theorem Stable.read_stop (h : next s buf = .stop e s') :
    read next s buf = ⟨s', [], some e⟩ := by
  have henough : buf.length ≤ buf.length + 1 := Nat.le_succ _
  rw [read, hstable.loop_eq_loop (le_refl _) henough, loop_stop _ h]

-- The first piece of a buffer that is taken as a whole is followed by the rest.
theorem Stable.read_append_of_take {more : List α} (h : next s buf = .take buf.length s') :
    read next s (buf ++ more) = read next s' more := by
  obtain ⟨-, -, hmore⟩ := hstable.take h
  rw [hstable.read_take (hmore more), List.drop_left' rfl]

end Loop

/-! ## Streams that arrive in pieces -/

/-- What a reader that has not stopped does when more arrives. -/
def Outcome.andThen (next : σ → List α → Verdict σ ε) (r : Outcome α σ ε) (more : List α) :
    Outcome α σ ε :=
  match r.stopped with
  | some _ => r
  | none => read next r.state (r.rest ++ more)

/-- The pieces of a stream, one after the other. -/
def feed (next : σ → List α → Verdict σ ε) (r : Outcome α σ ε) (pieces : List (List α)) :
    Outcome α σ ε :=
  pieces.foldl (Outcome.andThen next) r

variable {next : σ → List α → Verdict σ ε}

-- Reading what arrived first and then the rest is reading everything at once.
theorem Stable.read_append (hstable : Stable next) (s : σ) (buf more : List α) :
    (read next s buf).andThen next more = read next s (buf ++ more) := by
  -- on the length of the buffer: each round takes at least one element
  induction hlen : buf.length using Nat.strong_induction_on generalizing s buf with
  | _ len ih =>
    cases hverdict : next s buf with
    | wait =>
      rw [read_wait hverdict]
      rfl
    | stop e s' =>
      rw [hstable.read_stop hverdict, hstable.read_stop (hstable.stop hverdict more)]
      rfl
    | take n s' =>
      obtain ⟨hpos, hle, hmore⟩ := hstable.take hverdict
      rw [hstable.read_take hverdict, hstable.read_take (hmore more),
        List.drop_append_of_le_length hle]
      exact ih (buf.drop n).length (by rw [List.length_drop]; omega) s' (buf.drop n) rfl

-- However a stream is cut into pieces, the reader ends as if it had arrived at once.
theorem Stable.feed_eq_read (hstable : Stable next) (s : σ) (pieces : List (List α)) :
    feed next ⟨s, [], none⟩ pieces = read next s pieces.flatten := by
  suffices h : ∀ as, feed next (read next s as) pieces = read next s (as ++ pieces.flatten) by
    have hempty : read next s [] = ⟨s, [], none⟩ := read_wait (hstable.nil s)
    rw [← hempty]
    exact h []
  induction pieces with
  | nil =>
    intro as
    rw [List.flatten_nil, List.append_nil]
    rfl
  | cons piece pieces ih =>
    intro as
    show feed next ((read next s as).andThen next piece) pieces = _
    rw [hstable.read_append, ih, List.flatten_cons, List.append_assoc]

end Framing
