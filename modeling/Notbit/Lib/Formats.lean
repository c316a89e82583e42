import Notbit.Lib.Traced

/-!
# Formats — what an input is made of, apart from the code that walks over it

A `Format` lists the fields of an input in order: blocks of a known size, tagged numbers whose
first byte decides how wide they are, and the rest of the input.  What comes next may depend on
what was read.  `run` lays the fields out over the bytes that are left, and `EndsAtTag` says that
the input stops exactly where a tagged number would begin.  A parser that `Follows` a format
accepts the same inputs, and it reads behind its input exactly when it looks for a tag there.
-/

open Bytes Traced.Parser

namespace Traced

/-- How a number is stored behind its tag: the width counts the tag itself. -/
structure Tagging where
  width : UInt8 → Nat
  value : List UInt8 → Nat
  /-- No number is read when this much or more is left. -/
  limit : Nat

def Tagging.valueAt (t : Tagging) (mem : Memory) (p : Nat) : Nat :=
  t.value (window mem p (t.width (mem p)))

inductive Format (α : Type) where
  | done (a : α)
  | fail
  | take (n : Nat) (next : Nat → List UInt8 → Format α)
  | tagged (next : Nat → Format α)
  | rest (next : Nat → Nat → Format α)

namespace Format

variable {α β γ δ : Type} {t : Tagging} {mem : Memory} {c c' : Cursor}

protected def bind : Format α → (α → Format β) → Format β
  | done a, g => g a
  | fail, _ => fail
  | take n next, g => take n fun start bytes => (next start bytes).bind g
  | tagged next, g => tagged fun v => (next v).bind g
  | rest next, g => rest fun start n => (next start n).bind g

/-- The fields laid out over what is left; there is no result when they do not fit. -/
def run (t : Tagging) (mem : Memory) : Format α → Cursor → Option (α × Cursor)
  | done a, c => some (a, c)
  | fail, _ => none
  | take n next, c =>
    if n ≤ c.len then (next c.pos (window mem c.pos n)).run t mem (c.skip n) else none
  | tagged next, c =>
    if c.len < t.limit ∧ t.width (mem c.pos) ≤ c.len then
      (next (t.valueAt mem c.pos)).run t mem (c.skip (t.width (mem c.pos)))
    else none
  | rest next, c => (next c.pos c.len).run t mem (c.skip c.len)

/-- The fields up to some tagged number fill the input to its last byte. -/
def EndsAtTag (t : Tagging) (mem : Memory) : Format α → Cursor → Prop
  | done _, _ => False
  | fail, _ => False
  | take n next, c => n ≤ c.len ∧ (next c.pos (window mem c.pos n)).EndsAtTag t mem (c.skip n)
  | tagged next, c =>
    c.len = 0 ∨ c.len < t.limit ∧ t.width (mem c.pos) ≤ c.len ∧
      (next (t.valueAt mem c.pos)).EndsAtTag t mem (c.skip (t.width (mem c.pos)))
  | rest next, c => (next c.pos c.len).EndsAtTag t mem (c.skip c.len)

/-! ## 1. Sequences -/

theorem bind_done (f : Format α) : f.bind done = f := by
  induction f with
  | done a => rfl
  | fail => rfl
  | take n next ih => simp only [Format.bind, ih]
  | tagged next ih => simp only [Format.bind, ih]
  | rest next ih => simp only [Format.bind, ih]

theorem run_bind (f : Format α) (g : α → Format β) (c : Cursor) :
    (f.bind g).run t mem c = (f.run t mem c).bind fun r => (g r.1).run t mem r.2 := by
  induction f generalizing c with
  | done a => rfl
  | fail => rfl
  | take n next ih =>
    simp only [Format.bind, run, ih]
    split_ifs <;> rfl
  | tagged next ih =>
    simp only [Format.bind, run, ih]
    split_ifs <;> rfl
  | rest next ih => simp only [Format.bind, run, ih]

-- Nothing is taken where a format asks for its place.
theorem run_here (next : Nat → List UInt8 → Format α) (c : Cursor) :
    (take 0 next).run t mem c = (next c.pos []).run t mem c := by
  rw [run, if_pos (Nat.zero_le _)]
  rfl

/-- Fields are taken from the front of what is left. -/
theorem run_consumed {f : Format α} {a : α} (h : f.run t mem c = some (a, c')) :
    c.pos ≤ c'.pos ∧ c'.pos + c'.len = c.pos + c.len := by
  induction f generalizing c with
  | done b =>
    cases h
    exact ⟨le_refl _, rfl⟩
  | fail => cases h
  | take n next ih =>
    simp only [run] at h
    split_ifs at h with hn
    have hrest := ih _ _ h
    simp only [Cursor.skip] at hrest
    omega
  | tagged next ih =>
    simp only [run] at h
    split_ifs at h with hn
    have hrest := ih _ h
    simp only [Cursor.skip] at hrest
    omega
  | rest next ih =>
    have hrest := ih _ _ h
    simp only [Cursor.skip] at hrest
    omega

-- The input ends at a tag of a sequence within its first part, or behind it within the second.
theorem endsAtTag_bind (f : Format α) (g : α → Format β) (c : Cursor) :
    (f.bind g).EndsAtTag t mem c ↔ f.EndsAtTag t mem c ∨
      ∃ r, f.run t mem c = some r ∧ (g r.1).EndsAtTag t mem r.2 := by
  induction f generalizing c with
  | done a => simp [Format.bind, EndsAtTag, run]
  | fail => simp [Format.bind, EndsAtTag, run]
  | take n next ih =>
    simp only [Format.bind, EndsAtTag, run, ih]
    by_cases hn : n ≤ c.len
    · simp only [hn, true_and, if_true]
    · simp [hn]
  | tagged next ih =>
    simp only [Format.bind, EndsAtTag, run, ih]
    by_cases hn : c.len < t.limit ∧ t.width (mem c.pos) ≤ c.len
    · simp only [hn, and_self, true_and, if_true, or_assoc]
    · simp only [hn, if_false, reduceCtorEq, false_and, exists_false, or_false]
      rw [← and_assoc, ← and_assoc]
      simp only [hn, false_and]
  | rest next ih => simp only [Format.bind, EndsAtTag, run, ih]

/-! ## 2. Parsers that follow a format -/

/-- At the cursor `c`, the parser returns what the format does, put together by `out`, and it reads
behind its input only where that ends at a tag. -/
structure Follows (t : Tagging) (c : Cursor) (x : Parser β) (f : Format α)
    (out : α × Cursor → β) : Prop where
  value : ∀ (mem : Memory) (b : β),
    x.value mem = .ok b ↔ ∃ r, f.run t mem c = some r ∧ out r = b
  reads : ∀ (mem : Memory) (lo : Nat), lo ≤ c.pos →
    (x.ReadsInside lo (c.pos + c.len) mem ↔ ¬ f.EndsAtTag t mem c)

theorem follows_pure {b : β} {a : α} {out : α × Cursor → β} (h : out (a, c) = b) :
    Follows t c (pure b) (done a) out where
  value mem b' := by simp [run, h]
  reads mem lo _ := by simp [ReadsInside, EndsAtTag]

theorem follows_stop (e : Stop) (out : α × Cursor → β) : Follows t c (stop e) fail out where
  value mem b := by simp [run]
  reads mem lo _ := by simp [ReadsInside, EndsAtTag]

theorem follows_pure_rest {b : β} {a : α} {out : α × Cursor → β} {next : Nat → Nat → Format α}
    (hnext : next c.pos c.len = done a) (hout : ∀ c', out (a, c') = b) :
    Follows t c (pure b) (rest next) out where
  value mem b' := by simp [run, hnext, hout]
  reads mem lo _ := by simp [ReadsInside, EndsAtTag, hnext]

theorem follows_stop_rest {e : Stop} {out : α × Cursor → β} {next : Nat → Nat → Format α}
    (hnext : next c.pos c.len = fail) : Follows t c (stop e) (rest next) out where
  value mem b := by simp [run, hnext]
  reads mem lo _ := by simp [ReadsInside, EndsAtTag, hnext]

-- A format may use the place where it begins.
theorem Follows.here {x : Parser β} {next : Nat → List UInt8 → Format α}
    {out : α × Cursor → β} (h : Follows t c x (next c.pos []) out) :
    Follows t c x (take 0 next) out where
  value mem b := by rw [h.value mem b, run_here]
  reads mem lo hlo := by
    rw [h.reads mem lo hlo, EndsAtTag, and_iff_right (Nat.zero_le _)]
    rfl

/-- One parser after the other follows one format after the other. -/
theorem Follows.bind {x : Parser β} {k : β → Parser δ} {f : Format α} {g : α → Format γ}
    {out : α × Cursor → β} {out' : γ × Cursor → δ} (hx : Follows t c x f out)
    (hk : ∀ a c', c.pos ≤ c'.pos → c'.pos + c'.len = c.pos + c.len →
      Follows t c' (k (out (a, c'))) (g a) out') :
    Follows t c (x >>= k) (f.bind g) out' where
  value mem b := by
    rw [value_bind_eq_ok, run_bind]
    constructor
    · rintro ⟨_, hfirst, hsecond⟩
      obtain ⟨⟨a, c'⟩, hrun, rfl⟩ := (hx.value mem _).mp hfirst
      obtain ⟨hpos, hleft⟩ := run_consumed hrun
      rw [hrun]
      exact ((hk a c' hpos hleft).value mem b).mp hsecond
    · rintro ⟨r, hrun, hout⟩
      obtain ⟨⟨a, c'⟩, hfirst, hsecond⟩ := Option.bind_eq_some_iff.mp hrun
      obtain ⟨hpos, hleft⟩ := run_consumed hfirst
      exact ⟨_, (hx.value mem _).mpr ⟨_, hfirst, rfl⟩,
        ((hk a c' hpos hleft).value mem b).mpr ⟨r, hsecond, hout⟩⟩
  reads mem lo hlo := by
    rw [readsInside_bind_iff, endsAtTag_bind, hx.reads mem lo hlo, not_or]
    apply and_congr_right'
    constructor
    · rintro hinside ⟨⟨a, c'⟩, hrun, hends⟩
      obtain ⟨hpos, hleft⟩ := run_consumed hrun
      have hsecond := hinside _ ((hx.value mem _).mpr ⟨_, hrun, rfl⟩)
      rw [← hleft] at hsecond
      exact ((hk a c' hpos hleft).reads mem lo (by omega)).mp hsecond hends
    · intro hends b hfirst
      obtain ⟨⟨a, c'⟩, hrun, rfl⟩ := (hx.value mem _).mp hfirst
      obtain ⟨hpos, hleft⟩ := run_consumed hrun
      rw [← hleft]
      exact ((hk a c' hpos hleft).reads mem lo (by omega)).mpr fun h => hends ⟨_, hrun, h⟩

-- What is made of the result afterwards does not matter.
theorem Follows.map {x : Parser β} {f : Format α} {out : α × Cursor → β}
    {out' : α × Cursor → δ} {k : β → Parser δ} (hx : Follows t c x f out)
    (hk : ∀ a c', c.pos ≤ c'.pos → c'.pos + c'.len = c.pos + c.len →
      Follows t c' (k (out (a, c'))) (done a) out') : Follows t c (x >>= k) f out' := by
  have hfollows := hx.bind hk
  rwa [bind_done] at hfollows

end Format

/-! ## 3. Pieces of an input -/

/-- The pieces, each given by its start and its size, cover `[lo, hi)` one after the other. -/
def Tiles : Nat → List (Nat × Nat) → Nat → Prop
  | lo, [], hi => lo = hi
  | lo, (start, size) :: pieces, hi => start = lo ∧ Tiles (start + size) pieces hi

theorem Tiles.le {lo hi : Nat} {pieces : List (Nat × Nat)} (h : Tiles lo pieces hi) :
    lo ≤ hi := by
  induction pieces generalizing lo with
  | nil => exact le_of_eq h
  | cons piece pieces ih =>
    obtain ⟨hstart, hrest⟩ := h
    have hle := ih hrest
    omega

theorem Tiles.append {lo mid hi : Nat} {pieces others : List (Nat × Nat)}
    (h : Tiles lo pieces mid) (h' : Tiles mid others hi) : Tiles lo (pieces ++ others) hi := by
  induction pieces generalizing lo with
  | nil => rwa [show lo = mid from h]
  | cons piece pieces ih => exact ⟨h.1, ih h.2⟩

theorem Tiles.within {lo hi : Nat} {pieces : List (Nat × Nat)} (h : Tiles lo pieces hi) :
    ∀ piece ∈ pieces, lo ≤ piece.1 ∧ piece.1 + piece.2 ≤ hi := by
  induction pieces generalizing lo with
  | nil => nofun
  | cons piece pieces ih =>
    obtain ⟨hstart, hrest⟩ := h
    have hle := hrest.le
    rw [List.forall_mem_cons]
    constructor
    · exact ⟨by omega, hle⟩
    · intro other hother
      have hwithin := ih hrest other hother
      omega

-- Pieces that tile an interval do not overlap.
theorem Tiles.disjoint {lo hi : Nat} {pieces : List (Nat × Nat)} (h : Tiles lo pieces hi) :
    pieces.Pairwise fun first second => first.1 + first.2 ≤ second.1 := by
  induction pieces generalizing lo with
  | nil => exact List.Pairwise.nil
  | cons piece pieces ih =>
    obtain ⟨-, hrest⟩ := h
    exact List.Pairwise.cons (fun other hother => (hrest.within other hother).1) (ih hrest)

end Traced
