import Notbit.Lib.Bytes

/-!
# Traced — parsers over a pointer and a remaining length, with every access recorded

A C parser keeps a pointer and the number of bytes that are left, and nothing stops it from reading
past them or from letting the unsigned count wrap.  `Parser` runs such code over an arbitrary
memory and records each byte it reads and each value its cursor takes; `Safe` is the statement that
no record leaves the input.
-/

open Bytes

namespace Traced

/-- A pointer into the input and the number of bytes the code believes are left. -/
structure Cursor where
  pos : Nat
  len : Nat
  deriving DecidableEq, Repr

/-- The cursor after `n` bytes, with the remaining length kept in `w` unsigned bits. -/
def Cursor.advance (w : Nat) (c : Cursor) (n : Nat) : Cursor :=
  { pos := c.pos + n, len := (c.len + 2 ^ w - n) % 2 ^ w }

/-- The cursor after `n` of the bytes that are left. -/
def Cursor.skip (c : Cursor) (n : Nat) : Cursor :=
  { pos := c.pos + n, len := c.len - n }

@[simp] theorem Cursor.skip_pos (c : Cursor) (n : Nat) : (c.skip n).pos = c.pos + n := rfl

@[simp] theorem Cursor.skip_len (c : Cursor) (n : Nat) : (c.skip n).len = c.len - n := rfl

@[simp] theorem Cursor.skip_skip (c : Cursor) (m n : Nat) :
    (c.skip m).skip n = c.skip (m + n) := by
  simp only [skip, Nat.sub_sub, Nat.add_assoc]

-- As long as no more is consumed than is left, the count does not wrap.
theorem Cursor.advance_of_le {w n : Nat} {c : Cursor} (hn : n ≤ c.len) (hw : c.len < 2 ^ w) :
    c.advance w n = c.skip n := by
  have hlen : (c.len + 2 ^ w - n) % 2 ^ w = c.len - n := by
    rw [show c.len + 2 ^ w - n = (c.len - n) + 2 ^ w by omega, Nat.add_mod_right,
      Nat.mod_eq_of_lt (by omega)]
  rw [advance, hlen, skip]

-- Consuming more than is left wraps the count, so that pointer and count no longer add up.
theorem Cursor.advance_of_lt {w n : Nat} {c : Cursor} (hn : c.len < n) (hw : n ≤ 2 ^ w) :
    (c.advance w n).pos + (c.advance w n).len = c.pos + c.len + 2 ^ w := by
  have hlen : (c.len + 2 ^ w - n) % 2 ^ w = c.len + 2 ^ w - n :=
    Nat.mod_eq_of_lt (by omega)
  simp only [advance, hlen]
  omega

/-- What a parser does to memory and to its cursor. -/
inductive Access where
  | read (addr : Nat)
  | move (c : Cursor)
  deriving DecidableEq, Repr

/-- The access stays in `[lo, hi)`: a read hits one of its bytes, and a cursor's pointer and
remaining length still add up to its end. -/
def Access.Within (lo hi : Nat) : Access → Prop
  | .read addr => lo ≤ addr ∧ addr < hi
  | .move c => lo ≤ c.pos ∧ c.pos + c.len = hi

instance (lo hi : Nat) : (e : Access) → Decidable (e.Within lo hi)
  | .read _ => inferInstanceAs (Decidable (_ ∧ _))
  | .move _ => inferInstanceAs (Decidable (_ ∧ _))

/-- How a parser can stop without a result: the input is refused, or an assertion fails. -/
inductive Stop where
  | reject
  | abort
  deriving DecidableEq, Repr

theorem bind_eq_ok {ε α β : Type} {x : Except ε α} {f : α → Except ε β} {b : β} :
    (x >>= f) = .ok b ↔ ∃ a, x = .ok a ∧ f a = .ok b := by
  cases x with
  | error e => simp [bind, Except.bind]
  | ok a => simp [bind, Except.bind]

/-- A computation that reads memory, records its accesses and may stop early. -/
def Parser (α : Type) : Type := Memory → Except Stop α × List Access

namespace Parser

variable {α β : Type}

def value (x : Parser α) (mem : Memory) : Except Stop α := (x mem).1

def log (x : Parser α) (mem : Memory) : List Access := (x mem).2

protected def pure (a : α) : Parser α := fun _ => (.ok a, [])

protected def bind (x : Parser α) (f : α → Parser β) : Parser β := fun mem =>
  match x mem with
  | (.ok a, l) => ((f a mem).1, l ++ (f a mem).2)
  | (.error e, l) => (.error e, l)

instance : Monad Parser where
  pure := Parser.pure
  bind := Parser.bind

def stop (e : Stop) : Parser α := fun _ => (.error e, [])

def reject : Parser α := stop .reject

/-- An assertion of the source: the process ends when the condition is false. -/
def assert (b : Bool) : Parser Unit := if b then pure () else stop .abort

/-- Reads the `n` bytes at `addr`. -/
def readBytes (addr n : Nat) : Parser (List UInt8) := fun mem =>
  (.ok (window mem addr n), (List.range n).map fun i => .read (addr + i))

def readByte (addr : Nat) : Parser UInt8 := fun mem => (.ok (mem addr), [.read addr])

/-- Records the cursor the code holds from here on and returns it. -/
def moveTo (c : Cursor) : Parser Cursor := fun _ => (.ok c, [.move c])

/-! ## 1. Results -/

@[simp] theorem value_pure (a : α) (mem : Memory) : (pure a : Parser α).value mem = .ok a := rfl

@[simp] theorem value_stop (e : Stop) (mem : Memory) :
    (stop e : Parser α).value mem = .error e := rfl

@[simp] theorem value_reject (mem : Memory) : (reject : Parser α).value mem = .error .reject := rfl

@[simp] theorem value_readBytes (addr n : Nat) (mem : Memory) :
    (readBytes addr n).value mem = .ok (window mem addr n) := rfl

@[simp] theorem value_readByte (addr : Nat) (mem : Memory) :
    (readByte addr).value mem = .ok (mem addr) := rfl

@[simp] theorem value_moveTo (c : Cursor) (mem : Memory) : (moveTo c).value mem = .ok c := rfl

theorem value_assert {b : Bool} (h : b) (mem : Memory) : (assert b).value mem = .ok () := by
  rw [assert, if_pos h, value_pure]

theorem value_bind (x : Parser α) (f : α → Parser β) (mem : Memory) :
    (x >>= f).value mem = (x.value mem).bind fun a => (f a).value mem := by
  change (Parser.bind x f mem).1 = _
  unfold Parser.bind value
  rcases x mem with ⟨r, l⟩
  cases r <;> rfl

theorem value_bind_of_ok {x : Parser α} {f : α → Parser β} {mem : Memory} {a : α}
    (h : x.value mem = .ok a) : (x >>= f).value mem = (f a).value mem := by
  rw [value_bind, h]
  rfl

-- A sequence succeeds exactly when both parts do.
theorem value_bind_eq_ok {x : Parser α} {f : α → Parser β} {mem : Memory} {b : β} :
    (x >>= f).value mem = .ok b ↔
      ∃ a, x.value mem = .ok a ∧ (f a).value mem = .ok b := by
  rw [value_bind]
  cases h : x.value mem with
  | error e => simp [Except.bind]
  | ok a => simp [Except.bind]

/-! ## 2. Records -/

@[simp] theorem log_pure (a : α) (mem : Memory) : (pure a : Parser α).log mem = [] := rfl

@[simp] theorem log_stop (e : Stop) (mem : Memory) : (stop e : Parser α).log mem = [] := rfl

@[simp] theorem log_reject (mem : Memory) : (reject : Parser α).log mem = [] := rfl

@[simp] theorem log_readBytes (addr n : Nat) (mem : Memory) :
    (readBytes addr n).log mem = (List.range n).map fun i => .read (addr + i) := rfl

@[simp] theorem log_moveTo (c : Cursor) (mem : Memory) : (moveTo c).log mem = [.move c] := rfl

-- The second part leaves its records only when the first one returns.
theorem mem_log_bind {x : Parser α} {f : α → Parser β} {mem : Memory} {e : Access} :
    e ∈ (x >>= f).log mem ↔
      e ∈ x.log mem ∨ ∃ a, x.value mem = .ok a ∧ e ∈ (f a).log mem := by
  change e ∈ (Parser.bind x f mem).2 ↔ _
  unfold Parser.bind log value
  rcases x mem with ⟨r, l⟩
  cases r with
  | error s => simp
  | ok a => simp

/-! ## 3. Staying inside the input -/

/-- Everything the parser does stays in `[lo, hi)`. -/
def Safe (lo hi : Nat) (x : Parser α) (mem : Memory) : Prop :=
  ∀ e ∈ x.log mem, e.Within lo hi

instance (lo hi : Nat) (x : Parser α) (mem : Memory) : Decidable (x.Safe lo hi mem) :=
  inferInstanceAs (Decidable (∀ e ∈ x.log mem, e.Within lo hi))

variable {lo hi : Nat} {mem : Memory}

@[simp] theorem safe_pure (a : α) : (pure a : Parser α).Safe lo hi mem := by simp [Safe]

@[simp] theorem safe_stop (e : Stop) : (stop e : Parser α).Safe lo hi mem := by simp [Safe]

@[simp] theorem safe_reject : (reject : Parser α).Safe lo hi mem := by simp [Safe]

theorem safe_moveTo (c : Cursor) :
    (moveTo c).Safe lo hi mem ↔ lo ≤ c.pos ∧ c.pos + c.len = hi := by
  simp [Safe, Access.Within]

-- A block read is safe exactly when it is empty or lies inside the input.
theorem safe_readBytes (addr n : Nat) :
    (readBytes addr n).Safe lo hi mem ↔ n = 0 ∨ lo ≤ addr ∧ addr + n ≤ hi := by
  constructor
  · intro h
    rcases Nat.eq_zero_or_pos n with hn | hn
    · exact Or.inl hn
    · have hfirst := h (.read (addr + 0)) (by simpa using hn)
      have hlast := h (.read (addr + (n - 1))) (by simpa using hn)
      simp only [Access.Within] at hfirst hlast
      omega
  · intro h e he
    obtain ⟨i, hi', rfl⟩ := List.mem_map.mp he
    have hlt := List.mem_range.mp hi'
    simp only [Access.Within]
    omega

theorem safe_assert (b : Bool) : (assert b).Safe lo hi mem := by
  cases b <;> simp [assert]

/-- A sequence is safe exactly when its first part is and, if that returns, its second part is. -/
theorem safe_bind_iff {x : Parser α} {f : α → Parser β} :
    (x >>= f).Safe lo hi mem ↔
      x.Safe lo hi mem ∧ ∀ a, x.value mem = .ok a → (f a).Safe lo hi mem := by
  simp only [Safe, mem_log_bind]
  constructor
  · intro h
    exact ⟨fun e he => h e (Or.inl he), fun a ha e he => h e (Or.inr ⟨a, ha, he⟩)⟩
  · rintro ⟨hx, hf⟩ e (he | ⟨a, ha, he⟩)
    · exact hx e he
    · exact hf a ha e he

/-- Every byte the parser reads is in `[lo, hi)`, wherever its cursor goes. -/
def ReadsInside (lo hi : Nat) (x : Parser α) (mem : Memory) : Prop :=
  ∀ addr, .read addr ∈ x.log mem → lo ≤ addr ∧ addr < hi

theorem Safe.readsInside {x : Parser α} (h : x.Safe lo hi mem) : x.ReadsInside lo hi mem :=
  fun addr haddr => h (.read addr) haddr

theorem readsInside_bind_iff {x : Parser α} {f : α → Parser β} :
    (x >>= f).ReadsInside lo hi mem ↔
      x.ReadsInside lo hi mem ∧ ∀ a, x.value mem = .ok a → (f a).ReadsInside lo hi mem := by
  simp only [ReadsInside, mem_log_bind]
  constructor
  · intro h
    exact ⟨fun addr haddr => h addr (Or.inl haddr), fun a ha addr haddr => h addr (Or.inr ⟨a, ha, haddr⟩)⟩
  · rintro ⟨hx, hf⟩ addr (haddr | ⟨a, ha, haddr⟩)
    · exact hx addr haddr
    · exact hf a ha addr haddr

theorem readsInside_readBytes (addr n : Nat) :
    (readBytes addr n).ReadsInside lo hi mem ↔ n = 0 ∨ lo ≤ addr ∧ addr + n ≤ hi := by
  have hsafe : (readBytes addr n).Safe lo hi mem ↔ n = 0 ∨ lo ≤ addr ∧ addr + n ≤ hi :=
    safe_readBytes addr n
  rw [← hsafe]
  constructor
  · rintro h e he
    obtain ⟨i, -, rfl⟩ := List.mem_map.mp he
    exact h _ he
  · exact Safe.readsInside

/-- No assertion fails. -/
def NoAbort (x : Parser α) (mem : Memory) : Prop := x.value mem ≠ .error .abort

theorem noAbort_pure (a : α) : (pure a : Parser α).NoAbort mem := nofun

theorem noAbort_reject : (reject : Parser α).NoAbort mem := nofun

theorem noAbort_readBytes (addr n : Nat) : (readBytes addr n).NoAbort mem := nofun

theorem noAbort_readByte (addr : Nat) : (readByte addr).NoAbort mem := nofun

theorem noAbort_moveTo (c : Cursor) : (moveTo c).NoAbort mem := nofun

theorem NoAbort.bind {x : Parser α} {f : α → Parser β} (hx : x.NoAbort mem)
    (hf : ∀ a, x.value mem = .ok a → (f a).NoAbort mem) : (x >>= f).NoAbort mem := by
  unfold NoAbort
  rw [value_bind]
  cases hvalue : x.value mem with
  | ok a => exact hf a hvalue
  | error e =>
    rintro ⟨⟩
    exact hx hvalue

/-! ## 4. Reading back a byte string -/

/-- Wherever the bytes `bs` are stored, with less than `limit` bytes left, `p` returns `a` and has
consumed exactly `bs`. -/
def Reads (limit : Nat) (p : Cursor → Parser (α × Cursor)) (bs : List UInt8) (a : α) : Prop :=
  ∀ (mem : Memory) (c : Cursor), Holds mem c.pos bs → bs.length ≤ c.len → c.len < limit →
    (p c).value mem = .ok (a, c.skip bs.length)

variable {limit : Nat}

theorem Reads.mono {limit' : Nat} {p : Cursor → Parser (α × Cursor)} {bs : List UInt8} {a : α}
    (h : Reads limit p bs a) (hle : limit' ≤ limit) : Reads limit' p bs a :=
  fun mem c hmem hlen hc => h mem c hmem hlen (by omega)

theorem Reads.pure (a : α) : Reads limit (fun c => Pure.pure (a, c)) [] a := by
  intro mem c _ _ _
  simp [Cursor.skip]

-- A reader followed by a reader reads the two byte strings one after the other.
theorem Reads.bind {p : Cursor → Parser (α × Cursor)} {k : α × Cursor → Parser (β × Cursor)}
    {as bs : List UInt8} {a : α} {b : β} (hp : Reads limit p as a)
    (hk : Reads limit (fun c => k (a, c)) bs b) :
    Reads limit (fun c => p c >>= k) (as ++ bs) b := by
  intro mem c hmem hlen hc
  obtain ⟨has, hbs⟩ := (holds_append _ _ _ _).mp hmem
  rw [List.length_append] at hlen ⊢
  rw [value_bind_of_ok (hp mem c has (by omega) hc),
    hk mem (c.skip as.length) hbs (by rw [Cursor.skip_len]; omega)
      (by rw [Cursor.skip_len]; omega), Cursor.skip_skip]

-- Post-processing the value does not change what is read.
theorem Reads.map {p : Cursor → Parser (α × Cursor)} {as : List UInt8} {a : α} (f : α → β)
    (hp : Reads limit p as a) :
    Reads limit (fun c => p c >>= fun r => Pure.pure (f r.1, r.2)) as (f a) := by
  have h := hp.bind (k := fun r => Pure.pure (f r.1, r.2)) (Reads.pure (f a))
  rwa [List.append_nil] at h

/-! ## 5. Readers that return places in the input -/

/-- As `Reads`, for bytes that stand at the address `start`: the result may name addresses. -/
def ReadsAt (limit start : Nat) (p : Cursor → Parser (α × Cursor)) (bs : List UInt8)
    (a : α) : Prop :=
  ∀ (mem : Memory) (c : Cursor), c.pos = start → Holds mem c.pos bs → bs.length ≤ c.len →
    c.len < limit → (p c).value mem = .ok (a, c.skip bs.length)

variable {start : Nat}

theorem Reads.readsAt {p : Cursor → Parser (α × Cursor)} {bs : List UInt8} {a : α}
    (h : Reads limit p bs a) : ReadsAt limit start p bs a := fun mem c _ => h mem c

theorem ReadsAt.pure (a : α) : ReadsAt limit start (fun c => Pure.pure (a, c)) [] a :=
  (Reads.pure a).readsAt

theorem ReadsAt.bind {p : Cursor → Parser (α × Cursor)} {k : α × Cursor → Parser (β × Cursor)}
    {as bs : List UInt8} {a : α} {b : β} (hp : ReadsAt limit start p as a)
    (hk : ReadsAt limit (start + as.length) (fun c => k (a, c)) bs b) :
    ReadsAt limit start (fun c => p c >>= k) (as ++ bs) b := by
  intro mem c hpos hmem hlen hc
  obtain ⟨has, hbs⟩ := (holds_append _ _ _ _).mp hmem
  rw [List.length_append] at hlen ⊢
  rw [value_bind_of_ok (hp mem c hpos has (by omega) hc),
    hk mem (c.skip as.length) (by rw [Cursor.skip_pos, hpos]) hbs (by rw [Cursor.skip_len]; omega)
      (by rw [Cursor.skip_len]; omega), Cursor.skip_skip]

/-! ## 6. Results that depend on the input only -/

/-- The result is determined by the bytes in `[lo, hi)`, whatever lies outside. -/
def Local (lo hi : Nat) (x : Parser α) : Prop :=
  ∀ mem mem' : Memory, (∀ i, lo ≤ i → i < hi → mem i = mem' i) → x.value mem = x.value mem'

theorem local_pure (a : α) : Local lo hi (pure a : Parser α) := fun _ _ _ => rfl

theorem local_reject : Local lo hi (reject : Parser α) := fun _ _ _ => rfl

theorem local_moveTo (c : Cursor) : Local lo hi (moveTo c) := fun _ _ _ => rfl

theorem local_readBytes {addr n : Nat} (hlo : lo ≤ addr) (hhi : addr + n ≤ hi) :
    Local lo hi (readBytes addr n) := by
  intro mem mem' hsame
  rw [value_readBytes, value_readBytes]
  congr 1
  apply List.map_congr_left
  intro i hi'
  have hlt := List.mem_range.mp hi'
  exact hsame _ (by omega) (by omega)

theorem local_readByte {addr : Nat} (hlo : lo ≤ addr) (hhi : addr < hi) :
    Local lo hi (readByte addr) := by
  intro mem mem' hsame
  rw [value_readByte, value_readByte, hsame addr hlo hhi]

theorem Local.mono {lo' hi' : Nat} {x : Parser α} (h : Local lo hi x) (hlo : lo' ≤ lo)
    (hhi : hi ≤ hi') : Local lo' hi' x :=
  fun mem mem' hsame => h mem mem' fun i h₁ h₂ => hsame i (by omega) (by omega)

theorem Local.bind {x : Parser α} {f : α → Parser β} (hx : Local lo hi x)
    (hf : ∀ mem a, x.value mem = .ok a → Local lo hi (f a)) : Local lo hi (x >>= f) := by
  intro mem mem' hsame
  rw [value_bind, value_bind, ← hx mem mem' hsame]
  cases hvalue : x.value mem with
  | error e => rfl
  | ok a => exact hf mem a hvalue mem mem' hsame

end Parser

end Traced
