import Notbit.Lib.Traced

/-!
# Transfers — code that takes bytes out of blocks of memory

A handler works on several blocks and copies bytes from one to the other, or gives them to a library.
Each transfer is recorded with the block the bytes are meant to be in and with the room there is for
them.  A handler is clean when no assertion fails in it and all its transfers fit.
-/

open Bytes Traced

namespace Transfers

/-- A block of memory: the bytes from `lo` on and before `hi`. -/
structure Block where
  lo : Nat
  hi : Nat

/-- `len` bytes at `pos` go to a place with room for `room` bytes. -/
structure Transfer where
  block : Block
  pos : Nat
  len : Nat
  room : Nat

/-- The bytes are in the block, and there is room for them. -/
def Transfer.Fits (t : Transfer) : Prop :=
  (t.len = 0 ∨ t.block.lo ≤ t.pos ∧ t.pos + t.len ≤ t.block.hi) ∧ t.len ≤ t.room

/-- The result of a handler, and what it has transferred. -/
def Handler (α : Type) : Type := Except Stop α × List Transfer

namespace Handler

variable {α β : Type}

def value (x : Handler α) : Except Stop α := x.1

def log (x : Handler α) : List Transfer := x.2

protected def pure (a : α) : Handler α := (.ok a, [])

protected def bind (x : Handler α) (f : α → Handler β) : Handler β :=
  match x with
  | (.ok a, l) => ((f a).1, l ++ (f a).2)
  | (.error e, l) => (.error e, l)

instance : Monad Handler where
  pure := Handler.pure
  bind := Handler.bind

def stop (e : Stop) : Handler α := (.error e, [])

/-- A computation that transfers nothing. -/
def lift (x : Except Stop α) : Handler α := (x, [])

/-- The bytes are copied to a place with room for `room` bytes. -/
def copy (block : Block) (mem : Memory) (pos len room : Nat) : Handler (List UInt8) :=
  (.ok (window mem pos len), [{ block, pos, len, room }])

/-- The bytes are given to somebody who has room for all of them. -/
def give (block : Block) (mem : Memory) (pos len : Nat) : Handler (List UInt8) :=
  copy block mem pos len len

/-- A library writes `len` bytes of its own to a place with room for `room` bytes. -/
def put (len room : Nat) : Handler Unit :=
  (.ok (), [{ block := { lo := 0, hi := len }, pos := 0, len, room }])

/-- All that a parser reads. -/
def readAll (block : Block) (mem : Memory) (x : Parser α) : Handler α :=
  (x.value mem, (x.log mem).filterMap fun
    | .read pos => some { block, pos, len := 1, room := 1 }
    | .move _ => none)

/-- A refusal is handed to the caller. -/
def attempt (x : Handler α) : Handler (Option α) :=
  (match x.1 with
    | .ok a => .ok (some a)
    | .error .reject => .ok none
    | .error .abort => .error .abort, x.2)

/-- No assertion fails, and everything that is transferred fits. -/
structure Clean (x : Handler α) : Prop where
  noAbort : x.value ≠ .error .abort
  fits : ∀ t ∈ x.log, t.Fits

variable {x : Handler α} {f : α → Handler β} {block : Block} {mem : Memory} {pos len : Nat}

theorem clean_pure (a : α) : Clean (pure a : Handler α) := ⟨nofun, nofun⟩

theorem clean_reject : Clean (stop .reject : Handler α) := ⟨nofun, nofun⟩

/-- A sequence is clean exactly when its first part is and, if that returns, its second part is. -/
theorem clean_bind_iff : Clean (x >>= f) ↔ Clean x ∧ ∀ a, x.value = .ok a → Clean (f a) := by
  obtain ⟨v, l⟩ := x
  cases v with
  | error e =>
    constructor
    · intro h
      refine ⟨⟨?_, h.fits⟩, nofun⟩
      rintro ⟨⟩
      exact h.noAbort rfl
    · rintro ⟨h, -⟩
      refine ⟨?_, h.fits⟩
      rintro ⟨⟩
      exact h.noAbort rfl
  | ok a =>
    constructor
    · intro h
      refine ⟨⟨nofun, fun t ht => h.fits t (List.mem_append_left _ ht)⟩, ?_⟩
      rintro _ ⟨⟩
      exact ⟨h.noAbort, fun t ht => h.fits t (List.mem_append_right _ ht)⟩
    · rintro ⟨hx, hf⟩
      have ha := hf a rfl
      refine ⟨ha.noAbort, fun t ht => ?_⟩
      rcases List.mem_append.mp ht with ht | ht
      · exact hx.fits t ht
      · exact ha.fits t ht

theorem clean_lift_iff {v : Except Stop α} : Clean (lift v) ↔ v ≠ .error .abort :=
  ⟨fun h => h.noAbort, fun h => ⟨h, nofun⟩⟩

theorem clean_copy_iff {room : Nat} : Clean (copy block mem pos len room) ↔
    (len = 0 ∨ block.lo ≤ pos ∧ pos + len ≤ block.hi) ∧ len ≤ room := by
  constructor
  · exact fun h => h.fits _ (List.mem_singleton.mpr rfl)
  · intro h
    refine ⟨nofun, fun t ht => ?_⟩
    obtain rfl := List.mem_singleton.mp ht
    exact h

theorem clean_give (hlo : block.lo ≤ pos) (hhi : pos + len ≤ block.hi) :
    Clean (give block mem pos len) :=
  clean_copy_iff.mpr ⟨Or.inr ⟨hlo, hhi⟩, le_refl len⟩

theorem clean_put_iff {room : Nat} : Clean (put len room) ↔ len ≤ room := by
  constructor
  · exact fun h => (h.fits _ (List.mem_singleton.mpr rfl)).2
  · intro h
    refine ⟨nofun, fun t ht => ?_⟩
    obtain rfl := List.mem_singleton.mp ht
    exact ⟨Or.inr ⟨le_refl 0, (Nat.zero_add len).le⟩, h⟩

theorem clean_readAll_iff {p : Parser α} : Clean (readAll block mem p) ↔
    p.value mem ≠ .error .abort ∧ p.ReadsInside block.lo block.hi mem := by
  constructor
  · intro h
    refine ⟨h.noAbort, fun addr haddr => ?_⟩
    have hfits := (h.fits { block, pos := addr, len := 1, room := 1 }
      (List.mem_filterMap.mpr ⟨_, haddr, rfl⟩)).1
    simp only at hfits
    omega
  · rintro ⟨hvalue, hreads⟩
    refine ⟨hvalue, fun t ht => ?_⟩
    obtain ⟨e, he, heq⟩ := List.mem_filterMap.mp ht
    cases e with
    | move c => cases heq
    | read addr =>
      cases heq
      have hin := hreads addr he
      exact ⟨Or.inr ⟨hin.1, hin.2⟩, le_refl 1⟩

theorem clean_attempt_iff : Clean (attempt x) ↔ Clean x := by
  obtain ⟨v, l⟩ := x
  constructor
  · intro h
    refine ⟨?_, h.fits⟩
    rintro ⟨⟩
    exact h.noAbort rfl
  · intro h
    refine ⟨?_, h.fits⟩
    cases v with
    | ok a => nofun
    | error e =>
      cases e with
      | reject => nofun
      | abort => exact absurd rfl h.noAbort

@[simp] theorem value_pure (a : α) : (pure a : Handler α).value = .ok a := rfl

@[simp] theorem value_stop (e : Stop) : (stop e : Handler α).value = .error e := rfl

@[simp] theorem value_lift (v : Except Stop α) : (lift v).value = v := rfl

@[simp] theorem value_copy (block : Block) (mem : Memory) (pos len room : Nat) :
    (copy block mem pos len room).value = .ok (window mem pos len) := rfl

@[simp] theorem value_give (block : Block) (mem : Memory) (pos len : Nat) :
    (give block mem pos len).value = .ok (window mem pos len) := rfl

@[simp] theorem value_put (len room : Nat) : (put len room).value = .ok () := rfl

@[simp] theorem value_readAll (block : Block) (mem : Memory) (p : Parser α) :
    (readAll block mem p).value = p.value mem := rfl

theorem value_attempt_of_ok {a : α} (h : x.value = .ok a) : (attempt x).value = .ok (some a) := by
  obtain ⟨v, l⟩ := x
  cases h
  rfl

theorem value_attempt_of_reject (h : x.value = .error .reject) : (attempt x).value = .ok none := by
  obtain ⟨v, l⟩ := x
  cases h
  rfl

theorem value_bind (x : Handler α) (f : α → Handler β) :
    (x >>= f).value = x.value >>= fun a => (f a).value := by
  obtain ⟨v, l⟩ := x
  cases v with
  | ok a => rfl
  | error e => rfl

theorem value_bind_of_ok {a : α} (h : x.value = .ok a) : (x >>= f).value = (f a).value := by
  rw [value_bind, h]
  rfl

end Handler

end Transfers
