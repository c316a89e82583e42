import Notbit.Proto.Fields

/-!
# Buffer — byte strings that grow (`ntb-buffer.c`)

The block behind a buffer is moved when it is too small, and what lies behind the bytes in use is
whatever the memory held.  `Appends` says of a writer that it leaves the bytes in use alone and puts
its own behind them.
-/

open Bytes

namespace Notbit

/-- The loop of `ntb_buffer_ensure_size` for sizes far from the end of `size_t`; a bound of the number
of rounds is the size itself. -/
def doubledSize (size : Nat) : Nat → Nat → Nat
  | 0, newSize => newSize
  | rounds + 1, newSize => if newSize < size then doubledSize size rounds (newSize * 2) else newSize

theorem le_doubledSize {size rounds newSize : Nat} (h : size ≤ newSize * 2 ^ rounds) :
    size ≤ doubledSize size rounds newSize := by
  induction rounds generalizing newSize with
  | zero => rwa [Nat.pow_zero, Nat.mul_one] at h
  | succ rounds ih =>
    rw [doubledSize]
    split
    · exact ih (by rwa [Nat.mul_assoc, ← Nat.pow_succ'])
    · omega

/-- `struct ntb_buffer`: a block of `size` bytes, the first `length` of which are in use. -/
structure ByteBuffer where
  data : List UInt8
  length : Nat
  length_le : length ≤ data.length
  size_lt : data.length < 2 ^ 64

namespace ByteBuffer

/-- `ntb_buffer_init` -/
def init : ByteBuffer := { data := [], length := 0, length_le := le_rfl, size_lt := by decide }

/-- The bytes in use. -/
def used (b : ByteBuffer) : List UInt8 := b.data.take b.length

/-- The loop of `ntb_buffer_ensure_size`, in `size_t`.  There is no result when it is still running
after the given number of rounds. -/
def doubled (size : Nat) : Nat → Nat → Option Nat
  | 0, _ => none
  | rounds + 1, newSize =>
    if newSize < size then doubled size rounds (newSize * 2 % 2 ^ 64) else some newSize

/-- `ntb_buffer_ensure_size`; `fill` is what the memory holds where the block is moved to.  After 64
rounds the size is zero and the loop does not end any more (`doubled_eq_none_iff`). -/
def ensureSize (fill : Memory) (b : ByteBuffer) (size : Nat) : Option ByteBuffer := do
  let newSize ← doubled size 65 (max b.data.length 1)
  if h : b.data.length ≤ newSize ∧ newSize < 2 ^ 64 then
    return { b with
      data := b.data ++ window fill b.data.length (newSize - b.data.length)
      length_le := by
        rw [List.length_append]
        exact Nat.le_add_right_of_le b.length_le
      size_lt := by
        rw [List.length_append, length_window]
        omega }
  else none

/-- Writing at `data + length` and counting the bytes as used; what does not fit into the block has
no result. -/
def write (b : ByteBuffer) (bytes : List UInt8) : Option ByteBuffer :=
  if h : b.length + bytes.length ≤ b.data.length then
    some
      { data := b.used ++ bytes ++ b.data.drop (b.length + bytes.length)
        length := b.length + bytes.length
        length_le := by
          simp only [used, List.length_append, List.length_take, List.length_drop]
          omega
        size_lt := by
          have hsize := b.size_lt
          simp only [used, List.length_append, List.length_take, List.length_drop]
          omega }
  else none

/-- `ntb_buffer_append` -/
def append (fill : Memory) (b : ByteBuffer) (bytes : List UInt8) : Option ByteBuffer := do
  let b ← b.ensureSize fill (b.length + bytes.length)
  b.write bytes

/-! ## 1. Growing -/

variable {b b' : ByteBuffer} {fill : Memory} {bytes : List UInt8}

theorem length_used (b : ByteBuffer) : b.used.length = b.length := by
  rw [used, List.length_take, Nat.min_eq_left b.length_le]

theorem doubled_eq_none_iff {size rounds n : Nat} (hn : n < 2 ^ 64) :
    doubled size rounds n = none ↔ ∀ i < rounds, n * 2 ^ i % 2 ^ 64 < size := by
  induction rounds generalizing n with
  | zero => simp [doubled]
  | succ rounds ih =>
    have hfirst : n * 2 ^ 0 % 2 ^ 64 = n := by rw [Nat.pow_zero, Nat.mul_one, Nat.mod_eq_of_lt hn]
    rw [doubled]
    split_ifs with hlt
    · have hnext : ∀ i, n * 2 % 2 ^ 64 * 2 ^ i % 2 ^ 64 = n * 2 ^ (i + 1) % 2 ^ 64 := by
        intro i
        rw [Nat.mod_mul_mod, Nat.mul_assoc, ← Nat.pow_succ']
      rw [ih (Nat.mod_lt _ (Nat.two_pow_pos 64))]
      simp only [hnext]
      constructor
      · intro h i hi
        cases i with
        | zero => rwa [hfirst]
        | succ i => exact h i (Nat.lt_of_succ_lt_succ hi)
      · exact fun h i hi => h (i + 1) (Nat.succ_lt_succ hi)
    · refine iff_of_false nofun fun h => hlt ?_
      have h0 := h 0 (Nat.succ_pos rounds)
      rwa [hfirst] at h0

/-- Up to half of the address space there is room. -/
theorem doubled_spec {size rounds n : Nat} (hsize : size ≤ 2 ^ 63) (hn : n < 2 ^ 64)
    (h : size ≤ n * 2 ^ rounds) :
    ∃ m, doubled size (rounds + 1) n = some m ∧ n ≤ m ∧ size ≤ m ∧ m < 2 ^ 64 := by
  induction rounds generalizing n with
  | zero =>
    rw [Nat.pow_zero, Nat.mul_one] at h
    exact ⟨n, by rw [doubled, if_neg (Nat.not_lt.mpr h)], le_rfl, h, hn⟩
  | succ rounds ih =>
    rw [doubled]
    split_ifs with hlt
    · have hsmall : n * 2 < 2 ^ 64 := by omega
      rw [Nat.mod_eq_of_lt hsmall]
      rw [Nat.pow_succ, Nat.mul_comm _ 2, ← Nat.mul_assoc] at h
      obtain ⟨m, hm, hle, hrest⟩ := ih hsmall h
      exact ⟨m, hm, by omega, hrest⟩
    · exact ⟨n, rfl, le_rfl, Nat.not_lt.mp hlt, hn⟩

theorem used_ensureSize (b : ByteBuffer) (fill : Memory) {size : Nat} (hsize : size ≤ 2 ^ 63) :
    ∃ b', b.ensureSize fill size = some b' ∧ b'.used = b.used ∧ b'.length = b.length ∧
      size ≤ b'.data.length := by
  have hmax : 1 ≤ max b.data.length 1 := le_max_right _ _
  have hlt : max b.data.length 1 < 2 ^ 64 := max_lt b.size_lt (by decide)
  have hroom : size ≤ max b.data.length 1 * 2 ^ 64 :=
    hsize.trans ((by decide : 2 ^ 63 ≤ 1 * 2 ^ 64).trans (Nat.mul_le_mul_right _ hmax))
  obtain ⟨m, hm, hle, hsm, hmlt⟩ := doubled_spec hsize hlt hroom
  have hgrown : b.data.length ≤ m ∧ m < 2 ^ 64 := ⟨(le_max_left _ _).trans hle, hmlt⟩
  simp only [ensureSize, hm, Option.bind_eq_bind, Option.bind_some, dif_pos hgrown]
  refine ⟨_, rfl, ?_, rfl, ?_⟩
  · exact List.take_append_of_le_length b.length_le
  · rw [List.length_append, length_window]
    omega

-- A size that no doubling reaches is never made available.
theorem ensureSize_eq_none {size : Nat} (fill : Memory)
    (h : ∀ i < 65, (max b.data.length 1) * 2 ^ i % 2 ^ 64 < size) :
    b.ensureSize fill size = none := by
  have hnone : doubled size 65 (max b.data.length 1) = none := by
    exact (doubled_eq_none_iff (max_lt b.size_lt (by decide))).mpr h
  simp only [ensureSize, hnone, Option.bind_eq_bind, Option.bind_none]

theorem used_write (b : ByteBuffer) (bytes : List UInt8) (h : b.length + bytes.length ≤ b.data.length) :
    ∃ b', b.write bytes = some b' ∧ b'.used = b.used ++ bytes := by
  rw [write, dif_pos h]
  refine ⟨_, rfl, ?_⟩
  show (b.used ++ bytes ++ b.data.drop (b.length + bytes.length)).take
    (b.length + bytes.length) = _
  rw [List.take_left']
  rw [List.length_append, length_used]

/-! ## 2. Writers -/

/-- What a writer does to a buffer with at most `limit` bytes in use: it appends `bytes`. -/
def Appends (limit : Nat) (f : ByteBuffer → Option ByteBuffer) (bytes : List UInt8) : Prop :=
  ∀ b : ByteBuffer, b.length ≤ limit → ∃ b', f b = some b' ∧ b'.used = b.used ++ bytes

theorem Appends.length {limit : Nat} {f : ByteBuffer → Option ByteBuffer}
    (h : Appends limit f bytes) (hb : b.length ≤ limit) (hf : f b = some b') :
    b'.length = b.length + bytes.length := by
  obtain ⟨b₁, hb₁, hused⟩ := h b hb
  rw [hf, Option.some.injEq] at hb₁
  subst hb₁
  rw [← length_used, hused, List.length_append, length_used]

theorem Appends.bind {limit limit' : Nat} {f g : ByteBuffer → Option ByteBuffer}
    {cs : List UInt8} (hf : Appends limit f bytes) (hg : Appends limit' g cs)
    (hle : limit + bytes.length ≤ limit') :
    Appends limit (fun b => f b >>= g) (bytes ++ cs) := by
  intro b hb
  obtain ⟨b₁, hb₁, hused₁⟩ := hf b hb
  have hlen := hf.length hb hb₁
  obtain ⟨b₂, hb₂, hused₂⟩ := hg b₁ (by omega)
  refine ⟨b₂, ?_, ?_⟩
  · simp only [hb₁, Option.bind_eq_bind, Option.bind_some, hb₂]
  · rw [hused₂, hused₁, List.append_assoc]

/-- Room is made for at least the bytes that are written then. -/
theorem appends_write (fill : Memory) {limit : Nat} {size : ByteBuffer → Nat}
    (hroom : ∀ b : ByteBuffer, b.length ≤ limit →
      b.length + bytes.length ≤ size b ∧ size b ≤ 2 ^ 63) :
    Appends limit (fun b => b.ensureSize fill (size b) >>= (·.write bytes)) bytes := by
  intro b hb
  obtain ⟨hle, hsize⟩ := hroom b hb
  obtain ⟨b₁, hb₁, hused₁, hlen₁, hblock⟩ := used_ensureSize b fill hsize
  obtain ⟨b₂, hb₂, hused₂⟩ := used_write b₁ bytes (by omega)
  refine ⟨b₂, ?_, ?_⟩
  · simp only [hb₁, Option.bind_eq_bind, Option.bind_some, hb₂]
  · rw [hused₂, hused₁]

theorem appends_append (fill : Memory) {limit : Nat} (hlimit : limit + bytes.length ≤ 2 ^ 63) :
    Appends limit (fun b => b.append fill bytes) bytes :=
  appends_write fill fun b hb => ⟨le_rfl, by omega⟩

end ByteBuffer

end Notbit
