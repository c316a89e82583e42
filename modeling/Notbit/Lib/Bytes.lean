import Mathlib.Tactic
import Mathlib.Data.Nat.Size

/-!
# Bytes — big-endian numbers and windows of a byte memory

A parser of a network format sees a pointer into memory, not a list: it can read past the end of
the buffer it was given, and what lies there is arbitrary.  `Memory` is that view, `window` is the
finite byte string at an address, and `Holds` says that a byte string is stored there.  Numbers are
written most significant byte first by `toBE` and read back by `ofBE`.
-/

namespace Bytes

/-- Every address holds some byte, also the addresses past the end of a buffer. -/
abbrev Memory := Nat → UInt8

/-! ## 1. Big-endian numbers -/

/-- The number whose big-endian bytes are `bs`. -/
def ofBE (bs : List UInt8) : Nat :=
  bs.foldl (fun acc b => 256 * acc + b.toNat) 0

/-- The `w` low-order bytes of `n`, most significant first. -/
def toBE : Nat → Nat → List UInt8
  | 0, _ => []
  | w + 1, n => toBE w (n / 256) ++ [UInt8.ofNat n]

@[simp] theorem length_toBE (w n : Nat) : (toBE w n).length = w := by
  induction w generalizing n with
  | zero => rfl
  | succ w ih => simp [toBE, ih]

@[simp] theorem ofBE_nil : ofBE [] = 0 := rfl

theorem ofBE_concat (bs : List UInt8) (b : UInt8) :
    ofBE (bs ++ [b]) = 256 * ofBE bs + b.toNat := by
  simp [ofBE]

-- A `w`-byte number is below `256 ^ w`.
theorem ofBE_lt (bs : List UInt8) : ofBE bs < 256 ^ bs.length := by
  induction bs using List.reverseRecOn with
  | nil => simp
  | append_singleton bs b ih =>
    have hb := b.toNat_lt
    rw [ofBE_concat, List.length_append, List.length_singleton, pow_succ]
    omega

-- Reading back `w` bytes of `n` gives `n` truncated to `w` bytes.
theorem ofBE_toBE (w n : Nat) : ofBE (toBE w n) = n % 256 ^ w := by
  induction w generalizing n with
  | zero => simp [toBE, Nat.mod_one]
  | succ w ih =>
    have hlow : (UInt8.ofNat n).toNat = n % 256 := by simp
    rw [toBE, ofBE_concat, ih, hlow, pow_succ, Nat.mul_comm (256 ^ w), Nat.mod_mul]
    omega

theorem ofBE_toBE_of_lt {w n : Nat} (h : n < 256 ^ w) : ofBE (toBE w n) = n := by
  rw [ofBE_toBE, Nat.mod_eq_of_lt h]

-- A wide number splits into its high-order and its low-order bytes.
theorem toBE_add (a b n : Nat) : toBE (a + b) n = toBE a (n / 256 ^ b) ++ toBE b n := by
  induction b generalizing n with
  | zero => simp [toBE]
  | succ b ih =>
    rw [← Nat.add_assoc, toBE, ih, toBE, Nat.div_div_eq_div_mul, pow_succ, Nat.mul_comm 256,
      List.append_assoc]

/-- The number of bytes of a number without leading zeroes; none for zero. -/
def numBytes (n : Nat) : Nat := (n.size + 7) / 8

theorem lt_numBytes (n : Nat) : n < 256 ^ numBytes n := by
  have hsize : n < 2 ^ n.size := Nat.lt_size_self n
  have hle : n.size ≤ 8 * numBytes n := by
    unfold numBytes
    omega
  calc n < 2 ^ n.size := hsize
    _ ≤ 2 ^ (8 * numBytes n) := Nat.pow_le_pow_right (by omega) hle
    _ = 256 ^ numBytes n := by rw [pow_mul]; norm_num

theorem numBytes_le {n w : Nat} (h : n < 256 ^ w) : numBytes n ≤ w := by
  have hsize : n.size ≤ 8 * w := by
    rw [Nat.size_le, pow_mul]
    exact h
  unfold numBytes
  omega

theorem toBE_zero (w : Nat) : toBE w 0 = List.replicate w 0 := by
  induction w with
  | zero => rfl
  | succ w ih =>
    rw [toBE, Nat.zero_div, ih, List.replicate_succ']
    rfl

theorem toBE_ofBE (bs : List UInt8) : toBE bs.length (ofBE bs) = bs := by
  induction bs using List.reverseRecOn with
  | nil => rfl
  | append_singleton bs b ih =>
    have hb := b.toNat_lt
    have hlast : UInt8.ofNat (256 * ofBE bs + b.toNat) = b := by
      rw [← UInt8.toNat_inj, UInt8.toNat_ofNat']
      omega
    rw [List.length_append, List.length_singleton, toBE, ofBE_concat,
      show (256 * ofBE bs + b.toNat) / 256 = ofBE bs by omega, ih, hlast]

-- Only the bytes that are written matter.
theorem toBE_mod (w n : Nat) : toBE w (n % 256 ^ w) = toBE w n := by
  have h := toBE_ofBE (toBE w n)
  rwa [length_toBE, ofBE_toBE] at h

-- The bytes of a number with as many zeroes in front of them as are missing.
theorem replicate_toBE {w n : Nat} (h : n < 256 ^ w) :
    List.replicate (w - numBytes n) 0 ++ toBE (numBytes n) n = toBE w n := by
  have hle := numBytes_le h
  have hsplit := toBE_add (w - numBytes n) (numBytes n) n
  rw [Nat.sub_add_cancel hle, Nat.div_eq_of_lt (lt_numBytes n), toBE_zero] at hsplit
  exact hsplit.symm

/-! ## 2. Overwriting -/

/-- The byte string with `new` written over it from index `i` on. -/
def patch (bs : List UInt8) (i : Nat) (new : List UInt8) : List UInt8 :=
  bs.take i ++ new ++ bs.drop (i + new.length)

-- Writing over a part of the same size replaces that part.
theorem patch_append {i : Nat} {as old new bs : List UInt8} (hi : as.length = i)
    (hlen : old.length = new.length) : patch (as ++ old ++ bs) i new = as ++ new ++ bs := by
  subst hi
  have hsize : (as ++ old).length = as.length + new.length := by
    rw [List.length_append, hlen]
  unfold patch
  rw [List.append_assoc as old bs, List.take_left' rfl, ← List.append_assoc as old bs,
    List.drop_left' hsize]

theorem take_patch {bs new : List UInt8} {i : Nat} (h : i ≤ bs.length) :
    (patch bs i new).take (i + new.length) = bs.take i ++ new := by
  refine List.take_left' ?_
  rw [List.length_append, List.length_take, Nat.min_eq_left h]

theorem length_patch {bs new : List UInt8} {i : Nat} (h : i + new.length ≤ bs.length) :
    (patch bs i new).length = bs.length := by
  simp only [patch, List.length_append, List.length_take, List.length_drop]
  omega

theorem patch_take {bs new : List UInt8} {i n : Nat} (h : i + new.length ≤ n) :
    (patch bs i new).take n = patch (bs.take n) i new := by
  unfold patch
  rw [List.take_take, Nat.min_eq_left (by omega), List.take_append, List.take_of_length_le]
  · rw [List.drop_take, List.length_append, List.length_take]
    by_cases hi : i ≤ bs.length
    · rw [Nat.min_eq_left hi]
    · rw [List.drop_eq_nil_of_le (by omega), List.take_nil, List.take_nil]
  · rw [List.length_append, List.length_take]
    omega

-- Behind what is written everything is as before.
theorem drop_patch {bs new : List UInt8} {i n : Nat} (h : i + new.length ≤ n)
    (hn : n ≤ bs.length) : (patch bs i new).drop n = bs.drop n := by
  have hlength : (bs.take i ++ new).length = i + new.length := by
    rw [List.length_append, List.length_take, Nat.min_eq_left (by omega)]
  unfold patch
  rw [List.drop_append, List.drop_eq_nil_of_le (by omega), List.nil_append, List.drop_drop,
    hlength]
  congr 1
  omega

/-! ## 3. Windows of memory -/

/-- The `n` bytes that start at address `p`. -/
def window (mem : Memory) (p n : Nat) : List UInt8 :=
  (List.range n).map fun i => mem (p + i)

@[simp] theorem length_window (mem : Memory) (p n : Nat) : (window mem p n).length = n := by
  simp [window]

theorem window_succ (mem : Memory) (p n : Nat) :
    window mem p (n + 1) = mem p :: window mem (p + 1) n := by
  simp only [window, List.range_succ_eq_map, List.map_cons, List.map_map, Nat.add_zero]
  congr 2
  funext i
  simp only [Function.comp]
  congr 1
  omega

theorem window_add (mem : Memory) (p m n : Nat) :
    window mem p (m + n) = window mem p m ++ window mem (p + m) n := by
  simp [window, List.range_add, Nat.add_assoc]

theorem take_window {mem : Memory} (pos : Nat) {m n : Nat} (hle : m ≤ n) :
    (window mem pos n).take m = window mem pos m := by
  obtain ⟨k, rfl⟩ := Nat.exists_eq_add_of_le hle
  rw [window_add, List.take_left' (length_window _ _ _)]

theorem getElem_window (mem : Memory) (p n i : Nat) (h : i < (window mem p n).length) :
    (window mem p n)[i] = mem (p + i) := by
  simp [window]

/-- The byte string `bs` is stored at address `p`. -/
def Holds (mem : Memory) (p : Nat) (bs : List UInt8) : Prop :=
  window mem p bs.length = bs

instance (mem : Memory) (p : Nat) (bs : List UInt8) : Decidable (Holds mem p bs) :=
  inferInstanceAs (Decidable (_ = _))

-- Two consecutive byte strings are stored exactly when each is stored at its place.
theorem holds_append (mem : Memory) (p : Nat) (as bs : List UInt8) :
    Holds mem p (as ++ bs) ↔ Holds mem p as ∧ Holds mem (p + as.length) bs := by
  unfold Holds
  rw [List.length_append, window_add]
  constructor
  · intro h
    exact List.append_inj h (by simp)
  · rintro ⟨ha, hb⟩
    rw [ha, hb]

theorem holds_cons (mem : Memory) (p : Nat) (b : UInt8) (bs : List UInt8) :
    Holds mem p (b :: bs) ↔ mem p = b ∧ Holds mem (p + 1) bs := by
  unfold Holds
  rw [List.length_cons, window_succ, List.cons.injEq]

theorem Holds.window_eq {mem : Memory} {p n : Nat} {bs : List UInt8}
    (h : Holds mem p bs) (hn : bs.length = n) : window mem p n = bs := by
  rw [← hn]
  exact h

/-- The memory that stores `bs` at address 0 and is `behind` after it. -/
def overlay (bs : List UInt8) (behind : Memory) : Memory := fun i => bs.getD i (behind i)

theorem holds_overlay (bs : List UInt8) (behind : Memory) : Holds (overlay bs behind) 0 bs := by
  unfold Holds
  apply List.ext_getElem
  · simp
  · intro i h₁ h₂
    rw [getElem_window]
    simp [overlay, List.getElem?_eq_getElem h₂]

/-- The memory that stores `bs` at address 0 and zeroes after it. -/
def ofList (bs : List UInt8) : Memory := overlay bs fun _ => 0

theorem holds_ofList (bs : List UInt8) : Holds (ofList bs) 0 bs := holds_overlay bs _

end Bytes
