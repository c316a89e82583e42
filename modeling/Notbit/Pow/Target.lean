import Notbit.Ecc.OpenSSL

/-!
# Target — the proof-of-work target and its check (`calculate_target`, `ntb_pow_check`)

The target is 2^64 divided by a product of the object's length and two difficulty parameters, in
64-bit arithmetic that cannot hold 2^64.  `calculateTarget_eq` says that for every length up to 2^31
and every pair of parameters that a caller passes nothing wraps and the result is exactly the
quotient.
-/

open Bytes Notbit.Proto

namespace Notbit.Pow

/-- The divisor of `calculate_target`: both `int` parameters are converted to `uint64_t`. -/
def targetDivisor (length : Nat) (payloadExtraBytes averageTrialsPerByte : Int) : Nat :=
  ((length + toUInt64 payloadExtraBytes) % 2 ^ 64 * toUInt64 averageTrialsPerByte) % 2 ^ 64

/-- `calculate_target` -/
def calculateTarget (length : Nat) (payloadExtraBytes averageTrialsPerByte : Int) : Nat :=
  let two63 := 2 ^ 63
  let divisor := targetDivisor length payloadExtraBytes averageTrialsPerByte
  let target := two63 / divisor * 2 % 2 ^ 64
  -- the bit that is lost by halving 2^64 first
  if two63 % divisor * 2 % 2 ^ 64 ≥ divisor then (target + 1) % 2 ^ 64 else target

/-- The number that has to stay below the target: the first eight bytes of the double hash of the
nonce and the hash of the object behind it. -/
def powValue (ssl : OpenSSL) (nonceBytes hash : List UInt8) : Nat :=
  ofBE ((ssl.sha512 (ssl.sha512 (nonceBytes ++ hash))).take 8)

/-- `ntb_pow_check`: `none` when the assertion on the length fails. -/
def powCheck (ssl : OpenSSL) (payload : List UInt8)
    (payloadExtraBytes averageTrialsPerByte : Int) : Option Bool :=
  if payload.length < 8 then none
  else
    let value := powValue ssl (payload.take 8) (ssl.sha512 (payload.drop 8))
    some (value ≤ calculateTarget payload.length payloadExtraBytes averageTrialsPerByte)

/-- The two parameters the callers of `ntb_pow_calculate` pass: the minimum values, or those of
the recipient's key. -/
inductive Difficulty where
  | minimum
  | forKey (payloadLengthExtraBytes nonceTrialsPerByte : CInt)

/-- The difficulty of a key is raised to the network minimum (`create_msg_blob_cb`). -/
def Difficulty.extraBytes : Difficulty → Int
  | .minimum => minExtraBytes
  | .forKey extra _ => if extra.val < minExtraBytes then minExtraBytes else extra.val

def Difficulty.trialsPerByte : Difficulty → Int
  | .minimum => minNonceTrialsPerByte
  | .forKey _ trials =>
    if trials.val < minNonceTrialsPerByte then minNonceTrialsPerByte else trials.val

theorem Difficulty.extraBytes_bounds (d : Difficulty) :
    minExtraBytes ≤ d.extraBytes ∧ d.extraBytes < 2 ^ 31 := by
  cases d with
  | minimum => decide
  | forKey extra trials =>
    have h := extra.upper
    simp only [extraBytes, minExtraBytes]
    split_ifs <;> omega

theorem Difficulty.trialsPerByte_bounds (d : Difficulty) :
    minNonceTrialsPerByte ≤ d.trialsPerByte ∧ d.trialsPerByte < 2 ^ 31 := by
  cases d with
  | minimum => decide
  | forKey extra trials =>
    have h := trials.upper
    simp only [trialsPerByte, minNonceTrialsPerByte]
    split_ifs <;> omega

/-! ## 1. The arithmetic does not wrap -/

section Exact

variable {length : Nat} {extra trials : Int}

theorem toUInt64_of_nonneg {v : Int} (hv : 0 ≤ v) (hv' : v < 2 ^ 31) : toUInt64 v = v.toNat := by
  unfold toUInt64
  rw [Int.emod_eq_of_lt hv (by omega)]

-- An object of at most 2^31 bytes and two positive `int`s keep the divisor below 2^63.
theorem product_lt (hlen : length ≤ 2 ^ 31) (he' : extra < 2 ^ 31) (ht' : trials < 2 ^ 31) :
    (length + extra.toNat) * trials.toNat < 2 ^ 63 := by
  have hsum : length + extra.toNat ≤ 2 ^ 32 - 1 := by omega
  have htrials : trials.toNat ≤ 2 ^ 31 - 1 := by omega
  calc (length + extra.toNat) * trials.toNat
      ≤ (2 ^ 32 - 1) * (2 ^ 31 - 1) := Nat.mul_le_mul hsum htrials
    _ < 2 ^ 63 := by norm_num

theorem targetDivisor_eq (hlen : length ≤ 2 ^ 31) (he : 0 ≤ extra) (he' : extra < 2 ^ 31)
    (ht : 0 ≤ trials) (ht' : trials < 2 ^ 31) :
    targetDivisor length extra trials = (length + extra.toNat) * trials.toNat := by
  have hprod := product_lt hlen he' ht'
  have hsum : (length + extra.toNat) % 2 ^ 64 = length + extra.toNat :=
    Nat.mod_eq_of_lt (by omega)
  unfold targetDivisor
  rw [toUInt64_of_nonneg he he', toUInt64_of_nonneg ht ht', hsum, Nat.mod_eq_of_lt (by omega)]

-- Halving, dividing and doubling again, with the lost bit put back, divides 2^64.
theorem double_div {d : Nat} (hd : 0 < d) (a : Nat) :
    2 * a / d = a / d * 2 + if a % d * 2 ≥ d then 1 else 0 := by
  have hsplit : 2 * a = a % d * 2 + d * (a / d * 2) := by
    have h := Nat.div_add_mod a d
    have hcomm : d * (a / d * 2) = 2 * (d * (a / d)) := by ring
    omega
  have hmod : a % d < d := Nat.mod_lt a hd
  rw [hsplit, Nat.add_mul_div_left _ _ hd, Nat.add_comm]
  congr 1
  split_ifs with h
  · rw [Nat.div_eq_of_lt_le] <;> omega
  · exact Nat.div_eq_of_lt (by omega)

-- With a divisor between 2 and 2^63 the target is 2^64 divided by it.
theorem calculateTarget_of_divisor {d : Nat} (h : targetDivisor length extra trials = d)
    (hd : 2 ≤ d) (hd' : d < 2 ^ 63) : calculateTarget length extra trials = 2 ^ 64 / d := by
  have hmod : 2 ^ 63 % d < d := Nat.mod_lt _ (by omega)
  have hquot : 2 ^ 63 / d ≤ 2 ^ 63 / 2 := Nat.div_le_div_left hd (by omega)
  have hdouble := double_div (d := d) (by omega) (2 ^ 63)
  unfold calculateTarget
  simp only [h]
  rw [Nat.mod_eq_of_lt (a := 2 ^ 63 % d * 2) (by omega),
    Nat.mod_eq_of_lt (a := 2 ^ 63 / d * 2) (by omega), show 2 ^ 64 = 2 * 2 ^ 63 by norm_num, hdouble]
  split_ifs
  · exact Nat.mod_eq_of_lt (by omega)
  · rfl

theorem calculateTarget_eq (hlen : length ≤ 2 ^ 31) (he : minExtraBytes ≤ extra)
    (he' : extra < 2 ^ 31) (ht : minNonceTrialsPerByte ≤ trials) (ht' : trials < 2 ^ 31) :
    calculateTarget length extra trials = 2 ^ 64 / ((length + extra.toNat) * trials.toNat) := by
  unfold minExtraBytes minNonceTrialsPerByte at *
  have hpos : 1 * 2 ≤ (length + extra.toNat) * trials.toNat :=
    Nat.mul_le_mul (by omega) (by omega)
  exact calculateTarget_of_divisor (targetDivisor_eq hlen (by omega) he' (by omega) ht') hpos
    (product_lt hlen he' ht')

-- A higher difficulty gives a lower target.
theorem calculateTarget_antitone {extra' trials' : Int} (hlen : length ≤ 2 ^ 31)
    (he : minExtraBytes ≤ extra) (hee : extra ≤ extra') (he' : extra' < 2 ^ 31)
    (ht : minNonceTrialsPerByte ≤ trials) (htt : trials ≤ trials') (ht' : trials' < 2 ^ 31) :
    calculateTarget length extra' trials' ≤ calculateTarget length extra trials := by
  rw [calculateTarget_eq hlen he (by omega) ht (by omega),
    calculateTarget_eq hlen (by omega) he' (by omega) ht']
  unfold minExtraBytes minNonceTrialsPerByte at *
  apply Nat.div_le_div_left
  · exact Nat.mul_le_mul (by omega) (by omega)
  · exact Nat.mul_pos (by omega) (by omega)

end Exact

end Notbit.Pow
