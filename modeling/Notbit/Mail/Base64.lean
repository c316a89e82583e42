import Notbit.Lib.Streams
import Notbit.Lib.Traced

/-!
# Base64 — the encoder and the decoder (`ntb-base64.c`)

The decoder gets its input in chunks; `base64Byte` is what one byte does to it.
-/

open Streams Streams.Emits Traced

namespace Notbit.Mail

/-! ## 1. The encoder -/

/-- `to_alphabet_value` -/
def toAlphabetValue (value : Nat) : UInt8 :=
  UInt8.ofNat (
    if value < 26 then value + 65
    else if value < 52 then value - 26 + 97
    else if value < 62 then value - 52 + 48
    else if value = 62 then 43
    else 47)

/-- `ntb_base64_encode` -/
def base64Encode : List UInt8 → List UInt8
  | a :: b :: c :: data =>
    let value := a.toNat <<< 16 ||| b.toNat <<< 8 ||| c.toNat
    toAlphabetValue (value >>> 18) :: toAlphabetValue (value >>> 12 &&& 63) ::
      toAlphabetValue (value >>> 6 &&& 63) :: toAlphabetValue (value &&& 63) :: base64Encode data
  | [] => []
  | [a] =>
    let value := a.toNat <<< 16
    [toAlphabetValue (value >>> 18), toAlphabetValue (value >>> 12 &&& 63), 61, 61]
  | [a, b] =>
    let value := a.toNat <<< 16 ||| b.toNat <<< 8
    [toAlphabetValue (value >>> 18), toAlphabetValue (value >>> 12 &&& 63),
      toAlphabetValue (value >>> 6 &&& 63), 61]

theorem length_base64Encode (data : List UInt8) :
    (base64Encode data).length = (data.length + 2) / 3 * 4 := by
  fun_induction base64Encode data with
  | case1 a b c data value ih =>
    simp only [List.length_cons, ih]
    omega
  | case2 => rfl
  | case3 => simp
  | case4 => simp

/-! ## 2. The decoder -/

/-- `struct ntb_base64_data`; a fresh one is that of `ntb_base64_decode_start`. -/
structure Base64Data where
  nPadding : Nat := 0
  nChars : Nat := 0
  value : UInt32 := 0
  deriving DecidableEq, Repr

/-- `alphabet_value`; `none` is -1. -/
def alphabetValue (ch : UInt8) : Option UInt32 :=
  let n := ch.toNat
  if ch = 47 then some 63
  else if ch = 43 then some 62
  else if n ≤ 57 then if n < 48 then none else some (UInt32.ofNat (n - 48 + 26 * 2))
  else if n ≤ 90 then if n < 65 then none else some (UInt32.ofNat (n - 65))
  else if n ≤ 122 then if n < 97 then none else some (UInt32.ofNat (n - 97 + 26))
  else none

/-- `handle_padding` -/
def handlePadding (data : Base64Data) : List UInt8 → Emits Unit UInt8 Base64Data
  | [] => return data
  | ch :: input =>
    if ch = 61 then
      if data.nPadding + 1 > 2 then fail ()
      else handlePadding { data with nPadding := data.nPadding + 1 } input
    else if (alphabetValue ch).isSome then fail ()
    else handlePadding data input

/-- The loop of `ntb_base64_decode`. -/
def base64Loop (data : Base64Data) : List UInt8 → Emits Unit UInt8 Base64Data
  | [] => return data
  | ch :: input =>
    match alphabetValue ch with
    | some chValue =>
      let value := data.value <<< 6 ||| chValue
      if data.nChars + 1 ≥ 4 then do
        tell [(value >>> 16).toUInt8, (value >>> 8).toUInt8, value.toUInt8]
        base64Loop { data with value, nChars := 0 } input
      else base64Loop { data with value, nChars := data.nChars + 1 } input
    | none =>
      if ch = 61 then handlePadding data (ch :: input)
      else base64Loop data input

/-- `ntb_base64_decode`; what is written to `out_buffer` is reported. -/
def base64Decode (data : Base64Data) (input : List UInt8) : Emits Unit UInt8 Base64Data :=
  if data.nPadding > 0 then handlePadding data input else base64Loop data input

/-- `ntb_base64_decode_end` -/
def base64DecodeEnd (data : Base64Data) : Option (List UInt8) :=
  match data.nPadding with
  | 0 => if data.nChars ≠ 0 then none else some []
  | 1 =>
    if data.nChars ≠ 3 ∨ data.value &&& 3 ≠ 0 then none
    else some [(data.value >>> 10).toUInt8, (data.value >>> 2).toUInt8]
  | 2 =>
    if data.nChars ≠ 2 ∨ data.value &&& 15 ≠ 0 then none
    else some [(data.value >>> 4).toUInt8]
  | _ => none

/-- `NTB_BASE64_MAX_INPUT_FOR_SIZE` -/
def base64MaxInputForSize (inputSize : Nat) : Nat := inputSize * 4 / 3

/-- What a decoder has written to a block of `room` bytes; `abort` if it has written behind it. -/
def decodeInto {δ : Type} (room : Nat) (x : Emits Unit UInt8 δ) : Except Stop (δ × List UInt8) :=
  if room < x.log.length then .error .abort
  else
    match x.value with
    | .ok data => .ok (data, x.log)
    | .error _ => .error .reject

/-! ## 3. One byte at a time -/

/-- What one byte does to the decoder. -/
def base64Byte (data : Base64Data) (ch : UInt8) : Emits Unit UInt8 Base64Data :=
  match alphabetValue ch with
  | some chValue =>
    if data.nPadding > 0 then fail ()
    else
      let value := data.value <<< 6 ||| chValue
      if data.nChars + 1 ≥ 4 then do
        tell [(value >>> 16).toUInt8, (value >>> 8).toUInt8, value.toUInt8]
        return { data with value, nChars := 0 }
      else return { data with value, nChars := data.nChars + 1 }
  | none =>
    if ch = 61 then
      if data.nPadding + 1 > 2 then fail ()
      else return { data with nPadding := data.nPadding + 1 }
    else return data

variable {data : Base64Data} {input : List UInt8}

theorem alphabetValue_equals : alphabetValue 61 = none := by decide

-- Behind the first padding nothing is written.
theorem handlePadding_eq (h : data.nPadding > 0) :
    handlePadding data input = input.foldlM base64Byte data := by
  induction input generalizing data with
  | nil => rfl
  | cons ch input ih =>
    rw [handlePadding, List.foldlM_cons]
    by_cases hequals : ch = 61
    · simp only [base64Byte, hequals, alphabetValue_equals, if_true]
      split
      next => rfl
      next =>
        rw [pure_bind]
        exact ih (Nat.succ_pos _)
    · simp only [base64Byte, hequals, if_false]
      cases halpha : alphabetValue ch with
      | some chValue =>
        simp only [Option.isSome_some, if_true, h]
        rfl
      | none =>
        simp only [Option.isSome_none, Bool.false_eq_true, if_false, pure_bind]
        exact ih h

theorem base64Loop_eq (h : data.nPadding = 0) :
    base64Loop data input = input.foldlM base64Byte data := by
  induction input generalizing data with
  | nil => rfl
  | cons ch input ih =>
    rw [base64Loop, List.foldlM_cons]
    cases halpha : alphabetValue ch with
    | some chValue =>
      simp only [base64Byte, halpha, h, lt_irrefl, if_false]
      split
      next =>
        rw [bind_assoc]
        simp only [pure_bind]
        rw [ih rfl]
      next =>
        rw [pure_bind]
        exact ih rfl
    | none =>
      by_cases hequals : ch = 61
      · -- the first padding
        simp only [base64Byte, hequals, alphabetValue_equals, if_true, handlePadding, h,
          Nat.zero_add, Nat.not_ofNat_lt_one, gt_iff_lt, if_false, pure_bind]
        exact handlePadding_eq (Nat.succ_pos 0)
      · simp only [base64Byte, halpha, hequals, if_false, pure_bind]
        exact ih h

-- A chunk is decoded byte by byte.
theorem base64Decode_eq (data : Base64Data) (input : List UInt8) :
    base64Decode data input = input.foldlM base64Byte data := by
  unfold base64Decode
  split
  next h => exact handlePadding_eq h
  next h => exact base64Loop_eq (Nat.eq_zero_of_not_pos h)

end Notbit.Mail
