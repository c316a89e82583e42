import Notbit.Lib.Bytes
import Notbit.Lib.Digits
import Notbit.Proto.Frames

/-!
# Base58 — byte strings as numerals (`ntb-base58.c`)

The bytes are read as one number, so that zero bytes in front of them are lost; the callers of the
decoder know how many bytes there were.
-/

open Bytes Digits Notbit.Proto

namespace Notbit.Base58

def alphabet : List UInt8 := ascii "123456789ABCDEFGHJKLMNPQRSTUVWXYZabcdefghijkmnopqrstuvwxyz"

/-- The character of a digit; the array ends with a null character. -/
def digitChar (d : Nat) : UInt8 := alphabet.getD d 0

/-- `ntb_base58_encode` -/
def encode (input : List UInt8) : List UInt8 := (numeral 58 (ofBE input)).map digitChar

/-- The loop of `get_digit_value`, which halves the range at each round. -/
def searchDigit (digit : UInt8) : Nat → Nat → Nat → Nat
  | 0, min, _ => min
  | fuel + 1, min, max =>
    if max > min then
      let mid := (min + max) / 2
      if (digitChar mid).toNat < digit.toNat then searchDigit digit fuel (mid + 1) max
      else searchDigit digit fuel min mid
    else min

/-- `get_digit_value` -/
def getDigitValue (digit : UInt8) : Option Nat :=
  let min := searchDigit digit alphabet.length 0 alphabet.length
  if digitChar min = digit then some min else none

/-- The loop of `ntb_base58_decode`. -/
def readDigits (input : List UInt8) : Option Nat :=
  input.foldlM (fun val digit => (getDigitValue digit).map (push 58 val)) 0

/-- `ntb_base58_decode`: the bytes that are written to the output. -/
def decode (input : List UInt8) (outputLength : Nat) : Option (List UInt8) := do
  let val ← readDigits input
  if numBytes val > outputLength then none
  else if numBytes val = 0 ∧ input = [digitChar 0] then some [0]
  else some (toBE (numBytes val) val)

/-! ## 1. Digits -/

theorem getDigitValue_digitChar {d : Nat} (hd : d < 58) : getDigitValue (digitChar d) = some d := by
  have hall : ∀ d < 58, getDigitValue (digitChar d) = some d := by
    decide +kernel
  exact hall d hd

theorem readDigits_encode (input : List UInt8) : readDigits (encode input) = some (ofBE input) := by
  have hloop : ∀ (l : List Nat) (val : Nat), (∀ d ∈ l, d < 58) →
      (l.map digitChar).foldlM (fun val digit => (getDigitValue digit).map (push 58 val)) val =
        some (l.foldl (push 58) val) := by
    intro l
    induction l with
    | nil => exact fun _ _ => rfl
    | cons d l ih =>
      intro val hl
      have hd : d < 58 := hl d List.mem_cons_self
      rw [List.map_cons, List.foldlM_cons, getDigitValue_digitChar hd]
      exact ih (push 58 val d) fun e he => hl e (List.mem_cons_of_mem d he)
  rw [readDigits, encode, hloop _ _ fun d hd => lt_of_mem_numeral (by omega) hd]
  exact congrArg some (value_numeral 58 (ofBE input))

theorem mem_alphabet_of_mem_encode {input : List UInt8} {ch : UInt8} (h : ch ∈ encode input) :
    ch ∈ alphabet := by
  obtain ⟨d, hd, rfl⟩ := List.mem_map.mp h
  have hall : ∀ d < 58, digitChar d ∈ alphabet := by
    decide +kernel
  exact hall d (lt_of_mem_numeral (by omega) hd)

/-! ## 2. Bytes -/

/-- What comes back is the input without the zero bytes in front of it, which can be restored. -/
theorem decode_encode {input : List UInt8} {n : Nat} (hpos : input ≠ []) (hn : input.length ≤ n) :
    ∃ bytes, decode (encode input) n = some bytes ∧ bytes.length ≤ input.length ∧
      List.replicate (input.length - bytes.length) 0 ++ bytes = input := by
  have hlt := ofBE_lt input
  have hle := numBytes_le hlt
  have hpad := replicate_toBE hlt
  rw [toBE_ofBE] at hpad
  have hlen : 0 < input.length := List.length_pos_iff.mpr hpos
  unfold decode
  rw [readDigits_encode]
  dsimp only [Option.bind_eq_bind, Option.bind_some]
  rw [if_neg (by omega)]
  split
  · rename_i hzero
    refine ⟨[0], rfl, hlen, ?_⟩
    rw [hzero.1, Nat.sub_zero] at hpad
    rw [← hpad, List.length_append, List.length_replicate]
    simp only [toBE, List.length_nil, List.length_singleton, List.append_nil, Nat.add_zero]
    rw [← List.replicate_succ', Nat.sub_add_cancel hlen]
  · refine ⟨toBE (numBytes (ofBE input)) (ofBE input), rfl, ?_, ?_⟩
    · rw [length_toBE]
      exact hle
    · rw [length_toBE]
      exact hpad

-- Nothing is lost if the first byte is not zero.
theorem decode_encode_cons {b : UInt8} {bs : List UInt8} {n : Nat} (hb : b ≠ 0)
    (hn : bs.length + 1 ≤ n) : decode (encode (b :: bs)) n = some (b :: bs) := by
  obtain ⟨bytes, hdecode, hle, hpad⟩ := decode_encode (List.cons_ne_nil b bs) hn
  have hnone : (b :: bs).length - bytes.length = 0 := by
    by_contra hsome
    obtain ⟨k, hk⟩ := Nat.exists_eq_succ_of_ne_zero hsome
    rw [hk, List.replicate_succ, List.cons_append] at hpad
    exact hb (List.cons.inj hpad).1.symm
  rw [hnone] at hpad
  rw [hdecode, ← hpad]
  rfl

theorem length_encode_le {input : List UInt8} {k : Nat} (hk : 0 < k) (h : ofBE input < 58 ^ k) :
    (encode input).length ≤ k := by
  rw [encode, List.length_map]
  exact length_numeral_le (by omega) hk h

end Notbit.Base58
