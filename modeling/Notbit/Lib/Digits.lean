import Mathlib.Data.Nat.Digits.Defs
import Mathlib.Data.Nat.Digits.Lemmas
import Mathlib.Tactic

/-!
# Digits — numerals of natural numbers in a base

A numeral is written with its first digit in front and has at least one digit.  It is read by
multiplying what has been read so far with the base.
-/

namespace Digits

variable {b n k d : Nat}

/-- The digits of a number, as a loop that divides by the base finds them, in reverse. -/
def numeral (b n : Nat) : List Nat :=
  if n = 0 then [0] else (Nat.digits b n).reverse

/-- One digit more. -/
def push (b value d : Nat) : Nat := value * b + d

/-- The number that a list of digits stands for. -/
def value (b : Nat) (digits : List Nat) : Nat := digits.foldl (push b) 0

theorem value_reverse (b : Nat) (l : List Nat) : value b l.reverse = Nat.ofDigits b l := by
  induction l with
  | nil => rfl
  | cons d l ih =>
    rw [value, List.reverse_cons, List.foldl_append] at *
    rw [ih, Nat.ofDigits_cons, List.foldl_cons, List.foldl_nil, push]
    ring

-- What is written is read back.
theorem value_numeral (b n : Nat) : value b (numeral b n) = n := by
  unfold numeral
  split
  · rename_i hn
    rw [hn]
    simp [value, push]
  · rw [value_reverse, Nat.ofDigits_digits]

theorem value_cons_zero (b : Nat) (l : List Nat) : value b (0 :: l) = value b l := by
  rw [value, List.foldl_cons, push, Nat.zero_mul]
  rfl

theorem value_dropWhile (b : Nat) (l : List Nat) : value b (l.dropWhile (· = 0)) = value b l := by
  induction l with
  | nil => rfl
  | cons d l ih =>
    by_cases hd : d = 0
    · rw [List.dropWhile_cons_of_pos (by simpa using hd), ih, hd, value_cons_zero]
    · rw [List.dropWhile_cons_of_neg (by simpa using hd)]

/-- Only zeroes in front are not written again. -/
theorem numeral_value (hb : 1 < b) {l : List Nat} (hl : ∀ d ∈ l, d < b) :
    numeral b (value b l) =
      if l.dropWhile (· = 0) = [] then [0] else l.dropWhile (· = 0) := by
  rw [← value_dropWhile]
  have hdigits : ∀ d ∈ l.dropWhile (· = 0), d < b :=
    fun d hd => hl d ((List.dropWhile_suffix _).mem hd)
  have hfirst : ∀ d ∈ (l.dropWhile (· = 0)).head?, d ≠ 0 := by
    intro d hd
    have hnot := List.head?_dropWhile_not (fun d => decide (d = 0)) l
    rw [hd] at hnot
    simpa using hnot
  generalize l.dropWhile (· = 0) = l at hdigits hfirst ⊢
  cases l with
  | nil => rfl
  | cons d l =>
    have hreverse : Nat.digits b (Nat.ofDigits b (d :: l).reverse) = (d :: l).reverse := by
      apply Nat.digits_ofDigits b hb
      · exact fun e he => hdigits e (List.mem_reverse.mp he)
      · intro _
        rw [List.getLast_reverse]
        exact hfirst d rfl
    have hvalue : value b (d :: l) = Nat.ofDigits b (d :: l).reverse := by
      rw [← value_reverse, List.reverse_reverse]
    have hne : value b (d :: l) ≠ 0 := by
      intro hzero
      rw [← hvalue, hzero, Nat.digits_zero] at hreverse
      exact List.cons_ne_nil d l (List.reverse_eq_nil_iff.mp hreverse.symm)
    rw [numeral, if_neg hne, hvalue, hreverse, List.reverse_reverse, if_neg (List.cons_ne_nil d l)]

theorem lt_of_mem_numeral (hb : 1 < b) (hd : d ∈ numeral b n) : d < b := by
  unfold numeral at hd
  split at hd
  · rw [List.mem_singleton.mp hd]
    omega
  · exact Nat.digits_lt_base hb (List.mem_reverse.mp hd)

theorem numeral_ne_nil (b n : Nat) : numeral b n ≠ [] := by
  unfold numeral
  split
  · exact List.cons_ne_nil 0 []
  · rename_i hn
    rw [ne_eq, List.reverse_eq_nil_iff, Nat.digits_eq_nil_iff_eq_zero]
    exact hn

theorem length_numeral_le (hb : 1 < b) (hk : 0 < k) (hn : n < b ^ k) :
    (numeral b n).length ≤ k := by
  unfold numeral
  split
  · exact hk
  · rw [List.length_reverse, Nat.digits_length_le_iff hb]
    exact hn

end Digits
