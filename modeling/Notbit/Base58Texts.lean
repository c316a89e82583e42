import Notbit.Base58

/-!
# Base58Texts — numerals and the bytes they stand for (`ntb-base58.c`)

The digits come out of the divisions in reverse, and are swapped in place.  Neither the zero bytes
in front of a byte string nor the ones in front of a numeral are kept.
-/

open Bytes Digits Notbit.Proto

namespace Notbit.Base58

/-! ## 1. The loops of the encoder -/

/-- The loop of `ntb_base58_encode`. -/
def divideLoop (val : Nat) : List UInt8 :=
  if val = 0 then [] else digitChar (val % 58) :: divideLoop (val / 58)

/-- A round of the loop of `reverse_bytes`. -/
def swapBytes (data : List UInt8) (i j : Nat) : List UInt8 :=
  (data.set i (data.getD j 0)).set j (data.getD i 0)

/-- `reverse_bytes` -/
def reverseBytes (data : List UInt8) : List UInt8 :=
  (List.range (data.length / 2)).foldl (fun d i => swapBytes d i (data.length - 1 - i)) data

/-- `ntb_base58_encode` with its loops. -/
def encodeLoops (input : List UInt8) : List UInt8 :=
  let val := ofBE input
  reverseBytes (if val = 0 then [digitChar 0] else divideLoop val)

theorem divideLoop_eq (val : Nat) : divideLoop val = (Nat.digits 58 val).map digitChar := by
  induction val using Nat.strong_induction_on with
  | _ val ih =>
    rw [divideLoop]
    split
    next hzero =>
      rw [hzero, Nat.digits_zero]
      rfl
    next hne =>
      have hpos : 0 < val := Nat.pos_of_ne_zero hne
      rw [Nat.digits_def' (by decide) hpos, List.map_cons,
        ih _ (Nat.div_lt_self hpos (by decide))]

theorem getElem?_swapBytes {data : List UInt8} {i j : Nat} (hi : i < data.length)
    (hj : j < data.length) (k : Nat) :
    (swapBytes data i j)[k]? =
      if k = j then data[i]? else if k = i then data[j]? else data[k]? := by
  have hget : ∀ n < data.length, some (data.getD n 0) = data[n]? := by
    intro n hn
    rw [List.getD_eq_getElem?_getD, List.getElem?_eq_getElem hn]
    rfl
  unfold swapBytes
  by_cases hkj : k = j
  · subst hkj
    rw [if_pos rfl, List.getElem?_set_self (by rwa [List.length_set])]
    exact hget i hi
  · rw [if_neg hkj, List.getElem?_set_ne (Ne.symm hkj)]
    by_cases hki : k = i
    · subst hki
      rw [if_pos rfl, List.getElem?_set_self hi]
      exact hget j hj
    · rw [if_neg hki, List.getElem?_set_ne (Ne.symm hki)]

/-- After some rounds both ends are in their places. -/
theorem getElem?_reverseRounds (data : List UInt8) {n : Nat} (hn : n ≤ data.length / 2) :
    let rounds := (List.range n).foldl (fun d i => swapBytes d i (data.length - 1 - i)) data
    rounds.length = data.length ∧ ∀ k < data.length,
      rounds[k]? =
        if k < n ∨ data.length - n ≤ k then data[data.length - 1 - k]? else data[k]? := by
  induction n with
  | zero =>
    refine ⟨rfl, fun k hk => ?_⟩
    rw [if_neg (by omega)]
    rfl
  | succ n ih =>
    obtain ⟨hlength, hget⟩ := ih (by omega)
    dsimp only at hlength hget ⊢
    rw [List.range_succ, List.foldl_append, List.foldl_cons, List.foldl_nil]
    generalize (List.range n).foldl (fun d i => swapBytes d i (data.length - 1 - i)) data = rounds
      at hlength hget ⊢
    refine ⟨by rw [swapBytes, List.length_set, List.length_set, hlength], fun k hk => ?_⟩
    rw [getElem?_swapBytes (by omega) (by omega)]
    by_cases hlast : k = data.length - 1 - n
    · rw [if_pos hlast, if_pos (by omega), hget n (by omega), if_neg (by omega),
        show data.length - 1 - k = n by omega]
    · rw [if_neg hlast]
      by_cases hfirst : k = n
      · rw [if_pos hfirst, if_pos (by omega), hget _ (by omega), if_neg (by omega), hfirst]
      · rw [if_neg hfirst, hget k hk]
        exact if_congr (by omega) rfl rfl

theorem reverseBytes_eq (data : List UInt8) : reverseBytes data = data.reverse := by
  obtain ⟨hlength, hget⟩ := getElem?_reverseRounds data (le_refl _)
  apply List.ext_getElem?
  intro k
  by_cases hk : k < data.length
  · rw [List.getElem?_reverse hk]
    refine (hget k hk).trans ?_
    split
    · rfl
    · -- the byte in the middle
      rw [show data.length - 1 - k = k by omega]
  · have hrounds : (reverseBytes data).length = data.length := hlength
    have hreverse : data.reverse.length = data.length := List.length_reverse
    rw [List.getElem?_eq_none (by omega), List.getElem?_eq_none (by omega)]

theorem encodeLoops_eq (input : List UInt8) : encodeLoops input = encode input := by
  unfold encodeLoops encode numeral
  dsimp only
  rw [reverseBytes_eq, divideLoop_eq]
  split
  · rfl
  · rw [List.map_reverse]

/-! ## 2. The digits of a string -/

/-- The number that a string stands for. -/
def numeralValue (s : List UInt8) : Nat := value 58 (s.map alphabet.idxOf)

/-- The string without the ones in front that say nothing. -/
def withoutOnes (s : List UInt8) : List UInt8 :=
  if s.dropWhile (· = digitChar 0) = [] then [digitChar 0] else s.dropWhile (· = digitChar 0)

-- The search finds the characters of the alphabet.
theorem getDigitValue_eq (ch : UInt8) :
    getDigitValue ch = if ch ∈ alphabet then some (alphabet.idxOf ch) else none := by
  have hall : ∀ n < 256, getDigitValue (.ofNat n) =
      if (.ofNat n) ∈ alphabet then some (alphabet.idxOf (.ofNat n)) else none := by
    decide +kernel
  have hch := hall ch.toNat ch.toNat_lt
  rwa [UInt8.ofNat_toNat] at hch

theorem readDigits_of_mem {s : List UInt8} (h : ∀ ch ∈ s, ch ∈ alphabet) :
    readDigits s = some (numeralValue s) := by
  have hloop : ∀ val, s.foldlM (fun val digit => (getDigitValue digit).map (push 58 val)) val =
      some ((s.map alphabet.idxOf).foldl (push 58) val) := by
    induction s with
    | nil => exact fun _ => rfl
    | cons ch s ih =>
      rw [List.forall_mem_cons] at h
      intro val
      rw [List.foldlM_cons, getDigitValue_eq, if_pos h.1]
      exact ih h.2 _
  exact hloop 0

theorem readDigits_of_not_mem {s : List UInt8} {ch : UInt8} (hs : ch ∈ s) (h : ch ∉ alphabet) :
    readDigits s = none := by
  have hloop : ∀ val, s.foldlM (fun val digit => (getDigitValue digit).map (push 58 val)) val =
      none := by
    induction s with
    | nil => cases hs
    | cons first s ih =>
      intro val
      rw [List.foldlM_cons, getDigitValue_eq]
      split_ifs with hfirst
      · rcases List.mem_cons.mp hs with rfl | hrest
        · exact absurd hfirst h
        · exact ih hrest _
      · rfl
  exact hloop 0

theorem digitChar_idxOf {ch : UInt8} (h : ch ∈ alphabet) : digitChar (alphabet.idxOf ch) = ch := by
  rw [digitChar, List.getD_eq_getElem?_getD, List.getElem?_idxOf h]
  rfl

theorem idxOf_lt {ch : UInt8} (h : ch ∈ alphabet) : alphabet.idxOf ch < 58 :=
  List.idxOf_lt_length_iff.mpr h

theorem dropWhile_digits {s : List UInt8} (h : ∀ ch ∈ s, ch ∈ alphabet) :
    ((s.map alphabet.idxOf).dropWhile (· = 0)).map digitChar =
      s.dropWhile (· = digitChar 0) := by
  induction s with
  | nil => rfl
  | cons ch s ih =>
    have hall := h
    rw [List.forall_mem_cons] at h
    by_cases hone : ch = digitChar 0
    · have hzero : alphabet.idxOf ch = 0 := by
        rw [hone]
        decide
      rw [List.map_cons, List.dropWhile_cons_of_pos (by simpa using hzero),
        List.dropWhile_cons_of_pos (by simpa using hone), ih h.2]
    · have hne : alphabet.idxOf ch ≠ 0 := by
        intro hzero
        exact hone ((digitChar_idxOf h.1).symm.trans (congrArg digitChar hzero))
      rw [List.map_cons, List.dropWhile_cons_of_neg (by simpa using hne),
        List.dropWhile_cons_of_neg (by simpa using hone)]
      show ((ch :: s).map alphabet.idxOf).map digitChar = ch :: s
      rw [List.map_map]
      calc (ch :: s).map (digitChar ∘ alphabet.idxOf) = (ch :: s).map id :=
          List.map_congr_left fun ch hch => digitChar_idxOf (hall ch hch)
        _ = ch :: s := List.map_id _

-- A numeral is written without the digits that say nothing.
theorem map_numeral_numeralValue {s : List UInt8} (h : ∀ ch ∈ s, ch ∈ alphabet) :
    (numeral 58 (numeralValue s)).map digitChar = withoutOnes s := by
  have hdigits : ∀ d ∈ s.map alphabet.idxOf, d < 58 := by
    intro d hd
    obtain ⟨ch, hch, rfl⟩ := List.mem_map.mp hd
    exact idxOf_lt (h ch hch)
  rw [numeralValue, numeral_value (by decide) hdigits, withoutOnes, ← dropWhile_digits h]
  split_ifs with hnil hnil' hnil'
  · rfl
  · exact absurd (List.map_eq_nil_iff.mpr hnil) hnil'
  · exact absurd (List.map_eq_nil_iff.mp hnil') hnil
  · rfl

/-! ## 3. The bytes of a number -/

/-- The bytes of the number, with no zero in front but for zero itself. -/
structure MinimalBE (n : Nat) (bytes : List UInt8) : Prop where
  value : ofBE bytes = n
  minimal : bytes = [0] ∨ ∃ b rest, bytes = b :: rest ∧ b ≠ 0

theorem ofBE_cons_zero (bytes : List UInt8) : ofBE (0 :: bytes) = ofBE bytes := by
  rw [ofBE, List.foldl_cons]
  rfl

theorem minimalBE_toBE {n : Nat} (hn : n ≠ 0) : MinimalBE n (toBE (numBytes n) n) := by
  have hlt := lt_numBytes n
  have hvalue := ofBE_toBE_of_lt hlt
  refine ⟨hvalue, .inr ?_⟩
  have hne : toBE (numBytes n) n ≠ [] := by
    intro hnil
    rw [hnil] at hvalue
    exact hn hvalue.symm
  obtain ⟨b, rest, hbytes⟩ := List.exists_cons_of_ne_nil hne
  refine ⟨b, rest, hbytes, ?_⟩
  rintro rfl
  -- there would be a byte less
  have hlength := congrArg List.length hbytes
  rw [length_toBE, List.length_cons] at hlength
  rw [hbytes, ofBE_cons_zero] at hvalue
  have hrest := ofBE_lt rest
  rw [hvalue] at hrest
  have hle := numBytes_le hrest
  omega

theorem numBytes_eq_zero {n : Nat} : numBytes n = 0 ↔ n = 0 := by
  constructor
  · intro hzero
    have hlt := lt_numBytes n
    rw [hzero] at hlt
    omega
  · rintro rfl
    rfl

theorem decode_of_value {s : List UInt8} {n val : Nat} (hread : readDigits s = some val)
    (hfits : val < 256 ^ n) : decode s n =
      some (if val = 0 ∧ s = [digitChar 0] then [0] else toBE (numBytes val) val) := by
  unfold decode
  rw [hread]
  dsimp only [Option.bind_eq_bind, Option.bind_some]
  rw [if_neg (Nat.not_lt_of_le (numBytes_le hfits))]
  simp only [numBytes_eq_zero]
  split <;> rfl

theorem decode_of_overflow {s : List UInt8} {n val : Nat} (hread : readDigits s = some val)
    (hlarge : 256 ^ n ≤ val) : decode s n = none := by
  unfold decode
  rw [hread]
  dsimp only [Option.bind_eq_bind, Option.bind_some]
  rw [if_pos]
  by_contra hle
  have hpow : 256 ^ numBytes val ≤ 256 ^ n :=
    Nat.pow_le_pow_right (by decide) (Nat.le_of_not_lt hle)
  have hlt := lt_numBytes val
  omega

theorem decode_of_not_mem {s : List UInt8} {ch : UInt8} (hs : ch ∈ s) (h : ch ∉ alphabet)
    (n : Nat) : decode s n = none := by
  unfold decode
  rw [readDigits_of_not_mem hs h]
  rfl

theorem length_decode_le {s bytes : List UInt8} {n : Nat} (hn : 1 ≤ n)
    (h : decode s n = some bytes) : bytes.length ≤ n := by
  obtain ⟨val, hread, h⟩ := Option.bind_eq_some_iff.mp h
  split_ifs at h with hlarge hzero
  · cases h
    exact hn
  · cases h
    rw [length_toBE]
    exact Nat.le_of_not_lt hlarge

/-! ## 4. There and back -/

theorem decode_encodeLoops {x : List UInt8} {n : Nat} (hfits : ofBE x < 256 ^ n) :
    ∃ bytes, decode (encodeLoops x) n = some bytes ∧ MinimalBE (ofBE x) bytes := by
  rw [encodeLoops_eq, decode_of_value (readDigits_encode x) hfits]
  by_cases hzero : ofBE x = 0
  · have hone : encode x = [digitChar 0] := by
      rw [encode, hzero]
      rfl
    rw [if_pos ⟨hzero, hone⟩, hzero]
    exact ⟨[0], rfl, rfl, .inl rfl⟩
  · rw [if_neg fun h => hzero h.1]
    exact ⟨_, rfl, minimalBE_toBE hzero⟩

theorem encodeLoops_decode {s : List UInt8} {n : Nat} (h : ∀ ch ∈ s, ch ∈ alphabet)
    (hfits : numeralValue s < 256 ^ n) :
    ∃ bytes, decode s n = some bytes ∧ encodeLoops bytes = withoutOnes s := by
  rw [decode_of_value (readDigits_of_mem h) hfits]
  refine ⟨_, rfl, ?_⟩
  have hvalue : ofBE (if numeralValue s = 0 ∧ s = [digitChar 0] then [0]
      else toBE (numBytes (numeralValue s)) (numeralValue s)) = numeralValue s := by
    split_ifs with hzero
    · rw [hzero.1]
      rfl
    · exact ofBE_toBE_of_lt (lt_numBytes _)
  rw [encodeLoops_eq, encode, hvalue, map_numeral_numeralValue h]

/-- The text of a byte string is decoded to the bytes of its value, and a numeral that is decoded is
written again without the ones in front.  What is not a numeral or has a value that does not fit is
refused, and the output is long enough for what is written to it. -/
theorem base58_roundTrips :
    (∀ x n, 1 ≤ n → ofBE x < 256 ^ n →
      ∃ bytes, decode (encodeLoops x) n = some bytes ∧ MinimalBE (ofBE x) bytes) ∧
    (∀ s n, s ≠ [] → (∀ ch ∈ s, ch ∈ alphabet) → 1 ≤ n → numeralValue s < 256 ^ n →
      ∃ bytes, decode s n = some bytes ∧ encodeLoops bytes = withoutOnes s) ∧
    (∀ s n, (∃ ch ∈ s, ch ∉ alphabet) → decode s n = none) ∧
    ∀ s n, 1 ≤ n → (256 ^ n ≤ numeralValue s → decode s n = none) ∧
      ∀ bytes, decode s n = some bytes → bytes.length ≤ n := by
  refine ⟨fun x n _ => decode_encodeLoops, fun s n _ h _ => encodeLoops_decode h, ?_, ?_⟩
  · rintro s n ⟨ch, hs, h⟩
    exact decode_of_not_mem hs h n
  · intro s n hn
    refine ⟨fun hlarge => ?_, fun bytes => length_decode_le hn⟩
    by_cases h : ∀ ch ∈ s, ch ∈ alphabet
    · exact decode_of_overflow (readDigits_of_mem h) hlarge
    · push Not at h
      obtain ⟨ch, hs, h⟩ := h
      exact decode_of_not_mem hs h n

-- Bytes with a zero in front, a text with ones in front, a letter that is no digit, and a number that
-- is too large for one byte.
theorem base58_roundTrips_samples :
    (∃ bytes, decode (encodeLoops [0, 1, 2, 3]) 3 = some bytes ∧
      MinimalBE (ofBE [0, 1, 2, 3]) bytes) ∧
    (∃ bytes, decode (ascii "11Ldp") 4 = some bytes ∧
      encodeLoops bytes = withoutOnes (ascii "11Ldp")) ∧
    decode (ascii "1O") 4 = none ∧ decode (ascii "zzz") 1 = none := by
  obtain ⟨hbytes, htext, hletter, hsize⟩ := base58_roundTrips
  refine ⟨hbytes _ _ (by decide) (by decide), htext _ _ (by decide) ?_ (by decide) ?_, ?_, ?_⟩
  · decide +kernel
  · decide +kernel
  · exact hletter _ _ (by decide +kernel)
  · exact (hsize _ _ (by decide)).1 (by decide +kernel)

end Notbit.Base58
