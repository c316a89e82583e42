import Notbit.Lib.Digits
import Notbit.Mail.Base64

/-!
# Base64Texts — the texts that the decoder accepts (`ntb-base64.c`)

What the decoder has read is always the text of the bytes that it has written, up to three
characters of the next group and the padding.  So it accepts the texts that the encoder writes, with
any other characters between theirs, and nothing else.
-/

open Streams Streams.Emits

namespace Notbit.Mail

/-- `ntb_base64_decode_start`, a call of `ntb_base64_decode` for each chunk, and
`ntb_base64_decode_end`: everything that they have written. -/
def base64DecodeChunks (chunks : List (List UInt8)) : Option (List UInt8) :=
  let x := chunks.foldlM base64Decode {}
  match x.value with
  | .ok data => (base64DecodeEnd data).map (x.log ++ ·)
  | .error _ => none

/-- A character of the alphabet or of the padding. -/
def base64Significant (ch : UInt8) : Bool := (alphabetValue ch).isSome || ch = 61

/-! ## 1. The alphabet -/

theorem alphabetValue_toAlphabetValue {v : Nat} (h : v < 64) :
    alphabetValue (toAlphabetValue v) = some (UInt32.ofNat v) := by
  have hall : ∀ v < 64, alphabetValue (toAlphabetValue v) = some (UInt32.ofNat v) := by
    decide +kernel
  exact hall v h

theorem exists_of_alphabetValue {ch : UInt8} {chValue : UInt32}
    (h : alphabetValue ch = some chValue) :
    ∃ v < 64, ch = toAlphabetValue v ∧ chValue = UInt32.ofNat v := by
  have hall : ∀ n < 256, (alphabetValue (UInt8.ofNat n)).all (fun chValue =>
      chValue.toNat < 64 && toAlphabetValue chValue.toNat = UInt8.ofNat n) = true := by
    decide +kernel
  have hch := hall ch.toNat ch.toNat_lt
  rw [UInt8.ofNat_toNat, h] at hch
  simp only [Option.all_some, Bool.and_eq_true, decide_eq_true_eq] at hch
  exact ⟨chValue.toNat, hch.1, hch.2.symm, (UInt32.ofNat_toNat).symm⟩

theorem toAlphabetValue_ne_equals {v : Nat} (h : v < 64) : toAlphabetValue v ≠ 61 := by
  intro heq
  have hvalue := alphabetValue_toAlphabetValue h
  rw [heq, alphabetValue_equals] at hvalue
  cases hvalue

/-- The three bytes of four characters with these values. -/
def groupBytes (p q r s : Nat) : List UInt8 :=
  [UInt8.ofNat (p * 4 + q / 16), UInt8.ofNat (q % 16 * 16 + r / 4), UInt8.ofNat (r % 4 * 64 + s)]

-- The values of the characters of a group.
theorem shiftRight_group (a b c : Nat) (hb : b < 256) (hc : c < 256) :
    let value := a <<< 16 ||| b <<< 8 ||| c
    value >>> 18 = a / 4 ∧ value >>> 12 &&& 63 = a % 4 * 16 + b / 16 ∧
      value >>> 6 &&& 63 = b % 16 * 4 + c / 64 ∧ value &&& 63 = c % 64 := by
  intro value
  have hvalue : value = a * 2 ^ 16 + b * 2 ^ 8 + c := by
    have hlow : b <<< 8 ||| c = b * 2 ^ 8 + c := by
      rw [Nat.shiftLeft_eq, Nat.mul_comm, Nat.two_pow_add_eq_or_of_lt hc]
    show a <<< 16 ||| b <<< 8 ||| c = _
    rw [Nat.or_assoc, hlow, Nat.shiftLeft_eq, Nat.mul_comm a,
      ← Nat.two_pow_add_eq_or_of_lt (by omega)]
    omega
  have hmask : ∀ n, n &&& 63 = n % 64 := fun n => Nat.and_two_pow_sub_one_eq_mod n 6
  rw [hmask, hmask, hmask, hvalue, Nat.shiftRight_eq_div_pow, Nat.shiftRight_eq_div_pow,
    Nat.shiftRight_eq_div_pow]
  omega

theorem base64Encode_cons (a b c : UInt8) (data : List UInt8) :
    base64Encode (a :: b :: c :: data) =
      [a.toNat / 4, a.toNat % 4 * 16 + b.toNat / 16, b.toNat % 16 * 4 + c.toNat / 64,
        c.toNat % 64].map toAlphabetValue ++ base64Encode data := by
  obtain ⟨h₁, h₂, h₃, h₄⟩ := shiftRight_group a.toNat b.toNat c.toNat b.toNat_lt c.toNat_lt
  rw [base64Encode]
  rw [h₁, h₂, h₃, h₄]
  rfl

theorem base64Encode_pair (a b : UInt8) :
    base64Encode [a, b] =
      [a.toNat / 4, a.toNat % 4 * 16 + b.toNat / 16, b.toNat % 16 * 4].map toAlphabetValue ++
        [61] := by
  obtain ⟨h₁, h₂, h₃, -⟩ := shiftRight_group a.toNat b.toNat 0 b.toNat_lt (by omega)
  rw [Nat.or_zero] at h₁ h₂ h₃
  rw [base64Encode]
  rw [h₁, h₂, h₃]
  rfl

theorem base64Encode_single (a : UInt8) :
    base64Encode [a] = [a.toNat / 4, a.toNat % 4 * 16].map toAlphabetValue ++ [61, 61] := by
  obtain ⟨h₁, h₂, -, -⟩ := shiftRight_group a.toNat 0 0 (by omega) (by omega)
  simp only [Nat.zero_shiftLeft, Nat.or_zero] at h₁ h₂
  rw [base64Encode]
  rw [h₁, h₂]
  rfl

-- Whole groups are written one after the other.
theorem base64Encode_append {front : List UInt8} (h : 3 ∣ front.length) (data : List UInt8) :
    base64Encode (front ++ data) = base64Encode front ++ base64Encode data := by
  fun_induction base64Encode front with
  | case1 a b c front value ih =>
    have hrest : 3 ∣ front.length := by
      simp only [List.length_cons] at h
      omega
    rw [List.cons_append, List.cons_append, List.cons_append, base64Encode, ih hrest]
    rfl
  | case2 => rfl
  | case3 => simp at h
  | case4 => simp at h

-- Four characters are the text of their bytes.
theorem base64Encode_groupBytes {p q r s : Nat} (hp : p < 64) (hq : q < 64) (hr : r < 64)
    (hs : s < 64) : base64Encode (groupBytes p q r s) = [p, q, r, s].map toAlphabetValue := by
  rw [groupBytes, base64Encode_cons]
  simp only [UInt8.toNat_ofNat']
  rw [show base64Encode [] = [] from rfl, List.append_nil]
  congr 1
  simp only [List.cons.injEq, and_true]
  omega

/-! ## 2. Characters of a group -/

/-- The decoder has some characters of a group, with these values. -/
structure Pending (data : Base64Data) (values : List Nat) : Prop where
  nChars : data.nChars = values.length
  value : data.value.toNat % 64 ^ values.length = Digits.value 64 values

variable {data data' : Base64Data} {values : List Nat}

theorem toNat_shiftIn (value : UInt32) {v : Nat} (h : v < 64) :
    (value <<< 6 ||| UInt32.ofNat v).toNat = value.toNat % 2 ^ 26 * 64 + v := by
  have hv : (UInt32.ofNat v).toNat = v := by
    rw [UInt32.toNat_ofNat']
    omega
  have hshift : (value <<< 6).toNat = 2 ^ 6 * (value.toNat % 2 ^ 26) := by
    rw [UInt32.toNat_shiftLeft, show (6 : UInt32).toNat % 32 = 6 from rfl, Nat.shiftLeft_eq]
    omega
  rw [UInt32.toNat_or, hshift, hv, ← Nat.two_pow_add_eq_or_of_lt h]
  omega

theorem Pending.shiftIn (h : Pending data values) (hlength : values.length < 4) {v : Nat}
    (hv : v < 64) :
    (data.value <<< 6 ||| UInt32.ofNat v).toNat % 64 ^ (values ++ [v]).length =
      Digits.value 64 (values ++ [v]) := by
  have hvalue := h.value
  rw [toNat_shiftIn _ hv, Digits.value, List.foldl_append, ← Digits.value, List.length_append]
  show _ = Digits.value 64 values * 64 + v
  rw [← hvalue]
  generalize values.length = k at hlength
  interval_cases k <;> simp only [List.length_singleton, Nat.reduceAdd, Nat.reducePow] <;> omega

-- A character that does not complete its group.
theorem base64Byte_pending (h : Pending data values) (hpadding : data.nPadding = 0)
    (hlength : values.length < 3) {v : Nat} (hv : v < 64) :
    ∃ data', base64Byte data (toAlphabetValue v) = pure data' ∧ Pending data' (values ++ [v]) ∧
      data'.nPadding = 0 := by
  have hchars : ¬ data.nChars + 1 ≥ 4 := by
    rw [h.nChars]
    omega
  refine ⟨{ data with
    value := data.value <<< 6 ||| UInt32.ofNat v, nChars := data.nChars + 1 }, ?_, ?_, hpadding⟩
  · simp only [base64Byte, alphabetValue_toAlphabetValue hv, hpadding, lt_irrefl, if_false,
      hchars]
  · refine ⟨?_, h.shiftIn (by omega) hv⟩
    rw [List.length_append, ← h.nChars]
    rfl

/-- The last character of its group. -/
theorem base64Byte_group {p q r s : Nat} (h : Pending data [p, q, r]) (hpadding : data.nPadding = 0)
    (hr : r < 64) (hs : s < 64) :
    ∃ data', base64Byte data (toAlphabetValue s) =
        (tell (groupBytes p q r s) >>= fun _ => pure data') ∧ Pending data' [] ∧
      data'.nPadding = 0 := by
  have hchars : data.nChars + 1 ≥ 4 := by
    rw [h.nChars]
    exact le_refl 4
  have hvalue := h.shiftIn (Nat.lt_succ_self 3) hs
  simp only [Digits.value, Digits.push, List.length_cons, List.length_nil,
    List.cons_append, List.nil_append, List.foldl_cons, List.foldl_nil, Nat.reduceAdd,
    Nat.reducePow] at hvalue
  have hbytes : [((data.value <<< 6 ||| UInt32.ofNat s) >>> 16).toUInt8,
      ((data.value <<< 6 ||| UInt32.ofNat s) >>> 8).toUInt8,
      (data.value <<< 6 ||| UInt32.ofNat s).toUInt8] = groupBytes p q r s := by
    generalize data.value <<< 6 ||| UInt32.ofNat s = value at hvalue
    simp only [groupBytes, List.cons.injEq, and_true, ← UInt8.toNat_inj, UInt32.toNat_toUInt8,
      UInt32.toNat_shiftRight, UInt8.toNat_ofNat', Nat.shiftRight_eq_div_pow]
    rw [show (16 : UInt32).toNat % 32 = 16 from rfl, show (8 : UInt32).toNat % 32 = 8 from rfl]
    omega
  refine ⟨{ data with value := data.value <<< 6 ||| UInt32.ofNat s, nChars := 0 }, ?_, ⟨rfl, ?_⟩,
    hpadding⟩
  · simp only [base64Byte, alphabetValue_toAlphabetValue hs, hpadding, lt_irrefl, if_false,
      hchars, if_true, hbytes]
  · rw [List.length_nil, Nat.pow_zero, Nat.mod_one]
    rfl

theorem base64Byte_padding (h : data.nPadding < 2) :
    base64Byte data 61 = pure { data with nPadding := data.nPadding + 1 } := by
  have hpadding : ¬ data.nPadding + 1 > 2 := by omega
  simp only [base64Byte, alphabetValue_equals, if_true, hpadding, if_false]

/-! ## 3. The end of a text -/

-- The unused bits of the last character must be zero.
theorem base64DecodeEnd_two {p q r : Nat} (h : Pending data [p, q, r])
    (hpadding : data.nPadding = 1) (hr : r < 64) :
    base64DecodeEnd data = if r % 4 ≠ 0 then none
      else some [UInt8.ofNat (p * 4 + q / 16), UInt8.ofNat (q % 16 * 16 + r / 4)] := by
  have hvalue := h.value
  simp only [Digits.value, Digits.push, List.length_cons, List.length_nil, List.foldl_cons,
    List.foldl_nil, Nat.reduceAdd, Nat.reducePow] at hvalue
  have hmask : data.value &&& 3 ≠ 0 ↔ r % 4 ≠ 0 := by
    rw [ne_eq, ← UInt32.toNat_inj, UInt32.toNat_and,
      show (3 : UInt32).toNat = 2 ^ 2 - 1 from rfl, Nat.and_two_pow_sub_one_eq_mod]
    show ¬ _ = 0 ↔ _
    omega
  have hbytes : [(data.value >>> 10).toUInt8, (data.value >>> 2).toUInt8] =
      [UInt8.ofNat (p * 4 + q / 16), UInt8.ofNat (q % 16 * 16 + r / 4)] := by
    simp only [List.cons.injEq, and_true, ← UInt8.toNat_inj, UInt32.toNat_toUInt8,
      UInt32.toNat_shiftRight, UInt8.toNat_ofNat', Nat.shiftRight_eq_div_pow]
    rw [show (10 : UInt32).toNat % 32 = 10 from rfl, show (2 : UInt32).toNat % 32 = 2 from rfl]
    omega
  have hchars : data.nChars = 3 := h.nChars
  simp only [base64DecodeEnd, hpadding, hchars, ne_eq, not_true_eq_false, false_or, hmask, hbytes]

theorem base64DecodeEnd_one {p q : Nat} (h : Pending data [p, q]) (hpadding : data.nPadding = 2) :
    base64DecodeEnd data = if q % 16 ≠ 0 then none else some [UInt8.ofNat (p * 4 + q / 16)] := by
  have hvalue := h.value
  simp only [Digits.value, Digits.push, List.length_cons, List.length_nil, List.foldl_cons,
    List.foldl_nil, Nat.reduceAdd, Nat.reducePow] at hvalue
  have hmask : data.value &&& 15 ≠ 0 ↔ q % 16 ≠ 0 := by
    rw [ne_eq, ← UInt32.toNat_inj, UInt32.toNat_and,
      show (15 : UInt32).toNat = 2 ^ 4 - 1 from rfl, Nat.and_two_pow_sub_one_eq_mod]
    show ¬ _ = 0 ↔ _
    omega
  have hbytes : [(data.value >>> 4).toUInt8] = [UInt8.ofNat (p * 4 + q / 16)] := by
    simp only [List.cons.injEq, and_true, ← UInt8.toNat_inj, UInt32.toNat_toUInt8,
      UInt32.toNat_shiftRight, UInt8.toNat_ofNat', Nat.shiftRight_eq_div_pow]
    rw [show (4 : UInt32).toNat % 32 = 4 from rfl]
    omega
  have hchars : data.nChars = 2 := h.nChars
  simp only [base64DecodeEnd, hpadding, hchars, ne_eq, not_true_eq_false, false_or, hmask, hbytes]

/-! ## 4. What has been read -/

/-- What has been read is the text of what has been written, the characters of the next group and
the padding. -/
structure Reads (data : Base64Data) (written before : List UInt8) (values : List Nat) : Prop where
  pending : Pending data values
  short : values.length < 4
  small : ∀ v ∈ values, v < 64
  padding : data.nPadding ≤ 2
  groups : 3 ∣ written.length
  text : before = base64Encode written ++ values.map toAlphabetValue ++
    List.replicate data.nPadding 61

variable {written before : List UInt8}

theorem reads_start : Reads {} [] [] [] where
  pending := ⟨rfl, rfl⟩
  short := by decide
  small := nofun
  padding := by decide
  groups := by decide
  text := rfl

theorem Reads.letter (h : Reads data written before values) (hpadding : data.nPadding = 0) {v : Nat}
    (hv : v < 64) : ∃ data' new values', base64Byte data (toAlphabetValue v) =
      (tell new >>= fun _ => pure data') ∧
        Reads data' (written ++ new) (before ++ [toAlphabetValue v]) values' := by
  have hsmall : ∀ w ∈ values ++ [v], w < 64 := by
    intro w hw
    rcases List.mem_append.mp hw with hold | hnew
    · exact h.small w hold
    · rwa [List.mem_singleton.mp hnew]
  have htext := h.text
  rw [hpadding, List.replicate_zero, List.append_nil] at htext
  by_cases hlength : values.length < 3
  · obtain ⟨data', hbyte, hpending, hpadding'⟩ := base64Byte_pending h.pending hpadding hlength hv
    refine ⟨data', [], values ++ [v], hbyte, hpending, ?_, hsmall, by omega, ?_, ?_⟩
    · rw [List.length_append, List.length_singleton]
      omega
    · rw [List.append_nil]
      exact h.groups
    · rw [htext, hpadding', List.append_nil, List.map_append]
      simp
  · obtain ⟨p, q, r, rfl⟩ := List.length_eq_three.mp
      (show values.length = 3 by have := h.short; omega)
    have hp := h.small p (by simp)
    have hq := h.small q (by simp)
    have hr := h.small r (by simp)
    obtain ⟨data', hbyte, hpending, hpadding'⟩ :=
      base64Byte_group h.pending hpadding hr hv
    refine ⟨data', groupBytes p q r v, [], hbyte, hpending, by decide, nofun, by omega, ?_, ?_⟩
    · rw [List.length_append]
      exact Nat.dvd_add h.groups (dvd_refl 3)
    · rw [htext, hpadding', base64Encode_append h.groups, base64Encode_groupBytes hp hq hr hv]
      simp

/-- One byte. -/
theorem Reads.byte (h : Reads data written before values) {ch : UInt8}
    (hs : (base64Byte data ch).value = .ok data') :
    ∃ values', Reads data' (written ++ (base64Byte data ch).log)
      (before ++ [ch].filter base64Significant) values' := by
  cases halpha : alphabetValue ch with
  | some chValue =>
    obtain ⟨v, hv, rfl, -⟩ := exists_of_alphabetValue halpha
    have hpadding : data.nPadding = 0 := by
      by_contra hne
      have hpos : data.nPadding > 0 := Nat.pos_of_ne_zero hne
      simp only [base64Byte, halpha, if_pos hpos] at hs
      cases hs
    have hsignificant : base64Significant (toAlphabetValue v) = true := by
      rw [base64Significant, halpha]
      rfl
    obtain ⟨data₁, new, values', hbyte, hreads⟩ := h.letter hpadding hv
    rw [hbyte] at hs
    cases hs
    have hlog : (base64Byte data (toAlphabetValue v)).log = new := by
      rw [hbyte]
      exact List.append_nil new
    rw [hlog, List.filter_cons_of_pos hsignificant, List.filter_nil]
    exact ⟨values', hreads⟩
  | none =>
    by_cases hequals : ch = 61
    · subst hequals
      by_cases hpadding : data.nPadding < 2
      · rw [base64Byte_padding hpadding] at hs ⊢
        cases hs
        refine ⟨values, ⟨h.pending.nChars, h.pending.value⟩, h.short, h.small, hpadding, ?_, ?_⟩
        · rw [log_pure, List.append_nil]
          exact h.groups
        · rw [h.text, List.replicate_succ']
          simp [base64Significant]
      · have htwo : data.nPadding + 1 > 2 := by omega
        simp only [base64Byte, alphabetValue_equals, if_true, htwo] at hs
        cases hs
    · have hignored : base64Significant ch = false := by
        rw [base64Significant, halpha, decide_eq_false hequals]
        rfl
      have hbyte : base64Byte data ch = pure data := by
        simp only [base64Byte, halpha, hequals, if_false]
      rw [hbyte] at hs ⊢
      cases hs
      refine ⟨values, ?_⟩
      rw [List.filter_cons_of_neg (by rw [hignored]; decide), List.filter_nil, log_pure,
        List.append_nil, List.append_nil]
      exact h

theorem Reads.bytes (h : Reads data written before values) {input : List UInt8}
    (hs : (input.foldlM base64Byte data).value = .ok data') :
    ∃ values', Reads data' (written ++ (input.foldlM base64Byte data).log)
      (before ++ input.filter base64Significant) values' := by
  induction input generalizing data written before values with
  | nil =>
    cases hs
    refine ⟨values, ?_⟩
    rw [List.filter_nil, List.append_nil]
    exact (List.append_nil written).symm ▸ h
  | cons ch input ih =>
    rw [List.foldlM_cons] at hs ⊢
    obtain ⟨data₁, hbyte, hrest⟩ := value_bind_eq_ok hs
    obtain ⟨values₁, hreads⟩ := h.byte hbyte
    obtain ⟨values', hreads'⟩ := ih hreads hrest
    refine ⟨values', ?_⟩
    rw [log_bind_of_ok hbyte, ← List.singleton_append, List.filter_append, ← List.append_assoc,
      ← List.append_assoc]
    exact hreads'

/-- At the end it is the text of everything that has been written. -/
theorem Reads.complete (h : Reads data written before values) {last : List UInt8}
    (hend : base64DecodeEnd data = some last) : before = base64Encode (written ++ last) := by
  rw [base64Encode_append h.groups, h.text, List.append_assoc]
  congr 1
  have hchars := h.pending.nChars
  have hpadding := h.padding
  interval_cases hn : data.nPadding
  · simp only [base64DecodeEnd, hn] at hend
    split_ifs at hend with hzero
    cases hend
    rw [List.eq_nil_of_length_eq_zero (hchars.symm.trans (not_not.mp hzero))]
    rfl
  · by_cases hthree : values.length = 3
    · obtain ⟨p, q, r, rfl⟩ := List.length_eq_three.mp hthree
      have hp := h.small p (by simp)
      have hq := h.small q (by simp)
      have hr := h.small r (by simp)
      rw [base64DecodeEnd_two h.pending hn hr] at hend
      split_ifs at hend with hbits
      cases hend
      rw [base64Encode_pair]
      simp only [UInt8.toNat_ofNat']
      congr 2
      simp only [List.cons.injEq, and_true]
      omega
    · simp only [base64DecodeEnd, hn, hchars, ne_eq, hthree, not_false_eq_true, true_or,
        if_true] at hend
      cases hend
  · by_cases htwo : values.length = 2
    · obtain ⟨p, q, rfl⟩ := List.length_eq_two.mp htwo
      have hp := h.small p (by simp)
      have hq := h.small q (by simp)
      rw [base64DecodeEnd_one h.pending hn] at hend
      split_ifs at hend with hbits
      cases hend
      rw [base64Encode_single]
      simp only [UInt8.toNat_ofNat']
      congr 2
      simp only [List.cons.injEq, and_true]
      omega
    · simp only [base64DecodeEnd, hn, hchars, ne_eq, htwo, not_false_eq_true, true_or,
        if_true] at hend
      cases hend

/-! ## 5. Every text is accepted -/

theorem base64Byte_insignificant {ch : UInt8} (h : base64Significant ch = false)
    (data : Base64Data) : base64Byte data ch = pure data := by
  rw [base64Significant, Bool.or_eq_false_iff] at h
  have halpha : alphabetValue ch = none :=
    Option.isNone_iff_eq_none.mp (Option.isSome_eq_false_iff.mp h.1)
  simp only [base64Byte, halpha, of_decide_eq_false h.2, if_false]

-- Other characters are passed over.
theorem foldlM_filter_significant (data : Base64Data) (input : List UInt8) :
    (input.filter base64Significant).foldlM base64Byte data = input.foldlM base64Byte data := by
  induction input generalizing data with
  | nil => rfl
  | cons ch input ih =>
    rw [List.foldlM_cons]
    by_cases h : base64Significant ch = true
    · rw [List.filter_cons_of_pos h, List.foldlM_cons]
      exact bind_congr_of fun data' _ => ih data'
    · rw [List.filter_cons_of_neg h, base64Byte_insignificant (Bool.eq_false_of_not_eq_true h),
        pure_bind]
      exact ih data

-- The first three characters of a group.
theorem foldlM_pending (h : Pending data []) (hpadding : data.nPadding = 0) {more : List Nat}
    (hmore : more.length ≤ 3) (hsmall : ∀ v ∈ more, v < 64) :
    ∃ data', (more.map toAlphabetValue).foldlM base64Byte data = pure data' ∧
      Pending data' more ∧ data'.nPadding = 0 := by
  induction more using List.reverseRecOn with
  | nil => exact ⟨data, rfl, h, hpadding⟩
  | append_singleton more v ih =>
    rw [List.length_append, List.length_singleton] at hmore
    obtain ⟨data₁, hrest, hpending, hpadding₁⟩ :=
      ih (by omega) fun w hw => hsmall w (List.mem_append_left _ hw)
    obtain ⟨data', hbyte, hpending', hpadding'⟩ :=
      base64Byte_pending hpending hpadding₁ (by omega) (hsmall v (by simp))
    refine ⟨data', ?_, hpending', hpadding'⟩
    rw [List.map_append, List.foldlM_append, hrest, pure_bind]
    simp only [List.map_cons, List.map_nil, List.foldlM_cons, List.foldlM_nil, hbyte, pure_bind]

-- Three characters and the last one of their group.
theorem foldlM_group (h : Pending data []) (hpadding : data.nPadding = 0) {p q r s : Nat}
    (hp : p < 64) (hq : q < 64) (hr : r < 64) (hs : s < 64) :
    ∃ data', ([p, q, r, s].map toAlphabetValue).foldlM base64Byte data =
      (tell (groupBytes p q r s) >>= fun _ => pure data') ∧ Pending data' [] ∧
        data'.nPadding = 0 := by
  obtain ⟨data₁, hfirst, hpending₁, hpadding₁⟩ := @foldlM_pending data h hpadding [p, q, r]
    (le_refl 3) (by simp [hp, hq, hr])
  obtain ⟨data', hbyte, hpending', hpadding'⟩ := base64Byte_group hpending₁ hpadding₁ hr hs
  refine ⟨data', ?_, hpending', hpadding'⟩
  show ([p, q, r].map toAlphabetValue ++ [toAlphabetValue s]).foldlM base64Byte data = _
  rw [List.foldlM_append, hfirst, pure_bind, List.foldlM_cons, hbyte]
  simp only [List.foldlM_nil, bind_pure]

theorem foldlM_base64Encode (h : Pending data []) (hpadding : data.nPadding = 0)
    (bytes : List UInt8) :
    ∃ data' front last, (base64Encode bytes).foldlM base64Byte data =
        (tell front >>= fun _ => pure data') ∧
      base64DecodeEnd data' = some last ∧ front ++ last = bytes := by
  induction bytes using base64Encode.induct generalizing data with
  | case1 a b c rest ih =>
    have ha := a.toNat_lt
    have hb := b.toNat_lt
    have hc := c.toNat_lt
    have hbytes : groupBytes (a.toNat / 4) (a.toNat % 4 * 16 + b.toNat / 16)
        (b.toNat % 16 * 4 + c.toNat / 64) (c.toNat % 64) = [a, b, c] := by
      simp only [groupBytes, List.cons.injEq, and_true, ← UInt8.toNat_inj, UInt8.toNat_ofNat']
      omega
    obtain ⟨data₁, hgroup, hpending, hpadding₁⟩ := @foldlM_group data h hpadding (a.toNat / 4)
      (a.toNat % 4 * 16 + b.toNat / 16) (b.toNat % 16 * 4 + c.toNat / 64) (c.toNat % 64)
      (by omega) (by omega) (by omega) (by omega)
    obtain ⟨data', front, last, hrest, hend, heq⟩ := ih hpending hpadding₁
    refine ⟨data', [a, b, c] ++ front, last, ?_, hend, by rw [List.append_assoc, heq]; rfl⟩
    rw [base64Encode_cons, List.foldlM_append, tell_append_bind, hgroup, hbytes, bind_assoc,
      ← hrest]
    simp only [pure_bind]
  | case2 =>
    refine ⟨data, [], [], rfl, ?_, rfl⟩
    simp only [base64DecodeEnd, hpadding, h.nChars]
    rfl
  | case3 a =>
    have ha := a.toNat_lt
    obtain ⟨data₁, hfirst, hpending, hpadding₁⟩ := @foldlM_pending data h hpadding
      [a.toNat / 4, a.toNat % 4 * 16] (Nat.le_succ 2)
      (by simp only [List.forall_mem_cons]; exact ⟨by omega, by omega, nofun⟩)
    refine ⟨{ data₁ with nPadding := 2 }, [], [a], ?_, ?_, rfl⟩
    · rw [base64Encode_single, List.foldlM_append, hfirst, pure_bind, List.foldlM_cons,
        base64Byte_padding (by omega), pure_bind, List.foldlM_cons,
        base64Byte_padding (by show data₁.nPadding + 1 < 2; omega), hpadding₁]
      rfl
    · rw [@base64DecodeEnd_one { data₁ with nPadding := 2 } _ _
          ⟨hpending.nChars, hpending.value⟩ rfl, if_neg (by omega),
        show a.toNat / 4 * 4 + a.toNat % 4 * 16 / 16 = a.toNat by omega, UInt8.ofNat_toNat]
  | case4 a b =>
    have ha := a.toNat_lt
    have hb := b.toNat_lt
    obtain ⟨data₁, hfirst, hpending, hpadding₁⟩ := @foldlM_pending data h hpadding
      [a.toNat / 4, a.toNat % 4 * 16 + b.toNat / 16, b.toNat % 16 * 4] (le_refl 3)
      (by simp only [List.forall_mem_cons]; exact ⟨by omega, by omega, by omega, nofun⟩)
    refine ⟨{ data₁ with nPadding := 1 }, [], [a, b], ?_, ?_, rfl⟩
    · rw [base64Encode_pair, List.foldlM_append, hfirst, pure_bind, List.foldlM_cons,
        base64Byte_padding (by omega), hpadding₁]
      rfl
    · have hbytes : [UInt8.ofNat (a.toNat / 4 * 4 + (a.toNat % 4 * 16 + b.toNat / 16) / 16),
          UInt8.ofNat ((a.toNat % 4 * 16 + b.toNat / 16) % 16 * 16 + b.toNat % 16 * 4 / 4)] =
            [a, b] := by
        simp only [List.cons.injEq, and_true, ← UInt8.toNat_inj, UInt8.toNat_ofNat']
        omega
      rw [@base64DecodeEnd_two { data₁ with nPadding := 1 } _ _ _
          ⟨hpending.nChars, hpending.value⟩ rfl (by omega), if_neg (by omega), hbytes]

/-! ## 6. What is decoded -/

-- The chunks are decoded like one.
theorem foldlM_base64Decode (data : Base64Data) (chunks : List (List UInt8)) :
    chunks.foldlM base64Decode data = chunks.flatten.foldlM base64Byte data := by
  induction chunks generalizing data with
  | nil => rfl
  | cons chunk chunks ih =>
    rw [List.foldlM_cons, List.flatten_cons, List.foldlM_append, base64Decode_eq]
    exact bind_congr_of fun data' _ => ih data'

theorem base64DecodeChunks_eq_some_iff (chunks : List (List UInt8)) (bytes : List UInt8) :
    base64DecodeChunks chunks = some bytes ↔
      chunks.flatten.filter base64Significant = base64Encode bytes := by
  unfold base64DecodeChunks
  dsimp only
  rw [foldlM_base64Decode]
  constructor
  · intro h
    split at h
    next data hvalue =>
      obtain ⟨last, hend, rfl⟩ := Option.map_eq_some_iff.mp h
      obtain ⟨values, hreads⟩ := reads_start.bytes hvalue
      exact hreads.complete hend
    next => cases h
  · intro h
    obtain ⟨data, front, last, hfold, hend, heq⟩ :=
      @foldlM_base64Encode {} ⟨rfl, rfl⟩ rfl bytes
    rw [← foldlM_filter_significant, h, hfold]
    show (base64DecodeEnd data).map ((front ++ []) ++ ·) = _
    rw [hend, List.append_nil, Option.map_some, heq]

theorem filter_base64Encode (bytes : List UInt8) :
    (base64Encode bytes).filter base64Significant = base64Encode bytes := by
  obtain ⟨data, front, last, hfold, hend, heq⟩ := @foldlM_base64Encode {} ⟨rfl, rfl⟩ rfl bytes
  have hvalue : ((base64Encode bytes).foldlM base64Byte {}).value = .ok data := by
    rw [hfold]
    rfl
  have hlog : ((base64Encode bytes).foldlM base64Byte {}).log = front := by
    rw [hfold]
    exact List.append_nil front
  obtain ⟨values, hreads⟩ := reads_start.bytes hvalue
  rw [hlog] at hreads
  exact (hreads.complete hend).trans (congrArg base64Encode heq)

/-- Whatever the chunks are: the text of a byte string is decoded to it, and what is accepted are
the texts of byte strings between other characters. -/
theorem base64_accepts_texts :
    (∀ bytes chunks, chunks.flatten = base64Encode bytes →
      base64DecodeChunks chunks = some bytes) ∧
    (∀ chunks, (base64DecodeChunks chunks).isSome ↔
      ∃ bytes, chunks.flatten.filter base64Significant = base64Encode bytes) ∧
    ∀ chunks bytes, chunks.flatten.filter base64Significant = base64Encode bytes →
      base64DecodeChunks chunks = some bytes := by
  refine ⟨?_, ?_, ?_⟩
  · intro bytes chunks h
    rw [base64DecodeChunks_eq_some_iff, h, filter_base64Encode]
  · intro chunks
    rw [Option.isSome_iff_exists]
    exact exists_congr fun bytes => base64DecodeChunks_eq_some_iff chunks bytes
  · intro chunks bytes h
    exact (base64DecodeChunks_eq_some_iff chunks bytes).mpr h

end Notbit.Mail
