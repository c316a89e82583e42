import Notbit.Mail.QuotedPrintable

/-!
# QuotedPrintableTexts — the decoder and what the encoding is (`ntb-quoted-printable.c`)

A reference that reads a text character by character and knows nothing of chunks or states.  The
state of the decoder says how much of an escape it has read.
-/

open Streams Streams.Emits

namespace Notbit.Mail

/-! ## 1. The encoding -/

/-- The value of a hexadecimal digit. -/
def hexDigit (ch : UInt8) : Option Nat :=
  [48, 49, 50, 51, 52, 53, 54, 55, 56, 57, 97, 98, 99, 100, 101, 102].findIdx?
    (fun digit => ch = digit || (digit ≥ 97 && ch = digit - 32))

def isBlank (ch : UInt8) : Bool := ch = 32 || ch = 9

/-- What follows an equals sign: the digits of an octet or the end of a line, and what stands behind
them. -/
inductive QuotedEscape where
  | octet (octet : UInt8) (rest : List UInt8)
  | lineEnd (rest : List UInt8)
  | unfinished
  | invalid
  deriving DecidableEq, Repr

/-- The end of a line behind the blanks. -/
def softLineEnd : List UInt8 → QuotedEscape
  | [] => .unfinished
  | ch :: text =>
    if ch = 10 then .lineEnd text
    else if ch = 13 then
      match text with
      | [] => .unfinished
      | lf :: text => if lf = 10 then .lineEnd text else .invalid
    else .invalid

def quotedEscape : List UInt8 → QuotedEscape
  | [] => .unfinished
  | ch :: text =>
    match hexDigit ch with
    | some high =>
      match text with
      | [] => .unfinished
      | ch :: text =>
        match hexDigit ch with
        | some low => .octet (UInt8.ofNat (16 * high + low)) text
        | none => .invalid
    | none => softLineEnd ((ch :: text).dropWhile isBlank)

/-- The text that is left behind an escape. -/
def QuotedEscape.rest : QuotedEscape → List UInt8
  | .octet _ rest | .lineEnd rest => rest
  | .unfinished | .invalid => []

theorem length_rest_softLineEnd (text : List UInt8) :
    (softLineEnd text).rest.length ≤ text.length := by
  unfold softLineEnd
  split
  · exact Nat.zero_le _
  · split_ifs
    · exact Nat.le_succ _
    · split
      · exact Nat.zero_le _
      · split_ifs
        · exact (Nat.le_succ _).trans (Nat.le_succ _)
        · exact Nat.zero_le _
    · exact Nat.zero_le _

theorem length_rest_quotedEscape (text : List UInt8) :
    (quotedEscape text).rest.length ≤ text.length := by
  unfold quotedEscape
  split
  · exact Nat.zero_le _
  · split
    · split
      · exact Nat.zero_le _
      · split
        · exact (Nat.le_succ _).trans (Nat.le_succ _)
        · exact Nat.zero_le _
    · exact (length_rest_softLineEnd _).trans (List.dropWhile_suffix _).length_le

/-- The octet that a character stands for by itself. -/
def literalOctet (underscoreIsSpace : Bool) (ch : UInt8) : UInt8 :=
  if underscoreIsSpace && ch = 95 then 32 else ch

/-- The octets of a text, and the escape at its end that is not finished; `none` if it is not well
formed. -/
def quotedPrintableReference (underscoreIsSpace : Bool) :
    List UInt8 → Option (List UInt8 × List UInt8)
  | [] => some ([], [])
  | ch :: text =>
    if ch = 61 then
      match _h : quotedEscape text with
      | .octet octet rest =>
        (quotedPrintableReference underscoreIsSpace rest).map fun p => (octet :: p.1, p.2)
      | .lineEnd rest => quotedPrintableReference underscoreIsSpace rest
      | .unfinished => some ([], ch :: text)
      | .invalid => none
    else
      (quotedPrintableReference underscoreIsSpace text).map fun p =>
        (literalOctet underscoreIsSpace ch :: p.1, p.2)
termination_by text => text.length
decreasing_by
  all_goals
    first
    | exact Nat.lt_succ_self _
    | have hle := length_rest_quotedEscape text
      rw [_h] at hle
      exact Nat.lt_succ_of_le hle

theorem hexValue_eq_hexDigit (ch : UInt8) : hexValue ch = hexDigit ch := by
  have hall : ∀ n < 256, hexValue (UInt8.ofNat n) = hexDigit (UInt8.ofNat n) := by decide +kernel
  have hch := hall ch.toNat ch.toNat_lt
  rwa [UInt8.ofNat_toNat] at hch

theorem hexValue_lt {ch : UInt8} {value : Nat} (h : hexValue ch = some value) : value < 16 := by
  rw [hexValue_eq_hexDigit, hexDigit, List.findIdx?_eq_some_iff_getElem] at h
  obtain ⟨hlt, -⟩ := h
  exact hlt

/-! ## 2. Escapes in the decoder -/

variable {data : QuotedPrintableData} {text : List UInt8}

-- Blanks are passed over.
theorem foldlM_blanks (hstate : data.state = .skipSpaces) (text : List UInt8) :
    text.foldlM quotedPrintableByte data =
      (text.dropWhile isBlank).foldlM quotedPrintableByte data := by
  induction text with
  | nil => rfl
  | cons ch text ih =>
    by_cases hblank : isBlank ch = true
    · have hor : ch = 32 ∨ ch = 9 := by simpa [isBlank] using hblank
      rw [List.dropWhile_cons_of_pos hblank, ← ih, List.foldlM_cons]
      simp only [quotedPrintableByte, hstate, if_pos hor, pure_bind]
    · rw [List.dropWhile_cons_of_neg hblank]

/-- What is done with a text that starts inside of an escape. -/
def Follows (data : QuotedPrintableData) (text : List UInt8) : QuotedEscape → Prop
  | .octet octet rest => ∃ nibble, text.foldlM quotedPrintableByte data =
      (tell [octet] >>= fun _ =>
        rest.foldlM quotedPrintableByte { data with state := .octet, nibble })
  | .lineEnd rest => text.foldlM quotedPrintableByte data =
      rest.foldlM quotedPrintableByte { data with state := .octet }
  | .unfinished => ∃ data' : QuotedPrintableData,
      text.foldlM quotedPrintableByte data = pure data' ∧ data'.state ≠ .octet
  | .invalid => (text.foldlM quotedPrintableByte data).value = .error ()

theorem foldlM_fail {ch : UInt8} (h : quotedPrintableByte data ch = fail ()) (text : List UInt8) :
    ((ch :: text).foldlM quotedPrintableByte data).value = .error () := by
  rw [List.foldlM_cons, h]
  rfl

theorem foldlM_step {ch : UInt8} {data' : QuotedPrintableData}
    (h : quotedPrintableByte data ch = pure data') (text : List UInt8) :
    (ch :: text).foldlM quotedPrintableByte data = text.foldlM quotedPrintableByte data' := by
  rw [List.foldlM_cons, h, pure_bind]

/-- The end of a line, when there are no more blanks. -/
theorem follows_softLineEnd (hstate : data.state = .skipSpaces)
    (hblank : ∀ ch ∈ text.head?, isBlank ch = false) : Follows data text (softLineEnd text) := by
  cases text with
  | nil => exact ⟨data, rfl, by rw [hstate]; decide⟩
  | cons ch text =>
    have hnot : ¬ (ch = 32 ∨ ch = 9) := by simpa [isBlank] using hblank ch rfl
    unfold softLineEnd
    dsimp only
    by_cases hlf : ch = 10
    · rw [if_pos hlf]
      refine foldlM_step ?_ text
      simp [quotedPrintableByte, hstate, hlf]
    · rw [if_neg hlf]
      by_cases hcr : ch = 13
      · have hstep : quotedPrintableByte data ch = pure { data with state := .softCr } := by
          simp [quotedPrintableByte, hstate, hcr]
        rw [if_pos hcr]
        cases text with
        | nil => exact ⟨_, foldlM_step hstep [], by simp⟩
        | cons lf text =>
          by_cases hlf' : lf = 10
          · simp only [if_pos hlf']
            refine (foldlM_step hstep _).trans (foldlM_step ?_ text)
            simp [quotedPrintableByte, handleSoftCr, hlf']
          · simp only [if_neg hlf']
            show Emits.value _ = _
            rw [foldlM_step hstep]
            refine foldlM_fail ?_ text
            simp only [quotedPrintableByte, handleSoftCr, if_pos hlf']
            rfl
      · rw [if_neg hcr]
        refine foldlM_fail ?_ text
        simp only [quotedPrintableByte, hstate, if_neg hnot, if_neg hcr, if_neg hlf]

-- Behind the equals sign what is no digit is treated like what stands behind a blank.
theorem quoteStart_eq {ch : UInt8} (hstate : data.state = .quoteStart) (h : hexValue ch = none) :
    quotedPrintableByte data ch = quotedPrintableByte { data with state := .skipSpaces } ch := by
  simp only [quotedPrintableByte, hstate, handleQuoteStart, h]
  split_ifs <;> rfl

theorem follows_quotedEscape (hstate : data.state = .quoteStart) (text : List UInt8) :
    Follows data text (quotedEscape text) := by
  cases text with
  | nil => exact ⟨data, rfl, by rw [hstate]; decide⟩
  | cons ch text =>
    unfold quotedEscape
    dsimp only
    rw [← hexValue_eq_hexDigit]
    cases hhigh : hexValue ch with
    | none =>
      have hskip : (ch :: text).foldlM quotedPrintableByte data =
          ((ch :: text).dropWhile isBlank).foldlM quotedPrintableByte
            { data with state := .skipSpaces } := by
        rw [← foldlM_blanks rfl, List.foldlM_cons, List.foldlM_cons, quoteStart_eq hstate hhigh]
      have hfollows : Follows { data with state := .skipSpaces } ((ch :: text).dropWhile isBlank)
          (softLineEnd ((ch :: text).dropWhile isBlank)) := by
        refine follows_softLineEnd rfl fun ch' hch' => ?_
        have hnot := List.head?_dropWhile_not isBlank (ch :: text)
        rw [hch'] at hnot
        exact hnot
      generalize softLineEnd ((ch :: text).dropWhile isBlank) = escape at hfollows
      cases escape <;> simpa only [Follows, hskip] using hfollows
    | some high =>
      have hstep : quotedPrintableByte data ch =
          pure { data with nibble := high, state := .escapedOctet } := by
        simp only [quotedPrintableByte, hstate, handleQuoteStart, hhigh]
        rfl
      cases text with
      | nil => exact ⟨_, foldlM_step hstep [], by simp⟩
      | cons ch' text =>
        dsimp only
        rw [← hexValue_eq_hexDigit]
        cases hlow : hexValue ch' with
        | none =>
          show Emits.value _ = _
          rw [foldlM_step hstep]
          refine foldlM_fail ?_ text
          simp only [quotedPrintableByte, handleEscapedOctet, hlow]
          rfl
        | some low =>
          refine ⟨high, ?_⟩
          have hor : high <<< 4 ||| low = 16 * high + low := by
            rw [Nat.shiftLeft_eq, Nat.mul_comm]
            exact (Nat.two_pow_add_eq_or_of_lt (show low < 2 ^ 4 from hexValue_lt hlow) high).symm
          rw [foldlM_step hstep, List.foldlM_cons]
          simp only [quotedPrintableByte, handleEscapedOctet, hlow, hor]
          rfl

/-! ## 3. Whole texts -/

/-- `ntb_quoted_printable_decode_start` and a call of `ntb_quoted_printable_decode` for each
chunk. -/
def quotedPrintableDecodeChunks (underscoreIsSpace : Bool) (chunks : List (List UInt8)) :
    Emits Unit UInt8 QuotedPrintableData :=
  chunks.foldlM quotedPrintableDecode { underscoreIsSpace }

/-- The decoder has done what the reference says. -/
def Matches (x : Emits Unit UInt8 QuotedPrintableData) : Option (List UInt8 × List UInt8) → Prop
  | none => x.value = .error ()
  | some (octets, escape) => ∃ data, x.value = .ok data ∧ x.log = octets ∧
      (quotedPrintableDecodeEnd data = true ↔ escape = [])

theorem Matches.tell {x : Emits Unit UInt8 QuotedPrintableData}
    {reference : Option (List UInt8 × List UInt8)} (h : Matches x reference) (octet : UInt8) :
    Matches (tell [octet] >>= fun _ => x) (reference.map fun p => (octet :: p.1, p.2)) := by
  cases reference with
  | none => exact h
  | some p =>
    obtain ⟨data, hvalue, hlog, hend⟩ := h
    exact ⟨data, hvalue, congrArg (octet :: ·) hlog, hend⟩

theorem foldlM_equals (hstate : data.state = .octet) (text : List UInt8) :
    (61 :: text : List UInt8).foldlM quotedPrintableByte data =
      text.foldlM quotedPrintableByte { data with state := .quoteStart } := by
  refine foldlM_step ?_ text
  simp only [quotedPrintableByte, hstate, if_true]

theorem matches_reference (underscoreIsSpace : Bool) (text : List UInt8)
    (hstate : data.state = .octet) (hmode : data.underscoreIsSpace = underscoreIsSpace) :
    Matches (text.foldlM quotedPrintableByte data)
      (quotedPrintableReference underscoreIsSpace text) := by
  fun_induction quotedPrintableReference underscoreIsSpace text generalizing data with
  | case1 => exact ⟨data, rfl, rfl, iff_of_true (decide_eq_true hstate) rfl⟩
  | case2 text octet rest hescape ih =>
    have hfollows := @follows_quotedEscape { data with state := .quoteStart } rfl text
    rw [hescape] at hfollows
    obtain ⟨nibble, hfold⟩ := hfollows
    rw [foldlM_equals hstate, hfold]
    exact (@ih { data with state := .octet, nibble } rfl hmode).tell octet
  | case3 text rest hescape ih =>
    have hfollows := @follows_quotedEscape { data with state := .quoteStart } rfl text
    rw [hescape] at hfollows
    rw [foldlM_equals hstate, show List.foldlM _ _ text = _ from hfollows]
    exact ih rfl hmode
  | case4 text hescape =>
    have hfollows := @follows_quotedEscape { data with state := .quoteStart } rfl text
    rw [hescape] at hfollows
    obtain ⟨data', hfold, hopen⟩ := hfollows
    rw [foldlM_equals hstate, hfold]
    exact ⟨data', rfl, rfl, iff_of_false (mt of_decide_eq_true hopen) (List.cons_ne_nil 61 text)⟩
  | case5 text hescape =>
    have hfollows := @follows_quotedEscape { data with state := .quoteStart } rfl text
    rw [hescape] at hfollows
    rw [foldlM_equals hstate]
    exact hfollows
  | case6 ch text hequals ih =>
    have hbyte : quotedPrintableByte data ch =
        Streams.Emits.tell [literalOctet underscoreIsSpace ch] >>= fun _ => pure data := by
      simp only [quotedPrintableByte, hstate, if_neg hequals, outputOctets, hmode, literalOctet]
      cases underscoreIsSpace
      · rfl
      · by_cases hunderscore : ch = 95
        · simp [hunderscore]
        · simp [hunderscore]
    rw [List.foldlM_cons, hbyte, bind_assoc]
    simp only [pure_bind]
    exact (ih hstate hmode).tell _

-- The chunks are decoded like one.
theorem foldlM_quotedPrintableDecode (data : QuotedPrintableData) (chunks : List (List UInt8)) :
    chunks.foldlM quotedPrintableDecode data = chunks.flatten.foldlM quotedPrintableByte data := by
  induction chunks generalizing data with
  | nil => rfl
  | cons chunk chunks ih =>
    rw [List.foldlM_cons, List.flatten_cons, List.foldlM_append, quotedPrintableDecode_eq]
    exact bind_congr_of fun data' _ => ih data'

/-- Whatever the chunks are, the decoder does what the reference says of the whole text, and no call
writes more than it reads. -/
theorem quotedPrintable_matches_reference (underscoreIsSpace : Bool)
    (chunks : List (List UInt8)) :
    Matches (quotedPrintableDecodeChunks underscoreIsSpace chunks)
      (quotedPrintableReference underscoreIsSpace chunks.flatten) ∧
    ∀ data chunk, (quotedPrintableDecode data chunk).log.length ≤ chunk.length := by
  constructor
  · unfold quotedPrintableDecodeChunks
    rw [foldlM_quotedPrintableDecode]
    exact matches_reference underscoreIsSpace chunks.flatten rfl rfl
  · intro data chunk
    rw [quotedPrintableDecode_eq]
    have hlength := length_log_foldlM length_log_quotedPrintableByte data chunk
    rwa [Nat.one_mul] at hlength

-- a_=c3= and the end of a line, and an equals sign
example : quotedPrintableReference true [97, 95, 61, 99, 51, 61, 32, 10, 61] =
    some ([97, 32, 0xc3], [61]) := by decide +kernel

end Notbit.Mail
