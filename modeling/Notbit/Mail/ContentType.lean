import Notbit.Lib.Streams
import Notbit.Lib.Traced

/-!
# ContentType — the value of a Content-Type header (`ntb-parse-content-type.c`)

The value is read up to its null character, which is the last byte of the text; moving past it is an
outcome of its own.
-/

open Streams Streams.Emits Traced

namespace Notbit.Mail

/-- `http_char_table` -/
def httpCharTable : List Nat :=
  [ 0x040a, 0x040a, 0x040a, 0x040a, 0x040a, 0x040a, 0x040a, 0x040a,
    0x040a, 0x2e4a, 0x268a, 0x040a, 0x040a, 0x260e, 0x040a, 0x040a,
    0x040a, 0x040a, 0x040a, 0x040a, 0x040a, 0x040a, 0x040a, 0x040a,
    0x040a, 0x040a, 0x040a, 0x040a, 0x040a, 0x040a, 0x040a, 0x040a,
    0x3e02, 0x6402, 0x2c02, 0x6402, 0x6402, 0x6402, 0x6402, 0x6402,
    0x2c02, 0x2c02, 0x6402, 0x6402, 0x2c02, 0x6402, 0x6402, 0x2c02,
    0x6432, 0x6432, 0x6432, 0x6432, 0x6432, 0x6432, 0x6432, 0x6432,
    0x6432, 0x6432, 0x2c02, 0x2c02, 0x2c02, 0x2c02, 0x2c02, 0x2c02,
    0x2c02, 0xe523, 0xe523, 0xe523, 0xe523, 0xe523, 0xe523, 0xe503,
    0xe503, 0xe503, 0xe503, 0xe503, 0xe503, 0xe503, 0xe503, 0xe503,
    0xe503, 0xe503, 0xe503, 0xe503, 0xe503, 0xe503, 0xe503, 0xe503,
    0xe503, 0xe503, 0xe503, 0x2c02, 0x2c02, 0x2c02, 0x6402, 0x6402,
    0x6402, 0x6422, 0x6422, 0x6422, 0x6422, 0x6422, 0x6422, 0x6402,
    0x6402, 0x6402, 0x6402, 0x6402, 0x6402, 0x6402, 0x6402, 0x6402,
    0x6402, 0x6402, 0x6402, 0x6402, 0x6402, 0x6402, 0x6402, 0x6402,
    0x6402, 0x6402, 0x6402, 0x2c02, 0x6402, 0x2c02, 0x6402, 0x040a ] ++
  List.replicate 128 0x2400

/-- The bits of `http_char_table` for a byte that are in the mask. -/
def httpIs (mask : Nat) (ch : UInt8) : Bool := httpCharTable.getD ch.toNat 0 &&& mask ≠ 0

/-- `HTTP_IS_TOKEN` -/
def httpIsToken : UInt8 → Bool := httpIs 16384

/-- `HTTP_IS_LWS` -/
def httpIsLws : UInt8 → Bool := httpIs 512

/-- `HTTP_IS_TEXT` -/
def httpIsText : UInt8 → Bool := httpIs 8192

/-- `HTTP_IS_CHAR` -/
def httpIsChar : UInt8 → Bool := httpIs 2

/-- Why `ntb_parse_content_type` returns false; `overread` is a move past the null character. -/
inductive ContentTypeStop (ε : Type) where
  | malformed
  | callback (e : ε)
  | overread

section Parser

variable {ε ω : Type}

def skipLws (p : List UInt8) : List UInt8 := p.dropWhile httpIsLws

/-- A token and what is left behind it. -/
def contentTypeToken : List UInt8 → Except (ContentTypeStop ε) (List UInt8 × List UInt8)
  | [] => .error .overread
  | ch :: p =>
    if httpIsToken ch then .ok (ch :: p.takeWhile httpIsToken, p.dropWhile httpIsToken)
    else .error .malformed

def contentTypeChar (expected : UInt8) : List UInt8 → Except (ContentTypeStop ε) (List UInt8)
  | [] => .error .overread
  | ch :: p => if ch = expected then .ok p else .error .malformed

/-- The loop over a quoted string. -/
def contentTypeQuoted : List UInt8 → Except (ContentTypeStop ε) (List UInt8 × List UInt8)
  | [] => .error .overread
  | [ch] =>
    if ch = 34 then .ok ([], [])
    else if ch = 92 ∨ httpIsText ch then .error .overread
    else .error .malformed
  | ch :: next :: p =>
    if ch = 34 then .ok ([], next :: p)
    else if ch = 92 then
      if next = 0 ∨ !httpIsChar next then .error .malformed
      else do
        let (value, p) ← contentTypeQuoted p
        return (next :: value, p)
    else if httpIsText ch then do
      let (value, p) ← contentTypeQuoted (next :: p)
      return (ch :: value, p)
    else .error .malformed

/-- A value behind an equals sign. -/
def contentTypeValue : List UInt8 → Except (ContentTypeStop ε) (List UInt8 × List UInt8)
  | [] => .error .overread
  | ch :: p => if ch = 34 then contentTypeQuoted p else contentTypeToken (ch :: p)

/-- An attribute with its value, from the semicolon on. -/
def contentTypeAttribute (p : List UInt8) :
    Except (ContentTypeStop ε) (List UInt8 × List UInt8 × List UInt8) := do
  let p ← contentTypeChar 59 p
  let (name, p) ← contentTypeToken (skipLws p)
  let p ← contentTypeChar 61 p
  let (value, p) ← contentTypeValue p
  return (name, value, p)

theorem skipLws_le (p : List UInt8) : (skipLws p).length ≤ p.length :=
  (List.dropWhile_suffix _).length_le

theorem contentTypeToken_shorter {p p' token : List UInt8}
    (h : contentTypeToken (ε := ε) p = .ok (token, p')) : p'.length < p.length := by
  cases p with
  | nil => cases h
  | cons ch p =>
    rw [contentTypeToken] at h
    split_ifs at h
    cases h
    exact Nat.lt_succ_of_le (List.dropWhile_suffix _).length_le

theorem contentTypeChar_shorter {expected : UInt8} {p p' : List UInt8}
    (h : contentTypeChar (ε := ε) expected p = .ok p') : p'.length < p.length := by
  cases p with
  | nil => cases h
  | cons ch p =>
    rw [contentTypeChar] at h
    split_ifs at h
    cases h
    exact Nat.lt_succ_self _

theorem contentTypeQuoted_shorter {p p' value : List UInt8}
    (h : contentTypeQuoted (ε := ε) p = .ok (value, p')) : p'.length < p.length := by
  fun_induction contentTypeQuoted p generalizing p' value with
  | case2 => cases h; exact Nat.succ_pos _
  | case5 => cases h; exact Nat.lt_succ_self _
  | case7 ch next p _ ih =>
    obtain ⟨⟨value, p₁⟩, hvalue, h⟩ := bind_eq_ok.mp h
    cases h
    exact (ih hvalue).trans (Nat.lt_succ_of_lt (Nat.lt_succ_self _))
  | case8 ch next p _ _ _ ih =>
    obtain ⟨⟨value, p₁⟩, hvalue, h⟩ := bind_eq_ok.mp h
    cases h
    exact (ih hvalue).trans (Nat.lt_succ_self _)
  | _ => cases h

theorem contentTypeValue_shorter {p p' value : List UInt8}
    (h : contentTypeValue (ε := ε) p = .ok (value, p')) : p'.length < p.length := by
  cases p with
  | nil => cases h
  | cons ch p =>
    rw [contentTypeValue] at h
    split_ifs at h
    · exact (contentTypeQuoted_shorter h).trans (Nat.lt_succ_self _)
    · exact contentTypeToken_shorter h

theorem contentTypeAttribute_shorter {p p' name value : List UInt8}
    (h : contentTypeAttribute (ε := ε) p = .ok (name, value, p')) : p'.length < p.length := by
  obtain ⟨p₁, h₁, h⟩ := bind_eq_ok.mp h
  obtain ⟨⟨name, p₂⟩, h₂, h⟩ := bind_eq_ok.mp h
  obtain ⟨p₃, h₃, h⟩ := bind_eq_ok.mp h
  obtain ⟨⟨value, p₄⟩, h₄, h⟩ := bind_eq_ok.mp h
  cases h
  have hsemicolon := contentTypeChar_shorter h₁
  have htoken := (contentTypeToken_shorter h₂).trans_le (skipLws_le p₁)
  have hequals := contentTypeChar_shorter h₃
  have hvalue := contentTypeValue_shorter h₄
  omega

/-- The loop over the attributes. -/
def contentTypeAttributes (attributeCb : List UInt8 → List UInt8 → Emits ε ω Unit)
    (p : List UInt8) : Emits (ContentTypeStop ε) ω Unit :=
  match _hskip : skipLws p with
  | [] => fail .overread
  | ch :: rest =>
    if ch = 0 then return ()
    else
      match _hattribute : contentTypeAttribute (ch :: rest) with
      | .error e => fail e
      | .ok (name, value, p') => do
        (attributeCb name value).mapError .callback
        contentTypeAttributes attributeCb p'
termination_by p.length
decreasing_by
  have hshorter := contentTypeAttribute_shorter _hattribute
  have hle := skipLws_le p
  rw [_hskip] at hle
  omega

/-- The type in front of the attributes. -/
def contentTypeType (p : List UInt8) :
    Except (ContentTypeStop ε) (List UInt8 × List UInt8) := do
  let (type, p) ← contentTypeToken (skipLws p)
  let p ← contentTypeChar 47 p
  let (subtype, p) ← contentTypeToken p
  return (type ++ [47] ++ subtype, p)

/-- `ntb_parse_content_type` -/
def parseContentType (headerValue : List UInt8) (typeCb : List UInt8 → Emits ε ω Unit)
    (attributeCb : List UInt8 → List UInt8 → Emits ε ω Unit) :
    Emits (ContentTypeStop ε) ω Unit :=
  match contentTypeType headerValue with
  | .error e => fail e
  | .ok (type, p) => do
    (typeCb type).mapError .callback
    contentTypeAttributes attributeCb p

end Parser

end Notbit.Mail
