import Notbit.Buffer
import Notbit.Mail.Base64
import Notbit.Mail.QuotedPrintable
import Notbit.Proto.Frames

/-!
# EncodedWords — encoded words in a header (`ntb-encoded-words.c`)

The words are decoded in the buffer they stand in.  What is still to be read and what has been
written are two positions in one block of bytes.
-/

open Bytes Streams Streams.Emits Traced Notbit.Proto

namespace Notbit.Mail

/-! ## 1. Decoding a word -/

/-- `ntb_ascii_tolower` -/
def asciiToLower (ch : UInt8) : UInt8 :=
  if 65 ≤ ch.toNat ∧ ch.toNat ≤ 90 then ch - 65 + 97 else ch

/-- `decode_buf`: the size of its block and the bytes in use. -/
structure DecodeBuf where
  size : Nat := 0
  octets : List UInt8 := []
  deriving DecidableEq, Repr

namespace DecodeBuf

/-- `ntb_buffer_ensure_size` for some bytes behind those in use. -/
def ensureRoom (buf : DecodeBuf) (room : Nat) : DecodeBuf :=
  let size := buf.octets.length + room
  { buf with size := doubledSize size size (max buf.size 1) }

def room (buf : DecodeBuf) : Nat := buf.size - buf.octets.length

def push (buf : DecodeBuf) (octets : List UInt8) : DecodeBuf :=
  { buf with octets := buf.octets ++ octets }

theorem le_room_ensureRoom (buf : DecodeBuf) (n : Nat) : n ≤ (buf.ensureRoom n).room := by
  have hpow : buf.octets.length + n < 2 ^ (buf.octets.length + n) := Nat.lt_two_pow_self
  have hle : buf.octets.length + n ≤ (buf.ensureRoom n).size := by
    refine le_doubledSize (hpow.le.trans ?_)
    exact Nat.le_mul_of_pos_left _ (by omega)
  unfold room
  change n ≤ (buf.ensureRoom n).size - buf.octets.length
  omega

end DecodeBuf

/-- A decoder for the text of an encoded word, and how much of it is decoded into some room. -/
structure WordDecoder (δ : Type) where
  decode : δ → List UInt8 → Emits Unit UInt8 δ
  chunkSize : Nat → Nat
  chunkSize_pos : ∀ room, 0 < room → 0 < chunkSize room

/-- The loop of `process_base64` and of `process_quoted_printable`. -/
def decodeChunks {δ : Type} (decoder : WordDecoder δ) (data : δ) (buf : DecodeBuf)
    (input : List UInt8) : Except Stop δ × DecodeBuf :=
  if input = [] then (.ok data, buf)
  else
    let grown := buf.ensureRoom 8
    let chunkSize := min (decoder.chunkSize grown.room) input.length
    match decodeInto grown.room (decoder.decode data (input.take chunkSize)) with
    | .error e => (.error e, grown)
    | .ok (data, octets) => decodeChunks decoder data (grown.push octets) (input.drop chunkSize)
termination_by input.length
decreasing_by
  rename_i hinput
  have hlength : 0 < input.length := List.length_pos_iff.mpr hinput
  have hroom := buf.le_room_ensureRoom 8
  have hchunk := decoder.chunkSize_pos (buf.ensureRoom 8).room (by omega)
  rw [List.length_drop]
  show input.length - min (decoder.chunkSize (buf.ensureRoom 8).room) input.length < input.length
  omega

def base64Decoder : WordDecoder Base64Data where
  decode := base64Decode
  chunkSize := base64MaxInputForSize
  chunkSize_pos room hroom := by
    unfold base64MaxInputForSize
    omega

def quotedPrintableDecoder : WordDecoder QuotedPrintableData where
  decode := quotedPrintableDecode
  chunkSize room := room
  chunkSize_pos _ hroom := hroom

/-- `process_base64` -/
def processBase64 (buf : DecodeBuf) (input : List UInt8) : Except Stop Unit × DecodeBuf :=
  match decodeChunks base64Decoder {} buf input with
  | (.error e, buf) => (.error e, buf)
  | (.ok data, buf) =>
    let buf := buf.ensureRoom 3
    match base64DecodeEnd data with
    | none => (.error .reject, buf)
    | some octets => (.ok (), buf.push octets)

/-- `process_quoted_printable` -/
def processQuotedPrintable (buf : DecodeBuf) (input : List UInt8) :
    Except Stop Unit × DecodeBuf :=
  match decodeChunks quotedPrintableDecoder { underscoreIsSpace := true } buf input with
  | (.error e, buf) => (.error e, buf)
  | (.ok data, buf) =>
    if quotedPrintableDecodeEnd data then (.ok (), buf) else (.error .reject, buf)

/-! ## 2. The words of a header -/

/-- `find_string`, with the position of what is found. -/
def findString (needle : List UInt8) : List UInt8 → Option Nat
  | [] => if needle = [] then some 0 else none
  | ch :: haystack =>
    if needle <+: ch :: haystack then some 0
    else (findString needle haystack).map (· + 1)

theorem findString_le {needle haystack : List UInt8} {n : Nat}
    (h : findString needle haystack = some n) : n + needle.length ≤ haystack.length := by
  induction haystack generalizing n with
  | nil =>
    unfold findString at h
    split_ifs at h with hneedle
    cases h
    rw [hneedle]
    exact le_refl _
  | cons ch haystack ih =>
    unfold findString at h
    split_ifs at h with hprefix
    · cases h
      rw [Nat.zero_add]
      exact hprefix.length_le
    · obtain ⟨m, hm, rfl⟩ := Option.map_eq_some_iff.mp h
      have := ih hm
      rw [List.length_cons]
      omega

/-- `looking_at`, with what follows the string. -/
def lookingAt (string input : List UInt8) : Option (List UInt8) :=
  if (input.take string.length).map asciiToLower = string then some (input.drop string.length)
  else none

/-- `enum ntb_encoded_words_encoding` -/
inductive EncodedWordsEncoding where
  | quotedPrintable | base64
  deriving DecidableEq, Repr

/-- `struct ntb_encoded_words_data`, with the block that `in` and `out` point into. -/
structure EncodedWordsData where
  buffer : List UInt8
  out : Nat := 0
  input : Nat := 0
  length : Nat
  decodeBuf : DecodeBuf := {}
  deriving DecidableEq, Repr

namespace EncodedWordsData

/-- What is left to be read. -/
def rest (data : EncodedWordsData) : List UInt8 :=
  (data.buffer.drop data.input).take data.length

/-- Writing at `out`. -/
def write (data : EncodedWordsData) (bytes : List UInt8) : EncodedWordsData :=
  { data with buffer := patch data.buffer data.out bytes, out := data.out + bytes.length }

def skip (data : EncodedWordsData) (n : Nat) : EncodedWordsData :=
  { data with input := data.input + n, length := data.length - n }

/-- The byte at some position is there and is a space. -/
def isSpaceAt (data : EncodedWordsData) (i : Nat) : Bool := data.buffer[i]? = some 32

/-- The start of a word in `process_encoded_word`: its encoding and what follows. -/
def wordStart (data : EncodedWordsData) : Option (EncodedWordsEncoding × List UInt8) := do
  let input ← lookingAt (ascii "us-ascii?") data.rest <|> lookingAt (ascii "utf-8?") data.rest
  (lookingAt (ascii "q?") input).map (.quotedPrintable, ·) <|>
    (lookingAt (ascii "b?") input).map (.base64, ·)

/-- `process_encoded_word`.  There is no result if it has written behind the block of
`decode_buf`. -/
def processEncodedWord (data : EncodedWordsData) : Option (Bool × EncodedWordsData) :=
  match data.wordStart with
  | none => some (false, data)
  | some (encoding, input) =>
    match findString (ascii "?=") input with
    | none => some (false, data)
    | some ewEnd =>
      let text := input.take ewEnd
      if 32 ∈ text ∨ 63 ∈ text then some (false, data)
      else
        let buf := { data.decodeBuf with octets := [] }
        let (result, decodeBuf) := match encoding with
          | .quotedPrintable => processQuotedPrintable buf text
          | .base64 => processBase64 buf text
        let data := { data with decodeBuf }
        match result with
        | .error .abort => none
        | .error .reject => some (false, data)
        | .ok () =>
          let n := data.rest.length - (input.drop (ewEnd + 2)).length
          some (true, (data.write decodeBuf.octets).skip n)

@[simp] theorem length_write (data : EncodedWordsData) (bytes : List UInt8) :
    (data.write bytes).length = data.length := rfl

@[simp] theorem length_skip (data : EncodedWordsData) (n : Nat) :
    (data.skip n).length = data.length - n := rfl

theorem length_rest_le (data : EncodedWordsData) : data.rest.length ≤ data.length := by
  rw [rest, List.length_take]
  exact Nat.min_le_left _ _

theorem length_processEncodedWord {data data' : EncodedWordsData} {b : Bool}
    (h : data.processEncodedWord = some (b, data')) : data'.length ≤ data.length := by
  unfold processEncodedWord at h
  split at h
  · cases h
    exact le_refl _
  · split at h
    · cases h
      exact le_refl _
    · dsimp only at h
      split_ifs at h
      · cases h
        exact le_refl _
      · split at h
        · cases h
        · cases h
          exact le_refl _
        · cases h
          exact Nat.sub_le _ _

/-- Going on behind the start of a word.  What stands before it is kept, but for a space between two
words. -/
def toWord (data : EncodedWordsData) (isSpace : Bool) (skipSize : Nat) : EncodedWordsData :=
  (if isSpace then data else data.write (data.rest.take skipSize)).skip (skipSize + 2)

/-- What has been read as the start of a word is kept, with the space before it. -/
def notWord (data : EncodedWordsData) (isSpace : Bool) : EncodedWordsData :=
  data.write (if isSpace then 32 :: ascii "=?" else ascii "=?")

theorem length_toWord (data : EncodedWordsData) (isSpace : Bool) (skipSize : Nat) :
    (data.toWord isSpace skipSize).length = data.length - (skipSize + 2) := by
  unfold toWord
  split <;> rfl

@[simp] theorem length_notWord (data : EncodedWordsData) (isSpace : Bool) :
    (data.notWord isSpace).length = data.length := rfl

theorem length_toWord_lt {data : EncodedWordsData} {skipSize : Nat}
    (h : findString (ascii "=?") data.rest = some skipSize) (isSpace : Bool) :
    (data.toWord isSpace skipSize).length < data.length := by
  have hle : skipSize + 2 ≤ data.rest.length := findString_le h
  have hrest := data.length_rest_le
  rw [length_toWord]
  omega

/-- The loop of `ntb_encoded_words_decode`. -/
def decodeLoop (data : EncodedWordsData) (hadEw : Bool) : Option EncodedWordsData :=
  match _hfind : findString (ascii "=?") data.rest with
  | none => some data
  | some skipSize =>
    let ewStart := data.input + skipSize
    let isSpace := hadEw && skipSize = 1 && data.isSpaceAt (ewStart - 1)
    let word := data.toWord isSpace skipSize
    if ewStart = 0 ∨ word.isSpaceAt (ewStart - 1) then
      match _hword : word.processEncodedWord with
      | none => none
      | some (true, word') => decodeLoop word' true
      | some (false, word') => decodeLoop (word'.notWord isSpace) false
    else decodeLoop (word.notWord isSpace) false
termination_by data.length
decreasing_by
  · exact (length_processEncodedWord _hword).trans_lt (length_toWord_lt _hfind _)
  · exact (length_processEncodedWord _hword).trans_lt (length_toWord_lt _hfind _)
  · exact length_toWord_lt _hfind _

end EncodedWordsData

/-- `ntb_encoded_words_decode`: the bytes in use at the end.  There is no result if the buffer for
decoded words was too small. -/
def encodedWordsDecode (text : List UInt8) : Option (List UInt8) := do
  let data ← EncodedWordsData.decodeLoop { buffer := text, length := text.length } false
  let data := data.write data.rest
  return data.buffer.take data.out

end Notbit.Mail
