import Notbit.Lib.InPlace
import Notbit.Mail.Base64Room
import Notbit.Mail.Base64Texts
import Notbit.Mail.QuotedPrintableTexts

/-!
# EncodedWordsCopy — decoding in place is decoding from a copy (`ntb-encoded-words.c`)

A decoded word is shorter than the word, so that the writer stays behind the reader, and the byte
before a word is still the one of the text when it is looked at.
-/

open Bytes Streams Streams.Emits Traced InPlace Notbit.Proto

namespace Notbit.Mail

/-! ## 1. The same with a copy -/

/-- The text of a word is decoded into `decode_buf`. -/
def processWord (encoding : EncodedWordsEncoding) (buf : DecodeBuf) (text : List UInt8) :
    Except Stop Unit × DecodeBuf :=
  match encoding with
  | .quotedPrintable => processQuotedPrintable buf text
  | .base64 => processBase64 buf text

/-- What `process_encoded_word` reads of the text behind the start of a word: how much of it the
word takes, if it is one, and `decode_buf`. -/
def readWord (decodeBuf : DecodeBuf) (rest : List UInt8) : Option (Option Nat × DecodeBuf) :=
  match ({ buffer := rest, length := rest.length } : EncodedWordsData).wordStart with
  | none => some (none, decodeBuf)
  | some (encoding, input) =>
    match findString (ascii "?=") input with
    | none => some (none, decodeBuf)
    | some ewEnd =>
      let text := input.take ewEnd
      if 32 ∈ text ∨ 63 ∈ text then some (none, decodeBuf)
      else
        match processWord encoding { decodeBuf with octets := [] } text with
        | (.error .abort, _) => none
        | (.error .reject, decodeBuf) => some (none, decodeBuf)
        | (.ok (), decodeBuf) =>
          some (some (rest.length - (input.drop (ewEnd + 2)).length), decodeBuf)

/-- The loop of `ntb_encoded_words_decode` that reads from a copy of the text and appends to an
output of its own. -/
def decodeCopy (text : List UInt8) (input : Nat) (decodeBuf : DecodeBuf) (hadEw : Bool)
    (output : List UInt8) : Option (List UInt8) :=
  match _h : findString (ascii "=?") (text.drop input) with
  | none => some (output ++ text.drop input)
  | some skipSize =>
    let ewStart := input + skipSize
    let isSpace := hadEw && skipSize = 1 && text[ewStart - 1]? = some 32
    let output := if isSpace then output else output ++ (text.drop input).take skipSize
    let notWord := output ++ if isSpace then 32 :: ascii "=?" else ascii "=?"
    if ewStart = 0 ∨ text[ewStart - 1]? = some 32 then
      match readWord decodeBuf (text.drop (ewStart + 2)) with
      | none => none
      | some (some n, decodeBuf) =>
        decodeCopy text (ewStart + 2 + n) decodeBuf true (output ++ decodeBuf.octets)
      | some (none, decodeBuf) => decodeCopy text (ewStart + 2) decodeBuf false notWord
    else decodeCopy text (ewStart + 2) decodeBuf false notWord
termination_by text.length - input
decreasing_by
  all_goals
    have hle : skipSize + 2 ≤ (text.drop input).length := findString_le _h
    rw [List.length_drop] at hle
    omega

/-! ## 2. A decoded word is shorter -/

section Chunks

variable {δ : Type} {decoder : WordDecoder δ} {step : δ → UInt8 → Emits Unit UInt8 δ}
  {data data' : δ} {buf buf' : DecodeBuf} {input : List UInt8}

-- The chunks are decoded like the whole text.
theorem decodeChunks_ok (hstep : ∀ data input, decoder.decode data input = input.foldlM step data)
    (h : decodeChunks decoder data buf input = (.ok data', buf')) :
    (input.foldlM step data).value = .ok data' ∧
      buf'.octets = buf.octets ++ (input.foldlM step data).log := by
  fun_induction decodeChunks decoder data buf input with
  | case1 =>
    cases h
    exact ⟨rfl, (List.append_nil _).symm⟩
  | case2 => cases h
  | case3 data buf input hinput grown chunkSize data₁ octets hdecode ih =>
    obtain ⟨hvalue, hlog⟩ := decodeInto_eq_ok hdecode
    obtain ⟨hrest, hoctets⟩ := ih h
    rw [hstep] at hvalue hlog
    rw [← List.take_append_drop chunkSize input, List.foldlM_append]
    refine ⟨(value_bind_of_ok hvalue).trans hrest, ?_⟩
    rw [hoctets, log_bind_of_ok hvalue, hlog]
    exact List.append_assoc _ _ _

end Chunks

variable {buf buf' : DecodeBuf} {text : List UInt8}

theorem processBase64_ok (h : processBase64 buf text = (.ok (), buf')) (hbuf : buf.octets = []) :
    base64DecodeChunks [text] = some buf'.octets := by
  unfold processBase64 at h
  split at h
  next => cases h
  next data used hchunks =>
    obtain ⟨hvalue, hoctets⟩ := decodeChunks_ok base64Decode_eq hchunks
    split at h
    next => cases h
    next last hend =>
      cases h
      unfold base64DecodeChunks
      dsimp only
      rw [foldlM_base64Decode, List.flatten_singleton, hvalue]
      dsimp only
      rw [hend]
      show some _ = some (used.octets ++ last)
      rw [hoctets, hbuf, List.nil_append]

theorem length_processQuotedPrintable (h : processQuotedPrintable buf text = (.ok (), buf'))
    (hbuf : buf.octets = []) : buf'.octets.length ≤ text.length := by
  unfold processQuotedPrintable at h
  split at h
  next => cases h
  next data used hchunks =>
    obtain ⟨-, hoctets⟩ := decodeChunks_ok quotedPrintableDecode_eq hchunks
    split_ifs at h with hend
    all_goals cases h
    have hlength := length_log_foldlM length_log_quotedPrintableByte
      { underscoreIsSpace := true } text
    rw [hoctets, hbuf, List.nil_append]
    rwa [Nat.one_mul] at hlength

theorem length_processBase64 (h : processBase64 buf text = (.ok (), buf'))
    (hbuf : buf.octets = []) : buf'.octets.length ≤ text.length := by
  have htext := (base64DecodeChunks_eq_some_iff _ _).mp (processBase64_ok h hbuf)
  have hfilter := List.length_filter_le base64Significant text
  have hlength := congrArg List.length htext
  rw [List.flatten_singleton, length_base64Encode] at hlength
  omega

/-! ## 3. The start of a word -/

namespace EncodedWordsData

variable {data : EncodedWordsData}

/-- A word is read from what is left of the text. -/
theorem processEncodedWord_eq (data : EncodedWordsData) :
    data.processEncodedWord = (readWord data.decodeBuf data.rest).map fun (word, decodeBuf) =>
      match word with
      | some n => (true, (({ data with decodeBuf }).write decodeBuf.octets).skip n)
      | none => (false, { data with decodeBuf }) := by
  have hstart : ({ buffer := data.rest, length := data.rest.length } :
      EncodedWordsData).wordStart = data.wordStart := by
    unfold wordStart
    rw [show ({ buffer := data.rest, length := data.rest.length } : EncodedWordsData).rest =
      data.rest from List.take_length]
  unfold processEncodedWord readWord
  rw [hstart]
  cases data.wordStart with
  | none => rfl
  | some start =>
    obtain ⟨encoding, input⟩ := start
    dsimp only
    cases findString (ascii "?=") input with
    | none => rfl
    | some ewEnd =>
      dsimp only
      split_ifs
      · rfl
      · cases encoding with
        | quotedPrintable =>
          dsimp only [processWord]
          rcases processQuotedPrintable _ _ with ⟨(_ | _) | _, buf⟩ <;> rfl
        | base64 =>
          dsimp only [processWord]
          rcases processBase64 _ _ with ⟨(_ | _) | _, buf⟩ <;> rfl

theorem lookingAt_le {string input rest : List UInt8} (h : lookingAt string input = some rest) :
    rest.length ≤ input.length := by
  unfold lookingAt at h
  split_ifs at h
  cases h
  rw [List.length_drop]
  exact Nat.sub_le _ _

theorem of_orElse {α : Type} {x y : Option α} {a : α} (h : (x <|> y) = some a) :
    x = some a ∨ y = some a := by
  cases x with
  | none => exact .inr h
  | some b => exact .inl h

theorem wordStart_le {encoding : EncodedWordsEncoding} {input : List UInt8}
    (h : data.wordStart = some (encoding, input)) : input.length ≤ data.rest.length := by
  obtain ⟨charset, hcharset, hencoding⟩ := Option.bind_eq_some_iff.mp h
  have hle : charset.length ≤ data.rest.length := by
    rcases of_orElse hcharset with hascii | hutf
    · exact lookingAt_le hascii
    · exact lookingAt_le hutf
  refine le_trans ?_ hle
  rcases of_orElse hencoding with hq | hb
  · obtain ⟨rest, hrest, heq⟩ := Option.map_eq_some_iff.mp hq
    cases heq
    exact lookingAt_le hrest
  · obtain ⟨rest, hrest, heq⟩ := Option.map_eq_some_iff.mp hb
    cases heq
    exact lookingAt_le hrest

end EncodedWordsData

theorem length_processWord {encoding : EncodedWordsEncoding}
    (h : processWord encoding buf text = (.ok (), buf')) (hbuf : buf.octets = []) :
    buf'.octets.length ≤ text.length := by
  cases encoding with
  | quotedPrintable => exact length_processQuotedPrintable h hbuf
  | base64 => exact length_processBase64 h hbuf

/-- A word takes more bytes than it is decoded to. -/
theorem readWord_le {rest : List UInt8} {n : Nat} (h : readWord buf rest = some (some n, buf')) :
    buf'.octets.length < n ∧ n ≤ rest.length := by
  unfold readWord at h
  split at h
  next => cases h
  next encoding input hstart =>
    have hinput := EncodedWordsData.wordStart_le hstart
    rw [show ({ buffer := rest, length := rest.length } : EncodedWordsData).rest = rest from
      List.take_length] at hinput
    split at h
    next => cases h
    next ewEnd hfind =>
      have hend : ewEnd + 2 ≤ input.length := findString_le hfind
      dsimp only at h
      split at h
      next => cases h
      next =>
        split at h
        next => cases h
        next => cases h
        next hword =>
          cases h
          have hoctets := length_processWord hword rfl
          rw [List.length_take] at hoctets
          rw [List.length_drop]
          omega

/-! ## 4. The rounds of the loop -/

namespace EncodedWordsData

/-- The space before the next start of a word is left out for now. -/
def isSpaceBefore (data : EncodedWordsData) (hadEw : Bool) (skipSize : Nat) : Bool :=
  hadEw && skipSize = 1 && data.isSpaceAt (data.input + skipSize - 1)

/-- The state in which a word is looked for behind the next start of one. -/
def atWord (data : EncodedWordsData) (hadEw : Bool) (skipSize : Nat) : EncodedWordsData :=
  data.toWord (data.isSpaceBefore hadEw skipSize) skipSize

/-- A word may stand here. -/
def StartsWord (data : EncodedWordsData) (hadEw : Bool) (skipSize : Nat) : Prop :=
  data.input + skipSize = 0 ∨
    (data.atWord hadEw skipSize).isSpaceAt (data.input + skipSize - 1) = true

instance (data : EncodedWordsData) (hadEw : Bool) (skipSize : Nat) :
    Decidable (data.StartsWord hadEw skipSize) := inferInstanceAs (Decidable (_ ∨ _))

/-- A round of the loop of `ntb_encoded_words_decode`. -/
inductive Round : EncodedWordsData × Bool → EncodedWordsData × Bool → Prop
  | word {data next : EncodedWordsData} {hadEw : Bool} {skipSize : Nat} :
      findString (ascii "=?") data.rest = some skipSize → data.StartsWord hadEw skipSize →
      (data.atWord hadEw skipSize).processEncodedWord = some (true, next) →
      Round (data, hadEw) (next, true)
  | notWord {data next : EncodedWordsData} {hadEw : Bool} {skipSize : Nat} :
      findString (ascii "=?") data.rest = some skipSize → data.StartsWord hadEw skipSize →
      (data.atWord hadEw skipSize).processEncodedWord = some (false, next) →
      Round (data, hadEw) (next.notWord (data.isSpaceBefore hadEw skipSize), false)
  | notStart {data : EncodedWordsData} {hadEw : Bool} {skipSize : Nat} :
      findString (ascii "=?") data.rest = some skipSize → ¬ data.StartsWord hadEw skipSize →
      Round (data, hadEw)
        ((data.atWord hadEw skipSize).notWord (data.isSpaceBefore hadEw skipSize), false)

theorem decodeLoop_of_none {data : EncodedWordsData}
    (hfind : findString (ascii "=?") data.rest = none) (hadEw : Bool) :
    data.decodeLoop hadEw = some data := by
  rw [decodeLoop]
  split
  next => rfl
  next heq => cases heq.symm.trans hfind

theorem decodeLoop_of_some {data : EncodedWordsData} {skipSize : Nat}
    (hfind : findString (ascii "=?") data.rest = some skipSize) (hadEw : Bool) :
    data.decodeLoop hadEw =
      if data.StartsWord hadEw skipSize then
        match (data.atWord hadEw skipSize).processEncodedWord with
        | none => none
        | some (true, next) => next.decodeLoop true
        | some (false, next) => (next.notWord (data.isSpaceBefore hadEw skipSize)).decodeLoop false
      else ((data.atWord hadEw skipSize).notWord
        (data.isSpaceBefore hadEw skipSize)).decodeLoop false := by
  rw [decodeLoop]
  split
  next heq => cases heq.symm.trans hfind
  next skipSize' heq =>
    cases heq.symm.trans hfind
    show (if data.StartsWord hadEw skipSize then _ else _) = _
    refine if_congr Iff.rfl ?_ rfl
    split
    next hword => rw [show (data.atWord hadEw skipSize).processEncodedWord = none from hword]
    next hword =>
      rw [show (data.atWord hadEw skipSize).processEncodedWord = some (true, _) from hword]
    next hword =>
      rw [show (data.atWord hadEw skipSize).processEncodedWord = some (false, _) from hword]
      rfl

-- The loop goes round by round.
theorem decodeLoop_round {p q : EncodedWordsData × Bool} (h : Round p q) :
    p.1.decodeLoop p.2 = q.1.decodeLoop q.2 := by
  cases h with
  | word hfind hstart hword => rw [decodeLoop_of_some hfind, if_pos hstart, hword]
  | notWord hfind hstart hword => rw [decodeLoop_of_some hfind, if_pos hstart, hword]
  | notStart hfind hstart => rw [decodeLoop_of_some hfind, if_neg hstart]

/-- It ends where the rounds end. -/
theorem rounds_of_decodeLoop {data final : EncodedWordsData} {hadEw : Bool}
    (h : data.decodeLoop hadEw = some final) :
    ∃ hadEw', Relation.ReflTransGen Round (data, hadEw) (final, hadEw') := by
  induction hlength : data.length using Nat.strong_induction_on generalizing data hadEw with
  | _ length ih =>
    subst hlength
    cases hfind : findString (ascii "=?") data.rest with
    | none =>
      rw [decodeLoop_of_none hfind] at h
      cases h
      exact ⟨hadEw, .refl⟩
    | some skipSize =>
      have hless : (data.atWord hadEw skipSize).length < data.length :=
        length_toWord_lt hfind _
      -- the rounds that follow the first one
      have hround : ∀ next hadNext, Round (data, hadEw) (next, hadNext) →
          next.length < data.length →
          ∃ hadEw', Relation.ReflTransGen Round (data, hadEw) (final, hadEw') := by
        intro next hadNext hround hnext
        have hloop : next.decodeLoop hadNext = some final := (decodeLoop_round hround).symm.trans h
        obtain ⟨hadEw', hrest⟩ := ih next.length hnext hloop rfl
        exact ⟨hadEw', .head hround hrest⟩
      rw [decodeLoop_of_some hfind] at h
      by_cases hstart : data.StartsWord hadEw skipSize
      · rw [if_pos hstart] at h
        cases hword : (data.atWord hadEw skipSize).processEncodedWord with
        | none =>
          rw [hword] at h
          cases h
        | some result =>
          obtain ⟨isWord, next⟩ := result
          have hnext := (length_processEncodedWord hword).trans_lt hless
          cases isWord with
          | true => exact hround _ _ (.word hfind hstart hword) hnext
          | false => exact hround _ _ (.notWord hfind hstart hword) hnext
      · exact hround _ _ (.notStart hfind hstart) hless

end EncodedWordsData

/-- The data mirrors a reader of the text that has appended something to its output. -/
structure Mirrors (text : List UInt8) (data : EncodedWordsData) (output : List UInt8) : Prop where
  behind : Behind text data.buffer data.out data.input
  length : data.length = text.length - data.input
  output : data.buffer.take data.out = output

section Mirrors

variable {data : EncodedWordsData} {output : List UInt8} {hadEw : Bool} {skipSize : Nat}

theorem Mirrors.start (text : List UInt8) :
    Mirrors text { buffer := text, length := text.length } [] :=
  ⟨.start text, rfl, rfl⟩

theorem Mirrors.rest (h : Mirrors text data output) : data.rest = text.drop data.input := by
  rw [EncodedWordsData.rest, h.behind.drop_eq (Nat.sub_le _ _), h.length]
  refine List.take_of_length_le ?_
  rw [List.length_drop]

/-- The data when a word may start behind `ewStart`, before which a space may have been left out. -/
structure AtWord (text : List UInt8) (word : EncodedWordsData) (ewStart : Nat) (isSpace : Bool)
    (output : List UInt8) : Prop where
  behind : Behind text word.buffer word.out ewStart
  space : isSpace = true → 0 < ewStart ∧ text[ewStart - 1]? = some 32 ∧ word.out + 1 ≤ ewStart ∧
    (word.out + 1 = ewStart → word.buffer = text)
  marker : (text.drop ewStart).take 2 = ascii "=?"
  input : word.input = ewStart + 2
  length : word.length = text.length - (ewStart + 2)
  output : word.buffer.take word.out = output

theorem prefix_of_findString {needle haystack : List UInt8} {n : Nat}
    (h : findString needle haystack = some n) : needle <+: haystack.drop n := by
  induction haystack generalizing n with
  | nil =>
    unfold findString at h
    split_ifs at h with hneedle
    cases h
    rw [hneedle]
    exact List.nil_prefix
  | cons ch haystack ih =>
    unfold findString at h
    split_ifs at h with hprefix
    · cases h
      exact hprefix
    · obtain ⟨m, hm, rfl⟩ := Option.map_eq_some_iff.mp h
      exact ih hm

theorem Mirrors.isSpaceBefore (h : Mirrors text data output) :
    data.isSpaceBefore hadEw skipSize =
      (hadEw && skipSize = 1 && text[data.input + skipSize - 1]? = some 32) := by
  unfold EncodedWordsData.isSpaceBefore EncodedWordsData.isSpaceAt
  rw [h.behind.getElem?_eq (by omega)]

/-- Up to the start of a word. -/
theorem Mirrors.atWord (h : Mirrors text data output)
    (hfind : findString (ascii "=?") data.rest = some skipSize) (hadEw : Bool) :
    AtWord text (data.atWord hadEw skipSize) (data.input + skipSize)
      (data.isSpaceBefore hadEw skipSize)
      (if data.isSpaceBefore hadEw skipSize then output
        else output ++ (text.drop data.input).take skipSize) := by
  have hle : skipSize + 2 ≤ data.rest.length := findString_le hfind
  have hmarker := List.prefix_iff_eq_take.mp (prefix_of_findString hfind)
  rw [h.rest, List.drop_drop] at hmarker
  rw [h.rest, List.length_drop] at hle
  have hread := h.behind.read (Nat.le_add_right data.input skipSize) (by omega)
  have hlength : data.length - (skipSize + 2) = text.length - (data.input + skipSize + 2) := by
    rw [h.length]
    omega
  have hout := h.behind.out_le
  unfold EncodedWordsData.atWord EncodedWordsData.toWord
  cases hspace : data.isSpaceBefore hadEw skipSize with
  | true =>
    rw [h.isSpaceBefore, Bool.and_eq_true, Bool.and_eq_true, decide_eq_true_iff,
      decide_eq_true_iff] at hspace
    obtain ⟨⟨-, hskip⟩, hblank⟩ := hspace
    refine ⟨hread, fun _ => ⟨by omega, hblank, ?_, fun hreach => ?_⟩, hmarker.symm, ?_, hlength,
      h.output⟩
    · show data.out + 1 ≤ _
      omega
    · exact h.behind.unchanged (by change data.out + 1 = _ at hreach; omega)
    · exact (Nat.add_assoc _ _ _).symm
  | false =>
    have htake : (data.rest.take skipSize).length = skipSize := by
      rw [h.rest, List.length_take, List.length_drop]
      omega
    refine ⟨?_, nofun, hmarker.symm, (Nat.add_assoc _ _ _).symm, hlength, ?_⟩
    · refine hread.write (by omega) fun hreach => ?_
      have hsame : data.out = data.input := by omega
      refine ⟨h.behind.unchanged hsame, ?_⟩
      rw [htake, h.rest, hsame]
    · show (patch data.buffer data.out _).take (data.out + _) = _
      rw [h.behind.take_write, h.output, h.rest]
      rfl

/-- What turns out to be no word is copied. -/
theorem AtWord.notWord {word : EncodedWordsData} {ewStart : Nat} {isSpace : Bool}
    (h : AtWord text word ewStart isSpace output) (decodeBuf : DecodeBuf) :
    Mirrors text ({ word with decodeBuf }.notWord isSpace)
      (output ++ if isSpace then 32 :: ascii "=?" else ascii "=?") := by
  have hlength : ewStart + 2 ≤ text.length := by
    have htwo := congrArg List.length h.marker
    rw [List.length_take, List.length_drop, show (ascii "=?").length = 2 from rfl] at htwo
    omega
  have hread := h.behind.read (Nat.le_add_right ewStart 2) hlength
  have hout := h.behind.out_le
  refine ⟨?_, h.length.trans (by rw [← h.input]; rfl), ?_⟩
  · show Behind text (patch word.buffer word.out _) (word.out + _) word.input
    rw [h.input]
    cases isSpace with
    | true =>
      obtain ⟨hpos, hblank, hle, hunchanged⟩ := h.space rfl
      refine hread.write (by show word.out + 3 ≤ _; omega) fun hreach => ?_
      have hprev : word.out + 1 = ewStart := by
        change word.out + 3 = _ at hreach
        omega
      refine ⟨hunchanged hprev, ?_⟩
      have hdrop : text.drop word.out = 32 :: text.drop ewStart := by
        have hlt : word.out < text.length := by omega
        have hget : text[word.out] = 32 := by
          rw [← hprev] at hblank
          exact (List.getElem?_eq_some_iff.mp hblank).2
        rw [List.drop_eq_getElem_cons hlt, hget, hprev]
      rw [hdrop]
      exact congrArg (32 :: ·) h.marker.symm
    | false =>
      refine hread.write (by show word.out + 2 ≤ _; omega) fun hreach => ?_
      have hsame : word.out = ewStart := by
        change word.out + 2 = _ at hreach
        omega
      refine ⟨h.behind.unchanged hsame, ?_⟩
      rw [hsame]
      exact h.marker.symm
  · show (patch word.buffer word.out _).take (word.out + _) = _
    rw [h.behind.take_write, h.output]

-- The octets of a word take less room than the word.
theorem AtWord.word {word : EncodedWordsData} {ewStart n : Nat} {isSpace : Bool}
    (h : AtWord text word ewStart isSpace output)
    (hword : readWord word.decodeBuf (text.drop (ewStart + 2)) = some (some n, buf)) :
    Mirrors text (({ word with decodeBuf := buf }.write buf.octets).skip n)
      (output ++ buf.octets) := by
  obtain ⟨hshort, hle⟩ := readWord_le hword
  rw [List.length_drop] at hle
  have hout := h.behind.out_le
  refine ⟨?_, ?_, ?_⟩
  · show Behind text (patch word.buffer word.out _) (word.out + _) (word.input + n)
    rw [h.input]
    refine (h.behind.read (by omega) (by omega)).write (by omega) fun hreach => ?_
    omega
  · show word.length - n = text.length - (word.input + n)
    rw [h.length, h.input]
    omega
  · show (patch word.buffer word.out _).take (word.out + _) = _
    rw [h.behind.take_write, h.output]

/-! ## 5. Decoding in place -/

theorem decodeCopy_of_none {input : Nat} (hfind : findString (ascii "=?") (text.drop input) = none)
    (decodeBuf : DecodeBuf) (hadEw : Bool) (output : List UInt8) :
    decodeCopy text input decodeBuf hadEw output = some (output ++ text.drop input) := by
  rw [decodeCopy]
  split
  next => rfl
  next heq => cases heq.symm.trans hfind

theorem decodeCopy_of_some {input : Nat}
    (hfind : findString (ascii "=?") (text.drop input) = some skipSize) (decodeBuf : DecodeBuf)
    (hadEw : Bool) (output : List UInt8) :
    decodeCopy text input decodeBuf hadEw output =
      let isSpace := hadEw && skipSize = 1 && text[input + skipSize - 1]? = some 32
      let kept := if isSpace then output else output ++ (text.drop input).take skipSize
      let notWord := kept ++ if isSpace then 32 :: ascii "=?" else ascii "=?"
      if input + skipSize = 0 ∨ text[input + skipSize - 1]? = some 32 then
        match readWord decodeBuf (text.drop (input + skipSize + 2)) with
        | none => none
        | some (some n, decodeBuf) =>
          decodeCopy text (input + skipSize + 2 + n) decodeBuf true (kept ++ decodeBuf.octets)
        | some (none, decodeBuf) =>
          decodeCopy text (input + skipSize + 2) decodeBuf false notWord
      else decodeCopy text (input + skipSize + 2) decodeBuf false notWord := by
  rw [decodeCopy]
  split
  next heq => cases heq.symm.trans hfind
  next skipSize' heq =>
    cases heq.symm.trans hfind
    rfl

theorem AtWord.rest {word : EncodedWordsData} {ewStart : Nat} {isSpace : Bool}
    (h : AtWord text word ewStart isSpace output) : word.rest = text.drop (ewStart + 2) := by
  rw [EncodedWordsData.rest, h.input, h.behind.drop_eq (by omega), h.length]
  refine List.take_of_length_le ?_
  rw [List.length_drop]

theorem AtWord.isSpaceAt {word : EncodedWordsData} {ewStart : Nat} {isSpace : Bool}
    (h : AtWord text word ewStart isSpace output) :
    word.isSpaceAt (ewStart - 1) = true ↔ text[ewStart - 1]? = some 32 := by
  rw [EncodedWordsData.isSpaceAt, h.behind.getElem?_eq (le_refl _), decide_eq_true_iff]

theorem decodeBuf_atWord (data : EncodedWordsData) (hadEw : Bool) (skipSize : Nat) :
    (data.atWord hadEw skipSize).decodeBuf = data.decodeBuf := by
  unfold EncodedWordsData.atWord EncodedWordsData.toWord
  split <;> rfl

/-- The bytes in use when the loop has ended. -/
def EncodedWordsData.result (data : EncodedWordsData) : List UInt8 :=
  (data.write data.rest).buffer.take (data.write data.rest).out

theorem Mirrors.length_result (h : Mirrors text data output) :
    data.result.length ≤ text.length := by
  have hlength := h.behind.length_eq
  have hfits : data.out + data.rest.length ≤ data.buffer.length := by
    have hout := h.behind.out_le
    have hinput := h.behind.input_le
    rw [h.rest, List.length_drop, hlength]
    omega
  show ((patch data.buffer data.out data.rest).take _).length ≤ _
  rw [← hlength, ← length_patch hfits]
  exact List.length_take_le' _ _

/-- The loop and the one over the copy. -/
theorem Mirrors.decodeLoop (h : Mirrors text data output) (hadEw : Bool) :
    (data.decodeLoop hadEw).map EncodedWordsData.result =
      decodeCopy text data.input data.decodeBuf hadEw output := by
  induction hlength : data.length using Nat.strong_induction_on generalizing data output hadEw with
  | _ length ih =>
    subst hlength
    cases hfind : findString (ascii "=?") data.rest with
    | none =>
      rw [EncodedWordsData.decodeLoop_of_none hfind, Option.map_some,
        decodeCopy_of_none (h.rest ▸ hfind), ← h.rest]
      show some ((patch data.buffer data.out _).take (data.out + _)) = _
      rw [h.behind.take_write, h.output]
    | some skipSize =>
      have hword := h.atWord hfind hadEw
      have hless : (data.atWord hadEw skipSize).length < data.length :=
        EncodedWordsData.length_toWord_lt hfind _
      have hspace := @Mirrors.isSpaceBefore text data output hadEw skipSize h
      rw [EncodedWordsData.decodeLoop_of_some hfind, decodeCopy_of_some (h.rest ▸ hfind)]
      dsimp only
      rw [← hspace]
      generalize data.isSpaceBefore hadEw skipSize = isSpace at hword
      have hnot : ∀ decodeBuf, ((({ data.atWord hadEw skipSize with decodeBuf }).notWord
          isSpace).decodeLoop false).map EncodedWordsData.result =
            decodeCopy text (data.input + skipSize + 2) decodeBuf false
              ((if isSpace then output else output ++ (text.drop data.input).take skipSize) ++
                if isSpace then 32 :: ascii "=?" else ascii "=?") := by
        intro decodeBuf
        rw [← hword.input]
        exact ih _ hless (hword.notWord decodeBuf) false rfl
      by_cases hstart : data.StartsWord hadEw skipSize
      · have hstart' : data.input + skipSize = 0 ∨
            text[data.input + skipSize - 1]? = some 32 := hstart.imp id hword.isSpaceAt.mp
        rw [if_pos hstart, if_pos hstart', EncodedWordsData.processEncodedWord_eq, hword.rest,
          decodeBuf_atWord]
        cases hread : readWord data.decodeBuf (text.drop (data.input + skipSize + 2)) with
        | none => rfl
        | some result =>
          obtain ⟨word, buf⟩ := result
          cases word with
          | none => exact hnot buf
          | some n =>
            have hmirrors := hword.word ((decodeBuf_atWord data hadEw skipSize).symm ▸ hread)
            have hrest := ih _ ((Nat.sub_le _ _).trans_lt hless) hmirrors true rfl
            rw [← hword.input]
            exact hrest
      · have hstart' : ¬ (data.input + skipSize = 0 ∨
            text[data.input + skipSize - 1]? = some 32) :=
          fun hor => hstart (hor.imp id hword.isSpaceAt.mpr)
        rw [if_neg hstart, if_neg hstart', ← decodeBuf_atWord data hadEw skipSize]
        exact hnot _

-- What a round leaves.
theorem Mirrors.round {q : EncodedWordsData × Bool} (h : Mirrors text data output)
    (hround : EncodedWordsData.Round (data, hadEw) q) : ∃ output', Mirrors text q.1 output' := by
  cases hround with
  | word hfind hstart hword =>
    have hat := h.atWord hfind hadEw
    rw [EncodedWordsData.processEncodedWord_eq, hat.rest] at hword
    obtain ⟨⟨word, buf⟩, hread, heq⟩ := Option.map_eq_some_iff.mp hword
    cases word with
    | none => cases heq
    | some n =>
      cases heq
      exact ⟨_, hat.word hread⟩
  | notWord hfind hstart hword =>
    have hat := h.atWord hfind hadEw
    rw [EncodedWordsData.processEncodedWord_eq, hat.rest] at hword
    obtain ⟨⟨word, buf⟩, hread, heq⟩ := Option.map_eq_some_iff.mp hword
    cases word with
    | some n => cases heq
    | none =>
      cases heq
      exact ⟨_, hat.notWord buf⟩
  | notStart hfind hstart => exact ⟨_, (h.atWord hfind hadEw).notWord _⟩

end Mirrors

/-- The loop gets to the data, with or without a word that has just been decoded. -/
def Reaches (text : List UInt8) (p : EncodedWordsData × Bool) : Prop :=
  Relation.ReflTransGen EncodedWordsData.Round
    ({ buffer := text, length := text.length }, false) p

theorem mirrors_of_reaches {text : List UInt8} {p : EncodedWordsData × Bool}
    (h : Reaches text p) : ∃ output, Mirrors text p.1 output := by
  induction h with
  | refl => exact ⟨[], .start text⟩
  | tail _ hround ih =>
    obtain ⟨output, hmirrors⟩ := ih
    exact hmirrors.round hround

theorem encodedWordsDecode_eq (text : List UInt8) :
    encodedWordsDecode text =
      (EncodedWordsData.decodeLoop { buffer := text, length := text.length } false).map
        EncodedWordsData.result := by
  unfold encodedWordsDecode
  cases EncodedWordsData.decodeLoop { buffer := text, length := text.length } false <;> rfl

-- The result is the one of a reader of a copy.
theorem encodedWordsDecode_eq_copy (text : List UInt8) :
    encodedWordsDecode text = decodeCopy text 0 {} false [] :=
  (encodedWordsDecode_eq text).trans ((Mirrors.start text).decodeLoop false)

/-- Decoding a text in the block it stands in gives what decoding from a copy gives, which is no
longer than the text.  In every round, and when a word is looked for in it, the writer is not ahead
of the reader and what the reader still looks at is what it was. -/
theorem encodedWords_inPlace (text : List UInt8) :
    encodedWordsDecode text = decodeCopy text 0 {} false [] ∧
    (∀ decoded, encodedWordsDecode text = some decoded → decoded.length ≤ text.length) ∧
    ∀ data hadEw, Reaches text (data, hadEw) →
      Behind text data.buffer data.out data.input ∧
      ∀ skipSize, findString (ascii "=?") data.rest = some skipSize →
        Behind text (data.atWord hadEw skipSize).buffer (data.atWord hadEw skipSize).out
          (data.input + skipSize) := by
  refine ⟨encodedWordsDecode_eq_copy text, ?_, ?_⟩
  · intro decoded hdecoded
    obtain ⟨final, hloop, rfl⟩ := Option.map_eq_some_iff.mp
      ((encodedWordsDecode_eq text).symm.trans hdecoded)
    obtain ⟨hadEw, hrounds⟩ := EncodedWordsData.rounds_of_decodeLoop hloop
    obtain ⟨output, hmirrors⟩ := mirrors_of_reaches hrounds
    exact hmirrors.length_result
  · intro data hadEw hreaches
    obtain ⟨output, hmirrors⟩ := mirrors_of_reaches hreaches
    exact ⟨hmirrors.behind, fun skipSize hfind => (hmirrors.atWord hfind hadEw).behind⟩

end Notbit.Mail
