import Notbit.Mail.Parser

/-!
# Base64Room — what the decoder writes to the room it is given (`ntb-base64.h`)

`NTB_BASE64_MAX_INPUT_FOR_SIZE` looks at one chunk only, but the decoder writes three bytes for four
characters of the alphabet wherever the chunks were cut.  So what a chunk makes it write depends on
the characters before it, which are counted here.
-/

open Streams Streams.Emits Traced

namespace Notbit.Mail

open MailParser

/-! ## 1. Counting characters -/

/-- The characters of the alphabet before the first padding. -/
def letters (input : List UInt8) : Nat :=
  (input.takeWhile (· ≠ 61)).countP fun ch => (alphabetValue ch).isSome

variable {before input : List UInt8} {data : Base64Data} {room : Nat}

theorem letters_append_of_mem (h : 61 ∈ before) (input : List UInt8) :
    letters (before ++ input) = letters before := by
  have hshort : (before.takeWhile (· ≠ 61)).length ≠ before.length := by
    intro hlength
    have hall := List.takeWhile_eq_self_iff.mp
      ((List.takeWhile_prefix (fun ch : UInt8 => decide (ch ≠ 61))).eq_of_length hlength) 61 h
    exact absurd rfl (of_decide_eq_true hall)
  rw [letters, List.takeWhile_append, if_neg hshort, letters]

theorem letters_append_of_not_mem (h : 61 ∉ before) (input : List UInt8) :
    letters (before ++ input) = letters before + letters input := by
  have hall : before.takeWhile (· ≠ 61) = before :=
    List.takeWhile_eq_self_iff.mpr fun ch hch => decide_eq_true fun heq => h (heq ▸ hch)
  rw [letters, letters, letters, List.takeWhile_append, if_pos (by rw [hall]), hall,
    List.countP_append]

theorem letters_singleton (ch : UInt8) :
    letters [ch] = if (alphabetValue ch).isSome then 1 else 0 := by
  by_cases hequals : ch = 61
  · subst hequals
    rfl
  · rw [letters, List.takeWhile_cons_of_pos (by simpa using hequals), List.takeWhile_nil,
      List.countP_singleton]

/-- The characters that a chunk adds to those before it. -/
def newLetters (before chunk : List UInt8) : Nat := letters (before ++ chunk) - letters before

/-! ## 2. What a chunk makes the decoder write -/

/-- The decoder has read the text up to some place. -/
structure Carries (data : Base64Data) (before : List UInt8) : Prop where
  nChars : data.nChars = letters before % 4
  nPadding : 0 < data.nPadding ↔ 61 ∈ before

/-- The decoder has gone on to read some input: three bytes for each group of four characters that
is complete now. -/
structure Decodes (before input : List UInt8) (x : Emits Unit UInt8 Base64Data) : Prop where
  written : x.log.length = 3 * (letters (before ++ input) / 4 - letters before / 4)
  carries : ∀ data, x.value = .ok data → Carries data (before ++ input)
  padded : ∀ e, x.value = .error e → 61 ∈ before ++ input

theorem carries_start : Carries {} [] := ⟨rfl, by simp⟩

/-- One character: in front of the padding it may complete a group, behind it nothing is written. -/
theorem Carries.byte (h : Carries data before) (ch : UInt8) :
    Decodes before [ch] (base64Byte data ch) := by
  have hchars := h.nChars
  cases halpha : alphabetValue ch with
  | some chValue =>
    have hequals : ch ≠ 61 := by
      rintro rfl
      cases alphabetValue_equals.symm.trans halpha
    by_cases hpadded : 61 ∈ before
    · have hfail : base64Byte data ch = fail () := by
        simp only [base64Byte, halpha, if_pos (h.nPadding.mpr hpadded)]
      rw [hfail]
      refine ⟨?_, fun _ hdata => (by cases hdata), fun _ _ => List.mem_append_left _ hpadded⟩
      rw [letters_append_of_mem hpadded, Nat.sub_self]
      rfl
    · have hpadding : ¬ data.nPadding > 0 := mt h.nPadding.mp hpadded
      have hletters : letters (before ++ [ch]) = letters before + 1 := by
        rw [letters_append_of_not_mem hpadded, letters_singleton, halpha]
        rfl
      have hnot : 61 ∉ before ++ [ch] := by
        simp [hpadded, hequals.symm]
      simp only [base64Byte, halpha, if_neg hpadding]
      split
      next hfull =>
        refine ⟨?_, ?_, fun _ hfail => by cases hfail⟩
        · rw [hletters]
          show 3 = _
          omega
        · intro _ hdata
          obtain rfl := Except.ok.inj hdata
          refine ⟨?_, iff_of_false hpadding hnot⟩
          rw [hletters]
          show 0 = _
          omega
      next hroom =>
        refine ⟨?_, ?_, fun _ hfail => by cases hfail⟩
        · rw [hletters]
          show 0 = _
          omega
        · intro _ hdata
          obtain rfl := Except.ok.inj hdata
          refine ⟨?_, iff_of_false hpadding hnot⟩
          rw [hletters]
          show data.nChars + 1 = _
          omega
  | none =>
    have hletters : letters (before ++ [ch]) = letters before := by
      by_cases hpadded : 61 ∈ before
      · exact letters_append_of_mem hpadded _
      · rw [letters_append_of_not_mem hpadded, letters_singleton, halpha]
        rfl
    have hwritten : 0 = 3 * (letters (before ++ [ch]) / 4 - letters before / 4) := by
      rw [hletters, Nat.sub_self]
    simp only [base64Byte, halpha]
    split_ifs with hequals htwo
    · exact ⟨hwritten, fun _ hdata => (by cases hdata), fun _ _ => by simp [hequals]⟩
    · refine ⟨hwritten, ?_, fun _ hfail => by cases hfail⟩
      intro _ hdata
      obtain rfl := Except.ok.inj hdata
      exact ⟨by rw [hletters]; exact hchars, iff_of_true (Nat.succ_pos _) (by simp [hequals])⟩
    · refine ⟨hwritten, ?_, fun _ hfail => by cases hfail⟩
      intro _ hdata
      obtain rfl := Except.ok.inj hdata
      refine ⟨by rw [hletters]; exact hchars, h.nPadding.trans ?_⟩
      simp [Ne.symm hequals]

theorem letters_mono (before input : List UInt8) : letters before ≤ letters (before ++ input) := by
  by_cases h : 61 ∈ before
  · exact (letters_append_of_mem h input).ge
  · rw [letters_append_of_not_mem h]
    exact Nat.le_add_right _ _

/-- Over the characters of a chunk. -/
theorem Carries.decode (h : Carries data before) (input : List UInt8) :
    Decodes before input (base64Decode data input) := by
  rw [base64Decode_eq]
  induction input generalizing data before with
  | nil =>
    refine ⟨?_, ?_, nofun⟩
    · rw [List.append_nil, Nat.sub_self]
      rfl
    · intro _ hdata
      obtain rfl := Except.ok.inj hdata
      rwa [List.append_nil]
  | cons ch input ih =>
    have hbyte := h.byte ch
    have hassoc : before ++ ch :: input = before ++ [ch] ++ input := by simp
    suffices hall : Decodes before (ch :: input)
        (base64Byte data ch >>= fun data' => input.foldlM base64Byte data') by
      rwa [List.foldlM_cons]
    cases hvalue : (base64Byte data ch).value with
    | error e =>
      have hpadded := hbyte.padded e hvalue
      refine ⟨?_, ?_, fun _ _ => hassoc ▸ List.mem_append_left _ hpadded⟩
      · rw [hassoc, log_bind_of_error hvalue, letters_append_of_mem hpadded]
        exact hbyte.written
      · intro data' hdata'
        rw [value_bind_of_error hvalue] at hdata'
        cases hdata'
    | ok data' =>
      have hrest := ih (hbyte.carries data' hvalue)
      refine ⟨?_, ?_, ?_⟩
      · have hle := Nat.div_le_div_right (c := 4) (letters_mono before [ch])
        have hle' := Nat.div_le_div_right (c := 4) (letters_mono (before ++ [ch]) input)
        rw [hassoc, log_bind_of_ok hvalue, List.length_append, hbyte.written, hrest.written]
        omega
      · rw [hassoc, value_bind_of_ok hvalue]
        exact hrest.carries
      · rw [hassoc, value_bind_of_ok hvalue]
        exact hrest.padded

/-- The groups that a chunk completes have their place in the room: at most two or three characters
less than the chunk could have, depending on how many are carried over from before. -/
def CallFits (room : Nat) (before chunk : List UInt8) : Prop :=
  letters before % 4 + newLetters before chunk < 4 * (room / 3 + 1)

instance (room : Nat) (before chunk : List UInt8) : Decidable (CallFits room before chunk) :=
  inferInstanceAs (Decidable (_ < _))

theorem CallFits.of_mem (h : 61 ∈ before) (room : Nat) (chunk : List UInt8) :
    CallFits room before chunk := by
  unfold CallFits newLetters
  rw [letters_append_of_mem h]
  omega

theorem Decodes.fits_iff {x : Emits Unit UInt8 Base64Data} (h : Decodes before input x)
    (room : Nat) : x.log.length ≤ room ↔ CallFits room before input := by
  have hmono := letters_mono before input
  rw [h.written, CallFits, newLetters]
  omega

theorem Carries.decodeInto_eq_abort_iff (h : Carries data before) (room : Nat)
    (chunk : List UInt8) :
    decodeInto room (base64Decode data chunk) = .error .abort ↔ ¬ CallFits room before chunk := by
  rw [← (h.decode chunk).fits_iff room, not_le]
  unfold decodeInto
  split
  next hover => exact iff_of_true rfl hover
  next hfits =>
    refine iff_of_false ?_ hfits
    split <;> nofun

theorem decodeInto_eq_ok {δ : Type} {x : Emits Unit UInt8 δ} {d : δ} {octets : List UInt8}
    (h : decodeInto room x = .ok (d, octets)) : x.value = .ok d ∧ octets = x.log := by
  unfold decodeInto at h
  split_ifs at h
  split at h
  next hvalue =>
    cases h
    exact ⟨hvalue, rfl⟩
  next => cases h

theorem decodeInto_eq_reject {δ : Type} {x : Emits Unit UInt8 δ}
    (h : decodeInto room x = .error .reject) : ∃ e, x.value = .error e := by
  unfold decodeInto at h
  split_ifs at h
  · cases h
  · split at h
    next => cases h
    next e hvalue => exact ⟨e, hvalue⟩

/-! ## 3. The words of a header -/

/-- The bytes that `process_base64` has in use behind some text. -/
def usedBytes (before : List UInt8) : Nat := 3 * (letters before / 4)

/-- The size of the block of `decode_buf` after `ntb_buffer_ensure_size`. -/
def grownSize (size : Nat) (before : List UInt8) : Nat :=
  doubledSize (usedBytes before + 8) (usedBytes before + 8) (max size 1)

theorem le_grownSize (size : Nat) (before : List UInt8) :
    8 ≤ grownSize size before - usedBytes before := by
  have hroom := DecodeBuf.le_room_ensureRoom
    { size, octets := List.replicate (usedBytes before) 0 } 8
  simp only [DecodeBuf.room, DecodeBuf.ensureRoom, List.length_replicate] at hroom
  exact hroom

/-- The chunks of `process_base64` fit, from a place in the text on at which the block has some
size. -/
def WordFits (size : Nat) (before input : List UInt8) : Prop :=
  if input = [] then True
  else
    let room := grownSize size before - usedBytes before
    let chunkSize := min (base64MaxInputForSize room) input.length
    CallFits room before (input.take chunkSize) ∧
      WordFits (grownSize size before) (before ++ input.take chunkSize) (input.drop chunkSize)
termination_by input.length
decreasing_by
  rename_i hinput
  have hlength : 0 < input.length := List.length_pos_iff.mpr hinput
  have hroom := le_grownSize size before
  simp only [List.length_drop, base64MaxInputForSize]
  omega

theorem WordFits.of_mem (h : 61 ∈ before) (size : Nat) (input : List UInt8) :
    WordFits size before input := by
  induction size, before, input using WordFits.induct with
  | case1 size before =>
    rw [WordFits, if_pos rfl]
    trivial
  | case2 size before input hinput room chunkSize ih =>
    rw [WordFits, if_neg hinput]
    exact ⟨.of_mem h _ _, ih (List.mem_append_left _ h)⟩

/-- The decoder and the buffer agree with the text that was read so far. -/
theorem decodeChunks_ne_abort_iff (h : Carries data before) {buf : DecodeBuf}
    (hused : buf.octets.length = usedBytes before) (input : List UInt8) :
    (decodeChunks base64Decoder data buf input).1 ≠ .error .abort ↔
      WordFits buf.size before input := by
  induction hsize : buf.size, before, input using WordFits.induct generalizing data buf with
  | case1 size before =>
    rw [decodeChunks, if_pos rfl, WordFits, if_pos rfl]
    exact iff_of_true nofun trivial
  | case2 size before input hinput room chunkSize =>
    rename_i ih
    subst hsize
    have hgrown : (buf.ensureRoom 8).size = grownSize buf.size before := by
      simp only [DecodeBuf.ensureRoom, grownSize, hused]
    have hroom : (buf.ensureRoom 8).room = room := by
      show (buf.ensureRoom 8).size - buf.octets.length = _
      rw [hgrown, hused]
    have habort := h.decodeInto_eq_abort_iff room (input.take chunkSize)
    have hdecodes := h.decode (input.take chunkSize)
    rw [decodeChunks, if_neg hinput, WordFits, if_neg hinput]
    dsimp only
    rw [hroom, show min (base64Decoder.chunkSize room) input.length = chunkSize from rfl,
      show base64Decoder.decode data (input.take chunkSize) =
        base64Decode data (input.take chunkSize) from rfl]
    change _ ↔ CallFits room before (input.take chunkSize) ∧ _
    cases hdecode : decodeInto room (base64Decode data (input.take chunkSize)) with
    | error e =>
      cases e with
      | abort => exact iff_of_false (fun hne => hne rfl) fun hfits => habort.mp hdecode hfits.1
      | reject =>
        obtain ⟨e, hvalue⟩ := decodeInto_eq_reject hdecode
        refine iff_of_true nofun ⟨?_, .of_mem (hdecodes.padded e hvalue) _ _⟩
        by_contra hover
        cases hdecode.symm.trans (habort.mpr hover)
    | ok result =>
      obtain ⟨data', octets⟩ := result
      obtain ⟨hvalue, rfl⟩ := decodeInto_eq_ok hdecode
      have hfits : CallFits room before (input.take chunkSize) := by
        by_contra hover
        cases hdecode.symm.trans (habort.mpr hover)
      have hmono := Nat.div_le_div_right (c := 4) (letters_mono before (input.take chunkSize))
      dsimp only
      rw [@ih data' (hdecodes.carries data' hvalue) ((buf.ensureRoom 8).push _) ?_ hgrown]
      · exact (and_iff_right hfits).symm
      · show (buf.octets ++ _).length = _
        rw [List.length_append, hused, hdecodes.written]
        unfold usedBytes
        omega

theorem processBase64_ne_abort_iff (size : Nat) (text : List UInt8) :
    (processBase64 { size } text).1 ≠ .error .abort ↔ WordFits size [] text := by
  rw [← @decodeChunks_ne_abort_iff _ _ carries_start { size } rfl]
  unfold processBase64
  rcases decodeChunks base64Decoder {} { size } text with ⟨e | data, buf⟩
  · simp
  · refine iff_of_true ?_ nofun
    dsimp only
    split <;> nofun

/-! ## 4. The body of a mail -/

/-- The chunks of a call of `handle_content_base64` fit. -/
def PieceFits (before input : List UInt8) : Prop :=
  if input = [] then True
  else
    CallFits contentBufSize before (input.take base64Content.chunkSize) ∧
      PieceFits (before ++ input.take base64Content.chunkSize)
        (input.drop base64Content.chunkSize)
termination_by input.length
decreasing_by
  rename_i hinput
  have hlength : 0 < input.length := List.length_pos_iff.mpr hinput
  have hchunk := base64Content.chunkSize_pos
  rw [List.length_drop]
  omega

/-- The chunks of all calls of `handle_content_base64` fit. -/
def BodyFits (before : List UInt8) : List (List UInt8) → Prop
  | [] => True
  | piece :: pieces => PieceFits before piece ∧ BodyFits (before ++ piece) pieces

theorem PieceFits.of_mem (h : 61 ∈ before) (input : List UInt8) : PieceFits before input := by
  induction before, input using PieceFits.induct with
  | case1 before =>
    rw [PieceFits, if_pos rfl]
    trivial
  | case2 before input hinput ih =>
    rw [PieceFits, if_neg hinput]
    exact ⟨.of_mem h _ _, ih (List.mem_append_left _ h)⟩

theorem BodyFits.of_mem (h : 61 ∈ before) (pieces : List (List UInt8)) :
    BodyFits before pieces := by
  induction pieces generalizing before with
  | nil => trivial
  | cons piece pieces ih => exact ⟨.of_mem h piece, ih (List.mem_append_left _ h)⟩

/-- What a call has done that did not write behind its buffer. -/
theorem Carries.contentChunks (h : Carries data before) (input : List UInt8) :
    let x := contentChunks base64Content contentBufSize data input
    (x.value ≠ .error .overrun ↔ PieceFits before input) ∧
      (∀ data', x.value = .ok data' → Carries data' (before ++ input)) ∧
      ∀ e, x.value = .error e → e ≠ .overrun → 61 ∈ before ++ input := by
  induction before, input using PieceFits.induct generalizing data with
  | case1 before =>
    rw [MailParser.contentChunks, if_pos rfl, PieceFits, if_pos rfl]
    refine ⟨iff_of_true nofun trivial, fun _ hdata => ?_, nofun⟩
    obtain rfl := Except.ok.inj hdata
    rwa [List.append_nil]
  | case2 before input hinput ih =>
    have hchunk := h.decode (input.take base64Content.chunkSize)
    have habort := h.decodeInto_eq_abort_iff contentBufSize (input.take base64Content.chunkSize)
    have hwhole : before ++ input = before ++ input.take base64Content.chunkSize ++
        input.drop base64Content.chunkSize := by
      rw [List.append_assoc, List.take_append_drop]
    rw [MailParser.contentChunks, if_neg hinput, PieceFits, if_neg hinput, contentChunk,
      show base64Content.decode data (input.take base64Content.chunkSize) =
        base64Decode data (input.take base64Content.chunkSize) from rfl]
    cases hdecode : decodeInto contentBufSize
        (base64Decode data (input.take base64Content.chunkSize)) with
    | error e =>
      cases e with
      | abort =>
        refine ⟨iff_of_false (fun hne => hne rfl) fun hfits => habort.mp hdecode hfits.1, nofun,
          fun e he hne => ?_⟩
        exact absurd (Except.error.inj he).symm hne
      | reject =>
        obtain ⟨e, hvalue⟩ := decodeInto_eq_reject hdecode
        have hpadded := hchunk.padded e hvalue
        refine ⟨iff_of_true nofun ⟨?_, .of_mem hpadded _⟩, nofun, fun _ _ _ => ?_⟩
        · by_contra hover
          cases hdecode.symm.trans (habort.mpr hover)
        · rw [hwhole]
          exact List.mem_append_left _ hpadded
    | ok result =>
      obtain ⟨data', octets⟩ := result
      obtain ⟨hvalue, rfl⟩ := decodeInto_eq_ok hdecode
      have hfits : CallFits contentBufSize before (input.take base64Content.chunkSize) := by
        by_contra hover
        cases hdecode.symm.trans (habort.mpr hover)
      obtain ⟨hiff, hcarries, hpadded⟩ := ih (hchunk.carries data' hvalue)
      rw [hwhole, and_iff_right hfits]
      exact ⟨hiff, hcarries, hpadded⟩

theorem handleContent_ne_overrun_iff {parser : MailParser} (hencoding : parser.encoding = .base64)
    (h : Carries parser.base64Data before) (pieces : List (List UInt8)) :
    (pieces.foldlM (handleContent contentBufSize) parser).value ≠ .error .overrun ↔
      BodyFits before pieces := by
  induction pieces generalizing parser before with
  | nil => exact iff_of_true nofun trivial
  | cons piece pieces ih =>
    obtain ⟨hiff, hcarries, hpadded⟩ := h.contentChunks piece
    have hcontent : parser.handleContent contentBufSize piece =
        (contentChunks base64Content contentBufSize parser.base64Data piece >>=
          fun base64Data => pure { parser with base64Data }) := by
      unfold handleContent
      rw [hencoding]
    rw [List.foldlM_cons, hcontent, bind_assoc, BodyFits, ← hiff]
    cases hvalue : (contentChunks base64Content contentBufSize parser.base64Data piece).value with
    | error e =>
      rw [value_bind_of_error hvalue]
      by_cases hover : e = .overrun
      · subst hover
        exact iff_of_false (fun hne => hne rfl) fun hne => hne.1 rfl
      · have hne : (.error e : Except MailStop MailParser) ≠ .error .overrun :=
          fun heq => hover (Except.error.inj heq)
        have hne' : (.error e : Except MailStop Base64Data) ≠ .error .overrun :=
          fun heq => hover (Except.error.inj heq)
        exact iff_of_true hne ⟨hne', .of_mem (hpadded e hvalue hover) pieces⟩
    | ok data' =>
      rw [value_bind_of_ok hvalue, pure_bind, @ih (before ++ piece)
        { parser with base64Data := data' } hencoding (hcarries data' hvalue)]
      exact (and_iff_right nofun).symm

/-- No call of `ntb_base64_decode` writes behind the free space that its chunk was chosen for,
exactly if the characters that are carried over never make up a group too many with those of the
chunk: in a word of a header, whatever block was left by the words before it, and in a mail body,
whatever pieces it comes in. -/
theorem base64_fits_iff (parser : MailParser) :
    (∀ size text, (processBase64 { size } text).1 ≠ .error .abort ↔ WordFits size [] text) ∧
      ∀ pieces : List (List UInt8),
        (pieces.foldlM (handleContent contentBufSize)
            { parser with encoding := .base64, base64Data := {} }).value ≠ .error .overrun ↔
          BodyFits [] pieces :=
  ⟨processBase64_ne_abort_iff, fun pieces =>
    handleContent_ne_overrun_iff rfl carries_start pieces⟩

/-- A word of 48 characters: the third call has 17 bytes of free space and gets 22 characters, with
three carried over, and writes 18 bytes.  A mail body whose second piece fills a chunk writes 513
bytes behind three characters of the first. -/
theorem base64_overruns :
    (processBase64 {} (List.replicate 48 65)).1 = .error .abort ∧
      (([List.replicate 3 65, List.replicate 682 65] : List (List UInt8)).foldlM
        (handleContent contentBufSize) ({ encoding := .base64 } : MailParser)).value =
          .error .overrun := by
  constructor
  · by_contra hne
    have hfits := (processBase64_ne_abort_iff 0 _).mp hne
    rw [WordFits, if_neg (by decide)] at hfits
    have hfits := hfits.2
    rw [WordFits, if_neg (by decide +kernel)] at hfits
    have hfits := hfits.2
    rw [WordFits, if_neg (by decide +kernel)] at hfits
    have hcall := hfits.1
    revert hcall
    decide +kernel
  · by_contra hne
    have hfits := (handleContent_ne_overrun_iff rfl carries_start _).mp hne
    have hpiece := hfits.2.1
    rw [PieceFits, if_neg (by decide +kernel)] at hpiece
    have hcall := hpiece.1
    revert hcall
    decide +kernel

end Notbit.Mail
