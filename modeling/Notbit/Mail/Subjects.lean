import Notbit.Mail.EncodedWordsCopy
import Notbit.Mail.Headers
import Notbit.Mail.SaveMessage

/-!
# Subjects — subjects that are written as encoded words (`ntb-save-message.c`)

The words of a subject stand on lines of their own.  Unfolded there is a single space between them,
which the decoder leaves out.
-/

open Bytes Streams Streams.Emits Traced Notbit.Proto

namespace Notbit.Mail

/-! ## 1. The words of a subject -/

/-- The word for some bytes. -/
def subjectWord (chunk : List UInt8) : List UInt8 :=
  ascii "=?UTF-8?B?" ++ base64Encode chunk ++ ascii "?="

/-- The words of a subject. -/
def subjectWords (subject : List UInt8) : List (List UInt8) :=
  subjectWord (subject.take maxChunkLength) ::
    if subject.drop maxChunkLength = [] then [] else subjectWords (subject.drop maxChunkLength)
termination_by subject.length
decreasing_by
  rename_i hmore
  rw [List.drop_eq_nil_iff] at hmore
  rw [List.length_drop]
  have hpos : 0 < maxChunkLength := by decide
  omega

variable {subject : List UInt8}

theorem subjectWords_ne_nil (subject : List UInt8) : subjectWords subject ≠ [] := by
  rw [subjectWords]
  exact List.cons_ne_nil _ _

theorem subjectWords_of_short (h : subject.drop maxChunkLength = []) :
    subjectWords subject = [subjectWord subject] := by
  rw [subjectWords, if_pos h, List.take_of_length_le (List.drop_eq_nil_iff.mp h)]

theorem subjectWords_of_long (h : subject.drop maxChunkLength ≠ []) :
    subjectWords subject = subjectWord (subject.take maxChunkLength) ::
      subjectWords (subject.drop maxChunkLength) := by
  rw [subjectWords, if_neg h]

theorem flatten_writeEncodedWords (subject : List UInt8) :
    (writeEncodedWords subject).flatten = (ascii "\n ").intercalate (subjectWords subject) := by
  induction subject using writeEncodedWords.induct with
  | case1 subject ih =>
    rw [writeEncodedWords]
    by_cases hmore : subject.drop maxChunkLength = []
    · rw [if_pos hmore, subjectWords, if_pos hmore]
      simp [subjectWord]
    · rw [if_neg hmore, subjectWords_of_long hmore,
        List.intercalate_cons_of_ne_nil (subjectWords_ne_nil _), ← ih hmore]
      simp [subjectWord]

-- The characters of a word.
theorem mem_base64Encode {ch : UInt8} {bytes : List UInt8} (h : ch ∈ base64Encode bytes) :
    base64Significant ch = true := by
  rw [← filter_base64Encode] at h
  exact (List.mem_filter.mp h).2

theorem mem_subjectWord {ch : UInt8} {chunk : List UInt8} (h : ch ∈ subjectWord chunk) :
    ¬ asciiIsLwsp ch = true ∧ ch ≠ 10 := by
  rcases List.mem_append.mp h with hfront | hmarker
  · rcases List.mem_append.mp hfront with hstart | htext
    · have hall : ∀ ch ∈ ascii "=?UTF-8?B?", ¬ asciiIsLwsp ch = true ∧ ch ≠ 10 :=
        List.all_iff_forall_prop.mp rfl
      exact hall ch hstart
    · have hsignificant := mem_base64Encode htext
      refine ⟨fun hlwsp => ?_, ?_⟩
      · rcases (by simpa [asciiIsLwsp] using hlwsp : ch = 32 ∨ ch = 9) with rfl | rfl
        · revert hsignificant
          decide
        · revert hsignificant
          decide
      · rintro rfl
        revert hsignificant
        decide
  · have hall : ∀ ch ∈ ascii "?=", ¬ asciiIsLwsp ch = true ∧ ch ≠ 10 :=
      List.all_iff_forall_prop.mp rfl
    exact hall ch hmarker

/-- Unfolded there are single spaces between the words. -/
theorem foldl_words {words : List (List UInt8)} (hwords : words ≠ [])
    (h : ∀ word ∈ words, word ≠ [] ∧ ∀ ch ∈ word, ¬ asciiIsLwsp ch = true ∧ ch ≠ 10)
    (buffer : List UInt8) :
    (((ascii "\n ").intercalate words).filter (· ≠ 10)).foldl pushValue buffer =
      buffer ++ [32].intercalate words := by
  induction words generalizing buffer with
  | nil => exact absurd rfl hwords
  | cons word words ih =>
    rw [List.forall_mem_cons] at h
    obtain ⟨⟨hne, hword⟩, hrest⟩ := h
    have hfilter : word.filter (· ≠ 10) = word := by
      rw [List.filter_eq_self]
      exact fun ch hch => decide_eq_true (hword ch hch).2
    cases words with
    | nil =>
      rw [List.intercalate_singleton, List.intercalate_singleton, hfilter,
        foldl_pushValue fun ch hch => (hword ch hch).1]
    | cons next words =>
      have hlast : (buffer ++ word).getLast? ≠ some 32 := by
        rw [List.getLast?_append_of_ne_nil _ hne]
        intro hspace
        have hmem := List.mem_of_getLast? hspace
        exact (hword 32 hmem).1 (by decide)
      have hpush : pushValue (buffer ++ word) 32 = buffer ++ word ++ [32] := by
        rw [pushValue, if_pos (by decide), if_pos (Or.inr hlast)]
      rw [List.intercalate_cons_cons, List.intercalate_cons_cons, List.filter_append,
        List.filter_append, List.foldl_append, List.foldl_append, hfilter,
        foldl_pushValue fun ch hch => (hword ch hch).1,
        show (ascii "\n ").filter (· ≠ 10) = [32] from by decide, List.foldl_cons, List.foldl_nil,
        hpush, ih (List.cons_ne_nil _ _) hrest]
      simp

theorem mem_subjectWords {word : List UInt8} (h : word ∈ subjectWords subject) :
    ∃ chunk, word = subjectWord chunk ∧ chunk.length ≤ maxChunkLength := by
  induction subject using subjectWords.induct with
  | case1 subject ih =>
    rw [subjectWords] at h
    rcases List.mem_cons.mp h with rfl | h
    · exact ⟨_, rfl, by rw [List.length_take]; exact Nat.min_le_left _ _⟩
    · split at h
      · cases h
      · rename_i hmore
        exact ih hmore h

theorem unfolded_writeEncodedWords (subject : List UInt8) :
    unfolded (writeEncodedWords subject).flatten = [32].intercalate (subjectWords subject) := by
  rw [unfolded, flatten_writeEncodedWords, foldl_words (subjectWords_ne_nil subject),
    List.nil_append]
  intro word hword
  obtain ⟨chunk, rfl, -⟩ := mem_subjectWords hword
  refine ⟨?_, fun ch => mem_subjectWord⟩
  unfold subjectWord
  simp [ascii]

theorem length_subjectWord {chunk : List UInt8} (h : chunk.length ≤ maxChunkLength) :
    (subjectWord chunk).length ≤ 64 := by
  have hmax : chunk.length ≤ 39 := h
  rw [subjectWord, List.length_append, List.length_append, length_base64Encode,
    show (ascii "=?UTF-8?B?").length = 10 from rfl, show (ascii "?=").length = 2 from rfl]
  omega

theorem intercalate_lines (word : List UInt8) (words : List (List UInt8)) :
    (ascii "\n ").intercalate (word :: words) =
      [10].intercalate (word :: words.map (32 :: ·)) := by
  induction words generalizing word with
  | nil => rw [List.map_nil, List.intercalate_singleton, List.intercalate_singleton]
  | cons next words ih =>
    rw [List.intercalate_cons_cons, ih next, List.map_cons, List.intercalate_cons_cons,
      List.intercalate_cons_cons_left, show ascii "\n " = [10, 32] from rfl]
    simp

theorem append_intercalate (front line : List UInt8) (lines : List (List UInt8)) :
    front ++ [10].intercalate (line :: lines) = [10].intercalate ((front ++ line) :: lines) := by
  cases lines with
  | nil => rw [List.intercalate_singleton, List.intercalate_singleton]
  | cons next lines => simp

/-- No line is too long, with the name of the header in front of the first one. -/
theorem length_lines (subject : List UInt8) :
    ∀ line ∈ (ascii "Subject: " ++ (writeEncodedWords subject).flatten).splitOn 10,
      line.length ≤ 76 := by
  obtain ⟨first, rest, hwords⟩ := List.exists_cons_of_ne_nil (subjectWords_ne_nil subject)
  have hfirst : first ∈ subjectWords subject := hwords ▸ List.mem_cons_self
  have hrest : ∀ word ∈ rest, word ∈ subjectWords subject := fun word hword =>
    hwords ▸ List.mem_cons_of_mem _ hword
  have hshort : ∀ word ∈ subjectWords subject, word.length ≤ 64 ∧ 10 ∉ word := by
    intro word hword
    obtain ⟨chunk, rfl, hchunk⟩ := mem_subjectWords hword
    exact ⟨length_subjectWord hchunk, fun hmem => (mem_subjectWord hmem).2 rfl⟩
  have hlines : ∀ line ∈ (ascii "Subject: " ++ first) :: rest.map (32 :: ·),
      line.length ≤ 76 ∧ 10 ∉ line := by
    intro line hline
    rcases List.mem_cons.mp hline with rfl | hline
    · obtain ⟨hlength, hmem⟩ := hshort first hfirst
      refine ⟨?_, ?_⟩
      · rw [List.length_append, show (ascii "Subject: ").length = 9 from rfl]
        omega
      · rw [List.mem_append, not_or]
        exact ⟨by decide, hmem⟩
    · obtain ⟨word, hword, rfl⟩ := List.mem_map.mp hline
      obtain ⟨hlength, hmem⟩ := hshort word (hrest word hword)
      refine ⟨?_, ?_⟩
      · rw [List.length_cons]
        omega
      · rw [List.mem_cons, not_or]
        exact ⟨by decide, hmem⟩
  rw [flatten_writeEncodedWords, hwords, intercalate_lines, append_intercalate,
    List.splitOn_intercalate 10 (fun line hline => (hlines line hline).2) (List.cons_ne_nil _ _)]
  exact fun line hline => (hlines line hline).1

/-! ## 2. The text of a word -/

/-- The characters of the alphabet and the padding. -/
theorem base64Encode_eq_map (bytes : List UInt8) :
    ∃ (values : List Nat) (padding : Nat),
      base64Encode bytes = values.map toAlphabetValue ++ List.replicate padding 61 ∧
      (∀ v ∈ values, v < 64) ∧ values.length = (bytes.length * 4 + 2) / 3 := by
  induction bytes using base64Encode.induct with
  | case1 a b c rest ih =>
    obtain ⟨values, padding, htext, hsmall, hlength⟩ := ih
    have ha := a.toNat_lt
    have hb := b.toNat_lt
    have hc := c.toNat_lt
    refine ⟨[a.toNat / 4, a.toNat % 4 * 16 + b.toNat / 16, b.toNat % 16 * 4 + c.toNat / 64,
      c.toNat % 64] ++ values, padding, ?_, ?_, ?_⟩
    · rw [base64Encode_cons, htext, List.map_append, List.append_assoc]
    · simp only [List.cons_append, List.nil_append, List.forall_mem_cons]
      exact ⟨by omega, by omega, by omega, by omega, hsmall⟩
    · rw [List.length_append, hlength]
      simp only [List.length_cons, List.length_nil]
      omega
  | case2 => exact ⟨[], 0, rfl, by simp, rfl⟩
  | case3 a =>
    have ha := a.toNat_lt
    refine ⟨[a.toNat / 4, a.toNat % 4 * 16], 2, base64Encode_single a, ?_, by simp⟩
    simp only [List.forall_mem_cons]
    exact ⟨by omega, by omega, by simp⟩
  | case4 a b =>
    have ha := a.toNat_lt
    have hb := b.toNat_lt
    refine ⟨[a.toNat / 4, a.toNat % 4 * 16 + b.toNat / 16, b.toNat % 16 * 4], 1,
      base64Encode_pair a b, ?_, by simp⟩
    simp only [List.forall_mem_cons]
    exact ⟨by omega, by omega, by omega, by simp⟩

theorem not_mem_map_toAlphabetValue {values : List Nat} (h : ∀ v ∈ values, v < 64) :
    61 ∉ values.map toAlphabetValue := by
  intro hmem
  obtain ⟨v, hv, hequals⟩ := List.mem_map.mp hmem
  exact toAlphabetValue_ne_equals (h v hv) hequals

theorem letters_map_toAlphabetValue {values : List Nat} (h : ∀ v ∈ values, v < 64) :
    letters (values.map toAlphabetValue) = values.length := by
  induction values with
  | nil => rfl
  | cons v values ih =>
    rw [List.forall_mem_cons] at h
    have hv : 61 ∉ [toAlphabetValue v] := by
      rw [List.mem_singleton]
      exact (toAlphabetValue_ne_equals h.1).symm
    rw [List.map_cons, ← List.singleton_append, letters_append_of_not_mem hv, letters_singleton,
      alphabetValue_toAlphabetValue h.1, ih h.2, List.length_cons, Nat.add_comm]
    rfl

-- How many of them are in the first characters of a text.
theorem letters_take_base64Encode (bytes : List UInt8) (k : Nat) :
    letters ((base64Encode bytes).take k) = min k ((bytes.length * 4 + 2) / 3) := by
  obtain ⟨values, padding, htext, hsmall, hlength⟩ := base64Encode_eq_map bytes
  have htake : ∀ v ∈ values.take k, v < 64 := fun v hv => hsmall v (List.mem_of_mem_take hv)
  have hpadding : ∀ n, letters (List.replicate n 61) = 0 := by
    intro n
    cases n with
    | zero => rfl
    | succ n => rw [letters, List.replicate_succ, List.takeWhile_cons_of_neg (by decide)]; rfl
  rw [htext, List.take_append, ← List.map_take, List.take_replicate,
    letters_append_of_not_mem (not_mem_map_toAlphabetValue htake),
    letters_map_toAlphabetValue htake, hpadding, List.length_take, hlength, Nat.add_zero]

/-! ## 3. The block for a decoded word -/

variable {chunk : List UInt8} {size : Nat}

theorem usedBytes_take (chunk : List UInt8) (a : Nat) :
    usedBytes ((base64Encode chunk).take a) = 3 * (min a ((chunk.length * 4 + 2) / 3) / 4) := by
  rw [usedBytes, letters_take_base64Encode]

/-- The block has that size for a call that comes when `a` characters have been read. -/
def Grows (size : Nat) (chunk : List UInt8) (a size' : Nat) : Prop :=
  doubledSize (3 * (min a ((chunk.length * 4 + 2) / 3) / 4) + 8)
    (3 * (min a ((chunk.length * 4 + 2) / 3) / 4) + 8) (max size 1) = size'

theorem Grows.grownSize_take {a size' : Nat} (h : Grows size chunk a size') :
    grownSize size ((base64Encode chunk).take a) = size' := by
  rw [grownSize, usedBytes_take]
  exact h

-- A call on the text of a word.
theorem wordFits_call {a size' n room : Nat} (hgrows : Grows size chunk a size')
    (hroom : size' - 3 * (min a ((chunk.length * 4 + 2) / 3) / 4) = room)
    (h : a < (base64Encode chunk).length)
    (hn : min (base64MaxInputForSize room) ((base64Encode chunk).length - a) = n) :
    WordFits size ((base64Encode chunk).take a) ((base64Encode chunk).drop a) ↔
      min a ((chunk.length * 4 + 2) / 3) % 4 +
          (min (a + n) ((chunk.length * 4 + 2) / 3) - min a ((chunk.length * 4 + 2) / 3)) <
        4 * (room / 3 + 1) ∧
      WordFits size' ((base64Encode chunk).take (a + n)) ((base64Encode chunk).drop (a + n)) := by
  have hne : (base64Encode chunk).drop a ≠ [] := by
    rw [ne_eq, List.drop_eq_nil_iff]
    omega
  have htake : (base64Encode chunk).take a ++ ((base64Encode chunk).drop a).take n =
      (base64Encode chunk).take (a + n) := List.take_add.symm
  rw [WordFits, if_neg hne, hgrows.grownSize_take, usedBytes_take, hroom, List.length_drop]
  dsimp only
  rw [hn, CallFits, newLetters, List.drop_drop, htake, letters_take_base64Encode,
    letters_take_base64Encode]

-- A call that reads all of the rest, and one that does not.
theorem wordFits_last {a size' room : Nat} (hgrows : Grows size chunk a size')
    (hroom : size' - 3 * (min a ((chunk.length * 4 + 2) / 3) / 4) = room)
    (hlast : (base64Encode chunk).length - a ≤ base64MaxInputForSize room)
    (hfits : min a ((chunk.length * 4 + 2) / 3) % 4 +
      ((chunk.length * 4 + 2) / 3 - min a ((chunk.length * 4 + 2) / 3)) < 4 * (room / 3 + 1)) :
    WordFits size ((base64Encode chunk).take a) ((base64Encode chunk).drop a) := by
  by_cases h : a < (base64Encode chunk).length
  · have hend : (base64Encode chunk).drop (a + ((base64Encode chunk).length - a)) = [] :=
      List.drop_eq_nil_of_le (by omega)
    rw [wordFits_call hgrows hroom h (Nat.min_eq_right hlast), hend, WordFits, if_pos rfl]
    rw [length_base64Encode] at h ⊢
    refine ⟨?_, trivial⟩
    rwa [Nat.min_eq_right (by omega : (chunk.length * 4 + 2) / 3 ≤ a + _)]
  · rw [List.drop_eq_nil_of_le (by omega), WordFits, if_pos rfl]
    trivial

theorem wordFits_next {a size' room n : Nat} (hgrows : Grows size chunk a size')
    (hroom : size' - 3 * (min a ((chunk.length * 4 + 2) / 3) / 4) = room)
    (hn : base64MaxInputForSize room = n) (h : a + n < (base64Encode chunk).length) :
    WordFits size ((base64Encode chunk).take a) ((base64Encode chunk).drop a) ↔
      min a ((chunk.length * 4 + 2) / 3) % 4 +
          (min (a + n) ((chunk.length * 4 + 2) / 3) - min a ((chunk.length * 4 + 2) / 3)) <
        4 * (room / 3 + 1) ∧
      WordFits size' ((base64Encode chunk).take (a + n)) ((base64Encode chunk).drop (a + n)) :=
  wordFits_call hgrows hroom (by omega) (by rw [hn]; exact Nat.min_eq_left (by omega))

/-- A fresh block fits the text of 32 bytes: there are calls for 10, 13 and 22 characters. -/
theorem wordFits_fresh_iff (chunk : List UInt8) :
    WordFits 0 [] (base64Encode chunk) ↔ chunk.length < 33 := by
  have htext := length_base64Encode chunk
  show WordFits 0 ((base64Encode chunk).take 0) ((base64Encode chunk).drop 0) ↔ _
  have hgrows : Grows 0 chunk 0 8 := by
    rw [Grows, Nat.zero_min]
    rfl
  have hroom : 8 - 3 * (min 0 ((chunk.length * 4 + 2) / 3) / 4) = 8 := by omega
  by_cases h10 : (base64Encode chunk).length ≤ 10
  · exact iff_of_true (wordFits_last hgrows hroom h10 (by omega)) (by omega)
  have h10' : min (0 + 10) ((chunk.length * 4 + 2) / 3) = 10 := by omega
  rw [wordFits_next hgrows hroom (show base64MaxInputForSize 8 = 10 from rfl) (by omega),
    and_iff_right (by omega)]
  have hgrows₁ : Grows 8 chunk (0 + 10) 16 := by
    rw [Grows, h10']
    rfl
  have hroom₁ : 16 - 3 * (min (0 + 10) ((chunk.length * 4 + 2) / 3) / 4) = 10 := by omega
  by_cases h23 : (base64Encode chunk).length ≤ 23
  · refine iff_of_true (wordFits_last hgrows₁ hroom₁ ?_ (by omega)) (by omega)
    show _ ≤ 10 * 4 / 3
    omega
  rw [wordFits_next hgrows₁ hroom₁ (show base64MaxInputForSize 10 = 13 from rfl) (by omega),
    and_iff_right (by omega)]
  have hused : 3 * (min (0 + 10 + 13) ((chunk.length * 4 + 2) / 3) / 4) = 15 := by omega
  have hgrows₂ : Grows 16 chunk (0 + 10 + 13) 32 := by
    rw [Grows, hused]
    rfl
  have hroom₂ : 32 - 3 * (min (0 + 10 + 13) ((chunk.length * 4 + 2) / 3) / 4) = 17 := by omega
  by_cases hfits : chunk.length < 33
  · refine iff_of_true (wordFits_last hgrows₂ hroom₂ ?_ (by omega)) hfits
    show _ ≤ 17 * 4 / 3
    omega
  · refine iff_of_false ?_ hfits
    rw [wordFits_call hgrows₂ hroom₂ (by omega) rfl]
    rintro ⟨hcall, -⟩
    change _ + (min (_ + min (17 * 4 / 3) _) _ - _) < _ at hcall
    omega

/-! ## 4. Words are decoded -/

section Chunks

variable {δ : Type} {decoder : WordDecoder δ} {step : δ → UInt8 → Emits Unit UInt8 δ}
  {data data' : δ} {input : List UInt8}

theorem le_doubledSize_start (size rounds newSize : Nat) :
    newSize ≤ doubledSize size rounds newSize := by
  induction rounds generalizing newSize with
  | zero => exact le_refl _
  | succ rounds ih =>
    rw [doubledSize]
    split
    · exact (Nat.le_mul_of_pos_right _ (by decide)).trans (ih _)
    · exact le_refl _

theorem size_le_ensureRoom (buf : DecodeBuf) (room : Nat) : buf.size ≤ (buf.ensureRoom room).size :=
  (le_max_left _ _).trans (le_doubledSize_start _ _ _)

/-- What can be decoded is decoded unless the block is too small. -/
theorem decodeChunks_of_value
    (hstep : ∀ data input, decoder.decode data input = input.foldlM step data) {buf : DecodeBuf}
    (hvalue : (input.foldlM step data).value = .ok data')
    (hfits : (decodeChunks decoder data buf input).1 ≠ .error .abort) :
    ∃ buf', decodeChunks decoder data buf input = (.ok data', buf') ∧ buf.size ≤ buf'.size := by
  fun_induction decodeChunks decoder data buf input with
  | case1 data buf =>
    cases hvalue
    exact ⟨buf, rfl, le_refl _⟩
  | case2 data buf input hinput grown chunkSize e hdecode =>
    cases e with
    | abort => exact absurd rfl hfits
    | reject =>
      obtain ⟨e, herror⟩ := decodeInto_eq_reject hdecode
      rw [hstep] at herror
      rw [← List.take_append_drop chunkSize input, List.foldlM_append,
        value_bind_of_error herror] at hvalue
      cases hvalue
  | case3 data buf input hinput grown chunkSize data₁ octets hdecode ih =>
    obtain ⟨hchunk, -⟩ := decodeInto_eq_ok hdecode
    rw [hstep] at hchunk
    rw [← List.take_append_drop chunkSize input, List.foldlM_append,
      value_bind_of_ok hchunk] at hvalue
    obtain ⟨buf', hrest, hsize⟩ := ih hvalue hfits
    exact ⟨buf', hrest, (size_le_ensureRoom buf 8).trans hsize⟩

end Chunks

theorem processBase64_of_fits {text bytes : List UInt8} (hfits : WordFits size [] text)
    (hdecode : base64DecodeChunks [text] = some bytes) :
    ∃ buf, processBase64 { size } text = (.ok (), buf) ∧ buf.octets = bytes ∧ size ≤ buf.size := by
  have hnot := (processBase64_ne_abort_iff size text).mpr hfits
  have hwhole := hdecode
  unfold base64DecodeChunks at hdecode
  dsimp only at hdecode
  rw [foldlM_base64Decode, List.flatten_singleton] at hdecode
  split at hdecode
  next data hvalue =>
    obtain ⟨last, hend, -⟩ := Option.map_eq_some_iff.mp hdecode
    have hchunks := (@decodeChunks_ne_abort_iff [] {} carries_start { size } rfl text).mpr hfits
    obtain ⟨used, hused, hsize⟩ := decodeChunks_of_value base64Decode_eq hvalue hchunks
    have hprocess : processBase64 { size } text = (.ok (), (used.ensureRoom 3).push last) := by
      unfold processBase64
      rw [hused]
      dsimp only
      rw [hend]
    refine ⟨_, hprocess, ?_, hsize.trans (size_le_ensureRoom used 3)⟩
    exact Option.some.inj ((processBase64_ok hprocess rfl).symm.trans hwhole)
  next => cases hdecode

/-- What stands behind the start of the word. -/
def subjectWordRest (chunk : List UInt8) : List UInt8 :=
  ascii "UTF-8?B?" ++ base64Encode chunk ++ ascii "?="

theorem findString_append {first : UInt8} {needle before : List UInt8} (h : first ∉ before)
    (more : List UInt8) :
    findString (first :: needle) (before ++ (first :: needle ++ more)) = some before.length := by
  induction before with
  | nil =>
    rw [List.nil_append, List.cons_append, findString]
    exact if_pos (List.prefix_append (first :: needle) more)
  | cons ch before ih =>
    rw [List.mem_cons, not_or] at h
    have hnot : ¬ first :: needle <+: ch :: (before ++ (first :: needle ++ more)) := by
      intro hprefix
      exact h.1 (List.cons_prefix_cons.mp hprefix).1
    rw [List.cons_append, findString, if_neg hnot, ih h.2]
    rfl

theorem wordStart_of_eq {rest text : List UInt8} (h : rest = ascii "UTF-8?B?" ++ text) :
    ({ buffer := rest, length := rest.length } : EncodedWordsData).wordStart =
      some (.base64, text) := by
  have hascii : lookingAt (ascii "us-ascii?") rest = none := by rw [h]; rfl
  have hutf : lookingAt (ascii "utf-8?") rest = some (ascii "B?" ++ text) := by rw [h]; rfl
  have hq : lookingAt (ascii "q?") (ascii "B?" ++ text) = none := rfl
  have hb : lookingAt (ascii "b?") (ascii "B?" ++ text) = some text := rfl
  unfold EncodedWordsData.wordStart
  rw [show ({ buffer := rest, length := rest.length } : EncodedWordsData).rest = rest from
    List.take_length, hascii, hutf]
  show ((lookingAt (ascii "q?") (ascii "B?" ++ text)).map _ <|>
    (lookingAt (ascii "b?") (ascii "B?" ++ text)).map _) = _
  rw [hq, hb]
  rfl

/-- A word is read if the block is large enough. -/
theorem readWord_subjectWord (chunk more : List UInt8) (buf : DecodeBuf) :
    readWord buf (subjectWordRest chunk ++ more) =
      match processBase64 { size := buf.size } (base64Encode chunk) with
      | (.error .abort, _) => none
      | (.error .reject, buf) => some (none, buf)
      | (.ok (), buf) => some (some (subjectWordRest chunk).length, buf) := by
  have hrest : subjectWordRest chunk ++ more =
      ascii "UTF-8?B?" ++ (base64Encode chunk ++ (ascii "?=" ++ more)) := by
    rw [subjectWordRest, List.append_assoc, List.append_assoc]
  have hquestion : 63 ∉ base64Encode chunk := by
    intro hmem
    have hsignificant := mem_base64Encode hmem
    revert hsignificant
    decide
  have hblank : 32 ∉ base64Encode chunk := by
    intro hmem
    have hsignificant := mem_base64Encode hmem
    revert hsignificant
    decide
  have hfind : findString (ascii "?=") (base64Encode chunk ++ (ascii "?=" ++ more)) =
      some (base64Encode chunk).length := findString_append hquestion more
  have htake : (base64Encode chunk ++ (ascii "?=" ++ more)).take (base64Encode chunk).length =
      base64Encode chunk := List.take_left
  have hn : (subjectWordRest chunk ++ more).length - ((base64Encode chunk ++
      (ascii "?=" ++ more)).drop ((base64Encode chunk).length + 2)).length =
        (subjectWordRest chunk).length := by
    rw [List.length_drop]
    simp only [subjectWordRest, List.length_append, show (ascii "?=").length = 2 from rfl]
    omega
  unfold readWord
  rw [wordStart_of_eq hrest]
  dsimp only
  rw [hfind]
  dsimp only
  rw [htake, if_neg (not_or_intro hblank hquestion), hn]
  rfl

/-- The word at the start of a text, or behind a word and a space. -/
theorem decodeCopy_word {text separator chunk more : List UInt8} {input : Nat} {hadEw : Bool}
    (hdrop : text.drop input = separator ++ (subjectWord chunk ++ more))
    (hseparator : separator = [] ∧ input = 0 ∨ separator = [32] ∧ hadEw = true)
    (buf : DecodeBuf) (output : List UInt8) :
    decodeCopy text input buf hadEw output =
      match readWord buf (subjectWordRest chunk ++ more) with
      | none => none
      | some (some n, buf) =>
        decodeCopy text (input + separator.length + 2 + n) buf true (output ++ buf.octets)
      | some (none, buf) =>
        decodeCopy text (input + separator.length + 2) buf false
          (output ++ separator ++ ascii "=?") := by
  have hword : subjectWord chunk ++ more = ascii "=?" ++ (subjectWordRest chunk ++ more) := by
    rw [subjectWord, subjectWordRest]
    simp only [← List.append_assoc]
    rfl
  have hno : (61 : UInt8) ∉ separator := by
    rcases hseparator with ⟨rfl, -⟩ | ⟨rfl, -⟩ <;> decide
  have hfind : findString (ascii "=?") (text.drop input) = some separator.length := by
    rw [hdrop, hword]
    exact findString_append hno _
  have hrest : text.drop (input + separator.length + 2) = subjectWordRest chunk ++ more := by
    rw [Nat.add_assoc, ← List.drop_drop, hdrop, hword, ← List.append_assoc]
    exact List.drop_left' (by rw [List.length_append]; rfl)
  have hspace : separator = [32] → text[input + separator.length - 1]? = some 32 := by
    rintro rfl
    rw [show input + [(32 : UInt8)].length - 1 = input + 0 from rfl, ← List.getElem?_drop, hdrop]
    rfl
  rw [decodeCopy_of_some hfind, hrest]
  dsimp only
  rcases hseparator with ⟨rfl, rfl⟩ | ⟨rfl, rfl⟩
  · have hkept : (hadEw && decide (([] : List UInt8).length = 1) &&
        decide (text[0 + ([] : List UInt8).length - 1]? = some 32)) = false := by
      rw [show decide (([] : List UInt8).length = 1) = false from rfl, Bool.and_false,
        Bool.false_and]
    have hstart : 0 + ([] : List UInt8).length = 0 := rfl
    rw [if_pos (Or.inl hstart), hkept]
    rcases readWord buf (subjectWordRest chunk ++ more) with _ | ⟨_ | n, buf⟩
    · rfl
    · rfl
    · exact congrArg (fun output => decodeCopy text _ buf true (output ++ buf.octets))
        (List.append_nil output)
  · have hkept : (true && decide ([(32 : UInt8)].length = 1) &&
        decide (text[input + [(32 : UInt8)].length - 1]? = some 32)) = true := by
      rw [hspace rfl]
      rfl
    rw [if_pos (Or.inr (hspace rfl)), hkept, List.append_assoc output]
    rfl

-- A word that is decoded is appended to what there is.
theorem decodeCopy_subjectWord {text separator chunk more : List UInt8} {input : Nat}
    {hadEw : Bool} (hdrop : text.drop input = separator ++ (subjectWord chunk ++ more))
    (hseparator : separator = [] ∧ input = 0 ∨ separator = [32] ∧ hadEw = true)
    {buf : DecodeBuf} (hfits : WordFits buf.size [] (base64Encode chunk)) (output : List UInt8) :
    ∃ buf', buf.size ≤ buf'.size ∧ decodeCopy text input buf hadEw output =
      decodeCopy text (input + (separator ++ subjectWord chunk).length) buf' true
        (output ++ chunk) := by
  have hdecode : base64DecodeChunks [base64Encode chunk] = some chunk := by
    rw [base64DecodeChunks_eq_some_iff, List.flatten_singleton, filter_base64Encode]
  obtain ⟨buf', hprocess, hoctets, hsize⟩ := processBase64_of_fits hfits hdecode
  refine ⟨buf', hsize, ?_⟩
  have hlength : (separator ++ subjectWord chunk).length =
      separator.length + 2 + (subjectWordRest chunk).length := by
    simp only [subjectWord, subjectWordRest, List.length_append,
      show (ascii "=?UTF-8?B?").length = 2 + (ascii "UTF-8?B?").length from rfl]
    omega
  rw [decodeCopy_word hdrop hseparator, readWord_subjectWord, hprocess, hlength]
  dsimp only
  rw [hoctets, Nat.add_assoc, Nat.add_assoc, Nat.add_assoc]

/-! ## 5. Subjects are read back -/

/-- A subject is read back: its lines and the texts of its words are not too long, and unfolded and
decoded they give the subject. -/
structure SubjectRoundTrips (subject : List UInt8) : Prop where
  lines : ∀ line ∈ (ascii "Subject: " ++ (writeEncodedWords subject).flatten).splitOn 10,
    line.length ≤ 76
  words : ∀ word ∈ subjectWords subject, ∃ chunk, word = subjectWord chunk ∧
    (base64Encode chunk).length ≤ (maxChunkLength * 4 + 2) / 3
  decodes : encodedWordsDecode (unfolded (writeEncodedWords subject).flatten) = some subject

-- A first word that is too long for the block.
theorem decodes_of_abort (h : ¬ (subject.take maxChunkLength).length < 33) :
    encodedWordsDecode (unfolded (writeEncodedWords subject).flatten) = none := by
  obtain ⟨more, hmore⟩ : ∃ more, [32].intercalate (subjectWords subject) =
      subjectWord (subject.take maxChunkLength) ++ more := by
    by_cases hmore : subject.drop maxChunkLength = []
    · refine ⟨[], ?_⟩
      rw [subjectWords, if_pos hmore, List.intercalate_singleton, List.append_nil]
    · rw [subjectWords_of_long hmore, List.intercalate_cons_of_ne_nil (subjectWords_ne_nil _),
        List.append_assoc]
      exact ⟨_, rfl⟩
  have habort : ∃ buf, processBase64 {} (base64Encode (subject.take maxChunkLength)) =
      (.error .abort, buf) := by
    have hnot := mt (wordFits_fresh_iff (subject.take maxChunkLength)).mp h
    rw [← processBase64_ne_abort_iff, not_not] at hnot
    exact ⟨_, Prod.ext hnot rfl⟩
  obtain ⟨buf, hprocess⟩ := habort
  have hdrop : (subjectWord (subject.take maxChunkLength) ++ more).drop 0 =
      [] ++ (subjectWord (subject.take maxChunkLength) ++ more) := rfl
  rw [unfolded_writeEncodedWords, encodedWordsDecode_eq_copy, hmore,
    decodeCopy_word hdrop (Or.inl ⟨rfl, rfl⟩), readWord_subjectWord, hprocess]

-- One word that fits the block.
theorem decodes_of_lt (h : subject.length < 33) :
    encodedWordsDecode (unfolded (writeEncodedWords subject).flatten) = some subject := by
  have hshort : subject.drop maxChunkLength = [] := by
    rw [List.drop_eq_nil_iff]
    show _ ≤ 39
    omega
  have hfits : WordFits 0 [] (base64Encode subject) := (wordFits_fresh_iff subject).mpr h
  rw [unfolded_writeEncodedWords, encodedWordsDecode_eq_copy, subjectWords_of_short hshort,
    List.intercalate_singleton, ← List.append_nil (subjectWord subject)]
  have hdrop : (subjectWord subject ++ []).drop 0 = [] ++ (subjectWord subject ++ []) := rfl
  obtain ⟨buf', -, hword⟩ := @decodeCopy_subjectWord _ _ _ _ _ false hdrop (Or.inl ⟨rfl, rfl⟩) {}
    hfits []
  have hend : (subjectWord subject ++ []).drop (0 + ([] ++ subjectWord subject).length) = [] := by
    rw [List.append_nil, List.nil_append, Nat.zero_add, List.drop_length]
  rw [hword, decodeCopy_of_none (by rw [hend]; rfl), hend, List.append_nil, List.nil_append]

/-- A subject is read back unless its first word is decoded to 33 bytes or more, which are too many
for the block the decoder has made for them. -/
theorem subject_roundTrips_iff (subject : List UInt8) :
    SubjectRoundTrips subject ↔ subject.length < 33 := by
  refine ⟨fun h => ?_, fun h => ⟨length_lines subject, fun word hword => ?_, decodes_of_lt h⟩⟩
  · by_contra hlong
    have hnone : encodedWordsDecode (unfolded (writeEncodedWords subject).flatten) = none := by
      apply decodes_of_abort
      rw [List.length_take]
      show ¬ min 39 subject.length < 33
      omega
    exact nomatch hnone.symm.trans h.decodes
  · obtain ⟨chunk, rfl, hchunk⟩ := mem_subjectWords hword
    refine ⟨chunk, rfl, ?_⟩
    rw [← List.take_of_length_le hchunk]
    exact length_base64Encode_chunk chunk

-- A subject of 33 bytes.
theorem long_subject_not_decoded :
    ¬ SubjectRoundTrips (List.replicate 33 0) :=
  fun h => nomatch (@decodes_of_abort (List.replicate 33 0) (by decide)).symm.trans h.decodes

end Notbit.Mail
