import Notbit.Mail.SavedHeaders

/-!
# Replies — addresses that are written are read back

`write_address` has four forms for a label.  Whatever has become of the label when the lines are
joined and the blanks are collapsed, `ntb_parse_addresses` drops it and is left with the address.
-/

open Bytes Streams Streams.Emits Traced Notbit.Proto Notbit.Store HeaderBlocks

namespace Notbit.Mail

variable {ε ω κ : Type}

/-- Whom a header is about: the label of a key, if there is one, and an address that can be read
back. -/
structure Correspondent where
  label : Option (List UInt8)
  address : Address
  version_pos : 1 ≤ address.version

namespace Correspondent

/-- What `write_address` writes. -/
def text (ssl : OpenSSL) (entry : Correspondent) : List UInt8 :=
  (writeAddress entry.label (entry.address.encode ssl)).flatten

/-- The entries with a comma and a space between them. -/
def listText (ssl : OpenSSL) (entries : List Correspondent) : List UInt8 :=
  (ascii ", ").intercalate (entries.map (text ssl))

end Correspondent

/-! ## 1. Values in parts -/

theorem pushValue_ne_nil (buffer : List UInt8) (ch : UInt8) : pushValue buffer ch ≠ [] := by
  unfold pushValue
  split
  next =>
    split
    next => simp
    next h => exact (not_or.mp h).1
  next => simp

-- What is in front of the buffer is only looked at while the buffer is empty.
theorem foldl_pushValue_append {front buffer : List UInt8}
    (h : buffer ≠ [] ∨ front.getLast? ≠ some 32) (text : List UInt8) :
    text.foldl pushValue (front ++ buffer) = front ++ text.foldl pushValue buffer := by
  induction text generalizing buffer with
  | nil => rfl
  | cons ch text ih =>
    have hpush : pushValue (front ++ buffer) ch = front ++ pushValue buffer ch := by
      unfold pushValue
      cases hbuffer : buffer with
      | nil =>
        have hfront := h.resolve_left (by simp [hbuffer])
        rw [List.append_nil, if_pos (Or.inr hfront), if_pos (Or.inl rfl)]
        split <;> rfl
      | cons b rest =>
        have hne : b :: rest ≠ [] := List.cons_ne_nil b rest
        rw [List.getLast?_append_of_ne_nil _ hne]
        split
        · simp only [List.append_eq_nil_iff, hne, and_false, false_or]
          split <;> simp
        · simp
    rw [List.foldl_cons, List.foldl_cons, hpush, ih (.inl (pushValue_ne_nil buffer ch))]

theorem unfolded_append {front text : List UInt8} {ch : UInt8} (h : ¬ asciiIsLwsp ch = true)
    (hne : ch ≠ 10) : unfolded (front ++ ch :: text) = unfolded front ++ unfolded (ch :: text) := by
  have hkeep : (ch :: text).filter (· ≠ 10) = ch :: text.filter (· ≠ 10) :=
    List.filter_cons_of_pos (decide_eq_true hne)
  have hpush : ∀ buffer, pushValue buffer ch = buffer ++ [ch] := fun buffer => by
    rw [pushValue, if_neg h]
  rw [unfolded, unfolded, unfolded, List.filter_append, List.foldl_append, hkeep, List.foldl_cons,
    List.foldl_cons, hpush, hpush, foldl_pushValue_append (.inl (by simp)), List.nil_append]

theorem mem_foldl_pushValue {text buffer : List UInt8} {ch : UInt8}
    (h : ch ∈ text.foldl pushValue buffer) : ch = 32 ∨ ch ∈ buffer ∨ ch ∈ text := by
  induction text generalizing buffer with
  | nil => exact .inr (.inl h)
  | cons b text ih =>
    rw [List.foldl_cons] at h
    rcases ih h with hspace | hbuffer | htext
    · exact .inl hspace
    · have hpush : ch ∈ buffer ++ [32] ++ [b] := by
        unfold pushValue at hbuffer
        split_ifs at hbuffer <;> grind
      rcases List.mem_append.mp hpush with hold | hnew
      · rcases List.mem_append.mp hold with hold | hspace
        · exact .inr (.inl hold)
        · exact .inl (List.mem_singleton.mp hspace)
      · rw [List.mem_singleton.mp hnew]
        exact .inr (.inr List.mem_cons_self)
    · exact .inr (.inr (List.mem_cons_of_mem b htext))

-- Nothing but spaces comes in.
theorem mem_unfolded {text : List UInt8} {ch : UInt8} (h : ch ∈ unfolded text) :
    ch = 32 ∨ (ch ∈ text ∧ ch ≠ 10) := by
  rcases mem_foldl_pushValue h with hspace | hnil | hmem
  · exact .inl hspace
  · exact absurd hnil List.not_mem_nil
  · obtain ⟨htext, hne⟩ := List.mem_filter.mp hmem
    exact .inr ⟨htext, of_decide_eq_true hne⟩

/-! ## 2. What is dropped in front of an address -/

section Parser

variable {ssl : OpenSSL} {cb : AddressCallback ε ω κ} {a : Address}

namespace ScratchData

/-- Without commas, quotes and brackets all is kept but the spaces. -/
theorem parseLoop_phrase {data : ScratchData κ} {text : List UInt8}
    (h : ∀ ch ∈ text, ch ≠ 44 ∧ ch ≠ 34 ∧ ch ≠ 60) (input : List UInt8) :
    data.parseLoop ssl cb (text ++ input) =
      ({ data with address := data.address ++ text.filter (· ≠ 32) }).parseLoop ssl cb input := by
  induction text generalizing data with
  | nil => rw [List.filter_nil, List.append_nil, List.nil_append]
  | cons ch text ih =>
    rw [List.forall_mem_cons] at h
    obtain ⟨⟨hcomma, hquotes, hbrackets⟩, htext⟩ := h
    by_cases hspace : ch = 32
    · rw [hspace, List.cons_append, parseLoop_space, ih htext]
      rfl
    · have hother : ¬ IsSpecial ch := by
        simp only [IsSpecial, not_or]
        exact ⟨hcomma, hquotes, hbrackets, hspace⟩
      rw [List.cons_append, parseLoop_other hother, ih htext, appendC,
        List.filter_cons_of_pos (by simpa using hspace), List.append_assoc, List.singleton_append]

theorem parseQuotes_text {data : ScratchData κ} {text : List UInt8}
    (h : ∀ ch ∈ text, ch ≠ 34 ∧ ch ≠ 92) (input : List UInt8) :
    (data.parseQuotes (text ++ 34 :: input) : Emits (AddressesStop ε) ω _) =
      pure ({ data with address := data.address ++ text }, input) := by
  induction text generalizing data with
  | nil =>
    rw [List.nil_append, List.append_nil]
    cases input with
    | nil => rw [parseQuotes, if_pos rfl]
    | cons next input => rw [parseQuotes, if_pos rfl]
  | cons ch text ih =>
    rw [List.forall_mem_cons] at h
    obtain ⟨next, rest, hrest⟩ : ∃ next rest, text ++ 34 :: input = next :: rest :=
      List.exists_cons_of_ne_nil (by simp)
    have hrestIh := @ih (data.appendC ch) h.2
    rw [hrest] at hrestIh
    rw [List.cons_append, hrest, parseQuotes, if_neg h.1.1, if_neg h.1.2, hrestIh, appendC,
      List.append_assoc, List.singleton_append]

theorem parseBracketsLoop_text {data : ScratchData κ} {text : List UInt8}
    (h : ∀ ch ∈ text, ch ≠ 62) (input : List UInt8) :
    data.parseBracketsLoop ssl cb (text ++ 62 :: input) =
      ({ data with address := data.address ++ text }).processAddress ssl cb >>= fun data =>
        pure (data, input) := by
  induction text generalizing data with
  | nil =>
    rw [List.nil_append, parseBracketsLoop, if_pos rfl, List.append_nil]
  | cons ch text ih =>
    rw [List.forall_mem_cons] at h
    rw [List.cons_append, parseBracketsLoop, if_neg h.1, ih h.2, appendC, List.append_assoc,
      List.singleton_append]

theorem ne_bracket_mailbox : ∀ ch ∈ mailbox ssl a, ch ≠ 62 := by
  have hall : ∀ ch ∈ addressChars ++ ascii "@bitmessage", ch ≠ 62 := List.all_iff_forall_prop.mp rfl
  exact fun ch hch => hall ch (mem_mailbox hch)

/-- What has been kept before the brackets is dropped. -/
theorem parseLoop_bracketed (h : 1 ≤ a.version) {data : ScratchData κ}
    (hhad : data.hadAddress = false) (input : List UInt8) :
    data.parseLoop ssl cb (60 :: (mailbox ssl a ++ 62 :: input)) =
      (cb data.cbUserData a).mapError .callback >>= fun cbUserData =>
        ({ address := patch (mailbox ssl a) ((mailbox ssl a).takeWhile (· ≠ 64)).length [0]
           hadAddress := true
           cbUserData } : ScratchData κ).parseLoop ssl cb input := by
  rw [parseLoop_brackets, parseBrackets, if_neg (by simp [hhad]),
    parseBracketsLoop_text ne_bracket_mailbox, processAddress, List.nil_append,
    processAddressText_mailbox h]
  simp only [bind_assoc, pure_bind]

end ScratchData

/-! ## 3. One entry -/

-- A word has nothing that ends an entry.
theorem not_ends_base64Significant {ch : UInt8} (h : base64Significant ch = true) :
    ch ≠ 44 ∧ ch ≠ 34 ∧ ch ≠ 60 := by
  refine ⟨?_, ?_, ?_⟩
  all_goals
    rintro rfl
    revert h
    decide

theorem not_ends_subjectWord {chunk : List UInt8} :
    ∀ ch ∈ subjectWord chunk, ch ≠ 44 ∧ ch ≠ 34 ∧ ch ≠ 60 := by
  have hstart : ∀ ch ∈ ascii "=?UTF-8?B?", ch ≠ 44 ∧ ch ≠ 34 ∧ ch ≠ 60 :=
    List.all_iff_forall_prop.mp rfl
  have hend : ∀ ch ∈ ascii "?=", ch ≠ 44 ∧ ch ≠ 34 ∧ ch ≠ 60 := List.all_iff_forall_prop.mp rfl
  have htext : ∀ ch ∈ base64Encode chunk, ch ≠ 44 ∧ ch ≠ 34 ∧ ch ≠ 60 :=
    fun ch hch => not_ends_base64Significant (mem_base64Encode hch)
  exact List.forall_mem_append.mpr ⟨List.forall_mem_append.mpr ⟨hstart, htext⟩, hend⟩

theorem not_ends_isAtomChar {ch : UInt8} (h : isAtomChar ch = true) :
    (ch ≠ 44 ∧ ch ≠ 34 ∧ ch ≠ 60) ∧ ¬ asciiIsLwsp ch = true := by
  have hall : ∀ n < 256, isAtomChar (UInt8.ofNat n) = true →
      (UInt8.ofNat n ≠ 44 ∧ UInt8.ofNat n ≠ 34 ∧ UInt8.ofNat n ≠ 60) ∧
        ¬ asciiIsLwsp (UInt8.ofNat n) = true := by
    decide +kernel
  have hch := hall ch.toNat ch.toNat_lt
  rw [UInt8.ofNat_toNat] at hch
  exact hch h

theorem mem_intercalate {ch : UInt8} {separator : List UInt8} {lines : List (List UInt8)}
    (h : ch ∈ separator.intercalate lines) : ch ∈ separator ∨ ∃ line ∈ lines, ch ∈ line := by
  induction lines with
  | nil => exact absurd h List.not_mem_nil
  | cons line lines ih =>
    cases lines with
    | nil =>
      rw [List.intercalate_singleton] at h
      exact .inr ⟨line, List.mem_cons_self, h⟩
    | cons next lines =>
      rw [List.intercalate_cons_cons] at h
      rcases List.mem_append.mp h with hfront | hrest
      · rcases List.mem_append.mp hfront with hline | hseparator
        · exact .inr ⟨line, List.mem_cons_self, hline⟩
        · exact .inl hseparator
      · rcases ih hrest with hseparator | ⟨line', hmem, hch⟩
        · exact .inl hseparator
        · exact .inr ⟨line', List.mem_cons_of_mem _ hmem, hch⟩

variable {entry : Correspondent}

/-- What `write_address` writes in front of the address in brackets, with the space between them. -/
def Correspondent.phrase (entry : Correspondent) : List UInt8 :=
  match classifyLabel entry.label with
  | .none => []
  | .raw => entry.label.getD [] ++ [32]
  | .quotes => 34 :: entry.label.getD [] ++ [34, 32]
  | .encode => (writeEncodedWords (entry.label.getD [])).flatten ++ [32]

theorem Correspondent.text_none (h : classifyLabel entry.label = .none) :
    entry.text ssl = mailbox ssl entry.address := by
  simp [text, writeAddress, h, mailbox]

theorem Correspondent.text_phrase (h : classifyLabel entry.label ≠ .none) :
    entry.text ssl = entry.phrase ++ 60 :: (mailbox ssl entry.address ++ [62]) := by
  have hdomain : ascii "@bitmessage>" = ascii "@bitmessage" ++ [62] := rfl
  have hopen : ascii " <" = [32, 60] := rfl
  have hquote : ascii "\"" = [34] := rfl
  cases hclass : classifyLabel entry.label with
  | none => exact absurd hclass h
  | raw => simp [text, writeAddress, phrase, hclass, mailbox, hdomain, hopen]
  | quotes => simp [text, writeAddress, phrase, hclass, mailbox, hdomain, hopen, hquote]
  | encode => simp [text, writeAddress, phrase, hclass, mailbox, hdomain, hopen]

theorem label_of_raw (h : classifyLabel entry.label = .raw) :
    ∀ ch ∈ entry.label.getD [], isAtomChar ch = true := by
  cases hlabel : entry.label with
  | none => simp
  | some label =>
    rw [hlabel, classifyLabel] at h
    exact isAtomChar_of_classifyLabelFrom h

theorem label_of_quotes (h : classifyLabel entry.label = .quotes) :
    ∀ ch ∈ entry.label.getD [], ch ≠ 34 ∧ ch ≠ 92 := by
  cases hlabel : entry.label with
  | none => simp
  | some label =>
    rw [hlabel, classifyLabel] at h
    exact fun ch hch => (isText_of_classifyLabelFrom (h.trans_ne (by decide)) ch hch).2

/-- The label leaves something in the buffer, and the parser is ready for the brackets. -/
theorem ScratchData.parseLoop_unfolded_phrase (h : classifyLabel entry.label ≠ .none) (user : κ)
    (input : List UInt8) :
    ∃ address, ({ cbUserData := user } : ScratchData κ).parseLoop ssl cb
        (unfolded entry.phrase ++ input) =
      ({ address, cbUserData := user } : ScratchData κ).parseLoop ssl cb input := by
  have hplain : (∀ ch ∈ entry.phrase, ch ≠ 10 → ch ≠ 44 ∧ ch ≠ 34 ∧ ch ≠ 60) →
      ∀ ch ∈ unfolded entry.phrase, ch ≠ 44 ∧ ch ≠ 34 ∧ ch ≠ 60 := by
    intro hall ch hch
    rcases mem_unfolded hch with rfl | ⟨hmem, hne⟩
    · decide
    · exact hall ch hmem hne
  cases hclass : classifyLabel entry.label with
  | none => exact absurd hclass h
  | raw =>
    have hall : ∀ ch ∈ entry.phrase, ch ≠ 10 → ch ≠ 44 ∧ ch ≠ 34 ∧ ch ≠ 60 := by
      intro ch hch _
      rw [Correspondent.phrase, hclass] at hch
      rcases List.mem_append.mp hch with hlabel | hspace
      · exact (not_ends_isAtomChar (label_of_raw hclass ch hlabel)).1
      · rw [List.mem_singleton.mp hspace]
        decide
    exact ⟨_, parseLoop_phrase (hplain hall) input⟩
  | quotes =>
    have hlabel := label_of_quotes hclass
    have hquoted : unfolded entry.phrase =
        34 :: (unfolded (entry.label.getD []) ++ 34 :: [32]) := by
      have hfilter : ∀ text : List UInt8,
          (34 :: text).filter (· ≠ 10) = 34 :: text.filter (· ≠ 10) :=
        fun text => List.filter_cons_of_pos rfl
      have hfront : ∀ text : List UInt8, unfolded (34 :: text) = 34 :: unfolded text := by
        intro text
        rw [unfolded, hfilter, List.foldl_cons]
        exact @foldl_pushValue_append [34] [] (.inr (by decide)) _
      rw [Correspondent.phrase, hclass]
      simp only
      rw [List.cons_append, hfront, unfolded_append (by decide) (by decide)]
      rfl
    have htext : ∀ ch ∈ unfolded (entry.label.getD []), ch ≠ 34 ∧ ch ≠ 92 := by
      intro ch hch
      rcases mem_unfolded hch with rfl | ⟨hmem, -⟩
      · decide
      · exact hlabel ch hmem
    refine ⟨unfolded (entry.label.getD []), ?_⟩
    rw [hquoted, List.cons_append, List.append_assoc, List.cons_append, parseLoop_quotes,
      parseQuotes_text htext, pure_bind, List.singleton_append]
    exact parseLoop_space
  | encode =>
    have hall : ∀ ch ∈ entry.phrase, ch ≠ 10 → ch ≠ 44 ∧ ch ≠ 34 ∧ ch ≠ 60 := by
      intro ch hch hne
      rw [Correspondent.phrase, hclass] at hch
      rcases List.mem_append.mp hch with hwords | hspace
      · rw [flatten_writeEncodedWords] at hwords
        rcases mem_intercalate hwords with hfold | ⟨word, hword, hmem⟩
        · have hcases : ∀ ch ∈ ascii "\n ", ch ≠ 10 → ch ≠ 44 ∧ ch ≠ 34 ∧ ch ≠ 60 :=
            List.all_iff_forall_prop.mp rfl
          exact hcases ch hfold hne
        · obtain ⟨chunk, rfl, -⟩ := mem_subjectWords hword
          exact not_ends_subjectWord ch hmem
      · rw [List.mem_singleton.mp hspace]
        decide
    exact ⟨_, parseLoop_phrase (hplain hall) input⟩

theorem unfolded_mailbox (ssl : OpenSSL) (a : Address) :
    unfolded (mailbox ssl a) = mailbox ssl a :=
  unfolded_eq_self (MailParser.mailbox_folded ssl a).1

theorem Correspondent.unfolded_text (h : classifyLabel entry.label ≠ .none) :
    unfolded (entry.text ssl) =
      unfolded entry.phrase ++ 60 :: (mailbox ssl entry.address ++ [62]) := by
  have hself : unfolded (60 :: (mailbox ssl entry.address ++ [62])) =
      60 :: (mailbox ssl entry.address ++ [62]) := by
    refine unfolded_eq_self (List.forall_mem_cons.mpr ⟨by decide, ?_⟩)
    refine List.forall_mem_append.mpr ⟨(MailParser.mailbox_folded ssl entry.address).1, ?_⟩
    exact List.forall_mem_singleton.mpr (by decide)
  rw [text_phrase h, unfolded_append (by decide) (by decide), hself]

/-- An entry calls the callback with its address, before its end or there. -/
theorem Correspondent.parsed (entry : Correspondent) (user : κ) :
    ∃ x : Emits (AddressesStop ε) ω (ScratchData κ),
      (∀ input, ({ cbUserData := user } : ScratchData κ).parseLoop ssl cb
        (unfolded (entry.text ssl) ++ input) = x >>= fun data => data.parseLoop ssl cb input) ∧
      (x >>= fun data => data.endAddress ssl cb) =
        (cb user entry.address).mapError .callback >>= fun cbUserData => pure { cbUserData } := by
  by_cases hclass : classifyLabel entry.label = .none
  · refine ⟨pure { address := mailbox ssl entry.address, cbUserData := user }, fun input => ?_, ?_⟩
    · rw [text_none hclass, unfolded_mailbox,
        ScratchData.parseLoop_kept fun ch => not_isSpecial_mailbox, pure_bind, List.nil_append]
    · rw [pure_bind, ScratchData.endAddress_mailbox entry.version_pos]
  · let name := mailbox ssl entry.address
    refine ⟨(cb user entry.address).mapError .callback >>= fun cbUserData =>
      pure { address := patch name (name.takeWhile (· ≠ 64)).length [0]
             hadAddress := true, cbUserData }, fun input => ?_, ?_⟩
    · obtain ⟨address, hphrase⟩ := @ScratchData.parseLoop_unfolded_phrase ε ω κ ssl cb entry hclass
        user (60 :: (name ++ 62 :: input))
      rw [unfolded_text hclass, List.append_assoc, List.cons_append, List.append_assoc,
        List.singleton_append, hphrase, ScratchData.parseLoop_bracketed entry.version_pos rfl,
        bind_assoc]
      simp only [pure_bind, name]
    · rw [bind_assoc]
      simp only [pure_bind, ScratchData.endAddress, if_true]

/-! ## 4. A list of entries -/

namespace Correspondent

/-- An entry starts with a byte of its own. -/
theorem text_start (ssl : OpenSSL) (entry : Correspondent) :
    ∃ ch rest, entry.text ssl = ch :: rest ∧ ¬ asciiIsLwsp ch = true ∧ ch ≠ 10 := by
  cases hclass : classifyLabel entry.label with
  | none => exact ⟨66, _, text_none hclass, by decide, by decide⟩
  | raw =>
    rw [text_phrase (by rw [hclass]; decide), phrase, hclass]
    have hatoms := label_of_raw hclass
    cases hlabel : entry.label with
    | none =>
      rw [hlabel] at hclass
      cases hclass
    | some label =>
      rw [hlabel] at hclass hatoms
      cases label with
      | nil => cases hclass
      | cons ch label =>
        have hch := hatoms ch List.mem_cons_self
        refine ⟨ch, _, rfl, (not_ends_isAtomChar hch).2, ?_⟩
        rintro rfl
        revert hch
        decide
  | quotes =>
    rw [text_phrase (by rw [hclass]; decide), phrase, hclass]
    exact ⟨34, _, rfl, by decide, by decide⟩
  | encode =>
    rw [text_phrase (by rw [hclass]; decide), phrase, hclass]
    simp only
    rw [writeEncodedWords]
    exact ⟨61, _, rfl, by decide, by decide⟩

theorem listText_cons (ssl : OpenSSL) (first next : Correspondent) (rest : List Correspondent) :
    listText ssl (first :: next :: rest) =
      first.text ssl ++ 44 :: 32 :: listText ssl (next :: rest) := by
  rw [listText, List.map_cons, List.map_cons, List.intercalate_cons_cons, List.append_assoc]
  rfl

theorem listText_start (ssl : OpenSSL) (first : Correspondent) (rest : List Correspondent) :
    ∃ ch text, listText ssl (first :: rest) = ch :: text ∧ ¬ asciiIsLwsp ch = true ∧ ch ≠ 10 := by
  obtain ⟨ch, text, htext, hstart⟩ := text_start ssl first
  cases rest with
  | nil => exact ⟨ch, text, (List.intercalate_singleton).trans htext, hstart⟩
  | cons next rest =>
    rw [listText_cons, htext]
    exact ⟨ch, _, rfl, hstart⟩

theorem unfolded_listText (ssl : OpenSSL) (first next : Correspondent) (rest : List Correspondent) :
    unfolded (listText ssl (first :: next :: rest)) =
      unfolded (first.text ssl) ++ 44 :: 32 :: unfolded (listText ssl (next :: rest)) := by
  obtain ⟨ch, text, htext, hlwsp, hne⟩ := listText_start ssl next rest
  have hsplit : (44 : UInt8) :: 32 :: ch :: text = [44, 32] ++ ch :: text := rfl
  rw [listText_cons, htext, unfolded_append (by decide) (by decide), hsplit,
    unfolded_append hlwsp hne]
  rfl

/-- The callback is called for each address in turn. -/
theorem parsed_list (first : Correspondent) (rest : List Correspondent) (user : κ) :
    parseAddresses ssl cb (unfolded (listText ssl (first :: rest))) user =
      (first :: rest).foldlM (fun user entry => (cb user entry.address).mapError .callback)
        user := by
  rw [parseAddresses_eq]
  induction rest generalizing first user with
  | nil =>
    obtain ⟨x, hx, hend⟩ := @parsed ε ω κ ssl cb first user
    have hsingle : listText ssl [first] = first.text ssl ++ [] := by
      rw [List.append_nil]
      exact List.intercalate_singleton
    have hnil := hx []
    rw [List.append_nil] at hnil hsingle
    rw [hsingle, hnil]
    simp only [ScratchData.parseLoop_nil]
    rw [hend, bind_assoc, List.foldlM_cons]
    rfl
  | cons next rest ih =>
    obtain ⟨x, hx, hend⟩ := @parsed ε ω κ ssl cb first user
    rw [unfolded_listText, hx]
    simp only [ScratchData.parseLoop_comma, ScratchData.parseLoop_space]
    rw [← bind_assoc, hend, bind_assoc, bind_assoc, List.foldlM_cons]
    simp only [pure_bind, ih]

theorem folded_lines {lines : List (List UInt8)} (h : ∀ line ∈ lines, ∀ ch ∈ line, IsText ch) :
    Folded ([10, 32].intercalate lines) := by
  have hline : ∀ line ∈ lines, Folded line := by
    intro line hmem
    apply Folded.of_bytes
    intro ch hch
    have htext := h line hmem ch hch
    refine ⟨?_, ?_, ?_⟩
    all_goals
      rintro rfl
      revert htext
      decide
  clear h
  induction lines with
  | nil => exact .nil
  | cons line lines ih =>
    rw [List.forall_mem_cons] at hline
    cases lines with
    | nil =>
      rw [List.intercalate_singleton]
      exact hline.1
    | cons next lines =>
      rw [List.intercalate_cons_cons, List.append_assoc]
      exact hline.1.append (.line rfl (.byte (by decide) (ih hline.2)))

theorem folded_listText (ssl : OpenSSL) (entries : List Correspondent) :
    Folded (listText ssl entries) := by
  have hentry : ∀ entry : Correspondent, Folded (entry.text ssl) := by
    intro entry
    rw [text, flatten_writeAddress]
    exact folded_lines (isText_addressLines ssl entry.label entry.address)
  induction entries with
  | nil => exact .nil
  | cons first entries ih =>
    cases entries with
    | nil =>
      have hsingle : listText ssl [first] = first.text ssl := List.intercalate_singleton
      rw [hsingle]
      exact hentry first
    | cons next entries =>
      rw [listText_cons]
      exact (hentry first).append (.byte (by decide) (.byte (by decide) ih))

-- The text ends with the domain or with a bracket.
theorem getLast_unfolded_text (ssl : OpenSSL) (entry : Correspondent) :
    ∃ ch, (unfolded (entry.text ssl)).getLast? = some ch ∧ ch ≠ 32 := by
  by_cases hclass : classifyLabel entry.label = .none
  · rw [text_none hclass, unfolded_mailbox, MailParser.getLast_mailbox]
    exact ⟨101, rfl, by decide⟩
  · rw [unfolded_text hclass, ← List.cons_append, ← List.append_assoc, List.getLast?_append]
    exact ⟨62, rfl, by decide⟩

theorem getLast_unfolded_listText (ssl : OpenSSL) (first : Correspondent)
    (rest : List Correspondent) :
    (unfolded (listText ssl (first :: rest))).getLast? ≠ some 32 := by
  have hlast : ∃ ch, (unfolded (listText ssl (first :: rest))).getLast? = some ch ∧ ch ≠ 32 := by
    induction rest generalizing first with
    | nil =>
      have hsingle : listText ssl [first] = first.text ssl := List.intercalate_singleton
      rw [hsingle]
      exact getLast_unfolded_text ssl first
    | cons next rest ih =>
      obtain ⟨ch, hch, hne⟩ := ih next
      refine ⟨ch, ?_, hne⟩
      have hsplit : ∀ text : List UInt8, (44 : UInt8) :: 32 :: text = [44, 32] ++ text :=
        fun _ => rfl
      rw [unfolded_listText, hsplit, List.getLast?_append, List.getLast?_append, hch]
      rfl
  obtain ⟨ch, hch, hne⟩ := hlast
  rw [hch]
  exact fun heq => hne (Option.some.inj heq)

end Correspondent

end Parser

/-! ## 5. A header -/

open Correspondent MailParser

/-- A header with these entries is read back: the parser for mails joins its lines, collapses the
blanks and has no space to strip at its end, and what it keeps are the addresses in order. -/
structure ReadBack (env : MailEnv) (entries : List Correspondent) : Prop where
  kept : ∀ (parser : MailParser) (room : Nat) (name spaces data : List UInt8),
    parser.state = .headerName → parser.buffer = [] → (∀ ch ∈ name, ¬ (ch = 10 ∨ ch = 58)) →
    (∀ ch ∈ spaces, asciiIsLwsp ch = true) →
    parser.readAll env room (field name spaces (listText env.ssl entries) ++ data) =
      ({ parser with
        state := .checkContinuation
        currentHeader := headerNamed env name
        buffer := unfolded (listText env.ssl entries) } : MailParser).readAll env room data
  stripped : (unfolded (listText env.ssl entries)).getLast? ≠ some 32
  parsed : ∀ {ε ω κ : Type} (cb : AddressCallback ε ω κ) (user : κ),
    parseAddresses env.ssl cb (unfolded (listText env.ssl entries)) user =
      entries.foldlM (fun user entry => (cb user entry.address).mapError .callback) user

theorem correspondents_readBack (env : MailEnv) (first : Correspondent)
    (rest : List Correspondent) : ReadBack env (first :: rest) where
  kept := by
    intro parser room name spaces data hstate hbuffer hname hspaces
    obtain ⟨ch, text, htext, hlwsp, -⟩ := listText_start env.ssl first rest
    have hfolded := folded_listText env.ssl (first :: rest)
    rw [htext] at hfolded ⊢
    exact readAll_field hstate hbuffer hname hspaces hlwsp hfolded data
  stripped := getLast_unfolded_listText env.ssl first rest
  parsed cb user := parsed_list first rest user

/-- An empty header has no address. -/
theorem nobody_not_readBack : ¬ ReadBack zeroEnv [] := by
  intro h
  let cb : AddressCallback Unit Unit Unit := fun _ _ => pure ()
  have hparsed := congrArg Emits.value (h.parsed cb ())
  have hempty : unfolded (listText zeroEnv.ssl []) = [] := rfl
  rw [hempty, parseAddresses_eq, ScratchData.parseLoop_nil] at hparsed
  cases hparsed

end Notbit.Mail
