import Notbit.Mail.Parser

/-!
# HeaderNames — names that are looked up in a table (`ntb-mail-parser.c`)

`is_header` compares as many bytes as the buffer has.  So a buffer that ends before the name does is
taken for it, and one with a null byte behind the name is compared with the memory behind the
literal.
-/

open Bytes Streams Streams.Emits Notbit.Proto

namespace Notbit.Mail.MailParser

variable {env : MailEnv} {buffer : List UInt8} {name : String}

/-! ## 1. What is taken for a name -/

/-- The buffer is the name, ignoring the case of letters. -/
def IsName (buffer : List UInt8) (name : String) : Prop := buffer.map asciiToLower = ascii name

instance (buffer : List UInt8) (name : String) : Decidable (IsName buffer name) :=
  inferInstanceAs (Decidable (_ = _))

/-- The buffer is not the name but nothing differs before its end: the name goes on, or the buffer
goes on like the null byte and the memory behind the literal. -/
def Misread (env : MailEnv) (buffer : List UInt8) (name : String) : Prop :=
  (buffer.map asciiToLower <+: ascii name ∧ ¬ IsName buffer name) ∨
    ∃ rest, buffer.map asciiToLower = ascii name ++ 0 :: rest ∧
      rest = window (env.behind (ascii name ++ [0])) (ascii name ++ [0]).length rest.length

theorem window_overlay_le {bs : List UInt8} {behind : Memory} {n : Nat} (h : n ≤ bs.length) :
    window (overlay bs behind) 0 n = bs.take n := by
  apply List.ext_getElem
  · rw [length_window, List.length_take]
    omega
  · intro i h₁ h₂
    rw [length_window] at h₁
    rw [getElem_window, List.getElem_take, Nat.zero_add, overlay, List.getD_eq_getElem?_getD,
      List.getElem?_eq_getElem (h₁.trans_le h), Option.getD_some]

theorem window_overlay_add (bs : List UInt8) (behind : Memory) (n : Nat) :
    window (overlay bs behind) 0 (bs.length + n) = bs ++ window behind bs.length n := by
  rw [window_add, window_overlay_le (le_refl _), List.take_length, Nat.zero_add]
  congr 1
  refine List.map_congr_left fun i _ => ?_
  rw [overlay, List.getD_eq_getElem?_getD, List.getElem?_eq_none (Nat.le_add_right _ _),
    Option.getD_none]

theorem isHeader_iff :
    isHeader env buffer name = true ↔ IsName buffer name ∨ Misread env buffer name := by
  have hlength : buffer.length = (buffer.map asciiToLower).length := (List.length_map _).symm
  unfold isHeader Misread IsName
  dsimp only
  rw [decide_eq_true_iff, hlength]
  generalize buffer.map asciiToLower = bytes
  by_cases hle : bytes.length ≤ (ascii name).length
  · rw [window_overlay_le (by rw [List.length_append]; omega), List.take_append_of_le_length hle]
    constructor
    · intro heq
      by_cases hname : bytes = ascii name
      · exact .inl hname
      · exact .inr (.inl ⟨List.prefix_iff_eq_take.mpr heq, hname⟩)
    · rintro (hname | ⟨hstarts, -⟩ | ⟨rest, hrest, -⟩)
      · rw [hname, List.take_length]
      · exact List.prefix_iff_eq_take.mp hstarts
      · rw [hrest, List.length_append, List.length_cons] at hle
        omega
  · obtain ⟨n, hn⟩ : ∃ n, bytes.length = (ascii name ++ [0]).length + n :=
      ⟨bytes.length - (ascii name ++ [0]).length, by
        rw [List.length_append, List.length_singleton]
        omega⟩
    rw [hn, window_overlay_add]
    constructor
    · intro heq
      refine .inr (.inr ⟨window (env.behind (ascii name ++ [0])) (ascii name ++ [0]).length n, ?_, ?_⟩)
      · rw [heq, List.append_assoc]
        rfl
      · rw [length_window]
    · rintro (hname | ⟨hstarts, -⟩ | ⟨rest, hrest, hbehind⟩)
      · rw [hname] at hle
        exact absurd (le_refl _) hle
      · exact absurd hstarts.length_le hle
      · have hlen : rest.length = n := by
          rw [hrest] at hn
          simp only [List.length_append, List.length_cons, List.length_nil] at hn
          omega
        rw [hrest, ← hlen, ← hbehind, List.append_assoc]
        rfl

/-! ## 2. Tables of names -/

variable {β : Type} {table : List (String × β)} {entry other : String × β}

/-- No name of the table is the beginning of another one. -/
def Incomparable (table : List (String × β)) : Prop :=
  table.Pairwise fun a b => ¬ ascii a.1 <+: ascii b.1 ∧ ¬ ascii b.1 <+: ascii a.1

instance (table : List (String × β)) : Decidable (Incomparable table) :=
  inferInstanceAs (Decidable (List.Pairwise _ _))

theorem Incomparable.not_prefix (h : Incomparable table) (hentry : entry ∈ table)
    (hother : other ∈ table) (hne : entry ≠ other) : ¬ ascii entry.1 <+: ascii other.1 := by
  have hsymm : Std.Symm fun a b : String × β =>
      ¬ ascii a.1 <+: ascii b.1 ∧ ¬ ascii b.1 <+: ascii a.1 := ⟨fun _ _ h => ⟨h.2, h.1⟩⟩
  exact (h.forall hentry hother hne).1

-- What is taken for a name is compared with a part of it or with all of it.
theorem prefix_of_isHeader (h : isHeader env buffer name = true) :
    buffer.map asciiToLower <+: ascii name ∨ ascii name ++ [0] <+: buffer.map asciiToLower := by
  rcases isHeader_iff.mp h with hname | ⟨hstarts, -⟩ | ⟨rest, hrest, -⟩
  · exact .inl (hname ▸ List.prefix_refl _)
  · exact .inl hstarts
  · refine .inr ⟨rest, ?_⟩
    rw [hrest, List.append_assoc]
    rfl

-- A buffer that is taken for two names ends before both do.
theorem prefix_of_isHeader_of_isHeader (htable : Incomparable table) (hentry : entry ∈ table)
    (hother : other ∈ table) (hne : entry ≠ other) (h : isHeader env buffer entry.1 = true)
    (h' : isHeader env buffer other.1 = true) : buffer.map asciiToLower <+: ascii entry.1 := by
  have hnot := htable.not_prefix hentry hother hne
  have hnot' := htable.not_prefix hother hentry hne.symm
  rcases prefix_of_isHeader h with hstarts | hbehind
  · exact hstarts
  · exfalso
    have hwhole := (List.prefix_append (ascii entry.1) [0]).trans hbehind
    rcases prefix_of_isHeader h' with hstarts' | hbehind'
    · exact hnot (hwhole.trans hstarts')
    · have hwhole' := (List.prefix_append (ascii other.1) [0]).trans hbehind'
      rcases Nat.le_total (ascii entry.1).length (ascii other.1).length with hle | hle
      · exact hnot (List.prefix_of_prefix_length_le hwhole hwhole' hle)
      · exact hnot' (List.prefix_of_prefix_length_le hwhole' hwhole hle)

theorem Misread.not_isName (h : Misread env buffer name) : ¬ IsName buffer name := by
  intro hname
  rcases h with ⟨-, hnot⟩ | ⟨rest, hrest, -⟩
  · exact hnot hname
  · have hlength := congrArg List.length (hname.symm.trans hrest)
    rw [List.length_append, List.length_cons] at hlength
    omega

-- A name is not taken for another one.
theorem eq_of_isName (htable : Incomparable table) (hentry : entry ∈ table)
    (hother : other ∈ table) (h : IsName buffer entry.1)
    (h' : isHeader env buffer other.1 = true) : other = entry := by
  by_contra hne
  have hstarts := prefix_of_isHeader_of_isHeader htable hother hentry hne h'
    (isHeader_iff.mpr (.inl h))
  rw [show buffer.map asciiToLower = ascii entry.1 from h] at hstarts
  exact htable.not_prefix hentry hother (Ne.symm hne) hstarts

-- The first entry whose name the buffer is taken for, when it is one of the names.
theorem find?_of_isName (htable : Incomparable table) (hentry : entry ∈ table)
    (h : IsName buffer entry.1) :
    table.find? (fun e => isHeader env buffer e.1) = some entry := by
  have hsome : (table.find? fun e => isHeader env buffer e.1).isSome := by
    rw [List.find?_isSome]
    exact ⟨entry, hentry, isHeader_iff.mpr (.inl h)⟩
  obtain ⟨found, hfound⟩ := Option.isSome_iff_exists.mp hsome
  have htaken : isHeader env buffer found.1 = true := by
    have hpred := List.find?_some hfound
    exact hpred
  rw [hfound, eq_of_isName htable hentry (List.mem_of_find?_eq_some hfound) h htaken]

/-! ## 3. The headers and the encodings -/

/-- The names that `handle_transfer_encoding` knows. -/
def transferEncodings : List (String × MailParserEncoding) :=
  [("base64", .base64), ("quoted-printable", .quotedPrintable), ("7bit", .raw), ("8bit", .raw)]

theorem incomparable_headers : Incomparable headers := by decide

theorem incomparable_transferEncodings : Incomparable transferEncodings := by decide

/-- A header is known exactly by its full name, and every other one is skipped. -/
def SelectsHeader (env : MailEnv) (parser : MailParser) : Prop :=
  (∀ entry ∈ headers, entry.2 ≠ .skip →
    ((parser.setHeader env).currentHeader = entry.2 ↔ IsName parser.buffer entry.1)) ∧
  ((∀ entry ∈ headers, entry.2 ≠ .skip → ¬ IsName parser.buffer entry.1) →
    (parser.setHeader env).currentHeader = .skip)

/-- The first Content-Transfer-Encoding is known exactly by its full name, and every other value is
refused. -/
def SelectsEncoding (env : MailEnv) (parser : MailParser) : Prop :=
  parser.hadTransferEncoding = false →
    (∀ entry ∈ transferEncodings, IsName parser.buffer entry.1 →
      (parser.handleTransferEncoding env).value =
        .ok { parser with hadTransferEncoding := true, encoding := entry.2 }) ∧
    ((∀ entry ∈ transferEncodings, ¬ IsName parser.buffer entry.1) →
      ∃ message, (parser.handleTransferEncoding env).value =
        .error (.error .invalidTransferEncoding message))

variable {parser : MailParser}

theorem headerNamed_of_isName {entry : String × MailParserHeader} (hentry : entry ∈ headers)
    (h : IsName buffer entry.1) : headerNamed env buffer = entry.2 := by
  rw [headerNamed, find?_of_isName incomparable_headers hentry h]

-- What is known is taken for some name.
theorem isHeader_of_headerNamed (h : headerNamed env buffer ≠ .skip) :
    ∃ entry ∈ headers, entry.2 = headerNamed env buffer ∧ isHeader env buffer entry.1 = true := by
  unfold headerNamed at h ⊢
  split at h
  next name value hfound =>
    have hpred := List.find?_some hfound
    exact ⟨(name, value), List.mem_of_find?_eq_some hfound, rfl, hpred⟩
  next => exact absurd rfl h

theorem selectsHeader_of_forall (h : ∀ entry ∈ headers, entry.2 ≠ .skip →
    isHeader env parser.buffer entry.1 = true → headerNamed env parser.buffer ≠ .skip →
      IsName parser.buffer entry.1) : SelectsHeader env parser := by
  have hskip : (∀ entry ∈ headers, entry.2 ≠ .skip → ¬ IsName parser.buffer entry.1) →
      headerNamed env parser.buffer = .skip := by
    intro hnone
    by_contra hknown
    obtain ⟨entry, hentry, hvalue, htaken⟩ := isHeader_of_headerNamed hknown
    exact hnone entry hentry (hvalue ▸ hknown) (h entry hentry (hvalue ▸ hknown) htaken hknown)
  refine ⟨fun entry hentry hvalue => ⟨fun hcurrent => ?_, fun hname => ?_⟩, hskip⟩
  · have hcurrent : headerNamed env parser.buffer = entry.2 := hcurrent
    have hknown : headerNamed env parser.buffer ≠ .skip := hcurrent ▸ hvalue
    obtain ⟨other, hother, hvalue', htaken⟩ := isHeader_of_headerNamed hknown
    have hname := h other hother (hvalue' ▸ hknown) htaken hknown
    have hsame : other = entry := by
      have hinj : ∀ a ∈ headers, ∀ b ∈ headers, a.2 = b.2 → a = b := by decide
      exact hinj other hother entry hentry (hvalue'.trans hcurrent)
    exact hsame ▸ hname
  · exact headerNamed_of_isName hentry hname

/-- A header is known by its full name unless the name in the mail is taken for a part of it: those
of "skip" are skipped. -/
theorem selectsHeader_iff (env : MailEnv) (parser : MailParser) :
    SelectsHeader env parser ↔ parser.buffer.map asciiToLower <+: ascii "skip" ∨
      ∀ entry ∈ headers, entry.2 ≠ .skip → ¬ Misread env parser.buffer entry.1 := by
  have hskip : ("skip", .skip) ∈ headers := by decide
  constructor
  · rintro ⟨-, hnone⟩
    by_contra hnot
    rw [not_or, not_forall] at hnot
    obtain ⟨hstarts, entry, hentry⟩ := hnot
    simp only [not_forall, not_not] at hentry
    obtain ⟨hentry, hvalue, hmisread⟩ := hentry
    have htaken := isHeader_iff.mpr (.inr hmisread)
    -- no name is meant, so the header is skipped
    have hcurrent : headerNamed env parser.buffer = .skip := by
      refine hnone fun other hother _ hname => ?_
      obtain rfl := eq_of_isName incomparable_headers hother hentry hname htaken
      exact hmisread.not_isName hname
    have hsome : (headers.find? fun e => isHeader env parser.buffer e.1).isSome := by
      rw [List.find?_isSome]
      exact ⟨entry, hentry, htaken⟩
    obtain ⟨found, hfound⟩ := Option.isSome_iff_exists.mp hsome
    have hfirst : isHeader env parser.buffer found.1 = true := by
      have hpred := List.find?_some hfound
      exact hpred
    have hfoundSkip : found.2 = .skip := by
      rw [headerNamed, hfound] at hcurrent
      exact hcurrent
    have hinj : ∀ a ∈ headers, a.2 = .skip → a = ("skip", .skip) := by decide
    obtain rfl := hinj found (List.mem_of_find?_eq_some hfound) hfoundSkip
    refine hstarts (prefix_of_isHeader_of_isHeader incomparable_headers hskip hentry ?_ hfirst
      htaken)
    rintro rfl
    exact hvalue rfl
  · rintro (hstarts | hexact)
    · refine selectsHeader_of_forall fun entry _ _ _ hknown => absurd ?_ hknown
      have hfirst : isHeader env parser.buffer "skip" = true := by
        rw [isHeader_iff]
        by_cases hname : IsName parser.buffer "skip"
        · exact .inl hname
        · exact .inr (.inl ⟨hstarts, hname⟩)
      simp only [headerNamed, headers, List.find?, hfirst]
    · refine selectsHeader_of_forall fun entry hentry hvalue htaken _ => ?_
      exact (isHeader_iff.mp htaken).resolve_right (hexact entry hentry hvalue)

theorem handleTransferEncoding_eq (hfirst : parser.hadTransferEncoding = false) :
    parser.handleTransferEncoding env =
      match transferEncodings.find? fun e => isHeader env parser.buffer e.1 with
      | some entry => pure { parser with hadTransferEncoding := true, encoding := entry.2 }
      | none => fail (.error .invalidTransferEncoding
          (curlyQuoted "Unsupported transfer encoding " (Store.cString parser.buffer))) := by
  unfold handleTransferEncoding
  simp only [hfirst, transferEncodings, List.find?, Bool.false_eq_true, if_false]
  cases isHeader env parser.buffer "base64" with
  | true => rfl
  | false =>
    cases isHeader env parser.buffer "quoted-printable" with
    | true => rfl
    | false =>
      cases isHeader env parser.buffer "7bit" with
      | true => rfl
      | false => cases isHeader env parser.buffer "8bit" <;> rfl

/-- An encoding is known by its full name unless the value is taken for a part of it. -/
theorem selectsEncoding_iff (env : MailEnv) (parser : MailParser) :
    SelectsEncoding env parser ↔ parser.hadTransferEncoding = true ∨
      ∀ entry ∈ transferEncodings, ¬ Misread env parser.buffer entry.1 := by
  cases hfirst : parser.hadTransferEncoding with
  | true => exact iff_of_true (fun h => absurd (hfirst.symm.trans h) (by simp)) (.inl rfl)
  | false =>
    rw [or_iff_right Bool.false_ne_true, SelectsEncoding, handleTransferEncoding_eq hfirst]
    constructor
    · intro h entry hentry hmisread
      obtain ⟨-, hrefused⟩ := h hfirst
      have htaken := isHeader_iff.mpr (.inr hmisread)
      obtain ⟨message, hvalue⟩ := hrefused fun other hother hname => by
        obtain rfl := eq_of_isName incomparable_transferEncodings hother hentry hname htaken
        exact hmisread.not_isName hname
      have hsome : (transferEncodings.find? fun e => isHeader env parser.buffer e.1).isSome := by
        rw [List.find?_isSome]
        exact ⟨entry, hentry, htaken⟩
      obtain ⟨found, hfound⟩ := Option.isSome_iff_exists.mp hsome
      rw [hfound] at hvalue
      cases hvalue
    · intro hexact _
      constructor
      · intro entry hentry hname
        rw [find?_of_isName incomparable_transferEncodings hentry hname]
        rfl
      · intro hnone
        have hnothing : transferEncodings.find? (fun e => isHeader env parser.buffer e.1) = none := by
          rw [List.find?_eq_none]
          intro entry hentry htaken
          exact hnone entry hentry ((isHeader_iff.mp htaken).resolve_right (hexact entry hentry))
        rw [hnothing]
        exact ⟨_, rfl⟩

/-- For which names in a mail the headers and the encodings are known by their full names. -/
theorem names_exact_iff (env : MailEnv) (parser : MailParser) :
    (SelectsHeader env parser ↔ parser.buffer.map asciiToLower <+: ascii "skip" ∨
      ∀ entry ∈ headers, entry.2 ≠ .skip → ¬ Misread env parser.buffer entry.1) ∧
    (SelectsEncoding env parser ↔ parser.hadTransferEncoding = true ∨
      ∀ entry ∈ transferEncodings, ¬ Misread env parser.buffer entry.1) :=
  ⟨selectsHeader_iff env parser, selectsEncoding_iff env parser⟩

/-- The header T is taken for To, and the encoding B for base64. -/
theorem names_misread :
    let env : MailEnv := { ssl := .additive, behind := fun _ _ => 0 }
    ¬ SelectsHeader env { buffer := ascii "T" } ∧ ¬ SelectsEncoding env { buffer := ascii "B" } := by
  intro env
  constructor
  · rintro ⟨hselects, -⟩
    have hname := (hselects ("to", .to) (by decide) (by decide)).mp (by decide +kernel)
    exact absurd hname (by decide)
  · intro hselects
    obtain ⟨message, hvalue⟩ := (hselects rfl).2 (by decide)
    have hok : (handleTransferEncoding env { buffer := ascii "B" }).value =
        .ok { buffer := ascii "B", hadTransferEncoding := true, encoding := .base64 } := by
      decide +kernel
    cases hok.symm.trans hvalue

end Notbit.Mail.MailParser
