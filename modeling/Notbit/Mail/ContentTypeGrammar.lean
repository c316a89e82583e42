import Mathlib.Data.Bool.AllAny
import Mathlib.Data.List.TakeWhile
import Notbit.Mail.ContentType
import Notbit.Proto.Frames

/-!
# ContentTypeGrammar — which Content-Type headers are parsed (`ntb-parse-content-type.c`)

A grammar over plain character classes, which the table of the parser agrees with.  The parser reads
the longest token it can, which is the one of the grammar as no token is followed by a character of
one.
-/

open Bytes Streams Streams.Emits Traced Notbit.Proto

namespace Notbit.Mail

/-! ## 1. The classes of characters -/

/-- The characters that separate tokens. -/
def httpSeparators : List UInt8 := ascii "()<>@,;:/[]?= \t" ++ [34, 92, 123, 125]

def IsTokenChar (ch : UInt8) : Prop := 32 < ch.toNat ∧ ch.toNat < 127 ∧ ch ∉ httpSeparators

def IsBlank (ch : UInt8) : Prop := ch ∈ ascii "\t\n\r "

/-- The characters in a quoted string. -/
def IsTextChar (ch : UInt8) : Prop := IsBlank ch ∨ 32 < ch.toNat ∧ ch ≠ 127

instance (ch : UInt8) : Decidable (IsTokenChar ch) := inferInstanceAs (Decidable (_ ∧ _))

instance (ch : UInt8) : Decidable (IsBlank ch) := inferInstanceAs (Decidable (_ ∈ _))

instance (ch : UInt8) : Decidable (IsTextChar ch) := inferInstanceAs (Decidable (_ ∨ _))

-- The table, entry by entry.
theorem httpCharTable_classes : ∀ n < 256,
    (httpIsToken (.ofNat n) = true ↔ IsTokenChar (.ofNat n)) ∧
    (httpIsLws (.ofNat n) = true ↔ IsBlank (.ofNat n)) ∧
    (httpIsText (.ofNat n) = true ↔ IsTextChar (.ofNat n)) ∧
    (httpIsChar (.ofNat n) = true ↔ n < 128) := by
  decide +kernel

section Classes

variable {ch : UInt8}

theorem httpIsToken_iff : httpIsToken ch = true ↔ IsTokenChar ch := by
  have hclass := (httpCharTable_classes ch.toNat ch.toNat_lt).1
  rwa [UInt8.ofNat_toNat] at hclass

theorem httpIsLws_iff : httpIsLws ch = true ↔ IsBlank ch := by
  have hclass := (httpCharTable_classes ch.toNat ch.toNat_lt).2.1
  rwa [UInt8.ofNat_toNat] at hclass

theorem httpIsText_iff : httpIsText ch = true ↔ IsTextChar ch := by
  have hclass := (httpCharTable_classes ch.toNat ch.toNat_lt).2.2.1
  rwa [UInt8.ofNat_toNat] at hclass

theorem httpIsChar_iff : httpIsChar ch = true ↔ ch.toNat < 128 := by
  have hclass := (httpCharTable_classes ch.toNat ch.toNat_lt).2.2.2
  rwa [UInt8.ofNat_toNat] at hclass

end Classes

/-! ## 2. The grammar -/

def IsBlanks (text : List UInt8) : Prop := ∀ ch ∈ text, IsBlank ch

def IsToken (text : List UInt8) : Prop := text ≠ [] ∧ ∀ ch ∈ text, IsTokenChar ch

/-- What stands between the quotes, and the value it stands for. -/
inductive QuotedText : List UInt8 → List UInt8 → Prop
  | nil : QuotedText [] []
  | text {ch : UInt8} {raw value : List UInt8} : IsTextChar ch → ch ≠ 34 → ch ≠ 92 →
      QuotedText raw value → QuotedText (ch :: raw) (ch :: value)
  | escape {ch : UInt8} {raw value : List UInt8} : ch ≠ 0 → ch.toNat < 128 →
      QuotedText raw value → QuotedText (92 :: ch :: raw) (ch :: value)

/-- A token or a quoted string. -/
def AttributeText (raw value : List UInt8) : Prop :=
  IsToken raw ∧ value = raw ∨ ∃ inner, raw = 34 :: (inner ++ [34]) ∧ QuotedText inner value

/-- The attributes with their values. -/
inductive AttributesText : List UInt8 → List (List UInt8 × List UInt8) → Prop
  | nil {blanks : List UInt8} : IsBlanks blanks → AttributesText blanks []
  | cons {blanks blanks' name raw value rest : List UInt8}
      {attributes : List (List UInt8 × List UInt8)} :
      IsBlanks blanks → IsBlanks blanks' → IsToken name → AttributeText raw value →
      AttributesText rest attributes →
      AttributesText (blanks ++ 59 :: (blanks' ++ (name ++ 61 :: (raw ++ rest))))
        ((name, value) :: attributes)

/-- A header value with its type and its attributes. -/
inductive ContentTypeText : List UInt8 → List UInt8 → List (List UInt8 × List UInt8) → Prop
  | mk {blanks type subtype rest : List UInt8} {attributes : List (List UInt8 × List UInt8)} :
      IsBlanks blanks → IsToken type → IsToken subtype → AttributesText rest attributes →
      ContentTypeText (blanks ++ (type ++ 47 :: (subtype ++ rest))) (type ++ 47 :: subtype)
        attributes

/-! ## 3. Tokens and quoted strings -/

variable {ε : Type} {p p' token value : List UInt8}

/-- The text does not go on with such a character. -/
def Stops (char : UInt8 → Bool) (p : List UInt8) : Prop := ∀ ch ∈ p.head?, char ch = false

theorem Stops.cons {char : UInt8 → Bool} {ch : UInt8} (h : char ch = false) (p : List UInt8) :
    Stops char (ch :: p) := by
  intro ch' hch'
  cases hch'
  exact h

theorem dropWhile_append_of_stops {char : UInt8 → Bool} (h : ∀ ch ∈ token, char ch = true)
    (hstops : Stops char p) : (token ++ p).dropWhile char = p := by
  rw [List.dropWhile_append_of_pos h]
  cases p with
  | nil => rfl
  | cons ch p => exact List.dropWhile_cons_of_neg (by rw [hstops ch rfl]; exact Bool.false_ne_true)

theorem takeWhile_append_of_stops {char : UInt8 → Bool} (h : ∀ ch ∈ token, char ch = true)
    (hstops : Stops char p) : (token ++ p).takeWhile char = token := by
  rw [List.takeWhile_append_of_pos h]
  cases p with
  | nil => exact List.append_nil token
  | cons ch p =>
    rw [List.takeWhile_cons_of_neg (by rw [hstops ch rfl]; exact Bool.false_ne_true)]
    exact List.append_nil token

theorem stops_dropWhile (char : UInt8 → Bool) (p : List UInt8) : Stops char (p.dropWhile char) := by
  intro ch hch
  have hnot := List.head?_dropWhile_not char p
  rw [hch] at hnot
  simpa using hnot

/-- The longest token is read. -/
theorem contentTypeToken_eq_ok_iff :
    contentTypeToken (ε := ε) p = .ok (token, p') ↔
      IsToken token ∧ p = token ++ p' ∧ Stops httpIsToken p' := by
  cases p with
  | nil =>
    refine iff_of_false nofun ?_
    rintro ⟨⟨hne, -⟩, happend, -⟩
    exact hne (List.append_eq_nil_iff.mp happend.symm).1
  | cons ch p =>
    rw [contentTypeToken]
    constructor
    · intro h
      split_ifs at h with hch
      cases h
      refine ⟨⟨List.cons_ne_nil _ _, ?_⟩, ?_, stops_dropWhile _ p⟩
      · rw [List.forall_mem_cons]
        exact ⟨httpIsToken_iff.mp hch, fun ch' hch' =>
          httpIsToken_iff.mp (List.mem_takeWhile_imp hch')⟩
      · rw [List.cons_append, List.takeWhile_append_dropWhile]
    · rintro ⟨⟨hne, hchars⟩, happend, hstops⟩
      obtain ⟨first, token, rfl⟩ := List.exists_cons_of_ne_nil hne
      rw [List.cons_append, List.cons.injEq] at happend
      obtain ⟨rfl, rfl⟩ := happend
      rw [List.forall_mem_cons] at hchars
      have htoken : ∀ ch ∈ token, httpIsToken ch = true :=
        fun ch hch => httpIsToken_iff.mpr (hchars.2 ch hch)
      rw [if_pos (httpIsToken_iff.mpr hchars.1), dropWhile_append_of_stops htoken hstops,
        takeWhile_append_of_stops htoken hstops]

theorem contentTypeChar_eq_ok_iff {expected : UInt8} :
    contentTypeChar (ε := ε) expected p = .ok p' ↔ p = expected :: p' := by
  cases p with
  | nil => simp [contentTypeChar]
  | cons ch p =>
    rw [contentTypeChar]
    split_ifs with hch
    · rw [hch, Except.ok.injEq, List.cons.injEq, and_iff_right rfl]
    · exact iff_of_false (by simp) fun heq => hch (List.cons.inj heq).1

theorem contentTypeQuoted_eq_ok_iff :
    contentTypeQuoted (ε := ε) p = .ok (value, p') ↔
      ∃ inner, p = inner ++ 34 :: p' ∧ QuotedText inner value := by
  constructor
  · intro h
    fun_induction contentTypeQuoted p generalizing p' value with
    | case2 =>
      cases h
      exact ⟨[], rfl, .nil⟩
    | case5 =>
      cases h
      exact ⟨[], rfl, .nil⟩
    | case7 next p hchar _ ih =>
      obtain ⟨⟨value, p₁⟩, hvalue, h⟩ := bind_eq_ok.mp h
      cases h
      obtain ⟨inner, rfl, hinner⟩ := ih hvalue
      rw [not_or, Bool.not_eq_true', Bool.not_eq_false, httpIsChar_iff] at hchar
      exact ⟨92 :: next :: inner, rfl, .escape hchar.1 hchar.2 hinner⟩
    | case8 ch next p hquote hescape htext ih =>
      obtain ⟨⟨value, p₁⟩, hvalue, h⟩ := bind_eq_ok.mp h
      cases h
      obtain ⟨inner, hp, hinner⟩ := ih hvalue
      refine ⟨ch :: inner, ?_, .text (httpIsText_iff.mp htext) hquote hescape hinner⟩
      rw [hp, List.cons_append]
    | _ => cases h
  · rintro ⟨inner, rfl, hinner⟩
    induction hinner with
    | nil =>
      cases p' with
      | nil => rfl
      | cons next p' => rw [List.nil_append, contentTypeQuoted, if_pos rfl]
    | @text ch raw value htext hquote hescape hraw ih =>
      obtain ⟨next, rest, hrest⟩ : ∃ next rest, raw ++ 34 :: p' = next :: rest :=
        List.exists_cons_of_ne_nil (by simp)
      rw [List.cons_append, hrest, contentTypeQuoted, if_neg hquote, if_neg hescape,
        if_pos (httpIsText_iff.mpr htext), ← hrest, ih]
      rfl
    | @escape ch raw value hne hchar hraw ih =>
      have hnot : ¬ (ch = 0 ∨ (!httpIsChar ch) = true) := by
        rw [httpIsChar_iff.mpr hchar]
        exact not_or_intro hne Bool.false_ne_true
      rw [List.cons_append, List.cons_append, contentTypeQuoted, if_neg (by decide), if_pos rfl,
        if_neg hnot, ih]
      rfl

theorem contentTypeValue_eq_ok_iff :
    contentTypeValue (ε := ε) p = .ok (value, p') ↔
      (IsToken value ∧ p = value ++ p' ∧ Stops httpIsToken p') ∨
      ∃ inner, p = 34 :: (inner ++ 34 :: p') ∧ QuotedText inner value := by
  have hquote : ¬ IsTokenChar 34 := by decide
  cases p with
  | nil =>
    refine iff_of_false nofun ?_
    rintro (⟨⟨hne, -⟩, happend, -⟩ | ⟨inner, ⟨⟩, -⟩)
    exact hne (List.append_eq_nil_iff.mp happend.symm).1
  | cons ch p =>
    rw [contentTypeValue]
    split_ifs with hch
    · subst hch
      rw [contentTypeQuoted_eq_ok_iff]
      constructor
      · rintro ⟨inner, rfl, hinner⟩
        exact .inr ⟨inner, rfl, hinner⟩
      · rintro (⟨⟨hne, hchars⟩, happend, -⟩ | ⟨inner, hp, hinner⟩)
        · obtain ⟨first, value, rfl⟩ := List.exists_cons_of_ne_nil hne
          obtain ⟨rfl, -⟩ := List.cons.inj happend
          exact absurd (hchars 34 List.mem_cons_self) hquote
        · exact ⟨inner, (List.cons.inj hp).2, hinner⟩
    · rw [contentTypeToken_eq_ok_iff, or_iff_left]
      rintro ⟨inner, hp, -⟩
      exact hch (List.cons.inj hp).1

/-! ## 4. Attributes -/

theorem isBlanks_takeWhile (p : List UInt8) : IsBlanks (p.takeWhile httpIsLws) :=
  fun _ hch => httpIsLws_iff.mp (List.mem_takeWhile_imp hch)

theorem takeWhile_append_skipLws (p : List UInt8) : p.takeWhile httpIsLws ++ skipLws p = p :=
  List.takeWhile_append_dropWhile

theorem skipLws_append {blanks : List UInt8} (h : IsBlanks blanks) (hstops : Stops httpIsLws p) :
    skipLws (blanks ++ p) = p :=
  dropWhile_append_of_stops (fun ch hch => httpIsLws_iff.mpr (h ch hch)) hstops

-- A token does not start with a blank.
theorem stops_token (h : IsToken token) (p : List UInt8) : Stops httpIsLws (token ++ p) := by
  obtain ⟨ch, token, rfl⟩ := List.exists_cons_of_ne_nil h.1
  refine .cons ?_ _
  have hchar := h.2 ch List.mem_cons_self
  rw [Bool.eq_false_iff, ne_eq, httpIsLws_iff]
  intro hblank
  have hall : ∀ blank ∈ ascii "\t\n\r ", ¬ IsTokenChar blank :=
    List.all_iff_forall_prop.mp rfl
  exact hall ch hblank hchar

theorem contentTypeAttribute_sound {name : List UInt8}
    (h : contentTypeAttribute (ε := ε) p = .ok (name, value, p')) :
    ∃ blanks raw, IsBlanks blanks ∧ IsToken name ∧ AttributeText raw value ∧
      p = 59 :: (blanks ++ (name ++ 61 :: (raw ++ p'))) := by
  obtain ⟨p₁, h₁, h⟩ := bind_eq_ok.mp h
  obtain ⟨⟨name, p₂⟩, h₂, h⟩ := bind_eq_ok.mp h
  obtain ⟨p₃, h₃, h⟩ := bind_eq_ok.mp h
  obtain ⟨⟨value, p₄⟩, h₄, h⟩ := bind_eq_ok.mp h
  cases h
  obtain rfl := contentTypeChar_eq_ok_iff.mp h₁
  obtain ⟨hname, hskip, -⟩ := contentTypeToken_eq_ok_iff.mp h₂
  obtain rfl := contentTypeChar_eq_ok_iff.mp h₃
  have hvalue : ∃ raw, AttributeText raw value ∧ p₃ = raw ++ p' := by
    rcases contentTypeValue_eq_ok_iff.mp h₄ with ⟨htoken, hp, -⟩ | ⟨inner, hp, hinner⟩
    · exact ⟨value, .inl ⟨htoken, rfl⟩, hp⟩
    · exact ⟨34 :: (inner ++ [34]), .inr ⟨inner, rfl, hinner⟩, by simp [hp]⟩
  obtain ⟨raw, hraw, rfl⟩ := hvalue
  refine ⟨_, raw, isBlanks_takeWhile p₁, hname, hraw, ?_⟩
  rw [← hskip, takeWhile_append_skipLws]

theorem contentTypeAttribute_complete {blanks name raw : List UInt8} (hblanks : IsBlanks blanks)
    (hname : IsToken name) (hraw : AttributeText raw value) (hstops : Stops httpIsToken p') :
    contentTypeAttribute (ε := ε) (59 :: (blanks ++ (name ++ 61 :: (raw ++ p')))) =
      .ok (name, value, p') := by
  have htoken : contentTypeToken (ε := ε) (skipLws (blanks ++ (name ++ 61 :: (raw ++ p')))) =
      .ok (name, 61 :: (raw ++ p')) := by
    rw [skipLws_append hblanks (stops_token hname _)]
    exact contentTypeToken_eq_ok_iff.mpr ⟨hname, rfl, .cons (by decide) _⟩
  have hvalue : contentTypeValue (ε := ε) (raw ++ p') = .ok (value, p') := by
    rw [contentTypeValue_eq_ok_iff]
    rcases hraw with ⟨hraw, rfl⟩ | ⟨inner, rfl, hinner⟩
    · exact .inl ⟨hraw, rfl, hstops⟩
    · exact .inr ⟨inner, by simp, hinner⟩
  refine bind_eq_ok.mpr ⟨_, contentTypeChar_eq_ok_iff.mpr rfl, ?_⟩
  refine bind_eq_ok.mpr ⟨_, htoken, ?_⟩
  refine bind_eq_ok.mpr ⟨_, contentTypeChar_eq_ok_iff.mpr rfl, ?_⟩
  exact bind_eq_ok.mpr ⟨_, hvalue, rfl⟩

-- Attributes start with a blank or a semicolon.
theorem AttributesText.stops {rest : List UInt8} {attributes : List (List UInt8 × List UInt8)}
    (h : AttributesText rest attributes) : Stops httpIsToken (rest ++ [0]) := by
  have hstops : ∀ blanks p, IsBlanks blanks → Stops httpIsToken p →
      Stops httpIsToken (blanks ++ p) := by
    intro blanks p hblanks hp
    cases blanks with
    | nil => exact hp
    | cons ch blanks =>
      have hall : ∀ blank ∈ ascii "\t\n\r ", httpIsToken blank = false :=
        List.all_iff_forall_prop.mp rfl
      exact .cons (hall ch (hblanks ch List.mem_cons_self)) _
  cases h with
  | nil hblanks => exact hstops _ _ hblanks (.cons (by decide) _)
  | cons hblanks =>
    rw [List.append_assoc]
    exact hstops _ _ hblanks (.cons (by decide) _)

/-! ## 5. The whole value -/

variable {ω : Type} {typeCb : List UInt8 → Emits ε ω Unit}
  {attributeCb : List UInt8 → List UInt8 → Emits ε ω Unit} {text type : List UInt8}
  {attributes : List (List UInt8 × List UInt8)}

/-- What the callbacks do with a type and its attributes. -/
def contentTypeCalls (typeCb : List UInt8 → Emits ε ω Unit)
    (attributeCb : List UInt8 → List UInt8 → Emits ε ω Unit) (type : List UInt8)
    (attributes : List (List UInt8 × List UInt8)) : Emits ε ω Unit := do
  typeCb type
  attributes.forM fun p => attributeCb p.1 p.2

theorem mapError_bind {ε' α γ : Type} (g : ε → ε') (x : Emits ε ω α) (f : α → Emits ε ω γ) :
    (x >>= f).mapError g = x.mapError g >>= fun a => (f a).mapError g := by
  obtain ⟨v, log⟩ := x
  cases v with
  | error e => rfl
  | ok a => rfl

theorem contentTypeAttributes_end {rest : List UInt8} (h : skipLws p = 0 :: rest) :
    contentTypeAttributes attributeCb p = pure () := by
  rw [contentTypeAttributes]
  split
  next heq => cases heq.symm.trans h
  next heq =>
    cases heq.symm.trans h
    rw [if_pos rfl]

theorem contentTypeAttributes_attribute {ch : UInt8} {rest name : List UInt8}
    (h : skipLws p = ch :: rest) (hch : ch ≠ 0)
    (hattribute : contentTypeAttribute (ε := ε) (ch :: rest) = .ok (name, value, p')) :
    contentTypeAttributes attributeCb p = (attributeCb name value).mapError .callback >>= fun _ =>
      contentTypeAttributes attributeCb p' := by
  rw [contentTypeAttributes]
  split
  next heq => cases heq.symm.trans h
  next heq =>
    cases heq.symm.trans h
    rw [if_neg hch]
    split
    next heq => cases heq.symm.trans hattribute
    next heq =>
      cases heq.symm.trans hattribute
      rfl

theorem contentTypeAttributes_complete {rest : List UInt8} (h : AttributesText rest attributes) :
    contentTypeAttributes attributeCb (rest ++ [0]) =
      (attributes.forM fun p => attributeCb p.1 p.2).mapError .callback := by
  induction h with
  | nil hblanks =>
    exact contentTypeAttributes_end (skipLws_append hblanks (.cons (by decide) _))
  | @cons blanks blanks' name raw value rest attributes hblanks hblanks' hname hraw hrest ih =>
    have hskip : skipLws (blanks ++ 59 :: (blanks' ++ (name ++ 61 :: (raw ++ rest))) ++ [0]) =
        59 :: (blanks' ++ (name ++ 61 :: (raw ++ (rest ++ [0])))) := by
      rw [List.append_assoc, List.cons_append, skipLws_append hblanks (.cons (by decide) _)]
      simp
    rw [contentTypeAttributes_attribute hskip (by decide)
      (contentTypeAttribute_complete hblanks' hname hraw hrest.stops), ih]
    exact (mapError_bind _ _ _).symm

/-- The callbacks are called with the parts of a text of the grammar. -/
theorem parseContentType_complete (h : ContentTypeText text type attributes) :
    parseContentType (text ++ [0]) typeCb attributeCb =
      (contentTypeCalls typeCb attributeCb type attributes).mapError .callback := by
  obtain ⟨hblanks, htype, hsubtype, hattributes⟩ := h
  rename_i blanks type subtype rest
  have hskip : skipLws (blanks ++ (type ++ 47 :: (subtype ++ rest)) ++ [0]) =
      type ++ 47 :: (subtype ++ (rest ++ [0])) := by
    rw [List.append_assoc, skipLws_append hblanks]
    · simp
    · rw [List.append_assoc]
      exact stops_token htype _
  have hfront : contentTypeType (ε := ε) (blanks ++ (type ++ 47 :: (subtype ++ rest)) ++ [0]) =
      .ok (type ++ 47 :: subtype, rest ++ [0]) := by
    unfold contentTypeType
    rw [hskip]
    refine bind_eq_ok.mpr ⟨_, contentTypeToken_eq_ok_iff.mpr ⟨htype, rfl, .cons (by decide) _⟩, ?_⟩
    refine bind_eq_ok.mpr ⟨_, contentTypeChar_eq_ok_iff.mpr rfl, ?_⟩
    refine bind_eq_ok.mpr
      ⟨_, contentTypeToken_eq_ok_iff.mpr ⟨hsubtype, rfl, hattributes.stops⟩, ?_⟩
    simp
    rfl
  unfold parseContentType contentTypeCalls
  rw [hfront]
  dsimp only
  rw [contentTypeAttributes_complete hattributes, mapError_bind]

/-! ## 6. The null character -/

/-- A string up to its null character. -/
def Terminated (p : List UInt8) : Prop := ∃ text, 0 ∉ text ∧ p = text ++ [0]

theorem terminated_cons {ch : UInt8} :
    Terminated (ch :: p) ↔ ch = 0 ∧ p = [] ∨ ch ≠ 0 ∧ Terminated p := by
  constructor
  · rintro ⟨text, hnull, htext⟩
    cases text with
    | nil =>
      obtain ⟨rfl, rfl⟩ := List.cons.inj htext
      exact .inl ⟨rfl, rfl⟩
    | cons first text =>
      rw [List.cons_append, List.cons.injEq] at htext
      rw [List.mem_cons, not_or] at hnull
      obtain ⟨rfl, rfl⟩ := htext
      exact .inr ⟨Ne.symm hnull.1, text, hnull.2, rfl⟩
  · rintro (⟨rfl, rfl⟩ | ⟨hch, text, hnull, rfl⟩)
    · exact ⟨[], List.not_mem_nil, rfl⟩
    · refine ⟨ch :: text, ?_, rfl⟩
      rw [List.mem_cons, not_or]
      exact ⟨Ne.symm hch, hnull⟩

theorem Terminated.ne_nil (h : Terminated p) : p ≠ [] := by
  rintro rfl
  obtain ⟨text, -, htext⟩ := h
  cases text <;> cases htext

theorem Terminated.of_append {front : List UInt8} (hfront : 0 ∉ front)
    (h : Terminated (front ++ p)) : Terminated p := by
  induction front with
  | nil => exact h
  | cons ch front ih =>
    rw [List.mem_cons, not_or] at hfront
    rcases terminated_cons.mp h with ⟨rfl, -⟩ | ⟨-, hrest⟩
    · exact absurd rfl hfront.1
    · exact ih hfront.2 hrest

theorem IsBlanks.null_not_mem (h : IsBlanks p) : 0 ∉ p :=
  fun hmem => absurd (h 0 hmem) (by decide)

theorem IsToken.null_not_mem (h : IsToken p) : 0 ∉ p :=
  fun hmem => absurd (h.2 0 hmem) (by decide)

theorem QuotedText.null_not_mem {raw : List UInt8} (h : QuotedText raw value) : 0 ∉ raw := by
  induction h with
  | nil => exact List.not_mem_nil
  | text htext _ _ _ ih =>
    rw [List.mem_cons, not_or]
    refine ⟨?_, ih⟩
    rintro rfl
    exact absurd htext (by decide)
  | escape hne _ _ ih =>
    rw [List.mem_cons, List.mem_cons, not_or, not_or]
    exact ⟨by decide, Ne.symm hne, ih⟩

theorem AttributeText.null_not_mem {raw : List UInt8} (h : AttributeText raw value) : 0 ∉ raw := by
  rcases h with ⟨htoken, -⟩ | ⟨inner, rfl, hinner⟩
  · exact htoken.null_not_mem
  · rw [List.mem_cons, List.mem_append, not_or, not_or]
    exact ⟨by decide, hinner.null_not_mem, by decide⟩

-- What a call that gets past it leaves.
theorem terminated_skipLws (h : Terminated p) : Terminated (skipLws p) := by
  rw [← takeWhile_append_skipLws p] at h
  exact h.of_append (isBlanks_takeWhile p).null_not_mem

theorem terminated_token (h : Terminated p) (hok : contentTypeToken (ε := ε) p = .ok (token, p')) :
    Terminated p' := by
  obtain ⟨htoken, rfl, -⟩ := contentTypeToken_eq_ok_iff.mp hok
  exact h.of_append htoken.null_not_mem

theorem terminated_char {expected : UInt8} (hexpected : expected ≠ 0) (h : Terminated p)
    (hok : contentTypeChar (ε := ε) expected p = .ok p') : Terminated p' := by
  obtain rfl := contentTypeChar_eq_ok_iff.mp hok
  rcases terminated_cons.mp h with ⟨hnull, -⟩ | ⟨-, hrest⟩
  · exact absurd hnull hexpected
  · exact hrest

theorem terminated_attribute {name : List UInt8} (h : Terminated p)
    (hok : contentTypeAttribute (ε := ε) p = .ok (name, value, p')) : Terminated p' := by
  obtain ⟨blanks, raw, hblanks, hname, hraw, rfl⟩ := contentTypeAttribute_sound hok
  have hafter : Terminated (name ++ 61 :: (raw ++ p')) :=
    .of_append hblanks.null_not_mem (@Terminated.of_append _ [59] (by decide) h)
  have hvalue : Terminated (raw ++ p') :=
    @Terminated.of_append _ [61] (by decide) (.of_append hname.null_not_mem hafter)
  exact hvalue.of_append hraw.null_not_mem

-- None of them gets past it.
theorem token_ne_overread (h : Terminated p) :
    contentTypeToken (ε := ε) p ≠ .error .overread := by
  obtain ⟨ch, p, rfl⟩ := List.exists_cons_of_ne_nil h.ne_nil
  rw [contentTypeToken]
  split <;> simp

theorem char_ne_overread {expected : UInt8} (h : Terminated p) :
    contentTypeChar (ε := ε) expected p ≠ .error .overread := by
  obtain ⟨ch, p, rfl⟩ := List.exists_cons_of_ne_nil h.ne_nil
  rw [contentTypeChar]
  split <;> simp

theorem bind_ne_overread {α γ : Type} {x : Except (ContentTypeStop ε) α}
    {f : α → Except (ContentTypeStop ε) γ} (h : x ≠ .error .overread)
    (hf : ∀ a, x = .ok a → f a ≠ .error .overread) : (x >>= f) ≠ .error .overread := by
  cases x with
  | error e =>
    intro heq
    cases heq
    exact h rfl
  | ok a => exact hf a rfl

theorem quoted_ne_overread (h : Terminated p) :
    contentTypeQuoted (ε := ε) p ≠ .error .overread := by
  fun_induction contentTypeQuoted p with
  | case1 => exact absurd rfl h.ne_nil
  | case3 ch hquote hchar =>
    -- the last byte is the null character
    rcases terminated_cons.mp h with ⟨rfl, -⟩ | ⟨-, hrest⟩
    · exact absurd hchar (by decide)
    · exact absurd rfl hrest.ne_nil
  | case7 next p hchar _ ih =>
    rw [not_or] at hchar
    have hnext : Terminated (next :: p) := @Terminated.of_append _ [92] (by decide) h
    rcases terminated_cons.mp hnext with ⟨hnull, -⟩ | ⟨-, hrest⟩
    · exact absurd hnull hchar.1
    · exact bind_ne_overread (ih hrest) fun _ _ => by simp [pure, Except.pure]
  | case8 ch next p hquote hescape htext ih =>
    rcases terminated_cons.mp h with ⟨rfl, -⟩ | ⟨-, hrest⟩
    · exact absurd htext (by decide)
    · exact bind_ne_overread (ih hrest) fun _ _ => by simp [pure, Except.pure]
  | _ => simp

theorem value_ne_overread (h : Terminated p) :
    contentTypeValue (ε := ε) p ≠ .error .overread := by
  obtain ⟨ch, p, rfl⟩ := List.exists_cons_of_ne_nil h.ne_nil
  rw [contentTypeValue]
  split
  next hquote =>
    subst hquote
    exact quoted_ne_overread (@Terminated.of_append _ [34] (by decide) h)
  next => exact token_ne_overread h

theorem attribute_ne_overread (h : Terminated p) :
    contentTypeAttribute (ε := ε) p ≠ .error .overread := by
  refine bind_ne_overread (char_ne_overread h) fun p₁ h₁ => ?_
  have hblanks := terminated_skipLws (terminated_char (by decide) h h₁)
  refine bind_ne_overread (token_ne_overread hblanks) fun ⟨name, p₂⟩ h₂ => ?_
  have hname := terminated_token hblanks h₂
  refine bind_ne_overread (char_ne_overread hname) fun p₃ h₃ => ?_
  have hequals := terminated_char (by decide) hname h₃
  exact bind_ne_overread (value_ne_overread hequals) fun _ _ => nofun

theorem callback_ne_overread {α : Type} (x : Emits ε ω α) :
    (x.mapError ContentTypeStop.callback).value ≠ .error .overread := by
  obtain ⟨v, log⟩ := x
  cases v <;> exact nofun

theorem emits_bind_ne_overread {α γ : Type} {x : Emits (ContentTypeStop ε) ω α}
    {f : α → Emits (ContentTypeStop ε) ω γ} (h : x.value ≠ .error .overread)
    (hf : ∀ a, (f a).value ≠ .error .overread) : (x >>= f).value ≠ .error .overread := by
  cases hx : x.value with
  | error e =>
    rw [value_bind_of_error hx]
    intro heq
    cases heq
    exact h hx
  | ok a =>
    rw [value_bind_of_ok hx]
    exact hf a

theorem attributes_ne_overread (h : Terminated p) :
    (contentTypeAttributes attributeCb p).value ≠ .error .overread := by
  fun_induction contentTypeAttributes attributeCb p with
  | case1 p hskip => exact absurd hskip (terminated_skipLws h).ne_nil
  | case2 => exact nofun
  | case3 p ch rest hskip hch e hattribute =>
    have hterminated := terminated_skipLws h
    rw [hskip] at hterminated
    intro heq
    cases heq
    exact attribute_ne_overread hterminated hattribute
  | case4 p ch rest hskip hch name value p' hattribute ih =>
    have hterminated := terminated_skipLws h
    rw [hskip] at hterminated
    exact emits_bind_ne_overread (callback_ne_overread _)
      fun _ => ih (terminated_attribute hterminated hattribute)

theorem type_ne_overread (h : Terminated p) :
    contentTypeType (ε := ε) p ≠ .error .overread := by
  have hblanks := terminated_skipLws h
  refine bind_ne_overread (token_ne_overread hblanks) fun ⟨type, p₁⟩ h₁ => ?_
  have htype := terminated_token hblanks h₁
  refine bind_ne_overread (char_ne_overread htype) fun p₂ h₂ => ?_
  have hslash := terminated_char (by decide) htype h₂
  exact bind_ne_overread (token_ne_overread hslash) fun _ _ => nofun

theorem contentTypeType_sound (hok : contentTypeType (ε := ε) p = .ok (type, p')) :
    ∃ blanks type₁ subtype, IsBlanks blanks ∧ IsToken type₁ ∧ IsToken subtype ∧
      type = type₁ ++ 47 :: subtype ∧ p = blanks ++ (type₁ ++ 47 :: (subtype ++ p')) := by
  obtain ⟨⟨type₁, p₁⟩, h₁, hok⟩ := bind_eq_ok.mp hok
  obtain ⟨p₂, h₂, hok⟩ := bind_eq_ok.mp hok
  obtain ⟨⟨subtype, p₃⟩, h₃, hok⟩ := bind_eq_ok.mp hok
  cases hok
  obtain ⟨htype, hskip, -⟩ := contentTypeToken_eq_ok_iff.mp h₁
  obtain rfl := contentTypeChar_eq_ok_iff.mp h₂
  obtain ⟨hsubtype, rfl, -⟩ := contentTypeToken_eq_ok_iff.mp h₃
  refine ⟨_, type₁, subtype, isBlanks_takeWhile p, htype, hsubtype, by simp, ?_⟩
  rw [← hskip, takeWhile_append_skipLws]

theorem parseContentType_ne_overread (h : Terminated p) :
    (parseContentType p typeCb attributeCb).value ≠ .error .overread := by
  unfold parseContentType
  split
  next e htype =>
    intro heq
    cases heq
    exact type_ne_overread h htype
  next type p' htype =>
    obtain ⟨blanks, type₁, subtype, hblanks, htype₁, hsubtype, -, rfl⟩ :=
      contentTypeType_sound htype
    have hafter : Terminated (subtype ++ p') := @Terminated.of_append _ [47] (by decide)
      (.of_append htype₁.null_not_mem (h.of_append hblanks.null_not_mem))
    exact emits_bind_ne_overread (callback_ne_overread _)
      fun _ => attributes_ne_overread (hafter.of_append hsubtype.null_not_mem)

/-! ## 7. Values that are parsed -/

-- The text behind some of it.
theorem text_of_append {front : List UInt8} (htext : 0 ∉ text) (hfront : 0 ∉ front)
    (h : front ++ p = text ++ [0]) : ∃ rest, 0 ∉ rest ∧ p = rest ++ [0] ∧ text = front ++ rest := by
  have hterminated : Terminated (front ++ p) := ⟨text, htext, h⟩
  obtain ⟨rest, hrest, rfl⟩ := hterminated.of_append hfront
  rw [← List.append_assoc] at h
  exact ⟨rest, hrest, rfl, (List.append_cancel_right h).symm⟩

theorem contentTypeAttributes_sound (htext : 0 ∉ text)
    (hok : (contentTypeAttributes attributeCb (text ++ [0])).value = .ok ()) :
    ∃ attributes, AttributesText text attributes := by
  generalize hp : text ++ [0] = p at hok
  fun_induction contentTypeAttributes attributeCb p generalizing text with
  | case1 => cases hok
  | case2 p rest hskip =>
    have hblanks := isBlanks_takeWhile p
    rw [← takeWhile_append_skipLws p, hskip] at hp
    obtain ⟨rest', hrest', hnull, rfl⟩ := text_of_append htext hblanks.null_not_mem hp.symm
    cases rest' with
    | nil =>
      rw [List.append_nil]
      exact ⟨[], .nil hblanks⟩
    | cons ch rest' =>
      obtain ⟨rfl, -⟩ := List.cons.inj hnull
      exact absurd List.mem_cons_self hrest'
  | case3 => cases hok
  | case4 p ch rest hskip hch name value p' hattribute ih =>
    obtain ⟨_, -, hok⟩ := value_bind_eq_ok hok
    have hblanks := isBlanks_takeWhile p
    obtain ⟨blanks, raw, hblanks', hname, hraw, hp'⟩ := contentTypeAttribute_sound hattribute
    rw [← takeWhile_append_skipLws p, hskip, hp'] at hp
    have hfront : 0 ∉ p.takeWhile httpIsLws ++ 59 :: (blanks ++ (name ++ 61 :: raw)) := by
      have hname' := hname.null_not_mem
      have hraw' := hraw.null_not_mem
      simp [hblanks.null_not_mem, hblanks'.null_not_mem, hname', hraw']
    have happend : (p.takeWhile httpIsLws ++ 59 :: (blanks ++ (name ++ 61 :: raw))) ++ p' =
        text ++ [0] := by
      rw [hp]
      simp
    obtain ⟨rest', hrest', rfl, rfl⟩ := text_of_append htext hfront happend
    obtain ⟨attributes, hattributes⟩ := ih hrest' rfl hok
    have htext := AttributesText.cons hblanks hblanks' hname hraw hattributes
    refine ⟨(name, value) :: attributes, ?_⟩
    simpa using htext

theorem parseContentType_sound (htext : 0 ∉ text)
    (hok : (parseContentType (text ++ [0]) typeCb attributeCb).value = .ok ()) :
    ∃ type attributes, ContentTypeText text type attributes := by
  unfold parseContentType at hok
  split at hok
  next => cases hok
  next type p' htype =>
    obtain ⟨_, -, hok⟩ := value_bind_eq_ok hok
    obtain ⟨blanks, type₁, subtype, hblanks, htype₁, hsubtype, -, hp⟩ := contentTypeType_sound htype
    have hfront : 0 ∉ blanks ++ (type₁ ++ 47 :: subtype) := by
      simp [hblanks.null_not_mem, htype₁.null_not_mem, hsubtype.null_not_mem]
    have happend : (blanks ++ (type₁ ++ 47 :: subtype)) ++ p' = text ++ [0] := by
      rw [hp]
      simp
    obtain ⟨rest, hrest, rfl, rfl⟩ := text_of_append htext hfront happend
    obtain ⟨attributes, hattributes⟩ := contentTypeAttributes_sound hrest hok
    have htext := ContentTypeText.mk hblanks htype₁ hsubtype hattributes
    refine ⟨type₁ ++ 47 :: subtype, attributes, ?_⟩
    simpa using htext

-- Callbacks that accept everything.
theorem contentTypeCalls_ok (htype : ∀ type, (typeCb type).value = .ok ())
    (hattribute : ∀ name value, (attributeCb name value).value = .ok ()) (type : List UInt8)
    (attributes : List (List UInt8 × List UInt8)) :
    (contentTypeCalls typeCb attributeCb type attributes).value = .ok () := by
  unfold contentTypeCalls
  rw [value_bind_of_ok (htype type)]
  induction attributes with
  | nil => rfl
  | cons p attributes ih =>
    have hcons := value_bind_of_ok (f := fun _ => attributes.forM fun p => attributeCb p.1 p.2)
      (hattribute p.1 p.2)
    exact hcons.trans ih

/-- With callbacks that accept everything the values of the grammar are parsed and no others; the
callbacks are given the type and the attributes in their order.  The parser never moves past the
null character. -/
theorem contentType_matches_grammar (text : List UInt8) (htext : 0 ∉ text) :
    (∀ (typeCb : List UInt8 → Emits ε ω Unit)
      (attributeCb : List UInt8 → List UInt8 → Emits ε ω Unit),
      (∀ type, (typeCb type).value = .ok ()) →
      (∀ name value, (attributeCb name value).value = .ok ()) →
      ((parseContentType (text ++ [0]) typeCb attributeCb).value = .ok () ↔
        ∃ type attributes, ContentTypeText text type attributes)) ∧
    (∀ (typeCb : List UInt8 → Emits ε ω Unit)
      (attributeCb : List UInt8 → List UInt8 → Emits ε ω Unit) type attributes,
      ContentTypeText text type attributes →
      parseContentType (text ++ [0]) typeCb attributeCb =
        (contentTypeCalls typeCb attributeCb type attributes).mapError .callback) ∧
    ∀ (typeCb : List UInt8 → Emits ε ω Unit)
      (attributeCb : List UInt8 → List UInt8 → Emits ε ω Unit),
      (parseContentType (text ++ [0]) typeCb attributeCb).value ≠ .error .overread := by
  refine ⟨?_, fun _ _ _ _ => parseContentType_complete,
    fun _ _ => parseContentType_ne_overread ⟨text, htext, rfl⟩⟩
  intro typeCb attributeCb htype hattribute
  refine ⟨parseContentType_sound htext, ?_⟩
  rintro ⟨type, attributes, hmatches⟩
  have hcalls := contentTypeCalls_ok htype hattribute type attributes
  rw [parseContentType_complete hmatches]
  show Except.mapError _ (contentTypeCalls typeCb attributeCb type attributes).value = .ok ()
  rw [hcalls]
  rfl

-- A value with an attribute, for callbacks that record what they are given.
theorem plain_matches_grammar :
    ((parseContentType (ascii "text/plain; charset=utf-8" ++ [0])
        (fun type => tell [(type, [])] : List UInt8 → Emits Unit (List UInt8 × List UInt8) Unit)
        fun name value => tell [(name, value)]).value = .ok () ↔
      ∃ type attributes, ContentTypeText (ascii "text/plain; charset=utf-8") type attributes) :=
  (contentType_matches_grammar (ascii "text/plain; charset=utf-8") (by decide)).1 _ _
    (fun _ => rfl) fun _ _ => rfl

end Notbit.Mail
