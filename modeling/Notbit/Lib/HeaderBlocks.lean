import Mathlib.Tactic

/-!
# HeaderBlocks — fields, a blank line and a body

A mail starts with fields, one a line, up to a blank line.  A line that starts with a blank goes on
with the field before it.  Fields whose bytes are text are read back whatever follows them.
-/

namespace HeaderBlocks

/-- A byte of a value: seven bits and no control character. -/
def IsText (ch : UInt8) : Prop := 32 ≤ ch.toNat ∧ ch.toNat < 128

/-- A byte of a name. -/
def IsNameByte (ch : UInt8) : Prop := 33 ≤ ch.toNat ∧ ch.toNat < 127 ∧ ch ≠ 58

instance (ch : UInt8) : Decidable (IsText ch) := inferInstanceAs (Decidable (_ ∧ _))

instance (ch : UInt8) : Decidable (IsNameByte ch) := inferInstanceAs (Decidable (_ ∧ _ ∧ _))

/-- A field with the lines of its value; all but the first stand behind a blank. -/
structure Field where
  name : List UInt8
  lines : List (List UInt8)
  name_ne : name ≠ []
  name_bytes : ∀ ch ∈ name, IsNameByte ch
  text : ∀ line ∈ lines, ∀ ch ∈ line, IsText ch

namespace Field

def value (field : Field) : List UInt8 := [10, 32].intercalate field.lines

/-- The field as it is written. -/
def write (field : Field) : List UInt8 := field.name ++ [58, 32] ++ field.value ++ [10]

end Field

/-- Fields, the blank line and a body. -/
def writeBlock (fields : List Field) (body : List UInt8) : List UInt8 :=
  fields.flatMap Field.write ++ 10 :: body

/-! ## 1. The reader -/

/-- A line with the lines that go on with it, and what follows them. -/
def splitLine : List UInt8 → List UInt8 × List UInt8
  | [] => ([], [])
  | ch :: data =>
    if ch = 10 ∧ data.head? ≠ some 32 ∧ data.head? ≠ some 9 then ([], data)
    else (ch :: (splitLine data).1, (splitLine data).2)

theorem length_splitLine_le (data : List UInt8) : (splitLine data).2.length ≤ data.length := by
  induction data with
  | nil => exact le_refl _
  | cons ch data ih =>
    rw [splitLine, List.length_cons]
    split
    · exact Nat.le_succ _
    · exact ih.trans (Nat.le_succ _)

/-- The names and values of the fields up to the blank line, and the body behind it; `none` for a
line that is no field and for a block without an end. -/
def readBlock : List UInt8 → Option (List (List UInt8 × List UInt8) × List UInt8)
  | [] => none
  | ch :: data =>
    if ch = 10 then some ([], data)
    else
      let line := ch :: (splitLine data).1
      let name := line.takeWhile (· ≠ 58)
      if name = line then none
      else do
        let (fields, body) ← readBlock (splitLine data).2
        return ((name, line.drop (name.length + 1)) :: fields, body)
termination_by data => data.length
decreasing_by exact Nat.lt_succ_of_le (length_splitLine_le data)

/-! ## 2. What is written is read back -/

variable {field : Field} {line rest : List UInt8}

/-- What does not go on with the line before it. -/
def StartsLine (rest : List UInt8) : Prop := rest.head? ≠ some 32 ∧ rest.head? ≠ some 9

theorem IsText.ne_newline {ch : UInt8} (h : IsText ch) : ch ≠ 10 := by
  rintro rfl
  exact absurd h.1 (by decide)

theorem IsNameByte.ne_newline {ch : UInt8} (h : IsNameByte ch) : ch ≠ 10 := by
  rintro rfl
  exact absurd h.1 (by decide)

theorem splitLine_append (h : ∀ ch ∈ line, ch ≠ 10) (rest : List UInt8) :
    splitLine (line ++ rest) = (line ++ (splitLine rest).1, (splitLine rest).2) := by
  induction line with
  | nil => rfl
  | cons ch line ih =>
    rw [List.forall_mem_cons] at h
    rw [List.cons_append, splitLine, if_neg fun hcond => h.1 hcond.1, ih h.2]
    rfl

theorem splitLine_continued (rest : List UInt8) :
    splitLine (10 :: 32 :: rest) = (10 :: (splitLine (32 :: rest)).1, (splitLine (32 :: rest)).2) := by
  rw [splitLine, if_neg fun hcond => hcond.2.1 rfl]

theorem splitLine_end (h : StartsLine rest) :
    splitLine (10 :: rest) = ([], rest) := by
  rw [splitLine, if_pos ⟨rfl, h⟩]

-- The lines of a value are one line for the reader.
theorem splitLine_value {lines : List (List UInt8)} (h : ∀ line ∈ lines, ∀ ch ∈ line, IsText ch)
    (hrest : StartsLine rest) :
    splitLine ([10, 32].intercalate lines ++ 10 :: rest) = ([10, 32].intercalate lines, rest) := by
  induction lines with
  | nil => exact splitLine_end hrest
  | cons line lines ih =>
    rw [List.forall_mem_cons] at h
    have hline : ∀ ch ∈ line, ch ≠ 10 := fun ch hch => (h.1 ch hch).ne_newline
    cases lines with
    | nil =>
      rw [List.intercalate_singleton, splitLine_append hline, splitLine_end hrest, List.append_nil]
    | cons next lines =>
      have hblank : ∀ ch ∈ [(32 : UInt8)], ch ≠ 10 := List.forall_mem_singleton.mpr (by decide)
      have hmore := @splitLine_append [32] hblank
        ([10, 32].intercalate (next :: lines) ++ 10 :: rest)
      rw [ih h.2] at hmore
      rw [List.intercalate_cons_cons, List.append_assoc, List.append_assoc, splitLine_append hline]
      show (line ++ (splitLine (10 :: 32 :: _)).1, (splitLine (10 :: 32 :: _)).2) = _
      rw [splitLine_continued, show (32 : UInt8) :: _ = [32] ++ _ from rfl, hmore]
      rw [List.append_assoc]
      rfl

theorem startsLine_writeBlock (fields : List Field) (body : List UInt8) :
    StartsLine (writeBlock fields body) := by
  cases fields with
  | nil => exact ⟨by simp [writeBlock], by simp [writeBlock]⟩
  | cons field fields =>
    obtain ⟨ch, name, hname⟩ := List.exists_cons_of_ne_nil field.name_ne
    have hch := field.name_bytes ch (hname ▸ List.mem_cons_self)
    have hhead : (writeBlock (field :: fields) body).head? = some ch := by
      simp [writeBlock, Field.write, hname]
    rw [StartsLine, hhead]
    constructor
    · intro heq
      cases heq
      exact absurd hch.1 (by decide)
    · intro heq
      cases heq
      exact absurd hch.1 (by decide)

theorem splitLine_field (h : StartsLine rest) :
    splitLine (field.write ++ rest) = (field.name ++ [58, 32] ++ field.value, rest) := by
  have hcolon : ∀ ch ∈ [(58 : UInt8), 32], ch ≠ 10 :=
    List.forall_mem_cons.mpr ⟨by decide, List.forall_mem_singleton.mpr (by decide)⟩
  have hname : ∀ ch ∈ field.name ++ [58, 32], ch ≠ 10 := by
    intro ch hch
    rcases List.mem_append.mp hch with hch | hch
    · exact (field.name_bytes ch hch).ne_newline
    · exact hcolon ch hch
  rw [Field.write, List.append_assoc, List.append_assoc, splitLine_append hname,
    List.singleton_append, Field.value, splitLine_value field.text h]

/-- Whatever the body is, the reader finds these fields and this body. -/
theorem readBlock_writeBlock (fields : List Field) (body : List UInt8) :
    readBlock (writeBlock fields body) =
      some (fields.map fun field => (field.name, 32 :: field.value), body) := by
  induction fields with
  | nil =>
    rw [writeBlock, List.flatMap_nil, List.nil_append, readBlock, if_pos rfl]
    rfl
  | cons field fields ih =>
    have hsplit := @splitLine_field field _ (startsLine_writeBlock fields body)
    obtain ⟨ch, name, hname⟩ := List.exists_cons_of_ne_nil field.name_ne
    have hwrite : writeBlock (field :: fields) body = field.write ++ writeBlock fields body := by
      rw [writeBlock, List.flatMap_cons, List.append_assoc, ← writeBlock]
    have hch : ch ≠ 10 := (field.name_bytes ch (hname ▸ List.mem_cons_self)).ne_newline
    have htake : (field.name ++ [58, 32] ++ field.value).takeWhile (· ≠ 58) = field.name := by
      have hbytes : ∀ ch ∈ field.name, decide (ch ≠ 58) = true :=
        fun ch hch => decide_eq_true (field.name_bytes ch hch).2.2
      rw [List.append_assoc, List.takeWhile_append_of_pos hbytes]
      exact List.append_nil _
    obtain ⟨data, hdata⟩ : ∃ data, field.write ++ writeBlock fields body = ch :: data :=
      ⟨name ++ [58, 32] ++ field.value ++ [10] ++ writeBlock fields body, by
        rw [Field.write, hname]
        rfl⟩
    rw [hdata, splitLine, if_neg fun hcond => hch hcond.1] at hsplit
    obtain ⟨hline, hrest⟩ := Prod.mk.inj hsplit
    rw [hwrite, hdata, readBlock, if_neg hch]
    dsimp only
    rw [hline, hrest, htake, ih, if_neg ?_]
    · rw [List.append_assoc, List.drop_length_add_append]
      rfl
    · intro heq
      have hlength := congrArg List.length heq
      simp only [List.length_append, List.length_cons] at hlength
      omega

end HeaderBlocks
