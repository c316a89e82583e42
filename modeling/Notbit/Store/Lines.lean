import Notbit.Store.KeyValue

/-!
# Lines — a file of sections line by line

The tokenizer is at the start of a line behind every newline.  Whether a line starts a section can
be seen from the line alone, and what is found in the lines behind a header depends on these lines
only.
-/

open Scans

namespace Notbit.Store

/-! ## 1. Lines -/

/-- A line, without the newline at its end. -/
abbrev Line : Type := { bytes : List UInt8 // newline ∉ bytes }

/-- The bytes of a file with these lines; the last one may be empty. -/
def fileText (lines : List Line) : List UInt8 := [newline].intercalate (lines.map Subtype.val)

/-- The bytes of a line with its newline. -/
def Line.text (line : Line) : List UInt8 := line.val ++ [newline]

/-- The header in a line: the bytes between the first bracket and the next closing one. -/
def Line.header (line : Line) : Option (List UInt8) :=
  match line.val.dropWhile (· = space) with
  | [] => none
  | ch :: rest => if ch = 91 ∧ 93 ∈ rest then some (cString (rest.takeWhile (· ≠ 93))) else none

/-- The line starts a section. -/
def Line.startsSection (line : Line) : Bool := line.header.isSome

namespace KeyValueData

variable {data : KeyValueData}

theorem atStart_newline (data : KeyValueData) : (data.handleByte newline).1.AtStart := by
  obtain ⟨st, key, value⟩ := data
  cases st with
  | headerStart => exact .inl rfl
  | badHeaderStart => exact .inl rfl
  | readingHeader => exact .inr rfl
  | endHeaderLine => exact .inr rfl
  | endHeaderLine2 => exact .inr rfl
  | fieldStart => exact .inr rfl
  | readingFieldName => exact .inr rfl
  | waitingEquals => exact .inr rfl
  | badField => exact .inr rfl
  | waitingValueStart => exact .inr rfl
  | readingValue => exact .inr rfl

/-- The states in which no header can be found before the end of the line. -/
def InField (data : KeyValueData) : Prop :=
  match data.state with
  | .badHeaderStart | .readingFieldName | .waitingEquals | .badField | .waitingValueStart
  | .readingValue => True
  | _ => False

/-- The states behind the closing bracket of a header. -/
def PastHeader (data : KeyValueData) : Prop :=
  match data.state with
  | .endHeaderLine | .endHeaderLine2 => True
  | _ => False

theorem inField_handleByte {ch : UInt8} (h : data.InField) (hch : ch ≠ newline) :
    (data.handleByte ch).1.InField ∧ (data.handleByte ch).2 = none := by
  obtain ⟨st, key, value⟩ := data
  cases st with
  | headerStart | readingHeader | endHeaderLine | endHeaderLine2 | fieldStart => exact h.elim
  | badHeaderStart | badField | readingValue =>
    unfold handleByte
    dsimp only
    rw [if_neg hch]
    exact ⟨trivial, rfl⟩
  | readingFieldName | waitingEquals | waitingValueStart =>
    unfold handleByte
    dsimp only
    simp only [hch, if_false]
    split_ifs <;> exact ⟨trivial, rfl⟩

theorem pastHeader_handleByte {ch : UInt8} (h : data.PastHeader) (hch : ch ≠ newline) :
    (data.handleByte ch).1.PastHeader ∧ (data.handleByte ch).2 = none := by
  obtain ⟨st, key, value⟩ := data
  cases st with
  | headerStart | badHeaderStart | readingHeader | fieldStart | readingFieldName | waitingEquals
  | badField | waitingValueStart | readingValue => exact h.elim
  | endHeaderLine =>
    unfold handleByte
    dsimp only
    rw [if_neg hch]
    split_ifs <;> exact ⟨trivial, rfl⟩
  | endHeaderLine2 =>
    unfold handleByte
    dsimp only
    rw [if_neg hch]
    exact ⟨trivial, rfl⟩

-- A class of states that the rest of a line does not leave, and in which nothing is found.
theorem scan_quiet {P : KeyValueData → Prop}
    (hP : ∀ data ch, P data → ch ≠ newline → P (data.handleByte ch).1 ∧
      (data.handleByte ch).2 = none) (h : P data) {text : List UInt8} (htext : newline ∉ text) :
    P (scan handleByte data text).1 ∧ (scan handleByte data text).2 = [] := by
  induction text generalizing data with
  | nil => exact ⟨h, rfl⟩
  | cons ch text ih =>
    obtain ⟨hnext, hnone⟩ := hP data ch h (List.ne_of_not_mem_cons htext).symm
    obtain ⟨hlast, hnil⟩ := ih hnext (List.not_mem_of_not_mem_cons htext)
    refine ⟨hlast, ?_⟩
    rw [scan_cons, hnone, hnil]
    rfl

theorem scan_spaces (h : data.AtStart) {text : List UInt8} (htext : ∀ ch ∈ text, ch = space) :
    scan handleByte data text = (data, []) := by
  have hspace : data.handleByte space = (data, none) := by
    obtain ⟨st, key, value⟩ := data
    rcases h with hst | hst
    · obtain rfl : st = .headerStart := hst
      rfl
    · obtain rfl : st = .fieldStart := hst
      rfl
  induction text with
  | nil => rfl
  | cons ch text ih =>
    obtain ⟨rfl, hrest⟩ := List.forall_mem_cons.mp htext
    rw [scan, hspace]
    dsimp only
    rw [ih hrest]
    rfl

/-- The states behind the first bracket of the file. -/
def BehindHeader (data : KeyValueData) : Prop :=
  data.state ≠ .headerStart ∧ data.state ≠ .badHeaderStart

theorem behindHeader_handleByte (h : data.BehindHeader) (ch : UInt8) :
    (data.handleByte ch).1.BehindHeader := by
  obtain ⟨st, key, value⟩ := data
  cases st with
  | headerStart => exact (h.1 rfl).elim
  | badHeaderStart => exact (h.2 rfl).elim
  | readingHeader | endHeaderLine | endHeaderLine2 | fieldStart | readingFieldName
  | waitingEquals | badField | waitingValueStart | readingValue =>
    unfold handleByte
    dsimp only
    split_ifs <;> exact ⟨nofun, nofun⟩

theorem behindHeader_scan (h : data.BehindHeader) (text : List UInt8) :
    (scan handleByte data text).1.BehindHeader := by
  induction text generalizing data with
  | nil => exact h
  | cons ch text ih => exact ih (behindHeader_handleByte h ch)

-- The end of a line.
theorem scan_newline (data : KeyValueData) (text : List UInt8) :
    scan handleByte data (text ++ [newline]) =
      (((scan handleByte data text).1.handleByte newline).1,
        (scan handleByte data text).2 ++
          ((scan handleByte data text).1.handleByte newline).2.toList) := by
  rw [scan_append]
  simp only [scan, List.append_nil]

theorem atStart_line (data : KeyValueData) (line : Line) :
    (scan handleByte data line.text).1.AtStart := by
  rw [Line.text, scan_newline]
  exact atStart_newline _

theorem atField_line (h : data.AtField) (line : Line) :
    (scan handleByte data line.text).1.AtField := by
  have hbehind : data.BehindHeader := by
    rw [BehindHeader, show data.state = .fieldStart from h]
    exact ⟨nofun, nofun⟩
  rcases atStart_line data line with hstart | hfield
  · exact ((behindHeader_scan hbehind line.text).1 hstart).elim
  · exact hfield

theorem handleByte_open (h : data.AtStart) :
    data.handleByte 91 = (⟨.readingHeader, data.keyBuffer, []⟩, none) := by
  obtain ⟨st, key, value⟩ := data
  rcases h with hst | hst
  · obtain rfl : st = .headerStart := hst
    rfl
  · obtain rfl : st = .fieldStart := hst
    rfl

theorem handleByte_other (h : data.AtStart) {ch : UInt8} (hopen : ch ≠ 91) (hspace : ch ≠ space)
    (hnewline : ch ≠ newline) :
    (data.handleByte ch).1.InField ∧ (data.handleByte ch).2 = none := by
  obtain ⟨st, key, value⟩ := data
  rcases h with hst | hst
  · obtain rfl : st = .headerStart := hst
    unfold handleByte
    dsimp only
    rw [if_neg hopen, if_pos ⟨hspace, hnewline⟩]
    exact ⟨trivial, rfl⟩
  · obtain rfl : st = .fieldStart := hst
    unfold handleByte
    dsimp only
    rw [if_neg hopen, if_pos ⟨hspace, hnewline⟩]
    exact ⟨trivial, rfl⟩

-- At the end of a field, no header is found.
theorem inField_newline (h : data.InField) (value : List UInt8) :
    (data.handleByte newline).2 ≠ some (.header value) := by
  obtain ⟨st, key, buffer⟩ := data
  cases st with
  | headerStart | readingHeader | endHeaderLine | endHeaderLine2 | fieldStart => exact h.elim
  | badHeaderStart | readingFieldName | waitingEquals | badField => exact nofun
  | waitingValueStart | readingValue =>
    intro heq
    exact KeyValueEvent.noConfusion (Option.some.inj heq)

-- The bytes of a line behind the spaces at its start.
theorem scan_line (h : data.AtStart) (line : Line) :
    scan handleByte data line.text =
      scan handleByte data (line.val.dropWhile (· = space) ++ [newline]) := by
  have hspaces := scan_spaces h fun ch hch =>
    of_decide_eq_true (List.mem_takeWhile_imp (p := (· = space)) (l := line.val) hch)
  have hsplit := List.takeWhile_append_dropWhile (p := (· = space)) (l := line.val)
  rw [Line.text]
  nth_rewrite 1 [← hsplit]
  rw [List.append_assoc, scan_append, hspaces]
  rfl

theorem exists_takeWhile {b : UInt8} {l : List UInt8} (h : b ∈ l) :
    ∃ tail, l = l.takeWhile (· ≠ b) ++ b :: tail := by
  induction l with
  | nil => exact absurd h List.not_mem_nil
  | cons c l ih =>
    by_cases hc : c = b
    · exact ⟨l, by simp [hc]⟩
    · obtain ⟨tail, htail⟩ := ih ((List.mem_cons.mp h).resolve_left (Ne.symm hc))
      refine ⟨tail, ?_⟩
      rw [List.takeWhile_cons, if_pos (decide_eq_true hc), List.cons_append, ← htail]

theorem scan_closed (key : List UInt8) {value tail : List UInt8}
    (hvalue : ∀ ch ∈ value, ch ≠ newline ∧ ch ≠ 93) (htail : newline ∉ tail) :
    (scan handleByte ⟨.readingHeader, key, []⟩ ((value ++ 93 :: tail) ++ [newline])).1.AtField ∧
      (scan handleByte ⟨.readingHeader, key, []⟩ ((value ++ 93 :: tail) ++ [newline])).2 =
        [.header (cString value)] := by
  have hopen := scan_header rfl hvalue key []
  obtain ⟨hpast, hquiet⟩ : (scan handleByte ⟨.endHeaderLine, key, value⟩ tail).1.PastHeader ∧
      (scan handleByte ⟨.endHeaderLine, key, value⟩ tail).2 = [] :=
    scan_quiet (fun _ _ => pastHeader_handleByte)
      (show PastHeader ⟨.endHeaderLine, key, value⟩ from trivial) htail
  have hscan : scan handleByte ⟨.readingHeader, key, []⟩ (value ++ 93 :: tail) =
      ((scan handleByte ⟨.endHeaderLine, key, value⟩ tail).1, [.header (cString value)]) := by
    rw [scan_append, hopen, scan_cons]
    refine Prod.ext rfl ?_
    show [] ++ ([KeyValueEvent.header (cString value)] ++
      (scan handleByte ⟨.endHeaderLine, key, value⟩ tail).2) = _
    rw [hquiet]
    rfl
  rw [scan_newline, hscan]
  generalize (scan handleByte ⟨.endHeaderLine, key, value⟩ tail).1 = last at hpast
  obtain ⟨st, key', value'⟩ := last
  cases st with
  | headerStart | badHeaderStart | readingHeader | fieldStart | readingFieldName | waitingEquals
  | badField | waitingValueStart | readingValue => exact hpast.elim
  | endHeaderLine | endHeaderLine2 => exact ⟨rfl, rfl⟩

theorem scan_unclosed (key : List UInt8) {text : List UInt8} (hnewline : newline ∉ text)
    (hclose : 93 ∉ text) :
    (scan handleByte ⟨.readingHeader, key, []⟩ (text ++ [newline])).2 = [] := by
  have hopen := scan_header rfl (fun ch hch => ⟨fun h => hnewline (h ▸ hch),
    fun h => hclose (h ▸ hch)⟩) key []
  rw [scan_newline, hopen]
  rfl

theorem newline_not_mem_dropWhile (line : Line) : newline ∉ line.val.dropWhile (· = space) :=
  fun hmem => line.property ((List.dropWhile_suffix _).mem hmem)

theorem scan_line_header (h : data.AtStart) {line : Line} {value : List UInt8}
    (hheader : line.header = some value) :
    (scan handleByte data line.text).1.AtField ∧
      (scan handleByte data line.text).2 = [.header value] := by
  have hnewline := newline_not_mem_dropWhile line
  rw [scan_line h]
  unfold Line.header at hheader
  split at hheader
  · exact absurd hheader.symm (Option.some_ne_none _)
  · rename_i ch rest hrest
    rw [hrest] at hnewline ⊢
    split at hheader
    · rename_i hopen
      obtain ⟨rfl, hclose⟩ := hopen
      obtain rfl := Option.some.inj hheader
      obtain ⟨tail, htail⟩ := exists_takeWhile hclose
      have hrestNewline := List.not_mem_of_not_mem_cons hnewline
      have hvalue : ∀ c ∈ rest.takeWhile (· ≠ 93), c ≠ newline ∧ c ≠ 93 := fun c hc =>
        ⟨fun hc' => hrestNewline (hc' ▸ (List.takeWhile_prefix _).mem hc),
          by simpa using List.mem_takeWhile_imp hc⟩
      have htailNewline : newline ∉ tail := by
        rw [htail] at hrestNewline
        exact fun hmem => hrestNewline
          (List.mem_append_right _ (List.mem_cons_of_mem _ hmem))
      have hclosed := scan_closed data.keyBuffer hvalue htailNewline
      rw [← htail] at hclosed
      rw [List.cons_append, scan_cons, handleByte_open h]
      exact hclosed
    · exact absurd hheader.symm (Option.some_ne_none _)

theorem scan_line_plain (h : data.AtStart) {line : Line} (hheader : line.header = none)
    (value : List UInt8) : KeyValueEvent.header value ∉ (scan handleByte data line.text).2 := by
  have hnewline := newline_not_mem_dropWhile line
  rw [scan_line h]
  unfold Line.header at hheader
  split at hheader
  · rename_i hrest
    have hend := (yields_newline AtStart (fun _ hdata => hdata) data h).2
    rw [hrest, List.nil_append, hend]
    exact List.not_mem_nil
  · rename_i ch rest hrest
    have hspace : ch ≠ space := by
      have hhead := List.head?_dropWhile_not (fun ch : UInt8 => decide (ch = space)) line.val
      rw [hrest] at hhead
      simpa using hhead
    rw [hrest] at hnewline ⊢
    have hrestNewline := List.not_mem_of_not_mem_cons hnewline
    split at hheader
    · exact absurd hheader (Option.some_ne_none _)
    · rename_i hopen
      by_cases hch : ch = 91
      · subst hch
        have hclose : 93 ∉ rest := fun hmem => hopen ⟨rfl, hmem⟩
        have hunclosed := scan_unclosed data.keyBuffer hrestNewline hclose
        rw [List.cons_append, scan_cons, handleByte_open h, hunclosed]
        exact List.not_mem_nil
      · obtain ⟨hfield, hnone⟩ := handleByte_other h hch hspace
          (List.ne_of_not_mem_cons hnewline).symm
        obtain ⟨hlast, hquiet⟩ := scan_quiet (fun _ _ => inField_handleByte) hfield hrestNewline
        rw [List.cons_append, scan_cons, hnone, scan_newline, hquiet]
        simp only [Option.toList_none, List.nil_append, Option.mem_toList]
        exact inField_newline hlast value

end KeyValueData

theorem fileText_newline {lines : List Line} (h : lines ≠ []) :
    fileText lines ++ [newline] = lines.flatMap Line.text := by
  induction lines with
  | nil => exact absurd rfl h
  | cons line lines ih =>
    cases lines with
    | nil => simp [fileText, Line.text, List.intercalate]
    | cons next lines =>
      rw [List.flatMap_cons, ← ih (List.cons_ne_nil next lines)]
      simp [fileText, Line.text, List.intercalate]

/-! ## 2. The events of a section -/

/-- What is found in lines behind a header. -/
def bodyEvents (body : List Line) : List KeyValueEvent :=
  (scan KeyValueData.handleByte { state := .fieldStart } (body.flatMap Line.text)).2

def KeyValueEvent.isHeader : KeyValueEvent → Bool
  | .header _ => true
  | .property _ _ => false

namespace KeyValueData

variable {data : KeyValueData}

theorem atStart_lines (h : data.AtStart) (lines : List Line) :
    (scan handleByte data (lines.flatMap Line.text)).1.AtStart := by
  induction lines generalizing data with
  | nil => exact h
  | cons line lines ih =>
    rw [List.flatMap_cons, scan_append]
    exact ih (atStart_line data line)

-- There are as many headers as lines that start a section.
theorem countP_lines (h : data.AtStart) (lines : List Line) :
    (scan handleByte data (lines.flatMap Line.text)).2.countP KeyValueEvent.isHeader =
      lines.countP Line.startsSection := by
  induction lines generalizing data with
  | nil => rfl
  | cons line lines ih =>
    rw [List.flatMap_cons, scan_append, List.countP_append, ih (atStart_line data line),
      List.countP_cons, Nat.add_comm]
    congr 1
    cases hheader : line.header with
    | none =>
      have hnone : (scan handleByte data line.text).2.countP KeyValueEvent.isHeader = 0 := by
        rw [List.countP_eq_zero]
        intro event hevent
        cases event with
        | header value => exact (scan_line_plain h hheader value hevent).elim
        | property key value => exact Bool.false_ne_true
      rw [hnone, Line.startsSection, hheader]
      rfl
    | some value =>
      rw [(scan_line_header h hheader).2, Line.startsSection, hheader]
      rfl

-- The lines of a section are read alike wherever they stand.
theorem scan_body (h : data.AtField) (body : List Line) :
    (scan handleByte data (body.flatMap Line.text)).1.AtField ∧
      (scan handleByte data (body.flatMap Line.text)).2 = bodyEvents body := by
  constructor
  · induction body generalizing data with
    | nil => exact h
    | cons line body ih =>
      rw [List.flatMap_cons, scan_append]
      exact ih (atField_line h line)
  · have hsame : Same { state := .fieldStart } data :=
      Same.of_atStart (.inr rfl) h
    exact (hsame.run _).1

theorem bodyEvents_plain {body : List Line} (h : ∀ line ∈ body, line.startsSection = false) :
    ∀ event ∈ bodyEvents body, event.isHeader = false := by
  have hstart : AtStart { state := .fieldStart } := .inr rfl
  have hcount := countP_lines hstart body
  have hnone : body.countP Line.startsSection = 0 :=
    List.countP_eq_zero.mpr fun line hline => by rw [h line hline]; exact Bool.false_ne_true
  rw [hnone, List.countP_eq_zero] at hcount
  exact fun event hevent => Bool.eq_false_iff.mpr (hcount event hevent)

end KeyValueData

end Notbit.Store
