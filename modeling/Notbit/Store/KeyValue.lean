import Mathlib.Data.List.DropRight
import Notbit.Lib.Digits
import Notbit.Lib.Scans
import Notbit.Proto.Frames

/-!
# KeyValue — files of sections with properties (`ntb-key-value.c`)

The tokenizer works byte by byte.  Its state at the start of a line is one of two, and its buffers
are emptied before they are used, so that what is found in a line depends on that line only.
-/

open Bytes Digits Scans Notbit.Proto

namespace Notbit.Store

/-! ## 1. The tokenizer -/

/-- `enum ntb_key_value_state` -/
inductive KeyValueState where
  | headerStart | badHeaderStart | readingHeader | endHeaderLine | endHeaderLine2 | fieldStart
  | readingFieldName | waitingEquals | badField | waitingValueStart | readingValue
  deriving DecidableEq, Repr

/-- `struct ntb_key_value_data` without the line number, which is only logged. -/
structure KeyValueData where
  state : KeyValueState
  keyBuffer : List UInt8 := []
  valueBuffer : List UInt8 := []
  deriving DecidableEq, Repr

/-- `enum ntb_key_value_event` with the strings that go with it. -/
inductive KeyValueEvent where
  | header (value : List UInt8)
  | property (key value : List UInt8)
  deriving DecidableEq, Repr

/-- What C sees of a buffer: the bytes up to the first null character. -/
def cString (bytes : List UInt8) : List UInt8 := bytes.takeWhile (· ≠ 0)

def newline : UInt8 := 10

def space : UInt8 := 32

/-- `process_header` -/
def KeyValueData.processHeader (data : KeyValueData) : KeyValueEvent :=
  .header (cString data.valueBuffer)

/-- `process_value`: spaces at the end are dropped. -/
def KeyValueData.processValue (data : KeyValueData) : KeyValueEvent :=
  .property (cString data.keyBuffer) (cString (data.valueBuffer.rdropWhile (· = space)))

/-- `handle_byte`, with the event it reports. -/
def KeyValueData.handleByte (data : KeyValueData) (ch : UInt8) :
    KeyValueData × Option KeyValueEvent :=
  let openBracket : UInt8 := 91
  let closeBracket : UInt8 := 93
  let equals : UInt8 := 61
  match data.state with
  | .headerStart =>
    if ch = openBracket then ({ data with state := .readingHeader, valueBuffer := [] }, none)
    else if ch ≠ space ∧ ch ≠ newline then ({ data with state := .badHeaderStart }, none)
    else (data, none)
  | .badHeaderStart =>
    if ch = newline then ({ data with state := .headerStart }, none) else (data, none)
  | .readingHeader =>
    if ch = newline then ({ data with state := .fieldStart }, none)
    else if ch = closeBracket then
      ({ data with state := .endHeaderLine }, some data.processHeader)
    else ({ data with valueBuffer := data.valueBuffer ++ [ch] }, none)
  | .endHeaderLine =>
    if ch = newline then ({ data with state := .fieldStart }, none)
    else if ch ≠ space then ({ data with state := .endHeaderLine2 }, none)
    else (data, none)
  | .endHeaderLine2 =>
    if ch = newline then ({ data with state := .fieldStart }, none) else (data, none)
  | .fieldStart =>
    if ch = openBracket then ({ data with state := .readingHeader, valueBuffer := [] }, none)
    else if ch ≠ space ∧ ch ≠ newline then
      ({ data with state := .readingFieldName, keyBuffer := [ch] }, none)
    else (data, none)
  | .readingFieldName =>
    if ch = space then ({ data with state := .waitingEquals }, none)
    else if ch = equals then ({ data with state := .waitingValueStart }, none)
    else if ch = newline then ({ data with state := .fieldStart }, none)
    else ({ data with keyBuffer := data.keyBuffer ++ [ch] }, none)
  | .waitingEquals =>
    if ch = equals then ({ data with state := .waitingValueStart }, none)
    else if ch = newline then ({ data with state := .fieldStart }, none)
    else if ch ≠ space then ({ data with state := .badField }, none)
    else (data, none)
  | .waitingValueStart =>
    if ch = newline then
      let data := { data with valueBuffer := [] }
      ({ data with state := .fieldStart }, some data.processValue)
    else if ch ≠ space then
      ({ data with state := .readingValue, valueBuffer := [ch] }, none)
    else (data, none)
  | .readingValue =>
    if ch = newline then ({ data with state := .fieldStart }, some data.processValue)
    else ({ data with valueBuffer := data.valueBuffer ++ [ch] }, none)
  | .badField =>
    if ch = newline then ({ data with state := .fieldStart }, none) else (data, none)

/-- `ntb_key_value_load`: the events of a file, which is read as if it ended with a newline. -/
def keyValueLoad (file : List UInt8) : List KeyValueEvent :=
  let data : KeyValueData := { state := .headerStart }
  (scan KeyValueData.handleByte data (file ++ [newline])).2

namespace KeyValueData

variable {data data' : KeyValueData} {ch : UInt8}

/-! ## 2. One line -/

/-- The states a line can start in. -/
def AtStart (data : KeyValueData) : Prop := data.state = .headerStart ∨ data.state = .fieldStart

/-- What can still be used of the buffers: the key while a field is read, and the value while a
header or a value is read. -/
structure Same (data data' : KeyValueData) : Prop where
  state : data'.state = data.state
  key : data.state ∈ [.readingFieldName, .waitingEquals, .waitingValueStart, .readingValue] →
    data'.keyBuffer = data.keyBuffer
  value : data.state ∈ [.readingHeader, .readingValue] → data'.valueBuffer = data.valueBuffer

theorem Same.of_atStart (hstart : data.AtStart) (hstate : data'.state = data.state) :
    data.Same data' := by
  rcases hstart with h | h
  · exact ⟨hstate, by simp [h], by simp [h]⟩
  · exact ⟨hstate, by simp [h], by simp [h]⟩

theorem Same.handleByte (h : data.Same data') (ch : UInt8) :
    (data'.handleByte ch).2 = (data.handleByte ch).2 ∧
      (data.handleByte ch).1.Same (data'.handleByte ch).1 := by
  obtain ⟨st, key, value⟩ := data
  obtain ⟨st', key', value'⟩ := data'
  obtain ⟨hstate, hkey, hvalue⟩ := h
  dsimp only at hstate hkey hvalue
  subst st'
  cases st with
  | headerStart =>
    unfold KeyValueData.handleByte
    dsimp only
    split_ifs <;> exact ⟨rfl, rfl, by simp, by simp⟩
  | badHeaderStart =>
    unfold KeyValueData.handleByte
    dsimp only
    split_ifs <;> exact ⟨rfl, rfl, by simp, by simp⟩
  | readingHeader =>
    obtain rfl := hvalue (by simp)
    unfold KeyValueData.handleByte
    dsimp only
    split_ifs <;> exact ⟨rfl, rfl, by simp, by simp⟩
  | endHeaderLine =>
    unfold KeyValueData.handleByte
    dsimp only
    split_ifs <;> exact ⟨rfl, rfl, by simp, by simp⟩
  | endHeaderLine2 =>
    unfold KeyValueData.handleByte
    dsimp only
    split_ifs <;> exact ⟨rfl, rfl, by simp, by simp⟩
  | fieldStart =>
    unfold KeyValueData.handleByte
    dsimp only
    split_ifs <;> exact ⟨rfl, rfl, by simp, by simp⟩
  | readingFieldName =>
    obtain rfl := hkey (by simp)
    unfold KeyValueData.handleByte
    dsimp only
    split_ifs <;> exact ⟨rfl, rfl, by simp, by simp⟩
  | waitingEquals =>
    obtain rfl := hkey (by simp)
    unfold KeyValueData.handleByte
    dsimp only
    split_ifs <;> exact ⟨rfl, rfl, by simp, by simp⟩
  | badField =>
    unfold KeyValueData.handleByte
    dsimp only
    split_ifs <;> exact ⟨rfl, rfl, by simp, by simp⟩
  | waitingValueStart =>
    obtain rfl := hkey (by simp)
    unfold KeyValueData.handleByte
    dsimp only
    split_ifs <;> exact ⟨rfl, rfl, by simp, by simp⟩
  | readingValue =>
    obtain rfl := hkey (by simp)
    obtain rfl := hvalue (by simp)
    unfold KeyValueData.handleByte
    dsimp only
    split_ifs <;> exact ⟨rfl, rfl, by simp, by simp⟩

/-- What the buffers hold at the start of a line makes no difference. -/
theorem Same.run (h : data.Same data') (text : List UInt8) :
    (scan KeyValueData.handleByte data' text).2 = (scan KeyValueData.handleByte data text).2 ∧
      (scan KeyValueData.handleByte data text).1.Same
        (scan KeyValueData.handleByte data' text).1 := by
  induction text generalizing data data' with
  | nil => exact ⟨rfl, h⟩
  | cons ch text ih =>
    obtain ⟨hevent, hnext⟩ := h.handleByte ch
    obtain ⟨hevents, hlast⟩ := ih hnext
    simp only [Scans.scan]
    exact ⟨by rw [hevent, hevents], hlast⟩

/-- The start of a line behind a header. -/
def AtField (data : KeyValueData) : Prop := data.state = .fieldStart

theorem AtField.atStart (h : data.AtField) : data.AtStart := .inr h

theorem yields_newline (start : KeyValueData → Prop) (hstart : ∀ data, start data → data.AtStart) :
    Yields handleByte start start [newline] [] := by
  intro data hdata
  have hrun : scan handleByte data [newline] = (data, []) := by
    obtain ⟨st, key, value⟩ := data
    rcases hstart _ hdata with hst | hst
    · obtain rfl : st = .headerStart := hst
      rfl
    · obtain rfl : st = .fieldStart := hst
      rfl
  rw [hrun]
  exact ⟨hdata, rfl⟩

theorem scan_fieldName {st : KeyValueState} (hst : st = .readingFieldName)
    {name : List UInt8} (hname : ∀ ch ∈ name, ch ≠ space ∧ ch ≠ 61 ∧ ch ≠ newline)
    (key value : List UInt8) :
    scan handleByte ⟨st, key, value⟩ name = (⟨st, key ++ name, value⟩, []) := by
  induction name generalizing key with
  | nil => simp [scan]
  | cons ch name ih =>
    obtain ⟨hspace, hequals, hnewline⟩ := hname ch List.mem_cons_self
    have hrest := ih (fun c hc => hname c (List.mem_cons_of_mem ch hc)) (key ++ [ch])
    subst hst
    simp only [scan, handleByte, hspace, hequals, hnewline, if_false, hrest]
    simp

theorem scan_value {st : KeyValueState} (hst : st = .readingValue)
    {text : List UInt8} (htext : ∀ ch ∈ text, ch ≠ newline)
    (key value : List UInt8) :
    scan handleByte ⟨st, key, value⟩ text = (⟨st, key, value ++ text⟩, []) := by
  induction text generalizing value with
  | nil => simp [scan]
  | cons ch text ih =>
    have hnewline := htext ch List.mem_cons_self
    have hrest := ih (fun c hc => htext c (List.mem_cons_of_mem ch hc)) (value ++ [ch])
    subst hst
    simp only [scan, handleByte, hnewline, if_false, hrest]
    simp

theorem scan_header {st : KeyValueState} (hst : st = .readingHeader)
    {text : List UInt8} (htext : ∀ ch ∈ text, ch ≠ newline ∧ ch ≠ 93)
    (key value : List UInt8) :
    scan handleByte ⟨st, key, value⟩ text = (⟨st, key, value ++ text⟩, []) := by
  induction text generalizing value with
  | nil => simp [scan]
  | cons ch text ih =>
    obtain ⟨hnewline, hbracket⟩ := htext ch List.mem_cons_self
    have hrest := ih (fun c hc => htext c (List.mem_cons_of_mem ch hc)) (value ++ [ch])
    subst hst
    simp only [scan, handleByte, hnewline, hbracket, if_false, hrest]
    simp

theorem cString_of_nonzero {bytes : List UInt8} (h : ∀ ch ∈ bytes, ch ≠ 0) :
    cString bytes = bytes := by
  rw [cString, List.takeWhile_eq_self_iff]
  intro ch hch
  exact decide_eq_true (h ch hch)

end KeyValueData

/-! ## 3. Lines that are written -/

/-- A line `[value]`. -/
def headerLine (value : List UInt8) : List UInt8 := 91 :: (value ++ [93, newline])

/-- A line `key = value`. -/
def propertyLine (key value : List UInt8) : List UInt8 :=
  key ++ ([space, 61, space] ++ (value ++ [newline]))

/-- A string that can stand between the brackets of a header. -/
def IsHeader (value : List UInt8) : Prop := ∀ ch ∈ value, ch ≠ newline ∧ ch ≠ 93 ∧ ch ≠ 0

/-- A string that can be the name of a property. -/
def IsKey (key : List UInt8) : Prop :=
  key ≠ [] ∧ ∀ ch ∈ key, ch ≠ space ∧ ch ≠ 61 ∧ ch ≠ newline ∧ ch ≠ 91 ∧ ch ≠ 0

/-- A string that can be the value of a property. -/
structure IsValue (value : List UInt8) : Prop where
  chars : ∀ ch ∈ value, ch ≠ newline ∧ ch ≠ 0
  head : value.head? ≠ some space
  last : value.getLast? ≠ some space

instance (key : List UInt8) : Decidable (IsKey key) := inferInstanceAs (Decidable (_ ∧ _))

instance (value : List UInt8) : Decidable (IsHeader value) :=
  inferInstanceAs (Decidable (∀ ch ∈ value, _))

namespace KeyValueData

theorem yields_header {value : List UInt8} (h : IsHeader value) :
    Yields handleByte AtStart AtField (headerLine value) [.header value] := by
  intro data hdata
  obtain ⟨st, key, buffer⟩ := data
  have hopen : ∀ rest, scan handleByte ⟨st, key, buffer⟩ (91 :: rest) =
      scan handleByte ⟨.readingHeader, key, []⟩ rest := by
    intro rest
    rcases hdata with hst | hst
    · obtain rfl : st = .headerStart := hst
      rfl
    · obtain rfl : st = .fieldStart := hst
      rfl
  have hvalue := scan_header rfl (fun ch hch => ⟨(h ch hch).1, (h ch hch).2.1⟩) key []
  have hstring := cString_of_nonzero fun ch hch => (h ch hch).2.2
  rw [headerLine, hopen, scan_append, hvalue]
  refine ⟨rfl, ?_⟩
  show [KeyValueEvent.header (cString value)] = _
  rw [hstring]

-- The spaces around the sign.
theorem scan_equals (key buffer rest : List UInt8) :
    scan handleByte ⟨.readingFieldName, key, buffer⟩ ([space, 61, space] ++ rest) =
      scan handleByte ⟨.waitingValueStart, key, buffer⟩ rest := rfl

theorem scan_valueLine {key value : List UInt8} (hkey : ∀ ch ∈ key, ch ≠ 0) (h : IsValue value)
    (buffer : List UInt8) :
    scan handleByte ⟨.waitingValueStart, key, buffer⟩ (value ++ [newline]) =
      (⟨.fieldStart, key, value⟩, [.property key value]) := by
  have hkey' := cString_of_nonzero hkey
  have hvalue := cString_of_nonzero fun ch hch => (h.chars ch hch).2
  have htrim : value.rdropWhile (· = space) = value := by
    rw [List.rdropWhile_eq_self_iff]
    intro hne hlast
    apply h.last
    rw [List.getLast?_eq_getLast_of_ne_nil hne]
    exact congrArg some (of_decide_eq_true hlast)
  have hend : processValue ⟨.readingValue, key, value⟩ = .property key value := by
    unfold processValue
    dsimp only
    rw [htrim, hkey', hvalue]
  cases value with
  | nil =>
    refine Prod.ext rfl ?_
    show [processValue ⟨.waitingValueStart, key, []⟩] = _
    exact congrArg (fun event => [event]) hend
  | cons ch value =>
    have hnewline := (h.chars ch List.mem_cons_self).1
    have hspace : ch ≠ space := fun hch => h.head (congrArg some hch)
    have hrest := scan_value rfl
      (fun c hc => (h.chars c (List.mem_cons_of_mem ch hc)).1) key [ch]
    have hfirst : scan handleByte ⟨.waitingValueStart, key, buffer⟩ (ch :: value ++ [newline]) =
        scan handleByte ⟨.readingValue, key, [ch]⟩ (value ++ [newline]) := by
      simp only [List.cons_append, scan, handleByte, hnewline, hspace, if_false, if_true, ne_eq,
        not_false_eq_true, Option.toList_none, List.nil_append]
    rw [hfirst, scan_append, hrest]
    refine Prod.ext rfl ?_
    show [processValue ⟨.readingValue, key, ch :: value⟩] = _
    rw [hend]

theorem yields_property {key value : List UInt8} (hkey : IsKey key) (h : IsValue value) :
    Yields handleByte AtField AtField (propertyLine key value) [.property key value] := by
  intro data hdata
  obtain ⟨st, keyBuffer, valueBuffer⟩ := data
  obtain rfl : st = .fieldStart := hdata
  have hline := scan_valueLine (fun ch hch => (hkey.2 ch hch).2.2.2.2) h valueBuffer
  rw [propertyLine]
  obtain ⟨ch, name, rfl⟩ := List.exists_cons_of_ne_nil hkey.1
  obtain ⟨hspace, -, hnewline, hbracket, -⟩ := hkey.2 ch List.mem_cons_self
  have hname := scan_fieldName rfl (fun c hc => ⟨(hkey.2 c (List.mem_cons_of_mem ch hc)).1,
    (hkey.2 c (List.mem_cons_of_mem ch hc)).2.1,
    (hkey.2 c (List.mem_cons_of_mem ch hc)).2.2.1⟩) [ch] valueBuffer
  have hfirst : ∀ rest, scan handleByte ⟨.fieldStart, keyBuffer, valueBuffer⟩ (ch :: rest) =
      scan handleByte ⟨.readingFieldName, [ch], valueBuffer⟩ rest := by
    intro rest
    simp only [scan, handleByte, hspace, hnewline, hbracket, if_false, if_true, ne_eq,
      not_false_eq_true, and_self, Option.toList_none, List.nil_append]
  rw [List.cons_append, hfirst, scan_append, hname, scan_equals]
  refine ⟨?_, ?_⟩
  · show AtField (scan handleByte ⟨.waitingValueStart, ch :: name, valueBuffer⟩ _).1
    rw [hline]
    rfl
  · show (scan handleByte ⟨.waitingValueStart, ch :: name, valueBuffer⟩ _).2 = _
    rw [hline]

end KeyValueData

/-- A header, lines with properties and a blank line. -/
def sectionText (header : List UInt8) (properties : List (List UInt8 × List UInt8)) : List UInt8 :=
  headerLine header ++ (properties.flatMap (fun p => propertyLine p.1 p.2) ++ [newline])

def sectionEvents (header : List UInt8) (properties : List (List UInt8 × List UInt8)) :
    List KeyValueEvent :=
  .header header :: properties.map fun p => .property p.1 p.2

theorem yields_section {header : List UInt8} {properties : List (List UInt8 × List UInt8)}
    (hheader : IsHeader header) (hproperties : ∀ p ∈ properties, IsKey p.1 ∧ IsValue p.2) :
    Yields KeyValueData.handleByte KeyValueData.AtStart KeyValueData.AtField
      (sectionText header properties) (sectionEvents header properties) := by
  have hlines := Yields.flatMap fun p hp =>
    KeyValueData.yields_property (hproperties p hp).1 (hproperties p hp).2
  have hevents : properties.map (fun p => KeyValueEvent.property p.1 p.2) =
      properties.flatMap fun p => [.property p.1 p.2] := List.map_eq_flatMap
  have hblank := KeyValueData.yields_newline KeyValueData.AtField fun _ =>
    KeyValueData.AtField.atStart
  have hsection := (KeyValueData.yields_header hheader).append (hlines.append hblank)
  rw [List.append_nil, ← hevents] at hsection
  exact hsection

-- What is found in a file of sections.
theorem keyValueLoad_flatMap {ι : Type} {text : ι → List UInt8} {events : ι → List KeyValueEvent}
    {l : List ι} (h : ∀ i ∈ l, Yields KeyValueData.handleByte KeyValueData.AtStart
      KeyValueData.AtField (text i) (events i)) :
    keyValueLoad (l.flatMap text) = l.flatMap events := by
  have hall := Yields.flatMap fun i hi =>
    (h i hi).mono (fun _ hdata => hdata) fun _ => KeyValueData.AtField.atStart
  have hend := hall.append (KeyValueData.yields_newline KeyValueData.AtStart fun _ hdata => hdata)
  rw [List.append_nil] at hend
  exact (hend { state := .headerStart } (.inl rfl)).2

/-! ## 4. Values -/

/-- `%i` and its relatives for a number that is not negative. -/
def printUnsigned (n : Nat) : List UInt8 := (numeral 10 n).map fun d => UInt8.ofNat (48 + d)

/-- `%i` and its relatives. -/
def printSigned (z : Int) : List UInt8 :=
  if z < 0 then 45 :: printUnsigned z.natAbs else printUnsigned z.natAbs

/-- `isspace` -/
def isSpace (ch : UInt8) : Bool := ch = space ∨ 9 ≤ ch.toNat ∧ ch.toNat ≤ 13

/-- `isdigit` -/
def isDigit (ch : UInt8) : Bool := 48 ≤ ch.toNat ∧ ch.toNat ≤ 57

/-- What `strtoll` returns: the number, whether `errno` is set, and the rest of the text. -/
structure Strtoll where
  value : Int
  errno : Bool
  tail : List UInt8
  deriving DecidableEq, Repr

/-- `strtoll` in base ten. -/
def strtoll (text : List UInt8) : Strtoll :=
  let text' := text.dropWhile isSpace
  let negative := text'.head? = some 45
  let body := if negative ∨ text'.head? = some 43 then text'.tail else text'
  let digits := body.takeWhile isDigit
  let tail := body.dropWhile isDigit
  let magnitude : Int := value 10 (digits.map fun ch => ch.toNat - 48)
  let number := if negative then -magnitude else magnitude
  if digits = [] then { value := 0, errno := false, tail := text }
  else if number < -2 ^ 63 then { value := -2 ^ 63, errno := true, tail }
  else if 2 ^ 63 ≤ number then { value := 2 ^ 63 - 1, errno := true, tail }
  else { value := number, errno := false, tail }

/-- `ntb_key_value_parse_int_value`.  Its test for a negative number looks at the pointer, which is
never negative. -/
def parseIntValue (value : List UInt8) (max : Int) : Option Int :=
  let result := strtoll value
  if result.errno ∨ result.tail = value ∨ result.tail ≠ [] then none
  else if result.value > max then none
  else some result.value

/-- `ntb_key_value_parse_bool_value` -/
def parseBoolValue (value : List UInt8) : Option Bool :=
  if value = ascii "true" then some true
  else if value = ascii "false" then some false
  else none

/-- How a flag is printed. -/
def printBool (value : Bool) : List UInt8 := if value then ascii "true" else ascii "false"

/-- A value of the C type `int64_t`. -/
structure CInt64 where
  val : Int
  lower : -2 ^ 63 ≤ val
  upper : val < 2 ^ 63

/-- A time in May 2014, for examples. -/
def CInt64.may2014 : CInt64 := ⟨1400000000, by decide, by decide⟩

/-- `INT_MAX` -/
def intMax : Int := 2 ^ 31 - 1

/-- `INT64_MAX` -/
def int64Max : Int := 2 ^ 63 - 1

/-- The conversion of an `int64_t` to an `int`. -/
def intOfInt64 (value : Int) : CInt where
  val := value.bmod (2 ^ 32)
  lower := by
    have h := Int.le_bmod (show 0 < 2 ^ 32 by decide) (x := value)
    norm_num at h ⊢
    exact h
  upper := by
    have h := Int.bmod_lt (show 0 < 2 ^ 32 by decide) (x := value)
    norm_num at h ⊢
    exact h

theorem toNat_digit {n d : Nat} (hd : d ∈ numeral 10 n) : (UInt8.ofNat (48 + d)).toNat = 48 + d := by
  have hlt := lt_of_mem_numeral (by omega) hd
  rw [UInt8.toNat_ofNat']
  exact Nat.mod_eq_of_lt (by omega)

theorem isDigit_of_mem {n : Nat} {ch : UInt8} (hch : ch ∈ printUnsigned n) : isDigit ch = true := by
  obtain ⟨d, hd, rfl⟩ := List.mem_map.mp hch
  have hlt := lt_of_mem_numeral (by omega) hd
  rw [isDigit, toNat_digit hd]
  exact decide_eq_true ⟨by omega, by omega⟩

theorem printUnsigned_ne_nil (n : Nat) : printUnsigned n ≠ [] := by
  rw [printUnsigned, ne_eq, List.map_eq_nil_iff]
  exact numeral_ne_nil 10 n

theorem value_printUnsigned (n : Nat) :
    value 10 ((printUnsigned n).map fun ch => ch.toNat - 48) = n := by
  have hdigits : ((printUnsigned n).map fun ch => ch.toNat - 48) = numeral 10 n := by
    rw [printUnsigned, List.map_map, List.map_congr_left fun d hd => ?_, List.map_id]
    show (UInt8.ofNat (48 + d)).toNat - 48 = d
    rw [toNat_digit hd, Nat.add_sub_cancel_left]
  rw [hdigits, value_numeral]

-- A digit is neither a space nor a sign.
theorem digit_ne {ch : UInt8} (h : isDigit ch = true) :
    isSpace ch = false ∧ ch ≠ 45 ∧ ch ≠ 43 ∧ ch ≠ newline ∧ ch ≠ 0 ∧ ch ≠ space := by
  have hbounds : 48 ≤ ch.toNat ∧ ch.toNat ≤ 57 := of_decide_eq_true h
  have hne : ∀ c : UInt8, c.toNat < 48 → ch ≠ c := by
    rintro c hc rfl
    omega
  refine ⟨?_, hne 45 (by decide), hne 43 (by decide), hne newline (by decide), hne 0 (by decide),
    hne space (by decide)⟩
  rw [isSpace, decide_eq_false_iff_not]
  rintro (hspace | hblank)
  · exact hne space (by decide) hspace
  · omega

-- The digits of a number end where the rest of the text has none.
theorem takeWhile_printUnsigned_append (n : Nat) {rest : List UInt8}
    (hrest : ∀ ch ∈ rest.head?, isDigit ch = false) :
    (printUnsigned n ++ rest).takeWhile isDigit = printUnsigned n ∧
      (printUnsigned n ++ rest).dropWhile isDigit = rest := by
  have hdigits : ∀ ch ∈ printUnsigned n, isDigit ch = true := fun ch => isDigit_of_mem
  rw [List.takeWhile_append_of_pos hdigits, List.dropWhile_append_of_pos hdigits]
  cases rest with
  | nil => exact ⟨List.append_nil _, rfl⟩
  | cons ch rest =>
    have hch : ¬ isDigit ch = true := by simp [hrest ch rfl]
    rw [List.takeWhile_cons_of_neg hch, List.dropWhile_cons_of_neg hch]
    exact ⟨List.append_nil _, rfl⟩

theorem strtoll_printSigned_append {z : Int} (hlower : -2 ^ 63 ≤ z) (hupper : z < 2 ^ 63)
    {rest : List UInt8} (hrest : ∀ ch ∈ rest.head?, isDigit ch = false) :
    strtoll (printSigned z ++ rest) = { value := z, errno := false, tail := rest } := by
  obtain ⟨htake, hdrop⟩ := takeWhile_printUnsigned_append z.natAbs hrest
  obtain ⟨ch, digits, hcons⟩ := List.exists_cons_of_ne_nil (printUnsigned_ne_nil z.natAbs)
  have hfirst := digit_ne (isDigit_of_mem (n := z.natAbs) (hcons ▸ List.mem_cons_self))
  have hvalue := value_printUnsigned z.natAbs
  have hnil := printUnsigned_ne_nil z.natAbs
  unfold printSigned
  split
  · rename_i hneg
    have hminus : isSpace 45 = false := by decide
    have hz : -(z.natAbs : Int) = z := by omega
    unfold strtoll
    simp only [List.cons_append, List.dropWhile_cons, hminus, Bool.false_eq_true, if_false,
      List.head?_cons, true_or, if_true, List.tail_cons, htake, hdrop, hvalue, hnil, hz]
    rw [if_neg (by omega), if_neg (by omega)]
  · rename_i hpos
    have hz : (z.natAbs : Int) = z := by omega
    have hskip : (printUnsigned z.natAbs ++ rest).dropWhile isSpace =
        printUnsigned z.natAbs ++ rest := by
      rw [hcons, List.cons_append, List.dropWhile_cons, hfirst.1]
      rfl
    have hhead : (printUnsigned z.natAbs ++ rest).head? = some ch := by
      rw [hcons, List.cons_append, List.head?_cons]
    unfold strtoll
    simp only [hskip, hhead, Option.some.injEq, hfirst.2.1, hfirst.2.2.1, or_self, if_false, htake,
      hdrop, hvalue, hnil, hz]
    rw [if_neg (by omega), if_neg (by omega)]

theorem strtoll_printSigned {z : Int} (hlower : -2 ^ 63 ≤ z) (hupper : z < 2 ^ 63) :
    strtoll (printSigned z) = { value := z, errno := false, tail := [] } := by
  have happend : strtoll (printSigned z ++ []) = _ :=
    strtoll_printSigned_append hlower hupper nofun
  rwa [List.append_nil] at happend

theorem printSigned_ne_nil (z : Int) : printSigned z ≠ [] := by
  unfold printSigned
  split
  · exact List.cons_ne_nil _ _
  · exact printUnsigned_ne_nil _

/-- A printed number is read back, negative or not. -/
theorem parseIntValue_printSigned {z max : Int} (hlower : -2 ^ 63 ≤ z) (hupper : z < 2 ^ 63)
    (hmax : z ≤ max) : parseIntValue (printSigned z) max = some z := by
  unfold parseIntValue
  rw [strtoll_printSigned hlower hupper]
  have hnil : [] ≠ printSigned z := (printSigned_ne_nil z).symm
  simp only [hnil, Bool.false_eq_true, ne_eq, not_true_eq_false, or_self, if_false]
  rw [if_neg (by omega)]

theorem printSigned_natCast (n : Nat) : printSigned n = printUnsigned n := by
  rw [printSigned, if_neg (by omega), Int.natAbs_natCast]

theorem parseBoolValue_printBool (value : Bool) : parseBoolValue (printBool value) = some value := by
  cases value <;> decide

theorem intOfInt64_val (value : CInt) : intOfInt64 value.val = value := by
  have hlower := value.lower
  have hupper := value.upper
  obtain ⟨v, _, _⟩ := value
  have hv : v.bmod (2 ^ 32) = v := Int.bmod_eq_of_le (by omega) (by omega)
  simp only [intOfInt64, hv]

theorem parseIntValue_int (value : CInt) :
    parseIntValue (printSigned value.val) intMax = some value.val := by
  have hlower := value.lower
  have hupper := value.upper
  exact parseIntValue_printSigned (by omega) (by omega) (show value.val ≤ 2 ^ 31 - 1 by omega)

theorem parseIntValue_int64 (value : CInt64) :
    parseIntValue (printSigned value.val) int64Max = some value.val :=
  parseIntValue_printSigned value.lower value.upper (Int.le_sub_one_of_lt value.upper)

theorem isValue_of_chars {value : List UInt8}
    (h : ∀ ch ∈ value, ch ≠ newline ∧ ch ≠ 0 ∧ ch ≠ space) : IsValue value where
  chars ch hch := ⟨(h ch hch).1, (h ch hch).2.1⟩
  head hhead := (h space (List.mem_of_head? hhead)).2.2 rfl
  last hlast := (h space (List.mem_of_getLast? hlast)).2.2 rfl

theorem isValue_printSigned (z : Int) : IsValue (printSigned z) := by
  have hdigits : ∀ ch ∈ printUnsigned z.natAbs, ch ≠ newline ∧ ch ≠ 0 ∧ ch ≠ space :=
    fun ch hch => (digit_ne (isDigit_of_mem hch)).2.2.2
  apply isValue_of_chars
  unfold printSigned
  split
  · exact List.forall_mem_cons.mpr ⟨by decide, hdigits⟩
  · exact hdigits

theorem isValue_printBool (value : Bool) : IsValue (printBool value) := by
  apply isValue_of_chars
  cases value <;> decide +kernel

end Notbit.Store
