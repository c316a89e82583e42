import Notbit.Address
import Notbit.Store.KeyValue

/-!
# Outgoings — the file of the outgoing messages (`ntb-store.c`, `ntb-load-outgoings.c`)

The text that is written for a list of messages is read back as the same list, also where the
numeral of the ackdata has lost zero bytes.
-/

open Bytes Scans Notbit.Proto

namespace Notbit.Store

/-! ## 1. Writing -/

/-- `struct ntb_store_outgoing` -/
structure Outgoing where
  fromAddress : Address
  toAddress : Address
  ackdata : { bytes : List UInt8 // bytes.length = ackdataSize }
  contentId : UInt64
  contentEncoding : CInt
  lastGetpubkeySendTime : CInt64
  lastMsgSendTime : CInt64

/-- `NTB_STORE_MAX_ACKDATA_LENGTH` -/
def maxAckdataLength : Nat := 44

/-- The lines of the format string of `write_outgoing`. -/
def Outgoing.properties (ssl : OpenSSL) (outgoing : Outgoing) : List (List UInt8 × List UInt8) := [
  (ascii "fromaddress", outgoing.fromAddress.encode ssl),
  (ascii "toaddress", outgoing.toAddress.encode ssl),
  (ascii "ackdata", Base58.encode outgoing.ackdata.val),
  (ascii "contentid", printUnsigned outgoing.contentId.toNat),
  (ascii "contentencoding", printSigned outgoing.contentEncoding.val),
  (ascii "lastgetpubkeysendtime", printSigned outgoing.lastGetpubkeySendTime.val),
  (ascii "lastmsgsendtime", printSigned outgoing.lastMsgSendTime.val)]

/-- `write_outgoing` -/
def writeOutgoing (ssl : OpenSSL) (outgoing : Outgoing) : List UInt8 :=
  sectionText (ascii "message") (outgoing.properties ssl)

/-! ## 2. Reading -/

/-- `struct ntb_load_outgoings_data` -/
structure LoadOutgoingsData where
  outgoing : Outgoing
  hasFromAddress : Bool := false
  hasToAddress : Bool := false
  hasAckdata : Bool := false
  hasContentId : Bool := false

def CInt64.zero : CInt64 := ⟨0, by decide, by decide⟩

/-- The `int64_t` of a number. -/
def CInt64.ofInt (value : Int) : CInt64 where
  val := value.bmod (2 ^ 64)
  lower := by
    have h := Int.le_bmod (show 0 < 2 ^ 64 by decide) (x := value)
    norm_num at h ⊢
    exact h
  upper := by
    have h := Int.bmod_lt (show 0 < 2 ^ 64 by decide) (x := value)
    norm_num at h ⊢
    exact h

namespace LoadOutgoingsData

/-- `reset_data` -/
def reset (data : LoadOutgoingsData) : LoadOutgoingsData where
  outgoing := { data.outgoing with
    contentEncoding := CInt.one
    lastGetpubkeySendTime := CInt64.zero
    lastMsgSendTime := CInt64.zero }

/-- The message that `flush_outgoing` reports. -/
def flushOutgoing (data : LoadOutgoingsData) : Option Outgoing :=
  if data.hasFromAddress ∧ data.hasToAddress ∧ data.hasAckdata ∧ data.hasContentId then
    some data.outgoing
  else none

/-- `parse_ackdata` -/
def parseAckdata (value : List UInt8) :
    Option { bytes : List UInt8 // bytes.length = ackdataSize } :=
  match Base58.decode value ackdataSize with
  | none => none
  | some bytes =>
    let padded := List.replicate (ackdataSize - bytes.length) 0 ++ bytes
    if h : padded.length = ackdataSize then some ⟨padded, h⟩ else none

/-- `process_property` -/
def processProperty (ssl : OpenSSL) (data : LoadOutgoingsData) (key value : List UInt8) :
    LoadOutgoingsData :=
  let outgoing := data.outgoing
  if key = ascii "fromaddress" then
    match Address.decode ssl value with
    | some address =>
      { data with outgoing := { outgoing with fromAddress := address }, hasFromAddress := true }
    | none => data
  else if key = ascii "toaddress" then
    match Address.decode ssl value with
    | some address =>
      { data with outgoing := { outgoing with toAddress := address }, hasToAddress := true }
    | none => data
  else if key = ascii "ackdata" then
    match parseAckdata value with
    | some ackdata => { data with outgoing := { outgoing with ackdata }, hasAckdata := true }
    | none => data
  else if key = ascii "contentid" then
    match parseIntValue value intMax with
    | some id =>
      { data with
        outgoing := { outgoing with contentId := UInt64.ofNat (toUInt64 id) }, hasContentId := true }
    | none => data
  else if key = ascii "contentencoding" then
    match parseIntValue value intMax with
    | some encoding =>
      { data with outgoing := { outgoing with contentEncoding := intOfInt64 encoding } }
    | none => data
  else if key = ascii "lastgetpubkeysendtime" then
    match parseIntValue value int64Max with
    | some time =>
      { data with outgoing := { outgoing with lastGetpubkeySendTime := CInt64.ofInt time } }
    | none => data
  else if key = ascii "lastmsgsendtime" then
    match parseIntValue value int64Max with
    | some time => { data with outgoing := { outgoing with lastMsgSendTime := CInt64.ofInt time } }
    | none => data
  else data

/-- `key_value_event_cb` -/
def keyValueEventCb (ssl : OpenSSL) (data : LoadOutgoingsData) :
    KeyValueEvent → LoadOutgoingsData × Option Outgoing
  | .header _ => (data.reset, data.flushOutgoing)
  | .property key value => (data.processProperty ssl key value, none)

end LoadOutgoingsData

/-- `ntb_load_outgoings`: the messages that are reported for a file.  The record on the stack is not
initialised. -/
def loadOutgoings (ssl : OpenSSL) (uninitialised : Outgoing) (file : List UInt8) : List Outgoing :=
  let data : LoadOutgoingsData := LoadOutgoingsData.reset { outgoing := uninitialised }
  let (data, found) := scan (LoadOutgoingsData.keyValueEventCb ssl) data (keyValueLoad file)
  found ++ data.flushOutgoing.toList

/-! ## 3. What is written is read back -/

theorem CInt64.ofInt_val (value : CInt64) : CInt64.ofInt value.val = value := by
  have hlower := value.lower
  have hupper := value.upper
  obtain ⟨v, _, _⟩ := value
  have hv : v.bmod (2 ^ 64) = v := Int.bmod_eq_of_le (by omega) (by omega)
  simp only [CInt64.ofInt, hv]

theorem parseAckdata_encode (ackdata : { bytes : List UInt8 // bytes.length = ackdataSize }) :
    LoadOutgoingsData.parseAckdata (Base58.encode ackdata.val) = some ackdata := by
  have hlength : ackdata.val.length = ackdataSize := ackdata.property
  have hne : ackdata.val ≠ [] := by
    rw [← List.length_pos_iff, hlength]
    decide
  obtain ⟨bytes, hdecode, -, hpad⟩ := Base58.decode_encode hne (le_of_eq hlength)
  rw [hlength] at hpad
  unfold LoadOutgoingsData.parseAckdata
  rw [hdecode]
  dsimp only
  rw [dif_pos (by rw [hpad, hlength])]
  exact congrArg some (Subtype.ext hpad)

theorem length_encode_ackdata (ackdata : { bytes : List UInt8 // bytes.length = ackdataSize }) :
    (Base58.encode ackdata.val).length ≤ maxAckdataLength := by
  have hlt := ofBE_lt ackdata.val
  rw [ackdata.property] at hlt
  have hbase : 256 ^ ackdataSize < 58 ^ maxAckdataLength := by decide
  exact Base58.length_encode_le (by decide) (hlt.trans hbase)

-- The characters of a numeral can stand in a header and in a value.
theorem base58_chars {input : List UInt8} : ∀ ch ∈ Base58.encode input,
    ch ≠ newline ∧ ch ≠ 0 ∧ ch ≠ space ∧ ch ≠ 93 := by
  have hall : ∀ ch ∈ Base58.alphabet, ch ≠ newline ∧ ch ≠ 0 ∧ ch ≠ space ∧ ch ≠ 93 := by
    decide +kernel
  exact fun ch hch => hall ch (Base58.mem_alphabet_of_mem_encode hch)

theorem address_chars {ssl : OpenSSL} {address : Address} : ∀ ch ∈ address.encode ssl,
    ch ≠ newline ∧ ch ≠ 0 ∧ ch ≠ space ∧ ch ≠ 93 := by
  intro ch hch
  rcases List.mem_append.mp hch with hbm | hnumeral
  · have hall : ∀ ch ∈ ascii "BM-", ch ≠ newline ∧ ch ≠ 0 ∧ ch ≠ space ∧ ch ≠ 93 := by
      decide +kernel
    exact hall ch hbm
  · exact base58_chars ch hnumeral

theorem isValue_base58 {input : List UInt8} : IsValue (Base58.encode input) :=
  isValue_of_chars fun ch hch =>
    ⟨(base58_chars ch hch).1, (base58_chars ch hch).2.1, (base58_chars ch hch).2.2.1⟩

theorem isValue_address {ssl : OpenSSL} {address : Address} : IsValue (address.encode ssl) :=
  isValue_of_chars fun ch hch =>
    ⟨(address_chars ch hch).1, (address_chars ch hch).2.1, (address_chars ch hch).2.2.1⟩

theorem isValue_printUnsigned (n : Nat) : IsValue (printUnsigned n) := by
  rw [← printSigned_natCast]
  exact isValue_printSigned n

section Roundtrip

variable {ssl : OpenSSL} {outgoing : Outgoing}

/-- The messages that can be saved: the version of an address is not zero, and the number of the
content is an `int`. -/
structure Outgoing.Savable (outgoing : Outgoing) : Prop where
  fromAddress : 1 ≤ outgoing.fromAddress.version
  toAddress : 1 ≤ outgoing.toAddress.version
  contentId : (outgoing.contentId.toNat : Int) ≤ intMax

theorem parseIntValue_contentId (h : outgoing.Savable) :
    parseIntValue (printUnsigned outgoing.contentId.toNat) intMax =
      some (outgoing.contentId.toNat : Int) := by
  have hmax := h.contentId
  rw [← printSigned_natCast]
  exact parseIntValue_printSigned (by omega) (lt_of_le_of_lt hmax (by decide)) hmax

theorem ofNat_toUInt64 (id : UInt64) : UInt64.ofNat (toUInt64 (id.toNat : Int)) = id := by
  have hlt := id.toNat_lt
  have hid : toUInt64 (id.toNat : Int) = id.toNat := by
    unfold toUInt64
    omega
  rw [hid, UInt64.ofNat_toNat]

theorem yields_writeOutgoing (ssl : OpenSSL) (outgoing : Outgoing) :
    Yields KeyValueData.handleByte KeyValueData.AtStart KeyValueData.AtField
      (writeOutgoing ssl outgoing)
      (sectionEvents (ascii "message") (outgoing.properties ssl)) := by
  apply yields_section (by decide +kernel)
  simp only [Outgoing.properties, List.forall_mem_cons]
  exact ⟨⟨by decide +kernel, isValue_address⟩, ⟨by decide +kernel, isValue_address⟩,
    ⟨by decide +kernel, isValue_base58⟩,
    ⟨by decide +kernel, isValue_printUnsigned _⟩, ⟨by decide +kernel, isValue_printSigned _⟩,
    ⟨by decide +kernel, isValue_printSigned _⟩, ⟨by decide +kernel, isValue_printSigned _⟩, nofun⟩

-- A section reports what was read before it, and is kept itself until it is flushed.
theorem scan_outgoing (ssl : OpenSSL) (h : outgoing.Savable) (data : LoadOutgoingsData) :
    let after := scan (LoadOutgoingsData.keyValueEventCb ssl) data
      (sectionEvents (ascii "message") (outgoing.properties ssl))
    after.2 = data.flushOutgoing.toList ∧ after.1.flushOutgoing = some outgoing := by
  have hfrom := Address.decode_encode ssl h.fromAddress
  have hto := Address.decode_encode ssl h.toAddress
  have hack := parseAckdata_encode outgoing.ackdata
  have hid := parseIntValue_contentId h
  have hencoding := parseIntValue_int outgoing.contentEncoding
  have hgetpubkey := parseIntValue_int64 outgoing.lastGetpubkeySendTime
  have hmsg := parseIntValue_int64 outgoing.lastMsgSendTime
  simp +decide only [sectionEvents, Outgoing.properties, List.map_cons, List.map_nil, scan,
    LoadOutgoingsData.keyValueEventCb, LoadOutgoingsData.processProperty, hfrom, hto, hack, hid,
    hencoding, hgetpubkey, hmsg, if_true, if_false, Option.toList_none, List.append_nil,
    LoadOutgoingsData.flushOutgoing, and_self, ofNat_toUInt64, intOfInt64_val, CInt64.ofInt_val]

/-- Parsing the text of a list of messages reports the messages of the list, in order, and every
string in it fits its array. -/
theorem loadOutgoings_flatMap (ssl : OpenSSL) (uninitialised : Outgoing) (outgoings : List Outgoing)
    (h : ∀ outgoing ∈ outgoings, outgoing.Savable) :
    loadOutgoings ssl uninitialised (outgoings.flatMap (writeOutgoing ssl)) = outgoings ∧
      ∀ outgoing ∈ outgoings,
        (outgoing.fromAddress.encode ssl).length ≤ addressMaxLength ∧
        (outgoing.toAddress.encode ssl).length ≤ addressMaxLength ∧
        (Base58.encode outgoing.ackdata.val).length ≤ maxAckdataLength := by
  constructor
  · have hevents := keyValueLoad_flatMap (l := outgoings) fun outgoing _ =>
      yields_writeOutgoing ssl outgoing
    have hscan := scan_sections (P := fun _ => True)
      (fun outgoing houtgoing data _ => ⟨trivial, scan_outgoing ssl (h outgoing houtgoing) data⟩)
      (s := LoadOutgoingsData.reset { outgoing := uninitialised }) trivial
    rw [List.map_id'] at hscan
    unfold loadOutgoings
    rw [hevents]
    exact hscan
  · exact fun outgoing _ => ⟨Address.length_encode_le ssl outgoing.fromAddress,
      Address.length_encode_le ssl outgoing.toAddress, length_encode_ackdata outgoing.ackdata⟩

/-- A message whose ackdata is all zero. -/
def sampleOutgoing : Outgoing where
  fromAddress :=
    { version := 4, stream := 1, ripe := List.replicate 20 7, version_lt := Address.four_lt
      stream_lt := Address.one_lt, length_ripe := by decide }
  toAddress :=
    { version := 2, stream := 1, ripe := List.replicate 20 0, version_lt := Address.two_lt
      stream_lt := Address.one_lt, length_ripe := Address.length_zeroRipe }
  ackdata := ⟨List.replicate ackdataSize 0, by decide⟩
  contentId := 2147483647
  contentEncoding := ⟨-1, by decide, by decide⟩
  lastGetpubkeySendTime := CInt64.may2014
  lastMsgSendTime := CInt64.zero

theorem sampleOutgoing_loaded : sampleOutgoing.Savable ∧
    loadOutgoings OpenSSL.additive sampleOutgoing
      ([sampleOutgoing, sampleOutgoing].flatMap (writeOutgoing OpenSSL.additive)) =
      [sampleOutgoing, sampleOutgoing] := by
  have hsavable : sampleOutgoing.Savable := ⟨by decide, by decide, by decide⟩
  refine ⟨hsavable, (loadOutgoings_flatMap OpenSSL.additive sampleOutgoing _ ?_).1⟩
  simp [hsavable]

end Roundtrip

end Notbit.Store
