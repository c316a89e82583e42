import Notbit.Store.Keys
import Notbit.Store.Lines

/-!
# Sections — what a section of the key file is read as

The record the loader fills in is reset at the start of each section, but for the label: a section
without one gets that of an earlier section.
-/

open Bytes Scans Notbit.Proto

namespace Notbit.Store

/-! ## 1. The report for a section -/

section Reports

variable (ssl : OpenSSL) (curve : Curve)

/-- The key that is reported for a section of a file: every header reports the section before it,
and the end of the file the last one. -/
def sectionReport (uninitialised : LoadKeysData) (before lines behind : List Line) :
    Option (StoredKey ssl curve) :=
  ((loadReports ssl curve uninitialised (fileText (before ++ lines ++ behind)))[
    before.countP Line.startsSection + 1]?).join

/-- The events of the lines at the start of a file. -/
def fileEvents (before : List Line) : List KeyValueEvent :=
  (scan KeyValueData.handleByte { state := .headerStart } (before.flatMap Line.text)).2

/-- The loader when the next section starts, if the program gets that far. -/
def Loader.atSection (uninitialised : LoadKeysData) (before : List Line) : Loader :=
  let loader := (scan (Loader.keyValueEventCb ssl curve) (Loader.start uninitialised)
    (fileEvents before)).1
  if (loader.flush ssl curve).isSome then loader else none

variable {ssl curve} {loader : Loader} {data : LoadKeysData}

theorem scan_ended (events : List KeyValueEvent) :
    scan (Loader.keyValueEventCb ssl curve) none events = (none, []) := by
  induction events with
  | nil => rfl
  | cons event events ih =>
    cases event with
    | header value => exact ih
    | property key value => exact ih

/-- Every header is reported, until the program ends at one of them. -/
theorem length_reports (ssl : OpenSSL) (curve : Curve) (loader : Loader)
    (events : List KeyValueEvent) :
    let after := scan (Loader.keyValueEventCb ssl curve) loader events
    after.2.length ≤ events.countP KeyValueEvent.isHeader ∧
      (after.1.isSome → after.2.length = events.countP KeyValueEvent.isHeader) := by
  induction events generalizing loader with
  | nil => exact ⟨le_refl _, fun _ => rfl⟩
  | cons event events ih =>
    cases event with
    | property key value =>
      obtain ⟨hle, heq⟩ := ih (loader.map fun data => data.processProperty curve key value)
      rw [List.countP_cons_of_neg Bool.false_ne_true]
      exact ⟨hle, heq⟩
    | header value =>
      have hcount : (KeyValueEvent.header value :: events).countP KeyValueEvent.isHeader =
          events.countP KeyValueEvent.isHeader + 1 := List.countP_cons_of_pos rfl
      cases hflush : loader.flush ssl curve with
      | none =>
        have hended : scan (Loader.keyValueEventCb ssl curve) loader (.header value :: events) =
            (none, []) := by
          rw [scan_cons]
          simp only [Loader.keyValueEventCb, hflush, scan_ended]
          rfl
        rw [hended]
        exact ⟨Nat.zero_le _, by simp⟩
      | some report =>
        obtain ⟨hle, heq⟩ := ih (loader.map fun data => { data.reset with address := some value })
        have hnext : scan (Loader.keyValueEventCb ssl curve) loader (.header value :: events) =
            ((scan (Loader.keyValueEventCb ssl curve)
              (loader.map fun data => { data.reset with address := some value }) events).1,
              report :: (scan (Loader.keyValueEventCb ssl curve)
              (loader.map fun data => { data.reset with address := some value }) events).2) := by
          rw [scan_cons]
          simp only [Loader.keyValueEventCb, hflush]
          rfl
        rw [hnext, hcount]
        exact ⟨Nat.succ_le_succ hle, fun hsome => congrArg Nat.succ (heq hsome)⟩

/-- The record behind the lines of a section. -/
def LoadKeysData.readBody (curve : Curve) (data : LoadKeysData) (events : List KeyValueEvent) :
    LoadKeysData :=
  events.foldl (fun data event => match event with
    | .header _ => data
    | .property key value => data.processProperty curve key value) data

theorem scan_properties {events : List KeyValueEvent}
    (hevents : ∀ event ∈ events, event.isHeader = false) (data : LoadKeysData) :
    scan (Loader.keyValueEventCb ssl curve) (some data) events =
      (some (data.readBody curve events), []) := by
  induction events generalizing data with
  | nil => rfl
  | cons event events ih =>
    obtain ⟨hfirst, hrest⟩ := List.forall_mem_cons.mp hevents
    cases event with
    | header value => exact absurd hfirst.symm Bool.false_ne_true
    | property key value =>
      rw [scan_cons]
      exact ih hrest (data.processProperty curve key value)

/-- The next header, or the end of the file, reports what has been read. -/
theorem head_reports (ssl : OpenSSL) (curve : Curve) (data : LoadKeysData)
    {events : List KeyValueEvent}
    (hevents : ∀ event ∈ events.head?, event.isHeader = true) :
    let after := scan (Loader.keyValueEventCb ssl curve) (some data) events
    (after.2 ++ (after.1.flush ssl curve).toList).head? = data.flushKey ssl curve := by
  cases events with
  | nil =>
    show (data.flushKey ssl curve).toList.head? = _
    cases data.flushKey ssl curve <;> rfl
  | cons event events =>
    cases event with
    | property key value => exact absurd (hevents _ rfl) Bool.false_ne_true
    | header value =>
      have hflush : Loader.flush ssl curve (some data) = data.flushKey ssl curve := rfl
      cases hreport : data.flushKey ssl curve with
      | none =>
        rw [hreport] at hflush
        dsimp only
        rw [scan_cons]
        simp only [Loader.keyValueEventCb, hflush, scan_ended]
        rfl
      | some report =>
        rw [hreport] at hflush
        dsimp only
        rw [scan_cons]
        simp only [Loader.keyValueEventCb, hflush]
        rfl

/-- A section of a file: a header and the lines up to the next line that starts a section. -/
structure FileSection where
  first : Line
  address : List UInt8
  header_eq : first.header = some address
  body : List Line
  body_plain : ∀ line ∈ body, line.startsSection = false

def FileSection.lines (sec : FileSection) : List Line := sec.first :: sec.body

/-- The record when a section is flushed. -/
def FileSection.read (curve : Curve) (sec : FileSection) (data : LoadKeysData) : LoadKeysData :=
  LoadKeysData.readBody curve { data.reset with address := some sec.address } (bodyEvents sec.body)

theorem keyValueLoad_section (before behind : List Line) (sec : FileSection)
    (hbehind : ∀ line ∈ behind.head?, line.startsSection = true) :
    ∃ events, (∀ event ∈ events.head?, event.isHeader = true) ∧
      keyValueLoad (fileText (before ++ sec.lines ++ behind)) =
        fileEvents before ++ (.header sec.address :: (bodyEvents sec.body ++ events)) := by
  have hbegin : KeyValueData.AtStart { state := .headerStart } := .inl rfl
  have hstart := KeyValueData.atStart_lines hbegin before
  obtain ⟨hfield, hheader⟩ := KeyValueData.scan_line_header hstart sec.header_eq
  obtain ⟨hend, hbody⟩ := KeyValueData.scan_body hfield sec.body
  have hne : before ++ sec.lines ++ behind ≠ [] := by simp [FileSection.lines]
  unfold keyValueLoad
  dsimp only
  rw [fileText_newline hne, FileSection.lines, List.flatMap_append, List.flatMap_append,
    List.flatMap_cons, List.append_assoc, List.append_assoc, scan_append, scan_append, scan_append]
  dsimp only
  rw [hheader, hbody]
  refine ⟨_, ?_, rfl⟩
  cases behind with
  | nil => exact nofun
  | cons line behind =>
    obtain ⟨value, hvalue⟩ := Option.isSome_iff_exists.mp (hbehind line rfl)
    rw [List.flatMap_cons, scan_append]
    dsimp only
    rw [(KeyValueData.scan_line_header hend.atStart hvalue).2]
    rintro event hevent
    obtain rfl := Option.some.inj hevent
    rfl

theorem sectionReport_eq (uninitialised : LoadKeysData) (before behind : List Line)
    (sec : FileSection) (hbehind : ∀ line ∈ behind.head?, line.startsSection = true) :
    sectionReport ssl curve uninitialised before sec.lines behind =
      (Loader.atSection ssl curve uninitialised before).bind fun data =>
        ((sec.read curve data).flushKey ssl curve).join := by
  obtain ⟨events, hevents, hfile⟩ := keyValueLoad_section before behind sec hbehind
  have hcount : (fileEvents before).countP KeyValueEvent.isHeader =
      before.countP Line.startsSection :=
    KeyValueData.countP_lines (.inl rfl) before
  obtain ⟨hle, hlength⟩ := length_reports ssl curve (Loader.start uninitialised)
    (fileEvents before)
  unfold sectionReport loadReports Loader.atSection
  dsimp only
  rw [hfile, scan_append]
  dsimp only
  generalize scan (Loader.keyValueEventCb ssl curve) (Loader.start uninitialised)
    (fileEvents before) = after at hle hlength ⊢
  obtain ⟨loader, reports⟩ := after
  dsimp only at hle hlength ⊢
  rw [hcount] at hle hlength
  cases hflush : loader.flush ssl curve with
  | none =>
    -- the program ends before the section is read
    have hended : scan (Loader.keyValueEventCb ssl curve) loader
        (.header sec.address :: (bodyEvents sec.body ++ events)) = (none, []) := by
      rw [scan_cons]
      simp only [Loader.keyValueEventCb, hflush, scan_ended]
      rfl
    rw [hended]
    have hnone : reports[before.countP Line.startsSection + 1]? = none :=
      List.getElem?_eq_none (by omega)
    simp [Loader.flush, hnone]
  | some report =>
    obtain ⟨data, rfl, hdata⟩ := Option.bind_eq_some_iff.mp hflush
    have hreports := hlength rfl
    have hscan : scan (Loader.keyValueEventCb ssl curve) (some data)
        (.header sec.address :: (bodyEvents sec.body ++ events)) =
          ((scan (Loader.keyValueEventCb ssl curve) (some (sec.read curve data)) events).1,
            report :: (scan (Loader.keyValueEventCb ssl curve) (some (sec.read curve data))
              events).2) := by
      rw [scan_cons]
      simp only [Loader.keyValueEventCb, hflush, Option.map_some]
      rw [scan_append, scan_properties (KeyValueData.bodyEvents_plain sec.body_plain)]
      rfl
    have hhead := head_reports ssl curve (sec.read curve data) hevents
    rw [hscan]
    dsimp only at hhead ⊢
    rw [List.append_assoc, List.getElem?_append_right (by omega), hreports,
      Nat.add_sub_cancel_left, List.cons_append, List.getElem?_cons_succ, ← List.head?_eq_getElem?,
      hhead]
    rfl

end Reports

/-! ## 2. What is left over -/

namespace LoadKeysData

/-- The records agree in everything `flush_key` looks at but the label. -/
structure Agree (a b : LoadKeysData) : Prop where
  address : b.address = a.address
  nonceTrialsPerByte : b.nonceTrialsPerByte = a.nonceTrialsPerByte
  payloadLengthExtraBytes : b.payloadLengthExtraBytes = a.payloadLengthExtraBytes
  lastPubkeySendTime : b.lastPubkeySendTime = a.lastPubkeySendTime
  enabled : b.enabled = a.enabled
  decoy : b.decoy = a.decoy
  hasPrivateSigningKey : b.hasPrivateSigningKey = a.hasPrivateSigningKey
  hasPrivateEncryptionKey : b.hasPrivateEncryptionKey = a.hasPrivateEncryptionKey
  hasPublicSigningKey : b.hasPublicSigningKey = a.hasPublicSigningKey
  hasPublicEncryptionKey : b.hasPublicEncryptionKey = a.hasPublicEncryptionKey
  privateSigningKey : a.hasPrivateSigningKey = true → b.privateSigningKey = a.privateSigningKey
  privateEncryptionKey :
    a.hasPrivateEncryptionKey = true → b.privateEncryptionKey = a.privateEncryptionKey
  publicSigningKey : a.hasPublicSigningKey = true → b.publicSigningKey = a.publicSigningKey
  publicEncryptionKey :
    a.hasPublicEncryptionKey = true → b.publicEncryptionKey = a.publicEncryptionKey

variable {a b : LoadKeysData} {curve : Curve}

theorem agree_reset (a b : LoadKeysData) (address : List UInt8) :
    Agree { a.reset with address := some address } { b.reset with address := some address } := by
  constructor <;> first | rfl | nofun

-- Whether the text is a key does not depend on the array, and a key is written over all of it.
theorem parsePublicKey_snd (value : List UInt8) (x y : Bytes publicKeySize) :
    (parsePublicKey value x).2 = (parsePublicKey value y).2 ∧
      ((parsePublicKey value x).2 = true →
        (parsePublicKey value x).1 = (parsePublicKey value y).1) := by
  unfold parsePublicKey
  cases hdecode : Base58.decode value publicKeySize with
  | none => exact ⟨rfl, nofun⟩
  | some bytes =>
    dsimp only
    by_cases hfull : bytes.length = publicKeySize
    · have hx : bytes ++ x.val.drop bytes.length = bytes := by
        rw [List.drop_eq_nil_iff.mpr (by rw [x.property, hfull]), List.append_nil]
      have hy : bytes ++ y.val.drop bytes.length = bytes := by
        rw [List.drop_eq_nil_iff.mpr (by rw [y.property, hfull]), List.append_nil]
      simp only [hx, hy]
      rw [dif_pos hfull, dif_pos hfull]
      exact ⟨rfl, fun _ => rfl⟩
    · simp only [hfull, false_and, decide_false]
      split <;> split <;> exact ⟨rfl, nofun⟩

/-- One line of the file. -/
theorem Agree.processProperty (h : a.Agree b) (key value : List UInt8) :
    (LoadKeysData.processProperty curve a key value).Agree
      (LoadKeysData.processProperty curve b key value) := by
  unfold LoadKeysData.processProperty
  by_cases hlabel : key = ascii "label"
  · rw [if_pos hlabel, if_pos hlabel]
    exact { h with }
  rw [if_neg hlabel, if_neg hlabel]
  by_cases henabled : key = ascii "enabled"
  · rw [if_pos henabled, if_pos henabled]
    cases parseBoolValue value with
    | none => exact h
    | some enabled => exact { h with enabled := rfl }
  rw [if_neg henabled, if_neg henabled]
  by_cases hdecoy : key = ascii "decoy"
  · rw [if_pos hdecoy, if_pos hdecoy]
    cases parseBoolValue value with
    | none => exact h
    | some decoy => exact { h with decoy := rfl }
  rw [if_neg hdecoy, if_neg hdecoy]
  by_cases htrials : key = ascii "noncetrialsperbyte"
  · rw [if_pos htrials, if_pos htrials]
    cases parseIntValue value intMax with
    | none => exact h
    | some trials => exact { h with nonceTrialsPerByte := rfl }
  rw [if_neg htrials, if_neg htrials]
  by_cases hextra : key = ascii "payloadlengthextrabytes"
  · rw [if_pos hextra, if_pos hextra]
    cases parseIntValue value intMax with
    | none => exact h
    | some extra => exact { h with payloadLengthExtraBytes := rfl }
  rw [if_neg hextra, if_neg hextra]
  by_cases hprivs : key = ascii "privsigningkey"
  · rw [if_pos hprivs, if_pos hprivs]
    cases parseWif curve value with
    | none => exact h
    | some privateKey =>
      exact { h with hasPrivateSigningKey := rfl, privateSigningKey := fun _ => rfl }
  rw [if_neg hprivs, if_neg hprivs]
  by_cases hprive : key = ascii "privencryptionkey"
  · rw [if_pos hprive, if_pos hprive]
    cases parseWif curve value with
    | none => exact h
    | some privateKey =>
      exact { h with hasPrivateEncryptionKey := rfl, privateEncryptionKey := fun _ => rfl }
  rw [if_neg hprive, if_neg hprive]
  by_cases hpubs : key = ascii "pubsigningkey"
  · rw [if_pos hpubs, if_pos hpubs]
    obtain ⟨hok, hwritten⟩ := parsePublicKey_snd value b.publicSigningKey a.publicSigningKey
    refine { h with hasPublicSigningKey := ?_, publicSigningKey := fun hhas => ?_ }
    · show (b.hasPublicSigningKey || _) = (a.hasPublicSigningKey || _)
      rw [h.hasPublicSigningKey, hok]
    · rcases Bool.or_eq_true_iff.mp hhas with hbefore | hnow
      · show (parsePublicKey value b.publicSigningKey).1 = _
        rw [h.publicSigningKey hbefore]
      · exact hwritten (hok.trans hnow)
  rw [if_neg hpubs, if_neg hpubs]
  by_cases hpube : key = ascii "pubencryptionkey"
  · rw [if_pos hpube, if_pos hpube]
    obtain ⟨hok, hwritten⟩ := parsePublicKey_snd value b.publicEncryptionKey a.publicEncryptionKey
    refine { h with hasPublicEncryptionKey := ?_, publicEncryptionKey := fun hhas => ?_ }
    · show (b.hasPublicEncryptionKey || _) = (a.hasPublicEncryptionKey || _)
      rw [h.hasPublicEncryptionKey, hok]
    · rcases Bool.or_eq_true_iff.mp hhas with hbefore | hnow
      · show (parsePublicKey value b.publicEncryptionKey).1 = _
        rw [h.publicEncryptionKey hbefore]
      · exact hwritten (hok.trans hnow)
  rw [if_neg hpube, if_neg hpube]
  by_cases htime : key = ascii "lastpubkeysendtime"
  · rw [if_pos htime, if_pos htime]
    cases parseIntValue value int64Max with
    | none => exact h
    | some time => exact { h with lastPubkeySendTime := rfl }
  rw [if_neg htime, if_neg htime]
  exact h

-- The lines of a section leave records that agree if they agreed at its start.
theorem Agree.readBody (h : a.Agree b) (events : List KeyValueEvent) :
    (LoadKeysData.readBody curve a events).Agree (LoadKeysData.readBody curve b events) := by
  induction events generalizing a b with
  | nil => exact h
  | cons event events ih =>
    cases event with
    | header value => exact ih h
    | property key value => exact ih (h.processProperty key value)

theorem Agree.keys (h : a.Agree b) : b.keys = a.keys := by
  unfold LoadKeysData.keys
  rw [h.hasPrivateSigningKey, h.hasPrivateEncryptionKey, h.hasPublicSigningKey,
    h.hasPublicEncryptionKey]
  split
  · rename_i hprivate
    rw [h.privateSigningKey hprivate.1, h.privateEncryptionKey hprivate.2]
  · split
    · rename_i hpublic
      rw [h.publicSigningKey hpublic.1, h.publicEncryptionKey hpublic.2]
    · rfl

theorem Agree.params (ssl : OpenSSL) (h : a.Agree b) (address : List UInt8) (keys : KeyHalves) :
    b.params ssl address keys = { a.params ssl address keys with label := b.label } := by
  unfold LoadKeysData.params
  dsimp only
  rw [h.nonceTrialsPerByte, h.payloadLengthExtraBytes, h.lastPubkeySendTime, h.enabled, h.decoy]

/-- The label in the buffer behind some lines. -/
def labelAfter (label : Option (List UInt8)) (events : List KeyValueEvent) :
    Option (List UInt8) :=
  events.foldl (fun label event => match event with
    | .header _ => label
    | .property key value => if key = ascii "label" then some value else label) label

theorem labelAfter_append (label : Option (List UInt8)) (events events' : List KeyValueEvent) :
    labelAfter label (events ++ events') = labelAfter (labelAfter label events) events' :=
  List.foldl_append

/-- The strings in the buffers behind one line of the file. -/
theorem processProperty_strings (data : LoadKeysData) (key value : List UInt8) :
    (data.processProperty curve key value).label =
        (if key = ascii "label" then some value else data.label) ∧
      (data.processProperty curve key value).address = data.address := by
  unfold LoadKeysData.processProperty
  by_cases hlabel : key = ascii "label"
  · rw [if_pos hlabel, if_pos hlabel]
    exact ⟨rfl, rfl⟩
  rw [if_neg hlabel, if_neg hlabel]
  by_cases h : key = ascii "enabled"
  · rw [if_pos h]
    cases parseBoolValue value <;> exact ⟨rfl, rfl⟩
  rw [if_neg h]
  clear h
  by_cases h : key = ascii "decoy"
  · rw [if_pos h]
    cases parseBoolValue value <;> exact ⟨rfl, rfl⟩
  rw [if_neg h]
  clear h
  by_cases h : key = ascii "noncetrialsperbyte"
  · rw [if_pos h]
    cases parseIntValue value intMax <;> exact ⟨rfl, rfl⟩
  rw [if_neg h]
  clear h
  by_cases h : key = ascii "payloadlengthextrabytes"
  · rw [if_pos h]
    cases parseIntValue value intMax <;> exact ⟨rfl, rfl⟩
  rw [if_neg h]
  clear h
  by_cases h : key = ascii "privsigningkey"
  · rw [if_pos h]
    cases parseWif curve value <;> exact ⟨rfl, rfl⟩
  rw [if_neg h]
  clear h
  by_cases h : key = ascii "privencryptionkey"
  · rw [if_pos h]
    cases parseWif curve value <;> exact ⟨rfl, rfl⟩
  rw [if_neg h]
  clear h
  by_cases h : key = ascii "pubsigningkey"
  · rw [if_pos h]
    exact ⟨rfl, rfl⟩
  rw [if_neg h]
  clear h
  by_cases h : key = ascii "pubencryptionkey"
  · rw [if_pos h]
    exact ⟨rfl, rfl⟩
  rw [if_neg h]
  clear h
  by_cases h : key = ascii "lastpubkeysendtime"
  · rw [if_pos h]
    cases parseIntValue value int64Max <;> exact ⟨rfl, rfl⟩
  rw [if_neg h]
  exact ⟨rfl, rfl⟩

theorem label_readBody (data : LoadKeysData) (events : List KeyValueEvent) :
    (data.readBody curve events).label = labelAfter data.label events := by
  induction events generalizing data with
  | nil => rfl
  | cons event events ih =>
    cases event with
    | header value => exact ih data
    | property key value =>
      have hrest := ih (data.processProperty curve key value)
      rw [(processProperty_strings data key value).1] at hrest
      exact hrest

theorem address_readBody (data : LoadKeysData) (events : List KeyValueEvent) :
    (data.readBody curve events).address = data.address := by
  induction events generalizing data with
  | nil => rfl
  | cons event events ih =>
    cases event with
    | header value => exact ih data
    | property key value =>
      exact (ih _).trans (processProperty_strings data key value).2

end LoadKeysData

section Independence

variable {ssl : OpenSSL} {curve : Curve}

/-- The label stays in its buffer until another one is read. -/
theorem label_scan {events : List KeyValueEvent} {loader : Loader} {data : LoadKeysData}
    (h : (scan (Loader.keyValueEventCb ssl curve) loader events).1 = some data) :
    data.label = LoadKeysData.labelAfter (loader.bind (·.label)) events := by
  induction events generalizing loader with
  | nil =>
    obtain rfl : loader = some data := h
    rfl
  | cons event events ih =>
    rw [scan_cons] at h
    cases event with
    | property key value =>
      have hrest := ih h
      cases loader with
      | none =>
        have hended : (scan (Loader.keyValueEventCb ssl curve) none events).1 = none := by
          rw [scan_ended]
        exact absurd (h.symm.trans hended) (Option.some_ne_none _)
      | some start =>
        rw [hrest]
        show LoadKeysData.labelAfter (start.processProperty curve key value).label events = _
        rw [(LoadKeysData.processProperty_strings start key value).1]
        rfl
    | header value =>
      have hrest := ih h
      cases hflush : loader.flush ssl curve with
      | none =>
        simp only [Loader.keyValueEventCb, hflush, scan_ended] at h
        exact absurd h.symm (Option.some_ne_none _)
      | some report =>
        simp only [Loader.keyValueEventCb, hflush] at hrest
        rw [hrest]
        cases loader <;> rfl

theorem label_atSection {uninitialised data : LoadKeysData} {before : List Line}
    (h : Loader.atSection ssl curve uninitialised before = some data) :
    data.label = LoadKeysData.labelAfter none (fileEvents before) := by
  unfold Loader.atSection at h
  dsimp only at h
  split at h
  · exact label_scan h
  · exact absurd h nofun

theorem map_label_keyNew {params : KeyParams} {pair : KeyPair curve}
    (hcreate : params.keys.create curve = some pair) :
    (keyNew ssl curve params).map (·.label) = params.label := by
  unfold keyNew
  rw [hcreate]
  cases params.label <;> rfl

theorem keyNew_of_create_none {params : KeyParams} (hcreate : params.keys.create curve = none) :
    keyNew ssl curve params = none := by
  unfold keyNew
  rw [hcreate]
  cases params.label <;> rfl

theorem keyNew_of_label_none (params : KeyParams) (hlabel : params.label = none) :
    keyNew ssl curve params = none := by
  unfold keyNew
  rw [hlabel]

namespace FileSection

/-- The two keys in the lines of a section, if both are there. -/
def keys (curve : Curve) (sec : FileSection) : Option KeyHalves :=
  (sec.read curve .blank).keys

/-- A key can be made of the lines of the section. -/
def Complete (curve : Curve) (sec : FileSection) : Prop :=
  ∃ halves pair, sec.keys curve = some halves ∧ halves.create curve = some pair

/-- The key of a section if this label is in the buffer. -/
def keyWith (ssl : OpenSSL) (curve : Curve) (sec : FileSection) (label : Option (List UInt8)) :
    Option (StoredKey ssl curve) :=
  (sec.keys curve).bind fun halves => keyNew ssl curve
    { (sec.read curve .blank).params ssl sec.address halves with label }

/-- The label in the buffer when a section is flushed: its own, or else the last one before it in
the file.  There is none if there was no label so far, or if the program has ended. -/
def label (ssl : OpenSSL) (curve : Curve) (uninitialised : LoadKeysData) (before : List Line)
    (sec : FileSection) : Option (List UInt8) :=
  if (Loader.atSection ssl curve uninitialised before).isSome then
    LoadKeysData.labelAfter none (fileEvents before ++ bodyEvents sec.body)
  else none

theorem join_flush_read (sec : FileSection) (data : LoadKeysData) :
    ((sec.read curve data).flushKey ssl curve).join =
      sec.keyWith ssl curve (LoadKeysData.labelAfter data.label (bodyEvents sec.body)) := by
  have hagree : (sec.read curve .blank).Agree (sec.read curve data) :=
    (LoadKeysData.agree_reset .blank data sec.address).readBody (bodyEvents sec.body)
  have hlabel : (sec.read curve data).label =
      LoadKeysData.labelAfter data.label (bodyEvents sec.body) :=
    LoadKeysData.label_readBody _ _
  have haddress : (sec.read curve data).address = some sec.address :=
    LoadKeysData.address_readBody _ _
  unfold LoadKeysData.flushKey keyWith keys
  rw [hagree.keys]
  cases (sec.read curve .blank).keys with
  | none => rfl
  | some halves =>
    rw [haddress]
    dsimp only
    rw [hagree.params ssl sec.address halves, hlabel, Option.bind_some]
    cases keyNew ssl curve _ <;> rfl

theorem keyWith_none (sec : FileSection) : sec.keyWith ssl curve none = none := by
  unfold keyWith
  cases sec.keys curve with
  | none => rfl
  | some halves =>
    exact keyNew_of_label_none
      { (sec.read curve .blank).params ssl sec.address halves with label := none } rfl

theorem sectionReport_eq_keyWith (uninitialised : LoadKeysData) (before behind : List Line)
    (sec : FileSection) (hbehind : ∀ line ∈ behind.head?, line.startsSection = true) :
    sectionReport ssl curve uninitialised before sec.lines behind =
      sec.keyWith ssl curve (sec.label ssl curve uninitialised before) := by
  rw [sectionReport_eq uninitialised before behind sec hbehind]
  unfold label
  cases hloader : Loader.atSection ssl curve uninitialised before with
  | none => exact (keyWith_none sec).symm
  | some data =>
    rw [LoadKeysData.labelAfter_append, ← label_atSection hloader]
    exact join_flush_read sec data

-- The label is part of the key.
theorem keyWith_inj {sec : FileSection} (l l' : Option (List UInt8)) :
    sec.keyWith ssl curve l = sec.keyWith ssl curve l' ↔ (sec.Complete curve → l = l') := by
  unfold keyWith Complete
  cases hkeys : sec.keys curve with
  | none => simp
  | some halves =>
    cases hcreate : halves.create curve with
    | none =>
      have hnone : ∀ label, keyNew ssl curve
          { (sec.read curve .blank).params ssl sec.address halves with label } = none :=
        fun label => keyNew_of_create_none hcreate
      simp [hnone, hcreate]
    | some pair =>
      have hlabel : ∀ label, (keyNew ssl curve
          { (sec.read curve .blank).params ssl sec.address halves with label }).map (·.label) =
            label := fun label => map_label_keyNew hcreate
      constructor
      · intro heq _
        have hmap := congrArg (Option.map (·.label)) heq
        rw [Option.bind_some, Option.bind_some, hlabel, hlabel] at hmap
        exact hmap
      · intro hcomplete
        rw [hcomplete ⟨halves, pair, rfl, hcreate⟩]

end FileSection

/-- What is reported for a section does not depend on the rest of the file exactly if no key can be
made of the section, or the same label is in the buffer at its end. -/
theorem sectionReport_eq_iff (ssl : OpenSSL) (curve : Curve) (sec : FileSection)
    (uninitialised uninitialised' : LoadKeysData) (before behind before' behind' : List Line)
    (hbehind : ∀ line ∈ behind.head?, line.startsSection = true)
    (hbehind' : ∀ line ∈ behind'.head?, line.startsSection = true) :
    sectionReport ssl curve uninitialised before sec.lines behind =
        sectionReport ssl curve uninitialised' before' sec.lines behind' ↔
      (sec.Complete curve →
        sec.label ssl curve uninitialised before = sec.label ssl curve uninitialised' before') := by
  rw [FileSection.sectionReport_eq_keyWith uninitialised before behind sec hbehind,
    FileSection.sectionReport_eq_keyWith uninitialised' before' behind' sec hbehind']
  exact FileSection.keyWith_inj _ _

end Independence

/-! ## 3. A section without a label -/

/-- A line with a property. -/
def Line.ofProperty (key value : List UInt8) (hkey : IsKey key) (hvalue : IsValue value) : Line :=
  ⟨key ++ ([space, 61, space] ++ value), by
    intro hmem
    rcases List.mem_append.mp hmem with hmem | hmem
    · exact (hkey.2 newline hmem).2.2.1 rfl
    · rcases List.mem_append.mp hmem with hmem | hmem
      · exact absurd hmem (by decide)
      · exact (hvalue.chars newline hmem).1 rfl⟩

theorem Line.text_ofProperty {key value : List UInt8} (hkey : IsKey key) (hvalue : IsValue value) :
    (Line.ofProperty key value hkey hvalue).text = propertyLine key value := by
  simp [Line.ofProperty, Line.text, propertyLine]

/-- A section with two private keys and nothing else. -/
def unlabelled : FileSection where
  first := ⟨ascii "[BM-x]", by decide⟩
  address := ascii "BM-x"
  header_eq := by decide
  body := [
    Line.ofProperty (ascii "privsigningkey") (encodeWif .additive 5) (by decide +kernel)
      (isValue_wif _ _),
    Line.ofProperty (ascii "privencryptionkey") (encodeWif .additive 7)
      (by decide +kernel) (isValue_wif _ _)]
  body_plain := by
    simp only [List.forall_mem_cons]
    exact ⟨rfl, rfl, nofun⟩

theorem bodyEvents_unlabelled : bodyEvents unlabelled.body =
    [.property (ascii "privsigningkey") (encodeWif .additive 5),
      .property (ascii "privencryptionkey") (encodeWif .additive 7)] := by
  have hsigning : IsKey (ascii "privsigningkey") := by decide +kernel
  have hencryption : IsKey (ascii "privencryptionkey") := by decide +kernel
  have hlines := (KeyValueData.yields_property hsigning (isValue_wif .additive 5)).append
    (KeyValueData.yields_property hencryption (isValue_wif .additive 7))
  simp only [bodyEvents, unlabelled, List.flatMap_cons, List.flatMap_nil, List.append_nil,
    Line.text_ofProperty]
  exact (hlines { state := .fieldStart } rfl).2

theorem keys_readBody_private (curve : Curve) {m n : Nat} (hm : m < 256 ^ privateKeySize)
    (hn : n < 256 ^ privateKeySize) (data : LoadKeysData) :
    (data.readBody curve [.property (ascii "privsigningkey") (encodeWif curve m),
      .property (ascii "privencryptionkey") (encodeWif curve n)]).keys =
        some (.privateKeys ⟨toBE privateKeySize m, length_toBE _ _⟩
          ⟨toBE privateKeySize n, length_toBE _ _⟩) := by
  have hsigning := parseWif_encodeWif curve hm
  have hencryption := parseWif_encodeWif curve hn
  simp +decide only [LoadKeysData.readBody, List.foldl_cons, List.foldl_nil,
    LoadKeysData.processProperty, hsigning, hencryption, if_true, if_false, LoadKeysData.keys,
    and_self]

theorem unlabelled_complete : unlabelled.Complete .additive := by
  have hfive : 5 < 256 ^ privateKeySize := by decide
  have hseven : 7 < 256 ^ privateKeySize := by decide
  have hs : createKey .additive ⟨toBE privateKeySize 5, length_toBE _ _⟩ =
      some (samplePair true).signingKey :=
    createKey_of_private _ rfl (ofBE_toBE_of_lt hfive)
  have he : createKey .additive ⟨toBE privateKeySize 7, length_toBE _ _⟩ =
      some (samplePair true).encryptionKey :=
    createKey_of_private _ rfl (ofBE_toBE_of_lt hseven)
  refine ⟨_, samplePair true, ?_, create_privateKeys hs he⟩
  unfold FileSection.keys FileSection.read
  rw [bodyEvents_unlabelled]
  exact keys_readBody_private .additive hfive hseven _

/-- The lines of a section that has nothing but a label of one letter. -/
def labelLines (letter : UInt8) (h : letter ≠ newline) : List Line :=
  [⟨ascii "[x]", by decide⟩,
    ⟨ascii "label = " ++ [letter], by
      rw [List.mem_append, List.mem_singleton]
      rintro (hmem | hmem)
      · exact absurd hmem (by decide)
      · exact h hmem.symm⟩]

theorem unlabelled_label (uninitialised : LoadKeysData) :
    unlabelled.label .additive .additive uninitialised (labelLines 97 (by decide)) = some [97] ∧
      unlabelled.label .additive .additive uninitialised (labelLines 98 (by decide)) =
        some [98] := by
  have ha : fileEvents (labelLines 97 (by decide)) =
      [.header (ascii "x"), .property (ascii "label") [97]] := by decide
  have hb : fileEvents (labelLines 98 (by decide)) =
      [.header (ascii "x"), .property (ascii "label") [98]] := by decide
  constructor
  · rw [FileSection.label, if_pos (by unfold Loader.atSection; rw [ha]; rfl), ha,
      bodyEvents_unlabelled]
    rfl
  · rw [FileSection.label, if_pos (by unfold Loader.atSection; rw [hb]; rfl), hb,
      bodyEvents_unlabelled]
    rfl

theorem unlabelled_report_ne :
    sectionReport .additive .additive .blank (labelLines 97 (by decide)) unlabelled.lines [] ≠
      sectionReport .additive .additive .blank (labelLines 98 (by decide)) unlabelled.lines [] := by
  rw [FileSection.sectionReport_eq_keyWith _ _ [] unlabelled nofun,
    FileSection.sectionReport_eq_keyWith _ _ [] unlabelled nofun, ne_eq, FileSection.keyWith_inj,
    (unlabelled_label .blank).1, (unlabelled_label .blank).2]
  exact fun h => absurd (h unlabelled_complete) (by decide)

-- A line in front of the first section changes nothing.
theorem unlabelled_report_eq :
    sectionReport .additive .additive .blank (labelLines 97 (by decide)) unlabelled.lines [] =
      sectionReport .additive .additive .blank
        (⟨ascii "# keys", by decide⟩ :: labelLines 97 (by decide)) unlabelled.lines [] := by
  rw [sectionReport_eq_iff .additive .additive unlabelled .blank .blank _ [] _ [] nofun nofun]
  have hevents : fileEvents (labelLines 97 (by decide)) =
      fileEvents (⟨ascii "# keys", by decide⟩ :: labelLines 97 (by decide)) := by decide
  intro _
  unfold FileSection.label Loader.atSection
  rw [hevents]

end Notbit.Store
