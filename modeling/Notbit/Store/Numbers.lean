import Notbit.Store.Sections

/-!
# Numbers — the numbers in the files of the keys and of the outgoing messages

A number that is read back is the last one of its name in a section, converted to the type of its
field.  The check for a negative number looks at the pointer to the text and lets every one pass.
-/

open Bytes Scans Notbit.Proto

namespace Notbit.Store

/-! ## 1. The numbers of a section -/

/-- The lines of a file in front of its first header and behind each header. -/
def sections (file : List UInt8) : List (List KeyValueEvent) :=
  (keyValueLoad file).splitOnP KeyValueEvent.isHeader

/-- The number in a line, if it is one with that name. -/
def numberAt (name : List UInt8) (max : Int) (key value : List UInt8) : Option Int :=
  if key = name then parseIntValue value max else none

/-- The last number with a name. -/
def lastNumber (name : List UInt8) (max : Int) (sec : List KeyValueEvent) : Option Int :=
  (sec.filterMap fun event => match event with
    | .header _ => none
    | .property key value => numberAt name max key value).getLast?

/-- There is a line with that key whose value is a good one. -/
def HasLine (name : List UInt8) (good : List UInt8 → Prop) (sec : List KeyValueEvent) : Prop :=
  ∃ value, .property name value ∈ sec ∧ good value

/-- A number is not negative and not above its maximum. -/
def Within (max value : Int) : Prop := 0 ≤ value ∧ value ≤ max

/-- The last number with a name is not negative after its conversion. -/
def NonNegative (name : List UInt8) (max : Int) (convert : Int → Int) (sec : List KeyValueEvent) :
    Prop :=
  ∀ n ∈ lastNumber name max sec, 0 ≤ convert n

theorem lastNumber_append (name : List UInt8) (max : Int) (sec : List KeyValueEvent)
    (key value : List UInt8) :
    lastNumber name max (sec ++ [.property key value]) =
      (numberAt name max key value).or (lastNumber name max sec) := by
  unfold lastNumber
  rw [List.filterMap_append]
  cases h : numberAt name max key value <;> simp [h]

theorem hasLine_append (name : List UInt8) (good : List UInt8 → Prop) (sec : List KeyValueEvent)
    (key value : List UInt8) :
    HasLine name good (sec ++ [.property key value]) ↔
      HasLine name good sec ∨ key = name ∧ good value := by
  unfold HasLine
  constructor
  · rintro ⟨value', hmem, hgood⟩
    rcases List.mem_append.mp hmem with hbefore | hlast
    · exact .inl ⟨value', hbefore, hgood⟩
    · obtain ⟨rfl, rfl⟩ := KeyValueEvent.property.inj (List.mem_singleton.mp hlast)
      exact .inr ⟨rfl, hgood⟩
  · rintro (⟨value', hmem, hgood⟩ | ⟨rfl, hgood⟩)
    · exact ⟨value', List.mem_append_left _ hmem, hgood⟩
    · exact ⟨value, List.mem_append_right _ List.mem_cons_self, hgood⟩

theorem parseIntValue_bounds {value : List UInt8} {max n : Int}
    (h : parseIntValue value max = some n) : -2 ^ 63 ≤ n ∧ n < 2 ^ 63 ∧ n ≤ max := by
  have hrange : -2 ^ 63 ≤ (strtoll value).value ∧ (strtoll value).value < 2 ^ 63 := by
    unfold strtoll
    dsimp only
    split_ifs <;> dsimp only <;> omega
  unfold parseIntValue at h
  dsimp only at h
  split_ifs at h with hbad hmax
  obtain rfl := Option.some.inj h
  exact ⟨hrange.1, hrange.2, not_lt.mp hmax⟩

theorem lastNumber_bounds {name : List UInt8} {max n : Int} {sec : List KeyValueEvent}
    (h : lastNumber name max sec = some n) : -2 ^ 63 ≤ n ∧ n < 2 ^ 63 ∧ n ≤ max := by
  obtain ⟨event, -, hevent⟩ := List.mem_filterMap.mp (List.mem_of_getLast? h)
  cases event with
  | header value => exact absurd hevent nofun
  | property key value =>
    dsimp only [numberAt] at hevent
    split at hevent
    · exact parseIntValue_bounds hevent
    · exact absurd hevent nofun

-- A field that each number with its name is written to.
theorem elim_lastNumber_append {τ : Type} (name : List UInt8) (max : Int)
    (sec : List KeyValueEvent) (key value : List UInt8) (start : τ) (convert : Int → τ) :
    (lastNumber name max (sec ++ [.property key value])).elim start convert =
      (numberAt name max key value).elim ((lastNumber name max sec).elim start convert) convert := by
  rw [lastNumber_append]
  cases numberAt name max key value <;> rfl

theorem within_int (value : CInt) : Within intMax value.val ↔ 0 ≤ value.val := by
  have hupper := value.upper
  unfold Within intMax
  omega

theorem within_int64 (value : CInt64) : Within int64Max value.val ↔ 0 ≤ value.val := by
  have hupper := value.upper
  unfold Within int64Max
  omega

theorem within_lastNumber_int (name : List UInt8) (sec : List KeyValueEvent) {start : CInt}
    (hstart : 0 ≤ start.val) :
    Within intMax ((lastNumber name intMax sec).elim start intOfInt64).val ↔
      NonNegative name intMax (fun n => (intOfInt64 n).val) sec := by
  rw [within_int, NonNegative]
  cases lastNumber name intMax sec with
  | none => simpa using hstart
  | some n => simp

theorem within_lastNumber_int64 (name : List UInt8) (sec : List KeyValueEvent) :
    Within int64Max ((lastNumber name int64Max sec).elim CInt64.zero CInt64.ofInt).val ↔
      NonNegative name int64Max id sec := by
  rw [within_int64, NonNegative]
  cases h : lastNumber name int64Max sec with
  | none => simp [CInt64.zero]
  | some n =>
    obtain ⟨hlower, hupper, -⟩ := lastNumber_bounds h
    have hn : (CInt64.ofInt n).val = n := Int.bmod_eq_of_le (by omega) (by omega)
    simp [hn]

/-! ## 2. The outgoing messages -/

namespace LoadOutgoingsData

theorem flags_processProperty (ssl : OpenSSL) (data : LoadOutgoingsData) (key value : List UInt8) :
    let after := data.processProperty ssl key value
    (after.hasFromAddress = true ↔ data.hasFromAddress = true ∨
      key = ascii "fromaddress" ∧ (Address.decode ssl value).isSome) ∧
    (after.hasToAddress = true ↔ data.hasToAddress = true ∨
      key = ascii "toaddress" ∧ (Address.decode ssl value).isSome) ∧
    (after.hasAckdata = true ↔ data.hasAckdata = true ∨
      key = ascii "ackdata" ∧ (parseAckdata value).isSome) ∧
    (after.hasContentId = true ↔ data.hasContentId = true ∨
      key = ascii "contentid" ∧ (parseIntValue value intMax).isSome) := by
  dsimp only
  unfold processProperty
  split_ifs
  · subst key
    cases Address.decode ssl value <;> simp +decide
  · subst key
    cases Address.decode ssl value <;> simp +decide
  · subst key
    cases parseAckdata value <;> simp +decide
  · subst key
    cases parseIntValue value intMax <;> simp +decide
  · subst key
    cases parseIntValue value intMax <;> simp +decide
  · subst key
    cases parseIntValue value int64Max <;> simp +decide
  · subst key
    cases parseIntValue value int64Max <;> simp +decide
  · simp only [*, false_and, or_false, and_self]

theorem numbers_processProperty (ssl : OpenSSL) (data : LoadOutgoingsData)
    (key value : List UInt8) :
    let after := (data.processProperty ssl key value).outgoing
    after.contentId = (numberAt (ascii "contentid") intMax key value).elim
      data.outgoing.contentId (fun n => UInt64.ofNat (toUInt64 n)) ∧
    after.contentEncoding = (numberAt (ascii "contentencoding") intMax key value).elim
      data.outgoing.contentEncoding intOfInt64 ∧
    after.lastGetpubkeySendTime = (numberAt (ascii "lastgetpubkeysendtime") int64Max key value).elim
      data.outgoing.lastGetpubkeySendTime CInt64.ofInt ∧
    after.lastMsgSendTime = (numberAt (ascii "lastmsgsendtime") int64Max key value).elim
      data.outgoing.lastMsgSendTime CInt64.ofInt := by
  dsimp only
  unfold processProperty
  split_ifs
  · subst key
    cases Address.decode ssl value <;> simp +decide [numberAt]
  · subst key
    cases Address.decode ssl value <;> simp +decide [numberAt]
  · subst key
    cases parseAckdata value <;> simp +decide [numberAt]
  · subst key
    cases h : parseIntValue value intMax <;> simp +decide [numberAt, h]
  · subst key
    cases h : parseIntValue value intMax <;> simp +decide [numberAt, h]
  · subst key
    cases h : parseIntValue value int64Max <;> simp +decide [numberAt, h]
  · subst key
    cases h : parseIntValue value int64Max <;> simp +decide [numberAt, h]
  · simp only [numberAt, *, if_false, Option.elim_none, and_self]

end LoadOutgoingsData

section Outgoings

variable {ssl : OpenSSL}

/-- The numbers of a message are in their ranges. -/
structure Outgoing.InRange (outgoing : Outgoing) : Prop where
  contentId : Within intMax outgoing.contentId.toNat
  contentEncoding : Within intMax outgoing.contentEncoding.val
  lastGetpubkeySendTime : Within int64Max outgoing.lastGetpubkeySendTime.val
  lastMsgSendTime : Within int64Max outgoing.lastMsgSendTime.val

/-- What `for_each_outgoing_cb` does with `next_message_content_id`. -/
def raiseContentId (next : UInt64) (outgoing : Outgoing) : UInt64 :=
  if outgoing.contentId ≥ next then outgoing.contentId + 1 else next

/-- A section from which a message is made. -/
structure HasOutgoing (ssl : OpenSSL) (sec : List KeyValueEvent) : Prop where
  fromAddress : HasLine (ascii "fromaddress") (fun v => (Address.decode ssl v).isSome) sec
  toAddress : HasLine (ascii "toaddress") (fun v => (Address.decode ssl v).isSome) sec
  ackdata : HasLine (ascii "ackdata") (fun v => (LoadOutgoingsData.parseAckdata v).isSome) sec
  contentId : HasLine (ascii "contentid") (fun v => (parseIntValue v intMax).isSome) sec

/-- The numbers of a section are not negative, the encoding after its conversion to an `int`. -/
structure OutgoingNumbers (sec : List KeyValueEvent) : Prop where
  contentId : NonNegative (ascii "contentid") intMax id sec
  contentEncoding : NonNegative (ascii "contentencoding") intMax (fun n => (intOfInt64 n).val) sec
  lastGetpubkeySendTime : NonNegative (ascii "lastgetpubkeysendtime") int64Max id sec
  lastMsgSendTime : NonNegative (ascii "lastmsgsendtime") int64Max id sec

/-- The record holds what the lines of a section say. -/
structure OutgoingRead (ssl : OpenSSL) (sec : List KeyValueEvent)
    (data : LoadOutgoingsData) : Prop where
  hasFromAddress : data.hasFromAddress = true ↔
    HasLine (ascii "fromaddress") (fun v => (Address.decode ssl v).isSome) sec
  hasToAddress : data.hasToAddress = true ↔
    HasLine (ascii "toaddress") (fun v => (Address.decode ssl v).isSome) sec
  hasAckdata : data.hasAckdata = true ↔
    HasLine (ascii "ackdata") (fun v => (LoadOutgoingsData.parseAckdata v).isSome) sec
  hasContentId : data.hasContentId = true ↔
    HasLine (ascii "contentid") (fun v => (parseIntValue v intMax).isSome) sec
  contentId : ∃ start, data.outgoing.contentId =
    (lastNumber (ascii "contentid") intMax sec).elim start fun n => UInt64.ofNat (toUInt64 n)
  contentEncoding : data.outgoing.contentEncoding =
    (lastNumber (ascii "contentencoding") intMax sec).elim CInt.one intOfInt64
  lastGetpubkeySendTime : data.outgoing.lastGetpubkeySendTime =
    (lastNumber (ascii "lastgetpubkeysendtime") int64Max sec).elim CInt64.zero CInt64.ofInt
  lastMsgSendTime : data.outgoing.lastMsgSendTime =
    (lastNumber (ascii "lastmsgsendtime") int64Max sec).elim CInt64.zero CInt64.ofInt

theorem OutgoingRead.reset (data : LoadOutgoingsData) : OutgoingRead ssl [] data.reset where
  hasFromAddress := by simp [LoadOutgoingsData.reset, HasLine]
  hasToAddress := by simp [LoadOutgoingsData.reset, HasLine]
  hasAckdata := by simp [LoadOutgoingsData.reset, HasLine]
  hasContentId := by simp [LoadOutgoingsData.reset, HasLine]
  contentId := ⟨data.outgoing.contentId, rfl⟩
  contentEncoding := rfl
  lastGetpubkeySendTime := rfl
  lastMsgSendTime := rfl

theorem OutgoingRead.property {sec : List KeyValueEvent} {data : LoadOutgoingsData}
    (h : OutgoingRead ssl sec data) (key value : List UInt8) :
    OutgoingRead ssl (sec ++ [.property key value]) (data.processProperty ssl key value) := by
  obtain ⟨hfrom, hto, hack, hid⟩ := LoadOutgoingsData.flags_processProperty ssl data key value
  obtain ⟨hcontent, hencoding, hgetpubkey, hmsg⟩ :=
    LoadOutgoingsData.numbers_processProperty ssl data key value
  obtain ⟨start, hstart⟩ := h.contentId
  constructor
  · rw [hasLine_append, hfrom, h.hasFromAddress]
  · rw [hasLine_append, hto, h.hasToAddress]
  · rw [hasLine_append, hack, h.hasAckdata]
  · rw [hasLine_append, hid, h.hasContentId]
  · exact ⟨start, by rw [elim_lastNumber_append, hcontent, hstart]⟩
  · rw [elim_lastNumber_append, hencoding, h.contentEncoding]
  · rw [elim_lastNumber_append, hgetpubkey, h.lastGetpubkeySendTime]
  · rw [elim_lastNumber_append, hmsg, h.lastMsgSendTime]

theorem isSome_lastNumber {name : List UInt8} {max : Int} {sec : List KeyValueEvent}
    (h : HasLine name (fun value => (parseIntValue value max).isSome) sec) :
    ∃ n, lastNumber name max sec = some n := by
  obtain ⟨value, hmem, hsome⟩ := h
  obtain ⟨n, hn⟩ := Option.isSome_iff_exists.mp hsome
  have hfound : n ∈ sec.filterMap fun event => match event with
      | .header _ => none
      | .property key value => numberAt name max key value :=
    List.mem_filterMap.mpr ⟨_, hmem, (if_pos rfl).trans hn⟩
  apply Option.ne_none_iff_exists'.mp
  exact mt List.getLast?_eq_none_iff.mp (List.ne_nil_of_mem hfound)

-- A negative number becomes a content id above every `int`.
theorem within_contentId {n : Int} (hlower : -2 ^ 63 ≤ n) (hmax : n ≤ intMax) :
    Within intMax (UInt64.ofNat (toUInt64 n)).toNat ↔ 0 ≤ n := by
  have hlt := toUInt64_lt n
  have hnat : (UInt64.ofNat (toUInt64 n)).toNat = toUInt64 n := UInt64.toNat_ofNat_of_lt' hlt
  rw [hnat]
  unfold Within intMax toUInt64 at *
  omega

theorem lt_raiseContentId {outgoing : Outgoing} (h : Within intMax outgoing.contentId.toNat)
    (next : UInt64) : outgoing.contentId < raiseContentId next outgoing := by
  have hmax := h.2
  unfold intMax at hmax
  unfold raiseContentId
  split
  · rw [UInt64.lt_iff_toNat_lt, UInt64.toNat_add]
    show _ < (_ + 1) % 2 ^ 64
    omega
  · rename_i hnot
    exact UInt64.not_le.mp hnot

theorem OutgoingRead.inRange_iff {sec : List KeyValueEvent} {data : LoadOutgoingsData}
    (h : OutgoingRead ssl sec data) (hhas : HasOutgoing ssl sec) :
    data.outgoing.InRange ↔ OutgoingNumbers sec := by
  obtain ⟨n, hn⟩ := isSome_lastNumber hhas.contentId
  obtain ⟨hlower, -, hmax⟩ := lastNumber_bounds hn
  obtain ⟨start, hstart⟩ := h.contentId
  have hid : Within intMax data.outgoing.contentId.toNat ↔
      NonNegative (ascii "contentid") intMax id sec := by
    rw [hstart, NonNegative, hn]
    simpa using within_contentId hlower hmax
  have hencoding : Within intMax data.outgoing.contentEncoding.val ↔
      NonNegative (ascii "contentencoding") intMax (fun n => (intOfInt64 n).val) sec := by
    rw [h.contentEncoding]
    exact within_lastNumber_int _ sec (by decide)
  have hgetpubkey : Within int64Max data.outgoing.lastGetpubkeySendTime.val ↔
      NonNegative (ascii "lastgetpubkeysendtime") int64Max id sec := by
    rw [h.lastGetpubkeySendTime]
    exact within_lastNumber_int64 _ sec
  have hmsg : Within int64Max data.outgoing.lastMsgSendTime.val ↔
      NonNegative (ascii "lastmsgsendtime") int64Max id sec := by
    rw [h.lastMsgSendTime]
    exact within_lastNumber_int64 _ sec
  constructor
  · intro hrange
    exact ⟨hid.mp hrange.contentId, hencoding.mp hrange.contentEncoding,
      hgetpubkey.mp hrange.lastGetpubkeySendTime, hmsg.mp hrange.lastMsgSendTime⟩
  · intro hnumbers
    exact ⟨hid.mpr hnumbers.contentId, hencoding.mpr hnumbers.contentEncoding,
      hgetpubkey.mpr hnumbers.lastGetpubkeySendTime, hmsg.mpr hnumbers.lastMsgSendTime⟩

theorem OutgoingRead.flush_iff {sec : List KeyValueEvent} {data : LoadOutgoingsData}
    (h : OutgoingRead ssl sec data) :
    (∀ outgoing ∈ data.flushOutgoing, outgoing.InRange ∧
      ∀ next, outgoing.contentId < raiseContentId next outgoing) ↔
        (HasOutgoing ssl sec → OutgoingNumbers sec) := by
  have hflags : (data.hasFromAddress ∧ data.hasToAddress ∧ data.hasAckdata ∧ data.hasContentId) ↔
      HasOutgoing ssl sec := by
    rw [h.hasFromAddress, h.hasToAddress, h.hasAckdata, h.hasContentId]
    exact ⟨fun ⟨hfrom, hto, hack, hid⟩ => ⟨hfrom, hto, hack, hid⟩,
      fun hhas => ⟨hhas.fromAddress, hhas.toAddress, hhas.ackdata, hhas.contentId⟩⟩
  unfold LoadOutgoingsData.flushOutgoing
  by_cases hhas : HasOutgoing ssl sec
  · rw [if_pos (hflags.mpr hhas), ← h.inRange_iff hhas]
    constructor
    · exact fun hrange _ => (hrange _ rfl).1
    · intro hrange outgoing houtgoing
      obtain rfl := Option.mem_some_iff.mp houtgoing
      exact ⟨hrange hhas, lt_raiseContentId (hrange hhas).contentId⟩
  · rw [if_neg (mt hflags.mp hhas)]
    exact ⟨fun _ hhas' => absurd hhas' hhas,
      fun _ outgoing houtgoing => absurd houtgoing (Option.not_mem_none outgoing)⟩

theorem loadOutgoings_inRange_iff (ssl : OpenSSL) (uninitialised : Outgoing) (file : List UInt8) :
    (∀ outgoing ∈ loadOutgoings ssl uninitialised file, outgoing.InRange ∧
      ∀ next, outgoing.contentId < raiseContentId next outgoing) ↔
        ∀ sec ∈ sections file, HasOutgoing ssl sec → OutgoingNumbers sec := by
  have hload : loadOutgoings ssl uninitialised file =
      (groupEnds (LoadOutgoingsData.keyValueEventCb ssl) KeyValueEvent.isHeader
        (LoadOutgoingsData.reset { outgoing := uninitialised }) (keyValueLoad file)).filterMap
          LoadOutgoingsData.flushOutgoing := by
    apply scan_groupEnds
    · intro data event hevent
      cases event with
      | header value => rfl
      | property key value => exact absurd hevent Bool.false_ne_true
    · intro data event hevent
      cases event with
      | header value => exact absurd hevent.symm Bool.false_ne_true
      | property key value => rfl
  have hread : List.Forall₂ (OutgoingRead ssl)
      ((keyValueLoad file).splitOnP KeyValueEvent.isHeader)
      (groupEnds (LoadOutgoingsData.keyValueEventCb ssl) KeyValueEvent.isHeader
        (LoadOutgoingsData.reset { outgoing := uninitialised }) (keyValueLoad file)) := by
    apply forall₂_groupEnds
    · intro sec data event _ hevent
      cases event with
      | header value => exact OutgoingRead.reset data
      | property key value => exact absurd hevent Bool.false_ne_true
    · intro sec data event h hevent
      cases event with
      | header value => exact absurd hevent.symm Bool.false_ne_true
      | property key value => exact h.property key value
    · exact OutgoingRead.reset _
  rw [sections, forall_mem_iff_of_forall₂ hread fun sec data h => h.flush_iff.symm, hload]
  simp only [List.mem_filterMap, forall_exists_index, and_imp]
  exact ⟨fun hall data hdata outgoing houtgoing => hall outgoing data hdata houtgoing,
    fun hall outgoing data hdata houtgoing => hall data hdata outgoing houtgoing⟩

end Outgoings

/-! ## 3. The keys -/

namespace LoadKeysData

/-- The numeral of a public key. -/
def IsPublicKey (value : List UInt8) : Prop :=
  ∃ bytes, Base58.decode value publicKeySize = some bytes ∧ bytes.length = publicKeySize ∧
    bytes.head? = some 4

theorem parsePublicKey_iff (value : List UInt8) (result : Bytes publicKeySize) :
    (parsePublicKey value result).2 = true ↔ IsPublicKey value := by
  unfold parsePublicKey IsPublicKey
  cases hdecode : Base58.decode value publicKeySize with
  | none => simp
  | some bytes =>
    have hresult := result.property
    dsimp only
    split
    · simp
    · rename_i hlength
      have hne : bytes.length ≠ publicKeySize := by
        intro heq
        apply hlength
        rw [List.length_append, List.length_drop, heq, hresult]
        rfl
      simp [hne]

/-- What a line does: what holds of the data before it, and of them with the value of a line of each
name, holds behind the line. -/
theorem processProperty_cases (curve : Curve) (data : LoadKeysData) (key value : List UInt8)
    {P : LoadKeysData → Prop} (unread : P data)
    (label : key = ascii "label" → P { data with label := some value })
    (enabled : ∀ enabled, P { data with enabled }) (decoy : ∀ decoy, P { data with decoy })
    (trials : ∀ trials, key = ascii "noncetrialsperbyte" →
      P { data with nonceTrialsPerByte := intOfInt64 trials })
    (extra : ∀ extra, key = ascii "payloadlengthextrabytes" →
      P { data with payloadLengthExtraBytes := intOfInt64 extra })
    (privateSigning : ∀ privateKey, key = ascii "privsigningkey" →
      P { data with privateSigningKey := privateKey, hasPrivateSigningKey := true })
    (privateEncryption : ∀ privateKey, key = ascii "privencryptionkey" →
      P { data with privateEncryptionKey := privateKey, hasPrivateEncryptionKey := true })
    (publicSigning : key = ascii "pubsigningkey" →
      P { data with
        publicSigningKey := (parsePublicKey value data.publicSigningKey).1
        hasPublicSigningKey :=
          data.hasPublicSigningKey || (parsePublicKey value data.publicSigningKey).2 })
    (publicEncryption : key = ascii "pubencryptionkey" →
      P { data with
        publicEncryptionKey := (parsePublicKey value data.publicEncryptionKey).1
        hasPublicEncryptionKey :=
          data.hasPublicEncryptionKey || (parsePublicKey value data.publicEncryptionKey).2 })
    (time : ∀ time, key = ascii "lastpubkeysendtime" →
      P { data with lastPubkeySendTime := CInt64.ofInt time }) :
    P (data.processProperty curve key value) := by
  unfold processProperty
  refine iteInduction (motive := P) label fun _ => ?_
  refine iteInduction (motive := P) (fun _ => ?_) fun _ => ?_
  · cases parseBoolValue value with
    | none => exact unread
    | some b => exact enabled b
  refine iteInduction (motive := P) (fun _ => ?_) fun _ => ?_
  · cases parseBoolValue value with
    | none => exact unread
    | some b => exact decoy b
  refine iteInduction (motive := P) (fun hkey => ?_) fun _ => ?_
  · cases parseIntValue value intMax with
    | none => exact unread
    | some n => exact trials n hkey
  refine iteInduction (motive := P) (fun hkey => ?_) fun _ => ?_
  · cases parseIntValue value intMax with
    | none => exact unread
    | some n => exact extra n hkey
  refine iteInduction (motive := P) (fun hkey => ?_) fun _ => ?_
  · cases parseWif curve value with
    | none => exact unread
    | some privateKey => exact privateSigning privateKey hkey
  refine iteInduction (motive := P) (fun hkey => ?_) fun _ => ?_
  · cases parseWif curve value with
    | none => exact unread
    | some privateKey => exact privateEncryption privateKey hkey
  refine iteInduction (motive := P) publicSigning fun _ => ?_
  refine iteInduction (motive := P) publicEncryption fun _ => ?_
  refine iteInduction (motive := P) (fun hkey => ?_) fun _ => unread
  cases parseIntValue value int64Max with
  | none => exact unread
  | some n => exact time n hkey

section Fields

variable (curve : Curve) (data : LoadKeysData) (value : List UInt8) {key : List UInt8}

/-! A line of another name leaves a field alone. -/

theorem privateSigningKey_of_ne (hname : key ≠ ascii "privsigningkey") :
    let after := data.processProperty curve key value
    after.hasPrivateSigningKey = data.hasPrivateSigningKey ∧
      after.privateSigningKey = data.privateSigningKey := by
  apply processProperty_cases (P := fun after =>
    after.hasPrivateSigningKey = data.hasPrivateSigningKey ∧
      after.privateSigningKey = data.privateSigningKey)
  case privateSigning => exact fun _ hkey => absurd hkey hname
  all_goals
    intros
    exact ⟨rfl, rfl⟩

theorem privateEncryptionKey_of_ne (hname : key ≠ ascii "privencryptionkey") :
    let after := data.processProperty curve key value
    after.hasPrivateEncryptionKey = data.hasPrivateEncryptionKey ∧
      after.privateEncryptionKey = data.privateEncryptionKey := by
  apply processProperty_cases (P := fun after =>
    after.hasPrivateEncryptionKey = data.hasPrivateEncryptionKey ∧
      after.privateEncryptionKey = data.privateEncryptionKey)
  case privateEncryption => exact fun _ hkey => absurd hkey hname
  all_goals
    intros
    exact ⟨rfl, rfl⟩

theorem publicSigningKey_of_ne (hname : key ≠ ascii "pubsigningkey") :
    let after := data.processProperty curve key value
    after.hasPublicSigningKey = data.hasPublicSigningKey ∧
      after.publicSigningKey = data.publicSigningKey := by
  apply processProperty_cases (P := fun after =>
    after.hasPublicSigningKey = data.hasPublicSigningKey ∧
      after.publicSigningKey = data.publicSigningKey)
  case publicSigning => exact fun hkey => absurd hkey hname
  all_goals
    intros
    exact ⟨rfl, rfl⟩

theorem publicEncryptionKey_of_ne (hname : key ≠ ascii "pubencryptionkey") :
    let after := data.processProperty curve key value
    after.hasPublicEncryptionKey = data.hasPublicEncryptionKey ∧
      after.publicEncryptionKey = data.publicEncryptionKey := by
  apply processProperty_cases (P := fun after =>
    after.hasPublicEncryptionKey = data.hasPublicEncryptionKey ∧
      after.publicEncryptionKey = data.publicEncryptionKey)
  case publicEncryption => exact fun hkey => absurd hkey hname
  all_goals
    intros
    exact ⟨rfl, rfl⟩

/-! A line of its name gives it a value. -/

theorem processProperty_privateSigning :
    data.processProperty curve (ascii "privsigningkey") value =
      match parseWif curve value with
      | some privateKey =>
        { data with privateSigningKey := privateKey, hasPrivateSigningKey := true }
      | none => data := rfl

theorem processProperty_privateEncryption :
    data.processProperty curve (ascii "privencryptionkey") value =
      match parseWif curve value with
      | some privateKey =>
        { data with privateEncryptionKey := privateKey, hasPrivateEncryptionKey := true }
      | none => data := rfl

theorem processProperty_publicSigning :
    data.processProperty curve (ascii "pubsigningkey") value =
      { data with
        publicSigningKey := (parsePublicKey value data.publicSigningKey).1
        hasPublicSigningKey :=
          data.hasPublicSigningKey || (parsePublicKey value data.publicSigningKey).2 } := rfl

theorem processProperty_publicEncryption :
    data.processProperty curve (ascii "pubencryptionkey") value =
      { data with
        publicEncryptionKey := (parsePublicKey value data.publicEncryptionKey).1
        hasPublicEncryptionKey :=
          data.hasPublicEncryptionKey || (parsePublicKey value data.publicEncryptionKey).2 } := rfl

end Fields

theorem flags_processProperty (curve : Curve) (data : LoadKeysData) (key value : List UInt8) :
    let after := data.processProperty curve key value
    (after.hasPrivateSigningKey = true ↔ data.hasPrivateSigningKey = true ∨
      key = ascii "privsigningkey" ∧ (parseWif curve value).isSome) ∧
    (after.hasPrivateEncryptionKey = true ↔ data.hasPrivateEncryptionKey = true ∨
      key = ascii "privencryptionkey" ∧ (parseWif curve value).isSome) ∧
    (after.hasPublicSigningKey = true ↔ data.hasPublicSigningKey = true ∨
      key = ascii "pubsigningkey" ∧ IsPublicKey value) ∧
    (after.hasPublicEncryptionKey = true ↔ data.hasPublicEncryptionKey = true ∨
      key = ascii "pubencryptionkey" ∧ IsPublicKey value) := by
  refine ⟨?_, ?_, ?_, ?_⟩
  · by_cases hname : key = ascii "privsigningkey"
    · subst hname
      rw [processProperty_privateSigning]
      cases parseWif curve value <;> simp
    · rw [(privateSigningKey_of_ne curve data value hname).1, or_iff_left fun h => hname h.1]
  · by_cases hname : key = ascii "privencryptionkey"
    · subst hname
      rw [processProperty_privateEncryption]
      cases parseWif curve value <;> simp
    · rw [(privateEncryptionKey_of_ne curve data value hname).1, or_iff_left fun h => hname h.1]
  · by_cases hname : key = ascii "pubsigningkey"
    · subst hname
      rw [processProperty_publicSigning, Bool.or_eq_true, parsePublicKey_iff, and_iff_right rfl]
    · rw [(publicSigningKey_of_ne curve data value hname).1, or_iff_left fun h => hname h.1]
  · by_cases hname : key = ascii "pubencryptionkey"
    · subst hname
      rw [processProperty_publicEncryption, Bool.or_eq_true, parsePublicKey_iff,
        and_iff_right rfl]
    · rw [(publicEncryptionKey_of_ne curve data value hname).1, or_iff_left fun h => hname h.1]

theorem numbers_processProperty (curve : Curve) (data : LoadKeysData) (key value : List UInt8) :
    let after := data.processProperty curve key value
    after.nonceTrialsPerByte = (numberAt (ascii "noncetrialsperbyte") intMax key value).elim
      data.nonceTrialsPerByte intOfInt64 ∧
    after.payloadLengthExtraBytes =
      (numberAt (ascii "payloadlengthextrabytes") intMax key value).elim
        data.payloadLengthExtraBytes intOfInt64 ∧
    after.lastPubkeySendTime = (numberAt (ascii "lastpubkeysendtime") int64Max key value).elim
      data.lastPubkeySendTime CInt64.ofInt := by
  unfold numberAt
  refine ⟨?_, ?_, ?_⟩
  · by_cases hname : key = ascii "noncetrialsperbyte"
    · subst hname
      rw [if_pos rfl]
      unfold processProperty
      cases parseIntValue value intMax <;> rfl
    · rw [if_neg hname]
      apply processProperty_cases (P := fun after =>
        after.nonceTrialsPerByte = data.nonceTrialsPerByte)
      case trials => exact fun _ hkey => absurd hkey hname
      all_goals
        intros
        rfl
  · by_cases hname : key = ascii "payloadlengthextrabytes"
    · subst hname
      rw [if_pos rfl]
      unfold processProperty
      cases parseIntValue value intMax <;> rfl
    · rw [if_neg hname]
      apply processProperty_cases (P := fun after =>
        after.payloadLengthExtraBytes = data.payloadLengthExtraBytes)
      case extra => exact fun _ hkey => absurd hkey hname
      all_goals
        intros
        rfl
  · by_cases hname : key = ascii "lastpubkeysendtime"
    · subst hname
      rw [if_pos rfl]
      unfold processProperty
      cases parseIntValue value int64Max <;> rfl
    · rw [if_neg hname]
      apply processProperty_cases (P := fun after =>
        after.lastPubkeySendTime = data.lastPubkeySendTime)
      case time => exact fun _ hkey => absurd hkey hname
      all_goals
        intros
        rfl

end LoadKeysData

section Keys

variable {ssl : OpenSSL} {curve : Curve}

/-- The numbers of a key are in their ranges. -/
structure StoredKey.InRange (key : StoredKey ssl curve) : Prop where
  nonceTrialsPerByte : Within intMax key.nonceTrialsPerByte.val
  payloadLengthExtraBytes : Within intMax key.payloadLengthExtraBytes.val
  lastPubkeySendTime : Within int64Max key.lastPubkeySendTime.val

/-- A section from which a key is made. -/
def HasKeys (curve : Curve) (sec : List KeyValueEvent) : Prop :=
  HasLine (ascii "privsigningkey") (fun v => (parseWif curve v).isSome) sec ∧
      HasLine (ascii "privencryptionkey") (fun v => (parseWif curve v).isSome) sec ∨
    HasLine (ascii "pubsigningkey") LoadKeysData.IsPublicKey sec ∧
      HasLine (ascii "pubencryptionkey") LoadKeysData.IsPublicKey sec

/-- The numbers of a section are not negative, the difficulty after its conversion to an `int`. -/
structure KeyNumbers (sec : List KeyValueEvent) : Prop where
  nonceTrialsPerByte :
    NonNegative (ascii "noncetrialsperbyte") intMax (fun n => (intOfInt64 n).val) sec
  payloadLengthExtraBytes :
    NonNegative (ascii "payloadlengthextrabytes") intMax (fun n => (intOfInt64 n).val) sec
  lastPubkeySendTime : NonNegative (ascii "lastpubkeysendtime") int64Max id sec

/-- The record holds what the lines of a section say. -/
structure KeysRead (curve : Curve) (sec : List KeyValueEvent) (data : LoadKeysData) : Prop where
  hasPrivateSigningKey : data.hasPrivateSigningKey = true ↔
    HasLine (ascii "privsigningkey") (fun v => (parseWif curve v).isSome) sec
  hasPrivateEncryptionKey : data.hasPrivateEncryptionKey = true ↔
    HasLine (ascii "privencryptionkey") (fun v => (parseWif curve v).isSome) sec
  hasPublicSigningKey : data.hasPublicSigningKey = true ↔
    HasLine (ascii "pubsigningkey") LoadKeysData.IsPublicKey sec
  hasPublicEncryptionKey : data.hasPublicEncryptionKey = true ↔
    HasLine (ascii "pubencryptionkey") LoadKeysData.IsPublicKey sec
  nonceTrialsPerByte : data.nonceTrialsPerByte =
    (lastNumber (ascii "noncetrialsperbyte") intMax sec).elim
      ⟨minNonceTrialsPerByte, by decide, by decide⟩ intOfInt64
  payloadLengthExtraBytes : data.payloadLengthExtraBytes =
    (lastNumber (ascii "payloadlengthextrabytes") intMax sec).elim
      ⟨minExtraBytes, by decide, by decide⟩ intOfInt64
  lastPubkeySendTime : data.lastPubkeySendTime =
    (lastNumber (ascii "lastpubkeysendtime") int64Max sec).elim CInt64.zero CInt64.ofInt

-- The strings that a header or the start of the program leave in the record make no difference.
theorem KeysRead.reset (data : LoadKeysData) (label address : Option (List UInt8)) :
    KeysRead curve [] { data.reset with label, address } where
  hasPrivateSigningKey := by simp [LoadKeysData.reset, HasLine]
  hasPrivateEncryptionKey := by simp [LoadKeysData.reset, HasLine]
  hasPublicSigningKey := by simp [LoadKeysData.reset, HasLine]
  hasPublicEncryptionKey := by simp [LoadKeysData.reset, HasLine]
  nonceTrialsPerByte := rfl
  payloadLengthExtraBytes := rfl
  lastPubkeySendTime := rfl

variable {sec : List KeyValueEvent} {data : LoadKeysData}

theorem KeysRead.property (h : KeysRead curve sec data) (key value : List UInt8) :
    KeysRead curve (sec ++ [.property key value]) (data.processProperty curve key value) := by
  obtain ⟨hprivSigning, hprivEncryption, hpubSigning, hpubEncryption⟩ :=
    LoadKeysData.flags_processProperty curve data key value
  obtain ⟨htrials, hextra, htime⟩ := LoadKeysData.numbers_processProperty curve data key value
  constructor
  · rw [hasLine_append, hprivSigning, h.hasPrivateSigningKey]
  · rw [hasLine_append, hprivEncryption, h.hasPrivateEncryptionKey]
  · rw [hasLine_append, hpubSigning, h.hasPublicSigningKey]
  · rw [hasLine_append, hpubEncryption, h.hasPublicEncryptionKey]
  · rw [elim_lastNumber_append, htrials, h.nonceTrialsPerByte]
  · rw [elim_lastNumber_append, hextra, h.payloadLengthExtraBytes]
  · rw [elim_lastNumber_append, htime, h.lastPubkeySendTime]

theorem KeysRead.keys_isSome (h : KeysRead curve sec data) :
    data.keys.isSome ↔ HasKeys curve sec := by
  unfold LoadKeysData.keys HasKeys
  rw [← h.hasPrivateSigningKey, ← h.hasPrivateEncryptionKey, ← h.hasPublicSigningKey,
    ← h.hasPublicEncryptionKey]
  split_ifs with hprivate hpublic <;> simp [*]

-- A key has the numbers of the record it is made of.
theorem numbers_flushKey {key : StoredKey ssl curve}
    (h : data.flushKey ssl curve = some (some key)) :
    key.nonceTrialsPerByte = data.nonceTrialsPerByte ∧
      key.payloadLengthExtraBytes = data.payloadLengthExtraBytes ∧
      key.lastPubkeySendTime = data.lastPubkeySendTime := by
  unfold LoadKeysData.flushKey keyNew at h
  split at h
  · exact absurd h nofun
  · split at h
    · exact absurd h nofun
    · split at h
      · obtain rfl := Option.some.inj (Option.some.inj h)
        exact ⟨rfl, rfl, rfl⟩
      · exact absurd h nofun

theorem isSome_flushKey {report : Option (StoredKey ssl curve)}
    (h : data.flushKey ssl curve = some report) : report.isSome ↔ data.keys.isSome := by
  unfold LoadKeysData.flushKey at h
  split at h
  · rename_i hnone
    obtain rfl := Option.some.inj h
    simp [hnone]
  · rename_i keys hkeys
    split at h
    · exact absurd h nofun
    · obtain ⟨key, -, rfl⟩ := Option.map_eq_some_iff.mp h
      simp [hkeys]

theorem KeysRead.inRange_iff {key : StoredKey ssl curve} (h : KeysRead curve sec data)
    (hflush : data.flushKey ssl curve = some (some key)) : key.InRange ↔ KeyNumbers sec := by
  obtain ⟨htrials, hextra, htime⟩ := numbers_flushKey hflush
  have htrials' : Within intMax key.nonceTrialsPerByte.val ↔
      NonNegative (ascii "noncetrialsperbyte") intMax (fun n => (intOfInt64 n).val) sec := by
    rw [htrials, h.nonceTrialsPerByte]
    exact within_lastNumber_int _ sec (by decide)
  have hextra' : Within intMax key.payloadLengthExtraBytes.val ↔
      NonNegative (ascii "payloadlengthextrabytes") intMax (fun n => (intOfInt64 n).val) sec := by
    rw [hextra, h.payloadLengthExtraBytes]
    exact within_lastNumber_int _ sec (by decide)
  have htime' : Within int64Max key.lastPubkeySendTime.val ↔
      NonNegative (ascii "lastpubkeysendtime") int64Max id sec := by
    rw [htime, h.lastPubkeySendTime]
    exact within_lastNumber_int64 _ sec
  constructor
  · intro hrange
    exact ⟨htrials'.mp hrange.nonceTrialsPerByte, hextra'.mp hrange.payloadLengthExtraBytes,
      htime'.mp hrange.lastPubkeySendTime⟩
  · intro hnumbers
    exact ⟨htrials'.mpr hnumbers.nonceTrialsPerByte, hextra'.mpr hnumbers.payloadLengthExtraBytes,
      htime'.mpr hnumbers.lastPubkeySendTime⟩

/-- The loader, if the program has not ended, holds what the lines of a section say. -/
def LoaderRead (curve : Curve) (sec : List KeyValueEvent) (loader : Loader) : Prop :=
  ∀ data ∈ loader, KeysRead curve sec data

theorem loaderRead_groupEnds (ssl : OpenSSL) (curve : Curve) (uninitialised : LoadKeysData)
    (events : List KeyValueEvent) :
    List.Forall₂ (LoaderRead curve) (events.splitOnP KeyValueEvent.isHeader)
      (groupEnds (Loader.keyValueEventCb ssl curve) KeyValueEvent.isHeader
        (Loader.start uninitialised) events) := by
  apply forall₂_groupEnds
  · intro sec loader event _ hevent data hdata
    cases event with
    | property key value => exact absurd hevent Bool.false_ne_true
    | header value =>
      unfold Loader.keyValueEventCb at hdata
      dsimp only at hdata
      split at hdata
      · exact absurd hdata (Option.not_mem_none data)
      · obtain ⟨before, -, rfl⟩ := Option.mem_map.mp hdata
        exact KeysRead.reset before before.reset.label (some value)
  · intro sec loader event h hevent data hdata
    cases event with
    | header value => exact absurd hevent.symm Bool.false_ne_true
    | property key value =>
      obtain ⟨before, hbefore, rfl⟩ := Option.mem_map.mp hdata
      exact (h before hbefore).property key value
  · intro data hdata
    obtain rfl := Option.some.inj hdata
    exact KeysRead.reset uninitialised none none

/-- The reports are those of the first sections, up to the one where the program ends. -/
theorem reports_take (ssl : OpenSSL) (curve : Curve) (loader : Loader)
    (events : List KeyValueEvent) :
    let after := scan (Loader.keyValueEventCb ssl curve) loader events
    let reports := after.2 ++ (after.1.flush ssl curve).toList
    reports.map some = ((groupEnds (Loader.keyValueEventCb ssl curve) KeyValueEvent.isHeader loader
      events).take reports.length).map (Loader.flush ssl curve) := by
  induction events generalizing loader with
  | nil => cases h : loader.flush ssl curve <;> simp [scan, groupEnds, h]
  | cons event events ih =>
    cases event with
    | property key value => exact ih (loader.map fun data => data.processProperty curve key value)
    | header value =>
      have hends : groupEnds (Loader.keyValueEventCb ssl curve) KeyValueEvent.isHeader loader
          (.header value :: events) = loader :: groupEnds (Loader.keyValueEventCb ssl curve)
            KeyValueEvent.isHeader (loader.keyValueEventCb ssl curve (.header value)).1 events := rfl
      rw [hends, scan_cons]
      cases hflush : loader.flush ssl curve with
      | none =>
        simp only [Loader.keyValueEventCb, hflush, scan_ended]
        rfl
      | some report =>
        have hrest := ih (loader.map fun data => { data.reset with address := some value })
        simp only [Loader.keyValueEventCb, hflush, Option.toList_some, List.cons_append,
          List.nil_append, List.map_cons, List.length_cons, List.take_succ_cons]
        rw [hrest]

/-! The program ends at a section of whose keys no points can be made, or that has keys but no
address or no label. -/

/-- The private key in a line, if it is one with that name. -/
def privateKeyAt (curve : Curve) (name key value : List UInt8) : Option (Bytes privateKeySize) :=
  if key = name then parseWif curve value else none

/-- The last private key with a name. -/
def privateKeyIn (curve : Curve) (name : List UInt8) (sec : List KeyValueEvent) :
    Option (Bytes privateKeySize) :=
  (sec.filterMap fun event => match event with
    | .header _ => none
    | .property key value => privateKeyAt curve name key value).getLast?

/-- A line is read into the array of a public key.  What is no key may be written over the start of
the one that is there. -/
def readPublicKey (found : Option (Bytes publicKeySize)) (value : List UInt8) :
    Option (Bytes publicKeySize) :=
  if (parsePublicKey value (zeroBytes publicKeySize)).2 then
    some (parsePublicKey value (zeroBytes publicKeySize)).1
  else found.map fun key => (parsePublicKey value key).1

/-- What a line leaves of the public key, which it is read into if it has that name. -/
def publicKeyAt (name : List UInt8) (found : Option (Bytes publicKeySize)) (key value : List UInt8) :
    Option (Bytes publicKeySize) :=
  if key = name then readPublicKey found value else found

/-- The public key that the lines with a name give. -/
def publicKeyIn (name : List UInt8) (sec : List KeyValueEvent) : Option (Bytes publicKeySize) :=
  sec.foldl (fun found event => match event with
    | .header _ => found
    | .property key value => publicKeyAt name found key value) none

/-- The keys that the lines of a section give. -/
def keysIn (curve : Curve) (sec : List KeyValueEvent) : Option KeyHalves :=
  match privateKeyIn curve (ascii "privsigningkey") sec,
    privateKeyIn curve (ascii "privencryptionkey") sec with
  | some signing, some encryption => some (.privateKeys signing encryption)
  | _, _ =>
    match publicKeyIn (ascii "pubsigningkey") sec, publicKeyIn (ascii "pubencryptionkey") sec with
    | some signing, some encryption => some (.publicKeys signing encryption)
    | _, _ => none

def KeyValueEvent.isLabel : KeyValueEvent → Bool
  | .header _ => false
  | .property key _ => key = ascii "label"

/-- The program does not end at the section: it has no keys, or there are an address and a label for
them and they are points of the curve. -/
def goesOn (curve : Curve) (hasAddress hasLabel : Bool) (sec : List KeyValueEvent) : Bool :=
  match keysIn curve sec with
  | some keys => hasAddress && hasLabel && (keys.create curve).isSome
  | none => true

/-- The sections in front of the one at which the program ends.  The lines in front of the first
header have no address, and a label is kept from one section to the next. -/
def reportedSections (curve : Curve) (hasAddress hasLabel : Bool) :
    List (List KeyValueEvent) → List (List KeyValueEvent)
  | [] => []
  | sec :: secs =>
    let hasLabel := hasLabel || sec.any (·.isLabel)
    if goesOn curve hasAddress hasLabel sec then
      sec :: reportedSections curve true hasLabel secs
    else []

theorem isPrefix_reportedSections (curve : Curve) (hasAddress hasLabel : Bool)
    (secs : List (List KeyValueEvent)) :
    reportedSections curve hasAddress hasLabel secs <+: secs := by
  induction secs generalizing hasAddress hasLabel with
  | nil => exact List.prefix_rfl
  | cons sec secs ih =>
    rw [reportedSections]
    split_ifs
    · exact (List.prefix_cons_inj sec).mpr (ih _ _)
    · exact List.nil_prefix

/-- What is in an array, if it was marked as a key. -/
def held {α : Type} (has : Bool) (key : α) : Option α := if has then some key else none

/-- The arrays hold the keys of the lines of a section. -/
structure KeysHeld (curve : Curve) (sec : List KeyValueEvent) (data : LoadKeysData) : Prop where
  privateSigningKey : held data.hasPrivateSigningKey data.privateSigningKey =
    privateKeyIn curve (ascii "privsigningkey") sec
  privateEncryptionKey :
    held data.hasPrivateEncryptionKey data.privateEncryptionKey =
      privateKeyIn curve (ascii "privencryptionkey") sec
  publicSigningKey : held data.hasPublicSigningKey data.publicSigningKey =
    publicKeyIn (ascii "pubsigningkey") sec
  publicEncryptionKey :
    held data.hasPublicEncryptionKey data.publicEncryptionKey =
      publicKeyIn (ascii "pubencryptionkey") sec

theorem KeysHeld.reset (data : LoadKeysData) (label address : Option (List UInt8)) :
    KeysHeld curve [] { data.reset with label, address } := ⟨rfl, rfl, rfl, rfl⟩

theorem privateKeyIn_append (name key value : List UInt8) :
    privateKeyIn curve name (sec ++ [.property key value]) =
      (privateKeyAt curve name key value).or (privateKeyIn curve name sec) := by
  unfold privateKeyIn
  rw [List.filterMap_append]
  cases h : privateKeyAt curve name key value <;> simp [h]

theorem publicKeyIn_append (name key value : List UInt8) :
    publicKeyIn name (sec ++ [.property key value]) =
      publicKeyAt name (publicKeyIn name sec) key value := by
  rw [publicKeyIn, List.foldl_append]
  rfl

theorem parsePublicKey_of_key {value bytes : List UInt8}
    (hdecode : Base58.decode value publicKeySize = some bytes)
    (hlength : bytes.length = publicKeySize) (key : Bytes publicKeySize) :
    (parsePublicKey value key).1 = ⟨bytes, hlength⟩ := by
  have hwhole : bytes ++ key.val.drop bytes.length = bytes := by
    rw [hlength, List.drop_eq_nil_of_le key.property.le, List.append_nil]
  unfold parsePublicKey
  rw [hdecode]
  dsimp only
  rw [dif_pos (by rw [hwhole, hlength])]
  exact Subtype.ext hwhole

-- Whether a line has a key does not depend on the array, and neither does the key if it has one.
theorem parsePublicKey_array (value : List UInt8) (key other : Bytes publicKeySize) :
    (parsePublicKey value key).2 = (parsePublicKey value other).2 ∧
      ((parsePublicKey value key).2 = true →
        (parsePublicKey value key).1 = (parsePublicKey value other).1) := by
  have hiff := fun result => LoadKeysData.parsePublicKey_iff value result
  refine ⟨Bool.eq_iff_iff.mpr ((hiff key).trans (hiff other).symm), fun hok => ?_⟩
  obtain ⟨bytes, hdecode, hlength, -⟩ := (hiff key).mp hok
  rw [parsePublicKey_of_key hdecode hlength, parsePublicKey_of_key hdecode hlength]

theorem readPublicKey_held (flag : Bool) (key : Bytes publicKeySize) (value : List UInt8) :
    held (flag || (parsePublicKey value key).2) (parsePublicKey value key).1 =
      readPublicKey (held flag key) value := by
  obtain ⟨hok, hkey⟩ := parsePublicKey_array value key (zeroBytes publicKeySize)
  unfold readPublicKey
  rw [← hok]
  cases hread : (parsePublicKey value key).2 with
  | true => simp [held, hkey hread]
  | false => cases flag <;> simp [held]

theorem arrays_processProperty (curve : Curve) (data : LoadKeysData) (key value : List UInt8) :
    let after := data.processProperty curve key value
    held after.hasPrivateSigningKey after.privateSigningKey =
      (privateKeyAt curve (ascii "privsigningkey") key value).or
        (held data.hasPrivateSigningKey data.privateSigningKey) ∧
    held after.hasPrivateEncryptionKey after.privateEncryptionKey =
      (privateKeyAt curve (ascii "privencryptionkey") key value).or
        (held data.hasPrivateEncryptionKey data.privateEncryptionKey) ∧
    held after.hasPublicSigningKey after.publicSigningKey =
      publicKeyAt (ascii "pubsigningkey")
        (held data.hasPublicSigningKey data.publicSigningKey) key value ∧
    held after.hasPublicEncryptionKey after.publicEncryptionKey =
      publicKeyAt (ascii "pubencryptionkey")
        (held data.hasPublicEncryptionKey data.publicEncryptionKey) key value := by
  unfold privateKeyAt publicKeyAt
  refine ⟨?_, ?_, ?_, ?_⟩
  · by_cases hname : key = ascii "privsigningkey"
    · subst hname
      rw [LoadKeysData.processProperty_privateSigning, if_pos rfl]
      cases parseWif curve value <;> rfl
    · obtain ⟨hflag, hkey⟩ := LoadKeysData.privateSigningKey_of_ne curve data value hname
      rw [hflag, hkey, if_neg hname, Option.none_or]
  · by_cases hname : key = ascii "privencryptionkey"
    · subst hname
      rw [LoadKeysData.processProperty_privateEncryption, if_pos rfl]
      cases parseWif curve value <;> rfl
    · obtain ⟨hflag, hkey⟩ := LoadKeysData.privateEncryptionKey_of_ne curve data value hname
      rw [hflag, hkey, if_neg hname, Option.none_or]
  · by_cases hname : key = ascii "pubsigningkey"
    · subst hname
      rw [LoadKeysData.processProperty_publicSigning, if_pos rfl]
      exact readPublicKey_held _ _ _
    · obtain ⟨hflag, hkey⟩ := LoadKeysData.publicSigningKey_of_ne curve data value hname
      rw [hflag, hkey, if_neg hname]
  · by_cases hname : key = ascii "pubencryptionkey"
    · subst hname
      rw [LoadKeysData.processProperty_publicEncryption, if_pos rfl]
      exact readPublicKey_held _ _ _
    · obtain ⟨hflag, hkey⟩ := LoadKeysData.publicEncryptionKey_of_ne curve data value hname
      rw [hflag, hkey, if_neg hname]

theorem KeysHeld.property (h : KeysHeld curve sec data) (key value : List UInt8) :
    KeysHeld curve (sec ++ [.property key value]) (data.processProperty curve key value) := by
  obtain ⟨hprivSigning, hprivEncryption, hpubSigning, hpubEncryption⟩ :=
    arrays_processProperty curve data key value
  constructor
  · rw [hprivSigning, h.privateSigningKey, privateKeyIn_append]
  · rw [hprivEncryption, h.privateEncryptionKey, privateKeyIn_append]
  · rw [hpubSigning, h.publicSigningKey, publicKeyIn_append]
  · rw [hpubEncryption, h.publicEncryptionKey, publicKeyIn_append]

theorem KeysHeld.keys_eq (h : KeysHeld curve sec data) : data.keys = keysIn curve sec := by
  unfold LoadKeysData.keys keysIn
  rw [← h.privateSigningKey, ← h.privateEncryptionKey, ← h.publicSigningKey,
    ← h.publicEncryptionKey]
  cases data.hasPrivateSigningKey <;> cases data.hasPrivateEncryptionKey <;>
    cases data.hasPublicSigningKey <;> cases data.hasPublicEncryptionKey <;> rfl

theorem isSome_keyNew (params : KeyParams) :
    (keyNew ssl curve params).isSome =
      (params.label.isSome && (params.keys.create curve).isSome) := by
  unfold keyNew
  cases params.label <;> cases params.keys.create curve <;> rfl

variable (ssl) in
-- A section is reported unless the program ends.
theorem KeysHeld.isSome_flushKey (h : KeysHeld curve sec data) :
    (data.flushKey ssl curve).isSome =
      goesOn curve data.address.isSome data.label.isSome sec := by
  rw [goesOn, ← h.keys_eq]
  unfold LoadKeysData.flushKey
  cases data.keys with
  | none => rfl
  | some keys =>
    cases data.address with
    | none => rfl
    | some address =>
      show ((keyNew ssl curve (data.params ssl address keys)).map some).isSome = _
      rw [Option.isSome_map, isSome_keyNew]
      rfl

theorem strings_processProperty (curve : Curve) (data : LoadKeysData) (key value : List UInt8) :
    let after := data.processProperty curve key value
    after.address = data.address ∧
      after.label.isSome = (data.label.isSome || (KeyValueEvent.property key value).isLabel) := by
  dsimp only
  by_cases hname : key = ascii "label"
  · rw [LoadKeysData.processProperty, if_pos hname, KeyValueEvent.isLabel, decide_eq_true hname,
      Bool.or_true]
    exact ⟨rfl, rfl⟩
  · rw [KeyValueEvent.isLabel, decide_eq_false hname, Bool.or_false]
    apply LoadKeysData.processProperty_cases (P := fun after =>
      after.address = data.address ∧ after.label.isSome = data.label.isSome)
    case label => exact fun hkey => absurd hkey hname
    all_goals
      intros
      exact ⟨rfl, rfl⟩

/-- `acc` are the lines of the section that have been read, the last one first. -/
theorem length_reportedSections (events acc : List KeyValueEvent) (hasAddress hasLabel : Bool)
    (h : KeysHeld curve acc.reverse data) (haddress : data.address.isSome = hasAddress)
    (hlabel : data.label.isSome = (hasLabel || acc.reverse.any (·.isLabel))) :
    let after := scan (Loader.keyValueEventCb ssl curve) (some data) events
    (after.2 ++ (after.1.flush ssl curve).toList).length =
      (reportedSections curve hasAddress hasLabel
        (events.splitOnPPrepend KeyValueEvent.isHeader acc)).length := by
  induction events generalizing data acc hasAddress hasLabel with
  | nil =>
    have hflush := h.isSome_flushKey ssl
    rw [haddress, hlabel] at hflush
    rw [List.splitOnPPrepend_nil, reportedSections]
    dsimp only
    rw [← hflush]
    show (data.flushKey ssl curve).toList.length = _
    cases data.flushKey ssl curve <;> rfl
  | cons event events ih =>
    cases event with
    | property key value =>
      obtain ⟨haddress', hlabel'⟩ := strings_processProperty curve data key value
      rw [List.splitOnPPrepend_cons_neg rfl]
      refine ih (.property key value :: acc) hasAddress hasLabel ?_ ?_ ?_
      · rw [List.reverse_cons]
        exact h.property key value
      · rw [haddress', haddress]
      · rw [hlabel', hlabel, List.reverse_cons, List.any_append, Bool.or_assoc]
        simp
    | header value =>
      have hflush := h.isSome_flushKey ssl
      rw [haddress, hlabel] at hflush
      rw [List.splitOnPPrepend_cons_pos rfl, reportedSections, scan_cons]
      dsimp only
      rw [← hflush]
      cases hreport : data.flushKey ssl curve with
      | none =>
        have hended : Loader.flush ssl curve (some data) = none := hreport
        simp only [Loader.keyValueEventCb, hended, scan_ended]
        rfl
      | some report =>
        have hgoes : Loader.flush ssl curve (some data) = some report := hreport
        have hrest := ih [] true (hasLabel || acc.reverse.any (·.isLabel))
          (.reset data data.reset.label (some value)) rfl
          (hlabel.trans (Bool.or_false _).symm)
        simp only [Loader.keyValueEventCb, hgoes, Option.toList_some, List.cons_append,
          List.nil_append, List.length_cons, Option.isSome_some, if_true]
        rw [List.splitOnPPrepend_nil_right] at hrest
        exact congrArg (· + 1) hrest

theorem loadKeys_inRange_iff (ssl : OpenSSL) (curve : Curve) (uninitialised : LoadKeysData)
    (file : List UInt8) :
    (∀ key ∈ loadKeys ssl curve uninitialised file, key.InRange) ↔
      ∀ sec ∈ reportedSections curve false false (sections file),
        HasKeys curve sec → KeyNumbers sec := by
  have hlength : (reportedSections curve false false (sections file)).length =
      (loadReports ssl curve uninitialised file).length :=
    (length_reportedSections (keyValueLoad file) [] false false (.reset uninitialised none none) rfl
      rfl).symm
  rw [List.prefix_iff_eq_take.mp (isPrefix_reportedSections curve false false (sections file)),
    hlength]
  have htake := reports_take ssl curve (Loader.start uninitialised) (keyValueLoad file)
  have hread := List.forall₂_take (loadReports ssl curve uninitialised file).length
    (loaderRead_groupEnds ssl curve uninitialised (keyValueLoad file))
  have hreports : List.Forall₂ (fun sec report => ∃ loader, LoaderRead curve sec loader ∧
      loader.flush ssl curve = some report)
      ((sections file).take (loadReports ssl curve uninitialised file).length)
      (loadReports ssl curve uninitialised file) := forall₂_reported hread htake
  rw [forall_mem_iff_of_forall₂ hreports (P := fun sec => HasKeys curve sec → KeyNumbers sec)
    (Q := fun report => ∀ key ∈ report, key.InRange)]
  · simp only [loadKeys, List.mem_filterMap, id_eq, forall_exists_index, and_imp]
    exact ⟨fun hall report hreport key hkey => hall key report hreport hkey,
      fun hall key report hreport hkey => hall report hreport key hkey⟩
  · rintro sec report ⟨loader, hloader, hflush⟩
    obtain ⟨data, rfl, hflush⟩ := Option.bind_eq_some_iff.mp hflush
    have hdata := hloader data rfl
    have hhas := (isSome_flushKey hflush).trans hdata.keys_isSome
    cases report with
    | none =>
      have hnot : ¬ HasKeys curve sec := fun h => absurd (hhas.mpr h) Bool.false_ne_true
      exact ⟨fun _ key hkey => absurd hkey (Option.not_mem_none key), fun _ h => absurd h hnot⟩
    | some key =>
      rw [← hdata.inRange_iff hflush]
      constructor
      · intro hrange key' hkey'
        obtain rfl := Option.mem_some_iff.mp hkey'
        exact hrange (hhas.mp rfl)
      · exact fun hall _ => hall key rfl

end Keys

/-! ## 4. The files whose numbers are in their ranges -/

/-- The numbers of all messages and keys that are loaded from a file are in their ranges, and the
next content id is above every loaded one, exactly if the last numbers of each section that is
reported are not negative. -/
theorem loaded_inRange_iff (ssl : OpenSSL) (curve : Curve) (outgoing : Outgoing)
    (data : LoadKeysData) (file : List UInt8) :
    ((∀ outgoing' ∈ loadOutgoings ssl outgoing file, outgoing'.InRange ∧
        ∀ next, outgoing'.contentId < raiseContentId next outgoing') ↔
      ∀ sec ∈ sections file, HasOutgoing ssl sec → OutgoingNumbers sec) ∧
    ((∀ key ∈ loadKeys ssl curve data file, key.InRange) ↔
      ∀ sec ∈ reportedSections curve false false (sections file),
        HasKeys curve sec → KeyNumbers sec) :=
  ⟨loadOutgoings_inRange_iff ssl outgoing file, loadKeys_inRange_iff ssl curve data file⟩

/-- The lines of a message whose content id is negative. -/
def negativeProperties : List (List UInt8 × List UInt8) := [
  (ascii "fromaddress", sampleOutgoing.fromAddress.encode OpenSSL.additive),
  (ascii "toaddress", sampleOutgoing.toAddress.encode OpenSSL.additive),
  (ascii "ackdata", Base58.encode sampleOutgoing.ackdata.val),
  (ascii "contentid", printSigned (-1))]

theorem negative_loaded :
    ∃ outgoing ∈ loadOutgoings OpenSSL.additive sampleOutgoing
      (sectionText (ascii "message") negativeProperties),
      ¬ outgoing.InRange ∧ outgoing.contentId = 18446744073709551615 ∧
        raiseContentId 0 outgoing = 0 := by
  have hsection : Yields KeyValueData.handleByte KeyValueData.AtStart KeyValueData.AtField
      (sectionText (ascii "message") negativeProperties)
      (sectionEvents (ascii "message") negativeProperties) := by
    apply yields_section (by decide +kernel)
    simp only [negativeProperties, List.forall_mem_cons]
    exact ⟨⟨by decide +kernel, isValue_address⟩, ⟨by decide +kernel, isValue_address⟩,
      ⟨by decide +kernel, isValue_base58⟩, ⟨by decide +kernel, isValue_printSigned _⟩, by simp⟩
  have hevents := keyValueLoad_flatMap (l := [()]) fun _ _ => hsection
  rw [List.flatMap_singleton, List.flatMap_singleton] at hevents
  have hfrom := Address.decode_encode OpenSSL.additive (a := sampleOutgoing.fromAddress)
    (by decide)
  have hto := Address.decode_encode OpenSSL.additive (a := sampleOutgoing.toAddress)
    (by decide)
  have hack := parseAckdata_encode sampleOutgoing.ackdata
  have hid : parseIntValue (printSigned (-1)) intMax = some (-1) :=
    parseIntValue_printSigned (by decide) (by decide) (by decide)
  have hconvert : UInt64.ofNat (toUInt64 (-1)) = 18446744073709551615 := by decide
  refine ⟨{ LoadOutgoingsData.reset { outgoing := sampleOutgoing } |>.outgoing with
    contentId := 18446744073709551615 }, ?_, ?_, rfl, by decide⟩
  · unfold loadOutgoings
    rw [hevents]
    simp +decide only [sectionEvents, negativeProperties, List.map_cons, List.map_nil, scan,
      LoadOutgoingsData.keyValueEventCb, LoadOutgoingsData.processProperty, hfrom, hto, hack, hid,
      hconvert, if_true, if_false, Option.toList_none, List.append_nil,
      LoadOutgoingsData.flushOutgoing, LoadOutgoingsData.reset, Option.toList_some,
      List.nil_append, List.mem_singleton]
  · intro hrange
    exact absurd hrange.contentId.2 (by decide)

end Notbit.Store
