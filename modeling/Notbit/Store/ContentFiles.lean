import Notbit.Store.Cleanup
import Notbit.Store.Saves

/-!
# ContentFiles — the files of the contents of outgoing messages (`ntb-store.c`)

The name of the file of a content is its id in sixteen digits.  The files of different contents are
different, none of them is touched when something else is saved, and the cleanup at startup spares
those that the outgoing messages use.
-/

open Bytes Digits Scans Stdio Notbit.Proto

namespace Notbit.Store

variable {ssl : OpenSSL} {paths : Paths} {files : Files} {id : UInt64}

/-! ## 1. The handlers -/

/-- `handle_delete_message_content`; an error is only logged. -/
def handleDeleteMessageContent (paths : Paths) (o : Outcomes) (id : UInt64) : Files → Files :=
  unlink o (messageContentFilename paths id)

/-- What `handle_load_message_content` reads when there is no error. -/
def handleLoadMessageContent (paths : Paths) (id : UInt64) (files : Files) : Option (List UInt8) :=
  files (messageContentFilename paths id)

/-- The file of the outgoing messages. -/
def outgoingsFilename (paths : Paths) : Path := paths.directory ++ ascii "outgoing-messages.dat"

/-! ## 2. Names -/

theorem hexValue_hexDigits (b : UInt8) :
    hexDigitValue (hexDigit (b.toNat / 16)) * 16 + hexDigitValue (hexDigit (b.toNat % 16)) =
      b.toNat := by
  have hall : ∀ n < 256,
      hexDigitValue (hexDigit (n / 16)) * 16 + hexDigitValue (hexDigit (n % 16)) = n := by
    decide +kernel
  exact hall b.toNat b.toNat_lt

theorem hexValue_hexBytes (bytes : List UInt8) : hexValue (hexBytes bytes) = ofBE bytes := by
  induction bytes using List.reverseRecOn with
  | nil => rfl
  | append_singleton bytes b ih =>
    have hbyte := hexValue_hexDigits b
    rw [ofBE_concat, ← ih]
    simp only [hexValue, value, hexBytes, List.flatMap_append, List.flatMap_cons, List.flatMap_nil,
      List.append_nil, List.map_append, List.map_cons, List.map_nil, List.foldl_append,
      List.foldl_cons, List.foldl_nil, push]
    omega

theorem length_hexBytes (bytes : List UInt8) : (hexBytes bytes).length = 2 * bytes.length := by
  induction bytes with
  | nil => rfl
  | cons b bytes ih =>
    rw [hexBytes, List.flatMap_cons, List.length_append, ← hexBytes, ih, List.length_cons]
    simp only [List.length_cons, List.length_nil]
    omega

theorem ofBE_id (id : UInt64) : ofBE (toBE 8 id.toNat) = id.toNat := by
  have hlt : id.toNat < 256 ^ 8 := id.toNat_lt
  exact ofBE_toBE_of_lt hlt

-- The name is a number for the cleanup.
theorem hexNumber_id (id : UInt64) : HexNumber (hexBytes (toBE 8 id.toNat)) id.toNat := by
  have hdigits : ∀ ch ∈ hexBytes (toBE 8 id.toNat), isHexDigit ch := by
    intro ch hch
    obtain ⟨b, -, hb⟩ := List.mem_flatMap.mp hch
    obtain ⟨hhigh, hlow, -⟩ := hexDigit_spec b
    rcases List.mem_cons.mp hb with rfl | hb
    · exact hhigh
    · rw [List.mem_singleton.mp hb]
      exact hlow
  have hne : hexBytes (toBE 8 id.toNat) ≠ [] := by
    rw [← List.length_pos_iff, length_hexBytes, length_toBE]
    decide
  have hnumber := @HexNumber.mk [] [] [] _ (by simp) (.inl rfl) (.inl rfl) hne hdigits
  rwa [hexValue_hexBytes, ofBE_id] at hnumber

theorem messageContentFilename_inj {id' : UInt64}
    (h : messageContentFilename paths id = messageContentFilename paths id') : id = id' := by
  have hvalue := congrArg hexValue (List.append_cancel_left h)
  rw [hexValue_hexBytes, hexValue_hexBytes, ofBE_id, ofBE_id] at hvalue
  exact UInt64.toNat_inj.mp hvalue

theorem length_messageContentFilename (paths : Paths) (id : UInt64) :
    (messageContentFilename paths id).length = (paths.directory ++ ascii "outgoing/").length + 16 := by
  rw [messageContentFilename, List.length_append, length_hexBytes, length_toBE]

theorem messageContentFilename_ne_tmp (id' : UInt64) :
    messageContentFilename paths id ≠ messageContentFilename paths id' ++ ascii ".tmp" := by
  intro h
  have hlength := congrArg List.length h
  rw [List.length_append, length_messageContentFilename, length_messageContentFilename] at hlength
  have hpos : 0 < (ascii ".tmp").length := by decide
  omega

-- The ninth character tells the files in the directory from those of the outgoing directory.
theorem messageContentFilename_ne {name : List UInt8} (h : name.take 9 ≠ ascii "outgoing/") :
    messageContentFilename paths id ≠ paths.directory ++ name := by
  intro heq
  rw [messageContentFilename, List.append_assoc] at heq
  have hname := List.append_cancel_left heq
  apply h
  rw [← hname]
  rfl

theorem messageContentFilename_ne_outgoings (paths : Paths) (id : UInt64) :
    messageContentFilename paths id ≠ outgoingsFilename paths ∧
      messageContentFilename paths id ≠ outgoingsFilename paths ++ ascii ".tmp" := by
  refine ⟨messageContentFilename_ne (by decide), ?_⟩
  rw [outgoingsFilename, List.append_assoc]
  exact messageContentFilename_ne (by decide)

theorem outgoingPath_hexBytes (paths : Paths) (id : UInt64) :
    outgoingPath paths.directory (hexBytes (toBE 8 id.toNat)) = messageContentFilename paths id := by
  rw [outgoingPath, messageContentFilename, List.append_assoc paths.directory]
  rfl

/-! ## 3. The contents in the files -/

/-- The contents that the files hold. -/
def contentFiles (paths : Paths) (files : Files) : UInt64 → Option (List UInt8) :=
  fun id => handleLoadMessageContent paths id files

theorem not_lost_success (pieces : List (List UInt8)) : ¬ Lost .success 0 pieces := by
  rintro ⟨i, bytes, -, -, hwrite⟩
  cases hwrite

theorem contentFiles_save (paths : Paths) (id : UInt64) (content : List UInt8) (files : Files) :
    contentFiles paths (handleSaveMessageContent paths .success id content files) =
      Function.update (contentFiles paths files) id (some content) := by
  have hreplaces := saveChecked_replaces .success (messageContentFilename paths id) [content] files
  have hnew := hreplaces.new ⟨rfl, not_lost_success _, rfl, rfl⟩
  rw [List.flatten_singleton] at hnew
  funext id'
  by_cases hid : id' = id
  · rw [hid, Function.update_self]
    exact hnew
  · rw [Function.update_of_ne hid]
    refine hreplaces.others _ (messageContentFilename_ne_tmp id) fun heq => hid ?_
    exact messageContentFilename_inj heq

theorem contentFiles_delete (paths : Paths) (id : UInt64) (files : Files) :
    contentFiles paths (handleDeleteMessageContent paths .success id files) =
      Function.update (contentFiles paths files) id none := by
  funext id'
  by_cases hid : id' = id
  · rw [hid, Function.update_self]
    exact Function.update_self ..
  · rw [Function.update_of_ne hid]
    have hne : messageContentFilename paths id' ≠ messageContentFilename paths id :=
      fun heq => hid (messageContentFilename_inj heq)
    exact @unlink_of_ne .success _ _ files hne

theorem saveOutgoings_replaces (paths : Paths) (outgoings : List Outgoing) (files : Files) :
    Replaces (Outcomes.success.fopen ∧ Outcomes.success.fclose ∧ Outcomes.success.rename)
      (outgoingsFilename paths ++ ascii ".tmp") (outgoingsFilename paths)
      (kept .success 0 (outgoings.map (writeOutgoing ssl))) files
      (handleSaveOutgoings paths .success ssl outgoings files) := by
  have hname : paths.directory ++ ascii "outgoing-messages.dat.tmp" =
      outgoingsFilename paths ++ ascii ".tmp" := by
    rw [outgoingsFilename, List.append_assoc]
    rfl
  rw [handleSaveOutgoings, hname]
  exact saveUnchecked_replaces .success (outgoingsFilename paths) _ files

theorem contentFiles_saveOutgoings (paths : Paths) (outgoings : List Outgoing) (files : Files) :
    contentFiles paths (handleSaveOutgoings paths .success ssl outgoings files) =
      contentFiles paths files := by
  funext id
  obtain ⟨hne, htmp⟩ := messageContentFilename_ne_outgoings paths id
  exact (saveOutgoings_replaces paths outgoings files).others _ htmp hne

theorem saveOutgoings_written (paths : Paths) (outgoings : List Outgoing) (files : Files) :
    handleSaveOutgoings paths .success ssl outgoings files (outgoingsFilename paths) =
      some (outgoings.flatMap (writeOutgoing ssl)) := by
  have hnew : handleSaveOutgoings paths .success ssl outgoings files (outgoingsFilename paths) =
      some (kept .success 0 (outgoings.map (writeOutgoing ssl))) :=
    (saveOutgoings_replaces paths outgoings files).new ⟨rfl, rfl, rfl⟩
  rw [hnew, kept_of_not_lost (not_lost_success _), List.flatMap_def]

/-! ## 4. The cleanup -/

/-- The cleanup at startup unlinks no content that a message of the file uses. -/
theorem forEachOutgoing_spares (ssl : OpenSSL) (uninitialised : Outgoing) (unused : Nat → UInt64)
    (paths : Paths) (file : Option (List UInt8)) (names : Option (List (List UInt8)))
    {outgoing : Outgoing} (houtgoing : outgoing ∈
      (forEachOutgoing ssl uninitialised unused paths.directory file names).1) :
    messageContentFilename paths outgoing.contentId ∉
      (forEachOutgoing ssl uninitialised unused paths.directory file names).2 := by
  cases file with
  | none => exact absurd houtgoing List.not_mem_nil
  | some file =>
    cases names with
    | none => exact List.not_mem_nil
    | some names =>
      intro hunlinked
      obtain ⟨-, hdelete⟩ := List.mem_filter.mp hunlinked
      rw [← outgoingPath_hexBytes] at hdelete
      obtain ⟨-, hfree⟩ := (maybeDelete_number (hexNumber_id _)).mp hdelete
      apply hfree
      rw [UInt64.ofNat_toNat]
      exact subset_block unused (List.mem_map_of_mem houtgoing)

/-- A content that is listed and that no message of the file uses is unlinked, unless its id is found
in the memory behind the ids that were collected. -/
theorem forEachOutgoing_unlinks (ssl : OpenSSL) (uninitialised : Outgoing) {unused : Nat → UInt64}
    (paths : Paths) {file : List UInt8} {names : List (List UInt8)} {id : UInt64}
    (hlisted : hexBytes (toBE 8 id.toNat) ∈ names) (hlt : id.toNat < 2 ^ 63)
    (hfree : ∀ outgoing ∈ loadOutgoings ssl uninitialised file, outgoing.contentId ≠ id)
    (hunused : ∀ i, unused i ≠ id) :
    messageContentFilename paths id ∈
      (forEachOutgoing ssl uninitialised unused paths.directory (some file) (some names)).2 := by
  rw [← outgoingPath_hexBytes]
  refine List.mem_filter.mpr ⟨List.mem_map_of_mem hlisted, ?_⟩
  refine (maybeDelete_number (hexNumber_id id)).mpr ⟨hlt, ?_⟩
  rw [UInt64.ofNat_toNat, UsedContentIds.block, UsedContentIds.collect_ids]
  intro hmem
  rcases List.mem_append.mp hmem with hused | hbehind
  · obtain ⟨outgoing, houtgoing, hid⟩ := List.mem_map.mp hused
    exact hfree outgoing houtgoing hid
  · obtain ⟨i, -, hid⟩ := List.mem_map.mp hbehind
    exact hunused i hid

/-- The files after the paths are unlinked. -/
def unlinkAll (unlinked : List Path) (files : Files) : Files :=
  unlinked.foldl (fun files path => unlink .success path files) files

theorem unlinkAll_of_notMem {unlinked : List Path} {path : Path} (h : path ∉ unlinked) :
    unlinkAll unlinked files path = files path := by
  induction unlinked generalizing files with
  | nil => rfl
  | cons other unlinked ih =>
    obtain ⟨hne, hrest⟩ := List.ne_and_not_mem_of_not_mem_cons h
    have htail : unlinkAll unlinked (unlink .success other files) path =
        unlink .success other files path := ih hrest
    exact htail.trans (unlink_of_ne files hne)

theorem unlinkAll_of_mem {unlinked : List Path} {path : Path} (h : path ∈ unlinked) :
    unlinkAll unlinked files path = none := by
  induction unlinked generalizing files with
  | nil => exact absurd h List.not_mem_nil
  | cons other unlinked ih =>
    show unlinkAll unlinked (unlink .success other files) path = none
    by_cases hrest : path ∈ unlinked
    · exact ih hrest
    · rcases List.mem_cons.mp h with rfl | hmem
      · rw [unlinkAll_of_notMem hrest]
        exact Function.update_self ..
      · exact absurd hmem hrest

/-! ## 5. The ids that are read back -/

-- A section, whole or not, can only report the id it was written with.
theorem contentId_scan (ssl : OpenSSL) {outgoing : Outgoing}
    (h : (outgoing.contentId.toNat : Int) ≤ intMax) (data : LoadOutgoingsData) :
    let after := scan (LoadOutgoingsData.keyValueEventCb ssl) data
      (sectionEvents (ascii "message") (outgoing.properties ssl))
    after.2 = data.flushOutgoing.toList ∧ after.1.outgoing.contentId = outgoing.contentId := by
  have hid : parseIntValue (printUnsigned outgoing.contentId.toNat) intMax =
      some (outgoing.contentId.toNat : Int) := by
    rw [← printSigned_natCast]
    exact parseIntValue_printSigned (by omega) (lt_of_le_of_lt h (by decide)) h
  have hack := parseAckdata_encode outgoing.ackdata
  have hencoding := parseIntValue_int outgoing.contentEncoding
  have hgetpubkey := parseIntValue_int64 outgoing.lastGetpubkeySendTime
  have hmsg := parseIntValue_int64 outgoing.lastMsgSendTime
  cases hfrom : Address.decode ssl (outgoing.fromAddress.encode ssl) <;>
    cases hto : Address.decode ssl (outgoing.toAddress.encode ssl) <;>
    simp +decide only [sectionEvents, Outgoing.properties, List.map_cons, List.map_nil, scan,
      LoadOutgoingsData.keyValueEventCb, LoadOutgoingsData.processProperty, hfrom, hto, hack, hid,
      hencoding, hgetpubkey, hmsg, if_true, if_false, Option.toList_none, List.append_nil,
      and_self, ofNat_toUInt64]

/-- Whatever the addresses are, the ids of the messages that are read back are among those that were
written. -/
theorem contentId_loadOutgoings (ssl : OpenSSL) (uninitialised : Outgoing)
    {outgoings : List Outgoing}
    (h : ∀ outgoing ∈ outgoings, (outgoing.contentId.toNat : Int) ≤ intMax) {found : Outgoing}
    (hfound : found ∈
      loadOutgoings ssl uninitialised (outgoings.flatMap (writeOutgoing ssl))) :
    ∃ outgoing ∈ outgoings, found.contentId = outgoing.contentId := by
  have hevents := keyValueLoad_flatMap (l := outgoings) fun outgoing _ =>
    yields_writeOutgoing ssl outgoing
  unfold loadOutgoings at hfound
  rw [hevents] at hfound
  refine forall_scan_sections
    (Q := fun found => ∃ outgoing ∈ outgoings, found.contentId = outgoing.contentId) ?_ ?_ found
    hfound
  · intro outgoing houtgoing data
    obtain ⟨hreport, hid⟩ := contentId_scan ssl (h outgoing houtgoing) data
    refine ⟨hreport, fun found hflush => ⟨outgoing, houtgoing, ?_⟩⟩
    unfold LoadOutgoingsData.flushOutgoing at hflush
    split_ifs at hflush
    cases hflush
    exact hid
  · intro found hflush
    cases hflush

end Notbit.Store
