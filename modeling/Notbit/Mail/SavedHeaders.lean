import Notbit.Lib.HeaderBlocks
import Notbit.Mail.Subjects

/-!
# SavedHeaders — the headers of a saved message (`ntb-save-message.c`)

Each header that is written is a field of its own, whatever the labels, the date and the message are,
and the message is found again behind them.
-/

open Bytes Traced Notbit.Proto Notbit.Store HeaderBlocks

namespace Notbit.Mail

/-! ## 1. What is text -/

theorem isText_base64Significant {ch : UInt8} (h : base64Significant ch = true) : IsText ch := by
  have hall : ∀ n < 256, base64Significant (UInt8.ofNat n) = true → IsText (UInt8.ofNat n) := by
    decide +kernel
  have hch := hall ch.toNat ch.toNat_lt
  rw [UInt8.ofNat_toNat] at hch
  exact hch h

theorem isText_isDigit {ch : UInt8} (h : isDigit ch = true) : IsText ch := by
  have hbounds : 48 ≤ ch.toNat ∧ ch.toNat ≤ 57 := of_decide_eq_true h
  exact ⟨by omega, by omega⟩

theorem isText_printUnsigned (n : Nat) : ∀ ch ∈ printUnsigned n, IsText ch :=
  fun _ hch => isText_isDigit (isDigit_of_mem hch)

theorem isText_printSigned (z : Int) : ∀ ch ∈ printSigned z, IsText ch := by
  unfold printSigned
  split
  · exact List.forall_mem_cons.mpr ⟨by decide, isText_printUnsigned _⟩
  · exact isText_printUnsigned _

theorem isText_printTwoDigits (n : Nat) : ∀ ch ∈ printTwoDigits n, IsText ch := by
  unfold printTwoDigits
  split
  · exact List.forall_mem_cons.mpr ⟨by decide, isText_printUnsigned _⟩
  · exact isText_printUnsigned _

theorem isText_encode (ssl : OpenSSL) (a : Address) : ∀ ch ∈ a.encode ssl, IsText ch := by
  have hall : ∀ ch ∈ addressChars, IsText ch := List.all_iff_forall_prop.mp rfl
  exact fun ch hch => hall ch (mem_addressChars hch)

theorem isText_subjectWord (chunk : List UInt8) : ∀ ch ∈ subjectWord chunk, IsText ch := by
  have hstart : ∀ ch ∈ ascii "=?UTF-8?B?", IsText ch := List.all_iff_forall_prop.mp rfl
  have hend : ∀ ch ∈ ascii "?=", IsText ch := List.all_iff_forall_prop.mp rfl
  have htext : ∀ ch ∈ base64Encode chunk, IsText ch :=
    fun ch hch => isText_base64Significant (mem_base64Encode hch)
  exact List.forall_mem_append.mpr ⟨List.forall_mem_append.mpr ⟨hstart, htext⟩, hend⟩

/-! ## 2. Labels -/

-- What a label must be written as does not get simpler with more bytes.
theorem classifyLabelFrom_quotes_ne (label : List UInt8) :
    classifyLabelFrom .quotes label = .quotes ∨ classifyLabelFrom .quotes label = .encode := by
  induction label with
  | nil => exact .inl rfl
  | cons ch label ih =>
    rw [classifyLabelFrom]
    split
    · exact .inr rfl
    · split
      · exact ih
      · exact ih

theorem isText_of_classifyLabelFrom {classification : LabelClassification} {label : List UInt8}
    (h : classifyLabelFrom classification label ≠ .encode) :
    ∀ ch ∈ label, IsText ch ∧ ch ≠ 34 ∧ ch ≠ 92 := by
  induction label generalizing classification with
  | nil => nofun
  | cons ch label ih =>
    rw [classifyLabelFrom] at h
    by_cases hencode : (ch.toNat < 32 || ch.toNat > 127 || ch = 34 || ch = 92) = true
    · rw [if_pos hencode] at h
      exact absurd rfl h
    · rw [if_neg hencode] at h
      have hch : IsText ch ∧ ch ≠ 34 ∧ ch ≠ 92 := by
        simp only [Bool.or_eq_true, decide_eq_true_eq, not_or] at hencode
        exact ⟨⟨by omega, by omega⟩, hencode.1.2, hencode.2⟩
      refine List.forall_mem_cons.mpr ⟨hch, ?_⟩
      split at h
      · exact ih h
      · exact ih h

theorem isAtomChar_of_classifyLabelFrom {classification : LabelClassification} {label : List UInt8}
    (h : classifyLabelFrom classification label = .raw) : ∀ ch ∈ label, isAtomChar ch = true := by
  induction label generalizing classification with
  | nil => nofun
  | cons ch label ih =>
    rw [classifyLabelFrom] at h
    split_ifs at h with hencode hatom
    · exact List.forall_mem_cons.mpr ⟨hatom, ih h⟩
    · exact List.forall_mem_cons.mpr ⟨hatom, ih h⟩
    · rcases classifyLabelFrom_quotes_ne label with hquotes | hquotes
      · rw [hquotes] at h
        cases h
      · rw [hquotes] at h
        cases h

/-! ## 3. The fields -/

/-- Something behind the last line. -/
def appendLast (suffix : List UInt8) : List (List UInt8) → List (List UInt8)
  | [] => [suffix]
  | [line] => [line ++ suffix]
  | line :: next :: lines => line :: appendLast suffix (next :: lines)

theorem intercalate_appendLast (separator suffix : List UInt8) (lines : List (List UInt8)) :
    separator.intercalate (appendLast suffix lines) = separator.intercalate lines ++ suffix := by
  induction lines with
  | nil => simp [appendLast]
  | cons line lines ih =>
    cases lines with
    | nil => simp [appendLast]
    | cons next lines =>
      have hne : appendLast suffix (next :: lines) ≠ [] := by
        cases lines <;> exact List.cons_ne_nil _ _
      rw [appendLast, List.intercalate_cons_of_ne_nil hne, ih, List.intercalate_cons_cons,
        List.append_assoc, List.append_assoc, List.append_assoc]

theorem appendLast_nil {lines : List (List UInt8)} (h : lines ≠ []) : appendLast [] lines = lines := by
  induction lines with
  | nil => exact absurd rfl h
  | cons line lines ih =>
    cases lines with
    | nil => rw [appendLast, List.append_nil]
    | cons next lines => rw [appendLast, ih (List.cons_ne_nil next lines)]

theorem isText_appendLast {suffix : List UInt8} {lines : List (List UInt8)}
    (hlines : ∀ line ∈ lines, ∀ ch ∈ line, IsText ch) (hsuffix : ∀ ch ∈ suffix, IsText ch) :
    ∀ line ∈ appendLast suffix lines, ∀ ch ∈ line, IsText ch := by
  induction lines with
  | nil => exact List.forall_mem_singleton.mpr hsuffix
  | cons line lines ih =>
    rw [List.forall_mem_cons] at hlines
    cases lines with
    | nil => exact List.forall_mem_singleton.mpr (List.forall_mem_append.mpr ⟨hlines.1, hsuffix⟩)
    | cons next lines => exact List.forall_mem_cons.mpr ⟨hlines.1, ih hlines.2⟩

/-- Encoded words stand on lines of their own, with something behind the last one; other texts stand
on a single line. -/
def FoldsAtWords : List (List UInt8) → Prop
  | [] => False
  | [_] => True
  | line :: next :: lines =>
    (∃ chunk, line = subjectWord chunk) ∧ (∃ chunk, subjectWord chunk <+: next) ∧
      FoldsAtWords (next :: lines)

theorem foldsAtWords_appendLast {words : List (List UInt8)} (suffix : List UInt8)
    (h : ∀ word ∈ words, ∃ chunk, word = subjectWord chunk) :
    FoldsAtWords (appendLast suffix words) := by
  induction words with
  | nil => trivial
  | cons word words ih =>
    rw [List.forall_mem_cons] at h
    have hrest := ih h.2
    cases words with
    | nil => trivial
    | cons next words =>
      obtain ⟨chunk, hnext⟩ := h.2 next List.mem_cons_self
      cases words with
      | nil => exact ⟨h.1, ⟨chunk, hnext ▸ List.prefix_append _ _⟩, hrest⟩
      | cons more words => exact ⟨h.1, ⟨chunk, hnext ▸ List.prefix_rfl⟩, hrest⟩

/-- The lines of a label with an address. -/
def addressLines (ssl : OpenSSL) (label : Option (List UInt8)) (a : Address) :
    List (List UInt8) :=
  let name := label.getD []
  let mailbox := ascii " <" ++ a.encode ssl ++ ascii "@bitmessage>"
  match classifyLabel label with
  | .none => [a.encode ssl ++ ascii "@bitmessage"]
  | .raw => [name ++ mailbox]
  | .quotes => [ascii "\"" ++ name ++ ascii "\"" ++ mailbox]
  | .encode => appendLast mailbox (subjectWords name)

theorem flatten_writeAddress (ssl : OpenSSL) (label : Option (List UInt8)) (a : Address) :
    (writeAddress label (a.encode ssl)).flatten = [10, 32].intercalate (addressLines ssl label a) := by
  unfold writeAddress addressLines
  dsimp only
  cases classifyLabel label with
  | none =>
    rw [List.intercalate_singleton, List.flatten_cons, List.flatten_singleton]
  | raw => rw [List.intercalate_singleton, List.flatten_singleton]
  | quotes => rw [List.intercalate_singleton, List.flatten_singleton]
  | encode =>
    dsimp only
    rw [List.flatten_append, List.flatten_singleton, flatten_writeEncodedWords,
      intercalate_appendLast]
    rfl

-- The bytes of a label are those of a C string; the classes but one leave no others.
theorem isText_label {label : Option (List UInt8)} (h : classifyLabel label ≠ .encode) :
    ∀ ch ∈ label.getD [], IsText ch := by
  cases label with
  | none => nofun
  | some label => exact fun ch hch => (isText_of_classifyLabelFrom h ch hch).1

theorem isText_addressLines (ssl : OpenSSL) (label : Option (List UInt8)) (a : Address) :
    ∀ line ∈ addressLines ssl label a, ∀ ch ∈ line, IsText ch := by
  have hstart : ∀ ch ∈ ascii " <", IsText ch := List.all_iff_forall_prop.mp rfl
  have hquote : ∀ ch ∈ ascii "\"", IsText ch := List.all_iff_forall_prop.mp rfl
  have hend : ∀ ch ∈ ascii "@bitmessage>", IsText ch := List.all_iff_forall_prop.mp rfl
  have hdomain : ∀ ch ∈ ascii "@bitmessage", IsText ch := List.all_iff_forall_prop.mp rfl
  have haddress := isText_encode ssl a
  have hmailbox : ∀ ch ∈ ascii " <" ++ a.encode ssl ++ ascii "@bitmessage>", IsText ch :=
    List.forall_mem_append.mpr ⟨List.forall_mem_append.mpr ⟨hstart, haddress⟩, hend⟩
  unfold addressLines
  dsimp only
  split
  next =>
    exact List.forall_mem_singleton.mpr (List.forall_mem_append.mpr ⟨haddress, hdomain⟩)
  next hclass =>
    have hlabel := isText_label (hclass.trans_ne (by decide))
    exact List.forall_mem_singleton.mpr (List.forall_mem_append.mpr ⟨hlabel, hmailbox⟩)
  next hclass =>
    have hlabel := isText_label (hclass.trans_ne (by decide))
    have hquoted := List.forall_mem_append.mpr ⟨List.forall_mem_append.mpr ⟨hquote, hlabel⟩, hquote⟩
    exact List.forall_mem_singleton.mpr (List.forall_mem_append.mpr ⟨hquoted, hmailbox⟩)
  next =>
    refine isText_appendLast (fun word hword => ?_) hmailbox
    obtain ⟨chunk, rfl, -⟩ := mem_subjectWords hword
    exact isText_subjectWord chunk

theorem foldsAtWords_addressLines (ssl : OpenSSL) (label : Option (List UInt8)) (a : Address) :
    FoldsAtWords (addressLines ssl label a) := by
  unfold addressLines
  dsimp only
  split
  next => trivial
  next => trivial
  next => trivial
  next =>
    refine foldsAtWords_appendLast _ fun word hword => ?_
    obtain ⟨chunk, hchunk, -⟩ := mem_subjectWords hword
    exact ⟨chunk, hchunk⟩

/-- The value of the header Date. -/
def dateLine (tm : Tm) : List UInt8 :=
  dayNames tm.wday ++ ascii ", " ++ printSigned tm.mday ++ ascii " " ++
    monthNames tm.mon ++ ascii " " ++ printSigned (tm.year + 1900) ++ ascii " " ++
    printTwoDigits tm.hour ++ ascii ":" ++ printTwoDigits tm.min ++ ascii ":" ++
    printTwoDigits tm.sec ++ ascii " " ++ (if tm.gmtoff < 0 then ascii "-" else ascii "+") ++
    printTwoDigits (tm.gmtoff.natAbs / 3600) ++ printTwoDigits (tm.gmtoff.natAbs % 3600 / 60)

theorem dateHeaders_eq (tm : Tm) :
    dateHeaders tm = ascii "\nDate: " ++ dateLine tm ++
      ascii "\nContent-Type: text/plain; charset=UTF-8\nContent-Transfer-Encoding: 8bit\n" := by
  unfold dateHeaders dateLine
  simp only [List.append_assoc]

theorem isText_dateLine (tm : Tm) : ∀ ch ∈ dateLine tm, IsText ch := by
  have hday : ∀ i, ∀ ch ∈ dayNames i, IsText ch := fun i => by
    fin_cases i <;> exact List.all_iff_forall_prop.mp rfl
  have hmonth : ∀ i, ∀ ch ∈ monthNames i, IsText ch := fun i => by
    fin_cases i <;> exact List.all_iff_forall_prop.mp rfl
  have hsign : ∀ ch ∈ if tm.gmtoff < 0 then ascii "-" else ascii "+", IsText ch := by
    split <;> exact List.all_iff_forall_prop.mp rfl
  have hcomma : ∀ ch ∈ ascii ", ", IsText ch := List.all_iff_forall_prop.mp rfl
  have hblank : ∀ ch ∈ ascii " ", IsText ch := List.all_iff_forall_prop.mp rfl
  have hcolon : ∀ ch ∈ ascii ":", IsText ch := List.all_iff_forall_prop.mp rfl
  unfold dateLine
  simp only [List.forall_mem_append, and_assoc]
  exact ⟨hday _, hcomma, isText_printSigned _, hblank, hmonth _, hblank, isText_printSigned _, hblank,
    isText_printTwoDigits _, hcolon, isText_printTwoDigits _, hcolon, isText_printTwoDigits _, hblank,
    hsign, isText_printTwoDigits _, isText_printTwoDigits _⟩

theorem isText_subjectLines (subject : List UInt8) :
    ∀ line ∈ if needEncodedWords subject then subjectWords subject else [subject],
      ∀ ch ∈ line, IsText ch := by
  split
  next =>
    intro word hword
    obtain ⟨chunk, rfl, -⟩ := mem_subjectWords hword
    exact isText_subjectWord chunk
  next hplain =>
    refine List.forall_mem_singleton.mpr fun ch hch => ?_
    have hany : ¬ subject.any (fun ch => ch.toNat ≥ 128 || ch.toNat < 32) = true := by
      intro hany
      apply hplain
      rw [needEncodedWords, hany, Bool.or_true, Bool.true_or]
    have hbounds : ¬ (ch.toNat ≥ 128 || ch.toNat < 32) = true :=
      fun hbad => hany (List.any_eq_true.mpr ⟨ch, hch, hbad⟩)
    simp only [Bool.or_eq_true, decide_eq_true_eq, not_or] at hbounds
    exact ⟨by omega, by omega⟩

/-- The fields that every message is saved with. -/
def savedFields (ssl : OpenSSL) (tm : Tm) (fromLabel : Option (List UInt8)) (sender : Address)
    (toLabel : List UInt8) (toAddress : Address) : List Field := [
  { name       := ascii "From"
    lines      := addressLines ssl fromLabel sender
    name_ne    := by decide
    name_bytes := List.all_iff_forall_prop.mp rfl
    text       := isText_addressLines ssl fromLabel sender },
  { name       := ascii "To"
    lines      := addressLines ssl (some toLabel) toAddress
    name_ne    := by decide
    name_bytes := List.all_iff_forall_prop.mp rfl
    text       := isText_addressLines ssl (some toLabel) toAddress },
  { name       := ascii "Date"
    lines      := [dateLine tm]
    name_ne    := by decide
    name_bytes := List.all_iff_forall_prop.mp rfl
    text       := List.forall_mem_singleton.mpr (isText_dateLine tm) },
  { name       := ascii "Content-Type"
    lines      := [ascii "text/plain; charset=UTF-8"]
    name_ne    := by decide
    name_bytes := List.all_iff_forall_prop.mp rfl
    text       := List.forall_mem_singleton.mpr (List.all_iff_forall_prop.mp rfl) },
  { name       := ascii "Content-Transfer-Encoding"
    lines      := [ascii "8bit"]
    name_ne    := by decide
    name_bytes := List.all_iff_forall_prop.mp rfl
    text       := List.forall_mem_singleton.mpr (List.all_iff_forall_prop.mp rfl) }]

/-- The field for a subject. -/
def subjectField (subject : List UInt8) : Field where
  name       := ascii "Subject"
  lines      := if needEncodedWords subject then subjectWords subject else [subject]
  name_ne    := by decide
  name_bytes := List.all_iff_forall_prop.mp rfl
  text       := isText_subjectLines subject

theorem value_subjectField (subject : List UInt8) :
    (subjectField subject).value = (writeSubject subject).flatten := by
  unfold Field.value subjectField writeSubject
  dsimp only
  split
  · exact (flatten_writeEncodedWords subject).symm
  · rw [List.intercalate_singleton, List.flatten_singleton]

theorem foldsAtWords_subjectField (subject : List UInt8) :
    FoldsAtWords (subjectField subject).lines := by
  unfold subjectField
  dsimp only
  split
  next =>
    have hwords := @foldsAtWords_appendLast (subjectWords subject) [] fun word hword => by
      obtain ⟨chunk, hchunk, -⟩ := mem_subjectWords hword
      exact ⟨chunk, hchunk⟩
    rwa [appendLast_nil (subjectWords_ne_nil subject)] at hwords
  next => trivial

/-! ## 4. The saved message -/

/-- The subject, if `ntb_save_message` finds one, and the body of a message. -/
def splitText (encoding : Nat) (message : List UInt8) : Option (List UInt8) × List UInt8 :=
  let eol := message.findIdx (· = 10)
  if encoding = 2 ∧ message.length ≥ 9 ∧ message.take 8 = ascii "Subject:" ∧
      eol < message.length then
    let rest := message.drop (eol + 1)
    (some ((message.take eol).drop 8),
      if rest.take 5 = ascii "Body:" then rest.drop 5 else rest)
  else (none, message)

/-- The writes for a subject and a body. -/
def writeParts (subject : Option (List UInt8)) (body : List UInt8) : List (List UInt8) :=
  match subject with
  | none => [[10], body]
  | some subject => [ascii "Subject: "] ++ writeSubject subject ++ [[10], [10], body]

theorem writeText_eq (encoding : Nat) (message : List UInt8) :
    writeText encoding message =
      writeParts (splitText encoding message).1 (splitText encoding message).2 := by
  unfold writeText splitText
  dsimp only
  split
  next => rfl
  next => rfl

theorem flatten_writeParts (subject : Option (List UInt8)) (body : List UInt8) :
    (writeParts subject body).flatten =
      (subject.map subjectField).toList.flatMap Field.write ++ 10 :: body := by
  cases subject with
  | none => simp [writeParts]
  | some subject =>
    have hname : ascii "Subject: " = (subjectField subject).name ++ [58, 32] := rfl
    simp only [writeParts, Option.map_some, Option.toList_some, List.flatMap_singleton, Field.write,
      value_subjectField, hname, List.flatten_append, List.flatten_cons, List.flatten_nil,
      List.append_assoc, List.append_nil]
    rfl

theorem saveMessage_eq_writeBlock (ssl : OpenSSL) (mail : Delivery) (sender : Address)
    (h : mail.fromAddress = sender.encode ssl) :
    let message := window (ofList mail.plaintext) mail.msg.message mail.msg.messageLength
    let split := splitText mail.msg.encoding message
    (saveMessage ssl mail).flatten = writeBlock
      (savedFields ssl mail.tm mail.fromLabel sender mail.toLabel mail.toAddress ++
        (split.1.map subjectField).toList) split.2 := by
  intro message split
  unfold saveMessage writeBlock savedFields
  simp only [List.flatten_append, writeText_eq, flatten_writeParts, h, flatten_writeAddress,
    List.flatten_singleton, dateHeaders_eq, List.flatMap_append, List.flatMap_cons,
    List.flatMap_nil, Field.write, Field.value, List.intercalate_singleton, List.append_assoc,
    List.nil_append]
  -- the texts between the values are the same
  rfl

/-- A saved message starts with one field each for the sender, the receiver, the date, the type and
the encoding, which do not depend on the message, and at most one for the subject.  Their bytes are
text, they go on with another line only between encoded words, and a reader finds them and behind
the blank line the body, whatever the message is. -/
theorem saveMessage_headers (ssl : OpenSSL) (mail : Delivery) (sender : Address)
    (h : mail.fromAddress = sender.encode ssl) :
    let message := window (ofList mail.plaintext) mail.msg.message mail.msg.messageLength
    let split := splitText mail.msg.encoding message
    let fields := savedFields ssl mail.tm mail.fromLabel sender mail.toLabel mail.toAddress ++
      (split.1.map subjectField).toList
    fields.map Field.name = [ascii "From", ascii "To", ascii "Date", ascii "Content-Type",
        ascii "Content-Transfer-Encoding"] ++ (split.1.map fun _ => ascii "Subject").toList ∧
      (∀ field ∈ fields, FoldsAtWords field.lines) ∧
      (saveMessage ssl mail).flatten = writeBlock fields split.2 ∧
      readBlock (saveMessage ssl mail).flatten =
        some (fields.map fun field => (field.name, 32 :: field.value), split.2) := by
  intro message split fields
  have hwrite : (saveMessage ssl mail).flatten = writeBlock fields split.2 :=
    saveMessage_eq_writeBlock ssl mail sender h
  have hsaved : ∀ field ∈ savedFields ssl mail.tm mail.fromLabel sender mail.toLabel mail.toAddress,
      FoldsAtWords field.lines := by
    simp only [savedFields, List.forall_mem_cons]
    exact ⟨foldsAtWords_addressLines _ _ _, foldsAtWords_addressLines _ _ _, trivial, trivial,
      trivial, nofun⟩
  refine ⟨?_, ?_, hwrite, hwrite ▸ readBlock_writeBlock fields split.2⟩
  · rw [List.map_append]
    cases split.1 <;> rfl
  · refine List.forall_mem_append.mpr ⟨hsaved, fun field hfield => ?_⟩
    obtain ⟨subject, -, rfl⟩ := Option.map_eq_some_iff.mp (Option.mem_toList.mp hfield)
    exact foldsAtWords_subjectField subject

/-- A message with an empty signature. -/
def unsigned (f : MessageFields) : List UInt8 := f.encode ++ (addVarInt 0 ++ [])

/-- Where its fields are found. -/
def unsignedMsg (f : MessageFields) : DecryptedMsg :=
  { f.bodyAt 0 with
    signedDataLength := f.encode.length
    sig := 0 + f.encode.length + (addVarInt 0).length
    sigLength := 0 }

theorem unsigned_parsed {f : MessageFields} (hfit : f.Fit) (h : (unsigned f).length < 2 ^ 31) :
    (getDecryptedMsg 0 ((unsigned f).length % 2 ^ 32)).value (ofList (unsigned f)) =
      .ok (unsignedMsg f) := by
  have hvalue := @getDecryptedMsg_value f (ofList (unsigned f)) 0 (unsigned f).length [] hfit
    (holds_ofList (unsigned f)) rfl h
  rw [Nat.mod_eq_of_lt (by omega)]
  exact hvalue

/-- A message with a subject and a body of one byte each. -/
def zeroMessage : MessageFields where
  messageVersion := 1
  senderAddressVersion := 4
  senderStreamNumber := 1
  senderBehaviors := 1
  signingKey := List.replicate 64 0
  encryptionKey := List.replicate 64 0
  nonceTrialsPerByte := 320
  extraBytes := 14000
  ripe := List.replicate 20 0
  encoding := 2
  content := ascii "Subject:a\nBody:b"
  ack := []

theorem zeroMessage_fit : zeroMessage.Fit := by
  constructor <;> decide +kernel

def zeroDelivery : Delivery where
  tm := { wday := 0, mday := 1, mon := 0, year := 70, hour := 0, min := 0, sec := 0, gmtoff := 0 }
  fromLabel := none
  fromAddress := zeroAddress.encode zeroEnv.ssl
  toLabel := ascii "a b"
  toAddress := zeroAddress
  plaintext := unsigned zeroMessage
  msg := unsignedMsg zeroMessage
  parsed := unsigned_parsed zeroMessage_fit (by decide +kernel)

theorem zeroDelivery_headers :
    (readBlock (saveMessage zeroEnv.ssl zeroDelivery).flatten).isSome = true := by
  rw [(saveMessage_headers zeroEnv.ssl zeroDelivery zeroAddress rfl).2.2.2]
  rfl

end Notbit.Mail
