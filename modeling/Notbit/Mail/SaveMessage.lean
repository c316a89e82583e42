import Notbit.Address
import Notbit.Mail.Base64
import Notbit.Proto.Objects
import Notbit.Store.KeyValue

/-!
# SaveMessage — a message as a mail (`ntb-save-message.c`)

Each function gives the writes it makes, one list of bytes for each call on the stream.
-/

open Bytes Traced Notbit.Proto Notbit.Store

namespace Notbit.Mail

/-- `need_encoded_words` -/
def needEncodedWords (subject : List UInt8) : Bool :=
  subject.length > 76 - 9 || subject.any (fun ch => ch.toNat ≥ 128 || ch.toNat < 32) ||
    (subject.zip subject.tail).any fun (a, b) => a = 61 && b = 63

/-- `max_chunk_length` in `write_encoded_words` -/
def maxChunkLength : Nat := (76 - 9 - 10 - 2) / 4 * 3

/-- `write_encoded_words` -/
def writeEncodedWords (subject : List UInt8) : List (List UInt8) :=
  [ascii "=?UTF-8?B?", base64Encode (subject.take maxChunkLength), ascii "?="] ++
    if subject.drop maxChunkLength = [] then []
    else ascii "\n " :: writeEncodedWords (subject.drop maxChunkLength)
termination_by subject.length
decreasing_by
  rename_i hmore
  rw [List.drop_eq_nil_iff] at hmore
  rw [List.length_drop]
  have hpos : 0 < maxChunkLength := by decide
  omega

-- The assertion about the size of the buffer holds for every chunk.
theorem length_base64Encode_chunk (subject : List UInt8) :
    (base64Encode (subject.take maxChunkLength)).length ≤ (maxChunkLength * 4 + 2) / 3 := by
  have hchunk : (subject.take maxChunkLength).length ≤ 39 := by
    rw [List.length_take]
    exact Nat.min_le_left _ _
  rw [length_base64Encode]
  change _ ≤ 52
  omega

/-- `write_subject` -/
def writeSubject (subject : List UInt8) : List (List UInt8) :=
  if needEncodedWords subject then writeEncodedWords subject else [subject]

/-- `is_atom_char` -/
def isAtomChar (ch : UInt8) : Bool :=
  ch ∈ ascii "!#$%&'*+-/=?^_`\x7b|\x7d~" || (97 ≤ ch.toNat && ch.toNat ≤ 122) ||
    (65 ≤ ch.toNat && ch.toNat ≤ 90) || (48 ≤ ch.toNat && ch.toNat ≤ 57)

/-- `enum label_classification` -/
inductive LabelClassification where
  | none | raw | quotes | encode
  deriving DecidableEq, Repr

/-- The loop of `classify_label`.  A byte from 128 on is a negative `char` or one above 127. -/
def classifyLabelFrom (classification : LabelClassification) : List UInt8 → LabelClassification
  | [] => classification
  | ch :: label =>
    if ch.toNat < 32 || ch.toNat > 127 || ch = 34 || ch = 92 then .encode
    else if isAtomChar ch then
      classifyLabelFrom (if classification = .none then .raw else classification) label
    else classifyLabelFrom .quotes label

/-- `classify_label`, for the label of a key that may be missing. -/
def classifyLabel : Option (List UInt8) → LabelClassification
  | none => .none
  | some label => classifyLabelFrom .none label

/-- `write_address` -/
def writeAddress (label : Option (List UInt8)) (address : List UInt8) : List (List UInt8) :=
  let name := label.getD []
  let mailbox := ascii " <" ++ address ++ ascii "@bitmessage>"
  match classifyLabel label with
  | .none => [address, ascii "@bitmessage"]
  | .raw => [name ++ mailbox]
  | .quotes => [ascii "\"" ++ name ++ ascii "\"" ++ mailbox]
  | .encode => writeEncodedWords name ++ [mailbox]

/-- The fields of `struct tm` that are written. -/
structure Tm where
  wday : Fin 7
  mday : Int
  mon : Fin 12
  year : Int
  hour : Nat
  min : Nat
  sec : Nat
  gmtoff : Int
  deriving DecidableEq, Repr

def dayNames : Fin 7 → List UInt8 := fun i =>
  ascii (["Sun", "Mon", "Tue", "Wed", "Thu", "Fri", "Sat"].get i)

def monthNames : Fin 12 → List UInt8 := fun i =>
  ascii (["Jan", "Feb", "Mar", "Apr", "May", "Jun", "Jul", "Aug", "Sep", "Oct", "Nov", "Dec"].get i)

/-- `%02i` of a number that is not negative. -/
def printTwoDigits (n : Nat) : List UInt8 :=
  if n < 10 then 48 :: printUnsigned n else printUnsigned n

/-- The headers that `ntb_save_message` writes in one go. -/
def dateHeaders (tm : Tm) : List UInt8 :=
  ascii "\nDate: " ++ dayNames tm.wday ++ ascii ", " ++ printSigned tm.mday ++ ascii " " ++
    monthNames tm.mon ++ ascii " " ++ printSigned (tm.year + 1900) ++ ascii " " ++
    printTwoDigits tm.hour ++ ascii ":" ++ printTwoDigits tm.min ++ ascii ":" ++
    printTwoDigits tm.sec ++ ascii " " ++ (if tm.gmtoff < 0 then ascii "-" else ascii "+") ++
    printTwoDigits (tm.gmtoff.natAbs / 3600) ++ printTwoDigits (tm.gmtoff.natAbs % 3600 / 60) ++
    ascii "\nContent-Type: text/plain; charset=UTF-8\nContent-Transfer-Encoding: 8bit\n"

/-- What `ntb_save_message` does with the text: the subject, if there is one, and the body. -/
def writeText (encoding : Nat) (message : List UInt8) : List (List UInt8) :=
  let eol := message.findIdx (· = 10)
  if encoding = 2 ∧ message.length ≥ 9 ∧ message.take 8 = ascii "Subject:" ∧
      eol < message.length then
    let rest := message.drop (eol + 1)
    let body := if rest.take 5 = ascii "Body:" then rest.drop 5 else rest
    [ascii "Subject: "] ++ writeSubject ((message.take eol).drop 8) ++ [[10], [10], body]
  else [[10], message]

/-- What `ntb_save_message` is called with: the label of the sender's key, if the key is known, and
the plaintext, which has been parsed before. -/
structure Delivery where
  tm : Tm
  fromLabel : Option (List UInt8)
  fromAddress : List UInt8
  toLabel : List UInt8
  toAddress : Address
  plaintext : List UInt8
  msg : DecryptedMsg
  parsed : (getDecryptedMsg 0 (plaintext.length % 2 ^ 32)).value (ofList plaintext) = .ok msg

/-- `ntb_save_message` -/
def saveMessage (ssl : OpenSSL) (mail : Delivery) : List (List UInt8) :=
  let text := window (ofList mail.plaintext) mail.msg.message mail.msg.messageLength
  [ascii "From: "] ++ writeAddress mail.fromLabel mail.fromAddress ++ [ascii "\nTo: "] ++
    writeAddress (some mail.toLabel) (mail.toAddress.encode ssl) ++ [dateHeaders mail.tm] ++
    writeText mail.msg.encoding text

end Notbit.Mail
