import Notbit.Mail.Addresses
import Notbit.Mail.ContentType
import Notbit.Mail.EncodedWords

/-!
# Parser — the parser for mails (`ntb-mail-parser.c`)

A machine with six states for the headers and the content.  The callbacks, which are those of
`ntb-ipc.c`, accept everything, so that only what they are called with is recorded.
-/

open Bytes Streams Streams.Emits Traced Notbit.Proto Notbit.Store

namespace Notbit.Mail

/-! ## 1. The parser -/

/-- `enum ntb_mail_parser_state` -/
inductive MailParserState where
  | headerName | headerValueStart | headerValue | checkEol | checkContinuation | content
  deriving DecidableEq, Repr

/-- `enum ntb_mail_parser_header` -/
inductive MailParserHeader where
  | skip | to | cc | bcc | from | subject | contentType | transferEncoding
  deriving DecidableEq, Repr

/-- `enum ntb_mail_parser_encoding` -/
inductive MailParserEncoding where
  | raw | base64 | quotedPrintable
  deriving DecidableEq, Repr

/-- The error codes of `ntb_mail_parser_error` that are used, and those of the other domains. -/
inductive MailErrorCode where
  | invalidHeader | invalidContentType | invalidTransferEncoding | missingHeader
  | invalidAddresses | invalidPadding | invalidEscape
  deriving DecidableEq, Repr

/-- How the parser can stop: with an error, or after reading or writing outside of a buffer. -/
inductive MailStop where
  | error (code : MailErrorCode) (message : List UInt8)
  | overrun
  deriving DecidableEq, Repr

/-- `enum ntb_mail_parser_event` with what the callbacks are given. -/
inductive MailEvent where
  | source (address : Address)
  | destination (address : Address)
  | subject (data : List UInt8)
  | content (data : List UInt8)

/-- `struct ntb_mail_parser`; a fresh one is that of `ntb_mail_parser_new`. -/
structure MailParser where
  state : MailParserState := .headerName
  currentHeader : MailParserHeader := .skip
  buffer : List UInt8 := []
  hadFrom : Bool := false
  hadTo : Bool := false
  hadCc : Bool := false
  hadBcc : Bool := false
  hadSubject : Bool := false
  hadContentType : Bool := false
  hadTransferEncoding : Bool := false
  encoding : MailParserEncoding := .raw
  base64Data : Base64Data := {}
  qpData : QuotedPrintableData := { underscoreIsSpace := false }
  deriving DecidableEq, Repr

/-- What the program is linked with: the library for addresses, and what lies in memory behind its
string literals. -/
structure MailEnv where
  ssl : OpenSSL
  behind : List UInt8 → Memory

abbrev MailResult (α : Type) := Emits MailStop MailEvent α

def invalidHeader {α : Type} (message : String) : MailResult α :=
  fail (.error .invalidHeader (ascii message))

/-- A text in curly quotes behind another one. -/
def curlyQuoted (message : String) (text : List UInt8) : List UInt8 :=
  ascii message ++ [0xe2, 0x80, 0x9c] ++ text ++ [0xe2, 0x80, 0x9d]

/-- `ascii_islwsp` -/
def asciiIsLwsp (ch : UInt8) : Bool := ch = 32 || ch = 9

/-- `ascii_casecmp`, as the `bool` that it returns. -/
def asciiCasecmp (a b : List UInt8) : Bool := a.map asciiToLower ≠ b.map asciiToLower

namespace MailParser

variable (env : MailEnv)

/-- `is_header`: the bytes are compared with those from the start of the literal on. -/
def isHeader (buffer : List UInt8) (name : String) : Bool :=
  let literal := ascii name ++ [0]
  buffer.map asciiToLower = window (overlay literal (env.behind literal)) 0 buffer.length

/-- `ntb_mail_parser_headers` -/
def headers : List (String × MailParserHeader) :=
  [("skip", .skip), ("to", .to), ("cc", .cc), ("bcc", .bcc), ("from", .from),
    ("subject", .subject), ("content-type", .contentType),
    ("content-transfer-encoding", .transferEncoding)]

/-- The first header of the table whose name the buffer is. -/
def headerNamed (buffer : List UInt8) : MailParserHeader :=
  match headers.find? fun header => isHeader env buffer header.1 with
  | some (_, value) => value
  | none => .skip

/-- `set_header` -/
def setHeader (parser : MailParser) : MailParser :=
  { parser with currentHeader := headerNamed env parser.buffer }

/-- `handle_subject` -/
def handleSubject (parser : MailParser) : MailResult MailParser :=
  if parser.hadSubject then invalidHeader "Subject header specified twice"
  else
    match encodedWordsDecode parser.buffer with
    | none => fail .overrun
    | some buffer => do
      tell [.subject buffer]
      return { parser with hadSubject := true, buffer }

/-- `ntb_parse_addresses` on the buffer, with the parser as `user_data`. -/
def parseAddressesOf (cb : AddressCallback MailStop MailEvent MailParser) (parser : MailParser) :
    MailResult MailParser :=
  (parseAddresses env.ssl cb parser.buffer parser).mapError fun
    | .invalid message => .error .invalidAddresses message
    | .callback e => e

/-- `destination_address_cb` -/
def destinationAddressCb : AddressCallback MailStop MailEvent MailParser := fun parser address => do
  tell [.destination address]
  return parser

/-- `handle_to` -/
def handleTo (parser : MailParser) : MailResult MailParser :=
  if parser.hadTo then invalidHeader "Multiple To headers encountered"
  else parseAddressesOf env destinationAddressCb { parser with hadTo := true }

/-- `handle_cc` -/
def handleCc (parser : MailParser) : MailResult MailParser :=
  if parser.hadCc then invalidHeader "Multiple Cc headers encountered"
  else parseAddressesOf env destinationAddressCb { parser with hadCc := true }

/-- `handle_bcc` -/
def handleBcc (parser : MailParser) : MailResult MailParser :=
  if parser.hadBcc then invalidHeader "Multiple Bcc headers encountered"
  else parseAddressesOf env destinationAddressCb { parser with hadBcc := true }

/-- `from_address_cb` -/
def fromAddressCb : AddressCallback MailStop MailEvent MailParser := fun parser address =>
  if parser.hadFrom then invalidHeader "Multiple from addresses encountered"
  else do
    tell [.source address]
    return { parser with hadFrom := true }

/-- `handle_from` -/
def handleFrom (parser : MailParser) : MailResult MailParser :=
  parseAddressesOf env fromAddressCb parser

/-- `content_type_type_cb` -/
def contentTypeTypeCb (type : List UInt8) : MailResult Unit :=
  if asciiCasecmp type (ascii "text/plain") then
    fail (.error .invalidContentType (curlyQuoted "Unsupported content type " type))
  else return ()

/-- `content_type_attribute_cb` -/
def contentTypeAttributeCb (name value : List UInt8) : MailResult Unit :=
  if !asciiCasecmp name (ascii "charset") && asciiCasecmp value (ascii "utf-8") &&
      asciiCasecmp value (ascii "us-ascii") then
    fail (.error .invalidContentType (curlyQuoted "Unsupported charset " value))
  else return ()

/-- `handle_content_type` -/
def handleContentType (parser : MailParser) : MailResult MailParser :=
  if parser.hadContentType then invalidHeader "Content-Type header specified twice"
  else do
    let buffer := parser.buffer ++ [0]
    (parseContentType buffer contentTypeTypeCb contentTypeAttributeCb).mapError fun
      | .malformed => .error .invalidHeader (ascii "Invalid Content-Type header encountered")
      | .callback e => e
      | .overread => .overrun
    return { parser with hadContentType := true, buffer }

/-- `handle_transfer_encoding` -/
def handleTransferEncoding (parser : MailParser) : MailResult MailParser :=
  if parser.hadTransferEncoding then invalidHeader "Transfer-Encoding header specified twice"
  else
    let parser := { parser with hadTransferEncoding := true }
    if isHeader env parser.buffer "base64" then return { parser with encoding := .base64 }
    else if isHeader env parser.buffer "quoted-printable" then
      return { parser with encoding := .quotedPrintable }
    else if isHeader env parser.buffer "7bit" || isHeader env parser.buffer "8bit" then
      return { parser with encoding := .raw }
    else
      fail (.error .invalidTransferEncoding
        (curlyQuoted "Unsupported transfer encoding " (cString parser.buffer)))

/-- `handle_header_end` -/
def handleHeaderEnd (parser : MailParser) : MailResult MailParser :=
  let parser :=
    if parser.buffer.getLast? = some 32 then { parser with buffer := parser.buffer.dropLast }
    else parser
  match parser.currentHeader with
  | .to => parser.handleTo env
  | .cc => parser.handleCc env
  | .bcc => parser.handleBcc env
  | .from => parser.handleFrom env
  | .subject => parser.handleSubject
  | .contentType => parser.handleContentType
  | .transferEncoding => parser.handleTransferEncoding env
  | .skip => return parser

/-- `handle_headers_end` -/
def handleHeadersEnd (parser : MailParser) : MailResult MailParser :=
  if !parser.hadFrom then fail (.error .missingHeader (ascii "Missing From header"))
  else if !parser.hadTo && !parser.hadCc && !parser.hadBcc then
    fail (.error .missingHeader (ascii "Missing To, Cc or Bcc header"))
  else
    let parser := { parser with state := .content }
    match parser.encoding with
    | .base64 => return { parser with base64Data := {} }
    | .quotedPrintable => return { parser with qpData := { underscoreIsSpace := false } }
    | .raw => return parser

/-- The end of a line in `handle_header_name`. -/
def endOfLineInName (parser : MailParser) : MailResult MailParser :=
  if parser.buffer = [] then parser.handleHeadersEnd
  else invalidHeader "End of line encountered in the middle of a header"

/-- The colon in `handle_header_name`. -/
def endOfName (parser : MailParser) : MailParser :=
  { parser.setHeader env with state := .headerValueStart }

/-- What ends the loop of `handle_header_name`. -/
def handleNameEnd (parser : MailParser) (ch : UInt8) : MailResult MailParser :=
  if ch = 10 then parser.endOfLineInName else return parser.endOfName env

/-- `handle_header_name` -/
def handleHeaderName (parser : MailParser) (data : List UInt8) : MailResult (MailParser × Nat) := do
  let endPos := data.findIdx fun ch => ch = 10 || ch = 58
  let parser := { parser with buffer := parser.buffer ++ data.take endPos }
  match data[endPos]? with
  | none => return (parser, endPos)
  | some ch =>
    let parser ← parser.handleNameEnd env ch
    return (parser, endPos + 1)

/-- `handle_header_value_start` -/
def handleHeaderValueStart (parser : MailParser) (data : List UInt8) : MailParser × Nat :=
  let i := data.findIdx fun ch => !asciiIsLwsp ch
  if i < data.length then ({ parser with state := .headerValue, buffer := [] }, i) else (parser, i)

/-- `add_space` -/
def addSpace (parser : MailParser) : MailParser :=
  if parser.buffer = [] ∨ parser.buffer.getLast? ≠ some 32 then
    { parser with buffer := parser.buffer ++ [32] }
  else parser

/-- `handle_header_value` -/
def handleHeaderValue (parser : MailParser) : List UInt8 → MailResult (MailParser × Nat)
  | [] => return (parser, 0)
  | ch :: data =>
    if asciiIsLwsp ch then do
      let (parser, p) ← parser.addSpace.handleHeaderValue data
      return (parser, p + 1)
    else if ch = 0 then invalidHeader "Null byte encountered in a header"
    else if ch = 13 then return ({ parser with state := .checkEol }, 1)
    else if ch = 10 then return ({ parser with state := .checkContinuation }, 1)
    else do
      let (parser, p) ←
        ({ parser with buffer := parser.buffer ++ [ch] } : MailParser).handleHeaderValue data
      return (parser, p + 1)

/-- `handle_check_eol` -/
def handleCheckEol (parser : MailParser) (ch : UInt8) : MailResult MailParser :=
  if ch ≠ 10 then invalidHeader "\r encountered in headers which was not followed by \n"
  else return { parser with state := .checkContinuation }

/-- `handle_check_continuation` -/
def handleCheckContinuation (parser : MailParser) (ch : UInt8) : MailResult MailParser :=
  if asciiIsLwsp ch then return { parser with state := .headerValue }
  else do
    let parser ← parser.handleHeaderEnd env
    return { parser with buffer := [], state := .headerName }

/-- The size of `buf` in `handle_content_base64` and in `handle_content_quoted_printable`. -/
def contentBufSize : Nat := 512

/-- A decoder for the content: how much it is given at once, and its error. -/
structure ContentDecoder (δ : Type) where
  decode : δ → List UInt8 → Emits Unit UInt8 δ
  chunkSize : Nat
  error : MailStop
  chunkSize_pos : 0 < chunkSize

def base64Content : ContentDecoder Base64Data where
  decode := base64Decode
  chunkSize := base64MaxInputForSize contentBufSize
  error := .error .invalidPadding (ascii "The padding in the base64-encoded data is invalid")
  chunkSize_pos := by decide

def quotedPrintableContent : ContentDecoder QuotedPrintableData where
  decode := quotedPrintableDecode
  chunkSize := contentBufSize
  error := .error .invalidEscape
    (ascii "The quoted-printable data contains an invalid escape sequence")
  chunkSize_pos := by decide

/-- A chunk of the content, with room for so many bytes in `buf`. -/
def contentChunk {δ : Type} (decoder : ContentDecoder δ) (room : Nat) (data : δ)
    (input : List UInt8) : MailResult δ :=
  match decodeInto room (decoder.decode data input) with
  | .error .reject => fail decoder.error
  | .error .abort => fail .overrun
  | .ok (data, octets) => do
    tell [.content octets]
    return data

/-- The loop of `handle_content_base64` and of `handle_content_quoted_printable`. -/
def contentChunks {δ : Type} (decoder : ContentDecoder δ) (room : Nat) (data : δ)
    (input : List UInt8) : MailResult δ :=
  if input = [] then return data
  else do
    let data ← contentChunk decoder room data (input.take decoder.chunkSize)
    contentChunks decoder room data (input.drop decoder.chunkSize)
termination_by input.length
decreasing_by
  rename_i hinput
  have hlength : 0 < input.length := List.length_pos_iff.mpr hinput
  have hchunk := decoder.chunkSize_pos
  rw [List.length_drop]
  omega

/-- `handle_content`, which takes everything. -/
def handleContent (room : Nat) (parser : MailParser) (data : List UInt8) : MailResult MailParser :=
  match parser.encoding with
  | .base64 => do
    let base64Data ← contentChunks base64Content room parser.base64Data data
    return { parser with base64Data }
  | .quotedPrintable => do
    let qpData ← contentChunks quotedPrintableContent room parser.qpData data
    return { parser with qpData }
  | .raw => do
    tell [.content data]
    return parser

/-- The body of the loop of `ntb_mail_parser_parse`. -/
def handle (room : Nat) (parser : MailParser) : List UInt8 → MailResult (MailParser × Nat)
  | [] => return (parser, 0)
  | ch :: data =>
    match parser.state with
    | .headerName => parser.handleHeaderName env (ch :: data)
    | .headerValueStart => return parser.handleHeaderValueStart (ch :: data)
    | .headerValue => parser.handleHeaderValue (ch :: data)
    | .checkEol => do
      let parser ← parser.handleCheckEol ch
      return (parser, 1)
    | .checkContinuation => do
      let parser ← parser.handleCheckContinuation env ch
      return (parser, 0)
    | .content => do
      let parser ← parser.handleContent room (ch :: data)
      return (parser, data.length + 1)

/-- The two states in which nothing may be taken come before others. -/
def rank (parser : MailParser) : Nat :=
  match parser.state with
  | .headerValueStart | .checkContinuation => 1
  | .headerName | .headerValue | .checkEol | .content => 0

theorem handleHeaderName_taken {parser parser' : MailParser} {ch : UInt8} {data : List UInt8}
    {n : Nat} (h : (parser.handleHeaderName env (ch :: data)).value = .ok (parser', n)) :
    0 < n := by
  unfold handleHeaderName at h
  dsimp only at h
  split at h
  next hnone =>
    cases h
    have hlength := List.getElem?_eq_none_iff.mp hnone
    exact (Nat.succ_pos _).trans_le hlength
  next =>
    obtain ⟨_, -, h⟩ := value_bind_eq_ok h
    cases h
    exact Nat.succ_pos _

theorem handleHeaderValueStart_progress {parser : MailParser} {ch : UInt8} {data : List UInt8}
    (hstate : parser.state = .headerValueStart) :
    0 < (parser.handleHeaderValueStart (ch :: data)).2 ∨
      (parser.handleHeaderValueStart (ch :: data)).1.rank < parser.rank := by
  unfold handleHeaderValueStart
  dsimp only
  split
  next => exact .inr (by simp [rank, hstate])
  next hnone => exact .inl ((Nat.succ_pos _).trans_le (Nat.le_of_not_lt hnone))

theorem handleHeaderValue_taken {parser parser' : MailParser} {ch : UInt8} {data : List UInt8}
    {n : Nat} (h : (parser.handleHeaderValue (ch :: data)).value = .ok (parser', n)) : 0 < n := by
  rw [handleHeaderValue] at h
  split_ifs at h
  · obtain ⟨_, -, h⟩ := value_bind_eq_ok h
    cases h
    exact Nat.succ_pos _
  · cases h
  · cases h
    exact Nat.one_pos
  · cases h
    exact Nat.one_pos
  · obtain ⟨_, -, h⟩ := value_bind_eq_ok h
    cases h
    exact Nat.succ_pos _

/-- `ntb_mail_parser_parse` is the loop of this machine with `contentBufSize` as room. -/
def machine (room : Nat) : Machine MailStop MailEvent MailParser UInt8 where
  handle := handle env room
  rank := rank
  progress := by
    intro parser data hdata parser' n h
    cases data with
    | nil => exact absurd rfl hdata
    | cons ch data =>
      unfold handle at h
      dsimp only at h
      split at h
      next => exact .inl (handleHeaderName_taken env h)
      next hstate =>
        have hpair : parser.handleHeaderValueStart (ch :: data) = (parser', n) := Except.ok.inj h
        have hprogress := @handleHeaderValueStart_progress parser ch data hstate
        rwa [hpair] at hprogress
      next => exact .inl (handleHeaderValue_taken h)
      next =>
        obtain ⟨_, -, h⟩ := value_bind_eq_ok h
        cases h
        exact .inl Nat.one_pos
      next hstate =>
        obtain ⟨parser₁, hcheck, h⟩ := value_bind_eq_ok h
        cases h
        unfold handleCheckContinuation at hcheck
        right
        split at hcheck
        · cases hcheck
          simp [rank, hstate]
        · obtain ⟨_, -, hcheck⟩ := value_bind_eq_ok hcheck
          cases hcheck
          simp [rank, hstate]
      next =>
        obtain ⟨_, -, h⟩ := value_bind_eq_ok h
        cases h
        exact .inl (Nat.succ_pos _)

/-- `ntb_mail_parser_parse` -/
def parse (parser : MailParser) (data : List UInt8) : MailResult MailParser :=
  (machine env contentBufSize).drain parser data

/-- `ntb_mail_parser_end` -/
def finish (parser : MailParser) : MailResult Unit :=
  if parser.state ≠ .content then
    invalidHeader "The mail ended before the end of the headers was encountered"
  else
    match parser.encoding with
    | .base64 =>
      match base64DecodeEnd parser.base64Data with
      | none => fail base64Content.error
      | some octets => tell [.content octets]
    | .quotedPrintable =>
      if quotedPrintableDecodeEnd parser.qpData then return () else fail quotedPrintableContent.error
    | .raw => return ()

end MailParser

/-- The parser on a mail that comes in chunks. -/
def parseMail (env : MailEnv) (chunks : List (List UInt8)) : MailResult Unit := do
  let parser ← chunks.foldlM (MailParser.parse env) {}
  parser.finish

end Notbit.Mail
