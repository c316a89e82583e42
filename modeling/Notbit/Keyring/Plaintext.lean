import Notbit.Key
import Notbit.Proto.Objects

/-!
# Plaintext — the unencrypted message and its acknowledgement (`ntb-keyring.c`, `ntb-crypto.c`)

The plaintext is assembled in four steps: `load_message_content_cb` writes the fields,
`add_ackdata_to_message` appends a command with a hole for its length, checksum and nonce,
`ackdata_pow_cb` fills in the nonce and the checksum, and the crypto thread appends the signature.
`plaintext_eq` says what is left when all holes are filled; the receiver's parsers read it back.
-/

open Bytes Traced Traced.Parser Notbit.Proto

namespace Notbit.Keyring

variable {ssl : OpenSSL}

/-! ## 1. Assembling -/

/-- What of a message goes into its plaintext.  `ackTime` is the wall clock with the jitter that is
added to it. -/
structure Outgoing (ssl : OpenSSL) where
  fromKey : Key ssl
  toAddress : Address
  contentEncoding : CInt
  content : List UInt8
  ackdata : List UInt8
  length_ackdata : ackdata.length = ackdataSize
  ackTime : Int

/-- The name of the command in its 12-byte field. -/
def msgCommandName : List UInt8 := [0x6d, 0x73, 0x67, 0, 0, 0, 0, 0, 0, 0, 0, 0]

/-- The fields `load_message_content_cb` writes before the acknowledgement. -/
def contentFields (m : Outgoing ssl) : Buffer :=
  addVarInt 1 ++ addVarInt m.fromKey.address.version ++ addVarInt m.fromKey.address.stream ++
    add32 pubkeyBehaviors ++ addPublicKey ssl m.fromKey.signingKey ++
    addPublicKey ssl m.fromKey.encryptionKey ++
    (if m.fromKey.address.version ≥ 3 then
      addVarInt (toUInt64 m.fromKey.nonceTrialsPerByte.val) ++
        addVarInt (toUInt64 m.fromKey.payloadLengthExtraBytes.val)
    else []) ++
    m.toAddress.ripe ++ addVarInt (toUInt64 m.contentEncoding.val) ++
    addVarInt m.content.length ++ m.content

/-- A blob under construction, and where the acknowledgement stands in its data. -/
structure MessageBlob where
  data : Buffer
  ackdataOffset : Nat
  ackdataLength : Nat
  deriving DecidableEq

/-- `add_ackdata_to_message`; `none` when its assertion fails.  The result is the whole buffer, of
which the first `messageOffset` bytes are the header of the blob. -/
def addAckdataToMessage (fill : Memory) (m : Outgoing ssl) (messageOffset : Nat)
    (buffer : Buffer) : Option MessageBlob :=
  -- space for the length of the acknowledgement
  let buffer := setLength fill buffer (buffer.length + 1)
  let ackOffset := buffer.length
  let buffer := buffer ++ magic
  let buffer := buffer ++ msgCommandName
  -- space for the message length, checksum and nonce
  let buffer := setLength fill buffer (buffer.length + 4 + 4 + 8)
  let buffer := buffer ++ add64 (toUInt64 m.ackTime)
  let buffer := buffer ++ addVarInt m.fromKey.address.stream
  let buffer := buffer ++ m.ackdata
  let msgLength := (buffer.length - ackOffset) % 2 ^ 32
  if msgLength < 0xfd then
    let buffer := patch buffer (ackOffset - 1) [UInt8.ofNat msgLength]
    let payloadLength := (msgLength + 2 ^ 32 - headerSize) % 2 ^ 32
    let buffer := patch buffer (ackOffset + 16) (add32 payloadLength)
    some { data := buffer, ackdataOffset := ackOffset - messageOffset, ackdataLength := msgLength }
  else none

/-- `load_message_content_cb`: `header` is the space `ntb_blob_dynamic_init` leaves for the blob's
own fields, which `ntb_blob_dynamic_end` takes off again. -/
def loadMessageContent (fill : Memory) (header : Buffer) (m : Outgoing ssl) :
    Option MessageBlob :=
  (addAckdataToMessage fill m header.length (header ++ contentFields m)).map fun b =>
    { b with data := b.data.drop header.length }

/-- `ackdata_pow_cb`: the nonce goes behind the command's header, and the checksum into it. -/
def ackdataPowCb (ssl : OpenSSL) (nonce : Nat) (b : MessageBlob) : MessageBlob :=
  let data := patch b.data (b.ackdataOffset + headerSize) (toBE 8 nonce)
  let payload := (data.drop (b.ackdataOffset + headerSize)).take (b.ackdataLength - headerSize)
  { b with data := patch data (b.ackdataOffset + 20) ((ssl.sha512 payload).take 4) }

/-- The bytes that `handle_create_msg_blob` encrypts. -/
def plaintext (m : Outgoing ssl) (content : Buffer) : Buffer :=
  content ++ appendSignature ssl m.fromKey.signingKey content

/-! ## 2. What is left when the holes are filled -/

/-- The object inside the acknowledgement. -/
def ackPayload (m : Outgoing ssl) (nonce : Nat) : List UInt8 :=
  toBE 8 nonce ++ add64 (toUInt64 m.ackTime) ++ addVarInt m.fromKey.address.stream ++ m.ackdata

/-- A command: magic, name, length and checksum of the payload, payload. -/
def command (ssl : OpenSSL) (name payload : List UInt8) : List UInt8 :=
  magic ++ name ++ add32 payload.length ++ (ssl.sha512 payload).take 4 ++ payload

def ack (m : Outgoing ssl) (nonce : Nat) : List UInt8 :=
  command ssl msgCommandName (ackPayload m nonce)

theorem length_checksum (ssl : OpenSSL) (data : List UInt8) :
    ((ssl.sha512 data).take 4).length = 4 := by
  rw [List.length_take, ssl.length_sha512]
  rfl

theorem length_ackPayload (m : Outgoing ssl) (nonce : Nat) :
    (ackPayload m nonce).length = 48 + (addVarInt m.fromKey.address.stream).length := by
  simp only [ackPayload, List.length_append, length_toBE, add64, m.length_ackdata, ackdataSize]
  omega

theorem length_ack (m : Outgoing ssl) (nonce : Nat) :
    (ack m nonce).length = 72 + (addVarInt m.fromKey.address.stream).length := by
  have hsum := length_checksum ssl (ackPayload m nonce)
  simp only [ack, command, List.length_append, hsum, length_ackPayload, add32, length_toBE]
  simp only [magic, msgCommandName, List.length_cons, List.length_nil]
  omega

-- The length byte holds the length for every stream number.
theorem length_ack_lt (m : Outgoing ssl) (nonce : Nat) : (ack m nonce).length < 0xfd := by
  have h := length_addVarInt_le m.fromKey.address.stream
  rw [length_ack]
  omega

/-- What follows the nonce in the acknowledgement. -/
def ackTail (m : Outgoing ssl) : List UInt8 :=
  add64 (toUInt64 m.ackTime) ++ addVarInt m.fromKey.address.stream ++ m.ackdata

/-- The length of the acknowledgement, header included. -/
def ackLength (m : Outgoing ssl) : Nat := 72 + (addVarInt m.fromKey.address.stream).length

theorem length_ackTail (m : Outgoing ssl) : (ackTail m).length + 32 = ackLength m := by
  simp only [ackTail, ackLength, List.length_append, add64, length_toBE, m.length_ackdata,
    ackdataSize]
  omega

theorem ackLength_lt (m : Outgoing ssl) : ackLength m < 0xfd := by
  have h := length_addVarInt_le m.fromKey.address.stream
  unfold ackLength
  omega

theorem setLength_add (fill : Memory) (buffer : Buffer) (n : Nat) :
    setLength fill buffer (buffer.length + n) = buffer ++ window fill buffer.length n := by
  rw [setLength, Nat.add_sub_cancel_left]

/-- The acknowledgement with holes for the checksum and the nonce. -/
theorem addAckdataToMessage_eq (fill : Memory) (m : Outgoing ssl) (messageOffset : Nat)
    (buffer : Buffer) :
    ∃ sumHole nonceHole : Buffer, sumHole.length = 4 ∧ nonceHole.length = 8 ∧
      addAckdataToMessage fill m messageOffset buffer = some
        { data := buffer ++ [UInt8.ofNat (ackLength m)] ++ magic ++ msgCommandName ++
            add32 (ackLength m - headerSize) ++ sumHole ++ nonceHole ++ ackTail m
          ackdataOffset := buffer.length + 1 - messageOffset
          ackdataLength := ackLength m } := by
  have htail := length_ackTail m
  have hlt := ackLength_lt m
  obtain ⟨gap, hgap⟩ : ∃ gap, window fill buffer.length 1 = gap := ⟨_, rfl⟩
  have hgapLen : gap.length = 1 := by rw [← hgap, length_window]
  let head := buffer ++ gap ++ magic ++ msgCommandName
  let lengthHole := window fill head.length 4
  let sumHole := window fill (head.length + 4) 4
  let nonceHole := window fill (head.length + 4 + 4) 8
  refine ⟨sumHole, nonceHole, length_window _ _ _, length_window _ _ _, ?_⟩
  have hhead : head.length = buffer.length + 17 := by
    simp only [head, List.length_append, hgapLen, magic, msgCommandName, List.length_cons,
      List.length_nil]
  have hspace : setLength fill head (head.length + 4 + 4 + 8) =
      head ++ lengthHole ++ sumHole ++ nonceHole := by
    rw [Nat.add_assoc, Nat.add_assoc, setLength_add, ← Nat.add_assoc, window_add, window_add,
      ← List.append_assoc, ← List.append_assoc]
  have hfull : head ++ lengthHole ++ sumHole ++ nonceHole ++ add64 (toUInt64 m.ackTime) ++
      addVarInt m.fromKey.address.stream ++ m.ackdata =
        buffer ++ gap ++ (magic ++ msgCommandName ++ lengthHole ++ sumHole ++ nonceHole ++
          ackTail m) := by
    simp only [head, ackTail, List.append_assoc]
  have hsize : (buffer ++ gap ++ (magic ++ msgCommandName ++ lengthHole ++ sumHole ++ nonceHole ++
      ackTail m)).length - (buffer ++ gap).length = ackLength m := by
    rw [List.length_append, Nat.add_sub_cancel_left]
    simp only [List.length_append, lengthHole, sumHole, nonceHole, length_window, magic,
      msgCommandName, List.length_cons, List.length_nil]
    omega
  have hcommand : patch (buffer ++ [UInt8.ofNat (ackLength m)] ++ (magic ++ msgCommandName ++
      lengthHole ++ sumHole ++ nonceHole ++ ackTail m)) (buffer.length + 1 + 16)
        (add32 (ackLength m - headerSize)) =
      buffer ++ [UInt8.ofNat (ackLength m)] ++ magic ++ msgCommandName ++
        add32 (ackLength m - headerSize) ++ sumHole ++ nonceHole ++ ackTail m := by
    have hsplit : buffer ++ [UInt8.ofNat (ackLength m)] ++ (magic ++ msgCommandName ++
        lengthHole ++ sumHole ++ nonceHole ++ ackTail m) =
          (buffer ++ [UInt8.ofNat (ackLength m)] ++ magic ++ msgCommandName) ++ lengthHole ++
            (sumHole ++ nonceHole ++ ackTail m) := by
      simp only [List.append_assoc]
    rw [hsplit, patch_append]
    · simp only [List.append_assoc]
    · simp only [List.length_append, magic, msgCommandName, List.length_cons, List.length_nil]
    · rw [length_window, add32, length_toBE]
  unfold addAckdataToMessage
  dsimp only
  rw [setLength_add, hgap, hspace, hfull, hsize, Nat.mod_eq_of_lt (by omega), if_pos hlt]
  have hoffset : (buffer ++ gap).length = buffer.length + 1 := by
    rw [List.length_append, hgapLen]
  have hpayload : (ackLength m + 2 ^ 32 - headerSize) % 2 ^ 32 = ackLength m - headerSize := by
    unfold headerSize
    omega
  rw [hoffset, Nat.add_sub_cancel, patch_append rfl (by rw [hgapLen]; rfl), hpayload, hcommand]

/-- Once the nonce and the checksum are in, the blob is the message with its acknowledgement. -/
theorem ackdataPowCb_loadMessageContent (fill : Memory) (header : Buffer) (m : Outgoing ssl)
    (nonce : Nat) : ∃ b, loadMessageContent fill header m = some b ∧
      (ackdataPowCb ssl nonce b).data =
        contentFields m ++ [UInt8.ofNat (ack m nonce).length] ++ ack m nonce := by
  obtain ⟨sumHole, nonceHole, hsum, hnonce, heq⟩ :=
    addAckdataToMessage_eq fill m header.length (header ++ contentFields m)
  have htail := length_ackTail m
  let before := contentFields m ++ [UInt8.ofNat (ackLength m)] ++ magic ++ msgCommandName ++
    add32 (ackLength m - headerSize)
  have hbefore : before.length = (contentFields m).length + 21 := by
    simp only [before, List.length_append, add32, length_toBE, magic, msgCommandName,
      List.length_cons, List.length_nil]
  have hhole : (before ++ sumHole).length = (contentFields m).length + 1 + headerSize := by
    rw [List.length_append, hbefore, hsum]
    unfold headerSize
    omega
  refine ⟨{ data := before ++ sumHole ++ nonceHole ++ ackTail m
            ackdataOffset := (contentFields m).length + 1
            ackdataLength := ackLength m }, ?_, ?_⟩
  · have hoffset : (header ++ contentFields m).length + 1 - header.length =
        (contentFields m).length + 1 := by
      rw [List.length_append]
      omega
    rw [loadMessageContent, heq, Option.map_some, hoffset]
    simp only [before, List.append_assoc, List.drop_left]
  · have hpatch₁ : patch (before ++ sumHole ++ nonceHole ++ ackTail m)
        ((contentFields m).length + 1 + headerSize) (toBE 8 nonce) =
          before ++ sumHole ++ toBE 8 nonce ++ ackTail m := by
      apply patch_append hhole
      rw [hnonce, length_toBE]
    have hpayload : ((before ++ sumHole ++ toBE 8 nonce ++ ackTail m).drop
        ((contentFields m).length + 1 + headerSize)).take (ackLength m - headerSize) =
          ackPayload m nonce := by
      rw [List.append_assoc, List.drop_left' hhole, List.take_of_length_le]
      · simp only [ackPayload, ackTail, List.append_assoc]
      · rw [List.length_append, length_toBE]
        unfold headerSize
        omega
    have hpatch₂ : patch (before ++ sumHole ++ toBE 8 nonce ++ ackTail m)
        ((contentFields m).length + 1 + 20) ((ssl.sha512 (ackPayload m nonce)).take 4) =
          before ++ (ssl.sha512 (ackPayload m nonce)).take 4 ++ (toBE 8 nonce ++ ackTail m) := by
      rw [List.append_assoc]
      apply patch_append
      · rw [hbefore]
      · rw [hsum, length_checksum]
    have hlen : ackLength m - headerSize = (ackPayload m nonce).length := by
      rw [length_ackPayload]
      unfold ackLength headerSize
      omega
    have hack : (ack m nonce).length = ackLength m := length_ack m nonce
    unfold ackdataPowCb
    dsimp only
    rw [hpatch₁, hpayload, hpatch₂, hack]
    simp only [before, hlen, ack, command, ackPayload, ackTail, List.append_assoc]

/-! ## 3. The receiver's view -/

/-- The fields a receiver is told are those of the sender.  A sender below version 3 has no
difficulty of its own. -/
structure MatchesSender (mem : Memory) (msg : DecryptedMsg) (m : Outgoing ssl) : Prop where
  messageVersion : msg.messageVersion = 1
  version : msg.senderAddressVersion = m.fromKey.address.version
  stream : msg.senderStreamNumber = m.fromKey.address.stream
  behaviors : msg.senderBehaviors = pubkeyBehaviors
  signingKey : window mem msg.senderSigningKey 64 = addPublicKey ssl m.fromKey.signingKey
  encryptionKey : window mem msg.senderEncryptionKey 64 = addPublicKey ssl m.fromKey.encryptionKey
  nonceTrialsPerByte : (msg.nonceTrialsPerByte : Int) =
    if m.fromKey.address.version ≥ 3 then m.fromKey.nonceTrialsPerByte.val
    else minNonceTrialsPerByte
  extraBytes : (msg.extraBytes : Int) =
    if m.fromKey.address.version ≥ 3 then m.fromKey.payloadLengthExtraBytes.val
    else minExtraBytes
  ripe : window mem msg.destinationRipe 20 = m.toAddress.ripe
  encoding : msg.encoding = toUInt64 m.contentEncoding.val
  content : window mem msg.message msg.messageLength = m.content

/-- The acknowledgement is a complete msg command, and what `handle_msg` passes to
`check_msg_acknowledgement` for it is the ackdata. -/
structure AckWellFormed (ssl : OpenSSL) (mem : Memory) (msg : DecryptedMsg) (stream : Nat)
    (ackdata : List UInt8) : Prop where
  magic : window mem msg.ack 4 = magic
  name : window mem (msg.ack + 4) 12 = msgCommandName ∧ checkCommandString msgCommandName
  length : ofBE (window mem (msg.ack + 16) 4) + headerSize = msg.ackLength
  checksum : window mem (msg.ack + 20) 4 =
    (ssl.sha512 (window mem (msg.ack + headerSize) (msg.ackLength - headerSize))).take 4
  remaining : ∃ nonce time n,
    (getCommand (msg.ack + headerSize) (msg.ackLength - headerSize) msgHeader).value mem =
        .ok ([.num nonce, .num time, .num stream], n) ∧
      window mem (msg.ack + headerSize + n) (msg.ackLength - headerSize - n) = ackdata

/-- The message is assembled, and wherever its plaintext is stored the receiver's parser succeeds
on it, finds everything the sender put in, and takes as signed what the sender signed. -/
def DecodesToSender (fill : Memory) (header : Buffer) (m : Outgoing ssl) (nonce : Nat) : Prop :=
  ∃ b, loadMessageContent fill header m = some b ∧
    let signed := (ackdataPowCb ssl nonce b).data
    ∀ (mem : Memory) (p : Nat), Holds mem p (plaintext m signed) →
      ∃ msg, (getDecryptedMsg p (plaintext m signed).length).value mem = .ok msg ∧
        MatchesSender mem msg m ∧
        msg.signedDataLength = signed.length ∧
        window mem p msg.signedDataLength = signed ∧
        window mem msg.sig msg.sigLength =
          ssl.ecdsaSign m.fromKey.signingKey (ssl.sha1 signed) ∧
        AckWellFormed ssl mem msg m.fromKey.address.stream m.ackdata

/-! ## 4. The receiver reads back what was assembled -/

/-- The message with everything filled in: the bytes that are signed. -/
def signedPart (m : Outgoing ssl) (nonce : Nat) : List UInt8 :=
  contentFields m ++ [UInt8.ofNat (ack m nonce).length] ++ ack m nonce

def Outgoing.fields (m : Outgoing ssl) (nonce : Nat) : MessageFields where
  messageVersion := 1
  senderAddressVersion := m.fromKey.address.version
  senderStreamNumber := m.fromKey.address.stream
  senderBehaviors := pubkeyBehaviors
  signingKey := addPublicKey ssl m.fromKey.signingKey
  encryptionKey := addPublicKey ssl m.fromKey.encryptionKey
  nonceTrialsPerByte := toUInt64 m.fromKey.nonceTrialsPerByte.val
  extraBytes := toUInt64 m.fromKey.payloadLengthExtraBytes.val
  ripe := m.toAddress.ripe
  encoding := toUInt64 m.contentEncoding.val
  content := m.content
  ack := ack m nonce

variable {m : Outgoing ssl} {nonce : Nat}

theorem Outgoing.fields_encode (m : Outgoing ssl) (nonce : Nat) :
    (m.fields nonce).encode = signedPart m nonce := by
  have hlen : addVarInt (ack m nonce).length = [UInt8.ofNat (ack m nonce).length] :=
    addVarInt_of_lt (length_ack_lt m nonce)
  simp only [MessageFields.encode, MessageFields.header, MessageFields.keys,
    MessageFields.difficulty, MessageFields.contentHeader, fields, signedPart, contentFields, hlen,
    List.append_assoc, List.append_nil]

theorem Outgoing.fields_fit (hlen : m.content.length < 2 ^ 64) : (m.fields nonce).Fit where
  messageVersion := show 1 < 2 ^ 64 by norm_num
  senderAddressVersion := m.fromKey.address.version_lt.trans (by norm_num)
  senderStreamNumber := m.fromKey.address.stream_lt.trans (by norm_num)
  senderBehaviors := show 1 < 2 ^ 32 by norm_num
  signingKey := length_addPublicKey ssl _
  encryptionKey := length_addPublicKey ssl _
  nonceTrialsPerByte := toUInt64_lt _
  extraBytes := toUInt64_lt _
  ripe := m.toAddress.length_ripe
  encoding := toUInt64_lt _
  content := hlen
  ack := lt_trans (length_ack_lt m nonce) (by norm_num)

theorem toUInt64_of_nonneg {v : CInt} (hv : 0 ≤ v.val) : (toUInt64 v.val : Int) = v.val := by
  have h := v.upper
  unfold toUInt64
  omega

-- What the receiver's fields say, for a sender whose difficulty is not negative.
theorem Outgoing.matchesSender {mem : Memory} {p len sigAt sigLen : Nat}
    (htrials : 0 ≤ m.fromKey.nonceTrialsPerByte.val)
    (hextra : 0 ≤ m.fromKey.payloadLengthExtraBytes.val)
    (hlen : m.content.length < 2 ^ 64) (hmem : Holds mem p (m.fields nonce).encode) :
    MatchesSender mem { (m.fields nonce).bodyAt p with
      signedDataLength := len, sig := sigAt, sigLength := sigLen } m := by
  obtain ⟨hsigning, hencryption, hripe, hcontent, -⟩ := (fields_fit hlen).windows hmem
  have hseen : (m.fields nonce).seenDifficulty = if m.fromKey.address.version ≥ 3 then
      (toUInt64 m.fromKey.nonceTrialsPerByte.val, toUInt64 m.fromKey.payloadLengthExtraBytes.val)
      else (minNonceTrialsPerByte, minExtraBytes) := rfl
  refine ⟨rfl, rfl, rfl, rfl, hsigning, hencryption, ?_, ?_, hripe, rfl, hcontent⟩
  · change (((m.fields nonce).seenDifficulty.1 : Nat) : Int) = _
    rw [hseen]
    by_cases hv : m.fromKey.address.version ≥ 3
    · rw [if_pos hv, if_pos hv]
      exact toUInt64_of_nonneg htrials
    · rw [if_neg hv, if_neg hv]
  · change (((m.fields nonce).seenDifficulty.2 : Nat) : Int) = _
    rw [hseen]
    by_cases hv : m.fromKey.address.version ≥ 3
    · rw [if_pos hv, if_pos hv]
      exact toUInt64_of_nonneg hextra
    · rw [if_neg hv, if_neg hv]

/-- The payload of the acknowledgement is a msg header followed by the ackdata, as long as the time
fits the 32 bits that the header's reader gives it. -/
theorem ackPayload_header {mem : Memory} {p : Nat} (hmem : Holds mem p (ackPayload m nonce))
    (htime : 0 ≤ m.ackTime) (htime' : m.ackTime < 2 ^ 32) :
    ∃ n, (getCommand p (ackPayload m nonce).length msgHeader).value mem = .ok
        ([.num (nonce % 2 ^ 64), .num m.ackTime.toNat, .num m.fromKey.address.stream], n) ∧
      window mem (p + n) ((ackPayload m nonce).length - n) = m.ackdata := by
  have htoNat : toUInt64 m.ackTime = m.ackTime.toNat := by
    unfold toUInt64
    omega
  have hlen := length_ackPayload m nonce
  have hvar := length_addVarInt_le m.fromKey.address.stream
  let header := add64 nonce ++ (add64 m.ackTime.toNat ++
    (addVarInt m.fromKey.address.stream ++ []))
  have hsplit : ackPayload m nonce = header ++ m.ackdata := by
    simp only [ackPayload, header, add64, htoNat, List.append_assoc, List.append_nil]
  have hencodes : Encodes msgHeader
      [.num (nonce % 2 ^ 64), .num m.ackTime.toNat, .num m.fromKey.address.stream] header :=
    .cons (reads_u64 nonce) (.cons (reads_timestamp (by omega))
      (.cons (reads_varInt (m.fromKey.address.stream_lt.trans (by norm_num))) .nil))
  have hack := m.length_ackdata
  rw [hsplit, holds_append] at hmem
  have htotal : (ackPayload m nonce).length = header.length + m.ackdata.length := by
    rw [hsplit, List.length_append]
  refine ⟨header.length, ?_, ?_⟩
  · exact getCommand_value hencodes hmem.1 (by omega) (by omega)
  · rw [htotal, Nat.add_sub_cancel_left]
    exact hmem.2

/-- The acknowledgement inside a decoded message passes every check of a received command. -/
theorem ack_wellFormed {mem : Memory} {msg : DecryptedMsg}
    (hat : Holds mem msg.ack (ack m nonce)) (hlen : msg.ackLength = (ack m nonce).length)
    (htime : 0 ≤ m.ackTime) (htime' : m.ackTime < 2 ^ 32) :
    AckWellFormed ssl mem msg m.fromKey.address.stream m.ackdata := by
  have hpayload := length_ackPayload m nonce
  have hvar := length_addVarInt_le m.fromKey.address.stream
  have hsize : msg.ackLength - headerSize = (ackPayload m nonce).length := by
    rw [hlen, length_ack, hpayload]
    unfold headerSize
    omega
  simp only [ack, command, List.append_assoc, holds_append] at hat
  obtain ⟨hmagic, hname, hlength, hsum, hdata⟩ := hat
  have hdata : Holds mem (msg.ack + headerSize) (ackPayload m nonce) := by
    rw [length_checksum, add32, length_toBE] at hdata
    exact hdata
  constructor
  · exact hmagic
  · exact ⟨hname, by decide⟩
  · have hnumber := ofBE_window_toBE hlength (by omega)
    rw [show msg.ack + 16 = msg.ack + magic.length + msgCommandName.length from rfl, hnumber,
      ← hsize, hlen, length_ack]
    unfold headerSize
    omega
  · rw [hsize, hdata.window_eq rfl]
    rw [add32, length_toBE] at hsum
    exact hsum.window_eq (length_checksum ssl _)
  · obtain ⟨n, hparse, hrest⟩ := ackPayload_header hdata htime htime'
    rw [← hsize] at hparse hrest
    exact ⟨_, _, n, hparse, hrest⟩

/-- The plaintext of every message that fits is decoded to what its sender put in, at every time
that the protocol's timestamps can tell. -/
theorem plaintext_decodes (fill : Memory) (header : Buffer) (m : Outgoing ssl) (nonce : Nat)
    (htrials : 0 ≤ m.fromKey.nonceTrialsPerByte.val)
    (hextra : 0 ≤ m.fromKey.payloadLengthExtraBytes.val)
    (hfits : (plaintext m (signedPart m nonce)).length < 2 ^ 31)
    (htime : 0 ≤ m.ackTime ∧ m.ackTime < 2 ^ 32) : DecodesToSender fill header m nonce := by
  obtain ⟨b, hload, hdata⟩ := ackdataPowCb_loadMessageContent fill header m nonce
  refine ⟨b, hload, ?_⟩
  dsimp only
  rw [show (ackdataPowCb ssl nonce b).data = signedPart m nonce from hdata]
  intro mem p hmem
  have hcontent : m.content.length < 2 ^ 64 := by
    simp only [plaintext, signedPart, contentFields, List.length_append] at hfits
    omega
  have hfit : (m.fields nonce).Fit := Outgoing.fields_fit hcontent
  have hencode := m.fields_encode nonce
  have hsigned : Holds mem p (m.fields nonce).encode := by
    rw [hencode]
    exact ((holds_append _ _ _ _).mp hmem).1
  let sig := ssl.ecdsaSign m.fromKey.signingKey (ssl.sha1 (signedPart m nonce))
  have hwhole : (m.fields nonce).encode ++ (addVarInt sig.length ++ sig) =
      plaintext m (signedPart m nonce) := by
    rw [hencode]
    rfl
  have hvalue := getDecryptedMsg_value hfit (hwhole ▸ hmem) (congrArg List.length hwhole) hfits
  refine ⟨_, hvalue, Outgoing.matchesSender htrials hextra hcontent hsigned, ?_, ?_, ?_, ?_⟩
  · rw [hencode]
  · exact hencode ▸ hsigned
  · rw [← hwhole, holds_append, holds_append] at hmem
    exact hmem.2.2
  · have hack : window mem ((m.fields nonce).bodyAt p).ack (ack m nonce).length = ack m nonce :=
      (hfit.windows hsigned).2.2.2.2
    exact ack_wellFormed hack rfl htime.1 htime.2

/-- A two-byte message between keys of version 4 on stream 1, with its acknowledgement created at
`ackTime`. -/
def sampleMessage (ackTime : Int) : Outgoing OpenSSL.additive where
  fromKey :=
    { address := ⟨4, 1, List.replicate 20 7, Address.four_lt, Address.one_lt, rfl⟩
      nonceTrialsPerByte := leastTrials
      payloadLengthExtraBytes := leastExtraBytes
      lastPubkeySendTime := 0
      signingKey := (5 : Fin (2 ^ 256))
      encryptionKey := (6 : Fin (2 ^ 256)) }
  toAddress := ⟨4, 1, List.replicate 20 9, Address.four_lt, Address.one_lt, rfl⟩
  contentEncoding := ⟨2, by norm_num, by norm_num⟩
  content := [0x68, 0x69]
  ackdata := List.replicate 32 0xaa
  length_ackdata := rfl
  ackTime := ackTime

theorem sampleMessage_decodes :
    DecodesToSender (fun _ => 0) [] (sampleMessage 1400000000) 77 :=
  plaintext_decodes _ _ _ _ (by decide) (by decide) (by decide +kernel) (by decide)

/-- The same message one second after the last time that fits 32 bits. -/
def lateText : Buffer := plaintext (sampleMessage (2 ^ 32)) (signedPart (sampleMessage (2 ^ 32)) 77)

def lateMsg : DecryptedMsg :=
  { messageVersion := 1, senderAddressVersion := 4, senderStreamNumber := 1, senderBehaviors := 1
    senderSigningKey := 7, senderEncryptionKey := 71, nonceTrialsPerByte := 320, extraBytes := 14000
    destinationRipe := 141, encoding := 2, message := 163, messageLength := 2, ack := 166
    ackLength := 73, signedDataLength := 239, sig := 240, sigLength := 52 }

/-- From 2^32 on the high half of the time is not zero, and the reader of the header stops after
it: it takes the low half for the stream number. -/
theorem sampleMessage_late_ack :
    ¬ DecodesToSender (fun _ => 0) [] (sampleMessage (2 ^ 32)) 77 := by
  have hdecoded : (getDecryptedMsg 0 lateText.length).value (ofList lateText) = .ok lateMsg := by
    decide +kernel
  have hheader : (getCommand (lateMsg.ack + headerSize) (lateMsg.ackLength - headerSize)
      msgHeader).value (ofList lateText) = .ok ([.num 77, .num 1, .num 0], 13) := by
    decide +kernel
  rintro ⟨b, hload, hdecodes⟩
  obtain ⟨b', hload', hdata⟩ :=
    ackdataPowCb_loadMessageContent (fun _ => 0) [] (sampleMessage (2 ^ 32)) 77
  obtain rfl : b' = b := Option.some.inj (hload'.symm.trans hload)
  dsimp only at hdecodes
  rw [hdata] at hdecodes
  obtain ⟨msg, hvalue, -, -, -, -, hack⟩ := hdecodes (ofList lateText) 0 (holds_ofList lateText)
  obtain rfl : lateMsg = msg := Except.ok.inj (hdecoded.symm.trans hvalue)
  obtain ⟨nonce, time, n, hparse, -⟩ := hack.remaining
  have hstream := congrArg Prod.fst (Except.ok.inj (hheader.symm.trans hparse))
  simp only [List.cons.injEq, ArgValue.num.injEq] at hstream
  exact absurd hstream.2.2.1 (by decide)

end Notbit.Keyring
