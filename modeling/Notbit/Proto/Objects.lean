import Notbit.Proto.Command

/-!
# Objects — the parsers of decrypted messages and of pubkey objects (`ntb-proto.c`)

Both walk the input with a pointer and a `uint32_t` remaining length and return addresses inside
it.  The last field of either is a signature that has to end exactly where the input does, so each
is split here into the part before the signature, which is read back from its bytes wherever they
stand (`ReadsFrom`), and the test of the end.
-/

open Bytes Traced Traced.Parser

namespace Notbit.Proto

/-! ## 1. Pieces the parsers share -/

/-- The address of the next `n` bytes, refused when fewer are left. -/
def getPointer (n : Nat) (c : Cursor) : Parser (Nat × Cursor) :=
  if c.len < n then reject
  else do
    let c' ← moveTo (c.advance 32 n)
    return (c.pos, c')

/-- A call of `ntb_proto_get_command` on the rest of the input, and the step over what it took. -/
def getNumbers (args : List Argument) (c : Cursor) : Parser (List ArgValue × Cursor) := do
  let (vs, headerSize) ← getCommand c.pos c.len args
  let c' ← moveTo (c.advance 32 headerSize)
  return (vs, c')

theorem readsAt_getPointer {start n : Nat} {bs : List UInt8} (h : bs.length = n) :
    ReadsAt (2 ^ 31) start (getPointer n) bs start := by
  intro mem c hpos _ hlen hc
  subst h
  rw [getPointer, if_neg (by omega), value_bind_of_ok (value_moveTo _ _), value_pure, hpos,
    Cursor.advance_of_le hlen (by omega)]

theorem reads_getNumbers {args : List Argument} {vs : List ArgValue} {bs : List UInt8}
    (h : Encodes args vs bs) : Reads (2 ^ 31) (getNumbers args) bs vs := by
  intro mem c hmem hlen hc
  rw [getNumbers, value_bind_of_ok (getCommand_value h hmem hlen hc),
    value_bind_of_ok (value_moveTo _ _), value_pure, Cursor.advance_of_le hlen (by omega)]

/-- The header of a msg object as `handle_msg` reads it: nonce, time and stream. -/
def msgHeader : List Argument := [.u64, .timestamp, .varInt]

/-! ## 2. Decrypted messages -/

/-- The fields of `struct ntb_proto_decrypted_msg` before the signature. -/
structure MessageBody where
  messageVersion : Nat
  senderAddressVersion : Nat
  senderStreamNumber : Nat
  senderBehaviors : Nat
  senderSigningKey : Nat
  senderEncryptionKey : Nat
  nonceTrialsPerByte : Nat
  extraBytes : Nat
  destinationRipe : Nat
  encoding : Nat
  message : Nat
  messageLength : Nat
  ack : Nat
  ackLength : Nat
  deriving DecidableEq, Repr

/-- `struct ntb_proto_decrypted_msg` -/
structure DecryptedMsg extends MessageBody where
  signedDataLength : Nat
  sig : Nat
  sigLength : Nat
  deriving DecidableEq, Repr

/-- The optional section: senders below version 3 announce no difficulty. -/
def getDifficulty (senderAddressVersion : Nat) (c : Cursor) : Parser ((Nat × Nat) × Cursor) :=
  if senderAddressVersion ≥ 3 then do
    let (vs, c) ← getNumbers [.varInt, .varInt] c
    match vs with
    | [.num nonceTrialsPerByte, .num extraBytes] => return ((nonceTrialsPerByte, extraBytes), c)
    | _ => stop .abort
  else return ((minNonceTrialsPerByte, minExtraBytes), c)

def getMessageBody (c : Cursor) : Parser (MessageBody × Cursor) := do
  let (header, c) ← getNumbers [.varInt, .varInt, .varInt, .u32] c
  match header with
  | [.num messageVersion, .num senderAddressVersion, .num senderStreamNumber,
      .num senderBehaviors] =>
    let (keys, c) ← getPointer (64 * 2) c
    let (difficulty, c) ← getDifficulty senderAddressVersion c
    let (destinationRipe, c) ← getPointer 20 c
    let (content, c) ← getNumbers [.varInt, .varInt] c
    match content with
    | [.num encoding, .num messageLength] =>
      let (message, c) ← getPointer messageLength c
      let (ackLength, c) ← getVarInt c
      let (ack, c) ← getPointer ackLength c
      return ({ messageVersion, senderAddressVersion, senderStreamNumber, senderBehaviors
                senderSigningKey := keys
                senderEncryptionKey := keys + 64
                nonceTrialsPerByte := difficulty.1
                extraBytes := difficulty.2
                destinationRipe, encoding, message, messageLength, ack, ackLength }, c)
    | _ => stop .abort
  | _ => stop .abort

/-- `ntb_proto_get_decrypted_msg` -/
def getDecryptedMsg (data dataLength : Nat) : Parser DecryptedMsg := do
  let (body, c) ← getMessageBody { pos := data, len := dataLength }
  let signedDataLength := c.pos - data
  let (sigLength, c) ← getVarInt c
  if c.len ≠ sigLength then reject
  else return { body with signedDataLength, sig := c.pos, sigLength }

/-- What a sender puts into a message. -/
structure MessageFields where
  messageVersion : Nat
  senderAddressVersion : Nat
  senderStreamNumber : Nat
  senderBehaviors : Nat
  signingKey : List UInt8
  encryptionKey : List UInt8
  nonceTrialsPerByte : Nat
  extraBytes : Nat
  ripe : List UInt8
  encoding : Nat
  content : List UInt8
  ack : List UInt8

/-- Every number fits its type and every fixed-size field has its size. -/
structure MessageFields.Fit (f : MessageFields) : Prop where
  messageVersion : f.messageVersion < 2 ^ 64
  senderAddressVersion : f.senderAddressVersion < 2 ^ 64
  senderStreamNumber : f.senderStreamNumber < 2 ^ 64
  senderBehaviors : f.senderBehaviors < 2 ^ 32
  signingKey : f.signingKey.length = 64
  encryptionKey : f.encryptionKey.length = 64
  nonceTrialsPerByte : f.nonceTrialsPerByte < 2 ^ 64
  extraBytes : f.extraBytes < 2 ^ 64
  ripe : f.ripe.length = 20
  encoding : f.encoding < 2 ^ 64
  content : f.content.length < 2 ^ 64
  ack : f.ack.length < 2 ^ 64

def MessageFields.header (f : MessageFields) : List UInt8 :=
  addVarInt f.messageVersion ++ (addVarInt f.senderAddressVersion ++
    (addVarInt f.senderStreamNumber ++ (add32 f.senderBehaviors ++ [])))

def MessageFields.keys (f : MessageFields) : List UInt8 := f.signingKey ++ f.encryptionKey

def MessageFields.difficulty (f : MessageFields) : List UInt8 :=
  if f.senderAddressVersion ≥ 3 then
    addVarInt f.nonceTrialsPerByte ++ (addVarInt f.extraBytes ++ [])
  else []

/-- The difficulty a receiver sees: senders below version 3 are given the network minima. -/
def MessageFields.seenDifficulty (f : MessageFields) : Nat × Nat :=
  if f.senderAddressVersion ≥ 3 then (f.nonceTrialsPerByte, f.extraBytes)
  else (minNonceTrialsPerByte, minExtraBytes)

def MessageFields.contentHeader (f : MessageFields) : List UInt8 :=
  addVarInt f.encoding ++ (addVarInt f.content.length ++ [])

/-- The bytes of a message up to its signature. -/
def MessageFields.encode (f : MessageFields) : List UInt8 :=
  f.header ++ (f.keys ++ (f.difficulty ++ (f.ripe ++ (f.contentHeader ++ (f.content ++
    (addVarInt f.ack.length ++ (f.ack ++ [])))))))

/-- Where a receiver finds the fields of a message that starts at `start`. -/
def MessageFields.bodyAt (f : MessageFields) (start : Nat) : MessageBody :=
  let keys := start + f.header.length
  let ripe := keys + f.keys.length + f.difficulty.length
  let message := ripe + f.ripe.length + f.contentHeader.length
  { messageVersion := f.messageVersion
    senderAddressVersion := f.senderAddressVersion
    senderStreamNumber := f.senderStreamNumber
    senderBehaviors := f.senderBehaviors
    senderSigningKey := keys
    senderEncryptionKey := keys + 64
    nonceTrialsPerByte := f.seenDifficulty.1
    extraBytes := f.seenDifficulty.2
    destinationRipe := ripe
    encoding := f.encoding
    message := message
    messageLength := f.content.length
    ack := message + f.content.length + (addVarInt f.ack.length).length
    ackLength := f.ack.length }

variable {f : MessageFields}

theorem MessageFields.Fit.header (h : f.Fit) :
    Reads (2 ^ 31) (getNumbers [.varInt, .varInt, .varInt, .u32]) f.header
      [.num f.messageVersion, .num f.senderAddressVersion, .num f.senderStreamNumber,
        .num f.senderBehaviors] :=
  reads_getNumbers (.cons (reads_varInt h.messageVersion) (.cons (reads_varInt
    h.senderAddressVersion) (.cons (reads_varInt h.senderStreamNumber) (.cons (reads_u32
    h.senderBehaviors) .nil))))

theorem MessageFields.Fit.difficulty (h : f.Fit) :
    Reads (2 ^ 31) (getDifficulty f.senderAddressVersion) f.difficulty f.seenDifficulty := by
  unfold getDifficulty MessageFields.difficulty MessageFields.seenDifficulty
  split_ifs
  · have hnums := reads_getNumbers (.cons (reads_varInt h.nonceTrialsPerByte)
      (.cons (reads_varInt h.extraBytes) .nil))
    have hread := hnums.bind (Reads.pure (f.nonceTrialsPerByte, f.extraBytes))
      (k := fun r => match r.1 with
        | [.num a, .num b] => pure ((a, b), r.2)
        | _ => stop .abort)
    rwa [List.append_nil] at hread
  · exact Reads.pure _

theorem MessageFields.Fit.contentHeader (h : f.Fit) :
    Reads (2 ^ 31) (getNumbers [.varInt, .varInt]) f.contentHeader
      [.num f.encoding, .num f.content.length] :=
  reads_getNumbers (.cons (reads_varInt h.encoding) (.cons (reads_varInt h.content) .nil))

-- The fields of a message are read back from its bytes.
theorem MessageFields.Fit.body (h : f.Fit) (start : Nat) :
    ReadsAt (2 ^ 31) start getMessageBody f.encode (f.bodyAt start) := by
  have hkeys : f.keys.length = 64 * 2 := by
    rw [MessageFields.keys, List.length_append, h.signingKey, h.encryptionKey]
  apply h.header.readsAt.bind
  apply (readsAt_getPointer hkeys).bind
  apply h.difficulty.readsAt.bind
  apply (readsAt_getPointer h.ripe).bind
  apply h.contentHeader.readsAt.bind
  apply (readsAt_getPointer rfl).bind
  apply (reads_getVarInt h.ack).readsAt.bind
  apply (readsAt_getPointer rfl).bind
  exact ReadsAt.pure _

-- The addresses of a decoded message are those of the sender's byte strings.
theorem MessageFields.Fit.windows {mem : Memory} {p : Nat} (h : f.Fit)
    (hmem : Holds mem p f.encode) :
    window mem (f.bodyAt p).senderSigningKey 64 = f.signingKey ∧
      window mem (f.bodyAt p).senderEncryptionKey 64 = f.encryptionKey ∧
      window mem (f.bodyAt p).destinationRipe 20 = f.ripe ∧
      window mem (f.bodyAt p).message (f.bodyAt p).messageLength = f.content ∧
      window mem (f.bodyAt p).ack (f.bodyAt p).ackLength = f.ack := by
  simp only [MessageFields.encode, holds_append] at hmem
  obtain ⟨-, hkeys, -, hripe, -, hcontent, -, hack, -⟩ := hmem
  obtain ⟨hsigning, hencryption⟩ := (holds_append _ _ _ _).mp hkeys
  rw [h.signingKey] at hencryption
  exact ⟨hsigning.window_eq h.signingKey, hencryption.window_eq h.encryptionKey,
    hripe.window_eq h.ripe, hcontent, hack⟩

-- A message followed by its signature is decoded to its fields, and the signed part is the message.
theorem getDecryptedMsg_value {mem : Memory} {p len : Nat} {sig : List UInt8} (h : f.Fit)
    (hmem : Holds mem p (f.encode ++ (addVarInt sig.length ++ sig)))
    (hlen : (f.encode ++ (addVarInt sig.length ++ sig)).length = len) (hlimit : len < 2 ^ 31) :
    (getDecryptedMsg p len).value mem = .ok
      { f.bodyAt p with
        signedDataLength := f.encode.length
        sig := p + f.encode.length + (addVarInt sig.length).length
        sigLength := sig.length } := by
  obtain ⟨hbody, hrest⟩ := (holds_append _ _ _ _).mp hmem
  obtain ⟨hsize, -⟩ := (holds_append _ _ _ _).mp hrest
  simp only [List.length_append] at hlen
  have hread := h.body p mem { pos := p, len } rfl hbody (by simp only; omega) hlimit
  have hsig := reads_getVarInt (v := sig.length) (by omega) mem
    (Cursor.skip { pos := p, len } f.encode.length) hsize
    (by simp only [Cursor.skip]; omega) (by simp only [Cursor.skip]; omega)
  rw [getDecryptedMsg, value_bind_of_ok hread, value_bind_of_ok hsig, Cursor.skip_skip]
  dsimp only
  -- the rest is the signature and nothing else
  rw [if_neg (by simp only [Cursor.skip, ne_eq, not_not]; omega), value_pure]
  simp only [Cursor.skip, Nat.add_assoc, Nat.add_sub_cancel_left]

/-! ## 3. Pubkey objects -/

/-- `struct ntb_proto_pubkey`, cleared before it is filled: a pointer that is not set is `none` when
the code tests it. -/
structure Pubkey where
  nonce : Nat
  timestamp : Nat
  version : Nat
  stream : Nat
  behaviours : Nat := 0
  publicSigningKey : Nat := 0
  publicEncryptionKey : Nat := 0
  nonceTrialsPerByte : Nat := 0
  extraBytes : Nat := 0
  signature : Option Nat := none
  signatureLength : Nat := 0
  signedData : Nat := 0
  signedDataLength : Nat := 0
  tag : Nat := 0
  encryptedData : Option Nat := none
  encryptedDataLength : Nat := 0
  deriving DecidableEq, Repr

/-- The two public keys behind the behaviours. -/
def Pubkey.withKeys (pubkey : Pubkey) (behaviours parts : Nat) : Pubkey :=
  { pubkey with
    behaviours, publicSigningKey := parts + 4, publicEncryptionKey := parts + 4 + 64 }

/-- `process_v2_pubkey_parts` -/
def processV2PubkeyParts (pubkey : Pubkey) (c : Cursor) : Parser Pubkey := do
  let (parts, _) ← getPointer (64 * 2 + 4) c
  let behaviours ← get32 parts
  return { pubkey.withKeys behaviours parts with
    nonceTrialsPerByte := minNonceTrialsPerByte, extraBytes := minExtraBytes }

/-- The part of `process_v3_pubkey_parts` before the signature. -/
def getV3Parts (pubkey : Pubkey) (c : Cursor) : Parser (Pubkey × Cursor) := do
  let (parts, c) ← getPointer (4 + 64 * 2) c
  let behaviours ← get32 parts
  let (difficulty, c) ← getNumbers [.varInt, .varInt] c
  match difficulty with
  | [.num nonceTrialsPerByte, .num extraBytes] =>
    return ({ pubkey.withKeys behaviours parts with nonceTrialsPerByte, extraBytes }, c)
  | _ => stop .abort

/-- `process_v3_pubkey_parts` -/
def processV3PubkeyParts (pubkey : Pubkey) (c : Cursor) : Parser Pubkey := do
  let (pubkey, c) ← getV3Parts pubkey c
  let signedDataLength := c.pos - pubkey.signedData
  let (signatureLength, c) ← getVarInt c
  if c.len ≠ signatureLength then reject
  else return { pubkey with signedDataLength, signatureLength, signature := some c.pos }

/-- `process_v4_pubkey_parts` -/
def processV4PubkeyParts (pubkey : Pubkey) (c : Cursor) : Parser Pubkey := do
  let (tag, c) ← getPointer 32 c
  return { pubkey with tag, encryptedData := some c.pos, encryptedDataLength := c.len }

/-- The header of a pubkey object: nonce, time, version and stream. -/
def pubkeyHeader : List Argument := [.u64, .timestamp, .varInt, .varInt]

/-- `ntb_proto_get_pubkey` -/
def getPubkey (decrypted : Bool) (dataStart messageLength : Nat) : Parser Pubkey := do
  let (header, c) ← getNumbers pubkeyHeader { pos := dataStart, len := messageLength }
  match header with
  | [.num nonce, .num timestamp, .num version, .num stream] =>
    let pubkey : Pubkey := { nonce, timestamp, version, stream }
    if version = 2 then processV2PubkeyParts pubkey c
    else if version = 4 ∧ ¬ decrypted then processV4PubkeyParts pubkey c
    else if version = 4 ∨ version = 3 then
      processV3PubkeyParts { pubkey with signedData := dataStart + 8 } c
    else reject
  | _ => stop .abort

/-! ## 4. Where the fields of an object are -/

section Within

variable {mem : Memory} {c c' : Cursor} {p len : Nat}

theorem getPointer_ok {n : Nat} (hc : c.len < 2 ^ 32)
    (h : (getPointer n c).value mem = .ok (p, c')) :
    p = c.pos ∧ c' = c.skip n ∧ n ≤ c.len := by
  unfold getPointer at h
  split at h
  next => cases h
  next hlen =>
    rw [value_bind_of_ok (value_moveTo _ _), value_pure, Except.ok.injEq, Prod.mk.injEq,
      Cursor.advance_of_le (by omega) hc] at h
    exact ⟨h.1.symm, h.2.symm, by omega⟩

theorem getNumbers_consumed {args : List Argument} {vs : List ArgValue} (hc : c.len < 2 ^ 32)
    (h : (getNumbers args c).value mem = .ok (vs, c')) : Consumed c c' := by
  obtain ⟨⟨vs', n⟩, hn, hrest⟩ := value_bind_eq_ok.mp h
  rw [value_bind_of_ok (value_moveTo _ _), value_pure, Except.ok.injEq, Prod.mk.injEq] at hrest
  rw [← hrest.2]
  exact consumed_advance (getCommand_consumed hc hn) hc

-- The nonce at the start of an object takes eight bytes.
theorem getNumbers_u64_pos {args : List Argument} {vs : List ArgValue} (hc : c.len < 2 ^ 32)
    (h : (getNumbers (.u64 :: args) c).value mem = .ok (vs, c')) : c.pos + 8 ≤ c'.pos := by
  obtain ⟨⟨vs', n⟩, hn, hrest⟩ := value_bind_eq_ok.mp h
  rw [value_bind_of_ok (value_moveTo _ _), value_pure, Except.ok.injEq, Prod.mk.injEq] at hrest
  obtain ⟨⟨vs'', c₁⟩, hargs, hn⟩ := value_bind_eq_ok.mp hn
  rw [value_pure, Except.ok.injEq, Prod.mk.injEq] at hn
  obtain ⟨⟨v, c₂⟩, hfirst, hargs⟩ := value_bind_eq_ok.mp hargs
  obtain ⟨⟨x, c₃⟩, hx, hfirst⟩ := value_bind_eq_ok.mp hfirst
  obtain ⟨hsize, -, rfl⟩ := sizedField_ok hx
  cases hfirst
  obtain ⟨⟨vs₃, c₄⟩, hothers, hargs⟩ := value_bind_eq_ok.mp hargs
  cases hargs
  rw [Cursor.advance_of_le hsize hc] at hothers
  have hlater := getArguments_consumed (by simp only [Cursor.skip]; omega) hothers
  unfold Consumed at hlater
  simp only [Cursor.skip] at hlater
  rw [← hrest.2, ← hn.2]
  simp only [Cursor.advance]
  omega

/-- Everything that a pubkey object points to is between `lo` and `hi`, and an encrypted part ends
there. -/
structure Pubkey.Within (pubkey : Pubkey) (lo hi : Nat) : Prop where
  keys : pubkey.encryptedData = none → lo ≤ pubkey.publicSigningKey ∧
    pubkey.publicEncryptionKey = pubkey.publicSigningKey + 64 ∧
    pubkey.publicEncryptionKey + 64 ≤ hi
  signature : ∀ signature, pubkey.signature = some signature → lo ≤ signature ∧
    signature + pubkey.signatureLength ≤ hi ∧ lo ≤ pubkey.signedData ∧
    pubkey.signedData + pubkey.signedDataLength ≤ hi
  encrypted : ∀ encryptedData, pubkey.encryptedData = some encryptedData → lo ≤ pubkey.tag ∧
    pubkey.tag + 32 = encryptedData ∧ encryptedData + pubkey.encryptedDataLength = hi

theorem processV2PubkeyParts_within {pubkey pubkey' : Pubkey} {lo : Nat} (hc : c.len < 2 ^ 32)
    (hlo : lo ≤ c.pos) (hsignature : pubkey.signature = none)
    (hencrypted : pubkey.encryptedData = none)
    (h : (processV2PubkeyParts pubkey c).value mem = .ok pubkey') :
    pubkey'.Within lo (c.pos + c.len) ∧ pubkey'.encryptedData = none := by
  obtain ⟨⟨parts, c₁⟩, hparts, hrest⟩ := value_bind_eq_ok.mp h
  obtain ⟨rfl, rfl, hlen⟩ := getPointer_ok hc hparts
  rw [value_bind_of_ok (get32_value _), value_pure, Except.ok.injEq] at hrest
  subst hrest
  refine ⟨⟨fun _ => ?_, fun signature hsome => ?_, fun encryptedData hsome => ?_⟩, hencrypted⟩
  · refine ⟨?_, rfl, ?_⟩
    · show lo ≤ c.pos + 4
      omega
    · show c.pos + 4 + 64 + 64 ≤ c.pos + c.len
      omega
  · simp [Pubkey.withKeys, hsignature] at hsome
  · simp [Pubkey.withKeys, hencrypted] at hsome

theorem processV3PubkeyParts_within {pubkey pubkey' : Pubkey} {lo : Nat} (hc : c.len < 2 ^ 32)
    (hlo : lo ≤ c.pos) (hsigned : lo ≤ pubkey.signedData) (hsignedPos : pubkey.signedData ≤ c.pos)
    (hencrypted : pubkey.encryptedData = none)
    (h : (processV3PubkeyParts pubkey c).value mem = .ok pubkey') :
    pubkey'.Within lo (c.pos + c.len) ∧ pubkey'.encryptedData = none := by
  obtain ⟨⟨pubkey₁, c₁⟩, hparts, h⟩ := value_bind_eq_ok.mp h
  obtain ⟨⟨sigLength, c₂⟩, hsig, h⟩ := value_bind_eq_ok.mp h
  obtain ⟨⟨parts, c₀⟩, hpointer, hparts⟩ := value_bind_eq_ok.mp hparts
  obtain ⟨rfl, rfl, hlen⟩ := getPointer_ok hc hpointer
  rw [value_bind_of_ok (get32_value _)] at hparts
  obtain ⟨⟨difficulty, c₃⟩, hdifficulty, hparts⟩ := value_bind_eq_ok.mp hparts
  have hnumbers := getNumbers_consumed (by rw [Cursor.skip_len]; omega) hdifficulty
  have hvarint := getVarInt_consumed hsig
  dsimp only at hparts h
  split at hparts
  next nonceTrialsPerByte extraBytes =>
    rw [value_pure, Except.ok.injEq, Prod.mk.injEq] at hparts
    obtain ⟨rfl, rfl⟩ := hparts
    split at h
    next => cases h
    next hend =>
      rw [value_pure, Except.ok.injEq] at h
      subst h
      unfold Consumed at hnumbers hvarint
      simp only [Cursor.skip] at hnumbers
      refine ⟨⟨fun _ => ⟨?_, rfl, ?_⟩, ?_, fun encryptedData hsome => ?_⟩, hencrypted⟩
      · show lo ≤ c.pos + 4
        omega
      · show c.pos + 4 + 64 + 64 ≤ c.pos + c.len
        omega
      · rintro _ ⟨⟩
        simp only [Pubkey.withKeys]
        refine ⟨by omega, by omega, hsigned, by omega⟩
      · simp [Pubkey.withKeys, hencrypted] at hsome
  next => cases hparts

theorem processV4PubkeyParts_within {pubkey pubkey' : Pubkey} {lo : Nat} (hc : c.len < 2 ^ 32)
    (hlo : lo ≤ c.pos) (hsignature : pubkey.signature = none)
    (h : (processV4PubkeyParts pubkey c).value mem = .ok pubkey') :
    pubkey'.Within lo (c.pos + c.len) := by
  obtain ⟨⟨tag, c₁⟩, htag, hrest⟩ := value_bind_eq_ok.mp h
  obtain ⟨rfl, rfl, hlen⟩ := getPointer_ok hc htag
  rw [value_pure, Except.ok.injEq] at hrest
  subst hrest
  refine ⟨nofun, fun signature hsome => ?_, ?_⟩
  · simp [hsignature] at hsome
  · rintro _ ⟨⟩
    refine ⟨hlo, rfl, ?_⟩
    show c.pos + 32 + (c.len - 32) = c.pos + c.len
    omega

-- The keys, the signature and the encrypted part of an object are inside it; what was decrypted has
-- no encrypted part.
theorem getPubkey_within {decrypted : Bool} {pubkey : Pubkey} (hlen : len < 2 ^ 32)
    (h : (getPubkey decrypted p len).value mem = .ok pubkey) :
    pubkey.Within p (p + len) ∧ (decrypted = true → pubkey.encryptedData = none) := by
  obtain ⟨⟨header, c₁⟩, hheader, h⟩ := value_bind_eq_ok.mp h
  have hnumbers := getNumbers_consumed (c := { pos := p, len }) hlen hheader
  have hc : c₁.len < 2 ^ 32 := lt_of_le_of_lt hnumbers.len_le hlen
  have hlo : p ≤ c₁.pos := hnumbers.1
  have hhi : c₁.pos + c₁.len = p + len := hnumbers.2
  rw [← hhi]
  dsimp only at h
  split at h
  next nonce timestamp version stream =>
    split_ifs at h with hversion2 hversion4 hversion3
    · obtain ⟨hwithin, hnone⟩ := processV2PubkeyParts_within hc hlo rfl rfl h
      exact ⟨hwithin, fun _ => hnone⟩
    · exact ⟨processV4PubkeyParts_within hc hlo rfl h, fun hdecrypted => absurd hdecrypted hversion4.2⟩
    · have hnonce := getNumbers_u64_pos (c := { pos := p, len }) hlen hheader
      obtain ⟨hwithin, hnone⟩ := processV3PubkeyParts_within hc hlo (Nat.le_add_right p 8) hnonce
        rfl h
      exact ⟨hwithin, fun _ => hnone⟩
    · cases h
  next => cases h

theorem getDifficulty_consumed {version : Nat} {difficulty : Nat × Nat} (hc : c.len < 2 ^ 32)
    (h : (getDifficulty version c).value mem = .ok (difficulty, c')) : Consumed c c' := by
  unfold getDifficulty at h
  split at h
  next =>
    obtain ⟨⟨vs, c₁⟩, hvs, h⟩ := value_bind_eq_ok.mp h
    dsimp only at h
    split at h
    next =>
      cases h
      exact getNumbers_consumed hc hvs
    next => cases h
  next =>
    cases h
    exact ⟨le_refl _, rfl⟩

theorem getMessageBody_within {body : MessageBody} (hc : c.len < 2 ^ 32)
    (h : (getMessageBody c).value mem = .ok (body, c')) :
    Consumed c c' ∧ c.pos ≤ body.senderSigningKey ∧
      body.senderSigningKey + 64 ≤ c.pos + c.len := by
  obtain ⟨⟨header, c₁⟩, hheader, h⟩ := value_bind_eq_ok.mp h
  have h₁ := getNumbers_consumed hc hheader
  have hlen₁ := h₁.len_le
  dsimp only at h
  split at h
  next =>
    obtain ⟨⟨keys, c₂⟩, hkeys, h⟩ := value_bind_eq_ok.mp h
    obtain ⟨rfl, rfl, hlen⟩ := getPointer_ok (by omega) hkeys
    obtain ⟨⟨difficulty, c₃⟩, hdifficulty, h⟩ := value_bind_eq_ok.mp h
    have h₃ := getDifficulty_consumed (by rw [Cursor.skip_len]; omega) hdifficulty
    have hlen₃ := h₃.len_le
    rw [Cursor.skip_len] at hlen₃
    dsimp only at h
    obtain ⟨⟨ripe, c₄⟩, hripe, h⟩ := value_bind_eq_ok.mp h
    obtain ⟨rfl, rfl, hlen₄⟩ := getPointer_ok (by omega) hripe
    dsimp only at h
    obtain ⟨⟨content, c₅⟩, hcontent, h⟩ := value_bind_eq_ok.mp h
    have h₅ := getNumbers_consumed (by rw [Cursor.skip_len]; omega) hcontent
    have hlen₅ := h₅.len_le
    rw [Cursor.skip_len] at hlen₅
    dsimp only at h
    split at h
    next =>
      obtain ⟨⟨message, c₆⟩, hmessage, h⟩ := value_bind_eq_ok.mp h
      obtain ⟨rfl, rfl, hlen₆⟩ := getPointer_ok (by omega) hmessage
      obtain ⟨⟨ackLength, c₇⟩, hackLength, h⟩ := value_bind_eq_ok.mp h
      have h₇ := getVarInt_consumed hackLength
      have hlen₇ := h₇.len_le
      rw [Cursor.skip_len] at hlen₇
      dsimp only at h
      obtain ⟨⟨ack, c₈⟩, hack, h⟩ := value_bind_eq_ok.mp h
      obtain ⟨rfl, rfl, hlen₈⟩ := getPointer_ok (by omega) hack
      cases h
      unfold Consumed at *
      simp only [Cursor.skip] at *
      omega
    next => cases h
  next => cases h

-- The signing key, the signed data and the signature of a message are inside it.
theorem getDecryptedMsg_within {msg : DecryptedMsg} (hlen : len < 2 ^ 32)
    (h : (getDecryptedMsg p len).value mem = .ok msg) :
    (p ≤ msg.senderSigningKey ∧ msg.senderSigningKey + 64 ≤ p + len) ∧
      msg.signedDataLength ≤ len ∧ p ≤ msg.sig ∧ msg.sig + msg.sigLength ≤ p + len := by
  obtain ⟨⟨body, c₁⟩, hbody, h⟩ := value_bind_eq_ok.mp h
  obtain ⟨h₁, hkey⟩ := getMessageBody_within hlen hbody
  obtain ⟨⟨sigLength, c₂⟩, hsig, h⟩ := value_bind_eq_ok.mp h
  have h₂ := getVarInt_consumed hsig
  dsimp only at h
  split at h
  next => cases h
  next hend =>
    cases h
    unfold Consumed at h₁ h₂
    simp only at h₁ hkey hend
    refine ⟨hkey, ?_, ?_⟩
    · show c₁.pos - p ≤ len
      omega
    · show p ≤ c₂.pos ∧ c₂.pos + sigLength ≤ p + len
      omega

-- A part that is read from a cursor, and what is read behind it.
theorem local_andThen {α β : Type} {x : Parser (α × Cursor)} {f : α × Cursor → Parser β}
    (hx : Local c.pos (c.pos + c.len) x)
    (hconsumed : ∀ mem a c', x.value mem = .ok (a, c') → Consumed c c')
    (hf : ∀ a c', Consumed c c' → Local c'.pos (c'.pos + c'.len) (f (a, c'))) :
    Local c.pos (c.pos + c.len) (x >>= f) := by
  refine hx.bind fun mem p hp => ?_
  obtain ⟨a, c'⟩ := p
  have hc' := hconsumed mem a c' hp
  exact hc'.local (hf a c' hc')

theorem getPointer_consumed {n : Nat} (hc : c.len < 2 ^ 32)
    (h : (getPointer n c).value mem = .ok (p, c')) : Consumed c c' := by
  obtain ⟨-, rfl, hle⟩ := getPointer_ok hc h
  unfold Consumed
  simp only [Cursor.skip]
  omega

theorem local_getPointer (n : Nat) : Local c.pos (c.pos + c.len) (getPointer n c) := by
  unfold getPointer
  split
  next => exact local_reject
  next => exact (local_moveTo _).bind fun _ _ _ => local_pure _

theorem local_getNumbers (args : List Argument) (hc : c.len < 2 ^ 32) :
    Local c.pos (c.pos + c.len) (getNumbers args c) :=
  (local_getCommand args hc).bind fun _ _ _ => (local_moveTo _).bind fun _ _ _ => local_pure _

theorem local_getDifficulty (version : Nat) (hc : c.len < 2 ^ 32) :
    Local c.pos (c.pos + c.len) (getDifficulty version c) := by
  unfold getDifficulty
  split
  next =>
    refine local_andThen (local_getNumbers _ hc) (fun _ _ _ => getNumbers_consumed hc) ?_
    intro vs c' _
    dsimp only
    split
    next => exact local_pure _
    next => exact fun _ _ _ => rfl
  next => exact local_pure _

theorem local_getMessageBody (hc : c.len < 2 ^ 32) :
    Local c.pos (c.pos + c.len) (getMessageBody c) := by
  refine local_andThen (local_getNumbers _ hc) (fun _ _ _ => getNumbers_consumed hc) ?_
  intro header c₁ h₁
  have hc₁ : c₁.len < 2 ^ 32 := lt_of_le_of_lt h₁.len_le hc
  dsimp only
  split
  next =>
    refine local_andThen (local_getPointer _) (fun _ _ _ => getPointer_consumed hc₁) ?_
    intro keys c₂ h₂
    have hc₂ : c₂.len < 2 ^ 32 := lt_of_le_of_lt h₂.len_le hc₁
    refine local_andThen (local_getDifficulty _ hc₂) (fun _ _ _ => getDifficulty_consumed hc₂) ?_
    intro difficulty c₃ h₃
    have hc₃ : c₃.len < 2 ^ 32 := lt_of_le_of_lt h₃.len_le hc₂
    refine local_andThen (local_getPointer _) (fun _ _ _ => getPointer_consumed hc₃) ?_
    intro ripe c₄ h₄
    have hc₄ : c₄.len < 2 ^ 32 := lt_of_le_of_lt h₄.len_le hc₃
    refine local_andThen (local_getNumbers _ hc₄) (fun _ _ _ => getNumbers_consumed hc₄) ?_
    intro content c₅ h₅
    have hc₅ : c₅.len < 2 ^ 32 := lt_of_le_of_lt h₅.len_le hc₄
    dsimp only
    split
    next =>
      refine local_andThen (local_getPointer _) (fun _ _ _ => getPointer_consumed hc₅) ?_
      intro message c₆ h₆
      have hc₆ : c₆.len < 2 ^ 32 := lt_of_le_of_lt h₆.len_le hc₅
      refine local_andThen (local_getVarInt _) (fun _ _ _ => getVarInt_consumed) ?_
      intro ackLength c₇ h₇
      have hc₇ : c₇.len < 2 ^ 32 := lt_of_le_of_lt h₇.len_le hc₆
      refine local_andThen (local_getPointer _) (fun _ _ _ => getPointer_consumed hc₇) ?_
      exact fun ack c₈ _ => local_pure _
    next => exact fun _ _ _ => rfl
  next => exact fun _ _ _ => rfl

-- A decrypted message depends on nothing but its bytes.
theorem local_getDecryptedMsg (hlen : len < 2 ^ 32) :
    Local p (p + len) (getDecryptedMsg p len) := by
  refine local_andThen (local_getMessageBody (c := { pos := p, len }) hlen)
    (fun _ _ _ h => (getMessageBody_within hlen h).1) fun body c₁ h₁ => ?_
  refine local_andThen (local_getVarInt _) (fun _ _ _ => getVarInt_consumed) ?_
  intro sigLength c₂ _
  dsimp only
  split
  next => exact local_reject
  next => exact local_pure _

end Within

/-! ## 5. The shape of what is read -/

section Shape

variable {mem : Memory} {c c' : Cursor}

/-- The arguments that are numbers, as all arguments in objects are. -/
def Argument.isNumber : Argument → Bool
  | .u8 | .u16 | .u32 | .u64 | .varInt | .timestamp => true
  | .bool | .netaddress | .varStr | .varIntList => false

theorem noAbort_getArgument {a : Argument} (ha : a.isNumber = true) (c : Cursor) :
    (getArgument a c).NoAbort mem := by
  cases a with
  | u8 => exact (noAbort_sizedField c (noAbort_get8 _)).bind fun _ _ => noAbort_pure _
  | u16 | u32 | u64 => exact (noAbort_sizedField c (noAbort_ofBE _ _)).bind fun _ _ => noAbort_pure _
  | varInt => exact (noAbort_getVarInt c).bind fun _ _ => noAbort_pure _
  | timestamp => exact (noAbort_getTimestamp c).bind fun _ _ => noAbort_pure _
  | _ => cases ha

theorem getArgument_number {a : Argument} {v : ArgValue} (ha : a.isNumber = true)
    (h : (getArgument a c).value mem = .ok (v, c')) : ∃ n, v = .num n := by
  cases a with
  | u8 | u16 | u32 | u64 | varInt | timestamp =>
    obtain ⟨⟨n, c₁⟩, -, hrest⟩ := value_bind_eq_ok.mp h
    cases hrest
    exact ⟨n, rfl⟩
  | _ => cases ha

theorem noAbort_getArguments {args : List Argument} (hargs : ∀ a ∈ args, a.isNumber = true)
    (c : Cursor) : (getArguments args c).NoAbort mem := by
  induction args generalizing c with
  | nil => exact noAbort_pure _
  | cons a args ih =>
    refine (noAbort_getArgument (hargs a List.mem_cons_self) c).bind fun r _ => ?_
    refine (ih (fun b hb => hargs b (List.mem_cons_of_mem a hb)) r.2).bind fun _ _ => ?_
    exact noAbort_pure _

-- As many numbers are read as there are arguments.
theorem getArguments_numbers {args : List Argument} {vs : List ArgValue}
    (hargs : ∀ a ∈ args, a.isNumber = true)
    (h : (getArguments args c).value mem = .ok (vs, c')) :
    ∃ ns : List Nat, vs = ns.map .num ∧ ns.length = args.length := by
  induction args generalizing c vs with
  | nil =>
    cases h
    exact ⟨[], rfl, rfl⟩
  | cons a args ih =>
    obtain ⟨⟨v, c₁⟩, hv, hrest⟩ := value_bind_eq_ok.mp h
    obtain ⟨⟨vs', c₂⟩, hvs, heq⟩ := value_bind_eq_ok.mp hrest
    cases heq
    obtain ⟨n, rfl⟩ := getArgument_number (hargs a List.mem_cons_self) hv
    obtain ⟨ns, rfl, hlength⟩ := ih (fun b hb => hargs b (List.mem_cons_of_mem a hb)) hvs
    exact ⟨n :: ns, rfl, by rw [List.length_cons, hlength, List.length_cons]⟩

theorem noAbort_getNumbers {args : List Argument} (hargs : ∀ a ∈ args, a.isNumber = true)
    (c : Cursor) : (getNumbers args c).NoAbort mem := by
  refine ((noAbort_getArguments hargs _).bind fun _ _ => noAbort_pure _).bind fun _ _ => ?_
  exact (noAbort_moveTo _).bind fun _ _ => noAbort_pure _

theorem getNumbers_numbers {args : List Argument} {vs : List ArgValue}
    (hargs : ∀ a ∈ args, a.isNumber = true) (h : (getNumbers args c).value mem = .ok (vs, c')) :
    ∃ ns : List Nat, vs = ns.map .num ∧ ns.length = args.length := by
  obtain ⟨⟨vs', n⟩, hn, hrest⟩ := value_bind_eq_ok.mp h
  obtain ⟨⟨vs'', c₁⟩, hvs, hn⟩ := value_bind_eq_ok.mp hn
  cases hn
  cases hrest
  exact getArguments_numbers hargs hvs

theorem noAbort_getPointer (n : Nat) (c : Cursor) : (getPointer n c).NoAbort mem := by
  unfold getPointer
  split
  next => exact noAbort_reject
  next => exact (noAbort_moveTo _).bind fun _ _ => noAbort_pure _

-- Two numbers, as the difficulty and the header of the content are read.
theorem getNumbers_pair {vs : List ArgValue}
    (h : (getNumbers [.varInt, .varInt] c).value mem = .ok (vs, c')) :
    ∃ m n, vs = [.num m, .num n] := by
  obtain ⟨ns, rfl, hlength⟩ := getNumbers_numbers (by decide) h
  match ns, hlength with
  | [m, n], _ => exact ⟨m, n, rfl⟩

theorem getNumbers_four {args : List Argument} {vs : List ArgValue} (hlength : args.length = 4)
    (hargs : ∀ a ∈ args, a.isNumber = true) (h : (getNumbers args c).value mem = .ok (vs, c')) :
    ∃ k l m n, vs = [.num k, .num l, .num m, .num n] := by
  obtain ⟨ns, rfl, hns⟩ := getNumbers_numbers hargs h
  match ns, hns.trans hlength with
  | [k, l, m, n], _ => exact ⟨k, l, m, n, rfl⟩

theorem noAbort_processV3PubkeyParts (pubkey : Pubkey) (c : Cursor) :
    (processV3PubkeyParts pubkey c).NoAbort mem := by
  have hparts : (getV3Parts pubkey c).NoAbort mem := by
    refine (noAbort_getPointer _ _).bind fun _ _ => ?_
    refine (noAbort_ofBE _ _).bind fun _ _ => ?_
    refine (noAbort_getNumbers (by decide) _).bind fun r hr => ?_
    obtain ⟨m, n, hvs⟩ := getNumbers_pair hr
    obtain ⟨vs, c₁⟩ := r
    subst hvs
    exact noAbort_pure _
  refine hparts.bind fun _ _ => ?_
  refine (noAbort_getVarInt _).bind fun _ _ => ?_
  dsimp only
  split_ifs
  · exact noAbort_reject
  · exact noAbort_pure _

theorem noAbort_getPubkey (decrypted : Bool) (p len : Nat) :
    (getPubkey decrypted p len).NoAbort mem := by
  refine (noAbort_getNumbers (by decide) _).bind fun r hr => ?_
  obtain ⟨vs, c₁⟩ := r
  obtain ⟨nonce, timestamp, version, stream, rfl⟩ := getNumbers_four rfl (by decide) hr
  dsimp only
  split_ifs
  · refine (noAbort_getPointer _ _).bind fun _ _ => ?_
    exact (noAbort_ofBE _ _).bind fun _ _ => noAbort_pure _
  · exact (noAbort_getPointer _ _).bind fun _ _ => noAbort_pure _
  · exact noAbort_processV3PubkeyParts _ _
  · exact noAbort_reject

theorem noAbort_getDecryptedMsg (p len : Nat) : (getDecryptedMsg p len).NoAbort mem := by
  have hdifficulty : ∀ version c, (getDifficulty version c).NoAbort mem := by
    intro version c
    unfold getDifficulty
    split_ifs
    · refine (noAbort_getNumbers (by decide) _).bind fun r hr => ?_
      obtain ⟨m, n, hvs⟩ := getNumbers_pair hr
      obtain ⟨vs, c₁⟩ := r
      subst hvs
      exact noAbort_pure _
    · exact noAbort_pure _
  have hbody : ∀ c, (getMessageBody c).NoAbort mem := by
    intro c
    refine (noAbort_getNumbers (by decide) _).bind fun r hr => ?_
    obtain ⟨vs, c₁⟩ := r
    obtain ⟨messageVersion, version, stream, behaviors, rfl⟩ := getNumbers_four rfl (by decide) hr
    refine (noAbort_getPointer _ _).bind fun _ _ => ?_
    refine (hdifficulty _ _).bind fun _ _ => ?_
    refine (noAbort_getPointer _ _).bind fun _ _ => ?_
    refine (noAbort_getNumbers (by decide) _).bind fun r hr => ?_
    obtain ⟨vs, c₂⟩ := r
    obtain ⟨encoding, messageLength, rfl⟩ := getNumbers_pair hr
    refine (noAbort_getPointer _ _).bind fun _ _ => ?_
    refine (noAbort_getVarInt _).bind fun _ _ => ?_
    exact (noAbort_getPointer _ _).bind fun _ _ => noAbort_pure _
  refine (hbody _).bind fun _ _ => ?_
  refine (noAbort_getVarInt _).bind fun _ _ => ?_
  dsimp only
  split_ifs
  · exact noAbort_reject
  · exact noAbort_pure _

end Shape

end Notbit.Proto
