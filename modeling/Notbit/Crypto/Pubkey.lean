import Notbit.Ecc.Encrypt
import Notbit.Key
import Notbit.Proto.Objects

/-!
# Pubkey — the pubkey objects this program makes and the check it makes of them (`ntb-crypto.c`)

`append_v34_key_base` signs everything behind the first eight bytes of its buffer, the eight bytes
of the nonce.  For a version 4 key the buffer starts with the nonce; for a version 3 key it starts
with the fields of the blob, and what is signed is not what a receiver verifies.
-/

open Bytes Traced Traced.Parser Notbit.Proto

namespace Notbit.Crypto

variable {ssl : OpenSSL}

/-! ## 1. Making a pubkey object -/

/-- `append_key_base`: the buffer, and the offset of the behaviours in it. -/
def appendKeyBase (fill : Memory) (key : Key ssl) (buffer : Buffer) : Buffer × Nat :=
  -- space for the nonce
  let buffer := setLength fill buffer (buffer.length + 8)
  let buffer := buffer ++ add64 (toUInt64 key.lastPubkeySendTime)
  let buffer := buffer ++ addVarInt key.address.version
  let buffer := buffer ++ addVarInt key.address.stream
  let behaviorsOffset := buffer.length
  let buffer := buffer ++ add32 pubkeyBehaviors
  let buffer := buffer ++ addPublicKey ssl key.signingKey
  let buffer := buffer ++ addPublicKey ssl key.encryptionKey
  (buffer, behaviorsOffset)

/-- What `append_v34_key_base` leaves behind: its buffer, the offset of the behaviours, and the
bytes it signed. -/
structure SignedBase where
  buffer : Buffer
  behaviorsOffset : Nat
  signed : Buffer

/-- `append_v34_key_base` -/
def appendV34KeyBase (fill : Memory) (key : Key ssl) (buffer : Buffer) : SignedBase :=
  let (buffer, behaviorsOffset) := appendKeyBase fill key buffer
  let buffer := buffer ++ addVarInt (toUInt64 key.nonceTrialsPerByte.val)
  let buffer := buffer ++ addVarInt (toUInt64 key.payloadLengthExtraBytes.val)
  let signed := buffer.drop 8
  { buffer := buffer ++ appendSignature ssl key.signingKey signed, behaviorsOffset, signed }

/-- What the environment decides while an object is made: the bytes of fresh memory, the fields of
the blob that stand before its data, the random ephemeral key and the random IV. -/
structure Environment (ssl : OpenSSL) where
  fill : Memory
  header : Buffer
  /-- `type`, `ref_count` and `size` stand before `data` in `struct ntb_blob`. -/
  header_pos : 0 < header.length
  ephemeral : ssl.Key
  iv : List UInt8
  length_iv : iv.length = ivLength

/-- A pubkey object before its proof of work, and the bytes that were signed for it, if any. -/
structure PubkeyBlob where
  data : Buffer
  signed : Option Buffer

/-- `create_v4_key` -/
def createV4Key (env : Environment ssl) (key : Key ssl) : PubkeyBlob :=
  let base := appendV34KeyBase env.fill key []
  let tagPublicKeyPoint := ssl.publicKey (ssl.keyOfPrivate (key.address.tagPrivateKey ssl))
  let encryptedBuffer := env.header ++ base.buffer.take base.behaviorsOffset ++
    key.address.tag ssl ++ Ecc.encryptWithPoint ssl env.ephemeral env.iv tagPublicKeyPoint
      (base.buffer.drop base.behaviorsOffset)
  { data := encryptedBuffer.drop env.header.length, signed := some base.signed }

/-- `create_v3_key` -/
def createV3Key (env : Environment ssl) (key : Key ssl) : PubkeyBlob :=
  let base := appendV34KeyBase env.fill key env.header
  { data := base.buffer.drop env.header.length, signed := some base.signed }

/-- `create_v2_key` -/
def createV2Key (env : Environment ssl) (key : Key ssl) : PubkeyBlob :=
  { data := (appendKeyBase env.fill key env.header).1.drop env.header.length, signed := none }

/-- `handle_create_pubkey_blob` -/
def createPubkeyBlob (env : Environment ssl) (key : Key ssl) : PubkeyBlob :=
  if key.address.version = 4 then createV4Key env key
  else if key.address.version = 3 then createV3Key env key
  else createV2Key env key

/-- The object once the proof of work is done. -/
def PubkeyBlob.finished (b : PubkeyBlob) (nonce : Nat) : Buffer := patch b.data 0 (toBE 8 nonce)

/-! ## 2. Checking a pubkey object -/

/-- The fields of the key that `handle_check_unencrypted_pubkey` makes. -/
structure CheckedKey (ssl : OpenSSL) where
  address : Address
  signingKey : ssl.Point
  encryptionKey : ssl.Point
  nonceTrialsPerByte : Nat
  extraBytes : Nat

/-- `ntb_ecc_create_key_with_public` on a key of the network: its assertion fails when the bytes
are no point of the curve. -/
def pointOfNetworkKey (ssl : OpenSSL) (key : List UInt8) : Except Stop ssl.Point :=
  match ssl.octToPoint (4 :: key) with
  | some point => .ok point
  | none => .error .abort

/-- `check_signature_for_data` -/
def checkSignatureForData (ssl : OpenSSL) (networkPublicKey data signature : List UInt8) :
    Except Stop Bool := do
  let point ← pointOfNetworkKey ssl networkPublicKey
  return ssl.ecdsaVerify point (ssl.sha1 data) signature

/-- `handle_check_unencrypted_pubkey` -/
def checkUnencryptedPubkey (ssl : OpenSSL) (mem : Memory) (expected : Address)
    (pubkey : Pubkey) : Except Stop (CheckedKey ssl) := do
  let publicSigningKey := window mem pubkey.publicSigningKey 64
  let publicEncryptionKey := window mem pubkey.publicEncryptionKey 64
  let verified ← match pubkey.signature with
    | none => .ok true
    | some signature =>
      checkSignatureForData ssl publicSigningKey
        (window mem pubkey.signedData pubkey.signedDataLength)
        (window mem signature pubkey.signatureLength)
  if !verified then .error .reject
  else
    let address := addressFromNetworkKeys ssl pubkey.version pubkey.stream publicSigningKey
      publicEncryptionKey
    if !address.equal expected then .error .reject
    else
      let signingKey ← pointOfNetworkKey ssl publicSigningKey
      let encryptionKey ← pointOfNetworkKey ssl publicEncryptionKey
      return { address, signingKey, encryptionKey
               nonceTrialsPerByte := pubkey.nonceTrialsPerByte
               extraBytes := pubkey.extraBytes }

/-- The part of `handle_check_pubkey` up to the call of `handle_check_unencrypted_pubkey`: the
memory and the fields which that function is called with.  An encrypted object is decrypted into a
buffer that starts with its header; `behind` is the memory behind that buffer. -/
def openPubkey (ssl : OpenSSL) (mem behind : Memory) (expected : Address) (data size : Nat) :
    Except Stop (Memory × Pubkey) := do
  let pubkey ← (getPubkey false data (size % 2 ^ 32)).value mem
  match pubkey.encryptedData with
  | none => return (mem, pubkey)
  | some encryptedData =>
    if window mem pubkey.tag 32 ≠ expected.tag ssl then .error .reject
    else
      let key := ssl.keyOfPrivate (expected.tagPrivateKey ssl)
      let header := window mem data (pubkey.tag - data)
      let decrypted ← (Ecc.decrypt ssl key
        { pos := encryptedData, len := pubkey.encryptedDataLength }).value mem
      let buffer := header ++ decrypted
      let mem' := overlay buffer behind
      let pubkey ← (getPubkey true 0 (buffer.length % 2 ^ 32)).value mem'
      return (mem', pubkey)

/-- `handle_check_pubkey` -/
def checkPubkey (ssl : OpenSSL) (mem behind : Memory) (expected : Address) (data size : Nat) :
    Except Stop (CheckedKey ssl) := do
  let (mem', pubkey) ← openPubkey ssl mem behind expected data size
  checkUnencryptedPubkey ssl mem' expected pubkey

/-! ## 3. The bytes of an object -/

/-- A header behind the nonce. -/
def headerOf (time version stream : Nat) : List UInt8 :=
  add64 time ++ (addVarInt version ++ (addVarInt stream ++ []))

/-- The header of the key's object behind the nonce. -/
def headerBytes (key : Key ssl) : List UInt8 :=
  headerOf (toUInt64 key.lastPubkeySendTime) key.address.version key.address.stream

def keyBytes (key : Key ssl) : List UInt8 :=
  add32 pubkeyBehaviors ++ (addPublicKey ssl key.signingKey ++ addPublicKey ssl key.encryptionKey)

def difficultyBytes (key : Key ssl) : List UInt8 :=
  addVarInt (toUInt64 key.nonceTrialsPerByte.val) ++
    (addVarInt (toUInt64 key.payloadLengthExtraBytes.val) ++ [])

variable {key : Key ssl} {env : Environment ssl} {mem : Memory} {p : Nat}

theorem length_keyBytes (key : Key ssl) : (keyBytes key).length = 4 + 64 * 2 := by
  simp only [keyBytes, List.length_append, add32, length_toBE, length_addPublicKey]

theorem length_headerOf_le (time version stream : Nat) :
    (headerOf time version stream).length ≤ 26 := by
  have h₁ := length_addVarInt_le version
  have h₂ := length_addVarInt_le stream
  simp only [headerOf, List.length_append, add64, length_toBE, List.length_nil]
  omega

theorem length_headerBytes_le (key : Key ssl) : (headerBytes key).length ≤ 26 :=
  length_headerOf_le _ _ _

theorem length_difficultyBytes_le (key : Key ssl) : (difficultyBytes key).length ≤ 18 := by
  have h₁ := length_addVarInt_le (toUInt64 key.nonceTrialsPerByte.val)
  have h₂ := length_addVarInt_le (toUInt64 key.payloadLengthExtraBytes.val)
  simp only [difficultyBytes, List.length_append, List.length_nil]
  omega

theorem length_appendSignature_le (hssl : ssl.Lawful) (k : ssl.Key) (signed : Buffer) :
    (appendSignature ssl k signed).length ≤ 81 := by
  have h₁ := hssl.length_ecdsaSign k (ssl.sha1 signed)
  have h₂ := length_addVarInt_le (ssl.ecdsaSign k (ssl.sha1 signed)).length
  simp only [appendSignature, List.length_append]
  omega

-- What `append_v34_key_base` appends to a buffer, and what it signs.
theorem appendV34KeyBase_eq (fill : Memory) (key : Key ssl) (buffer : Buffer) :
    appendV34KeyBase fill key buffer =
      let hole := window fill buffer.length 8
      let signed := (buffer ++ (hole ++ (headerBytes key ++ (keyBytes key ++
        difficultyBytes key)))).drop 8
      { buffer := buffer ++ (hole ++ (headerBytes key ++ (keyBytes key ++ (difficultyBytes key ++
          appendSignature ssl key.signingKey signed))))
        behaviorsOffset := buffer.length + 8 + (headerBytes key).length
        signed } := by
  have hlen : ∀ fill : Memory, (window fill buffer.length 8).length = 8 := fun fill =>
    length_window fill _ _
  simp only [appendV34KeyBase, appendKeyBase, setLength, Nat.add_sub_cancel_left, headerBytes,
    headerOf, keyBytes, difficultyBytes, List.append_assoc, List.append_nil, List.length_append, hlen,
    SignedBase.mk.injEq, true_and, and_true]
  omega

-- The object of a version 4 key: its header, its tag and the rest encrypted.  The signature covers
-- the header behind the nonce and the keys.
theorem createV4Key_eq (env : Environment ssl) (key : Key ssl) :
    createV4Key env key =
      let signed := headerBytes key ++ (keyBytes key ++ difficultyBytes key)
      { data := window env.fill 0 8 ++ (headerBytes key ++ (key.address.tag ssl ++
          Ecc.encryptWithPoint ssl env.ephemeral env.iv
            (ssl.publicKey (ssl.keyOfPrivate (key.address.tagPrivateKey ssl)))
            (keyBytes key ++ (difficultyBytes key ++
              appendSignature ssl key.signingKey signed))))
        signed := some signed } := by
  have hdrop : ∀ xs : List UInt8, (window env.fill 0 8 ++ xs).drop 8 = xs := fun xs =>
    List.drop_left' (length_window _ _ _)
  have hoffset : 8 + (headerBytes key).length = (window env.fill 0 8 ++ headerBytes key).length := by
    rw [List.length_append, length_window]
  simp only [createV4Key, appendV34KeyBase_eq, List.nil_append, List.length_nil, Nat.zero_add,
    hdrop, PubkeyBlob.mk.injEq, and_true]
  rw [hoffset, ← List.append_assoc (window env.fill 0 8), List.take_left, List.drop_left]
  simp only [List.append_assoc, List.drop_left]

-- The object of a version 3 key: everything in the clear.  The signature also covers what stands in
-- the buffer before the object's data.
theorem createV3Key_eq (env : Environment ssl) (key : Key ssl) :
    createV3Key env key =
      let hole := window env.fill env.header.length 8
      let signed := (env.header ++ (hole ++ (headerBytes key ++ (keyBytes key ++
        difficultyBytes key)))).drop 8
      { data := hole ++ (headerBytes key ++ (keyBytes key ++ (difficultyBytes key ++
          appendSignature ssl key.signingKey signed)))
        signed := some signed } := by
  simp only [createV3Key, appendV34KeyBase_eq, List.drop_left]

theorem finished_eq {b : PubkeyBlob} {hole rest : Buffer} (hlen : hole.length = 8)
    (hdata : b.data = hole ++ rest) (nonce : Nat) : b.finished nonce = add64 nonce ++ rest := by
  have hpatch : patch ([] ++ hole ++ rest) 0 (toBE 8 nonce) = [] ++ toBE 8 nonce ++ rest :=
    patch_append rfl (by rw [hlen, length_toBE])
  rw [PubkeyBlob.finished, hdata]
  exact hpatch

/-! ## 4. Parsing an object -/

/-- The four numbers at the start of a pubkey object. -/
structure ObjectHeader where
  nonce : Nat
  timestamp : Nat
  version : Nat
  stream : Nat

def ObjectHeader.values (h : ObjectHeader) : List ArgValue :=
  [.num h.nonce, .num h.timestamp, .num h.version, .num h.stream]

/-- The fields of the object before its parts are looked at. -/
def ObjectHeader.pubkey (h : ObjectHeader) : Pubkey :=
  { nonce := h.nonce, timestamp := h.timestamp, version := h.version, stream := h.stream }

/-- The header at `p` is read as `h` and takes `n` of the `len` bytes. -/
def ReadsHeader (mem : Memory) (p len : Nat) (h : ObjectHeader) (n : Nat) : Prop :=
  (getNumbers pubkeyHeader { pos := p, len }).value mem =
    .ok (h.values, Cursor.skip { pos := p, len } n)

theorem headerOf_encodes {time version stream : Nat} (htime : time < 2 ^ 32)
    (hversion : version < 2 ^ 64) (hstream : stream < 2 ^ 64) (nonce : Nat) :
    Encodes pubkeyHeader (ObjectHeader.mk (nonce % 2 ^ 64) time version stream).values
      (add64 nonce ++ headerOf time version stream) :=
  .cons (reads_u64 nonce) (.cons (reads_timestamp htime)
    (.cons (reads_varInt hversion) (.cons (reads_varInt hstream) .nil)))

/-- The header of a version 4 key is read back with the key's version and stream, and to its own end.
A time of 2^32 or more is taken for its high half alone, and its low half for the start of the
version.  What is read is right all the same if that half makes the version a 4 of five, three or
one bytes and the rest, up to the last byte, the stream. -/
def TimeReadsBack (key : Key ssl) : Prop :=
  let time := toUInt64 key.lastPubkeySendTime
  let low := time % 2 ^ 32
  time < 2 ^ 32 ∨ low = 0xfe000000 ∨
    if key.address.stream < 0xfd then low = 0xfd0004fd ∨ low / 2 ^ 16 = 0x04fe
    else low = 0xfd0004fe

instance (key : Key ssl) : Decidable (TimeReadsBack key) := inferInstanceAs (Decidable (_ ∨ _))

-- A long time is read as its high half, and the numbers that follow from its low half on.
theorem longTime_encodes {time version stream : Nat} {rest : List UInt8} (hlong : 2 ^ 32 ≤ time)
    (htime : time < 2 ^ 64)
    (hrest : Encodes [.varInt, .varInt] [.num version, .num stream]
      (add32 (time % 2 ^ 32) ++ rest)) (nonce : Nat) :
    Encodes pubkeyHeader (ObjectHeader.mk (nonce % 2 ^ 64) (time / 2 ^ 32) version stream).values
      (add64 nonce ++ (add64 time ++ rest)) := by
  have hlow : add32 (time % 2 ^ 32) = toBE 4 time := toBE_mod 4 time
  have hsplit : add64 time = add32 (time / 2 ^ 32) ++ add32 (time % 2 ^ 32) := by
    rw [hlow]
    exact toBE_add 4 4 time
  rw [hsplit, List.append_assoc]
  exact .cons (reads_u64 nonce) (.cons (reads_timestamp_short (by omega) (by omega)) hrest)

theorem ofNat_eq_of_mod {m n : Nat} (h : m % 256 = n % 256) : UInt8.ofNat m = UInt8.ofNat n := by
  rw [← UInt8.toNat_inj, UInt8.toNat_ofNat', UInt8.toNat_ofNat']
  exact h

theorem toBE_two (n : Nat) : toBE 2 n = [UInt8.ofNat (n / 256), UInt8.ofNat n] := rfl

theorem addVarInt_four : addVarInt 4 = [4] := rfl

-- A stream that takes three bytes.
theorem addVarInt_wide {stream : Nat} (hwide : ¬ stream < 0xfd) (hstream : stream < 256) :
    addVarInt stream = [0xfd, 0, UInt8.ofNat stream] := by
  rw [addVarInt, if_neg hwide, if_pos (by omega), add16, toBE_two, Nat.div_eq_of_lt hstream]
  rfl

theorem encodes_two {a b : Argument} {v w : ArgValue} {as bs rest : List UInt8}
    (ha : Reads (2 ^ 31) (getArgument a) as v) (hb : Reads (2 ^ 31) (getArgument b) bs w)
    (hrest : as ++ bs = rest) : Encodes [a, b] [v, w] rest := by
  have hboth := Encodes.cons ha (.cons hb .nil)
  rwa [List.append_nil, hrest] at hboth

/-- The low half of the time and the version make a version of 4, and with the bytes that are left a
stream that ends with the key's. -/
theorem lowHalf_encodes {low stream : Nat} (hstream : stream < 256)
    (hlow : low = 0xfe000000 ∨ if stream < 0xfd then low = 0xfd0004fd ∨ low / 2 ^ 16 = 0x04fe
      else low = 0xfd0004fe) :
    ∃ stream', stream' % 256 = stream ∧
      Encodes [.varInt, .varInt] [.num 4, .num stream']
        (add32 low ++ (addVarInt 4 ++ (addVarInt stream ++ []))) := by
  have hthree := reads_varInt_tagged 0xfd 2 (v := 4) (by decide) (by decide)
  rcases hlow with rfl | hlow
  · -- the version takes five bytes
    have hfive := reads_varInt_tagged 0xfe 4 (v := 4) (by decide) (by decide)
    refine ⟨stream, Nat.mod_eq_of_lt hstream, encodes_two hfive (reads_varInt (by omega)) ?_⟩
    rw [List.append_nil]
    rfl
  split_ifs at hlow with hsmall
  · rw [addVarInt_of_lt hsmall]
    rcases hlow with rfl | hlow
    · -- three bytes each
      refine ⟨0x0400 + stream, by omega, encodes_two hthree
        (reads_varInt_tagged 0xfd 2 (by decide) (by omega)) ?_⟩
      rw [toBE_two (0x0400 + stream),
        ofNat_eq_of_mod (show (0x0400 + stream) / 256 % 256 = 4 % 256 by omega),
        ofNat_eq_of_mod (show (0x0400 + stream) % 256 = stream % 256 by omega)]
      rfl
    · -- one byte and five
      refine ⟨low % 2 ^ 16 * 2 ^ 16 + 0x0400 + stream, by omega, encodes_two
        (reads_varInt (by norm_num))
        (reads_varInt_tagged 0xfe 4 (by decide) (by omega)) ?_⟩
      have hhigh : toBE 4 low = toBE 2 0x04fe ++ toBE 2 low := by
        rw [toBE_add 2 2 low, show low / 256 ^ 2 = 0x04fe by omega]
      have hwide : toBE 4 (low % 2 ^ 16 * 2 ^ 16 + 0x0400 + stream) =
          toBE 2 low ++ [4, UInt8.ofNat stream] := by
        rw [toBE_add 2 2, show (low % 2 ^ 16 * 2 ^ 16 + 0x0400 + stream) / 256 ^ 2 =
          low % 256 ^ 2 by omega, toBE_mod, toBE_two (_ + stream),
          ofNat_eq_of_mod (show (low % 2 ^ 16 * 2 ^ 16 + 0x0400 + stream) / 256 % 256 = 4 % 256 by
            omega),
          ofNat_eq_of_mod (show (low % 2 ^ 16 * 2 ^ 16 + 0x0400 + stream) % 256 = stream % 256 by
            omega)]
        rfl
      rw [add32, hhigh, hwide, List.append_assoc]
      rfl
  · -- three bytes and five
    rw [addVarInt_wide hsmall hstream, hlow]
    refine ⟨0x04fd0000 + stream, by omega, encodes_two hthree
      (reads_varInt_tagged 0xfe 4 (by decide) (by omega)) ?_⟩
    have hwide : toBE 4 (0x04fd0000 + stream) = [4, 0xfd, 0, UInt8.ofNat stream] := by
      rw [toBE_add 2 2, show (0x04fd0000 + stream) / 256 ^ 2 = 0x04fd by omega,
        toBE_two (_ + stream),
        ofNat_eq_of_mod (show (0x04fd0000 + stream) / 256 % 256 = 0 % 256 by omega),
        ofNat_eq_of_mod (show (0x04fd0000 + stream) % 256 = stream % 256 by omega)]
      rfl
    rw [hwide]
    rfl

theorem readsHeader_of_encodes {header : ObjectHeader} {nonce len : Nat}
    (h : Encodes pubkeyHeader header.values (add64 nonce ++ headerBytes key))
    (hmem : Holds mem p (add64 nonce ++ headerBytes key))
    (hlen : (add64 nonce ++ headerBytes key).length ≤ len) (hlimit : len < 2 ^ 31) :
    ReadsHeader mem p len header (8 + (headerBytes key).length) := by
  have hread := reads_getNumbers h mem { pos := p, len } hmem hlen hlimit
  rwa [List.length_append, add64, length_toBE] at hread

-- The header of a key whose time reads back.
theorem header_encodes (hversion : key.address.version = 4) (htime : TimeReadsBack key) :
    ∃ timestamp stream, stream % 256 = key.address.stream ∧ ∀ nonce,
      Encodes pubkeyHeader (ObjectHeader.mk (nonce % 2 ^ 64) timestamp 4 stream).values
        (add64 nonce ++ headerBytes key) := by
  have hlt := toUInt64_lt key.lastPubkeySendTime
  have hstream := key.address.stream_lt
  unfold TimeReadsBack at htime
  unfold headerBytes
  rw [hversion]
  by_cases hshort : toUInt64 key.lastPubkeySendTime < 2 ^ 32
  · exact ⟨_, _, Nat.mod_eq_of_lt hstream, headerOf_encodes hshort (by norm_num) (by omega)⟩
  · obtain ⟨stream, hcut, hrest⟩ := lowHalf_encodes hstream (htime.resolve_left hshort)
    exact ⟨_, stream, hcut, longTime_encodes (by omega) hlt hrest⟩

/-- The fields of a signed object of the key that starts at `p`. -/
def signedFields (key : Key ssl) (header : ObjectHeader) (p : Nat) (sig : List UInt8) : Pubkey :=
  let parts := p + 8 + (headerBytes key).length
  let signature := parts + (keyBytes key).length + (difficultyBytes key).length +
    (addVarInt sig.length).length
  { header.pubkey.withKeys pubkeyBehaviors parts with
    nonceTrialsPerByte := toUInt64 key.nonceTrialsPerByte.val
    extraBytes := toUInt64 key.payloadLengthExtraBytes.val
    signature := some signature
    signatureLength := sig.length
    signedData := p + 8
    signedDataLength := (headerBytes key).length + (keyBytes key).length +
      (difficultyBytes key).length }

theorem getV3Parts_value {pubkey : Pubkey} {c : Cursor}
    (hmem : Holds mem c.pos (keyBytes key ++ difficultyBytes key))
    (hlen : (keyBytes key ++ difficultyBytes key).length ≤ c.len) (hlimit : c.len < 2 ^ 31) :
    (getV3Parts pubkey c).value mem = .ok
      ({ pubkey.withKeys pubkeyBehaviors c.pos with
          nonceTrialsPerByte := toUInt64 key.nonceTrialsPerByte.val
          extraBytes := toUInt64 key.payloadLengthExtraBytes.val },
        c.skip (keyBytes key ++ difficultyBytes key).length) := by
  obtain ⟨hkeys, hdifficulty⟩ := (holds_append _ _ _ _).mp hmem
  rw [List.length_append] at hlen ⊢
  have hbehaviours : (get32 c.pos).value mem = .ok pubkeyBehaviors := by
    rw [get32_value, ofBE_window_toBE ((holds_append _ _ _ _).mp hkeys).1 (by decide)]
  have hpointer := readsAt_getPointer (length_keyBytes key) mem c rfl hkeys (by omega) hlimit
  have hnumbers := reads_getNumbers (.cons (reads_varInt (toUInt64_lt
    key.nonceTrialsPerByte.val)) (.cons (reads_varInt (toUInt64_lt
    key.payloadLengthExtraBytes.val)) .nil)) mem (c.skip (keyBytes key).length) hdifficulty
    (by rw [Cursor.skip_len]; exact Nat.le_sub_of_add_le (by rw [Nat.add_comm]; exact hlen))
    (by rw [Cursor.skip_len]; omega)
  rw [getV3Parts, value_bind_of_ok hpointer, value_bind_of_ok hbehaviours,
    value_bind_of_ok hnumbers, Cursor.skip_skip]
  rfl

/-- An object with its keys in the clear is parsed to its fields, and the signed range is the header
behind the nonce, the keys and the difficulty. -/
theorem getPubkey_signed (decrypted : Bool) {header : ObjectHeader} {nonce len : Nat}
    {sig : List UInt8} (hheader : ReadsHeader mem p len header (8 + (headerBytes key).length))
    (hversion : header.version = 3 ∨ header.version = 4 ∧ decrypted = true)
    (hmem : Holds mem p ((add64 nonce ++ headerBytes key) ++ ((keyBytes key ++
      difficultyBytes key) ++ (addVarInt sig.length ++ sig))))
    (hlen : ((add64 nonce ++ headerBytes key) ++ ((keyBytes key ++ difficultyBytes key) ++
      (addVarInt sig.length ++ sig))).length = len)
    (hlimit : len < 2 ^ 31) :
    (getPubkey decrypted p len).value mem = .ok (signedFields key header p sig) := by
  obtain ⟨-, hrest⟩ := (holds_append _ _ _ _).mp hmem
  obtain ⟨hparts, hrest⟩ := (holds_append _ _ _ _).mp hrest
  obtain ⟨hsize, -⟩ := (holds_append _ _ _ _).mp hrest
  have hheaderLen : (add64 nonce ++ headerBytes key).length = 8 + (headerBytes key).length := by
    rw [List.length_append, add64, length_toBE]
  have hpartsLen : (keyBytes key ++ difficultyBytes key).length =
      (keyBytes key).length + (difficultyBytes key).length := List.length_append
  have htotal : (add64 nonce ++ headerBytes key).length +
      ((keyBytes key ++ difficultyBytes key).length +
        ((addVarInt sig.length).length + sig.length)) = len := by
    rw [← hlen]
    simp only [List.length_append]
  unfold ReadsHeader at hheader
  rw [← hheaderLen] at hheader
  generalize (add64 nonce ++ headerBytes key).length = n at *
  generalize hn' : (keyBytes key ++ difficultyBytes key).length = n' at *
  have hv3 : (getV3Parts { header.pubkey with signedData := p + 8 }
      (Cursor.skip { pos := p, len } n)).value mem = _ :=
    getV3Parts_value hparts (by rw [Cursor.skip_len, hn']; simp only; omega)
      (by rw [Cursor.skip_len]; simp only; omega)
  rw [hn', Cursor.skip_skip] at hv3
  have hsig := reads_getVarInt (v := sig.length) (by omega) mem
    (Cursor.skip { pos := p, len } (n + n')) (by rw [Cursor.skip_pos, ← Nat.add_assoc]; exact hsize)
    (by simp only [Cursor.skip]; omega) (by simp only [Cursor.skip]; omega)
  rw [Cursor.skip_skip] at hsig
  have hprocess : (processV3PubkeyParts { header.pubkey with signedData := p + 8 }
      (Cursor.skip { pos := p, len } n)).value mem = .ok (signedFields key header p sig) := by
    rw [processV3PubkeyParts, value_bind_of_ok hv3, value_bind_of_ok hsig]
    dsimp only
    rw [if_neg (by simp only [Cursor.skip, ne_eq, not_not]; omega), value_pure]
    have hkeysAt : p + n = p + 8 + (headerBytes key).length := by omega
    have hsignedLen : p + (n + n') - (p + 8) = (headerBytes key).length +
        (keyBytes key).length + (difficultyBytes key).length := by omega
    have hsigAt : p + (n + n' + (addVarInt sig.length).length) = p + 8 +
        (headerBytes key).length + (keyBytes key).length + (difficultyBytes key).length +
          (addVarInt sig.length).length := by omega
    simp only [Cursor.skip, Pubkey.withKeys, hkeysAt, hsignedLen, hsigAt]
    rfl
  rw [getPubkey, value_bind_of_ok hheader]
  dsimp only [ObjectHeader.values]
  rcases hversion with h3 | ⟨h4, rfl⟩
  · rw [if_neg (by omega), if_neg (by omega), if_pos (Or.inr h3)]
    exact hprocess
  · rw [if_neg (by omega), if_neg (by simp), if_pos (Or.inl h4)]
    exact hprocess

/-! ## 5. Checking an object of one's own -/

-- The receiver puts the byte back that the sender took off.
theorem cons_addPublicKey (hssl : ssl.Lawful) (k : ssl.Key) :
    4 :: addPublicKey ssl k = ssl.pointToOct (ssl.publicKey k) := by
  have hhead := hssl.pointToOct_uncompressed (ssl.publicKey k)
  unfold addPublicKey
  cases hp : ssl.pointToOct (ssl.publicKey k) with
  | nil => simp [hp] at hhead
  | cons b bs =>
    rw [hp, List.head?_cons, Option.some.injEq] at hhead
    rw [hhead, List.drop_one, List.tail_cons]

theorem pointOfNetworkKey_value (hssl : ssl.Lawful) (k : ssl.Key) :
    pointOfNetworkKey ssl (addPublicKey ssl k) = .ok (ssl.publicKey k) := by
  rw [pointOfNetworkKey, cons_addPublicKey hssl, hssl.octToPoint_eq]

-- The ripe that a receiver computes is that of the key's address, and a stream that ends with the
-- key's is cut down to it.
theorem addressFromNetworkKeys_equal (hssl : ssl.Lawful) (key : PrivateKey ssl) {stream : Nat}
    (hstream : stream % 256 = key.address.stream) :
    (addressFromNetworkKeys ssl key.address.version stream
      (addPublicKey ssl key.signingKey) (addPublicKey ssl key.encryptionKey)).equal key.address =
        true := by
  have hripe : ssl.ripemd160 (ssl.sha512 ([4] ++ addPublicKey ssl key.signingKey ++ [4] ++
      addPublicKey ssl key.encryptionKey)) = key.address.ripe := by
    rw [key.ripe_eq, generateRipe, ← cons_addPublicKey hssl key.signingKey,
      ← cons_addPublicKey hssl key.encryptionKey]
    simp only [List.cons_append, List.nil_append, List.append_assoc]
  simp only [Address.equal, addressFromNetworkKeys, hripe, hstream,
    Nat.mod_eq_of_lt key.address.version_lt, beq_self_eq_true, Bool.and_self]

/-- The bytes at the addresses of the parsed fields. -/
theorem signedFields_windows {nonce : Nat} {sig : List UInt8} (header : ObjectHeader)
    (hmem : Holds mem p ((add64 nonce ++ headerBytes key) ++ ((keyBytes key ++
      difficultyBytes key) ++ (addVarInt sig.length ++ sig)))) :
    window mem (signedFields key header p sig).publicSigningKey 64 =
        addPublicKey ssl key.signingKey ∧
      window mem (signedFields key header p sig).publicEncryptionKey 64 =
        addPublicKey ssl key.encryptionKey ∧
      window mem (signedFields key header p sig).signedData
          (signedFields key header p sig).signedDataLength =
        headerBytes key ++ (keyBytes key ++ difficultyBytes key) ∧
      ∃ at_, (signedFields key header p sig).signature = some at_ ∧
        window mem at_ (signedFields key header p sig).signatureLength = sig := by
  have hsplit : (add64 nonce ++ headerBytes key) ++ ((keyBytes key ++ difficultyBytes key) ++
      (addVarInt sig.length ++ sig)) = add64 nonce ++ ((headerBytes key ++ (keyBytes key ++
        difficultyBytes key)) ++ (addVarInt sig.length ++ sig)) := by
    simp only [List.append_assoc]
  rw [hsplit] at hmem
  obtain ⟨-, hrest⟩ := (holds_append _ _ _ _).mp hmem
  obtain ⟨hsigned, hrest⟩ := (holds_append _ _ _ _).mp hrest
  obtain ⟨-, hsig⟩ := (holds_append _ _ _ _).mp hrest
  have hparts := hsigned
  simp only [holds_append, keyBytes, add64, add32, length_toBE, length_addPublicKey] at hparts
  obtain ⟨-, ⟨-, hsigning, hencryption⟩, -⟩ := hparts
  refine ⟨hsigning.window_eq (length_addPublicKey ssl _),
    hencryption.window_eq (length_addPublicKey ssl _), ?_, _, rfl, ?_⟩
  · apply Holds.window_eq
    · rw [add64, length_toBE] at hsigned
      exact hsigned
    · simp only [signedFields, List.length_append, Nat.add_assoc]
  · simp only [add64, length_toBE, List.length_append, ← Nat.add_assoc] at hsig
    exact hsig

/-- The signature of one's own object verifies, and the key is the one of its own address. -/
theorem checkUnencryptedPubkey_value (hssl : ssl.Lawful) (key : PrivateKey ssl) {nonce : Nat}
    {header : ObjectHeader} (hversion : header.version = key.address.version)
    (hstream : header.stream % 256 = key.address.stream)
    (hmem : Holds mem p ((add64 nonce ++ headerBytes key.toKey) ++ ((keyBytes key.toKey ++
      difficultyBytes key.toKey) ++ appendSignature ssl key.signingKey
        (headerBytes key.toKey ++ (keyBytes key.toKey ++ difficultyBytes key.toKey))))) :
    ∃ checked, checkUnencryptedPubkey ssl mem key.address (signedFields key.toKey header p
      (ssl.ecdsaSign key.signingKey (ssl.sha1 (headerBytes key.toKey ++ (keyBytes key.toKey ++
        difficultyBytes key.toKey))))) = .ok checked := by
  obtain ⟨hsigning, hencryption, hsigned, sigAt, hat, hsig⟩ := signedFields_windows header hmem
  have hverify := hssl.ecdsaVerify_sign key.signingKey (ssl.sha1 (headerBytes key.toKey ++
    (keyBytes key.toKey ++ difficultyBytes key.toKey)))
  have hequal := addressFromNetworkKeys_equal hssl key hstream
  generalize hf : signedFields key.toKey header p (ssl.ecdsaSign key.signingKey (ssl.sha1
    (headerBytes key.toKey ++ (keyBytes key.toKey ++ difficultyBytes key.toKey)))) = fields at *
  have hfv : fields.version = key.address.version := by
    rw [← hf, ← hversion]
    rfl
  have hfs : fields.stream = header.stream := by
    rw [← hf]
    rfl
  simp only [checkUnencryptedPubkey, hat, hsigning, hencryption, hsigned, hsig,
    checkSignatureForData, pointOfNetworkKey_value hssl, hfv, hfs, hequal, bind, Except.bind, pure,
    Except.pure, hverify]
  exact ⟨_, rfl⟩

/-! ## 6. The object of a key that is opened by its owner -/

/-- For every nonce and wherever the finished object is stored, the owner opens it, finds as signed
data what was signed, and accepts the key for its own address. -/
def VerifiesOwnPubkey (env : Environment ssl) (key : Key ssl) : Prop :=
  ∀ (nonce : Nat) (mem behind : Memory) (p : Nat),
    let blob := createPubkeyBlob env key
    let object := blob.finished nonce
    Holds mem p object → p + object.length < 2 ^ 64 →
      ∃ mem' pubkey, openPubkey ssl mem behind key.address p object.length = .ok (mem', pubkey) ∧
        blob.signed = some (window mem' pubkey.signedData pubkey.signedDataLength) ∧
        ∃ checked, checkPubkey ssl mem behind key.address p object.length = .ok checked

theorem checkPubkey_of_open {mem' behind : Memory} {expected : Address} {size : Nat}
    {pubkey : Pubkey} (h : openPubkey ssl mem behind expected p size = .ok (mem', pubkey)) :
    checkPubkey ssl mem behind expected p size =
      checkUnencryptedPubkey ssl mem' expected pubkey := by
  rw [checkPubkey, h]
  rfl

/-- The clear part of a version 4 object: its tag, and where the encrypted part is. -/
theorem getPubkey_v4 {header : ObjectHeader} {nonce len : Nat} {tag encrypted : List UInt8}
    (hheader : ReadsHeader mem p len header (8 + (headerBytes key).length))
    (hversion : header.version = 4) (htag : tag.length = 32)
    (hmem : Holds mem p ((add64 nonce ++ headerBytes key) ++ (tag ++ encrypted)))
    (hlen : ((add64 nonce ++ headerBytes key) ++ (tag ++ encrypted)).length = len)
    (hlimit : len < 2 ^ 31) :
    (getPubkey false p len).value mem = .ok { header.pubkey with
      tag := p + (add64 nonce ++ headerBytes key).length
      encryptedData := some (p + (add64 nonce ++ headerBytes key).length + 32)
      encryptedDataLength := encrypted.length } := by
  obtain ⟨-, hrest⟩ := (holds_append _ _ _ _).mp hmem
  obtain ⟨htagAt, -⟩ := (holds_append _ _ _ _).mp hrest
  have hheaderLen : (add64 nonce ++ headerBytes key).length = 8 + (headerBytes key).length := by
    rw [List.length_append, add64, length_toBE]
  have htotal : (add64 nonce ++ headerBytes key).length + (32 + encrypted.length) = len := by
    rw [← hlen]
    simp only [List.length_append, htag]
  unfold ReadsHeader at hheader
  rw [← hheaderLen] at hheader
  generalize (add64 nonce ++ headerBytes key).length = n at *
  have hpointer := readsAt_getPointer htag mem (Cursor.skip { pos := p, len } n) rfl htagAt
    (by simp only [Cursor.skip]; omega) (by simp only [Cursor.skip]; omega)
  rw [htag, Cursor.skip_skip] at hpointer
  rw [getPubkey, value_bind_of_ok hheader]
  dsimp only [ObjectHeader.values]
  rw [if_neg (by omega), if_pos ⟨hversion, by simp⟩, processV4PubkeyParts,
    value_bind_of_ok hpointer, value_pure]
  have hat : p + (n + 32) = p + n + 32 := by omega
  have hleft : len - (n + 32) = encrypted.length := by omega
  simp only [Cursor.skip, hat, hleft]
  rfl

/-- A version 4 object is decrypted behind its own header, which gives the signed object back. -/
theorem openPubkey_v4 (hssl : ssl.Lawful) (behind : Memory) {header : ObjectHeader} {nonce : Nat}
    {sig : List UInt8} (hversion : header.version = 4)
    (hheader : Encodes pubkeyHeader header.values (add64 nonce ++ headerBytes key))
    (hsig : (addVarInt sig.length ++ sig).length ≤ 81) (encrypted : Buffer)
    (henc : encrypted = Ecc.encryptWithPoint ssl env.ephemeral env.iv
      (ssl.publicKey (ssl.keyOfPrivate (key.address.tagPrivateKey ssl)))
      ((keyBytes key ++ difficultyBytes key) ++ (addVarInt sig.length ++ sig)))
    (hmem : Holds mem p ((add64 nonce ++ headerBytes key) ++ (key.address.tag ssl ++ encrypted)))
    (hspace : p + ((add64 nonce ++ headerBytes key) ++
      (key.address.tag ssl ++ encrypted)).length < 2 ^ 64)
    (hlimit : ((add64 nonce ++ headerBytes key) ++ (key.address.tag ssl ++ encrypted)).length <
      2 ^ 31) :
    openPubkey ssl mem behind key.address p
        ((add64 nonce ++ headerBytes key) ++ (key.address.tag ssl ++ encrypted)).length =
      .ok (overlay ((add64 nonce ++ headerBytes key) ++ ((keyBytes key ++ difficultyBytes key) ++
        (addVarInt sig.length ++ sig))) behind, signedFields key header 0 sig) := by
  have htagLen := key.address.length_tag ssl
  obtain ⟨hheaderAt, hrest⟩ := (holds_append _ _ _ _).mp hmem
  have hparse := getPubkey_v4 (readsHeader_of_encodes hheader hheaderAt
    (by simp only [List.length_append]; omega) hlimit) hversion htagLen hmem rfl hlimit
  obtain ⟨htag, hencrypted⟩ := (holds_append _ _ _ _).mp hrest
  rw [htagLen] at hencrypted
  have hbody : ((add64 nonce ++ headerBytes key) ++ ((keyBytes key ++ difficultyBytes key) ++
      (addVarInt sig.length ++ sig))).length < 2 ^ 31 := by
    have h₁ := length_headerBytes_le key
    have h₂ := length_keyBytes key
    have h₃ := length_difficultyBytes_le key
    simp only [List.length_append, add64, length_toBE] at hsig ⊢
    omega
  have hdecrypt := Ecc.decrypt_encryptWithPoint hssl env.length_iv (henc ▸ hencrypted) rfl
    (by
      rw [← henc]
      simp only [List.length_append, htagLen] at hspace ⊢
      omega)
  rw [← henc] at hdecrypt
  have hoverlay := holds_overlay ((add64 nonce ++ headerBytes key) ++ ((keyBytes key ++
    difficultyBytes key) ++ (addVarInt sig.length ++ sig))) behind
  have hsigned := getPubkey_signed true (readsHeader_of_encodes hheader
    ((holds_append _ _ _ _).mp hoverlay).1 (by simp only [List.length_append]; omega) hbody)
    (Or.inr ⟨hversion, rfl⟩) hoverlay rfl hbody
  have hwindow : window mem p (p + (add64 nonce ++ headerBytes key).length - p) =
      add64 nonce ++ headerBytes key := by
    rw [Nat.add_sub_cancel_left]
    exact hheaderAt
  rw [openPubkey, Nat.mod_eq_of_lt (by omega), hparse]
  simp only [bind, Except.bind, htag.window_eq htagLen, ne_eq, not_true_eq_false, if_false,
    hwindow, hdecrypt]
  rw [Nat.mod_eq_of_lt (by omega), hsigned]
  rfl

theorem length_encryptWithPoint_le (hssl : ssl.Lawful) (env : Environment ssl)
    (point : ssl.Point) (data : List UInt8) :
    (Ecc.encryptWithPoint ssl env.ephemeral env.iv point data).length ≤ data.length + 134 := by
  have hiv := env.length_iv
  have hmac := ssl.length_hmac
  have hcipher := hssl.length_ciphertext ((ssl.ecdh point env.ephemeral).take 32) env.iv data
  have hpoint := hssl.coordinates_lt (ssl.publicKey env.ephemeral)
  have hx := numBytes_le hpoint.1
  have hy := numBytes_le hpoint.2
  rw [Ecc.encryptWithPoint_eq]
  simp only [List.length_append, hmac, hiv, Ecc.encodePubkey, Ecc.encodeBignumber, add16,
    length_toBE, ivLength, macLength] at hcipher ⊢
  omega

-- The finished object of a version 4 key.
theorem finished_v4 (env : Environment ssl) (hversion : key.address.version = 4) (nonce : Nat) :
    (createPubkeyBlob env key).finished nonce = (add64 nonce ++ headerBytes key) ++
      (key.address.tag ssl ++ Ecc.encryptWithPoint ssl env.ephemeral env.iv
        (ssl.publicKey (ssl.keyOfPrivate (key.address.tagPrivateKey ssl)))
        ((keyBytes key ++ difficultyBytes key) ++ appendSignature ssl key.signingKey
          (headerBytes key ++ (keyBytes key ++ difficultyBytes key)))) := by
  rw [createPubkeyBlob, if_pos hversion, createV4Key_eq, finished_eq (length_window _ _ _) rfl]
  simp only [List.append_assoc]

theorem length_finished_v4 (hssl : ssl.Lawful) (env : Environment ssl)
    (hversion : key.address.version = 4) (nonce : Nat) :
    ((createPubkeyBlob env key).finished nonce).length < 2 ^ 31 := by
  have h₁ := length_headerBytes_le key
  have h₂ := length_keyBytes key
  have h₃ := length_difficultyBytes_le key
  have h₄ := key.address.length_tag ssl
  have h₅ := length_appendSignature_le hssl key.signingKey
    (headerBytes key ++ (keyBytes key ++ difficultyBytes key))
  have h₆ := length_encryptWithPoint_le hssl env
    (ssl.publicKey (ssl.keyOfPrivate (key.address.tagPrivateKey ssl)))
    ((keyBytes key ++ difficultyBytes key) ++ appendSignature ssl key.signingKey
      (headerBytes key ++ (keyBytes key ++ difficultyBytes key)))
  rw [finished_v4 env hversion]
  simp only [List.length_append, add64, length_toBE] at h₆ ⊢
  omega

/-- A version 4 object carries what was signed, and it is accepted if its time reads back. -/
theorem v4_verifies (hssl : ssl.Lawful) (key : PrivateKey ssl)
    (hversion : key.address.version = 4) (htime : TimeReadsBack key.toKey) :
    VerifiesOwnPubkey env key.toKey := by
  let signed := headerBytes key.toKey ++ (keyBytes key.toKey ++ difficultyBytes key.toKey)
  let sig := ssl.ecdsaSign key.signingKey (ssl.sha1 signed)
  let encrypted := Ecc.encryptWithPoint ssl env.ephemeral env.iv
    (ssl.publicKey (ssl.keyOfPrivate (key.address.tagPrivateKey ssl)))
    ((keyBytes key.toKey ++ difficultyBytes key.toKey) ++ (addVarInt sig.length ++ sig))
  obtain ⟨timestamp, stream, hstream, hencodes⟩ := header_encodes hversion htime
  intro nonce mem behind p
  have hsignedEq : (createPubkeyBlob env key.toKey).signed = some signed := by
    rw [createPubkeyBlob, if_pos hversion, createV4Key_eq]
  have hsigLen : (addVarInt sig.length ++ sig).length ≤ 81 :=
    length_appendSignature_le hssl key.signingKey signed
  have hobject := length_finished_v4 hssl env hversion nonce
  have hfinished : (createPubkeyBlob env key.toKey).finished nonce =
      (add64 nonce ++ headerBytes key.toKey) ++ (key.address.tag ssl ++ encrypted) :=
    finished_v4 env hversion nonce
  dsimp only
  rw [hfinished] at hobject ⊢
  intro hat hspace
  have hopen := openPubkey_v4 hssl behind rfl (hencodes nonce) hsigLen encrypted rfl hat hspace
    hobject
  refine ⟨_, _, hopen, ?_, ?_⟩
  · rw [hsignedEq, (signedFields_windows _ (holds_overlay _ behind)).2.2.1]
  · rw [checkPubkey_of_open hopen]
    exact checkUnencryptedPubkey_value hssl key hversion.symm hstream (holds_overlay _ behind)

/-- The RIPE of the private keys 5 and 6. -/
def sampleRipe : List UInt8 :=
  generateRipe OpenSSL.additive (5 : Fin (2 ^ 256)) (6 : Fin (2 ^ 256))

theorem length_sampleRipe : sampleRipe.length = 20 := length_fitTo 20 _

/-- A private key on stream 1, last sent in May 2014. -/
def sampleKey (version : Nat) (hversion : version < 256) : PrivateKey OpenSSL.additive where
  address := ⟨version, 1, sampleRipe, hversion, Address.one_lt, length_sampleRipe⟩
  nonceTrialsPerByte := leastTrials
  payloadLengthExtraBytes := leastExtraBytes
  lastPubkeySendTime := 1400000000
  signingKey := (5 : Fin (2 ^ 256))
  encryptionKey := (6 : Fin (2 ^ 256))
  ripe_eq := rfl

/-- A blob whose data starts at offset 16. -/
def sampleEnvironment : Environment OpenSSL.additive where
  fill _ := 0
  header := List.replicate 16 0
  header_pos := by decide
  ephemeral := (7 : Fin (2 ^ 256))
  iv := List.replicate 16 1
  length_iv := rfl

end Notbit.Crypto
