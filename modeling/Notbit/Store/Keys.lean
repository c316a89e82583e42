import Notbit.Store.Outgoings

/-!
# Keys — the file of the keys (`ntb-store.c`, `ntb-load-keys.c`)

A key with its private halves is saved as two numbers, any other key as two points.  The loader
keeps one record for all sections of a file and makes a key of it when the next section starts.
-/

open Bytes Scans Notbit.Proto

namespace Notbit.Store

/-! ## 1. Keys -/

/-- The calls to OpenSSL that make and save a key. -/
structure Curve where
  sha256 : List UInt8 → List UInt8
  length_sha256 : ∀ data, (sha256 data).length = 32
  Point : Type
  /-- `EC_POINT_mul` of the generator with a private key. -/
  mul : Nat → Point
  /-- `EC_POINT_point2oct` without compression and `EC_POINT_oct2point`, which can fail. -/
  pointToOct : Point → List UInt8
  octToPoint : List UInt8 → Option Point

/-- `NTB_ECC_PRIVATE_KEY_SIZE` -/
def privateKeySize : Nat := 32

/-- `NTB_ECC_PUBLIC_KEY_SIZE` -/
def publicKeySize : Nat := 65

/-- An array of a fixed size. -/
abbrev Bytes (size : Nat) : Type := { bytes : List UInt8 // bytes.length = size }

/-- `EC_KEY`: the public half is the point of the private one, and not the point at infinity, whose
encoding is shorter. -/
@[ext] structure EcKey (curve : Curve) where
  privateKey : Option { n : Nat // n < 256 ^ privateKeySize }
  publicKey : curve.Point
  public_eq : ∀ n, privateKey = some n → publicKey = curve.mul n.val
  length_public : (curve.pointToOct publicKey).length = publicKeySize

/-- The keys of a `struct ntb_key`: both have a private half or none has. -/
@[ext] structure KeyPair (curve : Curve) where
  signingKey : EcKey curve
  encryptionKey : EcKey curve
  halves : signingKey.privateKey.isSome = encryptionKey.privateKey.isSome

/-- `struct ntb_key`.  The tag is that of the address. -/
@[ext] structure StoredKey (ssl : OpenSSL) (curve : Curve) extends KeyPair curve where
  address : Address
  label : List UInt8
  nonceTrialsPerByte : CInt
  payloadLengthExtraBytes : CInt
  lastPubkeySendTime : CInt64
  enabled : Bool
  decoy : Bool
  /-- `generate_ripe` -/
  ripe_eq : address.ripe = ssl.ripemd160 (ssl.sha512
    (curve.pointToOct signingKey.publicKey ++ curve.pointToOct encryptionKey.publicKey))

variable {ssl : OpenSSL} {curve : Curve}

/-- The two halves `ntb_key_new` is called with. -/
inductive KeyHalves where
  | privateKeys (signing encryption : Bytes privateKeySize)
  | publicKeys (signing encryption : Bytes publicKeySize)

/-- `ntb_ecc_create_key`; the point is checked when it is encoded for the ripe. -/
def createKey (curve : Curve) (privateKey : Bytes privateKeySize) : Option (EcKey curve) :=
  let n := ofBE privateKey.val
  if h : (curve.pointToOct (curve.mul n)).length = publicKeySize then
    some {
      privateKey := some ⟨n, (ofBE_lt privateKey.val).trans_eq (by rw [privateKey.property])⟩
      publicKey := curve.mul n
      public_eq := fun _ hbytes => Option.some.inj hbytes ▸ rfl
      length_public := h }
  else none

/-- `ntb_ecc_create_key_with_public` without a private half. -/
def createKeyWithPublic (curve : Curve) (publicKey : Bytes publicKeySize) : Option (EcKey curve) :=
  match curve.octToPoint publicKey.val with
  | none => none
  | some point =>
    if h : (curve.pointToOct point).length = publicKeySize then
      some { privateKey := none, publicKey := point, public_eq := nofun, length_public := h }
    else none

theorem isSome_of_createKey {privateKey : Bytes privateKeySize} {key : EcKey curve}
    (h : createKey curve privateKey = some key) : key.privateKey.isSome = true := by
  unfold createKey at h
  dsimp only at h
  split at h
  · obtain rfl := Option.some.inj h
    rfl
  · exact absurd h nofun

theorem isSome_of_createKeyWithPublic {publicKey : Bytes publicKeySize} {key : EcKey curve}
    (h : createKeyWithPublic curve publicKey = some key) : key.privateKey.isSome = false := by
  unfold createKeyWithPublic at h
  split at h
  · exact absurd h nofun
  · split at h
    · obtain rfl := Option.some.inj h
      rfl
    · exact absurd h nofun

/-- The keys that `ntb_key_new` makes of two halves. -/
def KeyHalves.create (curve : Curve) : KeyHalves → Option (KeyPair curve)
  | .privateKeys signing encryption =>
    match hs : createKey curve signing, he : createKey curve encryption with
    | some signingKey, some encryptionKey => some {
        signingKey, encryptionKey
        halves := (isSome_of_createKey hs).trans (isSome_of_createKey he).symm }
    | _, _ => none
  | .publicKeys signing encryption =>
    match hs : createKeyWithPublic curve signing, he : createKeyWithPublic curve encryption with
    | some signingKey, some encryptionKey => some {
        signingKey, encryptionKey
        halves := (isSome_of_createKeyWithPublic hs).trans (isSome_of_createKeyWithPublic he).symm }
    | _, _ => none

/-- `struct ntb_key_params` as the loader fills it in. -/
structure KeyParams where
  label : Option (List UInt8)
  version : UInt8
  stream : UInt8
  nonceTrialsPerByte : CInt
  payloadLengthExtraBytes : CInt
  lastPubkeySendTime : CInt64
  enabled : Bool
  decoy : Bool
  keys : KeyHalves

/-- `ntb_key_new` as the loader calls it.  The program ends where there is no label to copy or an
assertion about the points fails. -/
def keyNew (ssl : OpenSSL) (curve : Curve) (params : KeyParams) : Option (StoredKey ssl curve) :=
  match params.label, params.keys.create curve with
  | some label, some pair =>
    some { pair with
      address := {
        version := params.version.toNat
        stream := params.stream.toNat
        ripe := ssl.ripemd160 (ssl.sha512
          (curve.pointToOct pair.signingKey.publicKey ++
            curve.pointToOct pair.encryptionKey.publicKey))
        version_lt := params.version.toNat_lt
        stream_lt := params.stream.toNat_lt
        length_ripe := ssl.length_ripemd160 _ }
      label
      nonceTrialsPerByte := params.nonceTrialsPerByte
      payloadLengthExtraBytes := params.payloadLengthExtraBytes
      lastPubkeySendTime := params.lastPubkeySendTime
      enabled := params.enabled
      decoy := params.decoy
      ripe_eq := rfl }
  | _, _ => none

/-! ## 2. Writing -/

/-- The end of the double hash of `encode_wif` and `parse_wif`. -/
def wifChecksum (curve : Curve) (bytes : List UInt8) : List UInt8 :=
  (curve.sha256 (curve.sha256 bytes)).take 4

/-- `encode_wif` -/
def encodeWif (curve : Curve) (privateKey : Nat) : List UInt8 :=
  let nBytes := numBytes privateKey
  let bytes := 0x80 :: (List.replicate (privateKeySize - nBytes) 0 ++ toBE nBytes privateKey)
  Base58.encode (bytes ++ wifChecksum curve bytes)

/-- `encode_public_key` -/
def encodePublicKey (key : EcKey curve) : List UInt8 :=
  Base58.encode (curve.pointToOct key.publicKey)

/-- `NTB_STORE_MAX_WIF_LENGTH` -/
def maxWifLength : Nat := 51

/-- `NTB_STORE_MAX_PUBLIC_KEY_LENGTH` -/
def maxPublicKeyLength : Nat := 89

/-- The lines that `write_key` prints behind the header. -/
def StoredKey.properties (key : StoredKey ssl curve) : List (List UInt8 × List UInt8) :=
  [(ascii "label", key.label),
    (ascii "noncetrialsperbyte", printSigned key.nonceTrialsPerByte.val),
    (ascii "payloadlengthextrabytes", printSigned key.payloadLengthExtraBytes.val)] ++
  match key.signingKey.privateKey, key.encryptionKey.privateKey with
  | some signing, some encryption =>
    [(ascii "privsigningkey", encodeWif curve signing.val),
      (ascii "privencryptionkey", encodeWif curve encryption.val),
      (ascii "lastpubkeysendtime", printSigned key.lastPubkeySendTime.val),
      (ascii "enabled", printBool key.enabled),
      (ascii "decoy", printBool key.decoy)]
  | _, _ =>
    [(ascii "pubsigningkey", encodePublicKey key.signingKey),
      (ascii "pubencryptionkey", encodePublicKey key.encryptionKey)]

/-- `write_key` -/
def writeKey (key : StoredKey ssl curve) : List UInt8 :=
  sectionText (key.address.encode ssl) key.properties

/-! ## 3. Reading -/

/-- `parse_wif` -/
def parseWif (curve : Curve) (value : List UInt8) : Option (Bytes privateKeySize) :=
  match Base58.decode value (1 + privateKeySize + 4) with
  | none => none
  | some bytes =>
    let keyBuf := List.replicate (1 + privateKeySize + 4 - bytes.length) 0 ++ bytes
    let privateKey := (keyBuf.drop 1).take privateKeySize
    if keyBuf.head? ≠ some 0x80 then none
    else if keyBuf.drop (1 + privateKeySize) ≠
        wifChecksum curve (keyBuf.take (privateKeySize + 1)) then none
    else if h : privateKey.length = privateKeySize then some ⟨privateKey, h⟩
    else none

/-- `parse_public_key`: what is in the array afterwards, and whether it is a key.  A key of another
length is written over the start of the array. -/
def parsePublicKey (value : List UInt8) (result : Bytes publicKeySize) :
    Bytes publicKeySize × Bool :=
  match Base58.decode value publicKeySize with
  | none => (result, false)
  | some bytes =>
    let written := bytes ++ result.val.drop bytes.length
    if h : written.length = publicKeySize then
      (⟨written, h⟩, bytes.length = publicKeySize ∧ bytes.head? = some 4)
    else (result, false)

/-- `struct ntb_load_keys_data`: a buffer that was never written to has no string in it. -/
structure LoadKeysData where
  label : Option (List UInt8)
  address : Option (List UInt8)
  nonceTrialsPerByte : CInt
  payloadLengthExtraBytes : CInt
  lastPubkeySendTime : CInt64
  enabled : Bool
  decoy : Bool
  hasPrivateSigningKey : Bool
  hasPrivateEncryptionKey : Bool
  hasPublicSigningKey : Bool
  hasPublicEncryptionKey : Bool
  privateSigningKey : Bytes privateKeySize
  privateEncryptionKey : Bytes privateKeySize
  publicSigningKey : Bytes publicKeySize
  publicEncryptionKey : Bytes publicKeySize

/-- An array of zeroes. -/
def zeroBytes (size : Nat) : Bytes size := ⟨List.replicate size 0, List.length_replicate⟩

namespace LoadKeysData

/-- A record in memory that is all zero. -/
def blank : LoadKeysData where
  label := none
  address := none
  nonceTrialsPerByte := ⟨0, by decide, by decide⟩
  payloadLengthExtraBytes := ⟨0, by decide, by decide⟩
  lastPubkeySendTime := CInt64.zero
  enabled := false
  decoy := false
  hasPrivateSigningKey := false
  hasPrivateEncryptionKey := false
  hasPublicSigningKey := false
  hasPublicEncryptionKey := false
  privateSigningKey := zeroBytes privateKeySize
  privateEncryptionKey := zeroBytes privateKeySize
  publicSigningKey := zeroBytes publicKeySize
  publicEncryptionKey := zeroBytes publicKeySize

/-- `reset_data`: the strings stay in their buffers, although their lengths are set to zero. -/
def reset (data : LoadKeysData) : LoadKeysData :=
  { data with
    nonceTrialsPerByte := ⟨minNonceTrialsPerByte, by decide, by decide⟩
    payloadLengthExtraBytes := ⟨minExtraBytes, by decide, by decide⟩
    lastPubkeySendTime := CInt64.zero
    enabled := true
    decoy := false
    hasPrivateSigningKey := false
    hasPrivateEncryptionKey := false
    hasPublicSigningKey := false
    hasPublicEncryptionKey := false }

/-- The keys `flush_key` finds in a section. -/
def keys (data : LoadKeysData) : Option KeyHalves :=
  if data.hasPrivateSigningKey ∧ data.hasPrivateEncryptionKey then
    some (.privateKeys data.privateSigningKey data.privateEncryptionKey)
  else if data.hasPublicSigningKey ∧ data.hasPublicEncryptionKey then
    some (.publicKeys data.publicSigningKey data.publicEncryptionKey)
  else none

/-- The parameters `flush_key` passes to `ntb_key_new`.  An address that is not valid is replaced by
the defaults. -/
def params (ssl : OpenSSL) (data : LoadKeysData) (addressString : List UInt8) (keys : KeyHalves) :
    KeyParams :=
  let (version, stream) := match Address.decode ssl addressString with
    | some address => (UInt8.ofNat address.version, UInt8.ofNat address.stream)
    | none => (4, 1)
  { label := data.label
    version, stream
    nonceTrialsPerByte := data.nonceTrialsPerByte
    payloadLengthExtraBytes := data.payloadLengthExtraBytes
    lastPubkeySendTime := data.lastPubkeySendTime
    enabled := data.enabled
    decoy := data.decoy
    keys }

/-- `flush_key` without the reset: the key that is reported, if any; `none` where the program
ends. -/
def flushKey (ssl : OpenSSL) (curve : Curve) (data : LoadKeysData) :
    Option (Option (StoredKey ssl curve)) :=
  match data.keys with
  | none => some none
  | some keys =>
    match data.address with
    | none => none
    | some addressString => (keyNew ssl curve (data.params ssl addressString keys)).map some

/-- `process_property` -/
def processProperty (curve : Curve) (data : LoadKeysData) (key value : List UInt8) :
    LoadKeysData :=
  if key = ascii "label" then { data with label := some value }
  else if key = ascii "enabled" then
    match parseBoolValue value with
    | some enabled => { data with enabled }
    | none => data
  else if key = ascii "decoy" then
    match parseBoolValue value with
    | some decoy => { data with decoy }
    | none => data
  else if key = ascii "noncetrialsperbyte" then
    match parseIntValue value intMax with
    | some trials => { data with nonceTrialsPerByte := intOfInt64 trials }
    | none => data
  else if key = ascii "payloadlengthextrabytes" then
    match parseIntValue value intMax with
    | some extra => { data with payloadLengthExtraBytes := intOfInt64 extra }
    | none => data
  else if key = ascii "privsigningkey" then
    match parseWif curve value with
    | some privateKey =>
      { data with privateSigningKey := privateKey, hasPrivateSigningKey := true }
    | none => data
  else if key = ascii "privencryptionkey" then
    match parseWif curve value with
    | some privateKey =>
      { data with privateEncryptionKey := privateKey, hasPrivateEncryptionKey := true }
    | none => data
  else if key = ascii "pubsigningkey" then
    let (result, ok) := parsePublicKey value data.publicSigningKey
    { data with
      publicSigningKey := result, hasPublicSigningKey := data.hasPublicSigningKey || ok }
  else if key = ascii "pubencryptionkey" then
    let (result, ok) := parsePublicKey value data.publicEncryptionKey
    { data with
      publicEncryptionKey := result, hasPublicEncryptionKey := data.hasPublicEncryptionKey || ok }
  else if key = ascii "lastpubkeysendtime" then
    match parseIntValue value int64Max with
    | some time => { data with lastPubkeySendTime := CInt64.ofInt time }
    | none => data
  else data

end LoadKeysData

/-- The loader between two lines; there is none when the program has ended. -/
abbrev Loader : Type := Option LoadKeysData

/-- What `flush_key` reports for the section that has been read. -/
def Loader.flush (ssl : OpenSSL) (curve : Curve) (loader : Loader) :
    Option (Option (StoredKey ssl curve)) :=
  loader.bind (LoadKeysData.flushKey ssl curve)

/-- `key_value_event_cb` -/
def Loader.keyValueEventCb (ssl : OpenSSL) (curve : Curve) (loader : Loader) :
    KeyValueEvent → Loader × Option (Option (StoredKey ssl curve))
  | .header value =>
    match loader.flush ssl curve with
    | none => (none, none)
    | some report =>
      (loader.map fun data => { data.reset with address := some value }, some report)
  | .property key value =>
    (loader.map fun data => data.processProperty curve key value, none)

/-- The start of `ntb_load_keys`: most of the record is not initialised. -/
def Loader.start (uninitialised : LoadKeysData) : Loader :=
  some { uninitialised.reset with label := none, address := none }

/-- `ntb_load_keys`: what each call of `flush_key` reports. -/
def loadReports (ssl : OpenSSL) (curve : Curve) (uninitialised : LoadKeysData)
    (file : List UInt8) : List (Option (StoredKey ssl curve)) :=
  let (loader, reports) := scan (Loader.keyValueEventCb ssl curve) (Loader.start uninitialised)
    (keyValueLoad file)
  reports ++ (loader.flush ssl curve).toList

/-- The keys that `ntb_load_keys` passes to its callback. -/
def loadKeys (ssl : OpenSSL) (curve : Curve) (uninitialised : LoadKeysData)
    (file : List UInt8) : List (StoredKey ssl curve) :=
  (loadReports ssl curve uninitialised file).filterMap id

/-! ## 4. What is written is read back -/

theorem length_wifChecksum (curve : Curve) (bytes : List UInt8) :
    (wifChecksum curve bytes).length = 4 := by
  rw [wifChecksum, List.length_take, curve.length_sha256]
  rfl

/-- The array that `encode_wif` makes a numeral of. -/
def wifBytes (curve : Curve) (privateKey : Nat) : List UInt8 :=
  0x80 :: (toBE privateKeySize privateKey ++
    wifChecksum curve (0x80 :: toBE privateKeySize privateKey))

theorem encodeWif_eq (curve : Curve) {n : Nat} (hn : n < 256 ^ privateKeySize) :
    encodeWif curve n = Base58.encode (wifBytes curve n) := by
  unfold encodeWif
  dsimp only
  rw [replicate_toBE hn]
  rfl

theorem length_wifBytes (curve : Curve) (n : Nat) :
    (wifBytes curve n).length = 1 + privateKeySize + 4 := by
  rw [wifBytes, List.length_cons, List.length_append, length_toBE, length_wifChecksum]
  rfl

theorem parseWif_encodeWif (curve : Curve) {n : Nat} (hn : n < 256 ^ privateKeySize) :
    parseWif curve (encodeWif curve n) =
      some ⟨toBE privateKeySize n, length_toBE privateKeySize n⟩ := by
  have hlength := length_wifBytes curve n
  have hdecode : Base58.decode (encodeWif curve n) (1 + privateKeySize + 4) =
      some (wifBytes curve n) := by
    rw [encodeWif_eq curve hn]
    exact Base58.decode_encode_cons (by decide) (le_of_eq hlength)
  have hkey : ((wifBytes curve n).drop 1).take privateKeySize = toBE privateKeySize n := by
    rw [wifBytes, List.drop_one, List.tail_cons]
    exact List.take_left' (length_toBE privateKeySize n)
  have htake : (wifBytes curve n).take (privateKeySize + 1) = 0x80 :: toBE privateKeySize n := by
    rw [wifBytes, List.take_succ_cons]
    exact congrArg (List.cons 0x80) (List.take_left' (length_toBE privateKeySize n))
  have hdrop : (wifBytes curve n).drop (1 + privateKeySize) =
      wifChecksum curve (0x80 :: toBE privateKeySize n) := by
    rw [wifBytes, Nat.add_comm, List.drop_succ_cons]
    exact List.drop_left' (length_toBE privateKeySize n)
  unfold parseWif
  rw [hdecode]
  dsimp only
  simp only [hlength, Nat.sub_self, List.replicate_zero, List.nil_append, hkey, htake, hdrop]
  rw [if_neg (by simp [wifBytes]), if_neg (by simp), dif_pos (length_toBE privateKeySize n)]

theorem length_encodeWif (curve : Curve) {n : Nat} (hn : n < 256 ^ privateKeySize) :
    (encodeWif curve n).length ≤ maxWifLength := by
  have hlt := ofBE_lt (wifBytes curve n)
  rw [length_wifBytes] at hlt
  have hbase : 256 ^ (1 + privateKeySize + 4) < 58 ^ maxWifLength := by decide
  rw [encodeWif_eq curve hn]
  exact Base58.length_encode_le (by decide) (hlt.trans hbase)

theorem length_encodePublicKey (key : EcKey curve) :
    (encodePublicKey key).length ≤ maxPublicKeyLength := by
  have hlt := ofBE_lt (curve.pointToOct key.publicKey)
  rw [key.length_public] at hlt
  have hbase : 256 ^ publicKeySize < 58 ^ maxPublicKeyLength := by decide
  exact Base58.length_encode_le (by decide) (hlt.trans hbase)

-- A private half is made into the key it was taken from.
theorem createKey_of_private {key : EcKey curve} {n : { n : Nat // n < 256 ^ privateKeySize }}
    (bytes : Bytes privateKeySize) (h : key.privateKey = some n) (hbytes : ofBE bytes.val = n.val) :
    createKey curve bytes = some key := by
  have hpublic := key.public_eq n h
  have hlength := key.length_public
  obtain ⟨n, hn⟩ := n
  dsimp only at hbytes hpublic
  subst n
  rw [hpublic] at hlength
  unfold createKey
  dsimp only
  rw [dif_pos hlength]
  exact congrArg some (EcKey.ext h.symm hpublic.symm)

/-- What `EC_POINT_point2oct` and `EC_POINT_oct2point` do with a point that is not the point at
infinity. -/
structure Curve.Lawful (curve : Curve) : Prop where
  head_pointToOct : ∀ p, (curve.pointToOct p).length = publicKeySize →
    (curve.pointToOct p).head? = some 4
  octToPoint_pointToOct : ∀ p, (curve.pointToOct p).length = publicKeySize →
    curve.octToPoint (curve.pointToOct p) = some p

theorem parsePublicKey_encodePublicKey (hcurve : curve.Lawful) (key : EcKey curve)
    (result : Bytes publicKeySize) :
    parsePublicKey (encodePublicKey key) result =
      (⟨curve.pointToOct key.publicKey, key.length_public⟩, true) := by
  have hlength := key.length_public
  have hhead := hcurve.head_pointToOct key.publicKey hlength
  have hdecode : Base58.decode (encodePublicKey key) publicKeySize =
      some (curve.pointToOct key.publicKey) := by
    obtain ⟨b, bs, hcons⟩ : ∃ b bs, curve.pointToOct key.publicKey = b :: bs :=
      List.exists_cons_of_ne_nil fun hnil => by simp [hnil] at hhead
    rw [hcons, List.head?_cons, Option.some.injEq] at hhead
    rw [encodePublicKey, hcons]
    rw [hcons] at hlength
    exact Base58.decode_encode_cons (by rw [hhead]; decide) (le_of_eq hlength)
  have hwritten : curve.pointToOct key.publicKey ++
      result.val.drop (curve.pointToOct key.publicKey).length =
        curve.pointToOct key.publicKey := by
    rw [List.drop_eq_nil_iff.mpr (by rw [hlength, result.property]), List.append_nil]
  unfold parsePublicKey
  rw [hdecode]
  dsimp only
  simp only [hwritten]
  rw [dif_pos hlength]
  simp only [hlength, hhead, and_self, decide_true]

theorem createKeyWithPublic_of_public (hcurve : curve.Lawful) {key : EcKey curve}
    (h : key.privateKey = none) :
    createKeyWithPublic curve ⟨curve.pointToOct key.publicKey, key.length_public⟩ = some key := by
  unfold createKeyWithPublic
  rw [hcurve.octToPoint_pointToOct key.publicKey key.length_public]
  dsimp only
  rw [dif_pos key.length_public]
  exact congrArg some (EcKey.ext h.symm rfl)

section Roundtrip

variable {key : StoredKey ssl curve}

/-- The keys that can be saved: the version of the address is not zero, the label can stand in a
line, and the fields that are not written for a key without private halves have their default
values. -/
structure StoredKey.Savable (key : StoredKey ssl curve) : Prop where
  version : 1 ≤ key.address.version
  label : IsValue key.label
  publicOnly : key.signingKey.privateKey = none →
    key.lastPubkeySendTime = CInt64.zero ∧ key.enabled = true ∧ key.decoy = false

theorem isHeader_address (ssl : OpenSSL) (address : Address) :
    IsHeader (address.encode ssl) := fun ch hch =>
  ⟨(address_chars ch hch).1, (address_chars ch hch).2.2.2, (address_chars ch hch).2.1⟩

theorem isValue_wif (curve : Curve) (n : Nat) : IsValue (encodeWif curve n) := isValue_base58

theorem yields_writeKey (h : key.Savable) :
    Yields KeyValueData.handleByte KeyValueData.AtStart KeyValueData.AtField (writeKey key)
      (sectionEvents (key.address.encode ssl) key.properties) := by
  apply yields_section (isHeader_address ssl key.address)
  unfold StoredKey.properties
  rw [List.forall_mem_append]
  constructor
  · simp only [List.forall_mem_cons]
    exact ⟨⟨by decide +kernel, h.label⟩, ⟨by decide +kernel, isValue_printSigned _⟩,
      ⟨by decide +kernel, isValue_printSigned _⟩, nofun⟩
  · split
    · simp only [List.forall_mem_cons]
      exact ⟨⟨by decide +kernel, isValue_wif curve _⟩, ⟨by decide +kernel, isValue_wif curve _⟩,
        ⟨by decide +kernel, isValue_printSigned _⟩, ⟨by decide +kernel, isValue_printBool _⟩,
        ⟨by decide +kernel, isValue_printBool _⟩, nofun⟩
    · simp only [List.forall_mem_cons]
      exact ⟨⟨by decide +kernel, isValue_base58⟩, ⟨by decide +kernel, isValue_base58⟩, nofun⟩

/-- The record behind the lines of a section. -/
def loadedFrom (data : LoadKeysData) (key : StoredKey ssl curve) : LoadKeysData :=
  key.properties.foldl (fun data p => data.processProperty curve p.1 p.2)
    { data.reset with address := some (key.address.encode ssl) }

/-- A section reports what was read before it, and is kept itself until it is flushed. -/
theorem scan_key {data : LoadKeysData} {report : Option (StoredKey ssl curve)}
    (hflush : data.flushKey ssl curve = some report) (key : StoredKey ssl curve) :
    scan (Loader.keyValueEventCb ssl curve) (some data)
      (sectionEvents (key.address.encode ssl) key.properties) =
        (some (loadedFrom data key), [report]) := by
  have hlines : ∀ (properties : List (List UInt8 × List UInt8)) (data : LoadKeysData),
      scan (Loader.keyValueEventCb ssl curve) (some data)
        (properties.map fun p => .property p.1 p.2) =
        (some (properties.foldl (fun data p => data.processProperty curve p.1 p.2) data), []) := by
    intro properties
    induction properties with
    | nil => exact fun _ => rfl
    | cons p properties ih =>
      intro data
      simp only [List.map_cons, scan, Loader.keyValueEventCb, Option.map_some, ih]
      rfl
  have hheader : Loader.keyValueEventCb ssl curve (some data)
      (.header (key.address.encode ssl)) =
        (some { data.reset with address := some (key.address.encode ssl) }, some report) := by
    simp only [Loader.keyValueEventCb, Loader.flush, Option.bind_some, hflush, Option.map_some]
  unfold sectionEvents
  rw [scan, hheader]
  dsimp only
  rw [hlines]
  rfl

theorem keyNew_eq {keys : KeyHalves}
    (hkeys : keys.create curve = some key.toKeyPair) :
    keyNew ssl curve {
      label := some key.label
      version := UInt8.ofNat key.address.version
      stream := UInt8.ofNat key.address.stream
      nonceTrialsPerByte := key.nonceTrialsPerByte
      payloadLengthExtraBytes := key.payloadLengthExtraBytes
      lastPubkeySendTime := key.lastPubkeySendTime
      enabled := key.enabled
      decoy := key.decoy
      keys } = some key := by
  unfold keyNew
  dsimp only
  rw [hkeys]
  dsimp only
  refine congrArg some (StoredKey.ext rfl rfl ?_ rfl rfl rfl rfl rfl rfl)
  exact Address.ext key.address.toNat_version key.address.toNat_stream key.ripe_eq.symm

theorem create_privateKeys {pair : KeyPair curve} {signing encryption : Bytes privateKeySize}
    (hs : createKey curve signing = some pair.signingKey)
    (he : createKey curve encryption = some pair.encryptionKey) :
    (KeyHalves.privateKeys signing encryption).create curve = some pair := by
  unfold KeyHalves.create
  dsimp only
  split
  · rename_i hs' he'
    obtain rfl := Option.some.inj (hs.symm.trans hs')
    obtain rfl := Option.some.inj (he.symm.trans he')
    rfl
  · rename_i hnone
    exact (hnone _ _ hs he).elim

theorem create_publicKeys {pair : KeyPair curve} {signing encryption : Bytes publicKeySize}
    (hs : createKeyWithPublic curve signing = some pair.signingKey)
    (he : createKeyWithPublic curve encryption = some pair.encryptionKey) :
    (KeyHalves.publicKeys signing encryption).create curve = some pair := by
  unfold KeyHalves.create
  dsimp only
  split
  · rename_i hs' he'
    obtain rfl := Option.some.inj (hs.symm.trans hs')
    obtain rfl := Option.some.inj (he.symm.trans he')
    rfl
  · rename_i hnone
    exact (hnone _ _ hs he).elim

theorem flush_loadedFrom_private (h : key.Savable)
    {signing encryption : { n : Nat // n < 256 ^ privateKeySize }}
    (hs : key.signingKey.privateKey = some signing)
    (he : key.encryptionKey.privateKey = some encryption) (data : LoadKeysData) :
    (loadedFrom data key).flushKey ssl curve = some (some key) := by
  have hsigning := parseWif_encodeWif curve signing.property
  have hencryption := parseWif_encodeWif curve encryption.property
  have htrials := parseIntValue_int key.nonceTrialsPerByte
  have hextra := parseIntValue_int key.payloadLengthExtraBytes
  have htime := parseIntValue_int64 key.lastPubkeySendTime
  have henabled := parseBoolValue_printBool key.enabled
  have hdecoy := parseBoolValue_printBool key.decoy
  have hs' : createKey curve ⟨toBE privateKeySize signing.val, length_toBE _ _⟩ =
      some key.signingKey :=
    createKey_of_private _ hs (ofBE_toBE_of_lt signing.property)
  have he' : createKey curve ⟨toBE privateKeySize encryption.val, length_toBE _ _⟩ =
      some key.encryptionKey :=
    createKey_of_private _ he (ofBE_toBE_of_lt encryption.property)
  have hpair := create_privateKeys hs' he'
  have hloaded : loadedFrom data key = { data with
      label := some key.label
      address := some (key.address.encode ssl)
      nonceTrialsPerByte := key.nonceTrialsPerByte
      payloadLengthExtraBytes := key.payloadLengthExtraBytes
      lastPubkeySendTime := key.lastPubkeySendTime
      enabled := key.enabled
      decoy := key.decoy
      hasPrivateSigningKey := true
      hasPrivateEncryptionKey := true
      hasPublicSigningKey := false
      hasPublicEncryptionKey := false
      privateSigningKey := ⟨toBE privateKeySize signing.val, length_toBE _ _⟩
      privateEncryptionKey := ⟨toBE privateKeySize encryption.val, length_toBE _ _⟩ } := by
    unfold loadedFrom StoredKey.properties
    rw [hs, he]
    simp +decide only [List.cons_append, List.nil_append, List.foldl_cons, List.foldl_nil,
      LoadKeysData.processProperty, LoadKeysData.reset, hsigning, hencryption, htrials, hextra,
      htime, henabled, hdecoy, if_true, if_false, intOfInt64_val, CInt64.ofInt_val]
  rw [hloaded, LoadKeysData.flushKey]
  simp only [LoadKeysData.keys, LoadKeysData.params, and_self, if_true,
    Address.decode_encode ssl h.version]
  rw [keyNew_eq hpair]
  rfl

theorem flush_loadedFrom_public (hcurve : curve.Lawful) (h : key.Savable)
    (hs : key.signingKey.privateKey = none) (he : key.encryptionKey.privateKey = none)
    (data : LoadKeysData) : (loadedFrom data key).flushKey ssl curve = some (some key) := by
  have hsigning := parsePublicKey_encodePublicKey hcurve key.signingKey
  have hencryption := parsePublicKey_encodePublicKey hcurve key.encryptionKey
  have htrials := parseIntValue_int key.nonceTrialsPerByte
  have hextra := parseIntValue_int key.payloadLengthExtraBytes
  obtain ⟨htime, henabled, hdecoy⟩ := h.publicOnly hs
  have hpair := create_publicKeys (createKeyWithPublic_of_public hcurve hs)
    (createKeyWithPublic_of_public hcurve he)
  have hloaded : loadedFrom data key = { data with
      label := some key.label
      address := some (key.address.encode ssl)
      nonceTrialsPerByte := key.nonceTrialsPerByte
      payloadLengthExtraBytes := key.payloadLengthExtraBytes
      lastPubkeySendTime := key.lastPubkeySendTime
      enabled := key.enabled
      decoy := key.decoy
      hasPrivateSigningKey := false
      hasPrivateEncryptionKey := false
      hasPublicSigningKey := true
      hasPublicEncryptionKey := true
      publicSigningKey := ⟨curve.pointToOct key.signingKey.publicKey, key.signingKey.length_public⟩
      publicEncryptionKey :=
        ⟨curve.pointToOct key.encryptionKey.publicKey, key.encryptionKey.length_public⟩ } := by
    unfold loadedFrom StoredKey.properties
    rw [hs, he, htime, henabled, hdecoy]
    simp +decide only [List.cons_append, List.nil_append, List.foldl_cons, List.foldl_nil,
      LoadKeysData.processProperty, LoadKeysData.reset, hsigning, hencryption, htrials, hextra,
      if_true, if_false, intOfInt64_val, Bool.or_true]
  rw [hloaded, LoadKeysData.flushKey]
  simp only [LoadKeysData.keys, LoadKeysData.params, Bool.false_eq_true, and_self, if_true, if_false,
    Address.decode_encode ssl h.version]
  rw [keyNew_eq hpair]
  rfl

theorem flush_loadedFrom (hcurve : curve.Lawful) (h : key.Savable) (data : LoadKeysData) :
    (loadedFrom data key).flushKey ssl curve = some (some key) := by
  have hhalves := key.halves
  cases hs : key.signingKey.privateKey with
  | none =>
    rw [hs] at hhalves
    exact flush_loadedFrom_public hcurve h hs (Option.isSome_eq_false_iff.mp hhalves.symm |>
      Option.isNone_iff_eq_none.mp) data
  | some signing =>
    rw [hs] at hhalves
    obtain ⟨encryption, he⟩ := Option.isSome_iff_exists.mp hhalves.symm
    exact flush_loadedFrom_private h hs he data

/-- Parsing the text of a list of keys reports the keys of the list, in order, and every string in
it fits its array. -/
theorem loadKeys_flatMap (ssl : OpenSSL) (curve : Curve) (hcurve : curve.Lawful)
    (uninitialised : LoadKeysData) (keys : List (StoredKey ssl curve))
    (h : ∀ key ∈ keys, key.Savable) :
    loadKeys ssl curve uninitialised (keys.flatMap writeKey) = keys ∧
      ∀ key ∈ keys,
        (key.address.encode ssl).length ≤ addressMaxLength ∧
        (∀ n, key.signingKey.privateKey = some n →
          (encodeWif curve n.val).length ≤ maxWifLength) ∧
        (∀ n, key.encryptionKey.privateKey = some n →
          (encodeWif curve n.val).length ≤ maxWifLength) ∧
        (encodePublicKey key.signingKey).length ≤ maxPublicKeyLength ∧
        (encodePublicKey key.encryptionKey).length ≤ maxPublicKeyLength := by
  constructor
  · have hevents := keyValueLoad_flatMap fun key hkey => yields_writeKey (h key hkey)
    -- every section leaves a record that can be flushed
    have hsection : ∀ key ∈ keys, ∀ loader : Loader, (loader.flush ssl curve).isSome →
        let after := scan (Loader.keyValueEventCb ssl curve) loader
          (sectionEvents (key.address.encode ssl) key.properties)
        (after.1.flush ssl curve).isSome ∧ after.2 = (loader.flush ssl curve).toList ∧
          after.1.flush ssl curve = some (some key) := by
      intro key hkey loader hready
      obtain ⟨report, hreport⟩ := Option.isSome_iff_exists.mp hready
      obtain ⟨data, rfl, hflush⟩ := Option.bind_eq_some_iff.mp hreport
      have hloaded : Loader.flush ssl curve (some (loadedFrom data key)) = some (some key) :=
        flush_loadedFrom hcurve (h key hkey) data
      rw [scan_key hflush key, hreport]
      exact ⟨by rw [hloaded]; rfl, rfl, hloaded⟩
    have hstart : (Loader.start uninitialised).flush ssl curve = some none := rfl
    have hscan := scan_sections hsection (s := Loader.start uninitialised) (by rw [hstart]; rfl)
    rw [hstart] at hscan
    unfold loadKeys loadReports
    rw [hevents]
    dsimp only
    rw [hscan]
    simp [List.filterMap_map]
  · intro key _
    exact ⟨Address.length_encode_le ssl key.address,
      fun n _ => length_encodeWif curve n.property, fun n _ => length_encodeWif curve n.property,
      length_encodePublicKey key.signingKey, length_encodePublicKey key.encryptionKey⟩

end Roundtrip

/-- The encoding of a point of `Curve.additive`, with zero at infinity. -/
def additiveOct (p : Fin (2 ^ 256)) : List UInt8 := if p = 0 then [0] else 4 :: toBE 64 p.val

def additivePoint (bytes : List UInt8) : Option (Fin (2 ^ 256)) :=
  if bytes = [0] then some 0
  else if bytes.length = publicKeySize ∧ bytes.head? = some 4 then
    some (Fin.ofNat (2 ^ 256) (ofBE bytes.tail))
  else none

/-- The additive group of integers modulo 2^256 in place of the curve. -/
def Curve.additive : Curve where
  sha256 := fitTo 32
  length_sha256 := length_fitTo_32
  Point := Fin (2 ^ 256)
  mul n := Fin.ofNat (2 ^ 256) n
  pointToOct := additiveOct
  octToPoint := additivePoint

theorem additiveOct_of_length {p : Fin (2 ^ 256)} (h : (additiveOct p).length = publicKeySize) :
    additiveOct p = 4 :: toBE 64 p.val := by
  unfold additiveOct at h ⊢
  split
  · rename_i hp
    rw [if_pos hp] at h
    exact absurd h (by decide)
  · rfl

theorem Curve.additive_lawful : Curve.additive.Lawful where
  head_pointToOct p hlength := by
    change (additiveOct p).head? = some 4
    rw [additiveOct_of_length hlength, List.head?_cons]
  octToPoint_pointToOct p hlength := by
    have hlt : p.val < 256 ^ 64 := p.isLt.trans (by norm_num)
    have hcond : (4 :: toBE 64 p.val).length = publicKeySize ∧
        (4 :: toBE 64 p.val).head? = some 4 := by
      rw [← additiveOct_of_length hlength]
      exact ⟨hlength, by rw [additiveOct_of_length hlength, List.head?_cons]⟩
    change additivePoint (additiveOct p) = some p
    rw [additiveOct_of_length hlength, additivePoint, if_neg (by simp), if_pos hcond,
      List.tail_cons, ofBE_toBE_of_lt hlt]
    exact congrArg some (Fin.ext (Nat.mod_eq_of_lt p.isLt))

/-- A pair of small private keys, with or without its private halves. -/
def samplePair (own : Bool) : KeyPair Curve.additive where
  signingKey :=
    { privateKey := if own then some ⟨5, by decide⟩ else none
      publicKey := Curve.additive.mul 5
      public_eq := by cases own <;> simp
      length_public := by decide }
  encryptionKey :=
    { privateKey := if own then some ⟨7, by decide⟩ else none
      publicKey := Curve.additive.mul 7
      public_eq := by cases own <;> simp
      length_public := by decide }
  halves := by cases own <;> rfl

def sampleKey (own : Bool) : StoredKey OpenSSL.additive Curve.additive :=
  { samplePair own with
    address :=
      { version := 4, stream := 1
        ripe := OpenSSL.additive.ripemd160 (OpenSSL.additive.sha512
          (Curve.additive.pointToOct (Curve.additive.mul 5) ++
            Curve.additive.pointToOct (Curve.additive.mul 7)))
        version_lt := Address.four_lt, stream_lt := Address.one_lt
        length_ripe := OpenSSL.additive.length_ripemd160 _ }
    label := ascii "some label"
    nonceTrialsPerByte := ⟨640, by decide, by decide⟩
    payloadLengthExtraBytes := leastExtraBytes
    lastPubkeySendTime := if own then CInt64.may2014 else CInt64.zero
    enabled := true
    decoy := false
    ripe_eq := rfl }

theorem sampleKey_loaded : Curve.additive.Lawful ∧
    loadKeys OpenSSL.additive Curve.additive LoadKeysData.blank
      ([sampleKey true, sampleKey false].flatMap writeKey) =
      [sampleKey true, sampleKey false] := by
  have hvalue : IsValue (ascii "some label") :=
    ⟨by decide +kernel, by decide +kernel, by decide +kernel⟩
  have hsavable : ∀ own, (sampleKey own).Savable := fun own =>
    ⟨by cases own <;> decide, hvalue, by cases own <;> simp [sampleKey, samplePair]⟩
  refine ⟨Curve.additive_lawful, (loadKeys_flatMap OpenSSL.additive Curve.additive
    Curve.additive_lawful LoadKeysData.blank _ ?_).1⟩
  simp [hsavable]

end Notbit.Store
