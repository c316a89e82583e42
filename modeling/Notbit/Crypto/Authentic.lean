import Notbit.Crypto.Handlers

/-!
# Authentic — which keys the check of a pubkey object delivers (`ntb-crypto.c`)

A key is delivered if the address of the two keys of the object is the requested one and the
signature, where the version has one, is that of the object's own signing key.  The stream of an
object is cut down to a byte before it is compared.
-/

open Bytes Traced Traced.Parser Notbit.Proto

namespace Notbit.Crypto

variable {ssl : OpenSSL} {mem : Memory}

theorem pointOfNetworkKey_ok {key : List UInt8} {point : ssl.Point} :
    pointOfNetworkKey ssl key = .ok point ↔ ssl.octToPoint (4 :: key) = some point := by
  unfold pointOfNetworkKey
  cases ssl.octToPoint (4 :: key) with
  | none => simp
  | some p => simp

theorem onCurve_iff {p : Nat} :
    OnCurve ssl mem p ↔ ∃ point, pointOfNetworkKey ssl (window mem p 64) = .ok point := by
  simp only [OnCurve, pointOfNetworkKey_ok, Option.isSome_iff_exists]

/-! ## 1. The signature of an object -/

/-- The signature of an object between `start` and `start + len` is over everything behind the nonce
and before the length of the signature, which ends the object: both keys are in it, and between what
is signed and the signature there is only the var_int of its length. -/
structure Signed (start len : Nat) (pubkey : Pubkey) (signature : Nat) : Prop where
  present : pubkey.signature = some signature
  signedData : pubkey.signedData = start + 8
  keys : pubkey.signedData ≤ pubkey.publicSigningKey ∧
    pubkey.publicSigningKey + 64 = pubkey.publicEncryptionKey ∧
    pubkey.publicEncryptionKey + 64 ≤ pubkey.signedData + pubkey.signedDataLength
  before : pubkey.signedData + pubkey.signedDataLength < signature
  length : signature ≤ pubkey.signedData + pubkey.signedDataLength + 9
  whole : signature + pubkey.signatureLength = start + len

/-- What is not encrypted is of version 2 and has no signature, or of version 3 or 4 and is signed.
-/
theorem getPubkey_clear {decrypted : Bool} {start len : Nat} {pubkey : Pubkey}
    (hlen : len < 2 ^ 32) (h : (getPubkey decrypted start len).value mem = .ok pubkey)
    (hclear : pubkey.encryptedData = none) :
    (pubkey.version = 2 ∧ pubkey.signature = none) ∨
      (pubkey.version = 3 ∨ pubkey.version = 4) ∧
        ∃ signature, Signed start len pubkey signature := by
  obtain ⟨⟨header, c₁⟩, hheader, h⟩ := value_bind_eq_ok.mp h
  have hnumbers := getNumbers_consumed (c := { pos := start, len }) hlen hheader
  have hnonce := getNumbers_u64_pos (c := { pos := start, len }) hlen hheader
  have hc₁ : c₁.len < 2 ^ 32 := lt_of_le_of_lt hnumbers.len_le hlen
  dsimp only at h
  split at h
  next nonce timestamp version stream =>
    split_ifs at h with hversion2 hversion4 hversion3
    · -- version 2
      obtain ⟨⟨parts, c₂⟩, -, h⟩ := value_bind_eq_ok.mp h
      rw [value_bind_of_ok (get32_value _), value_pure, Except.ok.injEq] at h
      subst h
      exact .inl ⟨hversion2, rfl⟩
    · -- version 4, still encrypted
      obtain ⟨⟨tag, c₂⟩, -, h⟩ := value_bind_eq_ok.mp h
      rw [value_pure, Except.ok.injEq] at h
      subst h
      cases hclear
    · obtain ⟨⟨pubkey₁, c₂⟩, hparts, h⟩ := value_bind_eq_ok.mp h
      obtain ⟨⟨sigLength, c₃⟩, hsig, h⟩ := value_bind_eq_ok.mp h
      obtain ⟨⟨parts, c₄⟩, hpointer, hparts⟩ := value_bind_eq_ok.mp hparts
      obtain ⟨rfl, rfl, hlong⟩ := getPointer_ok hc₁ hpointer
      rw [value_bind_of_ok (get32_value _)] at hparts
      obtain ⟨⟨difficulty, c₅⟩, hdifficulty, hparts⟩ := value_bind_eq_ok.mp hparts
      have hread := getNumbers_consumed (by rw [Cursor.skip_len]; omega) hdifficulty
      obtain ⟨-, hshort, n, hone, hnine, hn, hvarint⟩ := getVarInt_ok hsig
      rw [Cursor.advance_of_le hn (by omega)] at hvarint
      dsimp only at hparts h
      split at hparts
      next nonceTrialsPerByte extraBytes =>
        rw [value_pure, Except.ok.injEq, Prod.mk.injEq] at hparts
        obtain ⟨rfl, rfl⟩ := hparts
        split at h
        next => cases h
        next hend =>
          rw [value_pure, Except.ok.injEq] at h
          subst h
          subst hvarint
          unfold Consumed at hnumbers hread
          simp only [Cursor.skip] at hread hnumbers hnonce hend
          refine .inr ⟨hversion3.symm, _, rfl, rfl, ⟨?_, rfl, ?_⟩, ?_, ?_, ?_⟩
          all_goals
            simp only [Pubkey.withKeys, Cursor.skip]
            omega
      next => cases hparts
    · cases h
  next => cases h

/-! ## 2. What is delivered -/

/-- The first half of `handle_check_unencrypted_pubkey`: its signature, if there is one. -/
def signatureOk (ssl : OpenSSL) (mem : Memory) (pubkey : Pubkey) : Except Stop Bool :=
  match pubkey.signature with
  | none => .ok true
  | some signature => checkSignatureForData ssl (window mem pubkey.publicSigningKey 64)
      (window mem pubkey.signedData pubkey.signedDataLength)
      (window mem signature pubkey.signatureLength)

/-- The second half: the key of the object, if it is the requested one. -/
def keyOfAddress (ssl : OpenSSL) (mem : Memory) (expected : Address) (pubkey : Pubkey) :
    Except Stop (CheckedKey ssl) :=
  let publicSigningKey := window mem pubkey.publicSigningKey 64
  let publicEncryptionKey := window mem pubkey.publicEncryptionKey 64
  let address := addressFromNetworkKeys ssl pubkey.version pubkey.stream publicSigningKey
    publicEncryptionKey
  if !address.equal expected then .error .reject
  else do
    let signingKey ← pointOfNetworkKey ssl publicSigningKey
    let encryptionKey ← pointOfNetworkKey ssl publicEncryptionKey
    return { address, signingKey, encryptionKey
             nonceTrialsPerByte := pubkey.nonceTrialsPerByte
             extraBytes := pubkey.extraBytes }

theorem checkUnencryptedPubkey_eq {expected : Address} {pubkey : Pubkey} :
    checkUnencryptedPubkey ssl mem expected pubkey = (signatureOk ssl mem pubkey >>= fun verified =>
      if !verified then .error .reject else keyOfAddress ssl mem expected pubkey) := by
  unfold checkUnencryptedPubkey signatureOk
  cases pubkey.signature <;> rfl

theorem signatureOk_iff {pubkey : Pubkey} :
    signatureOk ssl mem pubkey = .ok true ↔ Verified ssl mem pubkey := by
  unfold signatureOk Verified
  cases pubkey.signature with
  | none => exact iff_of_true rfl nofun
  | some signature =>
    simp only [checkSignatureForData, bind_eq_ok, pointOfNetworkKey_ok, Option.some.injEq,
      forall_eq', pure, Except.pure, Except.ok.injEq]

/-- The keys of the object are those of the address. -/
def OfAddress (ssl : OpenSSL) (mem : Memory) (expected : Address) (pubkey : Pubkey) : Prop :=
  (addressFromNetworkKeys ssl pubkey.version pubkey.stream (window mem pubkey.publicSigningKey 64)
    (window mem pubkey.publicEncryptionKey 64)).equal expected = true

theorem keyOfAddress_ok {expected : Address} {pubkey : Pubkey} {key : CheckedKey ssl} :
    keyOfAddress ssl mem expected pubkey = .ok key ↔
      OfAddress ssl mem expected pubkey ∧ ∃ signing encryption,
        pointOfNetworkKey ssl (window mem pubkey.publicSigningKey 64) = .ok signing ∧
        pointOfNetworkKey ssl (window mem pubkey.publicEncryptionKey 64) = .ok encryption ∧
        key = {
          address := addressFromNetworkKeys ssl pubkey.version pubkey.stream
            (window mem pubkey.publicSigningKey 64) (window mem pubkey.publicEncryptionKey 64)
          signingKey := signing
          encryptionKey := encryption
          nonceTrialsPerByte := pubkey.nonceTrialsPerByte
          extraBytes := pubkey.extraBytes } := by
  unfold keyOfAddress OfAddress
  dsimp only
  split
  next hother =>
    rw [Bool.not_eq_true'] at hother
    exact iff_of_false nofun fun h => absurd h.1 (by rw [hother]; exact Bool.false_ne_true)
  next hsame =>
    rw [Bool.not_eq_true', Bool.not_eq_false] at hsame
    simp only [bind_eq_ok, hsame, true_and, pure, Except.pure, Except.ok.injEq, @eq_comm _ key]
    constructor
    · rintro ⟨signing, hsigning, encryption, hencryption, hkey⟩
      exact ⟨signing, encryption, hsigning, hencryption, hkey⟩
    · rintro ⟨signing, encryption, hsigning, hencryption, hkey⟩
      exact ⟨signing, hsigning, encryption, hencryption, hkey⟩

theorem checkUnencryptedPubkey_eq_ok {expected : Address} {pubkey : Pubkey}
    {key : CheckedKey ssl} :
    checkUnencryptedPubkey ssl mem expected pubkey = .ok key ↔
      Verified ssl mem pubkey ∧ keyOfAddress ssl mem expected pubkey = .ok key := by
  rw [checkUnencryptedPubkey_eq, bind_eq_ok, ← signatureOk_iff]
  constructor
  · rintro ⟨verified, hverified, hkey⟩
    cases verified with
    | false => cases hkey
    | true => exact ⟨hverified, hkey⟩
  · rintro ⟨hverified, hkey⟩
    exact ⟨true, hverified, hkey⟩

-- The key is made exactly if the signature is right, the address is the requested one and both keys
-- are points of the curve.
theorem checkUnencryptedPubkey_ok {expected : Address} {pubkey : Pubkey} :
    (∃ key, checkUnencryptedPubkey ssl mem expected pubkey = .ok key) ↔
      Verified ssl mem pubkey ∧ OfAddress ssl mem expected pubkey ∧
        OnCurve ssl mem pubkey.publicSigningKey ∧ OnCurve ssl mem pubkey.publicEncryptionKey := by
  simp only [checkUnencryptedPubkey_eq_ok, keyOfAddress_ok, onCurve_iff]
  constructor
  · rintro ⟨key, hverified, hequal, signing, encryption, hsigning, hencryption, -⟩
    exact ⟨hverified, hequal, ⟨signing, hsigning⟩, encryption, hencryption⟩
  · rintro ⟨hverified, hequal, ⟨signing, hsigning⟩, encryption, hencryption⟩
    exact ⟨_, hverified, hequal, signing, encryption, hsigning, hencryption, rfl⟩

-- The key that is made has the requested address.
theorem address_of_checkUnencryptedPubkey {expected : Address} {pubkey : Pubkey}
    {key : CheckedKey ssl} (h : checkUnencryptedPubkey ssl mem expected pubkey = .ok key) :
    key.address.equal expected = true := by
  obtain ⟨hequal, signing, encryption, -, -, rfl⟩ :=
    keyOfAddress_ok.mp (checkUnencryptedPubkey_eq_ok.mp h).2
  exact hequal

/-! ## 3. The object that is checked -/

/-- The object that `handle_check_unencrypted_pubkey` gets: the one that came if its keys are in the
clear, else the one decrypted with the tag of the address.  It is in memory between `start` and
`start + len`. -/
inductive Opened (ssl : OpenSSL) (mem behind : Memory) (expected : Address) (data size : Nat) :
    Memory → Nat → Nat → Pubkey → Prop
  | clear {pubkey : Pubkey} (hparse : (getPubkey false data (size % 2 ^ 32)).value mem = .ok pubkey)
    (hclear : pubkey.encryptedData = none) :
    Opened ssl mem behind expected data size mem data (size % 2 ^ 32) pubkey
  | decrypted {outer pubkey : Pubkey} {encryptedData : Nat} {plaintext : List UInt8}
    (houter : (getPubkey false data (size % 2 ^ 32)).value mem = .ok outer)
    (hencrypted : outer.encryptedData = some encryptedData)
    (htag : window mem outer.tag 32 = expected.tag ssl)
    (hdecrypt : (Ecc.decrypt ssl (ssl.keyOfPrivate (expected.tagPrivateKey ssl))
      { pos := encryptedData, len := outer.encryptedDataLength }).value mem = .ok plaintext)
    (hparse : (getPubkey true 0
        ((window mem data (outer.tag - data) ++ plaintext).length % 2 ^ 32)).value
      (overlay (window mem data (outer.tag - data) ++ plaintext) behind) = .ok pubkey) :
    Opened ssl mem behind expected data size
      (overlay (window mem data (outer.tag - data) ++ plaintext) behind) 0
      ((window mem data (outer.tag - data) ++ plaintext).length % 2 ^ 32) pubkey

variable {mem' behind : Memory} {expected : Address} {data size start len : Nat} {pubkey : Pubkey}

theorem openPubkey_ok :
    openPubkey ssl mem behind expected data size = .ok (mem', pubkey) ↔
      ∃ start len, Opened ssl mem behind expected data size mem' start len pubkey := by
  constructor
  · intro h
    unfold openPubkey at h
    obtain ⟨outer, houter, h⟩ := bind_eq_ok.mp h
    split at h
    next hclear =>
      cases h
      exact ⟨_, _, .clear houter hclear⟩
    next encryptedData hencrypted =>
      split_ifs at h with htag
      obtain ⟨plaintext, hdecrypt, h⟩ := bind_eq_ok.mp h
      obtain ⟨inner, hinner, h⟩ := bind_eq_ok.mp h
      cases h
      exact ⟨_, _, .decrypted houter hencrypted (not_not.mp htag) hdecrypt hinner⟩
  · rintro ⟨start, len, h⟩
    cases h with
    | clear hparse hclear =>
      rw [openPubkey, hparse]
      simp only [bind, Except.bind, hclear]
      rfl
    | decrypted houter hencrypted htag hdecrypt hparse =>
      rw [openPubkey, houter]
      simp only [bind, Except.bind, hencrypted, htag, ne_eq, not_true_eq_false, if_false, hdecrypt,
        hparse]
      rfl

theorem checkPubkey_ok {key : CheckedKey ssl} :
    checkPubkey ssl mem behind expected data size = .ok key ↔
      ∃ mem' start len pubkey, Opened ssl mem behind expected data size mem' start len pubkey ∧
        checkUnencryptedPubkey ssl mem' expected pubkey = .ok key := by
  rw [checkPubkey, bind_eq_ok]
  constructor
  · rintro ⟨⟨mem', pubkey⟩, hopen, hcheck⟩
    obtain ⟨start, len, hopened⟩ := openPubkey_ok.mp hopen
    exact ⟨mem', start, len, pubkey, hopened, hcheck⟩
  · rintro ⟨mem', start, len, pubkey, hopened, hcheck⟩
    exact ⟨(mem', pubkey), openPubkey_ok.mpr ⟨start, len, hopened⟩, hcheck⟩

theorem Opened.unique {mem'' : Memory} {start' len' : Nat} {pubkey' : Pubkey}
    (h : Opened ssl mem behind expected data size mem' start len pubkey)
    (h' : Opened ssl mem behind expected data size mem'' start' len' pubkey') :
    mem'' = mem' ∧ pubkey' = pubkey := by
  have heq := (openPubkey_ok.mpr ⟨start, len, h⟩).symm.trans (openPubkey_ok.mpr ⟨start', len', h'⟩)
  rw [Except.ok.injEq, Prod.mk.injEq] at heq
  exact ⟨heq.1.symm, heq.2.symm⟩

theorem Opened.signed (h : Opened ssl mem behind expected data size mem' start len pubkey) :
    (pubkey.version = 2 ∧ pubkey.signature = none) ∨
      (pubkey.version = 3 ∨ pubkey.version = 4) ∧
        ∃ signature, Signed start len pubkey signature := by
  cases h with
  | clear hparse hclear => exact getPubkey_clear (Nat.mod_lt _ (by decide)) hparse hclear
  | @decrypted outer _ _ plaintext houter hencrypted htag hdecrypt hparse =>
    have hlen := Nat.mod_lt (window mem data (outer.tag - data) ++ plaintext).length
      (show 0 < 2 ^ 32 by decide)
    exact getPubkey_clear hlen hparse ((getPubkey_within hlen hparse).2 rfl)

/-! ## 4. Authentic keys -/

/-- The object between `start` and `start + len` belongs to the address: the keys, the version and
the stream are those of the address, and from version 3 on its own signing key has signed it. -/
structure Authentic (ssl : OpenSSL) (mem : Memory) (start len : Nat) (expected : Address)
    (pubkey : Pubkey) : Prop where
  ripe : ssl.ripemd160 (ssl.sha512 ([4] ++ window mem pubkey.publicSigningKey 64 ++ [4] ++
    window mem pubkey.publicEncryptionKey 64)) = expected.ripe
  version : pubkey.version = expected.version
  stream : pubkey.stream = expected.stream
  signed : expected.version = 3 ∨ expected.version = 4 → ∃ signature point,
    Signed start len pubkey signature ∧
      ssl.octToPoint (4 :: window mem pubkey.publicSigningKey 64) = some point ∧
      ssl.ecdsaVerify point (ssl.sha1 (window mem pubkey.signedData pubkey.signedDataLength))
        (window mem signature pubkey.signatureLength) = true

/-- A key is delivered only if the object is authentic; one that is not signed is of version 2. -/
def DeliversAuthentic (ssl : OpenSSL) (mem behind : Memory) (expected : Address)
    (data size : Nat) : Prop :=
  ∀ key, checkPubkey ssl mem behind expected data size = .ok key →
    ∃ mem' start len pubkey, Opened ssl mem behind expected data size mem' start len pubkey ∧
      Authentic ssl mem' start len expected pubkey ∧
      (pubkey.signature = none → pubkey.version = 2 ∧ expected.version = 2)

/-- The stream of the object does not fit a byte, and what is left of it in a byte is the stream of
the address; everything else about the object is right. -/
structure StreamCut (ssl : OpenSSL) (mem : Memory) (expected : Address) (pubkey : Pubkey) :
    Prop where
  wide : 256 ≤ pubkey.stream
  cut : pubkey.stream % 256 = expected.stream
  version : pubkey.version = expected.version
  ripe : ssl.ripemd160 (ssl.sha512 ([4] ++ window mem pubkey.publicSigningKey 64 ++ [4] ++
    window mem pubkey.publicEncryptionKey 64)) = expected.ripe
  verified : Verified ssl mem pubkey
  signingKey : OnCurve ssl mem pubkey.publicSigningKey
  encryptionKey : OnCurve ssl mem pubkey.publicEncryptionKey

theorem ofAddress_iff (hversion : pubkey.version < 256) :
    OfAddress ssl mem expected pubkey ↔
      pubkey.version = expected.version ∧ pubkey.stream % 256 = expected.stream ∧
        ssl.ripemd160 (ssl.sha512 ([4] ++ window mem pubkey.publicSigningKey 64 ++ [4] ++
          window mem pubkey.publicEncryptionKey 64)) = expected.ripe := by
  simp only [OfAddress, Address.equal, addressFromNetworkKeys, Nat.mod_eq_of_lt hversion,
    Bool.and_eq_true, beq_iff_eq, and_assoc]

theorem Opened.version_lt (h : Opened ssl mem behind expected data size mem' start len pubkey) :
    pubkey.version < 256 := by
  rcases h.signed with ⟨h2, -⟩ | ⟨h34, -⟩ <;> omega

-- A key that is delivered and on a stream that fits a byte is authentic.
theorem Opened.authentic (h : Opened ssl mem behind expected data size mem' start len pubkey)
    (hverified : Verified ssl mem' pubkey) (haddress : OfAddress ssl mem' expected pubkey)
    (hstream : pubkey.stream < 256) :
    Authentic ssl mem' start len expected pubkey ∧
      (pubkey.signature = none → pubkey.version = 2 ∧ expected.version = 2) := by
  obtain ⟨hversion, hcut, hripe⟩ := (ofAddress_iff h.version_lt).mp haddress
  rw [Nat.mod_eq_of_lt hstream] at hcut
  rcases h.signed with ⟨h2, hnone⟩ | ⟨h34, signature, hsigned⟩
  · have hnot : ¬ (expected.version = 3 ∨ expected.version = 4) := by omega
    exact ⟨⟨hripe, hversion, hcut, fun h34 => absurd h34 hnot⟩, fun _ => ⟨h2, hversion ▸ h2⟩⟩
  · obtain ⟨point, hpoint, hverify⟩ := hverified signature hsigned.present
    refine ⟨⟨hripe, hversion, hcut, fun _ => ⟨signature, point, hsigned, hpoint, hverify⟩⟩, ?_⟩
    rw [hsigned.present]
    exact nofun

/-- The check lets through exactly the objects whose stream was cut down besides the authentic ones.
-/
theorem deliversAuthentic_iff :
    DeliversAuthentic ssl mem behind expected data size ↔
      ∀ mem' start len pubkey, Opened ssl mem behind expected data size mem' start len pubkey →
        ¬ StreamCut ssl mem' expected pubkey := by
  constructor
  · intro h mem' start len pubkey hopened hcut
    have haddress := (ofAddress_iff hopened.version_lt).mpr ⟨hcut.version, hcut.cut, hcut.ripe⟩
    obtain ⟨key, hkey⟩ := checkUnencryptedPubkey_ok.mpr
      ⟨hcut.verified, haddress, hcut.signingKey, hcut.encryptionKey⟩
    obtain ⟨mem'', start', len', pubkey', hopened', hauthentic, -⟩ :=
      h key (checkPubkey_ok.mpr ⟨mem', start, len, pubkey, hopened, hkey⟩)
    obtain ⟨-, rfl⟩ := hopened.unique hopened'
    have hwide := hcut.wide
    have hlt : expected.stream < 256 := hcut.cut ▸ Nat.mod_lt _ (by decide)
    rw [hauthentic.stream] at hwide
    omega
  · intro h key hkey
    obtain ⟨mem', start, len, pubkey, hopened, hcheck⟩ := checkPubkey_ok.mp hkey
    obtain ⟨hverified, haddress, hsigning, hencryption⟩ :=
      checkUnencryptedPubkey_ok.mp ⟨key, hcheck⟩
    obtain ⟨hversion, hcut, hripe⟩ := (ofAddress_iff hopened.version_lt).mp haddress
    have hstream : pubkey.stream < 256 := by
      by_contra hwide
      exact h mem' start len pubkey hopened
        ⟨not_lt.mp hwide, hcut, hversion, hripe, hverified, hsigning, hencryption⟩
    exact ⟨mem', start, len, pubkey, hopened, hopened.authentic hverified haddress hstream⟩

/-! ## 5. An object whose stream is cut down -/

/-- A version 2 object with the keys and the time of `key`, on a stream of its own. -/
def v2Object (key : Key ssl) (stream nonce : Nat) : List UInt8 :=
  (add64 nonce ++ headerOf (toUInt64 key.lastPubkeySendTime) 2 stream) ++ keyBytes key

/-- Its fields, wherever it starts. -/
def v2Fields (key : Key ssl) (stream nonce p : Nat) : Pubkey :=
  let header : ObjectHeader :=
    ⟨nonce % 2 ^ 64, toUInt64 key.lastPubkeySendTime, 2, stream⟩
  { header.pubkey.withKeys pubkeyBehaviors
      (p + (add64 nonce ++ headerOf (toUInt64 key.lastPubkeySendTime) 2 stream).length) with
    nonceTrialsPerByte := minNonceTrialsPerByte
    extraBytes := minExtraBytes }

theorem getPubkey_v2 {key : Key ssl} {stream nonce p : Nat}
    (htime : toUInt64 key.lastPubkeySendTime < 2 ^ 32) (hstream : stream < 2 ^ 64)
    (hmem : Holds mem p (v2Object key stream nonce))
    (hlimit : (v2Object key stream nonce).length < 2 ^ 31) :
    (getPubkey false p (v2Object key stream nonce).length).value mem =
      .ok (v2Fields key stream nonce p) := by
  obtain ⟨hheader, hkeys⟩ := (holds_append _ _ _ _).mp hmem
  have hlen : (v2Object key stream nonce).length =
      (add64 nonce ++ headerOf (toUInt64 key.lastPubkeySendTime) 2 stream).length +
        (keyBytes key).length := List.length_append
  have hnumbers := reads_getNumbers (headerOf_encodes htime (by norm_num) hstream nonce) mem
    { pos := p, len := (v2Object key stream nonce).length } hheader (by simp only; omega) hlimit
  have hpointer := readsAt_getPointer (length_keyBytes key) mem
    (Cursor.skip { pos := p, len := (v2Object key stream nonce).length }
      (add64 nonce ++ headerOf (toUInt64 key.lastPubkeySendTime) 2 stream).length) rfl hkeys
    (by simp only [Cursor.skip]; omega) (by simp only [Cursor.skip]; omega)
  have hbehaviours : (get32 (p + (add64 nonce ++
      headerOf (toUInt64 key.lastPubkeySendTime) 2 stream).length)).value mem =
      .ok pubkeyBehaviors := by
    rw [get32_value, ofBE_window_toBE ((holds_append _ _ _ _).mp hkeys).1 (by decide)]
  rw [length_keyBytes] at hpointer
  rw [getPubkey, value_bind_of_ok hnumbers]
  dsimp only [ObjectHeader.values]
  rw [if_pos rfl, processV2PubkeyParts, value_bind_of_ok hpointer]
  exact (value_bind_of_ok hbehaviours).trans rfl

-- The two keys stand where the fields say.
theorem v2Object_windows {key : Key ssl} {stream nonce p : Nat}
    (hmem : Holds mem p (v2Object key stream nonce)) :
    window mem (v2Fields key stream nonce p).publicSigningKey 64 =
        addPublicKey ssl key.signingKey ∧
      window mem (v2Fields key stream nonce p).publicEncryptionKey 64 =
        addPublicKey ssl key.encryptionKey := by
  obtain ⟨-, hkeys⟩ := (holds_append _ _ _ _).mp hmem
  simp only [holds_append, keyBytes, add32, length_toBE, length_addPublicKey] at hkeys
  obtain ⟨-, hsigning, hencryption⟩ := hkeys
  exact ⟨hsigning.window_eq (length_addPublicKey ssl _),
    hencryption.window_eq (length_addPublicKey ssl _)⟩

-- A version 2 object is taken for that of the address with the lowest byte of its stream.
theorem v2Object_streamCut (hssl : ssl.Lawful) (key : PrivateKey ssl) {stream nonce p : Nat}
    (hstream : 256 ≤ stream) (hmem : Holds mem p (v2Object key.toKey stream nonce))
    (haddress : expected.version = 2) (hcut : stream % 256 = expected.stream)
    (hripe : expected.ripe = key.address.ripe) :
    StreamCut ssl mem expected (v2Fields key.toKey stream nonce p) := by
  obtain ⟨hsigning, hencryption⟩ := v2Object_windows hmem
  refine ⟨hstream, hcut, haddress.symm, ?_, nofun, ?_, ?_⟩
  · rw [hsigning, hencryption, hripe, key.ripe_eq, generateRipe, ← cons_addPublicKey hssl,
      ← cons_addPublicKey hssl]
    simp only [List.cons_append, List.nil_append, List.append_assoc]
  · rw [onCurve_iff, hsigning]
    exact ⟨_, pointOfNetworkKey_value hssl _⟩
  · rw [onCurve_iff, hencryption]
    exact ⟨_, pointOfNetworkKey_value hssl _⟩

end Notbit.Crypto
