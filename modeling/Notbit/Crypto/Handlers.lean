import Notbit.Blob
import Notbit.Crypto.Pubkey
import Notbit.Lib.Transfers

/-!
# Handlers — what the crypto thread does with objects of the network (`ntb-crypto.c`)

`handle_check_pubkey` and `handle_decrypt_msg` with everything they copy.  What they compute is in
`Pubkey` and in `Decrypt`; here each `memcpy` counts, each comparison and each range that OpenSSL is
given, with the block it is taken from and the room of the array it goes to.
-/

open Bytes Traced Transfers Transfers.Handler Notbit.Proto

namespace Notbit.Crypto

/-! ## 1. The handlers -/

/-- The data of a blob that came from the network: a command is shorter than 4 GiB. -/
structure Object where
  mem : Memory
  base : Nat
  size : Nat
  fits : base + size < 2 ^ 64
  small : size < 2 ^ 32

def Object.block (o : Object) : Block := { lo := o.base, hi := o.base + o.size }

/-- A msg object that has passed `handle_msg` of the keyring: its header is whole. -/
structure MsgObject extends Object where
  headerSize : Nat
  header : ∃ vs, (getCommand base size msgHeader).value mem = .ok (vs, headerSize)

/-- The keys `handle_decrypt_msg` tries, with what `ntb_key_has_private` says of them. -/
structure MsgKey (ssl : OpenSSL) where
  hasPrivate : Bool
  encryptionKey : ssl.Key

variable (ssl : OpenSSL)

/-- `check_signature_for_data`: the key of the network goes behind the first byte of an array of 65
bytes. -/
def signatureForData (block : Block) (mem : Memory)
    (networkPublicKey data dataLength signature signatureLength : Nat) : Handler Bool := do
  let digested ← give block mem data dataLength
  let key ← copy block mem networkPublicKey 64 64
  let point ← lift (pointOfNetworkKey ssl key)
  let sig ← give block mem signature signatureLength
  return ssl.ecdsaVerify point (ssl.sha1 digested) sig

/-- The test of the signature, for an object that has one. -/
def verifySignature (block : Block) (mem : Memory) (pubkey : Pubkey) : Handler Bool :=
  match pubkey.signature with
  | none => return true
  | some signature => signatureForData ssl block mem pubkey.publicSigningKey pubkey.signedData
      pubkey.signedDataLength signature pubkey.signatureLength

/-- The rest of `handle_check_unencrypted_pubkey`, when the signature is right: the address of the keys
is compared, and the keys are copied and made. -/
def deliverKey (block : Block) (mem : Memory) (expected : Address) (pubkey : Pubkey) :
    Handler (CheckedKey ssl) := do
  let publicSigningKey ← give block mem pubkey.publicSigningKey 64
  let publicEncryptionKey ← give block mem pubkey.publicEncryptionKey 64
  let address ← addressFromNetworkKeysCall ssl pubkey.version pubkey.stream publicSigningKey
    publicEncryptionKey
  if !address.equal expected then stop .reject
  else
    let fullSigningKey ← copyNetworkKey block mem pubkey.publicSigningKey
    let fullEncryptionKey ← copyNetworkKey block mem pubkey.publicEncryptionKey
    let signingKey ← lift (pointOfNetworkKey ssl fullSigningKey)
    let encryptionKey ← lift (pointOfNetworkKey ssl fullEncryptionKey)
    return { address, signingKey, encryptionKey
             nonceTrialsPerByte := pubkey.nonceTrialsPerByte
             extraBytes := pubkey.extraBytes }

/-- `handle_check_unencrypted_pubkey` -/
def handleCheckUnencryptedPubkey (block : Block) (mem : Memory) (expected : Address)
    (pubkey : Pubkey) : Handler (CheckedKey ssl) := do
  let verified ← verifySignature ssl block mem pubkey
  if !verified then stop .reject
  else deliverKey ssl block mem expected pubkey

/-- `handle_check_encrypted_pubkey`.  What is decrypted goes to a new buffer, behind the header of the
object; `behind` is the memory behind that buffer. -/
def handleCheckEncryptedPubkey (o : Object) (behind : Memory) (expected : Address) (pubkey : Pubkey)
    (encryptedData : Nat) : Handler (CheckedKey ssl) := do
  let tag ← give o.block o.mem pubkey.tag 32
  if tag ≠ expected.tag ssl then stop .reject
  else
    let key := ssl.keyOfPrivate (expected.tagPrivateKey ssl)
    let header ← give o.block o.mem o.base (pubkey.tag - o.base)
    let decrypted ← readAll o.block o.mem
      (Ecc.decrypt ssl key { pos := encryptedData, len := pubkey.encryptedDataLength })
    let buffer := header ++ decrypted
    let mem' := overlay buffer behind
    let pubkey ← lift ((getPubkey true 0 (buffer.length % 2 ^ 32)).value mem')
    handleCheckUnencryptedPubkey ssl { lo := 0, hi := buffer.length } mem' expected pubkey

/-- `handle_check_pubkey` -/
def handleCheckPubkey (type : InvType) (o : Object) (behind : Memory) (expected : Address) :
    Handler (CheckedKey ssl) :=
  if type ≠ .pubkey then stop .reject
  else do
    let pubkey ← lift ((getPubkey false o.base o.size).value o.mem)
    match pubkey.encryptedData with
    | some encryptedData => handleCheckEncryptedPubkey ssl o behind expected pubkey encryptedData
    | none => handleCheckUnencryptedPubkey ssl o.block o.mem expected pubkey

/-- `check_signature_in_decrypted_msg`, for a blob with the decrypted message. -/
def checkSignatureInDecryptedMsg (behind : Memory) (result : List UInt8) : Handler Unit := do
  let mem := overlay result behind
  let msg ← lift ((getDecryptedMsg 0 (result.length % 2 ^ 32)).value mem)
  let verified ← signatureForData ssl { lo := 0, hi := result.length } mem msg.senderSigningKey 0
    msg.signedDataLength msg.sig msg.sigLength
  if !verified then stop .reject
  else return ()

/-- The loop of `handle_decrypt_msg` over the keys: the key that was chosen, and the message. -/
def tryKeys (o : Object) (behind : Memory) (c : Cursor) :
    List (MsgKey ssl) → Handler (MsgKey ssl × List UInt8)
  | [] => stop .reject
  | key :: keys =>
    if !key.hasPrivate then tryKeys o behind c keys
    else do
      let decrypted ← attempt (readAll o.block o.mem (Ecc.decrypt ssl key.encryptionKey c))
      match decrypted with
      | some result =>
        checkSignatureInDecryptedMsg ssl behind result
        return (key, result)
      | none => tryKeys o behind c keys

/-- `handle_decrypt_msg` -/
def handleDecryptMsg (o : Object) (behind : Memory) (keys : List (MsgKey ssl)) :
    Handler (MsgKey ssl × List UInt8) :=
  match (getCommand o.base o.size msgHeader).value o.mem with
  | .ok (_, headerSize) =>
    tryKeys ssl o behind { pos := o.base + headerSize, len := o.size - headerSize } keys
  | .error _ => stop .abort

/-! ## 2. What they deliver -/

variable {ssl} {block : Block} {mem : Memory}

theorem value_verifySignature (pubkey : Pubkey) :
    (verifySignature ssl block mem pubkey).value =
      match pubkey.signature with
      | none => .ok true
      | some signature =>
        checkSignatureForData ssl (window mem pubkey.publicSigningKey 64)
          (window mem pubkey.signedData pubkey.signedDataLength)
          (window mem signature pubkey.signatureLength) := by
  unfold verifySignature
  cases pubkey.signature with
  | none => rfl
  | some signature =>
    dsimp only
    unfold signatureForData checkSignatureForData
    rw [value_bind_of_ok (value_give _ _ _ _), value_bind_of_ok (value_copy _ _ _ _ _), value_bind,
      value_lift]
    rfl

theorem value_deliverKey (expected : Address) (pubkey : Pubkey) :
    (deliverKey ssl block mem expected pubkey).value =
      checkUnencryptedPubkey ssl mem expected { pubkey with signature := none } := by
  unfold deliverKey checkUnencryptedPubkey
  rw [value_bind_of_ok (value_give _ _ _ _), value_bind_of_ok (value_give _ _ _ _),
    value_bind_of_ok (addressFromNetworkKeysCall_spec ssl _ _ _ _).1]
  dsimp only
  rw [apply_ite value]
  refine ite_congr rfl (fun _ => rfl) fun _ => ?_
  rw [value_bind_of_ok (copyNetworkKey_spec _ _ _).1,
    value_bind_of_ok (copyNetworkKey_spec _ _ _).1, value_bind, value_lift]
  refine bind_congr fun signingKey => ?_
  rw [value_bind, value_lift]
  rfl

theorem value_handleCheckUnencryptedPubkey (expected : Address) (pubkey : Pubkey) :
    (handleCheckUnencryptedPubkey ssl block mem expected pubkey).value =
      checkUnencryptedPubkey ssl mem expected pubkey := by
  unfold handleCheckUnencryptedPubkey
  rw [value_bind, value_verifySignature]
  cases hsignature : pubkey.signature with
  | none =>
    show (deliverKey ssl block mem expected pubkey).value = _
    rw [value_deliverKey, ← hsignature]
  | some signature =>
    dsimp only
    unfold checkUnencryptedPubkey
    dsimp only
    rw [hsignature]
    refine bind_congr fun verified => ?_
    cases verified with
    | false => rfl
    | true =>
      show (deliverKey ssl block mem expected pubkey).value = _
      rw [value_deliverKey]
      rfl

/-- The key that is delivered is the one that the check of the object computes. -/
theorem value_handleCheckPubkey (o : Object) (behind : Memory) (expected : Address) :
    (handleCheckPubkey ssl .pubkey o behind expected).value =
      checkPubkey ssl o.mem behind expected o.base o.size := by
  unfold handleCheckPubkey checkPubkey openPubkey
  rw [if_neg (not_not.mpr rfl), value_bind, value_lift, Nat.mod_eq_of_lt o.small]
  cases (getPubkey false o.base o.size).value o.mem with
  | error e => rfl
  | ok pubkey =>
    show (match pubkey.encryptedData with
      | some encryptedData => handleCheckEncryptedPubkey ssl o behind expected pubkey encryptedData
      | none => handleCheckUnencryptedPubkey ssl o.block o.mem expected pubkey).value = _
    cases hencrypted : pubkey.encryptedData with
    | none =>
      dsimp only
      rw [value_handleCheckUnencryptedPubkey]
      simp only [bind, Except.bind, hencrypted, pure, Except.pure]
    | some encryptedData =>
      dsimp only
      unfold handleCheckEncryptedPubkey
      rw [value_bind_of_ok (value_give _ _ _ _)]
      by_cases htag : window o.mem pubkey.tag 32 ≠ expected.tag ssl
      · rw [if_pos htag]
        simp only [bind, Except.bind, hencrypted, if_pos htag]
        rfl
      · rw [if_neg htag, value_bind_of_ok (value_give _ _ _ _), value_bind, value_readAll]
        simp only [bind, Except.bind, hencrypted, if_neg htag]
        cases (Ecc.decrypt ssl (ssl.keyOfPrivate (expected.tagPrivateKey ssl))
            { pos := encryptedData, len := pubkey.encryptedDataLength }).value o.mem with
        | error e => rfl
        | ok decrypted =>
          show (lift _ >>= _).value = _
          rw [value_bind, value_lift]
          dsimp only
          generalize overlay (window o.mem o.base (pubkey.tag - o.base) ++ decrypted) behind = mem'
          cases (getPubkey true 0 ((window o.mem o.base (pubkey.tag - o.base) ++
              decrypted).length % 2 ^ 32)).value mem' with
          | error e => rfl
          | ok pubkey' => exact value_handleCheckUnencryptedPubkey expected pubkey'

/-! ## 3. Objects that do no harm -/

/-- The 64 bytes are a point of the curve. -/
def OnCurve (ssl : OpenSSL) (mem : Memory) (p : Nat) : Prop :=
  (ssl.octToPoint (4 :: window mem p 64)).isSome = true

/-- The signature of the object, if it has one, is right. -/
def Verified (ssl : OpenSSL) (mem : Memory) (pubkey : Pubkey) : Prop :=
  ∀ signature, pubkey.signature = some signature →
    ∃ point, ssl.octToPoint (4 :: window mem pubkey.publicSigningKey 64) = some point ∧
      ssl.ecdsaVerify point (ssl.sha1 (window mem pubkey.signedData pubkey.signedDataLength))
        (window mem signature pubkey.signatureLength) = true

/-- A signing key that has to verify a signature is on the curve, and the signature is not right:
the address of keys that get through is computed in an array that is too small, whatever it is
compared with. -/
structure KeysHarmless (ssl : OpenSSL) (mem : Memory) (pubkey : Pubkey) : Prop where
  signingKey : pubkey.signature.isSome = true → OnCurve ssl mem pubkey.publicSigningKey
  unverified : ¬ Verified ssl mem pubkey

/-- A pubkey object does no harm: in the clear it has such keys; encrypted for the address it has an
ephemeral key that can be used, and such keys behind it. -/
def PubkeyHarmless (ssl : OpenSSL) (o : Object) (behind : Memory) (expected : Address) : Prop :=
  ∀ pubkey, (getPubkey false o.base o.size).value o.mem = .ok pubkey →
    match pubkey.encryptedData with
    | none => KeysHarmless ssl o.mem pubkey
    | some encryptedData => window o.mem pubkey.tag 32 = expected.tag ssl →
      ∀ r : Ecc.Region,
        r.cursor = { pos := encryptedData, len := pubkey.encryptedDataLength } →
          Ecc.Usable ssl o.mem r ∧
            ∀ decrypted pubkey',
              (Ecc.decrypt ssl (ssl.keyOfPrivate (expected.tagPrivateKey ssl))
                r.cursor).value o.mem = .ok decrypted →
              let buffer := window o.mem o.base (pubkey.tag - o.base) ++ decrypted
              (getPubkey true 0 (buffer.length % 2 ^ 32)).value (overlay buffer behind) =
                  .ok pubkey' →
                KeysHarmless ssl (overlay buffer behind) pubkey'

theorem MsgObject.headerSize_le (o : MsgObject) : o.headerSize ≤ o.size := by
  obtain ⟨vs, hvs⟩ := o.header
  exact getCommand_consumed o.small hvs

/-- The encrypted part of a msg object. -/
def MsgObject.payload (o : MsgObject) : Ecc.Region where
  base := o.base + o.headerSize
  size := o.size - o.headerSize
  fits := by
    have hfits := o.fits
    have hle := o.headerSize_le
    omega

/-- What the first private key that decrypts the payload makes of it. -/
def firstPlaintext (ssl : OpenSSL) (mem : Memory) (c : Cursor) (keys : List (MsgKey ssl)) :
    Option (List UInt8) :=
  keys.findSome? fun key =>
    if key.hasPrivate then ((Ecc.decrypt ssl key.encryptionKey c).value mem).toOption else none

/-- A msg object does no harm: if there is a key to try, its ephemeral key can be used; and what it
is decrypted to, if it is a message at all, has a signing key on the curve. -/
structure MsgHarmless (ssl : OpenSSL) (o : MsgObject) (behind : Memory) (keys : List (MsgKey ssl)) :
    Prop where
  key : (∃ key ∈ keys, key.hasPrivate = true) → Ecc.Usable ssl o.mem o.payload
  sender : ∀ result msg, firstPlaintext ssl o.mem o.payload.cursor keys = some result →
    (getDecryptedMsg 0 (result.length % 2 ^ 32)).value (overlay result behind) = .ok msg →
      OnCurve ssl (overlay result behind) msg.senderSigningKey

/-! ## 4. Exactly the harmless objects are handled cleanly -/

theorem pointOfNetworkKey_iff {p : Nat} :
    pointOfNetworkKey ssl (window mem p 64) ≠ .error .abort ↔ OnCurve ssl mem p := by
  unfold pointOfNetworkKey OnCurve
  cases ssl.octToPoint (4 :: window mem p 64) with
  | none => exact iff_of_false (fun h => h rfl) nofun
  | some point => exact iff_of_true nofun rfl

/-- A signature is checked cleanly, wherever it and the signed data are in the block, exactly if the
key is on the curve. -/
theorem clean_signatureForData_iff {key data dataLength sig sigLength : Nat}
    (hkey : block.lo ≤ key ∧ key + 64 ≤ block.hi)
    (hdata : block.lo ≤ data ∧ data + dataLength ≤ block.hi)
    (hsig : block.lo ≤ sig ∧ sig + sigLength ≤ block.hi) :
    Clean (signatureForData ssl block mem key data dataLength sig sigLength) ↔
      OnCurve ssl mem key := by
  unfold signatureForData
  rw [clean_bind_iff, and_iff_right (clean_give hdata.1 hdata.2)]
  simp only [value_give, Except.ok.injEq, forall_eq']
  rw [clean_bind_iff, and_iff_right (clean_copy_iff.mpr ⟨Or.inr hkey, le_refl 64⟩)]
  simp only [value_copy, Except.ok.injEq, forall_eq']
  rw [clean_bind_iff, clean_lift_iff, pointOfNetworkKey_iff]
  refine and_iff_left fun point _ => ?_
  rw [clean_bind_iff]
  exact ⟨clean_give hsig.1 hsig.2, fun _ _ => clean_pure _⟩

section Pubkeys

variable {expected : Address} {pubkey : Pubkey} {lo hi : Nat}

theorem clean_verifySignature_iff (hlo : block.lo ≤ lo) (hhi : hi ≤ block.hi)
    (hwithin : pubkey.Within lo hi) (hclear : pubkey.encryptedData = none) :
    Clean (verifySignature ssl block mem pubkey) ↔
      (pubkey.signature.isSome = true → OnCurve ssl mem pubkey.publicSigningKey) := by
  obtain ⟨hkeyLo, hkeyEq, hkeyHi⟩ := hwithin.keys hclear
  unfold verifySignature
  cases hsignature : pubkey.signature with
  | none => exact iff_of_true (clean_pure _) nofun
  | some signature =>
    obtain ⟨hsigLo, hsigHi, hdataLo, hdataHi⟩ := hwithin.signature signature hsignature
    dsimp only
    rw [clean_signatureForData_iff (by omega) (by omega) (by omega)]
    simp

theorem verifySignature_true_iff :
    (verifySignature ssl block mem pubkey).value = .ok true ↔ Verified ssl mem pubkey := by
  rw [value_verifySignature]
  unfold Verified
  cases pubkey.signature with
  | none => exact iff_of_true rfl (by simp)
  | some signature =>
    simp only [Option.some.injEq, forall_eq', checkSignatureForData, pointOfNetworkKey]
    cases ssl.octToPoint (4 :: window mem pubkey.publicSigningKey 64) with
    | none => simp [bind, Except.bind]
    | some point => simp [bind, Except.bind, pure, Except.pure]

/-- Keys whose address is computed overflow the array that their digest goes to. -/
theorem not_clean_deliverKey : ¬ Clean (deliverKey ssl block mem expected pubkey) := by
  intro h
  have hencryption := (clean_bind_iff.mp h).2 _ (value_give _ _ _ _)
  have haddress := (clean_bind_iff.mp hencryption).2 _ (value_give _ _ _ _)
  exact (addressFromNetworkKeysCall_spec ssl _ _ _ _).2 (clean_bind_iff.mp haddress).1

theorem clean_handleCheckUnencryptedPubkey_iff (hlo : block.lo ≤ lo) (hhi : hi ≤ block.hi)
    (hwithin : pubkey.Within lo hi) (hclear : pubkey.encryptedData = none) :
    Clean (handleCheckUnencryptedPubkey ssl block mem expected pubkey) ↔
      KeysHarmless ssl mem pubkey := by
  unfold handleCheckUnencryptedPubkey
  rw [clean_bind_iff, clean_verifySignature_iff hlo hhi hwithin hclear]
  constructor
  · rintro ⟨hcurve, hrest⟩
    refine ⟨hcurve, fun hverified => ?_⟩
    exact not_clean_deliverKey (hrest true (verifySignature_true_iff.mpr hverified))
  · rintro ⟨hcurve, hunverified⟩
    refine ⟨hcurve, fun verified hvalue => ?_⟩
    cases verified with
    | false => exact clean_reject
    | true => exact absurd (verifySignature_true_iff.mp hvalue) hunverified

variable (block mem) in
-- A decryption inside an object.
theorem clean_decrypt_iff (hecdh : ∀ point key, (ssl.ecdh point key).length = ecdhKeyLength)
    (key : ssl.Key) {r : Ecc.Region} (hlo : block.lo ≤ r.base) (hhi : r.base + r.size = block.hi) :
    Clean (readAll block mem (Ecc.decrypt ssl key r.cursor)) ↔ Ecc.Usable ssl mem r := by
  rw [clean_readAll_iff, ← hhi]
  exact Ecc.decrypt_usable_iff hecdh key mem hlo

/-- What is decrypted is parsed and checked in a buffer of its own. -/
theorem clean_handleCheckEncryptedPubkey_iff
    (hecdh : ∀ point key, (ssl.ecdh point key).length = ecdhKeyLength) {o : Object}
    {behind : Memory} {r : Ecc.Region} (hwithin : pubkey.Within o.base (o.base + o.size))
    (hsome : pubkey.encryptedData = some r.base) (hsize : pubkey.encryptedDataLength = r.size) :
    Clean (handleCheckEncryptedPubkey ssl o behind expected pubkey r.base) ↔
      (window o.mem pubkey.tag 32 = expected.tag ssl →
        Ecc.Usable ssl o.mem r ∧
          ∀ decrypted pubkey',
            (Ecc.decrypt ssl (ssl.keyOfPrivate (expected.tagPrivateKey ssl))
              r.cursor).value o.mem = .ok decrypted →
            let buffer := window o.mem o.base (pubkey.tag - o.base) ++ decrypted
            (getPubkey true 0 (buffer.length % 2 ^ 32)).value (overlay buffer behind) =
                .ok pubkey' →
              KeysHarmless ssl (overlay buffer behind) pubkey') := by
  obtain ⟨htagLo, htagEnd, hend⟩ := hwithin.encrypted r.base hsome
  rw [hsize] at hend
  have hblockLo : o.block.lo = o.base := rfl
  have hblockHi : o.block.hi = o.base + o.size := rfl
  unfold handleCheckEncryptedPubkey
  rw [clean_bind_iff, and_iff_right (clean_give (by omega) (by omega))]
  simp only [value_give, Except.ok.injEq, forall_eq']
  by_cases htag : window o.mem pubkey.tag 32 = expected.tag ssl
  · rw [if_neg (not_not.mpr htag)]
    simp only [htag, true_imp_iff]
    rw [clean_bind_iff, and_iff_right (clean_give (by omega) (by omega))]
    simp only [value_give, Except.ok.injEq, forall_eq']
    have hcursor : ({ pos := r.base, len := pubkey.encryptedDataLength } : Cursor) = r.cursor := by
      rw [hsize]
      rfl
    rw [hcursor, clean_bind_iff, clean_decrypt_iff _ _ hecdh _ (by omega) (by omega)]
    refine and_congr_right fun _ => ?_
    refine forall_congr' fun decrypted => ?_
    rw [forall_comm]
    refine forall_congr' fun hdecrypted => ?_
    rw [clean_bind_iff, and_iff_right (clean_lift_iff.mpr (noAbort_getPubkey _ _ _))]
    refine forall_congr' fun pubkey' => ?_
    rw [value_lift]
    refine forall_congr' fun hpubkey' => ?_
    obtain ⟨hwithin', hclear⟩ := getPubkey_within (Nat.mod_lt _ (by norm_num)) hpubkey'
    refine clean_handleCheckUnencryptedPubkey_iff (le_refl 0) ?_ hwithin' (hclear rfl)
    rw [Nat.zero_add]
    exact Nat.mod_le _ _
  · rw [if_pos htag]
    exact iff_of_true clean_reject fun h => absurd h htag

theorem clean_handleCheckPubkey_iff
    (hecdh : ∀ point key, (ssl.ecdh point key).length = ecdhKeyLength) (o : Object)
    (behind : Memory) (expected : Address) :
    Clean (handleCheckPubkey ssl .pubkey o behind expected) ↔
      PubkeyHarmless ssl o behind expected := by
  unfold handleCheckPubkey PubkeyHarmless
  rw [if_neg (not_not.mpr rfl), clean_bind_iff,
    and_iff_right (clean_lift_iff.mpr (noAbort_getPubkey _ _ _))]
  refine forall_congr' fun pubkey => ?_
  rw [value_lift]
  refine forall_congr' fun hpubkey => ?_
  obtain ⟨hwithin, -⟩ := getPubkey_within o.small hpubkey
  cases hencrypted : pubkey.encryptedData with
  | none => exact clean_handleCheckUnencryptedPubkey_iff (le_refl _) (le_refl _) hwithin hencrypted
  | some encryptedData =>
    obtain ⟨-, -, hend⟩ := hwithin.encrypted encryptedData hencrypted
    have hfits := o.fits
    let r : Ecc.Region := ⟨encryptedData, pubkey.encryptedDataLength, by omega⟩
    dsimp only
    rw [clean_handleCheckEncryptedPubkey_iff (r := r) hecdh hwithin hencrypted rfl]
    refine forall_congr' fun htag => ?_
    constructor
    · rintro h ⟨base, size, hr⟩ hcursor
      cases hcursor
      exact h
    · intro h
      exact h r rfl

end Pubkeys

section Messages

variable {behind : Memory}

theorem clean_checkSignatureInDecryptedMsg_iff (result : List UInt8) :
    Clean (checkSignatureInDecryptedMsg ssl behind result) ↔
      ∀ msg, (getDecryptedMsg 0 (result.length % 2 ^ 32)).value (overlay result behind) = .ok msg →
        OnCurve ssl (overlay result behind) msg.senderSigningKey := by
  unfold checkSignatureInDecryptedMsg
  dsimp only
  rw [clean_bind_iff, and_iff_right (clean_lift_iff.mpr (noAbort_getDecryptedMsg _ _))]
  refine forall_congr' fun msg => ?_
  rw [value_lift]
  refine forall_congr' fun hmsg => ?_
  obtain ⟨hkey, hdata, hsig⟩ := getDecryptedMsg_within (Nat.mod_lt _ (by norm_num)) hmsg
  have hmod := Nat.mod_le result.length (2 ^ 32)
  rw [clean_bind_iff, clean_signatureForData_iff ⟨hkey.1, by dsimp only; omega⟩
    ⟨le_refl 0, by dsimp only; omega⟩ ⟨hsig.1, by dsimp only; omega⟩]
  refine and_iff_left fun verified _ => ?_
  cases verified with
  | false => exact clean_reject
  | true => exact clean_pure _

variable (behind) in
-- The keys are tried one after the other; they all need the same ephemeral key.
theorem clean_tryKeys_iff (hecdh : ∀ point key, (ssl.ecdh point key).length = ecdhKeyLength)
    (o : Object) (r : Ecc.Region) (hlo : o.base ≤ r.base) (hhi : r.base + r.size = o.base + o.size)
    (keys : List (MsgKey ssl)) :
    Clean (tryKeys ssl o behind r.cursor keys) ↔
      ((∃ key ∈ keys, key.hasPrivate = true) → Ecc.Usable ssl o.mem r) ∧
        ∀ result msg, firstPlaintext ssl o.mem r.cursor keys = some result →
          (getDecryptedMsg 0 (result.length % 2 ^ 32)).value (overlay result behind) = .ok msg →
            OnCurve ssl (overlay result behind) msg.senderSigningKey := by
  induction keys with
  | nil => exact iff_of_true clean_reject ⟨by simp, by simp [firstPlaintext]⟩
  | cons key keys ih =>
    unfold tryKeys
    cases hprivate : key.hasPrivate with
    | false =>
      simp only [Bool.not_false, if_true, firstPlaintext, List.findSome?_cons, hprivate,
        Bool.false_eq_true, if_false, List.mem_cons, exists_eq_or_imp, false_or]
      exact ih
    | true =>
      simp only [Bool.not_true, Bool.false_eq_true, if_false]
      have husable := clean_decrypt_iff o.block o.mem hecdh key.encryptionKey hlo hhi
      have hany : (∃ key' ∈ key :: keys, key'.hasPrivate = true) := ⟨key, List.mem_cons_self, hprivate⟩
      rw [clean_bind_iff, clean_attempt_iff, husable, forall_prop_of_true hany]
      simp only [firstPlaintext, List.findSome?_cons, hprivate, if_true]
      refine and_congr_right fun hu => ?_
      cases hdecrypt : (Ecc.decrypt ssl key.encryptionKey r.cursor).value o.mem with
      | ok result =>
        have hattempt := value_attempt_of_ok (x := readAll o.block o.mem _) hdecrypt
        simp only [hattempt, Except.ok.injEq, forall_eq', Except.toOption, Option.some.injEq]
        rw [clean_bind_iff, clean_checkSignatureInDecryptedMsg_iff]
        constructor
        · rintro ⟨hsender, -⟩ _ msg rfl
          exact hsender msg
        · intro hsender
          exact ⟨fun msg => hsender result msg rfl, fun _ _ => clean_pure _⟩
      | error e =>
        cases e with
        | reject =>
          have hattempt := value_attempt_of_reject (x := readAll o.block o.mem _) hdecrypt
          simp only [hattempt, Except.ok.injEq, forall_eq', Except.toOption]
          rw [ih]
          exact and_iff_right fun _ => hu
        | abort => exact absurd hdecrypt (husable.mpr hu).noAbort

theorem clean_handleDecryptMsg_iff
    (hecdh : ∀ point key, (ssl.ecdh point key).length = ecdhKeyLength) (o : MsgObject)
    (behind : Memory) (keys : List (MsgKey ssl)) :
    Clean (handleDecryptMsg ssl o.toObject behind keys) ↔ MsgHarmless ssl o behind keys := by
  have hle := o.headerSize_le
  obtain ⟨vs, hvs⟩ := o.header
  unfold handleDecryptMsg
  rw [hvs]
  have hkeys := clean_tryKeys_iff behind hecdh o.toObject o.payload (Nat.le_add_right _ _)
    (by simp only [MsgObject.payload]; omega) keys
  exact hkeys.trans ⟨fun h => ⟨h.1, h.2⟩, fun h => ⟨h.key, h.sender⟩⟩

end Messages

/-- The handlers end with a result or without one, and copy nothing from outside an object nor more
than an array can hold, for exactly the objects that do no harm. -/
theorem objects_handled_iff (ssl : OpenSSL)
    (hecdh : ∀ point key, (ssl.ecdh point key).length = ecdhKeyLength) (behind : Memory) :
    (∀ (o : Object) (expected : Address),
        Clean (handleCheckPubkey ssl .pubkey o behind expected) ↔
          PubkeyHarmless ssl o behind expected) ∧
      ∀ (o : MsgObject) (keys : List (MsgKey ssl)),
        Clean (handleDecryptMsg ssl o.toObject behind keys) ↔ MsgHarmless ssl o behind keys :=
  ⟨fun o expected => clean_handleCheckPubkey_iff hecdh o behind expected,
    fun o keys => clean_handleDecryptMsg_iff hecdh o behind keys⟩

/-- A msg object that ends with an ephemeral key, whose coordinates are `x` and `y`. -/
def msgBytes (x y : UInt8) : List UInt8 :=
  List.replicate 8 0 ++ [0, 0, 0, 1] ++ [1] ++ List.replicate 16 0 ++ [0x02, 0xca, 0, 1, x, 0, 1, y]

def sampleMsg (x y : UInt8) : MsgObject where
  mem := ofList (msgBytes x y)
  base := 0
  size := 37
  fits := by norm_num
  small := by norm_num
  headerSize := 13
  header := ⟨[.num 0, .num 1, .num 1], rfl⟩

/-- One private key. -/
def sampleKeys : List (MsgKey OpenSSL.additive) := [⟨true, (5 : Fin (2 ^ 256))⟩]

/-- With a point of the curve the message is refused at its missing MAC. -/
theorem sampleMsg_handled :
    Clean (handleDecryptMsg OpenSSL.additive (sampleMsg 3 3).toObject (fun _ => 0) sampleKeys) := by
  have hecdh := OpenSSL.additive_lawful.length_ecdh
  refine ((objects_handled_iff OpenSSL.additive hecdh fun _ => 0).2 (sampleMsg 3 3) sampleKeys).mpr
    ⟨fun _ => ⟨?_, fun _ => ?_⟩, fun result msg hresult => ?_⟩
  · unfold Ecc.AnnouncedLengthsFit Ecc.PubKeyFits Ecc.BigNumberFits Ecc.u16At
    decide
  · intro _ _ _
    rfl
  · cases hresult

/-- An object with two keys of version 2, which has no signature. -/
def v2Pubkey : Object where
  mem := ofList (List.replicate 8 0 ++ [0, 0, 0, 1] ++ [2, 1] ++ List.replicate 132 7)
  base := 0
  size := 146
  fits := by norm_num
  small := by norm_num

/-- A message whose ephemeral key is not on the curve ends the program, and a pubkey without a
signature overflows an array, whatever address it is checked for. -/
theorem objects_not_handled :
    (handleDecryptMsg OpenSSL.additive (sampleMsg 3 4).toObject (fun _ => 0) sampleKeys).value =
        .error .abort ∧
      ¬ Clean (handleDecryptMsg OpenSSL.additive (sampleMsg 3 4).toObject (fun _ => 0)
        sampleKeys) ∧
      ∀ expected, ¬ Clean (handleCheckPubkey OpenSSL.additive .pubkey v2Pubkey (fun _ => 0)
        expected) := by
  have habort : (handleDecryptMsg OpenSSL.additive (sampleMsg 3 4).toObject (fun _ => 0)
      sampleKeys).value = .error .abort := rfl
  refine ⟨habort, fun hclean => hclean.noAbort habort, fun expected hclean => ?_⟩
  have hparse : (getPubkey false v2Pubkey.base v2Pubkey.size).value v2Pubkey.mem = .ok {
      nonce := 0, timestamp := 1, version := 2, stream := 1, behaviours := 0x07070707
      publicSigningKey := 18, publicEncryptionKey := 82, nonceTrialsPerByte := 320
      extraBytes := 14000 } := rfl
  have hharmless := (clean_handleCheckPubkey_iff OpenSSL.additive_lawful.length_ecdh _ _ _).mp hclean
    _ hparse
  exact hharmless.unverified nofun

end Notbit.Crypto
