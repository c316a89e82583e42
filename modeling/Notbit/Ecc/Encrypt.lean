import Notbit.Ecc.Decrypt

/-!
# Encrypt — writing an encrypted payload (`ntb_ecc_encrypt_with_point`)

The ephemeral key and the IV are what `RAND_bytes` returned.  `decrypt_encryptWithPoint` is the round
trip through `ntb_ecc_decrypt`, for a library whose primitives do what their documentation says
(`OpenSSL.Lawful`).
-/

open Bytes Traced Traced.Parser Notbit.Proto

namespace Notbit

/-- The documented behaviour of the library: both sides of a key exchange derive the same 64 bytes,
CBC decryption inverts encryption and padding adds at most a block, encodings of points can be read
back, and a signature verifies under the public key. -/
structure OpenSSL.Lawful (ssl : OpenSSL) : Prop where
  ecdh_comm : ∀ a b, ssl.ecdh (ssl.publicKey a) b = ssl.ecdh (ssl.publicKey b) a
  length_ecdh : ∀ p k, (ssl.ecdh p k).length = ecdhKeyLength
  coordinates_lt : ∀ p, (ssl.affineCoordinates p).1 < 256 ^ 32 ∧
    (ssl.affineCoordinates p).2 < 256 ^ 32
  setAffineCoordinates_eq : ∀ p, ssl.setAffineCoordinates (ssl.affineCoordinates p).1
    (ssl.affineCoordinates p).2 = some p
  decrypt_encrypt : ∀ key iv data,
    let ciphertext := ssl.encryptUpdate key iv [] data ++ ssl.encryptFinal key iv data
    ∃ out last, ssl.decryptUpdate key iv ciphertext = some out ∧
      ssl.decryptFinal key iv ciphertext = some last ∧ out ++ last = data
  length_ciphertext : ∀ key iv data,
    (ssl.encryptUpdate key iv [] data ++ ssl.encryptFinal key iv data).length ≤ data.length + 16
  octToPoint_eq : ∀ p, ssl.octToPoint (ssl.pointToOct p) = some p
  pointToOct_uncompressed : ∀ p, (ssl.pointToOct p).head? = some 4
  ecdsaVerify_sign : ∀ key digest,
    ssl.ecdsaVerify (ssl.publicKey key) digest (ssl.ecdsaSign key digest)
  length_ecdsaSign : ∀ key digest, (ssl.ecdsaSign key digest).length ≤ 72

theorem setAffineCoordinates_additive (p : Fin (2 ^ 256)) :
    (if p.val = p.val then some (Fin.ofNat (2 ^ 256) p.val) else none) = some p := by
  rw [if_pos rfl, Fin.ofNat_val_eq_self]

theorem octToPoint_additive (p : Fin (2 ^ 256)) :
    (if (4 :: toBE 64 p.val).head? = some (4 : UInt8) then
      some (Fin.ofNat (2 ^ 256) (ofBE (4 :: toBE 64 p.val).tail)) else none) = some p := by
  have h : p.val < 256 ^ 64 := lt_trans p.isLt (by norm_num)
  have hhead : (4 :: toBE 64 p.val).head? = some (4 : UInt8) := rfl
  rw [if_pos hhead, List.tail_cons, ofBE_toBE_of_lt h, Fin.ofNat_val_eq_self]

theorem OpenSSL.additive_lawful : OpenSSL.additive.Lawful where
  ecdh_comm a b := by
    change toBE 64 (a.val * b.val) = toBE 64 (b.val * a.val)
    rw [Nat.mul_comm]
  length_ecdh p k := length_toBE 64 _
  coordinates_lt p := by
    have h : p.val < 2 ^ 256 := p.isLt
    exact ⟨by rw [show 256 ^ 32 = 2 ^ 256 by norm_num]; exact h,
      by rw [show 256 ^ 32 = 2 ^ 256 by norm_num]; exact h⟩
  setAffineCoordinates_eq := setAffineCoordinates_additive
  decrypt_encrypt key iv data := by
    refine ⟨data, [], ?_, rfl, List.append_nil data⟩
    change some (data ++ []) = some data
    rw [List.append_nil]
  length_ciphertext key iv data := by
    change (data ++ []).length ≤ data.length + 16
    rw [List.append_nil]
    omega
  octToPoint_eq := octToPoint_additive
  pointToOct_uncompressed p := rfl
  ecdsaVerify_sign key digest := beq_self_eq_true _
  length_ecdsaSign key digest := by
    change (toBE 32 key.val ++ fitTo 20 digest).length ≤ 72
    rw [List.length_append, length_toBE, length_fitTo]
    omega

namespace Ecc

variable (ssl : OpenSSL)

/-- `encode_bignumber`: `BN_num_bytes` and `BN_bn2bin`. -/
def encodeBignumber (bn : Nat) : Buffer := add16 (numBytes bn) ++ toBE (numBytes bn) bn

/-- `encode_pubkey` -/
def encodePubkey (publicKey : ssl.Point) : Buffer :=
  let xy := ssl.affineCoordinates publicKey
  add16 nidSecp256k1 ++ encodeBignumber xy.1 ++ encodeBignumber xy.2

/-- The cipher context of `struct ntb_ecc` between `begin` and `end`: the derived key, the IV and
what has been fed in.  `out` is what was appended to the output buffer so far, and its ciphertext
starts at `ciphertextOffset`. -/
structure Encryption where
  ecdhKeybuffer : List UInt8
  iv : List UInt8
  fed : List UInt8
  ciphertextOffset : Nat
  out : Buffer

/-- `ntb_ecc_encrypt_with_point_begin` -/
def encryptWithPointBegin (ephemeral : ssl.Key) (iv : List UInt8) (publicKey : ssl.Point) :
    Encryption :=
  let out := iv ++ encodePubkey ssl (ssl.publicKey ephemeral)
  { ecdhKeybuffer := ssl.ecdh publicKey ephemeral, iv, fed := [], ciphertextOffset := out.length
    out }

/-- `ntb_ecc_encrypt_update` -/
def encryptUpdate (e : Encryption) (data : List UInt8) : Encryption :=
  { e with
    out := e.out ++ ssl.encryptUpdate (e.ecdhKeybuffer.take 32) e.iv e.fed data
    fed := e.fed ++ data }

/-- `ntb_ecc_encrypt_end` -/
def encryptEnd (e : Encryption) : Buffer :=
  let out := e.out ++ ssl.encryptFinal (e.ecdhKeybuffer.take 32) e.iv e.fed
  out ++ ssl.hmac (e.ecdhKeybuffer.drop 32) (out.drop e.ciphertextOffset)

/-- `ntb_ecc_encrypt_with_point` -/
def encryptWithPoint (ephemeral : ssl.Key) (iv : List UInt8) (publicKey : ssl.Point)
    (data : List UInt8) : Buffer :=
  encryptEnd ssl (encryptUpdate ssl (encryptWithPointBegin ssl ephemeral iv publicKey) data)

/-! ## 1. Reading back -/

variable {ssl} {mem : Memory}

theorem reads_decodeBigNumber {bn : Nat} (h : bn < 256 ^ 32) :
    Reads (2 ^ 64) decodeBigNumber (encodeBignumber bn) bn := by
  have hbytes := numBytes_le h
  intro mem c hmem hlen hc
  obtain ⟨hsize, hnumber⟩ := (holds_append _ _ _ _).mp hmem
  rw [encodeBignumber, List.length_append, add16, length_toBE, length_toBE] at hlen
  have hread : (get16 c.pos).value mem = .ok (numBytes bn) := by
    rw [get16_value, ofBE_window_toBE hsize (by omega)]
  have hvalue : ofBE (window mem (c.pos + 2) (numBytes bn)) = bn := by
    rw [add16, length_toBE] at hnumber
    exact ofBE_window_toBE hnumber (lt_numBytes bn)
  rw [decodeBigNumber, if_neg (by omega), value_bind_of_ok hread,
    value_bind_of_ok (value_readBytes _ _ _), value_bind_of_ok (value_moveTo _ _), value_pure,
    Cursor.advance_of_le hlen hc, hvalue, encodeBignumber, List.length_append, add16, length_toBE,
    length_toBE]

/-- A point is read back from its encoding. -/
theorem reads_decodePubKey (hssl : ssl.Lawful) (p : ssl.Point) :
    Reads (2 ^ 64) (decodePubKey ssl) (encodePubkey ssl p) p := by
  obtain ⟨hx, hy⟩ := hssl.coordinates_lt p
  have hset := hssl.setAffineCoordinates_eq p
  intro mem c hmem hlen hc
  have hbytes : encodePubkey ssl p = add16 nidSecp256k1 ++
      (encodeBignumber (ssl.affineCoordinates p).1 ++
        encodeBignumber (ssl.affineCoordinates p).2) := by
    rw [encodePubkey, List.append_assoc]
  rw [hbytes, holds_append, holds_append] at hmem
  obtain ⟨hcurve, hmx, hmy⟩ := hmem
  rw [hbytes] at hlen ⊢
  simp only [List.length_append, add16, length_toBE] at hlen hmx hmy ⊢
  have hlong : ¬ c.len < 2 * 3 := by
    have h₁ : 2 ≤ (encodeBignumber (ssl.affineCoordinates p).1).length := by
      rw [encodeBignumber, List.length_append, add16, length_toBE]
      omega
    have h₂ : 2 ≤ (encodeBignumber (ssl.affineCoordinates p).2).length := by
      rw [encodeBignumber, List.length_append, add16, length_toBE]
      omega
    omega
  have hread : (get16 c.pos).value mem = .ok nidSecp256k1 := by
    rw [get16_value, ofBE_window_toBE hcurve (by decide)]
  rw [decodePubKey, if_neg hlong, value_bind_of_ok hread, if_neg (not_not.mpr rfl),
    value_bind_of_ok (value_moveTo _ _), Cursor.advance_of_le (by omega) hc,
    value_bind_of_ok (reads_decodeBigNumber hx mem (c.skip 2) hmx
      (by rw [Cursor.skip_len]; omega) (by rw [Cursor.skip_len]; omega)),
    value_bind_of_ok (reads_decodeBigNumber hy mem _ hmy
      (by simp only [Cursor.skip_len]; omega) (by simp only [Cursor.skip_len]; omega))]
  dsimp only
  rw [hset]
  simp only [Cursor.skip_skip, value_pure, Nat.add_assoc]

-- The parts of what is written.
theorem encryptWithPoint_eq (ephemeral : ssl.Key) (iv : List UInt8) (publicKey : ssl.Point)
    (data : List UInt8) :
    let keybuffer := ssl.ecdh publicKey ephemeral
    let ciphertext := ssl.encryptUpdate (keybuffer.take 32) iv [] data ++
      ssl.encryptFinal (keybuffer.take 32) iv data
    encryptWithPoint ssl ephemeral iv publicKey data =
      iv ++ (encodePubkey ssl (ssl.publicKey ephemeral) ++
        (ciphertext ++ ssl.hmac (keybuffer.drop 32) ciphertext)) := by
  have hdrop : ∀ as bs cs : List UInt8, (as ++ (bs ++ cs)).drop (as.length + bs.length) = cs := by
    intro as bs cs
    rw [← List.append_assoc, ← List.length_append, List.drop_left]
  simp only [encryptWithPoint, encryptEnd, encryptUpdate, encryptWithPointBegin, List.nil_append,
    List.append_assoc, List.length_append, hdrop]

-- The ephemeral key is read back behind the IV.
theorem decodePubKey_encryptWithPoint (hssl : ssl.Lawful) {ephemeral : ssl.Key}
    {iv data : List UInt8} {publicKey : ssl.Point} {p len : Nat} (hiv : iv.length = ivLength)
    (hmem : Holds mem p (encryptWithPoint ssl ephemeral iv publicKey data))
    (hlen : (encryptWithPoint ssl ephemeral iv publicKey data).length = len)
    (hlimit : p + len < 2 ^ 64) :
    (decodePubKey ssl (Cursor.skip { pos := p, len } ivLength)).value mem =
      .ok (ssl.publicKey ephemeral, Cursor.skip { pos := p, len }
        (ivLength + (encodePubkey ssl (ssl.publicKey ephemeral)).length)) := by
  rw [encryptWithPoint_eq] at hmem hlen
  simp only [holds_append] at hmem
  simp only [List.length_append, hiv] at hlen hmem
  have hkey := reads_decodePubKey hssl (ssl.publicKey ephemeral) mem
    (Cursor.skip { pos := p, len } ivLength) hmem.2.1 (by simp only [Cursor.skip]; omega)
    (by simp only [Cursor.skip]; omega)
  rwa [Cursor.skip_skip] at hkey

/-- What was encrypted for a public key is decrypted with its private key. -/
theorem decrypt_encryptWithPoint (hssl : ssl.Lawful) {key ephemeral : ssl.Key}
    {iv data : List UInt8} {p len : Nat} (hiv : iv.length = ivLength)
    (hmem : Holds mem p (encryptWithPoint ssl ephemeral iv (ssl.publicKey key) data))
    (hlen : (encryptWithPoint ssl ephemeral iv (ssl.publicKey key) data).length = len)
    (hlimit : p + len < 2 ^ 64) :
    (decrypt ssl key { pos := p, len }).value mem = .ok data := by
  obtain ⟨out, last, hupdate, hfinal, hdata⟩ := hssl.decrypt_encrypt
    ((ssl.ecdh (ssl.publicKey ephemeral) key).take 32) iv data
  have hcomm := hssl.ecdh_comm key ephemeral
  have hkey := decodePubKey_encryptWithPoint hssl hiv hmem hlen hlimit
  rw [encryptWithPoint_eq, hcomm] at hmem hlen
  generalize hcipher : ssl.encryptUpdate ((ssl.ecdh (ssl.publicKey ephemeral) key).take 32) iv []
    data ++ ssl.encryptFinal ((ssl.ecdh (ssl.publicKey ephemeral) key).take 32) iv data =
      ciphertext at hmem hlen hupdate hfinal
  simp only [holds_append] at hmem
  obtain ⟨hmiv, -, hmcipher, hmmac⟩ := hmem
  have hmacLen := ssl.length_hmac ((ssl.ecdh (ssl.publicKey ephemeral) key).drop 32) ciphertext
  simp only [List.length_append, hmacLen, hiv] at hlen hmcipher hmmac
  rw [decrypt, if_neg (by simp only; omega), value_bind_of_ok (value_moveTo _ _),
    Cursor.advance_of_le (by simp only; omega) (by simp only; omega), value_bind_of_ok hkey]
  dsimp only
  -- behind the key: the ciphertext and its MAC
  have hkeyLen := hssl.length_ecdh (ssl.publicKey ephemeral) key
  have hrest : (Cursor.skip { pos := p, len }
      (ivLength + (encodePubkey ssl (ssl.publicKey ephemeral)).length)).len =
        ciphertext.length + macLength := by
    simp only [Cursor.skip]
    omega
  have hpos : (Cursor.skip { pos := p, len }
      (ivLength + (encodePubkey ssl (ssl.publicKey ephemeral)).length)).pos =
        p + ivLength + (encodePubkey ssl (ssl.publicKey ephemeral)).length := by
    simp only [Cursor.skip]
    omega
  have hmacAt : (p + ivLength + (encodePubkey ssl (ssl.publicKey ephemeral)).length +
      (ciphertext.length + macLength) - macLength) % 2 ^ 64 =
        p + ivLength + (encodePubkey ssl (ssl.publicKey ephemeral)).length +
          ciphertext.length := by
    rw [Nat.mod_eq_of_lt (by omega)]
    omega
  rw [decryptBody, value_bind_of_ok (value_assert (by rw [hkeyLen]; rfl) _), hrest, hpos,
    if_neg (by omega), Nat.add_sub_cancel, value_bind_of_ok (value_readBytes _ _ _),
    hmcipher.window_eq rfl, value_bind_of_ok (value_assert (by rw [hmacLen]; rfl) _), hmacAt,
    value_bind_of_ok (value_readBytes _ _ _), hmmac.window_eq hmacLen,
    if_neg (not_not.mpr rfl), value_bind_of_ok (value_readBytes _ _ _), hmiv.window_eq hiv,
    value_bind_of_ok (value_readBytes _ _ _), hmcipher.window_eq rfl, hupdate, hfinal]
  dsimp only
  rw [value_pure, hdata]

end Ecc

end Notbit
