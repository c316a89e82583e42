import Notbit.Proto.Command

/-!
# OpenSSL — the library calls of the program, as arbitrary functions

Nothing is assumed of the values but the sizes of the arrays they are written to.  What a result
needs beyond that (that decryption inverts encryption, that a signature verifies) is a hypothesis
of that result.
-/

open Bytes

namespace Notbit

/-- `SHA256_DIGEST_LENGTH`, the size of the MAC. -/
def macLength : Nat := 32

/-- The calls the program makes to OpenSSL.  A call that reports failure is an `Option`. -/
structure OpenSSL where
  /-- `EC_POINT` and `EC_KEY` on the curve of the program. -/
  Point : Type
  Key : Type
  /-- `SHA512`, `SHA1` and `RIPEMD160`. -/
  sha512 : List UInt8 → List UInt8
  length_sha512 : ∀ data, (sha512 data).length = 64
  sha1 : List UInt8 → List UInt8
  ripemd160 : List UInt8 → List UInt8
  length_ripemd160 : ∀ data, (ripemd160 data).length = 20
  /-- The public point of a key, and the key of 32 private bytes. -/
  publicKey : Key → Point
  keyOfPrivate : List UInt8 → Key
  /-- `EC_POINT_point2oct` without compression writes 65 bytes, the first of which is 0x04;
  `EC_POINT_oct2point` can fail. -/
  pointToOct : Point → List UInt8
  length_pointToOct : ∀ p, (pointToOct p).length = 65
  octToPoint : List UInt8 → Option Point
  /-- `EC_POINT_get_affine_coordinates_GFp` and `EC_POINT_set_affine_coordinates_GFp`. -/
  affineCoordinates : Point → Nat × Nat
  setAffineCoordinates : Nat → Nat → Option Point
  /-- `ECDSA_sign` and `ECDSA_verify` on a digest. -/
  ecdsaSign : Key → List UInt8 → List UInt8
  ecdsaVerify : Point → List UInt8 → List UInt8 → Bool
  /-- `ECDH_compute_key` with the SHA-512 key derivation of `kdf_sha512`. -/
  ecdh : Point → Key → List UInt8
  /-- `HMAC` with SHA-256: key and data. -/
  hmac : List UInt8 → List UInt8 → List UInt8
  length_hmac : ∀ key data, (hmac key data).length = macLength
  /-- AES-256-CBC under a key and an IV.  An update call gets the bytes already fed in and the new
  ones and returns what it appends to the output; the final call gets all of them. -/
  encryptUpdate : List UInt8 → List UInt8 → List UInt8 → List UInt8 → List UInt8
  encryptFinal : List UInt8 → List UInt8 → List UInt8 → List UInt8
  decryptUpdate : List UInt8 → List UInt8 → List UInt8 → Option (List UInt8)
  decryptFinal : List UInt8 → List UInt8 → List UInt8 → Option (List UInt8)

/-- The first `n` bytes of a byte string, filled up with zeroes. -/
def fitTo (n : Nat) (bs : List UInt8) : List UInt8 := (bs ++ List.replicate n 0).take n

theorem length_fitTo (n : Nat) (bs : List UInt8) : (fitTo n bs).length = n := by
  rw [fitTo, List.length_take, List.length_append, List.length_replicate]
  omega

theorem length_fitTo_32 (bs : List UInt8) : (fitTo 32 bs).length = 32 := length_fitTo 32 bs

instance neZero_two_pow : NeZero (2 ^ 256) := ⟨by norm_num⟩

/-- A library that computes: the additive group of integers modulo 2^256 stands in for the curve,
truncation for the hashes, and the ciphertext is the plaintext. -/
def OpenSSL.additive : OpenSSL where
  Point := Fin (2 ^ 256)
  Key := Fin (2 ^ 256)
  sha512 := fitTo 64
  length_sha512 := length_fitTo 64
  sha1 := fitTo 20
  ripemd160 := fitTo 20
  length_ripemd160 := length_fitTo 20
  publicKey := id
  keyOfPrivate bs := Fin.ofNat (2 ^ 256) (ofBE bs)
  pointToOct p := 4 :: toBE 64 p.val
  length_pointToOct p := by rw [List.length_cons, length_toBE]
  octToPoint bs := if bs.head? = some 4 then some (Fin.ofNat (2 ^ 256) (ofBE bs.tail)) else none
  affineCoordinates p := (p.val, p.val)
  setAffineCoordinates x y := if x = y then some (Fin.ofNat (2 ^ 256) x) else none
  ecdsaSign k digest := toBE 32 k.val ++ fitTo 20 digest
  ecdsaVerify p digest sig := sig == toBE 32 p.val ++ fitTo 20 digest
  ecdh p k := toBE 64 (p.val * k.val)
  hmac key data := fitTo 32 (key ++ data)
  length_hmac key data := length_fitTo 32 (key ++ data)
  encryptUpdate _ _ _ new := new
  encryptFinal _ _ _ := []
  decryptUpdate _ _ ciphertext := some ciphertext
  decryptFinal _ _ _ := some []

/-- `EC_GROUP_get_curve_name` of the program's group: `NID_secp256k1`. -/
def nidSecp256k1 : Nat := 714

/-- `EVP_CIPHER_iv_length (EVP_aes_256_cbc ())`. -/
def ivLength : Nat := 16

/-- `SHA512_DIGEST_LENGTH`, the size of the derived key. -/
def ecdhKeyLength : Nat := 64

end Notbit
