import Notbit.Ecc.OpenSSL
import Notbit.Lib.Transfers

/-!
# Key — addresses and key pairs (`ntb-address.c`, `ntb-key.c`)

A key is built by `ntb_key_new`, which derives the tag from the address and, for a private key, the
ripe from the two public keys: the loader of the key file passes no ripe, and the key generator
passes the one it has just computed from the public keys.

Two arrays are too small for what is written to them.  `sha_hash` has `SHA_DIGEST_LENGTH` bytes and
takes a SHA-512 digest, and the copies of a key from the network reach one byte past an array of
`NTB_ECC_PUBLIC_KEY_SIZE`.  The functions that end in `Call` record these writes; their values, which
are those of the program as long as nothing is lost to the writes, are the functions without.
-/

open Bytes Notbit.Proto Transfers Transfers.Handler

namespace Notbit

/-- `struct ntb_address`, with the version and the stream in a byte each. -/
structure Address where
  version : Nat
  stream : Nat
  ripe : List UInt8
  version_lt : version < 256
  stream_lt : stream < 256
  length_ripe : ripe.length = 20
  deriving DecidableEq

-- The numbers of the addresses in examples.
theorem Address.one_lt : 1 < 256 := by decide

theorem Address.two_lt : 2 < 256 := by decide

theorem Address.three_lt : 3 < 256 := by decide

theorem Address.four_lt : 4 < 256 := by decide

theorem Address.length_zeroRipe : (List.replicate 20 (0 : UInt8)).length = 20 :=
  List.length_replicate

/-- `ntb_address_equal` -/
def Address.equal (a b : Address) : Bool :=
  a.version == b.version && a.stream == b.stream && a.ripe == b.ripe

/-- The double hash of `ntb_address_get_tag`: the private key is its first half, the tag the
second. -/
def Address.tagHash (ssl : OpenSSL) (a : Address) : List UInt8 :=
  ssl.sha512 (ssl.sha512 (addVarInt a.version ++ addVarInt a.stream ++ a.ripe))

def Address.tag (ssl : OpenSSL) (a : Address) : List UInt8 := (a.tagHash ssl).drop 32

def Address.tagPrivateKey (ssl : OpenSSL) (a : Address) : List UInt8 := (a.tagHash ssl).take 32

theorem Address.length_tag (ssl : OpenSSL) (a : Address) : (a.tag ssl).length = 32 := by
  rw [tag, List.length_drop, tagHash, ssl.length_sha512]

/-- The address that `ntb_address_from_network_keys` fills in.  The version and the stream are passed
as `uint8_t`. -/
def addressFromNetworkKeys (ssl : OpenSSL) (version stream : Nat)
    (publicSigningKey publicEncryptionKey : List UInt8) : Address where
  version := version % 256
  stream := stream % 256
  ripe := ssl.ripemd160
    (ssl.sha512 ([4] ++ publicSigningKey ++ [4] ++ publicEncryptionKey))
  version_lt := Nat.mod_lt _ (by decide)
  stream_lt := Nat.mod_lt _ (by decide)
  length_ripe := ssl.length_ripemd160 _

/-- The ripe that `generate_ripe` fills in. -/
def generateRipe (ssl : OpenSSL) (signingKey encryptionKey : ssl.Key) : List UInt8 :=
  ssl.ripemd160 (ssl.sha512 (ssl.pointToOct (ssl.publicKey signingKey) ++
    ssl.pointToOct (ssl.publicKey encryptionKey)))

/-- `uint8_t sha_hash[SHA_DIGEST_LENGTH]` -/
def shaHashRoom : Nat := 20

/-- `SHA512_Final (sha_hash, ...)` and the `RIPEMD160` of what it has written. -/
def ripeCall (ssl : OpenSSL) (bytes : List UInt8) : Handler (List UInt8) := do
  let digest := ssl.sha512 bytes
  put digest.length shaHashRoom
  return ssl.ripemd160 digest

/-- `ntb_address_from_network_keys`, with its write to `sha_hash`. -/
def addressFromNetworkKeysCall (ssl : OpenSSL) (version stream : Nat)
    (publicSigningKey publicEncryptionKey : List UInt8) : Handler Address := do
  let _ ← ripeCall ssl ([4] ++ publicSigningKey ++ [4] ++ publicEncryptionKey)
  return addressFromNetworkKeys ssl version stream publicSigningKey publicEncryptionKey

/-- `generate_ripe`, with its write to `sha_hash`. -/
def generateRipeCall (ssl : OpenSSL) (signingKey encryptionKey : ssl.Key) : Handler (List UInt8) :=
  ripeCall ssl (ssl.pointToOct (ssl.publicKey signingKey) ++
    ssl.pointToOct (ssl.publicKey encryptionKey))

/-- `memcpy (full_public_key + 1, key, NTB_ECC_PUBLIC_KEY_SIZE)` into an array of that size: what
gets into the array are 64 bytes. -/
def copyNetworkKey (block : Block) (mem : Memory) (key : Nat) : Handler (List UInt8) := do
  let full ← copy block mem key 65 64
  return full.take 64

/-- A SHA-512 digest never fits `sha_hash`. -/
theorem not_clean_ripeCall (ssl : OpenSSL) (bytes : List UInt8) : ¬ Clean (ripeCall ssl bytes) := by
  intro h
  have hfits := clean_put_iff.mp (clean_bind_iff.mp h).1
  rw [ssl.length_sha512] at hfits
  exact absurd hfits (by decide)

/-- The address of two keys is computed, and the array overflows, whatever the keys are. -/
theorem addressFromNetworkKeysCall_spec (ssl : OpenSSL) (version stream : Nat)
    (publicSigningKey publicEncryptionKey : List UInt8) :
    (addressFromNetworkKeysCall ssl version stream publicSigningKey publicEncryptionKey).value =
        .ok (addressFromNetworkKeys ssl version stream publicSigningKey publicEncryptionKey) ∧
      ¬ Clean (addressFromNetworkKeysCall ssl version stream publicSigningKey
        publicEncryptionKey) :=
  ⟨rfl, fun h => not_clean_ripeCall ssl _ (clean_bind_iff.mp h).1⟩

/-- So it is with the ripe of a key pair. -/
theorem generateRipeCall_spec (ssl : OpenSSL) (signingKey encryptionKey : ssl.Key) :
    (generateRipeCall ssl signingKey encryptionKey).value =
        .ok (generateRipe ssl signingKey encryptionKey) ∧
      ¬ Clean (generateRipeCall ssl signingKey encryptionKey) :=
  ⟨rfl, not_clean_ripeCall ssl _⟩

/-- A key is copied in full, and with a byte too many. -/
theorem copyNetworkKey_spec (block : Block) (mem : Memory) (key : Nat) :
    (copyNetworkKey block mem key).value = .ok (window mem key 64) ∧
      ¬ Clean (copyNetworkKey block mem key) := by
  constructor
  · rw [copyNetworkKey, value_bind_of_ok (value_copy _ _ _ _ _), value_pure,
      take_window _ (by omega)]
  · intro h
    have hfits := (clean_copy_iff.mp (clean_bind_iff.mp h).1).2
    omega

/-- The least difficulty, for examples. -/
def leastTrials : CInt := ⟨320, by decide, by decide⟩

def leastExtraBytes : CInt := ⟨14000, by decide, by decide⟩

/-- The fields of `struct ntb_key` that go into messages and pubkey objects.  The tag is that of the
address. -/
structure Key (ssl : OpenSSL) where
  address : Address
  nonceTrialsPerByte : CInt
  payloadLengthExtraBytes : CInt
  lastPubkeySendTime : Int
  signingKey : ssl.Key
  encryptionKey : ssl.Key

/-- A key with its private halves: its address is the one of its public keys. -/
structure PrivateKey (ssl : OpenSSL) extends Key ssl where
  ripe_eq : address.ripe = generateRipe ssl signingKey encryptionKey

/-- `ntb_proto_add_public_key`: the uncompressed point without its first byte. -/
def addPublicKey (ssl : OpenSSL) (key : ssl.Key) : Buffer :=
  (ssl.pointToOct (ssl.publicKey key)).drop 1

theorem length_addPublicKey (ssl : OpenSSL) (key : ssl.Key) :
    (addPublicKey ssl key).length = 64 := by
  rw [addPublicKey, List.length_drop, ssl.length_pointToOct]

/-- `append_signature`: the length and the bytes of the signature of a byte string. -/
def appendSignature (ssl : OpenSSL) (key : ssl.Key) (signed : Buffer) : Buffer :=
  let sig := ssl.ecdsaSign key (ssl.sha1 signed)
  addVarInt sig.length ++ sig

/-- `NTB_PROTO_PUBKEY_BEHAVIORS` -/
def pubkeyBehaviors : Nat := 1

/-- `NTB_PROTO_ACKDATA_SIZE` -/
def ackdataSize : Nat := 32

end Notbit
