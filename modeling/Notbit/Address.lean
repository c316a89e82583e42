import Notbit.Base58
import Notbit.Key

/-!
# Address — addresses as text (`ntb-address.c`)

The text of an address is its version, its stream, its ripe without the zero bytes in front and a
checksum, as a numeral.  The version keeps the numeral from losing bytes, as long as it is not zero
itself.
-/

open Bytes Notbit.Proto

namespace Notbit

/-- `NTB_ADDRESS_MAX_LENGTH` -/
def addressMaxLength : Nat := 39

namespace Address

theorem ext {a b : Address} (hversion : a.version = b.version) (hstream : a.stream = b.stream)
    (hripe : a.ripe = b.ripe) : a = b := by
  obtain ⟨_, _, _, _, _, _⟩ := a
  obtain ⟨_, _, _, _, _, _⟩ := b
  cases hversion
  cases hstream
  cases hripe
  rfl

/-- `calc_checksum` -/
def calcChecksum (ssl : OpenSSL) (version stream : UInt8) (ripe : List UInt8) : List UInt8 :=
  (ssl.sha512 (ssl.sha512 ([version] ++ [stream] ++ ripe))).take 4

/-- The loop of `ntb_address_encode` that skips zero bytes in front of the ripe. -/
def trimRipe : Nat → List UInt8 → List UInt8
  | n + 1, b :: ripe => if b = 0 then trimRipe n ripe else b :: ripe
  | _, ripe => ripe

/-- The bytes that `ntb_address_encode` makes a numeral of. -/
def binAddress (ssl : OpenSSL) (a : Address) : List UInt8 :=
  let version := UInt8.ofNat a.version
  let stream := UInt8.ofNat a.stream
  let ripe := trimRipe (if a.version ≥ 4 then 20 else 2) a.ripe
  version :: stream :: (ripe ++ calcChecksum ssl version stream ripe)

/-- `ntb_address_encode` -/
def encode (ssl : OpenSSL) (a : Address) : List UInt8 :=
  ascii "BM-" ++ Base58.encode (a.binAddress ssl)

/-- The part of `ntb_address_decode` behind the call of the decoder. -/
def ofBinAddress (ssl : OpenSSL) : List UInt8 → Option Address
  | version :: stream :: rest =>
    if h : 4 ≤ rest.length ∧ rest.length ≤ 24 then
      if calcChecksum ssl version stream (rest.take (rest.length - 4)) =
          rest.drop (rest.length - 4) then
        some {
          version := version.toNat
          stream := stream.toNat
          ripe := List.replicate (24 - rest.length) 0 ++ rest.take (rest.length - 4)
          version_lt := version.toNat_lt
          stream_lt := stream.toNat_lt
          length_ripe := by
            rw [List.length_append, List.length_replicate, List.length_take]
            omega }
      else none
    else none
  | _ => none

/-- `ntb_address_decode` -/
def decode (ssl : OpenSSL) (addressString : List UInt8) : Option Address :=
  let addressString :=
    if ascii "BM-" <+: addressString then addressString.drop 3 else addressString
  (Base58.decode addressString 26).bind (ofBinAddress ssl)

theorem length_calcChecksum (ssl : OpenSSL) (version stream : UInt8) (ripe : List UInt8) :
    (calcChecksum ssl version stream ripe).length = 4 := by
  rw [calcChecksum, List.length_take, ssl.length_sha512]
  rfl

theorem length_trimRipe_le (n : Nat) (ripe : List UInt8) : (trimRipe n ripe).length ≤ ripe.length := by
  induction n generalizing ripe with
  | zero => exact le_refl _
  | succ n ih =>
    cases ripe with
    | nil => exact le_refl _
    | cons b ripe =>
      rw [trimRipe]
      split
      · exact (ih ripe).trans (Nat.le_succ _)
      · exact le_refl _

-- The bytes that were skipped are zeroes.
theorem replicate_trimRipe (n : Nat) (ripe : List UInt8) :
    List.replicate (ripe.length - (trimRipe n ripe).length) 0 ++ trimRipe n ripe = ripe := by
  induction n generalizing ripe with
  | zero => simp [trimRipe]
  | succ n ih =>
    cases ripe with
    | nil => rfl
    | cons b ripe =>
      rw [trimRipe]
      split
      · rename_i hb
        have hle := length_trimRipe_le n ripe
        rw [List.length_cons, Nat.succ_sub hle, List.replicate_succ, List.cons_append, ih, hb]
      · simp

theorem toNat_version (a : Address) : (UInt8.ofNat a.version).toNat = a.version := by
  rw [UInt8.toNat_ofNat']
  exact Nat.mod_eq_of_lt a.version_lt

theorem toNat_stream (a : Address) : (UInt8.ofNat a.stream).toNat = a.stream := by
  rw [UInt8.toNat_ofNat']
  exact Nat.mod_eq_of_lt a.stream_lt

theorem ofNat_version_ne_zero {a : Address} (h : 1 ≤ a.version) :
    UInt8.ofNat a.version ≠ 0 := by
  intro hzero
  have hnat := congrArg UInt8.toNat hzero
  rw [toNat_version] at hnat
  change a.version = 0 at hnat
  omega

theorem length_binAddress_le (ssl : OpenSSL) (a : Address) :
    (a.binAddress ssl).length ≤ 26 := by
  have hle := length_trimRipe_le (if a.version ≥ 4 then 20 else 2) a.ripe
  rw [a.length_ripe] at hle
  simp only [binAddress, List.length_cons, List.length_append, length_calcChecksum]
  omega

theorem ofBinAddress_binAddress (ssl : OpenSSL) (a : Address) :
    ofBinAddress ssl (a.binAddress ssl) = some a := by
  have hle := length_trimRipe_le (if a.version ≥ 4 then 20 else 2) a.ripe
  have hpad := replicate_trimRipe (if a.version ≥ 4 then 20 else 2) a.ripe
  unfold binAddress
  dsimp only
  generalize trimRipe (if a.version ≥ 4 then 20 else 2) a.ripe = ripe at hle hpad ⊢
  rw [a.length_ripe] at hle hpad
  have hlength : (ripe ++ calcChecksum ssl (UInt8.ofNat a.version) (UInt8.ofNat a.stream)
      ripe).length = ripe.length + 4 := by
    rw [List.length_append, length_calcChecksum]
  have hcond : 4 ≤ ripe.length + 4 ∧ ripe.length + 4 ≤ 24 := by omega
  simp only [ofBinAddress, hlength, Nat.add_sub_cancel, List.take_left, List.drop_left, if_true]
  rw [dif_pos hcond]
  refine congrArg some (ext a.toNat_version a.toNat_stream ?_)
  show List.replicate (24 - (ripe.length + 4)) 0 ++ ripe = a.ripe
  rw [← hpad, show 24 - (ripe.length + 4) = 20 - ripe.length by omega]

theorem decode_numeral (ssl : OpenSSL) {a : Address} (h : 1 ≤ a.version) :
    (Base58.decode (Base58.encode (a.binAddress ssl)) 26).bind (ofBinAddress ssl) = some a := by
  have hdecode : Base58.decode (Base58.encode (a.binAddress ssl)) 26 = some (a.binAddress ssl) :=
    Base58.decode_encode_cons (ofNat_version_ne_zero h) (length_binAddress_le ssl a)
  rw [hdecode, Option.bind_some]
  exact ofBinAddress_binAddress ssl a

/-- Every address whose version is not zero is read back from its text. -/
theorem decode_encode (ssl : OpenSSL) {a : Address} (h : 1 ≤ a.version) :
    decode ssl (a.encode ssl) = some a := by
  have hprefix : ascii "BM-" <+: a.encode ssl := List.prefix_append _ _
  have hdrop : (a.encode ssl).drop 3 = Base58.encode (a.binAddress ssl) := rfl
  unfold decode
  dsimp only
  rw [if_pos hprefix, hdrop]
  exact decode_numeral ssl h

-- The prefix is not part of a numeral.
theorem decode_drop_encode (ssl : OpenSSL) {a : Address} (h : 1 ≤ a.version) :
    decode ssl ((a.encode ssl).drop 3) = some a := by
  have hdrop : (a.encode ssl).drop 3 = Base58.encode (a.binAddress ssl) := rfl
  have hprefix : ¬ ascii "BM-" <+: Base58.encode (a.binAddress ssl) := by
    intro hprefix
    have hmem : (45 : UInt8) ∈ Base58.encode (a.binAddress ssl) := hprefix.subset (by decide)
    exact absurd (Base58.mem_alphabet_of_mem_encode hmem) (by decide)
  unfold decode
  dsimp only
  rw [hdrop, if_neg hprefix]
  exact decode_numeral ssl h

theorem length_encode_le (ssl : OpenSSL) (a : Address) :
    (a.encode ssl).length ≤ addressMaxLength := by
  have hlt := ofBE_lt (a.binAddress ssl)
  have hpow : 256 ^ (a.binAddress ssl).length ≤ 256 ^ 26 :=
    Nat.pow_le_pow_right (by omega) (length_binAddress_le ssl a)
  have hbase : 256 ^ 26 < 58 ^ 36 := by norm_num
  have hnumeral := Base58.length_encode_le (show 0 < 36 by omega)
    ((hlt.trans_le hpow).trans hbase)
  rw [encode, List.length_append]
  show 3 + _ ≤ 39
  omega

/-- Every address whose version is not zero is read back from its text, with the prefix or without
it, and the text is a string that is not too long. -/
theorem address_roundTrips (ssl : OpenSSL) (a : Address) (h : 1 ≤ a.version) :
    decode ssl (a.encode ssl) = some a ∧ decode ssl ((a.encode ssl).drop 3) = some a ∧
    (a.encode ssl).length ≤ addressMaxLength ∧ 0 ∉ a.encode ssl := by
  refine ⟨decode_encode ssl h, decode_drop_encode ssl h, length_encode_le ssl a, ?_⟩
  intro hnull
  rcases List.mem_append.mp hnull with hprefix | hnumeral
  · exact absurd hprefix (by decide)
  · exact absurd (Base58.mem_alphabet_of_mem_encode hnumeral) (by decide)

-- An address whose ripe is all zeroes.
theorem zero_ripe_roundTrips :
    let a : Address := {
      version := 4
      stream := 1
      ripe := List.replicate 20 0
      version_lt := by decide
      stream_lt := by decide
      length_ripe := by decide }
    decode .additive (a.encode .additive) = some a :=
  (address_roundTrips .additive _ (by decide)).1

end Address

end Notbit
