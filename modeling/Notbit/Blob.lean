import Notbit.Ecc.OpenSSL
import Notbit.HashTable

/-!
# Blob — objects of the network, their hash and their lifetime (`ntb-blob.h`, `ntb-proto.c`)
-/

open Bytes Traced Notbit.Proto

namespace Notbit

/-- `enum ntb_proto_inv_type` -/
inductive InvType where
  | getpubkey | pubkey | msg | broadcast
  deriving DecidableEq, Repr

/-- `ntb_proto_get_max_age_for_type`, in seconds. -/
def maxAgeForType : InvType → Int
  | .pubkey => 4 * 7 * 24 * 60 * 60
  | .msg | .getpubkey | .broadcast => 24 * 60 * 60 * 5 / 2

/-- `NTB_PROTO_EXTRA_AGE` -/
def extraAge : Int := 6 * 60 * 60

/-- `struct ntb_blob`; the reference count only decides when its memory is returned. -/
structure Blob where
  type : InvType
  data : List UInt8
  deriving DecidableEq, Repr

/-- `ntb_proto_double_hash` -/
def doubleHash (ssl : OpenSSL) (data : List UInt8) : Hash :=
  ⟨(ssl.sha512 (ssl.sha512 data)).take 32, by
    rw [List.length_take, ssl.length_sha512]
    decide⟩

/-- The start of every object: the nonce and the time stamp. -/
def objectHeader : List Argument := [.u64, .timestamp]

/-- The call of `ntb_proto_get_command` in `add_object`: the time stamp, if the header is whole. -/
def objectTimestamp (data : List UInt8) : Option Int :=
  match (getCommand 0 (data.length % 2 ^ 32) objectHeader).value (ofList data) with
  | .ok ([.num _, .num timestamp], _) => some timestamp
  | _ => none

-- The header an object is written with is read back.
theorem objectTimestamp_append {nonce timestamp : Nat} (ht : timestamp < 2 ^ 32)
    {rest : List UInt8} (hrest : rest.length < 2 ^ 30) :
    objectTimestamp (add64 nonce ++ add64 timestamp ++ rest) = some (timestamp : Int) := by
  have hlength : (add64 nonce ++ add64 timestamp ++ rest).length = 16 + rest.length := by
    simp only [add64, List.length_append, length_toBE]
  have hencodes : Encodes objectHeader [.num (nonce % 2 ^ 64), .num timestamp]
      (add64 nonce ++ add64 timestamp) := by
    have h := Encodes.cons (reads_u64 nonce) (Encodes.cons (reads_timestamp ht) Encodes.nil)
    rwa [List.append_nil] at h
  have hmem : Holds (ofList (add64 nonce ++ add64 timestamp ++ rest)) 0
      (add64 nonce ++ add64 timestamp) :=
    ((holds_append _ _ _ _).mp (holds_ofList _)).1
  have hparse := @getCommand_value _ 0 (16 + rest.length) _ _ _ hencodes hmem
    (by simp [add64]) (by omega)
  unfold objectTimestamp
  rw [hlength, Nat.mod_eq_of_lt (by omega), hparse]

end Notbit
