import Notbit.Proto.Command

/-!
# HashLists — the counted hash lists of `inv` and `getdata` (`ntb-connection.c`, `ntb-network.c`)

Both handlers read a count, compare the remaining length with the count times the hash length, and
hand the network a pointer and the count.  The comparison is done in 64 bits, so the multiplication
wraps: `handlers_fit_iff` says for exactly which counts the hashes that the network then indexes
lie inside the payload.
-/

open Bytes Traced Traced.Parser Notbit.Proto

namespace Notbit.Connection

/-- `NTB_PROTO_HASH_LENGTH`. -/
def hashLength : Nat := 32

/-- `struct ntb_connection_inv_event` and `struct ntb_connection_getdata_event`: a pointer to the
first hash and the number of hashes announced. -/
structure HashEvent where
  hashes : Nat
  nHashes : Nat
  deriving DecidableEq, Repr

/-- The check the two handlers share.  The product is a `uint64_t`. -/
def hashListHandler (data commandLength : Nat) : Parser HashEvent := do
  let (n, c) ← getVarInt { pos := data, len := commandLength }
  if c.len < n * hashLength % 2 ^ 64 then reject
  else return { hashes := c.pos, nHashes := n }

def invCommandHandler : Nat → Nat → Parser HashEvent := hashListHandler

def getdataCommandHandler : Nat → Nat → Parser HashEvent := hashListHandler

/-- The address of the `i`-th hash in the loops of `handle_inv` and `handle_getdata`. -/
def HashEvent.hashAddr (e : HashEvent) (i : Nat) : Nat :=
  e.hashes + i * hashLength % 2 ^ 64

/-! ## Accepted counts -/

/-- An accepted payload holds all the hashes it announces, and each hash that is indexed lies
inside it. -/
def HashesFit (handler : Nat → Nat → Parser HashEvent) (mem : Memory)
    (data commandLength : Nat) : Prop :=
  ∀ e, (handler data commandLength).value mem = .ok e →
    e.nHashes * hashLength ≤ data + commandLength - e.hashes ∧
    ∀ i < e.nHashes, data ≤ e.hashAddr i ∧
      e.hashAddr i + hashLength ≤ data + commandLength

/-- The announced count does not reach 2^59, where its product with 32 leaves 64 bits, or the
product that is left of it is still too large for the payload. -/
def CountDoesNotWrap (mem : Memory) (data commandLength : Nat) : Prop :=
  ∀ n c, (getVarInt { pos := data, len := commandLength }).value mem = .ok (n, c) →
    n < 2 ^ 59 ∨ c.len < n * hashLength % 2 ^ 64

theorem hashListHandler_ok {mem : Memory} {data commandLength : Nat} {e : HashEvent} :
    (hashListHandler data commandLength).value mem = .ok e ↔
      ∃ n c, (getVarInt { pos := data, len := commandLength }).value mem = .ok (n, c) ∧
        n * hashLength % 2 ^ 64 ≤ c.len ∧ e = { hashes := c.pos, nHashes := n } := by
  unfold hashListHandler
  rw [value_bind_eq_ok]
  constructor
  · rintro ⟨⟨n, c⟩, hread, h⟩
    simp only at h
    split at h
    next => simp at h
    next hle =>
      rw [value_pure, Except.ok.injEq] at h
      exact ⟨n, c, hread, by omega, h.symm⟩
  · rintro ⟨n, c, hread, hle, rfl⟩
    refine ⟨(n, c), hread, ?_⟩
    simp only
    rw [if_neg (by omega), value_pure]

-- A count below 2^59 is compared without wrapping, so the hashes are all there.
theorem hashes_inside {mem : Memory} {data commandLength n : Nat} {c : Cursor}
    (hread : (getVarInt { pos := data, len := commandLength }).value mem = .ok (n, c))
    (hsmall : n < 2 ^ 59) (hle : n * hashLength % 2 ^ 64 ≤ c.len) (i : Nat) (hi : i < n) :
    data ≤ c.pos + i * hashLength % 2 ^ 64 ∧
      c.pos + i * hashLength % 2 ^ 64 + hashLength ≤ data + commandLength := by
  obtain ⟨hpos, hsum⟩ := getVarInt_consumed hread
  simp only at hpos hsum
  unfold hashLength at *
  rw [Nat.mod_eq_of_lt (by omega)] at hle
  rw [Nat.mod_eq_of_lt (by omega)]
  omega

/-- Both handlers are safe on a payload exactly when its count does not wrap. -/
theorem handlers_fit_iff (mem : Memory) (data commandLength : Nat) :
    HashesFit invCommandHandler mem data commandLength ∧
        HashesFit getdataCommandHandler mem data commandLength ↔
      CountDoesNotWrap mem data commandLength := by
  change HashesFit hashListHandler mem data commandLength ∧
    HashesFit hashListHandler mem data commandLength ↔ _
  rw [and_self_iff]
  constructor
  · intro hfit n c hread
    by_contra hbad
    push Not at hbad
    obtain ⟨hlarge, hle⟩ := hbad
    have hbound := (hfit _ (hashListHandler_ok.mpr ⟨n, c, hread, hle, rfl⟩)).1
    obtain ⟨hpos, hsum⟩ := getVarInt_consumed hread
    obtain ⟨-, hshort, -⟩ := getVarInt_ok hread
    simp only [hashLength] at hbound hpos hsum hshort
    omega
  · intro hcount e he
    obtain ⟨n, c, hread, hle, rfl⟩ := hashListHandler_ok.mp he
    have hsmall : n < 2 ^ 59 := (hcount n c hread).resolve_right (by omega)
    refine ⟨?_, hashes_inside hread hsmall hle⟩
    obtain ⟨hpos, hsum⟩ := getVarInt_consumed hread
    simp only [hashLength] at hle hpos hsum ⊢
    rw [Nat.mod_eq_of_lt (by omega)] at hle
    omega

/-- The nine bytes of the var_int 2^59 and nothing else. -/
def wrappingPayload : List UInt8 := [0xff, 0x08, 0, 0, 0, 0, 0, 0, 0]

-- The payload is accepted by both handlers with 2^59 hashes and no byte for any of them.
theorem wrappingPayload_accepted :
    (invCommandHandler 0 9).value (ofList wrappingPayload) = .ok ⟨9, 2 ^ 59⟩ ∧
      (getdataCommandHandler 0 9).value (ofList wrappingPayload) = .ok ⟨9, 2 ^ 59⟩ := by
  constructor <;> rfl

theorem wrappingPayload_does_not_fit :
    ¬ HashesFit invCommandHandler (ofList wrappingPayload) 0 9 ∧
      ¬ HashesFit getdataCommandHandler (ofList wrappingPayload) 0 9 := by
  constructor <;> intro hfit
  · have hbound := (hfit _ wrappingPayload_accepted.1).1
    norm_num [hashLength] at hbound
  · have hbound := (hfit _ wrappingPayload_accepted.2).1
    norm_num [hashLength] at hbound

end Notbit.Connection
