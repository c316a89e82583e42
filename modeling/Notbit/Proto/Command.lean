import Notbit.Proto.Fields

/-!
# Command — argument lists and the framing of commands (`ntb-proto.c`)

`getCommand` is `ntb_proto_get_command_va_list`: it walks a list of argument kinds over the input
and returns the values with the number of bytes taken.
-/

open Bytes Traced Traced.Parser

namespace Notbit.Proto

/-! ## 1. Argument lists -/

/-- `enum ntb_proto_argument`; `NTB_PROTO_ARGUMENT_END` is the end of the list. -/
inductive Argument where
  | u8 | u16 | u32 | u64 | bool | varInt | timestamp | netaddress | varStr | varIntList
  deriving DecidableEq, Repr

/-- What the code stores through the pointer that goes with an argument. -/
inductive ArgValue where
  | num (n : Nat)
  | bool (b : Bool)
  | netaddress (a : Netaddress)
  | varStr (s : VarStr)
  | varIntList (l : VarIntList)
  deriving DecidableEq, Repr

def getArgument : Argument → Cursor → Parser (ArgValue × Cursor)
  | .u8, c => do
    let (v, c') ← sizedField c 1 (get8 c.pos)
    return (.num v, c')
  | .u16, c => do
    let (v, c') ← sizedField c 2 (get16 c.pos)
    return (.num v, c')
  | .u32, c => do
    let (v, c') ← sizedField c 4 (get32 c.pos)
    return (.num v, c')
  | .u64, c => do
    let (v, c') ← sizedField c 8 (get64 c.pos)
    return (.num v, c')
  | .bool, c => do
    let (v, c') ← sizedField c 1 (get8 c.pos)
    return (.bool (v != 0), c')
  | .varInt, c => do
    let (v, c') ← getVarInt c
    return (.num v, c')
  | .timestamp, c => do
    let (v, c') ← getTimestamp c
    return (.num v, c')
  | .netaddress, c => do
    let (a, c') ← sizedField c 18 (getNetaddress c.pos)
    return (.netaddress a, c')
  | .varStr, c => do
    let (s, c') ← getVarStr c
    return (.varStr s, c')
  | .varIntList, c => do
    let (l, c') ← getVarIntList c
    return (.varIntList l, c')

/-- The `while (true)` loop over the argument list. -/
def getArguments : List Argument → Cursor → Parser (List ArgValue × Cursor)
  | [], c => return ([], c)
  | a :: as, c => do
    let (v, c') ← getArgument a c
    let (vs, c'') ← getArguments as c'
    return (v :: vs, c'')

/-- `ntb_proto_get_command`: the values and `data - data_start`; a rejection is its `-1`. -/
def getCommand (p len : Nat) (args : List Argument) : Parser (List ArgValue × Nat) := do
  let (vs, c) ← getArguments args { pos := p, len }
  return (vs, c.pos - p)

/-- The bytes of a list of arguments, each with the value that is read back from it. -/
inductive Encodes : List Argument → List ArgValue → List UInt8 → Prop
  | nil : Encodes [] [] []
  | cons {a : Argument} {v : ArgValue} {bs : List UInt8} {as : List Argument}
      {vs : List ArgValue} {rest : List UInt8} :
      Reads (2 ^ 31) (getArgument a) bs v → Encodes as vs rest →
      Encodes (a :: as) (v :: vs) (bs ++ rest)

-- A list of arguments is read back from their bytes.
theorem Encodes.reads {args : List Argument} {vs : List ArgValue} {bs : List UInt8}
    (h : Encodes args vs bs) : Reads (2 ^ 31) (getArguments args) bs vs := by
  induction h with
  | nil => exact Reads.pure _
  | cons hv _ ih => exact hv.bind (ih.map _)

section ReadBack

variable {v : Nat}

theorem reads_u64 (v : Nat) :
    Reads (2 ^ 31) (getArgument .u64) (add64 v) (.num (v % 2 ^ 64)) :=
  ((reads_get64 v).map ArgValue.num).mono (show 2 ^ 31 ≤ 2 ^ 32 by norm_num)

theorem reads_u32 (hv : v < 2 ^ 32) :
    Reads (2 ^ 31) (getArgument .u32) (add32 v) (.num v) :=
  ((reads_get32 hv).map ArgValue.num).mono (show 2 ^ 31 ≤ 2 ^ 32 by norm_num)

theorem reads_varInt (hv : v < 2 ^ 64) :
    Reads (2 ^ 31) (getArgument .varInt) (addVarInt v) (.num v) :=
  (reads_getVarInt hv).map ArgValue.num

-- A var_int may also be wider than its value needs.
theorem reads_varInt_tagged (tag : UInt8) (w : Nat)
    (htag : tag.toNat = 0xfd ∧ w = 2 ∨ tag.toNat = 0xfe ∧ w = 4 ∨ tag.toNat = 0xff ∧ w = 8)
    (hv : v < 256 ^ w) : Reads (2 ^ 31) (getArgument .varInt) (tag :: toBE w v) (.num v) := by
  have hread : Reads (2 ^ 31) getVarInt (tag :: toBE w v) v := by
    intro mem c h hlen hc
    simp only [List.length_cons, length_toBE] at hlen ⊢
    exact getVarInt_tagged hlen hc htag h hv
  exact hread.map ArgValue.num

theorem reads_timestamp (hv : v < 2 ^ 32) :
    Reads (2 ^ 31) (getArgument .timestamp) (add64 v) (.num v) :=
  ((reads_getTimestamp hv).map ArgValue.num).mono (show 2 ^ 31 ≤ 2 ^ 32 by norm_num)

theorem reads_timestamp_short (hpos : v ≠ 0) (hv : v < 2 ^ 32) :
    Reads (2 ^ 31) (getArgument .timestamp) (add32 v) (.num v) :=
  ((reads_getTimestamp_short hpos hv).map ArgValue.num).mono (show 2 ^ 31 ≤ 2 ^ 32 by norm_num)

end ReadBack

-- A command that starts with the bytes of its arguments is parsed to them, and as many bytes are
-- taken.
theorem getCommand_value {mem : Memory} {p len : Nat} {args : List Argument}
    {vs : List ArgValue} {bs : List UInt8} (h : Encodes args vs bs) (hmem : Holds mem p bs)
    (hlen : bs.length ≤ len) (hlimit : len < 2 ^ 31) :
    (getCommand p len args).value mem = .ok (vs, bs.length) := by
  rw [getCommand, value_bind_of_ok (h.reads mem { pos := p, len } hmem hlen hlimit), value_pure]
  simp

section Length

variable {mem : Memory} {c c' : Cursor} {v : ArgValue} {vs : List ArgValue}

theorem getTimestamp_pos {t : Nat} (h : (getTimestamp c).value mem = .ok (t, c')) :
    c'.pos ≤ c.pos + 8 := by
  obtain ⟨⟨high, c₁⟩, hhigh, hrest⟩ := value_bind_eq_ok.mp h
  obtain ⟨-, -, rfl⟩ := sizedField_ok hhigh
  simp only at hrest
  split at hrest
  · obtain ⟨-, -, rfl⟩ := sizedField_ok hrest
    simp only [Cursor.advance]
    omega
  · cases hrest
    simp only [Cursor.advance]
    omega

-- How far the arguments of an object's header reach.
theorem getArgument_pos {a : Argument} (ha : a ∈ [Argument.u64, .timestamp, .varInt])
    (h : (getArgument a c).value mem = .ok (v, c')) : c'.pos ≤ c.pos + 9 := by
  simp only [List.mem_cons, List.not_mem_nil, or_false] at ha
  rcases ha with rfl | rfl | rfl
  · obtain ⟨⟨x, c₁⟩, hx, heq⟩ := value_bind_eq_ok.mp h
    obtain ⟨-, -, rfl⟩ := sizedField_ok hx
    cases heq
    simp [Cursor.advance]
  · obtain ⟨⟨x, c₁⟩, hx, heq⟩ := value_bind_eq_ok.mp h
    cases heq
    exact (getTimestamp_pos hx).trans (by omega)
  · obtain ⟨⟨x, c₁⟩, hx, heq⟩ := value_bind_eq_ok.mp h
    obtain ⟨-, -, n, -, hn, -, rfl⟩ := getVarInt_ok hx
    cases heq
    simp only [Cursor.advance]
    omega

theorem getArguments_pos {args : List Argument}
    (hargs : ∀ a ∈ args, a ∈ [Argument.u64, .timestamp, .varInt])
    (h : (getArguments args c).value mem = .ok (vs, c')) :
    c'.pos ≤ c.pos + 9 * args.length := by
  induction args generalizing c vs with
  | nil =>
    cases h
    simp
  | cons a args ih =>
    obtain ⟨⟨v, c₁⟩, hv, hrest⟩ := value_bind_eq_ok.mp h
    obtain ⟨⟨vs', c₂⟩, hvs, heq⟩ := value_bind_eq_ok.mp hrest
    cases heq
    have hfirst := getArgument_pos (hargs a List.mem_cons_self) hv
    have hothers := ih (fun b hb => hargs b (List.mem_cons_of_mem a hb)) hvs
    simp only [List.length_cons]
    omega

-- The header of an object is short.
theorem getCommand_length_le {p len n : Nat} {args : List Argument}
    (hargs : ∀ a ∈ args, a ∈ [Argument.u64, .timestamp, .varInt])
    (h : (getCommand p len args).value mem = .ok (vs, n)) : n ≤ 9 * args.length := by
  obtain ⟨⟨vs', c⟩, hc, heq⟩ := value_bind_eq_ok.mp h
  cases heq
  have hpos := getArguments_pos hargs hc
  simp only at hpos
  omega

end Length

section Locality

variable {mem : Memory} {c c' : Cursor}

theorem getArgument_consumed {a : Argument} {v : ArgValue} (hc : c.len < 2 ^ 32)
    (h : (getArgument a c).value mem = .ok (v, c')) : Consumed c c' := by
  cases a <;> (obtain ⟨⟨x, c₁⟩, hx, heq⟩ := value_bind_eq_ok.mp h; cases heq)
  case u8 | u16 | u32 | u64 | bool | netaddress => exact sizedField_consumed hc hx
  case varInt => exact getVarInt_consumed hx
  case timestamp => exact getTimestamp_consumed hc hx
  case varStr => exact getVarStr_consumed hx
  case varIntList => exact getVarIntList_consumed hx

theorem local_getArgument (a : Argument) (hc : c.len < 2 ^ 32) :
    Local c.pos (c.pos + c.len) (getArgument a c) := by
  cases a with
  | u8 | bool =>
    exact (local_sizedField fun _ => local_get8 (le_refl _) (by omega)).bind
      fun _ _ _ => local_pure _
  | u16 | u32 | u64 =>
    exact (local_sizedField fun _ => local_ofBE (le_refl _) (by omega)).bind
      fun _ _ _ => local_pure _
  | varInt => exact (local_getVarInt c).bind fun _ _ _ => local_pure _
  | timestamp => exact (local_getTimestamp hc).bind fun _ _ _ => local_pure _
  | netaddress =>
    exact (local_sizedField fun _ => local_getNetaddress (le_refl _) (by omega)).bind
      fun _ _ _ => local_pure _
  | varStr => exact (local_getVarStr c).bind fun _ _ _ => local_pure _
  | varIntList => exact (local_getVarIntList c).bind fun _ _ _ => local_pure _

theorem getArguments_consumed {args : List Argument} {vs : List ArgValue} (hc : c.len < 2 ^ 32)
    (h : (getArguments args c).value mem = .ok (vs, c')) : Consumed c c' := by
  induction args generalizing c vs with
  | nil =>
    cases h
    exact ⟨le_refl _, rfl⟩
  | cons a args ih =>
    obtain ⟨⟨v, c₁⟩, hv, hrest⟩ := value_bind_eq_ok.mp h
    obtain ⟨⟨vs', c₂⟩, hvs, heq⟩ := value_bind_eq_ok.mp hrest
    cases heq
    have hfirst := getArgument_consumed hc hv
    have hlen := hfirst.len_le
    exact hfirst.trans (ih (by omega) hvs)

-- The arguments of a command depend on nothing but its bytes.
theorem local_getArguments (args : List Argument) (hc : c.len < 2 ^ 32) :
    Local c.pos (c.pos + c.len) (getArguments args c) := by
  induction args generalizing c with
  | nil => exact local_pure _
  | cons a args ih =>
    apply (local_getArgument a hc).bind
    rintro mem ⟨v, c₁⟩ hv
    have hfirst := getArgument_consumed hc hv
    have hlen := hfirst.len_le
    apply (hfirst.local (ih (by omega))).bind
    intro _ _ _
    exact local_pure _

theorem local_getCommand {p len : Nat} (args : List Argument) (hlen : len < 2 ^ 32) :
    Local p (p + len) (getCommand p len args) :=
  (local_getArguments args (c := { pos := p, len }) hlen).bind fun _ _ _ => local_pure _

-- What a command takes of its input is there.
theorem getCommand_consumed {p len n : Nat} {args : List Argument} {vs : List ArgValue}
    (hlen : len < 2 ^ 32) (h : (getCommand p len args).value mem = .ok (vs, n)) : n ≤ len := by
  obtain ⟨⟨vs', c⟩, hc, heq⟩ := value_bind_eq_ok.mp h
  cases heq
  have hconsumed := getArguments_consumed hlen hc
  unfold Consumed at hconsumed
  simp only at hconsumed
  omega

end Locality

/-! ## 2. Framing and limits of the protocol -/

/-- `NTB_PROTO_MIN_NONCE_TRIALS_PER_BYTE`, the difficulty of a key that announces none. -/
def minNonceTrialsPerByte : Nat := 320

/-- `NTB_PROTO_MIN_EXTRA_BYTES` -/
def minExtraBytes : Nat := 14000

/-- `ntb_proto_magic`. -/
def magic : List UInt8 := [0xe9, 0xbe, 0xb4, 0xd9]

/-- `NTB_PROTO_HEADER_SIZE`: magic, command name, payload length, checksum. -/
def headerSize : Nat := 4 + 12 + 4 + 4

/-- The 12-byte field of a command name. -/
def commandField (command : List UInt8) : List UInt8 :=
  command ++ List.replicate (12 - command.length) 0

/-- `ntb_proto_check_command_string`: a zero byte ends the name and only zeroes follow it. -/
def checkCommandString (name : List UInt8) : Bool :=
  match name.dropWhile (· ≠ 0) with
  | [] => false
  | _ :: rest => rest.all (· = 0)

end Notbit.Proto
