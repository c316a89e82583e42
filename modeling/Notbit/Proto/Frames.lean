import Notbit.Ecc.OpenSSL

/-!
# Frames — commands as they are appended to a buffer (`ntb-proto.c`)

`ntb_proto_begin_command` leaves the length and the checksum of a command open, its arguments are
appended, and `ntb_proto_end_command` fills in both.  What has been appended then is `frame`
(`endCommand_beginCommand`).  A command made from a list of arguments is read back with the same
list of argument kinds (`getArguments_addArguments`).
-/

open Bytes Traced Traced.Parser

namespace Notbit.Proto

/-! ## 1. Writers -/

/-- The bytes of an ASCII literal of the source. -/
def ascii (s : String) : List UInt8 := s.toList.map fun c => UInt8.ofNat c.toNat

/-- Memory that nobody has written to: behind an input buffer, and in the part of an output
buffer that is reserved. -/
structure Unwritten where
  behind : List UInt8 → Memory
  fill : Buffer → Memory

/-- A C string: no byte before its end is zero. -/
structure CString where
  bytes : List UInt8
  nonzero : ∀ b ∈ bytes, b ≠ 0

-- The check that makes a string of a literal.
theorem nonzero_of_all {bytes : List UInt8} (h : bytes.all (· != 0) = true) :
    ∀ b ∈ bytes, b ≠ 0 := by
  simpa using h

/-- `ntb_proto_add_bool` -/
def addBool (value : Bool) : Buffer := add8 (if value then 1 else 0)

/-- `ntb_proto_add_timestamp` at the time `now`. -/
def addTimestamp (now : Int) : Buffer := add64 (toUInt64 now)

/-- `ntb_proto_add_var_str`.  The length of the string is kept in a `uint8_t`. -/
def addVarStr (str : CString) : Buffer :=
  let len := str.bytes.length % 256
  toBE 1 len ++ str.bytes.take len

/-- `ntb_proto_begin_command`: the last eight bytes of the header are not written yet. -/
def beginCommand (fill : Memory) (buf : Buffer) (command : CString) : Buffer :=
  setLength fill (buf ++ magic ++ commandField command.bytes) (buf.length + headerSize)

/-- `ntb_proto_end_command`.  The length of the payload is a `uint32_t`. -/
def endCommand (ssl : OpenSSL) (buf : Buffer) (commandStart : Nat) : Buffer :=
  let payloadLength := (buf.length - commandStart - headerSize) % 2 ^ 32
  let buf := patch buf (commandStart + 16) (toBE 4 payloadLength)
  let hash := ssl.sha512 ((buf.drop (commandStart + headerSize)).take payloadLength)
  patch buf (commandStart + 20) (hash.take 4)

/-- `struct ntb_netaddress` with the sizes of its fields. -/
structure SizedNetaddress extends Netaddress where
  length_host : host.length = 16
  port_lt : port < 2 ^ 16

/-- An argument of `ntb_proto_add_command` and the value that is passed for it.  For a timestamp
nothing is passed: it is the time at which the argument is written. -/
inductive ArgInput where
  | u8 (value : UInt8)
  | u16 (value : UInt16)
  | u32 (value : UInt32)
  | u64 (value : UInt64)
  | bool (value : Bool)
  | varInt (value : UInt64)
  | timestamp (now : Int)
  | netaddress (address : SizedNetaddress)
  | varStr (str : CString)
  | varIntList

/-- One round of the loop of `ntb_proto_add_command_va_list`; a list of var_ints cannot be written
and fails the assertion. -/
def addArgument : ArgInput → Option Buffer
  | .u8 value => some (add8 value.toNat)
  | .u16 value => some (add16 value.toNat)
  | .u32 value => some (add32 value.toNat)
  | .u64 value => some (add64 value.toNat)
  | .bool value => some (addBool value)
  | .varInt value => some (addVarInt value.toNat)
  | .timestamp now => some (addTimestamp now)
  | .netaddress address => some (addNetaddress address.toNetaddress)
  | .varStr str => some (addVarStr str)
  | .varIntList => none

def addArguments : List ArgInput → Option Buffer
  | [] => some []
  | a :: as => do
    let first ← addArgument a
    let rest ← addArguments as
    return first ++ rest

/-- `ntb_proto_add_command_va_list` -/
def addCommand (ssl : OpenSSL) (fill : Memory) (buf : Buffer) (command : CString)
    (args : List ArgInput) : Option Buffer := do
  let payload ← addArguments args
  return endCommand ssl (beginCommand fill buf command ++ payload) buf.length

/-! ## 2. The command that has been appended -/

/-- A command: magic, name, length of the payload, checksum and payload. -/
def frame (ssl : OpenSSL) (command payload : List UInt8) : Buffer :=
  magic ++ commandField command ++ toBE 4 payload.length ++ (ssl.sha512 payload).take 4 ++ payload

theorem length_magic : magic.length = 4 := rfl

theorem length_commandField {command : List UInt8} (h : command.length ≤ 12) :
    (commandField command).length = 12 := by
  rw [commandField, List.length_append, List.length_replicate]
  omega

theorem length_checksum (ssl : OpenSSL) (payload : List UInt8) :
    ((ssl.sha512 payload).take 4).length = 4 := by
  rw [List.length_take, ssl.length_sha512]
  rfl

theorem length_frame {ssl : OpenSSL} {command payload : List UInt8} (h : command.length ≤ 12) :
    (frame ssl command payload).length = headerSize + payload.length := by
  unfold frame
  rw [List.length_append, List.length_append, List.length_append, List.length_append,
    length_magic, length_commandField h, length_toBE, length_checksum]
  rfl

variable {ssl : OpenSSL} {fill : Memory} {buf : Buffer} {command : CString}

variable (fill buf) in
-- The buffer of an open command: its header with eight bytes of whatever was there.
theorem beginCommand_eq (h : command.bytes.length ≤ 12) :
    ∃ length checksum : List UInt8, length.length = 4 ∧ checksum.length = 4 ∧
      beginCommand fill buf command =
        buf ++ magic ++ commandField command.bytes ++ length ++ checksum := by
  have hsize : (buf ++ magic ++ commandField command.bytes).length = buf.length + 16 := by
    rw [List.length_append, List.length_append, length_magic, length_commandField h]
  have hopen : buf.length + headerSize - (buf.length + 16) = 4 + 4 := by
    unfold headerSize
    omega
  refine ⟨window fill (buf.length + 16) 4, window fill (buf.length + 16 + 4) 4,
    length_window _ _ _, length_window _ _ _, ?_⟩
  rw [beginCommand, setLength, hsize, hopen, window_add, ← List.append_assoc]

theorem length_beginCommand (h : command.bytes.length ≤ 12) :
    (beginCommand fill buf command).length = buf.length + headerSize := by
  obtain ⟨length, checksum, hlength, hchecksum, heq⟩ := beginCommand_eq fill buf h
  rw [heq]
  simp only [List.length_append, length_magic, length_commandField h, hlength, hchecksum]
  rfl

/-- Whatever is appended between the two calls becomes the payload of one command, and what was in
the buffer before stays as it is. -/
theorem endCommand_beginCommand (h : command.bytes.length ≤ 12) {payload : List UInt8}
    (hpayload : payload.length < 2 ^ 32) :
    endCommand ssl (beginCommand fill buf command ++ payload) buf.length =
      buf ++ frame ssl command.bytes payload := by
  have hlen : (beginCommand fill buf command ++ payload).length - buf.length - headerSize =
      payload.length := by
    rw [List.length_append, length_beginCommand h]
    omega
  obtain ⟨length, checksum, hlength, hchecksum, heq⟩ := beginCommand_eq fill buf h
  have hstart : (buf ++ magic ++ commandField command.bytes).length = buf.length + 16 := by
    rw [List.length_append, List.length_append, length_magic, length_commandField h]
  -- first the length is written over what stood there
  have hfirst : patch (beginCommand fill buf command ++ payload) (buf.length + 16)
      (toBE 4 payload.length) = (buf ++ magic ++ commandField command.bytes ++
        toBE 4 payload.length) ++ checksum ++ payload := by
    have hpatch : patch (buf ++ magic ++ commandField command.bytes ++ length ++
        (checksum ++ payload)) (buf.length + 16) (toBE 4 payload.length) =
          buf ++ magic ++ commandField command.bytes ++ toBE 4 payload.length ++
            (checksum ++ payload) :=
      patch_append hstart (by rw [hlength, length_toBE])
    rw [heq, List.append_assoc _ checksum payload, hpatch, List.append_assoc _ checksum payload]
  have hheader : (buf ++ magic ++ commandField command.bytes ++ toBE 4 payload.length).length =
      buf.length + 20 := by
    rw [List.length_append, hstart, length_toBE]
  have hdrop : ((buf ++ magic ++ commandField command.bytes ++ toBE 4 payload.length) ++ checksum ++
      payload).drop (buf.length + headerSize) = payload := by
    apply List.drop_left'
    rw [List.length_append, hheader, hchecksum]
    rfl
  unfold endCommand
  rw [hlen, Nat.mod_eq_of_lt hpayload]
  dsimp only
  -- then the checksum of the payload, which the first patch did not touch
  rw [hfirst, hdrop, List.take_length,
    patch_append hheader (by rw [hchecksum, length_checksum])]
  simp only [frame, List.append_assoc]

-- What `ntb_proto_add_command` appends.
theorem addCommand_eq {args : List ArgInput} {payload : List UInt8}
    (h : command.bytes.length ≤ 12) (hargs : addArguments args = some payload)
    (hpayload : payload.length < 2 ^ 32) :
    addCommand ssl fill buf command args = some (buf ++ frame ssl command.bytes payload) := by
  rw [addCommand, hargs, Option.bind_eq_bind, Option.bind_some, endCommand_beginCommand h hpayload]
  rfl

-- A name that leaves room for its terminator passes the check of the receiver.
theorem checkCommandString_commandField (h : command.bytes.length ≤ 11) :
    checkCommandString (commandField command.bytes) = true := by
  obtain ⟨k, hk⟩ : ∃ k, 12 - command.bytes.length = k + 1 := ⟨11 - command.bytes.length, by omega⟩
  have hdrop : (commandField command.bytes).dropWhile (· ≠ 0) = List.replicate (k + 1) 0 := by
    unfold commandField
    rw [hk, List.dropWhile_append_of_pos fun b hb => by simpa using command.nonzero b hb]
    simp [List.replicate_succ]
  rw [checkCommandString, hdrop, List.replicate_succ]
  simp

/-! ## 3. Reading the arguments back -/

/-- The kind of an argument, as the receiver has to ask for it. -/
def ArgInput.kind : ArgInput → Argument
  | .u8 _ => .u8
  | .u16 _ => .u16
  | .u32 _ => .u32
  | .u64 _ => .u64
  | .bool _ => .bool
  | .varInt _ => .varInt
  | .timestamp _ => .timestamp
  | .netaddress _ => .netaddress
  | .varStr _ => .varStr
  | .varIntList => .varIntList

/-- The receiver has the value of the argument; of a string it has the address and the length. -/
inductive Received (mem : Memory) : ArgInput → ArgValue → Prop
  | u8 (value : UInt8) : Received mem (.u8 value) (.num value.toNat)
  | u16 (value : UInt16) : Received mem (.u16 value) (.num value.toNat)
  | u32 (value : UInt32) : Received mem (.u32 value) (.num value.toNat)
  | u64 (value : UInt64) : Received mem (.u64 value) (.num value.toNat)
  | bool (value : Bool) : Received mem (.bool value) (.bool value)
  | varInt (value : UInt64) : Received mem (.varInt value) (.num value.toNat)
  | timestamp (now : Nat) : Received mem (.timestamp now) (.num now)
  | netaddress (address : SizedNetaddress) :
      Received mem (.netaddress address) (.netaddress address.toNetaddress)
  | varStr (str : CString) (data : Nat) : Holds mem data str.bytes →
      Received mem (.varStr str) (.varStr { length := str.bytes.length, data })

/-- The arguments that can be sent: a time that fits 32 bits and is not zero, and a string whose
length is a one-byte var_int. -/
def ArgInput.Sendable : ArgInput → Prop
  | .timestamp now => 0 < now ∧ now < 2 ^ 32
  | .varStr str => str.bytes.length ≤ 252
  | .varIntList => False
  | _ => True

instance : (a : ArgInput) → Decidable a.Sendable
  | .timestamp _ => inferInstanceAs (Decidable (_ ∧ _))
  | .varStr _ => inferInstanceAs (Decidable (_ ≤ _))
  | .varIntList => inferInstanceAs (Decidable False)
  | .u8 _ | .u16 _ | .u32 _ | .u64 _ | .bool _ | .varInt _ | .netaddress _ =>
    inferInstanceAs (Decidable True)

section ReadBack

variable {mem : Memory} {c : Cursor} {v : Nat}

theorem reads_get8 (hv : v < 2 ^ 8) :
    Reads (2 ^ 32) (fun c => sizedField c 1 (get8 c.pos)) (add8 v) v := by
  have hget : ∀ mem p, Holds mem p (add8 v) → (get8 p).value mem = .ok v := by
    intro mem p hmem
    have hbyte : (mem p).toNat = v := by
      rw [((holds_cons _ _ _ _).mp hmem).1]
      simp only [UInt8.toNat_ofNat']
      omega
    rw [get8, value_bind_of_ok (value_readByte _ _), value_pure, hbyte]
  simpa [add8] using reads_sizedField hget

theorem reads_u8 (hv : v < 2 ^ 8) : Reads (2 ^ 31) (getArgument .u8) (add8 v) (.num v) :=
  ((reads_get8 hv).map ArgValue.num).mono (show 2 ^ 31 ≤ 2 ^ 32 by norm_num)

theorem reads_u16 (hv : v < 2 ^ 16) : Reads (2 ^ 31) (getArgument .u16) (add16 v) (.num v) := by
  have hget : ∀ mem p, Holds mem p (add16 v) → (get16 p).value mem = .ok v := by
    intro mem p hmem
    rw [get16_value, ofBE_window_toBE hmem (by omega)]
  have hfield : Reads (2 ^ 32) (fun c => sizedField c 2 (get16 c.pos)) (add16 v) v := by
    simpa [add16] using reads_sizedField hget
  exact (hfield.map ArgValue.num).mono (show 2 ^ 31 ≤ 2 ^ 32 by norm_num)

theorem reads_bool (b : Bool) : Reads (2 ^ 31) (getArgument .bool) (addBool b) (.bool b) := by
  have hbyte : (if b then 1 else 0) < 2 ^ 8 := by split <;> norm_num
  have hvalue : ((if b then 1 else 0) != 0) = b := by cases b <;> rfl
  have hread := ((reads_get8 hbyte).map fun n => ArgValue.bool (n != 0)).mono
    (show 2 ^ 31 ≤ 2 ^ 32 by norm_num)
  rwa [hvalue] at hread

theorem length_addNetaddress (a : SizedNetaddress) :
    (addNetaddress a.toNetaddress).length = 18 := by
  rw [addNetaddress, List.length_append, a.length_host, add16, length_toBE]

theorem reads_netaddress (a : SizedNetaddress) :
    Reads (2 ^ 31) (getArgument .netaddress) (addNetaddress a.toNetaddress)
      (.netaddress a.toNetaddress) := by
  have hget : ∀ mem p, Holds mem p (addNetaddress a.toNetaddress) →
      (getNetaddress p).value mem = .ok a.toNetaddress := by
    intro mem p hmem
    obtain ⟨hhost, hport⟩ := (holds_append _ _ _ _).mp hmem
    rw [a.length_host] at hport
    have hport' := a.port_lt
    rw [getNetaddress, value_bind_of_ok (value_readBytes _ _ _), value_bind_of_ok (get16_value _),
      value_pure, hhost.window_eq a.length_host, ofBE_window_toBE hport (by omega)]
  have hfield : Reads (2 ^ 32) (fun c => sizedField c 18 (getNetaddress c.pos))
      (addNetaddress a.toNetaddress) a.toNetaddress := by
    have h := reads_sizedField hget
    rwa [length_addNetaddress] at h
  exact (hfield.map ArgValue.netaddress).mono (show 2 ^ 31 ≤ 2 ^ 32 by norm_num)

-- The length of a short string is its first byte.
theorem addVarStr_of_le {str : CString} (h : str.bytes.length ≤ 252) :
    addVarStr str = addVarInt str.bytes.length ++ str.bytes := by
  have hlen : str.bytes.length % 256 = str.bytes.length := Nat.mod_eq_of_lt (by omega)
  rw [addVarStr, hlen, List.take_length, addVarInt, if_pos (by omega)]
  rfl

variable (c) in
theorem getVarStr_addVarStr {str : CString} (h : str.bytes.length ≤ 252)
    (hmem : Holds mem c.pos (addVarStr str)) (hlen : (addVarStr str).length ≤ c.len)
    (hc : c.len < 2 ^ 31) :
    (getVarStr c).value mem =
      .ok ({ length := str.bytes.length, data := c.pos + 1 }, c.skip (addVarStr str).length) ∧
      Holds mem (c.pos + 1) str.bytes := by
  have hone : (addVarInt str.bytes.length).length = 1 := by
    rw [addVarInt_of_lt (by omega), List.length_singleton]
  rw [addVarStr_of_le h] at hmem hlen ⊢
  rw [List.length_append, hone] at hlen ⊢
  obtain ⟨hcount, hbytes⟩ := (holds_append _ _ _ _).mp hmem
  rw [hone] at hbytes
  have hread := reads_getVarInt (v := str.bytes.length) (by omega) mem c hcount (by omega) hc
  rw [hone] at hread
  refine ⟨?_, hbytes⟩
  rw [getVarStr, value_bind_of_ok hread]
  dsimp only
  rw [if_neg (by rw [Cursor.skip_len]; omega), value_bind_of_ok (value_moveTo _ _), value_pure,
    Cursor.advance_of_le (by rw [Cursor.skip_len]; omega) (by rw [Cursor.skip_len]; omega),
    Cursor.skip_skip, Cursor.skip_pos]

/-- One argument is read back from the bytes that were written for it. -/
theorem getArgument_addArgument {a : ArgInput} {bs : List UInt8} (ha : a.Sendable)
    (hbs : addArgument a = some bs) (hmem : Holds mem c.pos bs) (hlen : bs.length ≤ c.len)
    (hc : c.len < 2 ^ 31) :
    ∃ v, (getArgument a.kind c).value mem = .ok (v, c.skip bs.length) ∧ Received mem a v := by
  cases a with
  | u8 value =>
    cases hbs
    exact ⟨_, reads_u8 value.toNat_lt mem c hmem hlen hc, .u8 value⟩
  | u16 value =>
    cases hbs
    exact ⟨_, reads_u16 value.toNat_lt mem c hmem hlen hc, .u16 value⟩
  | u32 value =>
    cases hbs
    exact ⟨_, reads_u32 value.toNat_lt mem c hmem hlen hc, .u32 value⟩
  | u64 value =>
    cases hbs
    have hread := reads_u64 value.toNat mem c hmem hlen hc
    rw [Nat.mod_eq_of_lt value.toNat_lt] at hread
    exact ⟨_, hread, .u64 value⟩
  | bool value =>
    cases hbs
    exact ⟨_, reads_bool value mem c hmem hlen hc, .bool value⟩
  | varInt value =>
    cases hbs
    exact ⟨_, reads_varInt value.toNat_lt mem c hmem hlen hc, .varInt value⟩
  | timestamp now =>
    cases hbs
    obtain ⟨hpos, hfits⟩ := ha
    obtain ⟨now, rfl⟩ := Int.eq_ofNat_of_zero_le (le_of_lt hpos)
    have hsame : toUInt64 (now : Int) = now := by
      unfold toUInt64
      omega
    unfold addTimestamp at hmem hlen ⊢
    rw [hsame] at hmem hlen ⊢
    exact ⟨_, reads_timestamp (by omega) mem c hmem hlen hc, .timestamp now⟩
  | netaddress address =>
    cases hbs
    exact ⟨_, reads_netaddress address mem c hmem hlen hc, .netaddress address⟩
  | varStr str =>
    cases hbs
    obtain ⟨hread, hbytes⟩ := getVarStr_addVarStr c ha hmem hlen hc
    refine ⟨.varStr { length := str.bytes.length, data := c.pos + 1 }, ?_, .varStr str _ hbytes⟩
    show ((getVarStr c) >>= fun r => pure (ArgValue.varStr r.1, r.2)).value mem = _
    rw [value_bind_of_ok hread, value_pure]
  | varIntList => cases ha

/-- A list of arguments is read back with the list of their kinds. -/
theorem getArguments_addArguments {args : List ArgInput} {bs : List UInt8}
    (hargs : ∀ a ∈ args, a.Sendable) (hbs : addArguments args = some bs)
    (hmem : Holds mem c.pos bs) (hlen : bs.length ≤ c.len) (hc : c.len < 2 ^ 31) :
    ∃ vs, (getArguments (args.map ArgInput.kind) c).value mem = .ok (vs, c.skip bs.length) ∧
      List.Forall₂ (Received mem) args vs := by
  induction args generalizing bs c with
  | nil =>
    cases hbs
    exact ⟨[], rfl, .nil⟩
  | cons a args ih =>
    obtain ⟨first, hfirst, hothers⟩ := Option.bind_eq_some_iff.mp hbs
    obtain ⟨rest, hrest, heq⟩ := Option.bind_eq_some_iff.mp hothers
    cases heq
    obtain ⟨hmemFirst, hmemRest⟩ := (holds_append _ _ _ _).mp hmem
    rw [List.length_append] at hlen ⊢
    obtain ⟨v, hv, hreceived⟩ := getArgument_addArgument (hargs a List.mem_cons_self) hfirst
      hmemFirst (by omega) hc
    obtain ⟨vs, hvs, hall⟩ := ih (c := c.skip first.length)
      (fun b hb => hargs b (List.mem_cons_of_mem a hb)) hrest hmemRest
      (by rw [Cursor.skip_len]; omega) (by rw [Cursor.skip_len]; omega)
    refine ⟨v :: vs, ?_, .cons hreceived hall⟩
    rw [List.map_cons, getArguments, value_bind_of_ok hv]
    dsimp only
    rw [value_bind_of_ok hvs, value_pure, Cursor.skip_skip]

-- A list of sendable arguments is written without failing an assertion.
theorem addArguments_isSome {args : List ArgInput} (hargs : ∀ a ∈ args, a.Sendable) :
    ∃ bs, addArguments args = some bs := by
  induction args with
  | nil => exact ⟨[], rfl⟩
  | cons a args ih =>
    obtain ⟨rest, hrest⟩ := ih fun b hb => hargs b (List.mem_cons_of_mem a hb)
    have ha := hargs a List.mem_cons_self
    have hfirst : ∃ first, addArgument a = some first := by
      cases a with
      | varIntList => cases ha
      | _ => exact ⟨_, rfl⟩
    obtain ⟨first, hfirst⟩ := hfirst
    exact ⟨first ++ rest, by rw [addArguments, hfirst, hrest]; rfl⟩

end ReadBack

end Notbit.Proto
