import Notbit.Ipc.Client

/-!
# Keygen — the command that asks the daemon for a new key (`ntb-keygen.c`)

`notbit-keygen` writes its options into one command, and the daemon reads them with a list of
argument kinds.  The label is the last argument and has its length in one byte in front of it; the
daemon takes that byte for a var_int.
-/

open Bytes Traced Traced.Parser Notbit.Proto

namespace Notbit.Ipc

/-! ## 1. The command -/

/-- The options of `notbit-keygen`. -/
structure KeygenOptions where
  version : CInt
  stream : CInt
  zeroes : CInt
  nonceTrialsPerByte : CInt
  payloadLengthExtraBytes : CInt
  label : CString

def keygen : CString := ⟨ascii "keygen", nonzero_of_all rfl⟩

/-- The fields of the command in front of the label. -/
def keygenFields (o : KeygenOptions) : Buffer :=
  addVarInt (toUInt64 o.version.val) ++ (addVarInt (toUInt64 o.stream.val) ++
    (addVarInt (toUInt64 o.nonceTrialsPerByte.val) ++
      (addVarInt (toUInt64 o.payloadLengthExtraBytes.val) ++
        add8 (toUInt64 o.zeroes.val))))

/-- `send_keygen_command`: the bytes that are sent. -/
def sendKeygenCommand (fill : Memory) (o : KeygenOptions) : Buffer :=
  endCommand (beginCommand fill [] keygen 0 ++ (keygenFields o ++ addVarStr o.label)) 0

/-- Options a user can mean: nothing is negative and the number of zeroes is a byte. -/
structure KeygenOptions.Valid (o : KeygenOptions) : Prop where
  version : 0 ≤ o.version.val
  stream : 0 ≤ o.stream.val
  zeroes : 0 ≤ o.zeroes.val ∧ o.zeroes.val ≤ 255
  nonceTrialsPerByte : 0 ≤ o.nonceTrialsPerByte.val
  payloadLengthExtraBytes : 0 ≤ o.payloadLengthExtraBytes.val

/-- The arguments that were parsed are the options. -/
structure KeygenArgs.Same (args : KeygenArgs) (mem : Memory) (o : KeygenOptions) : Prop where
  version : (args.version : Int) = o.version.val
  stream : (args.stream : Int) = o.stream.val
  nonceTrialsPerByte : (args.nonceTrialsPerByte : Int) = o.nonceTrialsPerByte.val
  payloadExtraBytes : (args.payloadExtraBytes : Int) = o.payloadLengthExtraBytes.val
  zeroes : (args.zeroes : Int) = o.zeroes.val
  label : window mem args.label.data args.label.length = o.label.bytes

/-- What the daemon makes of a buffer with the command: it is found, it goes to
`handle_keygen_command`, and the arguments that are parsed there are the options. -/
def KeygenReceived (behind fill : Memory) (o : KeygenOptions) : Prop :=
  let sent := sendKeygenCommand fill o
  let mem := overlay (sent.drop headerSize) behind
  ∃ h args, find sent = .command h ∧ commandName sent = ascii "keygen" ∧
    (parseKeygen 0 h.length).value mem = .ok args ∧ args.Same mem o

variable {o : KeygenOptions} {fill behind mem : Memory}

theorem length_addVarStr (str : CString) :
    (addVarStr str).length = 1 + str.bytes.length % 256 := by
  have hle : str.bytes.length % 256 ≤ str.bytes.length := Nat.mod_le _ _
  unfold addVarStr
  rw [List.length_append, length_toBE, List.length_take]
  omega

theorem length_keygenFields_le (o : KeygenOptions) : (keygenFields o).length ≤ 37 := by
  unfold keygenFields
  simp only [List.length_append, add8, length_toBE]
  have h₁ := length_addVarInt_le (toUInt64 o.version.val)
  have h₂ := length_addVarInt_le (toUInt64 o.stream.val)
  have h₃ := length_addVarInt_le (toUInt64 o.nonceTrialsPerByte.val)
  have h₄ := length_addVarInt_le (toUInt64 o.payloadLengthExtraBytes.val)
  omega

theorem length_keygenPayload_lt (o : KeygenOptions) :
    (keygenFields o ++ addVarStr o.label).length < 2 ^ 31 := by
  have hfields := length_keygenFields_le o
  rw [List.length_append, length_addVarStr]
  omega

-- What is sent is one command with the fields and the label as its payload.
theorem sendKeygenCommand_eq (fill : Memory) (o : KeygenOptions) :
    sendKeygenCommand fill o =
      frame (ascii "keygen") 0 (keygenFields o ++ addVarStr o.label) :=
  endCommand_beginCommand (by decide)

/-! ## 2. What the daemon reads -/

-- Arguments behind some that are read back are read from where those end.
theorem getArguments_after {args : List Argument} (more : List Argument) {vs : List ArgValue}
    {bs : List UInt8} (c : Cursor) (h : Encodes args vs bs) (hmem : Holds mem c.pos bs)
    (hlen : bs.length ≤ c.len) (hc : c.len < 2 ^ 31) :
    (getArguments (args ++ more) c).value mem =
      ((getArguments more (c.skip bs.length)).value mem).map fun r => (vs ++ r.1, r.2) := by
  induction h generalizing c with
  | nil =>
    show (getArguments more c).value mem = ((getArguments more (c.skip 0)).value mem).map _
    have hskip : c.skip 0 = c := rfl
    rw [hskip]
    cases (getArguments more c).value mem <;> rfl
  | @cons a v first args vs rest hv hrest ih =>
    obtain ⟨hfirst, hothers⟩ := (holds_append _ _ _ _).mp hmem
    rw [List.length_append] at hlen ⊢
    have hafter := ih (c.skip first.length) hothers (by rw [Cursor.skip_len]; omega)
      (by rw [Cursor.skip_len]; omega)
    rw [Cursor.skip_skip] at hafter
    rw [List.cons_append, getArguments, value_bind_of_ok (hv mem c hfirst (by omega) hc),
      value_bind, hafter]
    cases (getArguments more (c.skip (first.length + rest.length))).value mem <;> rfl

-- The var_int in front of a string: at least one byte, and at least three when its tag says so.
theorem getVarInt_width {c c' : Cursor} {v : Nat} (h : (getVarInt c).value mem = .ok (v, c')) :
    ∃ n, 1 ≤ n ∧ (0xfd ≤ (mem c.pos).toNat → 3 ≤ n) ∧ n ≤ c.len ∧ c' = c.skip n := by
  obtain ⟨-, hshort, -⟩ := getVarInt_ok h
  unfold getVarInt at h
  rw [if_neg (by omega), value_bind_of_ok (value_readByte _ _)] at h
  by_cases hsmall : (mem c.pos).toNat < 0xfd
  · rw [if_pos hsmall] at h
    obtain ⟨hn, -, rfl⟩ := sizedField_ok h
    exact ⟨1, le_refl _, fun hbig => by omega, hn, Cursor.advance_of_le hn (by omega)⟩
  · rw [if_neg hsmall] at h
    have hwide : ∀ {n : Nat} {get : Parser Nat}, 3 ≤ n → (sizedField c n get).value mem =
        .ok (v, c') → ∃ n, 1 ≤ n ∧ (0xfd ≤ (mem c.pos).toNat → 3 ≤ n) ∧ n ≤ c.len ∧
          c' = c.skip n := by
      intro n get hthree hfield
      obtain ⟨hn, -, rfl⟩ := sizedField_ok hfield
      exact ⟨n, by omega, fun _ => hthree, hn, Cursor.advance_of_le hn (by omega)⟩
    split_ifs at h
    · exact hwide (by omega) h
    · exact hwide (by omega) h
    · exact hwide (by omega) h

-- A string that is read lies behind its var_int and in the input.
theorem getVarStr_fits {c c' : Cursor} {str : VarStr}
    (h : (getVarStr c).value mem = .ok (str, c')) :
    str.length + 1 ≤ c.len ∧ (0xfd ≤ (mem c.pos).toNat → str.length + 3 ≤ c.len) := by
  obtain ⟨⟨length, c₁⟩, hlength, hrest⟩ := value_bind_eq_ok.mp h
  obtain ⟨n, hone, hthree, hn, rfl⟩ := getVarInt_width hlength
  dsimp only at hrest
  by_cases hshort : (c.skip n).len < length
  · rw [if_pos hshort] at hrest
    cases hrest
  · rw [if_neg hshort, value_bind_of_ok (value_moveTo _ _)] at hrest
    cases hrest
    rw [Cursor.skip_len] at hshort
    dsimp only
    exact ⟨by omega, fun htag => by have := hthree htag; omega⟩

-- A string of more than 252 bytes is not read back from its bytes.
theorem getVarStr_of_long {c c' : Cursor} {str : CString} {v : VarStr}
    (hlong : 252 < str.bytes.length) (hmem : Holds mem c.pos (addVarStr str))
    (hlen : c.len = (addVarStr str).length) (h : (getVarStr c).value mem = .ok (v, c')) :
    v.length ≠ str.bytes.length := by
  obtain ⟨hone, hthree⟩ := getVarStr_fits h
  rw [hlen, length_addVarStr] at hone hthree
  -- up to 255 bytes the length is taken for a tag; from 256 on it is not the length any more
  by_cases hbyte : str.bytes.length < 256
  · have hmod : str.bytes.length % 256 = str.bytes.length := Nat.mod_eq_of_lt hbyte
    have hfirst : (mem c.pos).toNat = str.bytes.length := by
      have hcons : Holds mem c.pos
          (UInt8.ofNat (str.bytes.length % 256) :: str.bytes.take (str.bytes.length % 256)) := by
        simpa [addVarStr, toBE] using hmem
      rw [((holds_cons _ _ _ _).mp hcons).1, hmod]
      simp only [UInt8.toNat_ofNat']
      omega
    have := hthree (by omega)
    omega
  · have := Nat.mod_lt str.bytes.length (show 0 < 256 by omega)
    omega

-- The fields in front of the label are read back.
theorem encodes_keygenFields (hvalid : o.Valid) :
    Encodes [.varInt, .varInt, .varInt, .varInt, .u8]
      [.num (toUInt64 o.version.val), .num (toUInt64 o.stream.val),
        .num (toUInt64 o.nonceTrialsPerByte.val), .num (toUInt64 o.payloadLengthExtraBytes.val),
        .num (toUInt64 o.zeroes.val)] (keygenFields o) := by
  have hzeroes : toUInt64 o.zeroes.val < 2 ^ 8 := by
    have := hvalid.zeroes
    unfold toUInt64
    omega
  have hlast : Encodes [.u8] [.num (toUInt64 o.zeroes.val)] (add8 (toUInt64 o.zeroes.val)) := by
    simpa using Encodes.cons (reads_u8 hzeroes) .nil
  exact .cons (reads_varInt (toUInt64_lt _)) (.cons (reads_varInt (toUInt64_lt _))
    (.cons (reads_varInt (toUInt64_lt _)) (.cons (reads_varInt (toUInt64_lt _)) hlast)))

/-- Everything but the label is always read back. -/
theorem parseKeygen_value (hvalid : o.Valid) (hmem : Holds mem 0 (keygenFields o)) {len : Nat}
    (hlen : (keygenFields o).length ≤ len) (hlt : len < 2 ^ 31) :
    (parseKeygen 0 len).value mem =
      ((getVarStr ⟨(keygenFields o).length, len - (keygenFields o).length⟩).value mem).map
        fun r =>
          { version := toUInt64 o.version.val, stream := toUInt64 o.stream.val
            nonceTrialsPerByte := toUInt64 o.nonceTrialsPerByte.val
            payloadExtraBytes := toUInt64 o.payloadLengthExtraBytes.val
            zeroes := toUInt64 o.zeroes.val, label := r.1 } := by
  have hafter := getArguments_after [.varStr] { pos := 0, len } (encodes_keygenFields hvalid) hmem
    hlen hlt
  have hcursor : Cursor.skip { pos := 0, len } (keygenFields o).length =
      ⟨(keygenFields o).length, len - (keygenFields o).length⟩ := by
    simp [Cursor.skip]
  rw [hcursor] at hafter
  have hone : (getArguments [.varStr]
      ⟨(keygenFields o).length, len - (keygenFields o).length⟩).value mem =
      ((getVarStr ⟨(keygenFields o).length, len - (keygenFields o).length⟩).value mem).map
        fun r => ([ArgValue.varStr r.1], r.2) := by
    rw [getArguments, value_bind, getArgument, value_bind]
    cases (getVarStr ⟨(keygenFields o).length, len - (keygenFields o).length⟩).value mem <;> rfl
  rw [hone] at hafter
  rw [parseKeygen, getCommand, value_bind, value_bind]
  unfold keygenArguments
  simp only [List.cons_append, List.nil_append] at hafter
  rw [hafter]
  cases (getVarStr ⟨(keygenFields o).length, len - (keygenFields o).length⟩).value mem <;> rfl

theorem toUInt64_of_nonneg (n : CInt) (h : 0 ≤ n.val) : (toUInt64 n.val : Int) = n.val := by
  have := n.upper
  unfold toUInt64
  omega

/-- The daemon parses from the command of a client what the client was asked for, exactly if the
label has at most 252 bytes. -/
theorem keygenReceived_iff (behind fill : Memory) (o : KeygenOptions) (hvalid : o.Valid) :
    KeygenReceived behind fill o ↔ o.label.bytes.length ≤ 252 := by
  have hlt := length_keygenPayload_lt o
  have hwrap : NoWrap (keygenFields o ++ addVarStr o.label).length := by
    unfold NoWrap headerSize
    omega
  obtain ⟨hfind, hname, hpayload⟩ := find_frame keygen 0 _ (by decide) (by norm_num) hwrap
  have hsent : sendKeygenCommand fill o = frame keygen.bytes 0 (keygenFields o ++ addVarStr o.label) :=
    sendKeygenCommand_eq fill o
  unfold KeygenReceived
  rw [hsent]
  dsimp only
  rw [hpayload]
  generalize hmem : overlay (keygenFields o ++ addVarStr o.label) behind = mem
  have hholds : Holds mem 0 (keygenFields o ++ addVarStr o.label) := by
    rw [← hmem]
    exact holds_overlay _ _
  obtain ⟨hfields, hlabel⟩ := (holds_append _ _ _ _).mp hholds
  rw [Nat.zero_add] at hlabel
  have hfits : (keygenFields o).length ≤ (keygenFields o ++ addVarStr o.label).length := by
    rw [List.length_append]
    omega
  have hparse := parseKeygen_value hvalid hfields hfits hlt
  have hleft : (keygenFields o ++ addVarStr o.label).length - (keygenFields o).length =
      (addVarStr o.label).length := by
    rw [List.length_append]
    omega
  rw [hleft] at hparse
  constructor
  · rintro ⟨h, args, hfound, -, hargs, hsame⟩
    rw [hfind] at hfound
    cases hfound
    by_contra hlong
    rw [hparse] at hargs
    cases hstr : (getVarStr ⟨(keygenFields o).length, (addVarStr o.label).length⟩).value mem with
    | error e =>
      rw [hstr] at hargs
      cases hargs
    | ok r =>
      rw [hstr] at hargs
      cases hargs
      apply getVarStr_of_long (by omega) hlabel rfl hstr
      have hlen := congrArg List.length hsame.label
      rwa [length_window] at hlen
  · intro hshort
    have hlt' : (addVarStr o.label).length < 2 ^ 31 := by
      rw [List.length_append] at hlt
      omega
    obtain ⟨hread, hbytes⟩ := getVarStr_addVarStr
      ⟨(keygenFields o).length, (addVarStr o.label).length⟩ hshort hlabel (le_refl _) hlt'
    rw [hread] at hparse
    refine ⟨_, _, hfind, hname, hparse, ?_⟩
    exact {
      version := toUInt64_of_nonneg o.version hvalid.version
      stream := toUInt64_of_nonneg o.stream hvalid.stream
      nonceTrialsPerByte := toUInt64_of_nonneg o.nonceTrialsPerByte hvalid.nonceTrialsPerByte
      payloadExtraBytes :=
        toUInt64_of_nonneg o.payloadLengthExtraBytes hvalid.payloadLengthExtraBytes
      zeroes := toUInt64_of_nonneg o.zeroes hvalid.zeroes.1
      label := hbytes.window_eq rfl }

/-- The defaults of `notbit-keygen` with a label of `n` times the same letter. -/
def labelled (n : Nat) : KeygenOptions where
  version := ⟨0, by norm_num, by norm_num⟩
  stream := CInt.one
  zeroes := ⟨0, by norm_num, by norm_num⟩
  nonceTrialsPerByte := ⟨0, by norm_num, by norm_num⟩
  payloadLengthExtraBytes := ⟨0, by norm_num, by norm_num⟩
  label := ⟨List.replicate n 0x61, fun b hb => by rw [List.eq_of_mem_replicate hb]; decide⟩

theorem labelled_valid (n : Nat) : (labelled n).Valid := by
  constructor <;> simp [labelled, CInt.one]

theorem length_label_labelled (n : Nat) : (labelled n).label.bytes.length = n :=
  List.length_replicate

/-- Up to 252 letters arrive. -/
theorem labelled_received :
    KeygenReceived (fun _ => 0) (fun _ => 0) (labelled 252) :=
  (keygenReceived_iff _ _ _ (labelled_valid 252)).mpr (by rw [length_label_labelled])

/-- A label of 256 letters arrives as the empty label. -/
theorem labelled_not_received :
    let sent := sendKeygenCommand (fun _ => 0) (labelled 256)
    let mem := overlay (sent.drop headerSize) fun _ => 0
    find sent = .command { requestId := 0, length := 6 } ∧
      (parseKeygen 0 6).value mem = .ok
        { version := 0, stream := 1, nonceTrialsPerByte := 0, payloadExtraBytes := 0, zeroes := 0
          label := { length := 0, data := 6 } } ∧
      ¬ KeygenReceived (fun _ => 0) (fun _ => 0) (labelled 256) := by
  intro sent mem
  have hfind : find sent = .command { requestId := 0, length := 6 } := by decide +kernel
  have hparse : (parseKeygen 0 6).value mem = .ok
      { version := 0, stream := 1, nonceTrialsPerByte := 0, payloadExtraBytes := 0, zeroes := 0
        label := { length := 0, data := 6 } } := by decide +kernel
  refine ⟨hfind, hparse, ?_⟩
  rintro ⟨h, args, hfound, -, hargs, hsame⟩
  rw [hfind] at hfound
  cases hfound
  rw [hparse] at hargs
  cases hargs
  have hlen := congrArg List.length hsame.label
  rw [length_window, length_label_labelled] at hlen
  exact absurd hlen (by decide)

end Notbit.Ipc
