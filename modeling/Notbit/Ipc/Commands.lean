import Notbit.Lib.Framing
import Notbit.Proto.Frames

/-!
# Commands — the framing of the IPC socket (`ntb-ipc-proto.c`, `ipc-protocol.txt`)

A command is a name, a request id and a length, and then as many bytes.  `find` is the test that the
loops of the server and of the client both make before they hand a command on; it adds the size of
the header to the length in 32 bits.  `cut` is the reader the protocol describes, which does not.
-/

open Bytes Framing Notbit.Proto

namespace Notbit.Ipc

/-- The size of a header. -/
def headerSize : Nat := 12 + 4 + 4

/-! ## 1. Writing commands -/

/-- `ntb_ipc_proto_begin_command`: the last four bytes of the header are reserved. -/
def beginCommand (fill : Memory) (buffer : Buffer) (name : CString) (requestId : Nat) : Buffer :=
  setLength fill (buffer ++ commandField name.bytes ++ toBE 4 requestId)
    ((buffer ++ commandField name.bytes ++ toBE 4 requestId).length + 4)

/-- `ntb_ipc_proto_end_command` -/
def endCommand (buffer : Buffer) (commandStart : Nat) : Buffer :=
  patch buffer (commandStart + 16)
    (toBE 4 ((buffer.length - commandStart - headerSize) % 2 ^ 32))

/-- A whole command. -/
def frame (name : List UInt8) (requestId : Nat) (payload : List UInt8) : Buffer :=
  commandField name ++ toBE 4 requestId ++ toBE 4 payload.length ++ payload

variable {name : CString} {requestId : Nat} {buffer : Buffer} {payload : List UInt8}

theorem length_frame (h : name.bytes.length ≤ 12) :
    (frame name.bytes requestId payload).length = headerSize + payload.length := by
  unfold frame
  simp only [List.length_append, length_commandField h, length_toBE]
  rfl

-- What stands between the two calls becomes the payload.
theorem endCommand_beginCommand {fill : Memory} (h : name.bytes.length ≤ 12) :
    endCommand (beginCommand fill buffer name requestId ++ payload) buffer.length =
      buffer ++ frame name.bytes requestId payload := by
  have hstart : (buffer ++ commandField name.bytes ++ toBE 4 requestId).length =
      buffer.length + 16 := by
    rw [List.length_append, List.length_append, length_commandField h, length_toBE]
  have hbegin : beginCommand fill buffer name requestId = (buffer ++ commandField name.bytes ++
      toBE 4 requestId) ++ window fill (buffer.length + 16) 4 := by
    rw [beginCommand, setLength, hstart, Nat.add_sub_cancel_left]
  have hlen : (beginCommand fill buffer name requestId ++ payload).length - buffer.length -
      headerSize = payload.length := by
    rw [hbegin, List.length_append, List.length_append, hstart, length_window]
    unfold headerSize
    omega
  have hfield : toBE 4 (payload.length % 2 ^ 32) = toBE 4 payload.length := toBE_mod 4 payload.length
  rw [endCommand, hlen, hfield, hbegin, patch_append hstart (by rw [length_window, length_toBE])]
  simp only [frame, List.append_assoc]

/-! ## 2. The test for a whole command -/

/-- The length a header announces. -/
def announcedLength (data : List UInt8) : Nat := ofBE ((data.drop 16).take 4)

def announcedRequestId (data : List UInt8) : Nat := ofBE ((data.drop 12).take 4)

/-- The name of a command, up to its terminator. -/
def commandName (data : List UInt8) : List UInt8 := (data.take 12).takeWhile (· ≠ 0)

/-- The header of a command that was found. -/
structure Header where
  requestId : Nat
  length : Nat
  deriving DecidableEq, Repr

inductive Found where
  | incomplete
  | invalid
  | command (h : Header)
  deriving DecidableEq, Repr

/-- `command_length + 20`, which is computed as a `uint32_t`. -/
def commandSize (length : Nat) : Nat := (length + headerSize) % 2 ^ 32

/-- The start of a round of the two loops: what is found in the data that is left. -/
def find (data : List UInt8) : Found :=
  if data.length < headerSize then .incomplete
  else if data.length < commandSize (announcedLength data) then .incomplete
  else if !checkCommandString (data.take 12) then .invalid
  else .command { requestId := announcedRequestId data, length := announcedLength data }

/-- A length field in which the size of the command does not wrap. -/
def NoWrap (length : Nat) : Prop := length < 2 ^ 32 - headerSize

instance (length : Nat) : Decidable (NoWrap length) := inferInstanceAs (Decidable (_ < _))

theorem announcedLength_lt (data : List UInt8) : announcedLength data < 2 ^ 32 := by
  have h := ofBE_lt ((data.drop 16).take 4)
  have hle : ((data.drop 16).take 4).length ≤ 4 := by
    rw [List.length_take]
    omega
  calc announcedLength data < 256 ^ ((data.drop 16).take 4).length := h
    _ ≤ 256 ^ 4 := Nat.pow_le_pow_right (by norm_num) hle
    _ = 2 ^ 32 := by norm_num

theorem commandSize_of_noWrap {length : Nat} (h : NoWrap length) :
    commandSize length = length + headerSize :=
  Nat.mod_eq_of_lt (by unfold NoWrap headerSize at *; omega)

-- A size that wraps is smaller than a header.
theorem commandSize_of_wrap {length : Nat} (h : ¬ NoWrap length) (hlt : length < 2 ^ 32) :
    commandSize length < headerSize := by
  unfold NoWrap commandSize headerSize at *
  omega

theorem find_command {data : List UInt8} {h : Header} (hfind : find data = .command h) :
    headerSize ≤ data.length ∧ commandSize h.length ≤ data.length ∧
      checkCommandString (data.take 12) = true ∧ h.length = announcedLength data := by
  unfold find at hfind
  split_ifs at hfind with hheader hsize hname
  cases hfind
  exact ⟨by omega, by simp only; omega, by simpa using hname, rfl⟩

-- The test is right unless the size wraps.
theorem find_complete {data : List UInt8} {h : Header} (hfind : find data = .command h)
    (hwrap : NoWrap h.length) : headerSize + h.length ≤ data.length := by
  obtain ⟨-, hsize, -, -⟩ := find_command hfind
  rw [commandSize_of_noWrap hwrap] at hsize
  omega

variable (name requestId payload) in
-- A command that was written is found with its request id, its name and its payload.
theorem find_frame (hname : name.bytes.length ≤ 11) (hid : requestId < 2 ^ 32)
    (hwrap : NoWrap payload.length) :
    find (frame name.bytes requestId payload) = .command { requestId, length := payload.length } ∧
      commandName (frame name.bytes requestId payload) = name.bytes ∧
      (frame name.bytes requestId payload).drop headerSize = payload := by
  have hfield : (commandField name.bytes).length = 12 := length_commandField (by omega)
  have hlt : payload.length < 2 ^ 32 := by
    unfold NoWrap at hwrap
    omega
  have htake : (frame name.bytes requestId payload).take 12 = commandField name.bytes := by
    unfold frame
    rw [List.append_assoc, List.append_assoc, List.take_left' hfield]
  have hrequest : announcedRequestId (frame name.bytes requestId payload) = requestId := by
    unfold announcedRequestId frame
    rw [List.append_assoc, List.append_assoc, List.drop_left' hfield,
      List.take_left' (length_toBE 4 requestId), ofBE_toBE_of_lt (by omega)]
  have hlength : announcedLength (frame name.bytes requestId payload) = payload.length := by
    have hfront : (commandField name.bytes ++ toBE 4 requestId).length = 16 := by
      rw [List.length_append, hfield, length_toBE]
    unfold announcedLength frame
    rw [List.append_assoc (commandField name.bytes ++ toBE 4 requestId), List.drop_left' hfront,
      List.take_left' (length_toBE 4 payload.length), ofBE_toBE_of_lt (by omega)]
  have hsize : (frame name.bytes requestId payload).length = headerSize + payload.length :=
    length_frame (by omega)
  refine ⟨?_, ?_, ?_⟩
  · unfold find
    rw [hlength, hrequest, htake, checkCommandString_commandField hname, commandSize_of_noWrap hwrap,
      hsize, if_neg (by omega), if_neg (by omega)]
    rfl
  · unfold commandName
    rw [htake, commandField, List.takeWhile_append_of_pos fun b hb => by
      simpa using name.nonzero b hb]
    obtain ⟨k, hk⟩ : ∃ k, 12 - name.bytes.length = k + 1 := ⟨11 - name.bytes.length, by omega⟩
    rw [hk, List.replicate_succ]
    simp
  · unfold frame
    apply List.drop_left'
    rw [List.length_append, List.length_append, hfield, length_toBE, length_toBE]
    rfl

/-! ## 3. The commands of a stream -/

/-- A command of a stream: where it starts, its request id and the length of its payload. -/
structure Command extends Header where
  start : Nat
  deriving DecidableEq, Repr

/-- How far a stream has been cut, and the commands so far. -/
structure Cut where
  pos : Nat
  commands : List Command

/-- The reader of the protocol: a command is there when its header and its payload are, and a name
that is not padded with zeroes ends the connection. -/
def cut (c : Cut) (data : List UInt8) : Verdict Cut Unit :=
  if data.length < headerSize then .wait
  else if data.length < headerSize + announcedLength data then .wait
  else if !checkCommandString (data.take 12) then .stop () c
  else .take (headerSize + announcedLength data)
    { pos := c.pos + headerSize + announcedLength data
      commands := c.commands ++ [{ start := c.pos, requestId := announcedRequestId data
                                   length := announcedLength data }] }

/-- The complete commands of a stream. -/
def commandsOf (stream : List UInt8) : List Command := (read cut ⟨0, []⟩ stream).state.commands

/-- The incomplete command at the end of a stream. -/
def tailOf (stream : List UInt8) : List UInt8 := (read cut ⟨0, []⟩ stream).rest

theorem headerSize_eq : headerSize = 20 := rfl

-- The header of a stream does not change when more arrives.
theorem header_append {data : List UInt8} (more : List UInt8) (h : headerSize ≤ data.length) :
    (data ++ more).take 12 = data.take 12 ∧
      announcedLength (data ++ more) = announcedLength data ∧
      announcedRequestId (data ++ more) = announcedRequestId data := by
  rw [headerSize_eq] at h
  unfold announcedLength announcedRequestId
  refine ⟨List.take_append_of_le_length (by omega), ?_, ?_⟩
  · rw [List.drop_append_of_le_length (by omega), List.take_append_of_le_length (by
      rw [List.length_drop]; omega)]
  · rw [List.drop_append_of_le_length (by omega), List.take_append_of_le_length (by
      rw [List.length_drop]; omega)]

theorem cut_append {c : Cut} {data : List UInt8} (more : List UInt8) (h : cut c data ≠ .wait) :
    cut c (data ++ more) = cut c data := by
  unfold cut at h ⊢
  by_cases hheader : data.length < headerSize
  · exact absurd (by rw [if_pos hheader]) h
  · obtain ⟨hname, hlength, hid⟩ := header_append more (Nat.le_of_not_lt hheader)
    rw [if_neg hheader] at h ⊢
    rw [if_neg (by rw [List.length_append]; omega), hname, hlength, hid]
    by_cases hsize : data.length < headerSize + announcedLength data
    · exact absurd (by rw [if_pos hsize]) h
    · rw [if_neg hsize, if_neg (by rw [List.length_append]; omega)]

theorem cut_stable : Stable cut where
  nil c := by rw [cut, if_pos (by decide)]
  take {c data n c'} h := by
    have hsize : 0 < n ∧ n ≤ data.length := by
      unfold cut at h
      split_ifs at h with hheader hsize hname
      cases h
      rw [headerSize_eq] at *
      omega
    refine ⟨hsize.1, hsize.2, fun more => ?_⟩
    rw [cut_append more (by rw [h]; exact nofun), h]
  stop h more := by
    rw [cut_append more (by rw [h]; exact nofun), h]

/-! ## 4. Streams without a whole command -/

/-- The first command of the stream has not arrived: its header is cut off, its name is refused, or
its payload is cut off and its size does not wrap. -/
def FirstUnfinished (stream : List UInt8) : Prop :=
  stream.length < headerSize ∨ checkCommandString (stream.take 12) = false ∨
    NoWrap (announcedLength stream) ∧ stream.length < headerSize + announcedLength stream

instance (stream : List UInt8) : Decidable (FirstUnfinished stream) :=
  inferInstanceAs (Decidable (_ ∨ _ ∨ _ ∧ _))

/-- The stream starts with a header whose name is refused. -/
def NameRefused (stream : List UInt8) : Prop :=
  headerSize ≤ stream.length ∧ checkCommandString (stream.take 12) = false

-- A refused name stays refused.
theorem NameRefused.firstUnfinished {stream : List UInt8} (h : NameRefused stream)
    (more : List UInt8) : FirstUnfinished (stream ++ more) := by
  obtain ⟨hname, -, -⟩ := header_append more h.1
  exact Or.inr (Or.inl (by rw [hname]; exact h.2))

theorem nameRefused_of_invalid {stream : List UInt8} (h : find stream = .invalid) :
    NameRefused stream := by
  unfold find at h
  split_ifs at h with hheader hsize hname
  exact ⟨by omega, by simpa using hname⟩

/-- The loops find a command exactly in the other streams. -/
theorem firstUnfinished_iff {stream : List UInt8} :
    FirstUnfinished stream ↔ ∀ h, find stream ≠ .command h := by
  unfold FirstUnfinished find
  by_cases hheader : stream.length < headerSize
  · rw [if_pos hheader]
    simp [hheader]
  · rw [if_neg hheader]
    by_cases hname : checkCommandString (stream.take 12) = false
    · rw [hname]
      split <;> simp
    · have hvalid : checkCommandString (stream.take 12) = true := by simpa using hname
      rw [hvalid]
      by_cases hwrap : NoWrap (announcedLength stream)
      · rw [commandSize_of_noWrap hwrap]
        by_cases hsize : stream.length < announcedLength stream + headerSize
        · rw [if_pos hsize]
          simp [hwrap, Nat.add_comm headerSize, hsize]
        · rw [if_neg hsize]
          simp [hheader, Nat.add_comm headerSize, hsize]
      · have hsmall := commandSize_of_wrap hwrap (announcedLength_lt stream)
        rw [if_neg (by omega)]
        simp [hheader, hwrap]

-- The condition passes to what had arrived before.
theorem FirstUnfinished.of_append {stream more : List UInt8}
    (h : FirstUnfinished (stream ++ more)) : FirstUnfinished stream := by
  by_cases hheader : stream.length < headerSize
  · exact Or.inl hheader
  · obtain ⟨hname, hlength, -⟩ := header_append more (Nat.le_of_not_lt hheader)
    unfold FirstUnfinished at h
    rw [hname, hlength, List.length_append] at h
    rcases h with h | h | ⟨hwrap, h⟩
    · omega
    · exact Or.inr (Or.inl h)
    · exact Or.inr (Or.inr ⟨hwrap, by omega⟩)

theorem commandsOf_of_firstUnfinished {stream : List UInt8} (h : FirstUnfinished stream) :
    commandsOf stream = [] := by
  unfold commandsOf
  cases hcut : cut ⟨0, []⟩ stream with
  | wait => rw [read_wait hcut]
  | stop e c =>
    rw [cut_stable.read_stop hcut]
    unfold cut at hcut
    split_ifs at hcut
    cases hcut
    rfl
  | take n c =>
    -- a command that is taken is whole
    unfold cut at hcut
    split_ifs at hcut with hheader hsize hname
    unfold FirstUnfinished at h
    simp only [Bool.not_eq_true', Bool.not_eq_false] at hname
    rcases h with h | h | ⟨-, h⟩
    · exact absurd h hheader
    · rw [hname] at h
      cases h
    · exact absurd h hsize

-- A buffer in which the loops find nothing yet is an incomplete command.
theorem tailOf_of_incomplete {stream : List UInt8} (h : find stream = .incomplete) :
    tailOf stream = stream := by
  have hwait : cut ⟨0, []⟩ stream = .wait := by
    unfold find at h
    unfold cut
    by_cases hheader : stream.length < headerSize
    · rw [if_pos hheader]
    · rw [if_neg hheader] at h ⊢
      by_cases hsize : stream.length < headerSize + announcedLength stream
      · rw [if_pos hsize]
      · have hle : commandSize (announcedLength stream) ≤ announcedLength stream + headerSize :=
          Nat.mod_le _ _
        rw [if_neg (by omega)] at h
        split_ifs at h
  rw [tailOf, read_wait hwait]

-- As soon as a stream has a command, its tail is shorter than the stream.
theorem tailOf_ne {stream : List UInt8} (h : commandsOf stream ≠ []) : tailOf stream ≠ stream := by
  intro htail
  unfold commandsOf at h
  unfold tailOf at htail
  cases hcut : cut ⟨0, []⟩ stream with
  | wait =>
    rw [read_wait hcut] at h
    exact h rfl
  | stop e c =>
    rw [cut_stable.read_stop hcut] at h
    unfold cut at hcut
    split_ifs at hcut
    cases hcut
    exact h rfl
  | take n c =>
    obtain ⟨hpos, hle, -⟩ := cut_stable.take hcut
    rw [cut_stable.read_take hcut] at htail
    have hlen : (read cut c (stream.drop n)).rest.length ≤ (stream.drop n).length :=
      length_rest_le _
    rw [htail, List.length_drop] at hlen
    omega

end Notbit.Ipc
