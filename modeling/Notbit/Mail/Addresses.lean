import Mathlib.Data.Bool.AllAny
import Notbit.Address
import Notbit.Lib.Streams
import Notbit.Store.KeyValue

/-!
# Addresses — the value of a header with addresses (`ntb-parse-addresses.c`)

The address that is being read is kept in the buffer that is being read from.  What has been kept is
never longer than what has been read, so that the result is that of a parser with a list for the
input and another one for the address.
-/

open Bytes Streams Streams.Emits Traced Notbit.Proto Notbit.Store

namespace Notbit.Mail

variable {ε ω κ : Type}

/-! ## 1. The parser -/

/-- Why `ntb_parse_addresses` returns false: with an error of its own or with that of the callback. -/
inductive AddressesStop (ε : Type) where
  | invalid (message : List UInt8)
  | callback (e : ε)

/-- `struct ntb_parse_addresses_data`, with the block of the buffer and what `cb_user_data` points
to. -/
structure ParseAddressesData (κ : Type) where
  buffer : List UInt8
  length : Nat
  hadAddress : Bool
  cbUserData : κ

/-- What `ntb_parse_addresses` calls for each address. -/
abbrev AddressCallback (ε ω κ : Type) := κ → Address → Emits ε ω κ

/-- `process_address` on the bytes before the end of the address. -/
def processAddressText (ssl : OpenSSL) (cb : AddressCallback ε ω κ) (user : κ)
    (text : List UInt8) : Emits (AddressesStop ε) ω κ :=
  let name := text.takeWhile (· ≠ 64)
  if name = text then
    -- between curly quotes
    fail (.invalid (ascii "Email address is missing the " ++ [0xe2, 0x80, 0x98] ++ ascii "@" ++
      [0xe2, 0x80, 0x99] ++ ascii " symbol"))
  else if text.drop (name.length + 1) ≠ ascii "bitmessage" then
    fail (.invalid (ascii "The email addresses must be of the form <address>@bitmessage"))
  else
    match Address.decode ssl (cString name) with
    | none => fail (.invalid (ascii "The Bitmessage address in the email address is invalid"))
    | some address => (cb user address).mapError .callback

namespace ParseAddressesData

variable (ssl : OpenSSL) (cb : AddressCallback ε ω κ)

/-- `reset_data` -/
def resetData (data : ParseAddressesData κ) : ParseAddressesData κ :=
  { data with length := 0, hadAddress := false }

def byteAt (data : ParseAddressesData κ) (pos : Nat) : UInt8 := data.buffer.getD pos 0

/-- `ntb_buffer_append_c` -/
def appendC (data : ParseAddressesData κ) (ch : UInt8) : ParseAddressesData κ :=
  { data with buffer := patch data.buffer data.length [ch], length := data.length + 1 }

/-- `process_address`: the at sign is overwritten when what follows it is right. -/
def processAddress (data : ParseAddressesData κ) :
    Emits (AddressesStop ε) ω (ParseAddressesData κ) := do
  let text := data.buffer.take data.length
  let cbUserData ← processAddressText ssl cb data.cbUserData text
  let endPos := (text.takeWhile (· ≠ 64)).length
  return { data with buffer := patch data.buffer endPos [0], cbUserData }

/-- `end_address` -/
def endAddress (data : ParseAddressesData κ) :
    Emits (AddressesStop ε) ω (ParseAddressesData κ) := do
  let data ← if data.hadAddress then pure data else data.processAddress ssl cb
  return data.resetData

/-- The loop of `parse_quotes`, with what is left when it returns. -/
def parseQuotes (data : ParseAddressesData κ) (pos : Nat) :
    Nat → Emits (AddressesStop ε) ω (ParseAddressesData κ × Nat)
  | 0 => fail (.invalid (ascii "Unterminated quotes in address"))
  | 1 =>
    if data.byteAt pos = 34 then return (data, 0)
    else if data.byteAt pos = 92 then
      fail (.invalid (ascii "\\ character at end of address"))
    else fail (.invalid (ascii "Unterminated quotes in address"))
  | n + 2 =>
    if data.byteAt pos = 34 then return (data, n + 1)
    else if data.byteAt pos = 92 then (data.appendC (data.byteAt (pos + 1))).parseQuotes (pos + 2) n
    else (data.appendC (data.byteAt pos)).parseQuotes (pos + 1) (n + 1)

/-- The loop of `parse_brackets`. -/
def parseBracketsLoop (data : ParseAddressesData κ) (pos : Nat) :
    Nat → Emits (AddressesStop ε) ω (ParseAddressesData κ × Nat)
  | 0 => fail (.invalid (ascii "Unterminated brackets in address"))
  | n + 1 =>
    if data.byteAt pos = 62 then do
      let data ← data.processAddress ssl cb
      return (data, n)
    else (data.appendC (data.byteAt pos)).parseBracketsLoop (pos + 1) n

/-- `parse_brackets` -/
def parseBrackets (data : ParseAddressesData κ) (pos n : Nat) :
    Emits (AddressesStop ε) ω (ParseAddressesData κ × Nat) :=
  if data.hadAddress then fail (.invalid (ascii "Address contains multiple <>-brackets"))
  else ({ data with hadAddress := true, length := 0 }).parseBracketsLoop ssl cb pos n

theorem parseQuotes_le {data data' : ParseAddressesData κ} {pos n n' : Nat}
    (h : (parseQuotes data pos n : Emits (AddressesStop ε) ω _).value = .ok (data', n')) :
    n' ≤ n := by
  fun_induction parseQuotes data pos n with
  | case1 => cases h
  | case2 => cases h; exact Nat.zero_le _
  | case5 => cases h; omega
  | case6 _ _ _ _ _ ih => exact (ih h).trans (by omega)
  | case7 _ _ _ _ _ ih => exact (ih h).trans (by omega)
  | _ => cases h

theorem parseBracketsLoop_le {data data' : ParseAddressesData κ} {pos n n' : Nat}
    (h : (parseBracketsLoop ssl cb data pos n).value = .ok (data', n')) : n' ≤ n := by
  fun_induction parseBracketsLoop ssl cb data pos n with
  | case1 => cases h
  | case2 =>
    obtain ⟨_, -, h⟩ := value_bind_eq_ok h
    cases h
    exact Nat.le_succ _
  | case3 _ _ _ _ ih => exact (ih h).trans (Nat.le_succ _)

theorem parseBrackets_le {data data' : ParseAddressesData κ} {pos n n' : Nat}
    (h : (parseBrackets ssl cb data pos n).value = .ok (data', n')) : n' ≤ n := by
  unfold parseBrackets at h
  split at h
  · cases h
  · exact parseBracketsLoop_le ssl cb h

/-- The loop of `ntb_parse_addresses` with the position of `in` and what is left. -/
def parseLoop (data : ParseAddressesData κ) (pos : Nat) :
    Nat → Emits (AddressesStop ε) ω (ParseAddressesData κ)
  | 0 => data.endAddress ssl cb
  | n + 1 =>
    let ch := data.byteAt pos
    if ch = 44 then do
      let data ← data.endAddress ssl cb
      data.resetData.parseLoop (pos + 1) n
    else if ch = 34 then
      match _h : data.parseQuotes (pos + 1) n with
      | (.error e, log) => (.error e, log)
      | (.ok (data, left), log) => do
        tell log
        data.parseLoop (pos + 1 + (n - left)) left
    else if ch = 60 then
      match _h : data.parseBrackets ssl cb (pos + 1) n with
      | (.error e, log) => (.error e, log)
      | (.ok (data, left), log) => do
        tell log
        data.parseLoop (pos + 1 + (n - left)) left
    else if ch = 32 then data.parseLoop (pos + 1) n
    else (data.appendC ch).parseLoop (pos + 1) n
termination_by n => n
decreasing_by
  · exact Nat.lt_succ_self n
  · exact Nat.lt_succ_of_le (parseQuotes_le (congrArg Emits.value _h))
  · exact Nat.lt_succ_of_le (parseBrackets_le ssl cb (congrArg Emits.value _h))
  · exact Nat.lt_succ_self n
  · exact Nat.lt_succ_self n

end ParseAddressesData

/-- `ntb_parse_addresses`, with what the callbacks make of `user_data`. -/
def parseAddresses (ssl : OpenSSL) (cb : AddressCallback ε ω κ) (buffer : List UInt8) (user : κ) :
    Emits (AddressesStop ε) ω κ := do
  let data : ParseAddressesData κ := { buffer, length := 0, hadAddress := false, cbUserData := user }
  let data ← data.parseLoop ssl cb 0 buffer.length
  return data.cbUserData

/-! ## 2. A list for the input and one for the address -/

/-- What is kept while the addresses are read from a list. -/
structure ScratchData (κ : Type) where
  address : List UInt8 := []
  hadAddress : Bool := false
  cbUserData : κ

namespace ScratchData

variable (ssl : OpenSSL) (cb : AddressCallback ε ω κ)

def appendC (data : ScratchData κ) (ch : UInt8) : ScratchData κ :=
  { data with address := data.address ++ [ch] }

def processAddress (data : ScratchData κ) : Emits (AddressesStop ε) ω (ScratchData κ) := do
  let cbUserData ← processAddressText ssl cb data.cbUserData data.address
  let endPos := (data.address.takeWhile (· ≠ 64)).length
  return { data with address := patch data.address endPos [0], cbUserData }

def endAddress (data : ScratchData κ) : Emits (AddressesStop ε) ω (ScratchData κ) := do
  let data ← if data.hadAddress then pure data else data.processAddress ssl cb
  return { cbUserData := data.cbUserData }

def parseQuotes (data : ScratchData κ) :
    List UInt8 → Emits (AddressesStop ε) ω (ScratchData κ × List UInt8)
  | [] => fail (.invalid (ascii "Unterminated quotes in address"))
  | [ch] =>
    if ch = 34 then return (data, [])
    else if ch = 92 then fail (.invalid (ascii "\\ character at end of address"))
    else fail (.invalid (ascii "Unterminated quotes in address"))
  | ch :: next :: input =>
    if ch = 34 then return (data, next :: input)
    else if ch = 92 then (data.appendC next).parseQuotes input
    else (data.appendC ch).parseQuotes (next :: input)

def parseBracketsLoop (data : ScratchData κ) :
    List UInt8 → Emits (AddressesStop ε) ω (ScratchData κ × List UInt8)
  | [] => fail (.invalid (ascii "Unterminated brackets in address"))
  | ch :: input =>
    if ch = 62 then do
      let data ← data.processAddress ssl cb
      return (data, input)
    else (data.appendC ch).parseBracketsLoop input

def parseBrackets (data : ScratchData κ) (input : List UInt8) :
    Emits (AddressesStop ε) ω (ScratchData κ × List UInt8) :=
  if data.hadAddress then fail (.invalid (ascii "Address contains multiple <>-brackets"))
  else ({ data with hadAddress := true, address := [] }).parseBracketsLoop ssl cb input

theorem parseQuotes_le {data data' : ScratchData κ} {input rest : List UInt8}
    (h : (parseQuotes data input : Emits (AddressesStop ε) ω _).value = .ok (data', rest)) :
    rest.length ≤ input.length := by
  fun_induction parseQuotes data input with
  | case2 => cases h; exact Nat.zero_le _
  | case5 => cases h; exact Nat.le_succ _
  | case6 _ _ _ _ ih => exact (ih h).trans (by simp only [List.length_cons]; omega)
  | case7 _ _ _ _ _ _ ih => exact (ih h).trans (Nat.le_succ _)
  | _ => cases h

theorem parseBracketsLoop_le {data data' : ScratchData κ} {input rest : List UInt8}
    (h : (parseBracketsLoop ssl cb data input).value = .ok (data', rest)) :
    rest.length ≤ input.length := by
  fun_induction parseBracketsLoop ssl cb data input with
  | case1 => cases h
  | case2 =>
    obtain ⟨_, -, h⟩ := value_bind_eq_ok h
    cases h
    exact Nat.le_succ _
  | case3 _ _ _ _ ih => exact (ih h).trans (Nat.le_succ _)

theorem parseBrackets_le {data data' : ScratchData κ} {input rest : List UInt8}
    (h : (parseBrackets ssl cb data input).value = .ok (data', rest)) :
    rest.length ≤ input.length := by
  unfold parseBrackets at h
  split at h
  · cases h
  · exact parseBracketsLoop_le ssl cb h

def parseLoop (data : ScratchData κ) : List UInt8 → Emits (AddressesStop ε) ω (ScratchData κ)
  | [] => data.endAddress ssl cb
  | ch :: input =>
    if ch = 44 then do
      let data ← data.endAddress ssl cb
      data.parseLoop input
    else if ch = 34 then
      match _h : data.parseQuotes input with
      | (.error e, log) => (.error e, log)
      | (.ok (data, rest), log) => do
        tell log
        data.parseLoop rest
    else if ch = 60 then
      match _h : data.parseBrackets ssl cb input with
      | (.error e, log) => (.error e, log)
      | (.ok (data, rest), log) => do
        tell log
        data.parseLoop rest
    else if ch = 32 then data.parseLoop input
    else (data.appendC ch).parseLoop input
termination_by input => input.length
decreasing_by
  · exact Nat.lt_succ_self _
  · exact Nat.lt_succ_of_le (parseQuotes_le (congrArg Emits.value _h))
  · exact Nat.lt_succ_of_le (parseBrackets_le ssl cb (congrArg Emits.value _h))
  · exact Nat.lt_succ_self _
  · exact Nat.lt_succ_self _

variable {ssl cb} {data : ScratchData κ} {input : List UInt8}

theorem parseLoop_nil : data.parseLoop ssl cb [] = data.endAddress ssl cb := by
  rw [parseLoop]

theorem parseLoop_comma :
    data.parseLoop ssl cb (44 :: input) =
      data.endAddress ssl cb >>= fun data => data.parseLoop ssl cb input := by
  rw [parseLoop, if_pos rfl]

theorem parseLoop_quotes :
    data.parseLoop ssl cb (34 :: input) =
      data.parseQuotes input >>= fun p => p.1.parseLoop ssl cb p.2 := by
  rw [parseLoop, if_neg (by decide), if_pos rfl]
  split
  next e log heq => rw [heq]; rfl
  next data rest log heq => rw [heq]; rfl

theorem parseLoop_brackets :
    data.parseLoop ssl cb (60 :: input) =
      data.parseBrackets ssl cb input >>= fun p => p.1.parseLoop ssl cb p.2 := by
  rw [parseLoop, if_neg (by decide), if_neg (by decide), if_pos rfl]
  split
  next e log heq => rw [heq]; rfl
  next data rest log heq => rw [heq]; rfl

theorem parseLoop_space : data.parseLoop ssl cb (32 :: input) = data.parseLoop ssl cb input := by
  rw [parseLoop, if_neg (by decide), if_neg (by decide), if_neg (by decide), if_pos rfl]

/-- The bytes that `ntb_parse_addresses` does not just keep. -/
def IsSpecial (ch : UInt8) : Prop := ch = 44 ∨ ch = 34 ∨ ch = 60 ∨ ch = 32

theorem parseLoop_other {ch : UInt8} (h : ¬ IsSpecial ch) :
    data.parseLoop ssl cb (ch :: input) = (data.appendC ch).parseLoop ssl cb input := by
  simp only [IsSpecial, not_or] at h
  rw [parseLoop, if_neg h.1, if_neg h.2.1, if_neg h.2.2.1, if_neg h.2.2.2]

end ScratchData

namespace ParseAddressesData

/-- The rest of the buffer is the input, and what has been kept of it is the address. -/
structure Holds (pos : Nat) (input : List UInt8) (data : ParseAddressesData κ)
    (scratch : ScratchData κ) : Prop where
  input_eq : data.buffer.drop pos = input
  pos_le : pos ≤ data.buffer.length
  address_eq : data.buffer.take data.length = scratch.address
  length_le : data.length ≤ pos
  hadAddress_eq : data.hadAddress = scratch.hadAddress
  cbUserData_eq : data.cbUserData = scratch.cbUserData

section Holds

variable {ssl : OpenSSL} {cb : AddressCallback ε ω κ} {data : ParseAddressesData κ}
  {scratch : ScratchData κ} {pos : Nat} {ch : UInt8} {input : List UInt8}

theorem Holds.byteAt (h : Holds pos (ch :: input) data scratch) : data.byteAt pos = ch := by
  have hget := congrArg (·[0]?) h.input_eq
  simp only [List.getElem?_drop, Nat.add_zero, List.getElem?_cons_zero] at hget
  rw [ParseAddressesData.byteAt, List.getD_eq_getElem?_getD, hget]
  rfl

theorem Holds.pos_lt (h : Holds pos (ch :: input) data scratch) : pos < data.buffer.length := by
  by_contra hge
  have hnil := h.input_eq
  rw [List.drop_eq_nil_of_le (Nat.le_of_not_lt hge)] at hnil
  cases hnil

theorem Holds.tail (h : Holds pos (ch :: input) data scratch) :
    Holds (pos + 1) input data scratch where
  input_eq := by rw [← List.drop_drop, h.input_eq]; rfl
  pos_le := h.pos_lt
  address_eq := h.address_eq
  length_le := h.length_le.trans (Nat.le_succ pos)
  hadAddress_eq := h.hadAddress_eq
  cbUserData_eq := h.cbUserData_eq

-- What is kept is written below what has been read.
theorem Holds.push (h : Holds pos (ch :: input) data scratch) (b : UInt8) :
    Holds (pos + 1) input (data.appendC b) (scratch.appendC b) := by
  have hlt := h.pos_lt
  have hle := h.length_le
  have hfits : data.length + [b].length ≤ data.buffer.length := by
    rw [List.length_singleton]
    omega
  refine ⟨?_, ?_, ?_, Nat.succ_le_succ hle, h.hadAddress_eq, h.cbUserData_eq⟩
  · exact (drop_patch (Nat.succ_le_succ hle) hlt).trans h.tail.input_eq
  · exact hlt.trans_eq (length_patch hfits).symm
  · refine (@take_patch data.buffer [b] data.length (by omega)).trans ?_
    rw [h.address_eq]
    rfl

theorem processAddressText_ok {user user' : κ} {text : List UInt8}
    (h : (processAddressText ssl cb user text).value = .ok user') :
    (text.takeWhile (· ≠ 64)).length < text.length := by
  have htaken := List.takeWhile_prefix (fun ch : UInt8 => decide (ch ≠ 64)) (l := text)
  refine lt_of_le_of_ne htaken.length_le fun hlength => ?_
  unfold processAddressText at h
  rw [if_pos (htaken.eq_of_length hlength)] at h
  cases h

theorem Holds.processAddress (h : Holds pos input data scratch) :
    Related (Holds pos input) (data.processAddress ssl cb) (scratch.processAddress ssl cb) := by
  unfold ParseAddressesData.processAddress ScratchData.processAddress
  rw [h.address_eq, h.cbUserData_eq]
  refine Related.bind_same fun user huser => .pure ?_
  have hlt := processAddressText_ok huser
  have hle := h.length_le
  have hpos := h.pos_le
  have hlength : scratch.address.length = data.length := by
    rw [← h.address_eq, List.length_take]
    omega
  have hfits : (scratch.address.takeWhile (· ≠ 64)).length + [(0 : UInt8)].length ≤ data.length := by
    rw [List.length_singleton]
    omega
  refine ⟨?_, ?_, ?_, hle, h.hadAddress_eq, rfl⟩
  · exact (drop_patch (hfits.trans hle) hpos).trans h.input_eq
  · exact hpos.trans_eq (length_patch (by omega)).symm
  · refine (patch_take hfits).trans ?_
    rw [h.address_eq]

-- The buffer is reset once more behind a comma.
theorem Holds.endAddress (h : Holds pos input data scratch) :
    Related (fun d s => Holds pos input d s ∧ Holds pos input d.resetData s)
      (data.endAddress ssl cb) (scratch.endAddress ssl cb) := by
  have hreset : ∀ (d : ParseAddressesData κ) (s : ScratchData κ), Holds pos input d s →
      Related (ε := AddressesStop ε) (ω := ω)
        (fun d s => Holds pos input d s ∧ Holds pos input d.resetData s)
        (pure d.resetData) (pure { cbUserData := s.cbUserData }) := by
    intro d s hds
    have hholds : Holds pos input d.resetData { cbUserData := s.cbUserData } :=
      ⟨hds.input_eq, hds.pos_le, rfl, Nat.zero_le pos, rfl, hds.cbUserData_eq⟩
    exact .pure ⟨hholds, hholds⟩
  unfold ParseAddressesData.endAddress ScratchData.endAddress
  rw [h.hadAddress_eq]
  split
  · exact (Related.pure h).bind hreset
  · exact h.processAddress.bind hreset

/-- What is left is as long as the rest of the input. -/
def HoldsLeft (stop : Nat) (p : ParseAddressesData κ × Nat) (q : ScratchData κ × List UInt8) :
    Prop :=
  p.2 = q.2.length ∧ Holds (stop - p.2) q.2 p.1 q.1

theorem Holds.left {stop : Nat} (h : Holds pos input data scratch)
    (hstop : pos + input.length = stop) : HoldsLeft stop (data, input.length) (scratch, input) := by
  refine ⟨rfl, ?_⟩
  rwa [← hstop, Nat.add_sub_cancel]

theorem Holds.parseQuotes {stop : Nat} (h : Holds pos input data scratch)
    (hstop : pos + input.length = stop) :
    Related (HoldsLeft stop) (data.parseQuotes pos input.length : Emits (AddressesStop ε) ω _)
      (scratch.parseQuotes input) := by
  fun_induction ScratchData.parseQuotes scratch input generalizing data pos with
  | case1 => exact .fail _
  | case2 scratch =>
    rw [List.length_singleton, ParseAddressesData.parseQuotes, h.byteAt, if_pos rfl]
    exact .pure (h.tail.left (by rw [← hstop]; rfl))
  | case3 scratch =>
    rw [List.length_singleton, ParseAddressesData.parseQuotes, h.byteAt, if_neg (by decide),
      if_pos rfl]
    exact .fail _
  | case4 scratch ch hquote hescape =>
    rw [List.length_singleton, ParseAddressesData.parseQuotes, h.byteAt, if_neg hquote,
      if_neg hescape]
    exact .fail _
  | case5 scratch next input =>
    rw [List.length_cons, List.length_cons, ParseAddressesData.parseQuotes, h.byteAt, if_pos rfl]
    exact .pure (h.tail.left (by simp only [List.length_cons] at hstop ⊢; omega))
  | case6 scratch next input hquote ih =>
    rw [List.length_cons, List.length_cons, ParseAddressesData.parseQuotes, h.byteAt,
      h.tail.byteAt, if_neg (by decide), if_pos rfl]
    exact ih (h.tail.push next) (by simp only [List.length_cons] at hstop; omega)
  | case7 scratch ch next input hquote hescape ih =>
    rw [List.length_cons, List.length_cons, ParseAddressesData.parseQuotes, h.byteAt,
      if_neg hquote, if_neg hescape]
    exact ih (h.push ch) (by simp only [List.length_cons] at hstop ⊢; omega)

theorem Holds.parseBracketsLoop {stop : Nat} (h : Holds pos input data scratch)
    (hstop : pos + input.length = stop) :
    Related (HoldsLeft stop) (data.parseBracketsLoop ssl cb pos input.length)
      (scratch.parseBracketsLoop ssl cb input) := by
  induction input generalizing data scratch pos with
  | nil => exact .fail _
  | cons ch input ih =>
    rw [List.length_cons] at hstop ⊢
    rw [ParseAddressesData.parseBracketsLoop, ScratchData.parseBracketsLoop, h.byteAt]
    split
    · refine h.tail.processAddress.bind fun d s hds => .pure ?_
      exact hds.left (by omega)
    · exact ih (h.push ch) (by omega)

theorem Holds.parseBrackets {stop : Nat} (h : Holds pos input data scratch)
    (hstop : pos + input.length = stop) :
    Related (HoldsLeft stop) (data.parseBrackets ssl cb pos input.length)
      (scratch.parseBrackets ssl cb input) := by
  unfold ParseAddressesData.parseBrackets ScratchData.parseBrackets
  rw [h.hadAddress_eq]
  split
  · exact .fail _
  · exact Holds.parseBracketsLoop
      ⟨h.input_eq, h.pos_le, rfl, Nat.zero_le pos, rfl, h.cbUserData_eq⟩ hstop

theorem parseLoop_quotes {n : Nat} (h : data.byteAt pos = 34) :
    data.parseLoop ssl cb pos (n + 1) = data.parseQuotes (pos + 1) n >>= fun p =>
      p.1.parseLoop ssl cb (pos + 1 + (n - p.2)) p.2 := by
  rw [parseLoop, if_neg (by rw [h]; decide), if_pos h]
  split
  next e log heq => rw [heq]; rfl
  next data rest log heq => rw [heq]; rfl

theorem parseLoop_brackets {n : Nat} (h : data.byteAt pos = 60) :
    data.parseLoop ssl cb pos (n + 1) = data.parseBrackets ssl cb (pos + 1) n >>= fun p =>
      p.1.parseLoop ssl cb (pos + 1 + (n - p.2)) p.2 := by
  rw [parseLoop, if_neg (by rw [h]; decide), if_neg (by rw [h]; decide), if_pos h]
  split
  next e log heq => rw [heq]; rfl
  next data rest log heq => rw [heq]; rfl

theorem Holds.parseLoop (h : Holds pos input data scratch) :
    Related (fun d s => d.cbUserData = s.cbUserData) (data.parseLoop ssl cb pos input.length)
      (scratch.parseLoop ssl cb input) := by
  induction hn : input.length using Nat.strong_induction_on generalizing data scratch pos input with
  | _ n ih =>
    subst hn
    cases input with
    | nil =>
      rw [List.length_nil, ParseAddressesData.parseLoop, ScratchData.parseLoop_nil]
      exact h.endAddress.mono fun d s hds => hds.1.cbUserData_eq
    | cons ch input =>
      have hlt : input.length < (ch :: input).length := Nat.lt_succ_self _
      -- the loop goes on behind what the functions for quotes and brackets have read
      have hrest : ∀ (x : Emits (AddressesStop ε) ω (ParseAddressesData κ × Nat))
          (y : Emits (AddressesStop ε) ω (ScratchData κ × List UInt8)),
          Related (HoldsLeft (pos + 1 + input.length)) x y →
          (∀ p, y.value = .ok p → p.2.length ≤ input.length) →
          Related (fun d s => d.cbUserData = s.cbUserData)
            (x >>= fun p => p.1.parseLoop ssl cb (pos + 1 + (input.length - p.2)) p.2)
            (y >>= fun p => p.1.parseLoop ssl cb p.2) := by
        intro x y hxy hle
        refine hxy.bind_of fun p q hy hpq => ?_
        obtain ⟨hleft, hholds⟩ := hpq
        have hq := hle q hy
        rw [hleft] at hholds ⊢
        rw [show pos + 1 + input.length - q.2.length = pos + 1 + (input.length - q.2.length) by
          omega] at hholds
        exact ih _ (hq.trans_lt hlt) hholds rfl
      by_cases hcomma : ch = 44
      · subst hcomma
        rw [List.length_cons, ParseAddressesData.parseLoop, h.byteAt, if_pos rfl,
          ScratchData.parseLoop_comma]
        exact h.tail.endAddress.bind fun d s hds => ih _ hlt hds.2 rfl
      by_cases hquotes : ch = 34
      · subst hquotes
        rw [List.length_cons, parseLoop_quotes h.byteAt, ScratchData.parseLoop_quotes]
        exact hrest _ _ (h.tail.parseQuotes rfl) fun p hp => ScratchData.parseQuotes_le hp
      by_cases hbrackets : ch = 60
      · subst hbrackets
        rw [List.length_cons, parseLoop_brackets h.byteAt, ScratchData.parseLoop_brackets]
        exact hrest _ _ (h.tail.parseBrackets rfl) fun p hp => ScratchData.parseBrackets_le ssl cb hp
      rw [List.length_cons, ParseAddressesData.parseLoop, ScratchData.parseLoop]
      simp only [h.byteAt, if_neg hcomma, if_neg hquotes, if_neg hbrackets]
      split
      · exact ih _ hlt h.tail rfl
      · exact ih _ hlt (h.push ch) rfl

end Holds

end ParseAddressesData

/-- The buffer can be read and written at once: the result is that with a list for the input and
another one for the address. -/
theorem parseAddresses_eq (ssl : OpenSSL) (cb : AddressCallback ε ω κ) (buffer : List UInt8)
    (user : κ) :
    parseAddresses ssl cb buffer user =
      (({ cbUserData := user } : ScratchData κ).parseLoop ssl cb buffer >>= fun data =>
        pure data.cbUserData) := by
  have hholds : ParseAddressesData.Holds 0 buffer
      { buffer, length := 0, hadAddress := false, cbUserData := user } { cbUserData := user } :=
    ⟨rfl, Nat.zero_le _, rfl, le_refl 0, rfl, rfl⟩
  exact (hholds.parseLoop.bind fun d s hds => .pure hds).eq

/-! ## 3. A single address -/

/-- The address with its domain. -/
def mailbox (ssl : OpenSSL) (a : Address) : List UInt8 :=
  a.encode ssl ++ ascii "@bitmessage"

/-- The bytes in the text of an address. -/
def addressChars : List UInt8 := ascii "BM-" ++ Base58.alphabet

theorem mem_addressChars {ssl : OpenSSL} {a : Address} {ch : UInt8}
    (h : ch ∈ a.encode ssl) : ch ∈ addressChars := by
  rcases List.mem_append.mp h with hprefix | hnumeral
  · exact List.mem_append_left _ hprefix
  · exact List.mem_append_right _ (Base58.mem_alphabet_of_mem_encode hnumeral)

theorem mem_mailbox {ssl : OpenSSL} {a : Address} {ch : UInt8} (h : ch ∈ mailbox ssl a) :
    ch ∈ addressChars ++ ascii "@bitmessage" := by
  rcases List.mem_append.mp h with haddress | hdomain
  · exact List.mem_append_left _ (mem_addressChars haddress)
  · exact List.mem_append_right _ hdomain

section Mailbox

variable {ssl : OpenSSL} {cb : AddressCallback ε ω κ} {a : Address} {user : κ}

theorem processAddressText_mailbox (h : 1 ≤ a.version) :
    processAddressText ssl cb user (mailbox ssl a) = (cb user a).mapError .callback := by
  have hat : ∀ ch ∈ a.encode ssl, decide (ch ≠ 64) = true := by
    intro ch hch
    have hall : ∀ ch ∈ addressChars, decide (ch ≠ 64) = true :=
      List.all_iff_forall_prop.mp rfl
    exact hall ch (mem_addressChars hch)
  have hnull : ∀ ch ∈ a.encode ssl, decide (ch ≠ 0) = true := by
    intro ch hch
    have hall : ∀ ch ∈ addressChars, decide (ch ≠ 0) = true :=
      List.all_iff_forall_prop.mp rfl
    exact hall ch (mem_addressChars hch)
  have hname : (mailbox ssl a).takeWhile (· ≠ 64) = a.encode ssl := by
    rw [mailbox, List.takeWhile_append_of_pos hat]
    exact List.append_nil _
  have hne : a.encode ssl ≠ mailbox ssl a := by
    intro heq
    have hlength := congrArg List.length heq
    have hdomain : (ascii "@bitmessage").length = 11 := rfl
    rw [mailbox, List.length_append] at hlength
    omega
  have hdrop : (mailbox ssl a).drop ((a.encode ssl).length + 1) = ascii "bitmessage" := by
    rw [mailbox, List.drop_length_add_append]
    rfl
  have hstring : cString (a.encode ssl) = a.encode ssl := List.takeWhile_eq_self_iff.mpr hnull
  unfold processAddressText
  rw [hname]
  dsimp only
  rw [if_neg hne, hdrop, if_neg (by simp), hstring, Address.decode_encode ssl h]

namespace ScratchData

-- Bytes that are just kept.
theorem parseLoop_kept {data : ScratchData κ} {text : List UInt8} (h : ∀ ch ∈ text, ¬ IsSpecial ch)
    (input : List UInt8) : data.parseLoop ssl cb (text ++ input) =
      ({ data with address := data.address ++ text }).parseLoop ssl cb input := by
  induction text generalizing data with
  | nil => rw [List.append_nil, List.nil_append]
  | cons ch text ih =>
    rw [List.forall_mem_cons] at h
    rw [List.cons_append, parseLoop_other h.1, ih h.2, appendC, List.append_assoc,
      List.singleton_append]

theorem endAddress_mailbox (h : 1 ≤ a.version) :
    ({ address := mailbox ssl a, cbUserData := user } : ScratchData κ).endAddress ssl cb =
      ((cb user a).mapError .callback >>= fun cbUserData => pure { cbUserData }) := by
  unfold endAddress processAddress
  rw [if_neg (by simp), processAddressText_mailbox h]
  simp only [bind_assoc, pure_bind]

end ScratchData

theorem not_isSpecial_mailbox {ch : UInt8} (h : ch ∈ mailbox ssl a) :
    ¬ ScratchData.IsSpecial ch := by
  have hall : ∀ ch ∈ addressChars ++ ascii "@bitmessage", ch ≠ 44 ∧ ch ≠ 34 ∧ ch ≠ 60 ∧ ch ≠ 32 :=
    List.all_iff_forall_prop.mp rfl
  simpa only [ScratchData.IsSpecial, not_or] using hall ch (mem_mailbox h)

theorem parseAddresses_mailbox (h : 1 ≤ a.version) :
    parseAddresses ssl cb (mailbox ssl a) user = (cb user a).mapError .callback := by
  rw [parseAddresses_eq, ← List.append_nil (mailbox ssl a),
    ScratchData.parseLoop_kept fun ch => not_isSpecial_mailbox, ScratchData.parseLoop_nil,
    List.nil_append, ScratchData.endAddress_mailbox h, bind_assoc]
  simp only [pure_bind, bind_pure]

end Mailbox

end Notbit.Mail
