import Notbit.Lib.Streams

/-!
# QuotedPrintable — the decoder (`ntb-quoted-printable.c`)

A state machine with one handler for each state; `quotedPrintableByte` is what one byte does.
-/

open Streams Streams.Emits

namespace Notbit.Mail

/-! ## 1. The decoder -/

/-- `enum ntb_quoted_printable_state` -/
inductive QuotedPrintableState where
  | octet | quoteStart | skipSpaces | softCr | escapedOctet
  deriving DecidableEq, Repr

/-- `struct ntb_quoted_printable_data`; what is written to `out` is reported. -/
structure QuotedPrintableData where
  state : QuotedPrintableState := .octet
  nibble : Nat := 0
  underscoreIsSpace : Bool
  deriving DecidableEq, Repr

/-- `hex_value`; `none` is -1. -/
def hexValue (ch : UInt8) : Option Nat :=
  let n := ch.toNat
  if n ≤ 57 then if n < 48 then none else some (n - 48)
  else if n ≤ 70 then if n < 65 then none else some (n - 65 + 10)
  else if n ≤ 102 then if n < 97 then none else some (n - 97 + 10)
  else none

/-- What a handler returns: the new state and how much it has taken. -/
abbrev QuotedPrintableHandler := Emits Unit UInt8 (QuotedPrintableData × Nat)

/-- `output_octets` -/
def outputOctets (data : QuotedPrintableData) (octets : List UInt8) : Emits Unit UInt8 Unit :=
  tell (if data.underscoreIsSpace then octets.map fun ch => if ch = 95 then 32 else ch else octets)

/-- `handle_octet` -/
def handleOctet (data : QuotedPrintableData) (input : List UInt8) : QuotedPrintableHandler := do
  let equals := input.findIdx (· = 61)
  if equals = input.length then
    outputOctets data input
    return (data, input.length)
  else
    outputOctets data (input.take equals)
    return ({ data with state := .quoteStart }, equals + 1)

/-- `handle_quote_start` -/
def handleQuoteStart (data : QuotedPrintableData) (ch : UInt8) : QuotedPrintableHandler :=
  match hexValue ch with
  | some nibble => return ({ data with nibble, state := .escapedOctet }, 1)
  | none =>
    if ch = 32 ∨ ch = 9 then return ({ data with state := .skipSpaces }, 1)
    else if ch = 13 then return ({ data with state := .softCr }, 1)
    else if ch = 10 then return ({ data with state := .octet }, 1)
    else fail ()

/-- `handle_skip_spaces` -/
def handleSkipSpaces (data : QuotedPrintableData) : List UInt8 → QuotedPrintableHandler
  | [] => return (data, 0)
  | ch :: input =>
    if ch = 32 ∨ ch = 9 then do
      let (data, skip) ← handleSkipSpaces data input
      return (data, skip + 1)
    else if ch = 13 then return ({ data with state := .softCr }, 1)
    else if ch = 10 then return ({ data with state := .octet }, 1)
    else fail ()

/-- `handle_soft_cr` -/
def handleSoftCr (data : QuotedPrintableData) (ch : UInt8) : QuotedPrintableHandler :=
  if ch ≠ 10 then fail ()
  else return ({ data with state := .octet }, 1)

/-- `handle_escaped_octet` -/
def handleEscapedOctet (data : QuotedPrintableData) (ch : UInt8) : QuotedPrintableHandler :=
  match hexValue ch with
  | none => fail ()
  | some nibble => do
    tell [UInt8.ofNat (data.nibble <<< 4 ||| nibble)]
    return ({ data with state := .octet }, 1)

/-- The body of the loop of `ntb_quoted_printable_decode`. -/
def handleQuotedPrintable (data : QuotedPrintableData) : List UInt8 → QuotedPrintableHandler
  | [] => return (data, 0)
  | ch :: input =>
    match data.state with
    | .octet => handleOctet data (ch :: input)
    | .quoteStart => handleQuoteStart data ch
    | .skipSpaces => handleSkipSpaces data (ch :: input)
    | .softCr => handleSoftCr data ch
    | .escapedOctet => handleEscapedOctet data ch

theorem handleSkipSpaces_taken {data data' : QuotedPrintableData} {ch : UInt8} {input : List UInt8}
    {n : Nat} (h : (handleSkipSpaces data (ch :: input)).value = .ok (data', n)) : 0 < n := by
  unfold handleSkipSpaces at h
  split_ifs at h
  · obtain ⟨⟨data₁, skip⟩, -, h⟩ := value_bind_eq_ok h
    cases h
    exact Nat.succ_pos skip
  · cases h
    exact Nat.one_pos
  · cases h
    exact Nat.one_pos
  · cases h

/-- The loop of `ntb_quoted_printable_decode`.  Every handler takes something. -/
def quotedPrintableMachine : Machine Unit UInt8 QuotedPrintableData UInt8 where
  handle := handleQuotedPrintable
  rank _ := 0
  progress := by
    intro data input hinput data' n h
    left
    cases input with
    | nil => exact absurd rfl hinput
    | cons ch input =>
      unfold handleQuotedPrintable at h
      dsimp only at h
      split at h
      · unfold handleOctet at h
        dsimp only at h
        split_ifs at h <;> cases h
        · exact Nat.succ_pos _
        · exact Nat.succ_pos _
      · unfold handleQuoteStart at h
        split at h
        · cases h
          exact Nat.one_pos
        · split_ifs at h <;> cases h <;> exact Nat.one_pos
      · exact handleSkipSpaces_taken h
      · unfold handleSoftCr at h
        split_ifs at h <;> cases h
        exact Nat.one_pos
      · unfold handleEscapedOctet at h
        split at h
        · cases h
        · cases h
          exact Nat.one_pos

/-- `ntb_quoted_printable_decode` -/
def quotedPrintableDecode (data : QuotedPrintableData) (input : List UInt8) :
    Emits Unit UInt8 QuotedPrintableData :=
  quotedPrintableMachine.drain data input

/-- `ntb_quoted_printable_decode_end` -/
def quotedPrintableDecodeEnd (data : QuotedPrintableData) : Bool := data.state = .octet

/-! ## 2. One byte at a time -/

/-- What one byte does to the decoder. -/
def quotedPrintableByte (data : QuotedPrintableData) (ch : UInt8) :
    Emits Unit UInt8 QuotedPrintableData :=
  match data.state with
  | .octet =>
    if ch = 61 then return { data with state := .quoteStart }
    else do
      outputOctets data [ch]
      return data
  | .quoteStart => (·.1) <$> handleQuoteStart data ch
  | .skipSpaces =>
    if ch = 32 ∨ ch = 9 then return data
    else if ch = 13 then return { data with state := .softCr }
    else if ch = 10 then return { data with state := .octet }
    else fail ()
  | .softCr => (·.1) <$> handleSoftCr data ch
  | .escapedOctet => (·.1) <$> handleEscapedOctet data ch

variable {data : QuotedPrintableData}

theorem length_log_quotedPrintableByte (data : QuotedPrintableData) (ch : UInt8) :
    (quotedPrintableByte data ch).log.length ≤ 1 := by
  unfold quotedPrintableByte
  split
  · split_ifs
    · exact Nat.zero_le _
    · unfold outputOctets
      split_ifs <;> exact le_refl _
  · unfold handleQuoteStart
    split
    · exact Nat.zero_le _
    · split_ifs <;> exact Nat.zero_le _
  · split_ifs <;> exact Nat.zero_le _
  · unfold handleSoftCr
    split_ifs <;> exact Nat.zero_le _
  · unfold handleEscapedOctet
    split
    · exact Nat.zero_le _
    · exact le_refl _

theorem outputOctets_append (data : QuotedPrintableData) (octets more : List UInt8)
    (x : Emits Unit UInt8 QuotedPrintableData) :
    (outputOctets data (octets ++ more) >>= fun _ => x) =
      outputOctets data octets >>= fun _ => outputOctets data more >>= fun _ => x := by
  unfold outputOctets
  split
  · rw [List.map_append, tell_append_bind]
  · rw [tell_append_bind]

-- Bytes that are no equals signs.
theorem foldlM_octets {octets : List UInt8} (hstate : data.state = .octet) (h : 61 ∉ octets) :
    octets.foldlM quotedPrintableByte data = outputOctets data octets >>= fun _ => pure data := by
  induction octets with
  | nil =>
    unfold outputOctets
    split <;> rfl
  | cons ch octets ih =>
    rw [List.mem_cons, not_or] at h
    rw [List.foldlM_cons, ← List.singleton_append, outputOctets_append, ← ih h.2]
    simp only [quotedPrintableByte, hstate, Ne.symm h.1, if_false, bind_assoc, pure_bind]

theorem handleOctet_eq (hstate : data.state = .octet) (input : List UInt8) :
    ∃ n, handleOctet data input =
      ((input.take n).foldlM quotedPrintableByte data >>= fun data' => pure (data', n)) := by
  have hbefore : ∀ n, n ≤ input.findIdx (· = 61) → 61 ∉ input.take n := by
    intro n hn hmem
    obtain ⟨i, hi, hget⟩ := List.mem_iff_getElem.mp hmem
    rw [List.length_take] at hi
    rw [List.getElem_take] at hget
    have hnot := @List.not_of_lt_findIdx _ (fun ch => decide (ch = 61)) input i (by omega)
    rw [hget] at hnot
    exact absurd rfl (of_decide_eq_false hnot)
  unfold handleOctet
  dsimp only
  split
  next hnone =>
    refine ⟨input.length, ?_⟩
    have hall := hbefore input.length hnone.ge
    rw [List.take_length] at hall ⊢
    rw [foldlM_octets hstate hall]
    simp only [bind_assoc, pure_bind]
  next hsome =>
    have hlt : input.findIdx (· = 61) < input.length :=
      lt_of_le_of_ne List.findIdx_le_length hsome
    have hget : input[input.findIdx (· = 61)] = 61 := by
      have hfound := @List.findIdx_getElem _ (fun ch => decide (ch = 61)) input hlt
      exact of_decide_eq_true hfound
    refine ⟨input.findIdx (· = 61) + 1, ?_⟩
    rw [List.take_add_one, List.getElem?_eq_getElem hlt, hget, List.foldlM_append,
      foldlM_octets hstate (hbefore _ (le_refl _))]
    simp [quotedPrintableByte, hstate]

theorem handleSkipSpaces_eq (hstate : data.state = .skipSpaces) (input : List UInt8) :
    ∃ n, handleSkipSpaces data input =
      ((input.take n).foldlM quotedPrintableByte data >>= fun data' => pure (data', n)) := by
  induction input with
  | nil => exact ⟨0, rfl⟩
  | cons ch input ih =>
    obtain ⟨n, hn⟩ := ih
    by_cases hblank : ch = 32 ∨ ch = 9
    · refine ⟨n + 1, ?_⟩
      rw [handleSkipSpaces, if_pos hblank, hn, List.take_succ_cons, List.foldlM_cons]
      simp only [quotedPrintableByte, hstate, if_pos hblank, bind_assoc, pure_bind]
    · refine ⟨1, ?_⟩
      rw [handleSkipSpaces, if_neg hblank, List.take_succ_cons, List.take_zero]
      simp only [List.foldlM_cons, List.foldlM_nil, quotedPrintableByte, hstate, if_neg hblank,
        bind_pure]
      split_ifs <;> rfl

theorem quotedPrintable_stepwise : quotedPrintableMachine.Stepwise quotedPrintableByte := by
  intro data ch input
  -- the handlers that look at one byte
  have hone : ∀ x : QuotedPrintableHandler,
      handleQuotedPrintable data (ch :: input) = x →
      quotedPrintableByte data ch = (·.1) <$> x →
      (∀ p, x.value = .ok p → p.2 = 1) →
      ∃ n, quotedPrintableMachine.handle data (ch :: input) =
        ((ch :: input).take n).foldlM quotedPrintableByte data >>= fun s' => pure (s', n) := by
    intro x hx hbyte htaken
    refine ⟨1, ?_⟩
    rw [List.take_succ_cons, List.take_zero, List.foldlM_cons, hbyte]
    simp only [List.foldlM_nil, bind_pure]
    refine hx.trans ?_
    obtain ⟨v, log⟩ := x
    cases v with
    | error e => rfl
    | ok p =>
      obtain ⟨data', n⟩ := p
      obtain rfl : n = 1 := htaken (data', n) rfl
      exact ext rfl (by show log = (log ++ []) ++ []; rw [List.append_nil, List.append_nil])
  cases hstate : data.state with
  | octet =>
    obtain ⟨n, heq⟩ := handleOctet_eq hstate (ch :: input)
    refine ⟨n, ?_⟩
    rw [← heq]
    simp only [quotedPrintableMachine, handleQuotedPrintable, hstate]
  | skipSpaces =>
    obtain ⟨n, heq⟩ := handleSkipSpaces_eq hstate (ch :: input)
    refine ⟨n, ?_⟩
    rw [← heq]
    simp only [quotedPrintableMachine, handleQuotedPrintable, hstate]
  | quoteStart =>
    refine hone (handleQuoteStart data ch) (by simp only [handleQuotedPrintable, hstate])
      (by simp only [quotedPrintableByte, hstate]) fun p hp => ?_
    unfold handleQuoteStart at hp
    split at hp
    · cases hp
      rfl
    · split_ifs at hp <;> cases hp <;> rfl
  | softCr =>
    refine hone (handleSoftCr data ch) (by simp only [handleQuotedPrintable, hstate])
      (by simp only [quotedPrintableByte, hstate]) fun p hp => ?_
    unfold handleSoftCr at hp
    split_ifs at hp <;> cases hp
    rfl
  | escapedOctet =>
    refine hone (handleEscapedOctet data ch) (by simp only [handleQuotedPrintable, hstate])
      (by simp only [quotedPrintableByte, hstate]) fun p hp => ?_
    unfold handleEscapedOctet at hp
    split at hp
    · cases hp
    · cases hp
      rfl

-- A chunk is decoded byte by byte.
theorem quotedPrintableDecode_eq (data : QuotedPrintableData) (input : List UInt8) :
    quotedPrintableDecode data input = input.foldlM quotedPrintableByte data :=
  quotedPrintable_stepwise.drain_eq data input

end Notbit.Mail
