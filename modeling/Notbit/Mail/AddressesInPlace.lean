import Notbit.Lib.Outcomes
import Notbit.Mail.Parser

/-!
# AddressesInPlace — an address never catches up with the reader (`ntb-parse-addresses.c`)

The three loops are one machine that goes on byte by byte.  In each of its states what has been kept
is no longer than what has been read, and the rest of the buffer is untouched.
-/

open Bytes Streams Streams.Emits Traced Notbit.Proto

namespace Notbit.Mail

variable {ε ω κ : Type}

/-! ## 1. The loops byte by byte -/

/-- Which of the three loops reads. -/
inductive ReadingMode where
  | addresses | quotes | brackets
  deriving DecidableEq, Repr

/-- The data with `in` and `in_length`. -/
structure Reading (κ : Type) where
  mode : ReadingMode
  data : ParseAddressesData κ
  pos : Nat
  left : Nat

namespace Reading

section Machine

variable (ssl : OpenSSL) (cb : AddressCallback ε ω κ)

/-- So many bytes further. -/
def after (s : Reading κ) (n : Nat) (mode : ReadingMode) (data : ParseAddressesData κ) :
    Reading κ :=
  { mode, data, pos := s.pos + n, left := s.left - n }

/-- What the loops do with the next byte. -/
def next (s : Reading κ) : Emits (AddressesStop ε) ω (Reading κ) :=
  let ch := s.data.byteAt s.pos
  match s.mode with
  | .addresses =>
    if ch = 44 then do
      let data ← s.data.endAddress ssl cb
      return s.after 1 .addresses data.resetData
    else if ch = 34 then return s.after 1 .quotes s.data
    else if ch = 60 then
      if s.data.hadAddress then fail (.invalid (ascii "Address contains multiple <>-brackets"))
      else return s.after 1 .brackets { s.data with hadAddress := true, length := 0 }
    else if ch = 32 then return s.after 1 .addresses s.data
    else return s.after 1 .addresses (s.data.appendC ch)
  | .quotes =>
    if ch = 34 then return s.after 1 .addresses s.data
    else if ch = 92 then
      if s.left < 2 then fail (.invalid (ascii "\\ character at end of address"))
      else return s.after 2 .quotes (s.data.appendC (s.data.byteAt (s.pos + 1)))
    else return s.after 1 .quotes (s.data.appendC ch)
  | .brackets =>
    if ch = 62 then do
      let data ← s.data.processAddress ssl cb
      return s.after 1 .addresses data
    else return s.after 1 .brackets (s.data.appendC ch)

/-- The rest of `ntb_parse_addresses`. -/
def resume (s : Reading κ) : Emits (AddressesStop ε) ω (ParseAddressesData κ) :=
  match s.mode with
  | .addresses => s.data.parseLoop ssl cb s.pos s.left
  | .quotes => s.data.parseQuotes s.pos s.left >>= fun p =>
      p.1.parseLoop ssl cb (s.pos + (s.left - p.2)) p.2
  | .brackets => s.data.parseBracketsLoop ssl cb s.pos s.left >>= fun p =>
      p.1.parseLoop ssl cb (s.pos + (s.left - p.2)) p.2

/-- The state `ntb_parse_addresses` starts with. -/
def start (buffer : List UInt8) (user : κ) : Reading κ :=
  { mode := .addresses, pos := 0, left := buffer.length,
    data := { buffer, length := 0, hadAddress := false, cbUserData := user } }

/-- A byte has been read. -/
def Reads (s s' : Reading κ) : Prop := s.left ≠ 0 ∧ (s.next ssl cb).value = .ok s'

/-- A state on the way through the buffer. -/
def Reaches (buffer : List UInt8) (user : κ) (s : Reading κ) : Prop :=
  Relation.ReflTransGen (Reads ssl cb) (start buffer user) s

variable {ssl cb} {data : ParseAddressesData κ} {pos n : Nat}

theorem resume_next_addresses :
    data.parseLoop ssl cb pos (n + 1) =
      ({ mode := .addresses, data, pos, left := n + 1 } : Reading κ).next ssl cb >>=
        resume ssl cb := by
  unfold next
  dsimp only
  by_cases hcomma : data.byteAt pos = 44
  · rw [ParseAddressesData.parseLoop, if_pos hcomma, if_pos hcomma, bind_assoc]
    rfl
  by_cases hquotes : data.byteAt pos = 34
  · rw [ParseAddressesData.parseLoop_quotes hquotes, if_neg hcomma, if_pos hquotes, pure_bind]
    rfl
  by_cases hbrackets : data.byteAt pos = 60
  · rw [ParseAddressesData.parseLoop_brackets hbrackets, if_neg hcomma, if_neg hquotes,
      if_pos hbrackets, ParseAddressesData.parseBrackets]
    split
    · rfl
    · rw [pure_bind]
      rfl
  rw [ParseAddressesData.parseLoop]
  simp only [if_neg hcomma, if_neg hquotes, if_neg hbrackets]
  split
  · rw [pure_bind]
    rfl
  · rw [pure_bind]
    rfl

theorem resume_next_quotes :
    (data.parseQuotes pos (n + 1) >>= fun p => p.1.parseLoop ssl cb (pos + (n + 1 - p.2)) p.2) =
      ({ mode := .quotes, data, pos, left := n + 1 } : Reading κ).next ssl cb >>=
        resume ssl cb := by
  unfold next
  dsimp only
  cases n with
  | zero =>
    rw [ParseAddressesData.parseQuotes]
    split
    · rw [pure_bind, pure_bind]
      rfl
    split
    · rfl
    · rw [pure_bind]
      rfl
  | succ n =>
    rw [ParseAddressesData.parseQuotes]
    split
    · rw [pure_bind, pure_bind]
      show data.parseLoop ssl cb (pos + (n + 1 + 1 - (n + 1))) (n + 1) = _
      rw [Nat.add_sub_cancel_left]
      rfl
    split
    · rw [if_neg (by omega), pure_bind]
      refine bind_congr_of fun p hp => ?_
      have hle := ParseAddressesData.parseQuotes_le hp
      show p.1.parseLoop ssl cb _ p.2 =
        p.1.parseLoop ssl cb (pos + 2 + (n + 1 + 1 - 2 - p.2)) p.2
      rw [show pos + 2 + (n + 1 + 1 - 2 - p.2) = pos + (n + 1 + 1 - p.2) by omega]
    · rw [pure_bind]
      refine bind_congr_of fun p hp => ?_
      have hle := ParseAddressesData.parseQuotes_le hp
      show p.1.parseLoop ssl cb _ p.2 =
        p.1.parseLoop ssl cb (pos + 1 + (n + 1 + 1 - 1 - p.2)) p.2
      rw [show pos + 1 + (n + 1 + 1 - 1 - p.2) = pos + (n + 1 + 1 - p.2) by omega]

theorem resume_next_brackets :
    (data.parseBracketsLoop ssl cb pos (n + 1) >>= fun p =>
        p.1.parseLoop ssl cb (pos + (n + 1 - p.2)) p.2) =
      ({ mode := .brackets, data, pos, left := n + 1 } : Reading κ).next ssl cb >>=
        resume ssl cb := by
  unfold next
  dsimp only
  rw [ParseAddressesData.parseBracketsLoop]
  split
  · rw [bind_assoc, bind_assoc]
    refine bind_congr_of fun data' _ => ?_
    rw [pure_bind, pure_bind]
    show data'.parseLoop ssl cb (pos + (n + 1 - n)) n = _
    rw [Nat.add_sub_cancel_left]
    rfl
  · rw [pure_bind]
    refine bind_congr_of fun p hp => ?_
    have hle := ParseAddressesData.parseBracketsLoop_le ssl cb hp
    show p.1.parseLoop ssl cb _ p.2 = p.1.parseLoop ssl cb (pos + 1 + (n + 1 - 1 - p.2)) p.2
    rw [show pos + 1 + (n + 1 - 1 - p.2) = pos + (n + 1 - p.2) by omega]

-- The loops go on like the machine.
theorem resume_eq {s : Reading κ} (hleft : s.left ≠ 0) :
    s.resume ssl cb = s.next ssl cb >>= resume ssl cb := by
  obtain ⟨mode, data, pos, left⟩ := s
  obtain ⟨n, rfl⟩ := Nat.exists_eq_succ_of_ne_zero hleft
  cases mode with
  | addresses => exact resume_next_addresses
  | quotes => exact resume_next_quotes
  | brackets => exact resume_next_brackets

end Machine

/-! ## 2. Nothing that is still to be read is overwritten -/

section Unread

variable {ssl : OpenSSL} {cb : AddressCallback ε ω κ} {text : List UInt8} {s s' : Reading κ}
  {data data' : ParseAddressesData κ} {n : Nat}

/-- At most one byte of the block is overwritten, which has been kept or is the next one. -/
structure Overwrites (data data' : ParseAddressesData κ) : Prop where
  length : data'.length ≤ data.length + 1
  buffer : data'.buffer = data.buffer ∨
    ∃ i ch, i ≤ data.length ∧ data'.buffer = patch data.buffer i [ch]

theorem Overwrites.same (hbuffer : data'.buffer = data.buffer)
    (hlength : data'.length ≤ data.length) : Overwrites data data' :=
  ⟨hlength.trans (Nat.le_succ _), .inl hbuffer⟩

theorem overwrites_appendC (data : ParseAddressesData κ) (ch : UInt8) :
    Overwrites data (data.appendC ch) :=
  ⟨le_refl _, .inr ⟨_, ch, le_refl _, rfl⟩⟩

-- The at sign is before the end of what has been kept.
theorem overwrites_processAddress (h : (data.processAddress ssl cb).value = .ok data') :
    Overwrites data data' := by
  unfold ParseAddressesData.processAddress at h
  obtain ⟨user, huser, h⟩ := value_bind_eq_ok h
  cases h
  have hlt := ParseAddressesData.processAddressText_ok huser
  exact ⟨Nat.le_succ _, .inr ⟨_, 0, (hlt.trans_le (List.length_take_le _ _)).le, rfl⟩⟩

theorem overwrites_endAddress (h : (data.endAddress ssl cb).value = .ok data') :
    Overwrites data data'.resetData := by
  unfold ParseAddressesData.endAddress at h
  dsimp only at h
  split at h
  · cases h
    exact .same rfl (Nat.zero_le _)
  · obtain ⟨processed, hprocessed, h⟩ := value_bind_eq_ok h
    cases h
    exact ⟨Nat.zero_le _, (overwrites_processAddress hprocessed).buffer⟩

/-- What reading a byte does. -/
theorem reads_cases (h : Reads ssl cb s s') :
    ∃ n mode data, s' = s.after n mode data ∧ 0 < n ∧ n ≤ s.left ∧ Overwrites s.data data := by
  obtain ⟨hleft, hnext⟩ := h
  have hpos : 1 ≤ s.left := Nat.pos_of_ne_zero hleft
  unfold next at hnext
  dsimp only at hnext
  split at hnext
  · split_ifs at hnext
    · obtain ⟨data, hdata, hnext⟩ := value_bind_eq_ok hnext
      cases hnext
      exact ⟨1, _, _, rfl, Nat.one_pos, hpos, overwrites_endAddress hdata⟩
    · cases hnext
      exact ⟨1, _, _, rfl, Nat.one_pos, hpos, .same rfl (le_refl _)⟩
    · cases hnext
    · cases hnext
      exact ⟨1, _, _, rfl, Nat.one_pos, hpos, .same rfl (Nat.zero_le _)⟩
    · cases hnext
      exact ⟨1, _, _, rfl, Nat.one_pos, hpos, .same rfl (le_refl _)⟩
    · cases hnext
      exact ⟨1, _, _, rfl, Nat.one_pos, hpos, overwrites_appendC _ _⟩
  · split_ifs at hnext with hquote hescape hend
    · cases hnext
      exact ⟨1, _, _, rfl, Nat.one_pos, hpos, .same rfl (le_refl _)⟩
    · cases hnext
    · cases hnext
      exact ⟨2, _, _, rfl, Nat.two_pos, Nat.le_of_not_lt hend, overwrites_appendC _ _⟩
    · cases hnext
      exact ⟨1, _, _, rfl, Nat.one_pos, hpos, overwrites_appendC _ _⟩
  · split_ifs at hnext
    · obtain ⟨data, hdata, hnext⟩ := value_bind_eq_ok hnext
      cases hnext
      exact ⟨1, _, _, rfl, Nat.one_pos, hpos, overwrites_processAddress hdata⟩
    · cases hnext
      exact ⟨1, _, _, rfl, Nat.one_pos, hpos, overwrites_appendC _ _⟩

theorem left_lt_of_reads (h : Reads ssl cb s s') : s'.left < s.left := by
  obtain ⟨n, mode, data, rfl, hn, hle, -⟩ := reads_cases h
  exact Nat.sub_lt (hn.trans_le hle) hn

/-- The block has kept its size, what has been kept ends at the reader or before it, and the bytes
from there on are those of the text. -/
structure Unread (text : List UInt8) (s : Reading κ) : Prop where
  size : s.data.buffer.length = text.length
  kept : s.data.length ≤ s.pos
  left : s.pos + s.left = text.length
  unread : s.data.buffer.drop s.pos = text.drop s.pos

theorem Unread.start (buffer : List UInt8) (user : κ) : Unread buffer (start buffer user) :=
  ⟨rfl, Nat.zero_le _, Nat.zero_add _, rfl⟩

-- The byte that is overwritten has been read.
theorem Unread.next (h : Unread text s) (hreads : Reads ssl cb s s') : Unread text s' := by
  obtain ⟨n, mode, data, rfl, hn, hle, hlength, hbuffer⟩ := reads_cases hreads
  have hsize := h.size
  have hkept := h.kept
  have hleft := h.left
  have hend : s.pos + n ≤ s.data.buffer.length := by omega
  have hrest : s.data.buffer.drop (s.pos + n) = text.drop (s.pos + n) := by
    rw [← List.drop_drop, h.unread, List.drop_drop]
  have hblock : data.buffer.length = s.data.buffer.length ∧
      data.buffer.drop (s.pos + n) = s.data.buffer.drop (s.pos + n) := by
    rcases hbuffer with hsame | ⟨i, ch, hi, hpatch⟩
    · rw [hsame]
      exact ⟨rfl, rfl⟩
    · have hread : i + [ch].length ≤ s.pos + n := by
        rw [List.length_singleton]
        omega
      rw [hpatch]
      exact ⟨length_patch (hread.trans hend), drop_patch hread hend⟩
  refine ⟨hblock.1.trans hsize, ?_, ?_, hblock.2.trans hrest⟩
  · show data.length ≤ s.pos + n
    omega
  · show s.pos + n + (s.left - n) = text.length
    omega

theorem unread_of_reaches {buffer : List UInt8} {user : κ} (h : Reaches ssl cb buffer user s) :
    Unread buffer s := by
  induction h with
  | refl => exact .start buffer user
  | tail _ hreads ih => exact ih.next hreads

end Unread

/-! ## 3. What a run of the callback leaves -/

section Ensures

variable {ssl : OpenSSL} {cb : AddressCallback ε ω κ} {before delivered : κ → List ω → Prop}
  {log : List ω} {data : ParseAddressesData κ}

theorem ensures_processAddress
    (hcb : ∀ user log address, before user log ∨ delivered user log →
      Ensures log (cb user address) delivered)
    (hdata : before data.cbUserData log ∨ delivered data.cbUserData log) :
    Ensures log (data.processAddress ssl cb) fun data log => delivered data.cbUserData log := by
  have htext : Ensures log (processAddressText ssl cb data.cbUserData
      (data.buffer.take data.length)) delivered := by
    unfold processAddressText
    dsimp only
    split_ifs
    · exact .fail _
    · exact .fail _
    · split
      · exact .fail _
      · exact (hcb _ _ _ hdata).mapError
  unfold ParseAddressesData.processAddress
  exact htext.bind fun user log huser => .pure huser

-- An address in brackets has been delivered.
theorem ensures_endAddress
    (hcb : ∀ user log address, before user log ∨ delivered user log →
      Ensures log (cb user address) delivered)
    (hdata : delivered data.cbUserData log ∨
      data.hadAddress = false ∧ before data.cbUserData log) :
    Ensures log (data.endAddress ssl cb) fun data log => delivered data.cbUserData log := by
  unfold ParseAddressesData.endAddress
  dsimp only
  split
  next hadAddress =>
    rcases hdata with hdelivered | ⟨hno, -⟩
    · exact Ensures.pure hdelivered
    · cases hadAddress.symm.trans hno
  next =>
    have hbefore := hdata.symm.imp_left And.right
    exact (ensures_processAddress hcb hbefore).bind fun data log hdata => .pure hdata

/-- What holds in a state: the address in the brackets that are read has not been delivered yet. -/
def SoFar (before delivered : κ → List ω → Prop) (s : Reading κ) (log : List ω) : Prop :=
  delivered s.data.cbUserData log ∨
    (s.mode = .brackets ∨ s.data.hadAddress = false) ∧ before s.data.cbUserData log

theorem SoFar.or {s : Reading κ} (h : SoFar before delivered s log) :
    before s.data.cbUserData log ∨ delivered s.data.cbUserData log :=
  h.symm.imp_left And.right

theorem SoFar.of_delivered_or {s : Reading κ} (h : delivered s.data.cbUserData log ∨
    s.data.hadAddress = false ∧ before s.data.cbUserData log) : SoFar before delivered s log :=
  h.imp_right (And.imp_left .inr)

theorem SoFar.delivered_or {s : Reading κ} (h : SoFar before delivered s log)
    (hmode : s.mode ≠ .brackets) : delivered s.data.cbUserData log ∨
      s.data.hadAddress = false ∧ before s.data.cbUserData log :=
  h.imp_right (And.imp_left (Or.resolve_left · hmode))

theorem ensures_next
    (hcb : ∀ user log address, before user log ∨ delivered user log →
      Ensures log (cb user address) delivered)
    {s : Reading κ} (hs : SoFar before delivered s log) :
    Ensures log (s.next ssl cb) (SoFar before delivered) := by
  unfold next
  dsimp only
  split
  next hmode =>
    have hnot : s.mode ≠ .brackets := by
      rw [hmode]
      decide
    have hdata := hs.delivered_or hnot
    split_ifs
    · exact (ensures_endAddress hcb hdata).bind fun data log hdelivered =>
        .pure (.inl hdelivered)
    · exact .pure (.of_delivered_or hdata)
    · exact .fail _
    · exact .pure (hs.imp_right (And.imp_left fun _ => .inl rfl))
    · exact .pure (.of_delivered_or hdata)
    · exact .pure (.of_delivered_or hdata)
  next hmode =>
    have hnot : s.mode ≠ .brackets := by
      rw [hmode]
      decide
    have hdata := hs.delivered_or hnot
    split_ifs
    · exact .pure (.of_delivered_or hdata)
    · exact .fail _
    · exact .pure (.of_delivered_or hdata)
    · exact .pure (.of_delivered_or hdata)
  next hmode =>
    split_ifs
    · exact (ensures_processAddress hcb hs.or).bind fun data log hdelivered =>
        .pure (.inl hdelivered)
    · exact .pure (hs.imp_right (And.imp_left fun _ => .inl rfl))

theorem ensures_resume
    (hcb : ∀ user log address, before user log ∨ delivered user log →
      Ensures log (cb user address) delivered)
    {s : Reading κ} (hs : SoFar before delivered s log) :
    Ensures log (s.resume ssl cb) fun data log => delivered data.cbUserData log := by
  induction hn : s.left using Nat.strong_induction_on generalizing s log with
  | _ n ih =>
    subst hn
    by_cases hleft : s.left = 0
    · obtain ⟨mode, data, pos, left⟩ := s
      cases hleft
      cases mode with
      | addresses =>
        rw [resume, ParseAddressesData.parseLoop]
        exact ensures_endAddress hcb (hs.delivered_or (by simp))
      | quotes => exact .fail _
      | brackets => exact .fail _
    · rw [resume_eq hleft]
      intro data hdata
      obtain ⟨s', hs', hresume⟩ := value_bind_eq_ok hdata
      have hless : s'.left < s.left := left_lt_of_reads ⟨hleft, hs'⟩
      rw [log_bind_of_ok hs', ← List.append_assoc]
      exact ih _ hless (ensures_next hcb hs s' hs') rfl data hresume

end Ensures

end Reading

/-- What a call of the callback leaves holds when the parser has succeeded. -/
theorem ensures_parseAddresses {ssl : OpenSSL} {cb : AddressCallback ε ω κ}
    {before delivered : κ → List ω → Prop} {log : List ω}
    (hcb : ∀ user log address, before user log ∨ delivered user log →
      Ensures log (cb user address) delivered)
    (buffer : List UInt8) {user : κ} (huser : before user log) :
    Ensures log (parseAddresses ssl cb buffer user) delivered := by
  have hstart : Reading.SoFar before delivered (Reading.start buffer user) log :=
    .inr ⟨.inr rfl, huser⟩
  exact (Reading.ensures_resume hcb hstart).bind fun data log hdata => .pure hdata

end Notbit.Mail
