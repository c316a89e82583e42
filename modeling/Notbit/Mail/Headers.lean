import Notbit.Mail.Chunks

/-!
# Headers — what the parser keeps of a header

The value of a header is kept without the ends of its lines and with single spaces for blanks.  It
is looked at when the first byte of the next line has come.
-/

open Bytes Streams Streams.Emits Traced Notbit.Proto

namespace Notbit.Mail

/-! ## 1. Values -/

/-- The bytes that do not end a line. -/
def IsValueByte (ch : UInt8) : Prop := ch ≠ 0 ∧ ch ≠ 13 ∧ ch ≠ 10

instance (ch : UInt8) : Decidable (IsValueByte ch) := inferInstanceAs (Decidable (_ ∧ _ ∧ _))

/-- What a byte of a value adds to the buffer. -/
def pushValue (buffer : List UInt8) (ch : UInt8) : List UInt8 :=
  if asciiIsLwsp ch then
    if buffer = [] ∨ buffer.getLast? ≠ some 32 then buffer ++ [32] else buffer
  else buffer ++ [ch]

/-- The text of a value on several lines: every line but the first starts with a blank. -/
inductive Folded : List UInt8 → Prop
  | nil : Folded []
  | byte {ch : UInt8} {text : List UInt8} : IsValueByte ch → Folded text → Folded (ch :: text)
  | line {ch : UInt8} {text : List UInt8} :
      asciiIsLwsp ch = true → Folded (ch :: text) → Folded (10 :: ch :: text)

theorem Folded.of_bytes {text : List UInt8} (h : ∀ ch ∈ text, IsValueByte ch) : Folded text := by
  induction text with
  | nil => exact .nil
  | cons ch text ih =>
    rw [List.forall_mem_cons] at h
    exact .byte h.1 (ih h.2)

theorem Folded.append {text more : List UInt8} (h : Folded text) (hmore : Folded more) :
    Folded (text ++ more) := by
  induction h with
  | nil => exact hmore
  | byte hch _ ih => exact .byte hch ih
  | line hlwsp _ ih => exact .line hlwsp ih

/-- What is kept of a value. -/
def unfolded (text : List UInt8) : List UInt8 := (text.filter (· ≠ 10)).foldl pushValue []

theorem foldl_pushValue {text : List UInt8} (h : ∀ ch ∈ text, ¬ asciiIsLwsp ch = true)
    (buffer : List UInt8) : text.foldl pushValue buffer = buffer ++ text := by
  induction text generalizing buffer with
  | nil => rw [List.foldl_nil, List.append_nil]
  | cons ch text ih =>
    rw [List.forall_mem_cons] at h
    rw [List.foldl_cons, pushValue, if_neg h.1, ih h.2, List.append_assoc, List.singleton_append]

theorem unfolded_eq_self {text : List UInt8} (h : ∀ ch ∈ text, ¬ asciiIsLwsp ch = true ∧ ch ≠ 10) :
    unfolded text = text := by
  have hfilter : text.filter (· ≠ 10) = text := by
    rw [List.filter_eq_self]
    exact fun ch hch => decide_eq_true (h ch hch).2
  rw [unfolded, hfilter, foldl_pushValue fun ch hch => (h ch hch).1, List.nil_append]

namespace MailParser

variable {env : MailEnv} {parser : MailParser} {room : Nat} {text : List UInt8}

theorem valueByte_eq {ch : UInt8} (h : IsValueByte ch) :
    parser.valueByte ch = pure { parser with buffer := pushValue parser.buffer ch } := by
  unfold valueByte pushValue
  split
  · unfold addSpace
    split <;> rfl
  · rw [if_neg h.1, if_neg h.2.1, if_neg h.2.2]

theorem readAll_value (h : Folded text) (hstate : parser.state = .headerValue)
    (data : List UInt8) :
    parser.readAll env room (text ++ data) =
      ({ parser with
        buffer := (text.filter (· ≠ 10)).foldl pushValue parser.buffer } :
          MailParser).readAll env room data := by
  induction h generalizing parser with
  | nil => rfl
  | @byte ch text hch _ ih =>
    have hne : parser.state ≠ .content := by rw [hstate]; decide
    rw [List.cons_append, readAll_cons hne, byte_headerValue hstate, valueByte_eq hch, pure_bind,
      List.filter_cons_of_pos (by simpa using hch.2.2), List.foldl_cons]
    exact @ih { parser with buffer := pushValue parser.buffer ch } hstate
  | @line ch text hlwsp _ ih =>
    -- the end of the line and the blank lead back to the same state
    have hne : parser.state ≠ .content := by rw [hstate]; decide
    have heol : parser.valueByte 10 = pure { parser with state := .checkContinuation } := rfl
    have hback : ({ parser with state := .checkContinuation } : MailParser).handleCheckContinuation
        env ch = pure parser := by
      rw [handleCheckContinuation, if_pos hlwsp]
      simp only [← hstate]
    rw [List.cons_append, readAll_cons hne, byte_headerValue hstate, heol, pure_bind,
      List.cons_append, readAll_cons (by nofun), byte_checkContinuation rfl, hback, pure_bind,
      ← readAll_cons hne, ← List.cons_append, ih hstate]
    rfl

/-- A header's name, the blanks behind the colon and its value, with the end of the last line. -/
def field (name spaces text : List UInt8) : List UInt8 := name ++ 58 :: spaces ++ text ++ [10]

theorem readAll_field {name spaces : List UInt8} {ch : UInt8} (hstate : parser.state = .headerName)
    (hbuffer : parser.buffer = []) (hname : ∀ ch ∈ name, ¬ (ch = 10 ∨ ch = 58))
    (hspaces : ∀ ch ∈ spaces, asciiIsLwsp ch = true) (hfirst : ¬ asciiIsLwsp ch = true)
    (htext : Folded (ch :: text)) (data : List UInt8) :
    parser.readAll env room (field name spaces (ch :: text) ++ data) =
      ({ parser with
        state := .checkContinuation
        currentHeader := headerNamed env name
        buffer := unfolded (ch :: text) } : MailParser).readAll env room data := by
  have hne : parser.state ≠ .content := by rw [hstate]; decide
  have hvalue : MailParserState.headerValue ≠ .content := by decide
  have hcolon : ({ parser with buffer := parser.buffer ++ name } : MailParser).byte env 58 =
      pure { parser with
        state := .headerValueStart, currentHeader := headerNamed env name, buffer := name } := by
    refine (byte_headerName (by exact hstate) 58).trans ?_
    rw [nameByte, if_pos (.inr rfl), handleNameEnd, if_neg (by decide), hbuffer]
    rfl
  have hend : ∀ p : MailParser, p.state = .headerValue →
      p.byte env 10 = pure { p with state := .checkContinuation } := by
    intro p hp
    rw [byte_headerValue hp]
    rfl
  rw [field, List.append_assoc, List.append_assoc, List.append_assoc, List.cons_append,
    readAll_name hstate hname, readAll_cons (by exact hne), hcolon, pure_bind,
    readAll_spaces rfl hspaces, List.cons_append, readAll_startValue rfl hfirst, ← List.cons_append,
    readAll_value htext rfl, List.singleton_append, readAll_cons (by exact hvalue), hend _ rfl, pure_bind]
  rfl

-- A header is looked at when the next line starts without a blank.
theorem readAll_next {ch : UInt8} (hstate : parser.state = .checkContinuation)
    (hlwsp : ¬ asciiIsLwsp ch = true) (data : List UInt8) :
    parser.readAll env room (ch :: data) = parser.handleHeaderEnd env >>= fun parser' =>
      ({ parser' with buffer := [], state := .headerName } : MailParser).readAll env room
        (ch :: data) := by
  rw [readAll_cons (by rw [hstate]; decide), byte_checkContinuation hstate,
    handleCheckContinuation, if_neg hlwsp, bind_assoc, bind_assoc]
  refine bind_congr_of fun parser' _ => ?_
  rw [pure_bind, readAll_cons (by nofun)]

/-! ## 2. Mails from an address to itself -/

theorem mailbox_folded (ssl : OpenSSL) (a : Address) :
    (∀ ch ∈ mailbox ssl a, ¬ asciiIsLwsp ch = true ∧ ch ≠ 10) ∧ Folded (mailbox ssl a) := by
  have hall : ∀ ch ∈ addressChars ++ ascii "@bitmessage",
      (¬ asciiIsLwsp ch = true ∧ ch ≠ 10) ∧ IsValueByte ch :=
    List.all_iff_forall_prop.mp rfl
  exact ⟨fun ch hch => (hall ch (mem_mailbox hch)).1,
    Folded.of_bytes fun ch hch => (hall ch (mem_mailbox hch)).2⟩

section AddressFields

variable {a : Address}

-- Nothing is stripped from the end of an address.
theorem getLast_mailbox (ssl : OpenSSL) (a : Address) :
    (mailbox ssl a).getLast? = some 101 := by
  rw [mailbox, List.getLast?_append]
  rfl

theorem handleHeaderEnd_from (hversion : 1 ≤ a.version) (hheader : parser.currentHeader = .from)
    (hbuffer : parser.buffer = mailbox env.ssl a) (hfrom : parser.hadFrom = false) :
    parser.handleHeaderEnd env =
      (Emits.tell [.source a] >>= fun _ => pure { parser with hadFrom := true }) := by
  have hlast : ¬ parser.buffer.getLast? = some 32 := by
    rw [hbuffer, getLast_mailbox]
    decide
  have hhandler : parser.handleHeaderEnd env = parser.handleFrom env := by
    simp only [handleHeaderEnd, if_neg hlast, hheader]
  have hparse : parseAddresses env.ssl fromAddressCb parser.buffer parser =
      (fromAddressCb parser a).mapError .callback := hbuffer ▸ parseAddresses_mailbox hversion
  rw [hhandler, handleFrom, parseAddressesOf, hparse, fromAddressCb,
    if_neg (by rw [hfrom]; decide)]
  rfl

theorem handleHeaderEnd_to (hversion : 1 ≤ a.version) (hheader : parser.currentHeader = .to)
    (hbuffer : parser.buffer = mailbox env.ssl a) (hto : parser.hadTo = false) :
    parser.handleHeaderEnd env =
      (Emits.tell [.destination a] >>= fun _ => pure { parser with hadTo := true }) := by
  have hlast : ¬ parser.buffer.getLast? = some 32 := by
    rw [hbuffer, getLast_mailbox]
    decide
  have hhandler : parser.handleHeaderEnd env = parser.handleTo env := by
    simp only [handleHeaderEnd, if_neg hlast, hheader]
  have hparse : ∀ p : MailParser, parseAddresses env.ssl destinationAddressCb parser.buffer p =
      (destinationAddressCb p a).mapError .callback :=
    fun _ => hbuffer ▸ parseAddresses_mailbox hversion
  rw [hhandler, handleTo, if_neg (by rw [hto]; decide), parseAddressesOf, hparse]
  rfl

/-- The headers of a mail from an address to itself. -/
def addressFields (ssl : OpenSSL) (a : Address) : List UInt8 :=
  field (ascii "From") [] (mailbox ssl a) ++ field (ascii "To") [] (mailbox ssl a)

theorem readAll_mailbox (hstate : parser.state = .headerName) (hbuffer : parser.buffer = [])
    {name : List UInt8} (hname : ∀ ch ∈ name, ¬ (ch = 10 ∨ ch = 58)) (data : List UInt8) :
    parser.readAll env room (field name [] (mailbox env.ssl a) ++ data) =
      ({ parser with
        state := .checkContinuation
        currentHeader := headerNamed env name
        buffer := mailbox env.ssl a } : MailParser).readAll env room data := by
  obtain ⟨hchars, hfolded⟩ := mailbox_folded env.ssl a
  have hself := unfolded_eq_self hchars
  obtain ⟨ch, text, hcons⟩ : ∃ ch text, mailbox env.ssl a = ch :: text :=
    ⟨66, _, rfl⟩
  have hspaces : ∀ ch ∈ ([] : List UInt8), asciiIsLwsp ch = true := nofun
  rw [hcons] at hchars hfolded hself ⊢
  rw [readAll_field hstate hbuffer hname hspaces (hchars ch List.mem_cons_self).1 hfolded, hself]

-- The rest of the mail is read by a parser that has had both addresses.
theorem readAll_addressFields (hversion : 1 ≤ a.version) {ch : UInt8}
    (hlwsp : ¬ asciiIsLwsp ch = true) (data : List UInt8) :
    ({} : MailParser).readAll env room (addressFields env.ssl a ++ ch :: data) =
      (Emits.tell [.source a, .destination a] >>= fun _ =>
        ({ hadFrom := true, hadTo := true, currentHeader := .to } : MailParser).readAll env room
          (ch :: data)) := by
  have hfrom : headerNamed env (ascii "From") = .from := rfl
  have hto : headerNamed env (ascii "To") = .to := rfl
  have hfromChars : ∀ ch ∈ ascii "From", ¬ (ch = 10 ∨ ch = 58) := List.all_iff_forall_prop.mp rfl
  have htoChars : ∀ ch ∈ ascii "To", ¬ (ch = 10 ∨ ch = 58) := List.all_iff_forall_prop.mp rfl
  have htoField : ∃ text, field (ascii "To") [] (mailbox env.ssl a) ++ ch :: data = 84 :: text :=
    ⟨_, rfl⟩
  obtain ⟨text, htext⟩ := htoField
  rw [addressFields, List.append_assoc, readAll_mailbox rfl rfl hfromChars, hfrom, htext,
    readAll_next rfl (by decide), ← htext, handleHeaderEnd_from hversion rfl rfl rfl, bind_assoc,
    pure_bind, readAll_mailbox rfl rfl htoChars, hto, readAll_next rfl hlwsp,
    handleHeaderEnd_to hversion rfl rfl rfl, bind_assoc, pure_bind]
  rfl

end AddressFields

end MailParser

/-- An address, for examples. -/
def zeroAddress : Address where
  version := 4
  stream := 1
  ripe := List.replicate 20 0
  version_lt := Address.four_lt
  stream_lt := Address.one_lt
  length_ripe := Address.length_zeroRipe

/-- Libraries and a memory with zeroes, for examples. -/
def zeroEnv : MailEnv where
  ssl := .additive
  behind := fun _ _ => 0

end Notbit.Mail
