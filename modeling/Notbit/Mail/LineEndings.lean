import Notbit.Mail.Headers

/-!
# LineEndings — mails whose lines end in CRLF (`ntb-mail-parser.c`)

A carriage return before the end of a line is skipped in the value of a header, but not on the blank
line behind the headers, where it is taken for the start of a name.
-/

open Bytes Streams Streams.Emits Traced Notbit.Proto

namespace Notbit.Mail

/-! ## 1. The lines of the headers -/

/-- A mail with CRLF at the ends of the lines of its headers, up to and with the blank one; `start`
is set at the start of a line. -/
def crlfHeaders (start : Bool) : List UInt8 → List UInt8
  | [] => []
  | ch :: data =>
    if ch = 10 then 13 :: 10 :: if start then data else crlfHeaders true data
    else ch :: crlfHeaders false data

example : crlfHeaders true (ascii "To: x\nCc: y\n\nz\n") = ascii "To: x\r\nCc: y\r\n\r\nz\n" := by
  decide

namespace MailParser

variable {env : MailEnv} {parser parser' : MailParser} {ch : UInt8}

/-- Where a parser stands in a line of the headers; at the start of a line only a fresh one has no
header to look at. -/
def StandsAt (parser : MailParser) (start : Bool) : Prop :=
  match parser.state with
  | .headerName => if start then parser.buffer = [] ∧ parser.hadFrom = false else parser.buffer ≠ []
  | .headerValueStart | .headerValue | .checkEol => start = false
  | .checkContinuation => start = true
  | .content => False

theorem standsAt_of_name (h : (parser.nameByte env ch).value = .ok parser') (hch : ch ≠ 10)
    (hstate : parser.state = .headerName) : parser'.StandsAt false := by
  unfold nameByte handleNameEnd at h
  rw [if_neg hch] at h
  split_ifs at h
  · cases h
    rfl
  · cases h
    unfold StandsAt
    simp [hstate]

theorem standsAt_of_value (h : (parser.valueByte ch).value = .ok parser') (hch : ch ≠ 10)
    (hstate : parser.state = .headerValue) : parser'.StandsAt false := by
  unfold valueByte at h
  rw [if_neg hch] at h
  split_ifs at h
  · cases h
    have hspace : parser.addSpace.state = .headerValue := by
      unfold addSpace
      split <;> exact hstate
    unfold StandsAt
    rw [hspace]
  · cases h
  · cases h
    rfl
  · cases h
    unfold StandsAt
    simp only [hstate]

/-- A byte that does not end the line leads on in it. -/
theorem StandsAt.byte {start : Bool} (h : parser.StandsAt start)
    (hbyte : (parser.byte env ch).value = .ok parser') (hch : ch ≠ 10) :
    parser'.StandsAt false := by
  unfold StandsAt at h
  cases hstate : parser.state with
  | headerName =>
    rw [byte_headerName hstate] at hbyte
    exact standsAt_of_name hbyte hch hstate
  | headerValueStart =>
    rw [byte_headerValueStart hstate] at hbyte
    split at hbyte
    · cases hbyte
      unfold StandsAt
      rw [hstate]
    · exact standsAt_of_value hbyte hch rfl
  | headerValue =>
    rw [byte_headerValue hstate] at hbyte
    exact standsAt_of_value hbyte hch hstate
  | checkEol =>
    unfold MailParser.byte at hbyte
    rw [hstate] at hbyte
    dsimp only at hbyte
    rw [handleCheckEol, if_pos hch] at hbyte
    cases hbyte
  | checkContinuation =>
    unfold MailParser.byte at hbyte
    rw [hstate] at hbyte
    dsimp only at hbyte
    obtain ⟨next, hnext, hbyte⟩ := value_bind_eq_ok hbyte
    unfold handleCheckContinuation at hnext
    split at hnext
    next hlwsp =>
      cases hnext
      rw [if_pos hlwsp] at hbyte
      exact standsAt_of_value hbyte hch rfl
    next hlwsp =>
      obtain ⟨_, -, hnext⟩ := value_bind_eq_ok hnext
      cases hnext
      rw [if_neg hlwsp] at hbyte
      exact standsAt_of_name hbyte hch rfl
  | content =>
    rw [hstate] at h
    exact h.elim

/-- The rest of a mail, byte by byte. -/
def restBytes (env : MailEnv) (parser : MailParser) (data : List UInt8) : MailResult Unit :=
  data.foldlM (byte env) parser >>= finish

theorem restBytes_cons (ch : UInt8) (data : List UInt8) :
    parser.restBytes env (ch :: data) =
      parser.byte env ch >>= fun parser => parser.restBytes env data := by
  rw [restBytes, List.foldlM_cons, bind_assoc]
  rfl

-- On the blank line the carriage return starts a name, and the name is not at its end.
theorem restBytes_blank (hstate : parser.state = .checkContinuation) (data : List UInt8) :
    (parser.restBytes env (13 :: 10 :: data)).value ≠ .ok () := by
  intro h
  rw [restBytes_cons, byte_checkContinuation hstate] at h
  obtain ⟨named, hnamed, h⟩ := value_bind_eq_ok h
  obtain ⟨next, hnext, hnamed⟩ := value_bind_eq_ok hnamed
  rw [handleCheckContinuation, if_neg (by decide)] at hnext
  obtain ⟨_, -, hnext⟩ := value_bind_eq_ok hnext
  cases hnext
  rw [byte_headerName rfl] at hnamed
  cases hnamed
  rw [restBytes_cons, byte_headerName rfl] at h
  cases h

/-- A carriage return before the end of a value's line changes nothing. -/
theorem restBytes_crlf_value (hstate : parser.state = .headerValueStart ∨ parser.state = .headerValue)
    (data : List UInt8) :
    ∃ parser' : MailParser, parser'.StandsAt true ∧
      (∀ data, parser.restBytes env (10 :: data) = parser'.restBytes env data) ∧
      parser.restBytes env (13 :: 10 :: data) = parser'.restBytes env data := by
  have hend : ∀ p : MailParser, p.state = .checkEol →
      p.byte env 10 = pure { p with state := .checkContinuation } := by
    intro p hp
    unfold MailParser.byte
    rw [hp]
    rfl
  rcases hstate with hstate | hstate
  · refine ⟨{ parser.startValue with state := .checkContinuation }, rfl, fun data => ?_, ?_⟩
    · rw [restBytes_cons, byte_headerValueStart hstate]
      rfl
    · rw [restBytes_cons, byte_headerValueStart hstate]
      show ({ parser.startValue with state := .checkEol } : MailParser).restBytes env (10 :: data) = _
      rw [restBytes_cons, hend _ rfl]
      rfl
  · refine ⟨{ parser with state := .checkContinuation }, rfl, fun data => ?_, ?_⟩
    · rw [restBytes_cons, byte_headerValue hstate]
      rfl
    · rw [restBytes_cons, byte_headerValue hstate]
      show ({ parser with state := .checkEol } : MailParser).restBytes env (10 :: data) = _
      rw [restBytes_cons, hend _ rfl]
      rfl

theorem StandsAt.restBytes_crlf {start : Bool} {data : List UInt8} (h : parser.StandsAt start)
    (hok : (parser.restBytes env data).value = .ok ()) :
    (parser.restBytes env (crlfHeaders start data)).value ≠ .ok () := by
  induction data generalizing parser start with
  | nil =>
    have hstate : parser.state ≠ .content := by
      intro hstate
      unfold StandsAt at h
      rw [hstate] at h
      exact h
    change parser.finish.value = .ok () at hok
    rw [finish, if_pos hstate] at hok
    cases hok
  | cons ch data ih =>
    by_cases hch : ch = 10
    · subst hch
      rw [crlfHeaders, if_pos rfl]
      have hvalue : parser.state = .headerValueStart ∨ parser.state = .headerValue →
          (parser.restBytes env (13 :: 10 :: crlfHeaders true data)).value ≠ .ok () := by
        intro hstate
        obtain ⟨parser', hstands, hlf, hcrlf⟩ :=
          @restBytes_crlf_value env parser hstate (crlfHeaders true data)
        rw [hlf] at hok
        exact hcrlf ▸ ih hstands hok
      unfold StandsAt at h
      cases hstate : parser.state with
      | headerName =>
        rw [restBytes_cons, byte_headerName hstate, nameByte, if_pos (.inl rfl), handleNameEnd,
          if_pos rfl, endOfLineInName] at hok
        rw [hstate] at h
        dsimp only at h
        split at h
        · rw [if_pos h.1, handleHeadersEnd, h.2, Bool.not_false, if_pos rfl] at hok
          cases hok
        · rw [if_neg h] at hok
          cases hok
      | headerValueStart =>
        rw [hstate] at h
        subst h
        exact hvalue (.inl hstate)
      | headerValue =>
        rw [hstate] at h
        subst h
        exact hvalue (.inr hstate)
      | checkEol =>
        intro hcrlf
        rw [restBytes_cons] at hcrlf
        obtain ⟨_, hbyte, -⟩ := value_bind_eq_ok hcrlf
        unfold MailParser.byte at hbyte
        rw [hstate] at hbyte
        cases hbyte
      | checkContinuation => exact restBytes_blank hstate _
      | content =>
        rw [hstate] at h
        exact h.elim
    · rw [crlfHeaders, if_neg hch]
      intro hcrlf
      rw [restBytes_cons] at hok hcrlf
      obtain ⟨parser', hbyte, hok⟩ := value_bind_eq_ok hok
      rw [value_bind_of_ok hbyte] at hcrlf
      exact ih (h.byte hbyte hch) hok hcrlf

end MailParser

/-! ## 2. Mails -/

-- A parser that has accepted a mail has not written outside of a buffer.
theorem parseBytes_of_accepted {env : MailEnv} {chunks : List (List UInt8)}
    (h : (parseMail env chunks).value = .ok ()) :
    (parseBytes env chunks.flatten).value = .ok () := by
  rcases parseMail_alike env chunks with hover | halike
  · cases hover.symm.trans h
  · exact halike.value.symm.trans h

-- The smallest mail with the two headers that must be there.
theorem parseMail_addressFields {env : MailEnv} {a : Address} (hversion : 1 ≤ a.version) :
    (parseMail env [MailParser.addressFields env.ssl a ++ [10]]).value = .ok () := by
  rw [parseMail, List.foldlM_cons, MailParser.parse, MailParser.drain_eq_readAll,
    MailParser.readAll_addressFields hversion (by decide)]
  rfl

theorem parseBytes_crlf {env : MailEnv} {mail : List UInt8}
    (h : (parseBytes env mail).value = .ok ()) :
    (parseBytes env (crlfHeaders true mail)).value ≠ .ok () := by
  have hstart : ({} : MailParser).StandsAt true := ⟨rfl, rfl⟩
  exact hstart.restBytes_crlf h

/-- Of a mail that is accepted the same mail with CRLF at the ends of the lines of its headers is
not accepted, whatever chunks the one and the other come in. -/
theorem crlf_not_accepted (env : MailEnv) {chunks crlf : List (List UInt8)}
    (h : (parseMail env chunks).value = .ok ())
    (hcrlf : crlf.flatten = crlfHeaders true chunks.flatten) :
    (parseMail env crlf).value ≠ .ok () := by
  intro hok
  have hbytes := parseBytes_of_accepted hok
  rw [hcrlf] at hbytes
  exact parseBytes_crlf (parseBytes_of_accepted h) hbytes

-- A mail with two headers and no content.
theorem crlf_addressFields_not_accepted :
    (parseMail zeroEnv [crlfHeaders true (MailParser.addressFields zeroEnv.ssl zeroAddress ++
      [10])]).value ≠ .ok () :=
  crlf_not_accepted zeroEnv (@parseMail_addressFields zeroEnv zeroAddress (by decide))
    (by rw [List.flatten_singleton, List.flatten_singleton])

/-- A mail that is accepted with LF and not with CRLF. -/
theorem lf_accepted_crlf_not :
    let mail := MailParser.addressFields zeroEnv.ssl zeroAddress ++ [10]
    (parseMail zeroEnv [mail]).value = .ok () ∧
      (parseMail zeroEnv [crlfHeaders true mail]).value ≠ .ok () := by
  intro mail
  have hmail : (parseMail zeroEnv [mail]).value = .ok () := parseMail_addressFields (by decide)
  refine ⟨hmail, fun hok => ?_⟩
  have hbytes := parseBytes_of_accepted hok
  rw [List.flatten_singleton] at hbytes
  have hlf := parseBytes_of_accepted hmail
  rw [List.flatten_singleton] at hlf
  exact parseBytes_crlf hlf hbytes

end Notbit.Mail
