import Notbit.Mail.Runs

/-!
# Accepted — the addresses of a mail that is accepted (`ntb-mail-parser.c`)

What the parser has reported is counted along every run: a source when there has been a From header,
and destinations when there has been one of the headers for them.
-/

open Bytes Streams Streams.Emits Traced Notbit.Proto

namespace Notbit.Mail

/-! ## 1. The addresses that have been reported -/

def MailEvent.isSource : MailEvent → Bool
  | .source _ => true
  | _ => false

def MailEvent.isDestination : MailEvent → Bool
  | .destination _ => true
  | _ => false

namespace MailParser

def hadDestination (parser : MailParser) : Bool := parser.hadTo || parser.hadCc || parser.hadBcc

theorem SameHeaders.hadDestination {parser' parser : MailParser} (h : SameHeaders parser' parser) :
    parser'.hadDestination = parser.hadDestination := by
  rw [MailParser.hadDestination, MailParser.hadDestination, h.hadTo, h.hadCc, h.hadBcc]

/-- What has been reported when the parser has got there. -/
structure Counted (parser : MailParser) (log : List MailEvent) : Prop where
  sources : log.countP MailEvent.isSource = parser.hadFrom.toNat
  destinations : parser.hadDestination = true → 0 < log.countP MailEvent.isDestination
  content : parser.state = .content → parser.hadFrom = true ∧ parser.hadDestination = true

variable {env : MailEnv} {parser parser' : MailParser} {log : List MailEvent}

theorem Counted.start : Counted {} [] := ⟨rfl, nofun, nofun⟩

-- Only four flags and the state matter.
theorem Counted.move (h : Counted parser log) (hfrom : parser'.hadFrom = parser.hadFrom)
    (hdestination : parser'.hadDestination = parser.hadDestination)
    (hstate : parser'.state = .content → parser.state = .content) : Counted parser' log := by
  refine ⟨?_, ?_, ?_⟩
  · rw [hfrom]
    exact h.sources
  · rw [hdestination]
    exact h.destinations
  · rw [hfrom, hdestination]
    exact fun hcontent => h.content (hstate hcontent)

-- Neither subjects nor contents are counted.
theorem Counted.tell (h : Counted parser log) {event : MailEvent}
    (hsource : event.isSource = false) : Counted parser (log ++ [event]) := by
  refine ⟨?_, fun hdestination => ?_, h.content⟩
  · rw [List.countP_append, List.countP_singleton, hsource]
    exact h.sources
  · rw [List.countP_append]
    exact (h.destinations hdestination).trans_le (Nat.le_add_right _ _)

/-! ## 2. The headers -/

theorem ensures_destinations (parser : MailParser) (log : List MailEvent) :
    Ensures log (parser.parseAddressesOf env destinationAddressCb) fun parser' log' =>
      parser' = parser ∧
      log'.countP MailEvent.isSource = log.countP MailEvent.isSource ∧
      0 < log'.countP MailEvent.isDestination := by
  unfold parseAddressesOf
  refine (@ensures_parseAddresses _ _ _ _ _ (fun user log' => user = parser ∧ log' = log) _ _
    ?_ _ _ ⟨rfl, rfl⟩).mapError
  intro user log' address hbefore
  obtain ⟨rfl, hsources⟩ : user = parser ∧
      log'.countP MailEvent.isSource = log.countP MailEvent.isSource := by
    rcases hbefore with ⟨hparser, rfl⟩ | ⟨hparser, hsources, -⟩
    · exact ⟨hparser, rfl⟩
    · exact ⟨hparser, hsources⟩
  refine .tell_bind (.pure ⟨rfl, ?_, ?_⟩)
  · rw [List.countP_append, hsources]
    rfl
  · rw [List.countP_append]
    exact Nat.succ_pos _

-- One of the flags is set before the addresses are read.
theorem Counted.destinations_of (h : Counted parser log) (hfrom : parser'.hadFrom = parser.hadFrom)
    (hstate : parser'.state = .content → parser.state = .content)
    (hdestination : parser'.hadDestination = true) :
    Ensures log (parser'.parseAddressesOf env destinationAddressCb) Counted := by
  refine (ensures_destinations parser' log).mono ?_
  rintro _ log' ⟨rfl, hsources, hpos⟩
  refine ⟨?_, fun _ => hpos, fun hcontent => ?_⟩
  · rw [hsources, hfrom]
    exact h.sources
  · obtain ⟨hfrom', -⟩ := h.content (hstate hcontent)
    exact ⟨hfrom.trans hfrom', hdestination⟩

theorem Counted.from (h : Counted parser log) :
    Ensures log (parser.handleFrom env) Counted := by
  unfold handleFrom parseAddressesOf
  refine (@ensures_parseAddresses _ _ _ _ _ Counted Counted _ ?_ _ _ h).mapError
  intro user log' address hbefore
  have hcounted := or_self_iff.mp hbefore
  unfold fromAddressCb
  split
  next => exact .fail _
  next hfrom =>
    have hfrom' : user.hadFrom = false := Bool.eq_false_of_not_eq_true hfrom
    refine .tell_bind (.pure ⟨?_, fun hdestination => ?_, fun hcontent => ?_⟩)
    · rw [List.countP_append, hcounted.sources, hfrom']
      rfl
    · rw [List.countP_append]
      exact (hcounted.destinations hdestination).trans_le (Nat.le_add_right _ _)
    · exact absurd (hcounted.content hcontent).1 hfrom

-- A header for the content leaves what is counted.
theorem Counted.same {parser' : MailParser} {log' : List MailEvent} (h : Counted parser log)
    (hsame : SameHeaders parser' parser ∧ parser'.state = parser.state ∧ log' = log) :
    Counted parser' log' := by
  obtain ⟨hheaders, hstate, rfl⟩ := hsame
  exact h.move hheaders.hadFrom hheaders.hadDestination fun hcontent => hstate ▸ hcontent

theorem Counted.subject (h : Counted parser log) : Ensures log parser.handleSubject Counted := by
  unfold handleSubject
  split
  next => exact .fail _
  next =>
    split
    next => exact .fail _
    next => exact .tell_bind (.pure ((h.tell rfl).move rfl rfl id))

theorem Counted.headerEnd (h : Counted parser log) :
    Ensures log (parser.handleHeaderEnd env) Counted := by
  unfold handleHeaderEnd
  dsimp only
  have htrimmed : Counted (if parser.buffer.getLast? = some 32 then
      { parser with buffer := parser.buffer.dropLast } else parser) log := by
    split
    · exact h.move rfl rfl id
    · exact h
  generalize (if parser.buffer.getLast? = some 32 then
    { parser with buffer := parser.buffer.dropLast } else parser) = parser at htrimmed ⊢
  cases parser.currentHeader with
  | skip => exact .pure htrimmed
  | «to» =>
    show Ensures log (parser.handleTo env) Counted
    unfold handleTo
    split
    next => exact .fail _
    next => exact htrimmed.destinations_of rfl id rfl
  | cc =>
    show Ensures log (parser.handleCc env) Counted
    unfold handleCc
    split
    next => exact .fail _
    next => exact htrimmed.destinations_of rfl id (by simp [hadDestination])
  | bcc =>
    show Ensures log (parser.handleBcc env) Counted
    unfold handleBcc
    split
    next => exact .fail _
    next => exact htrimmed.destinations_of rfl id (by simp [hadDestination])
  | «from» => exact htrimmed.from
  | subject => exact htrimmed.subject
  | contentType => exact (ensures_contentType parser log).mono fun _ _ => htrimmed.same
  | transferEncoding => exact (ensures_transferEncoding parser log).mono fun _ _ => htrimmed.same

/-- The content comes when there have been the headers that have to be there. -/
theorem Counted.headersEnd (h : Counted parser log) :
    Ensures log parser.handleHeadersEnd Counted := by
  unfold handleHeadersEnd
  dsimp only
  split_ifs with hfrom hdestination
  · exact .fail _
  · exact .fail _
  · have hcontent : parser.hadFrom = true ∧ parser.hadDestination = true := by
      rw [hadDestination]
      grind
    have hcounted : ∀ next : MailParser, next.hadFrom = parser.hadFrom →
        next.hadDestination = parser.hadDestination → Counted next log := by
      intro next hnext hnext'
      refine ⟨?_, ?_, fun _ => ?_⟩
      · rw [hnext]
        exact h.sources
      · rw [hnext']
        exact h.destinations
      · rw [hnext, hnext']
        exact hcontent
    cases parser.encoding with
    | raw => exact .pure (hcounted _ rfl rfl)
    | base64 => exact .pure (hcounted _ rfl rfl)
    | quotedPrintable => exact .pure (hcounted _ rfl rfl)

/-! ## 3. Whole mails -/

theorem counted_invariant (env : MailEnv) : Invariant env Counted where
  move h hheaders hstate := h.move hheaders.hadFrom hheaders.hadDestination hstate.mp
  headerEnd h _ := h.headerEnd
  headersEnd h _ := h.headersEnd
  content _ h _ := h.tell rfl

end MailParser

theorem ensures_finish {parser : MailParser} {log : List MailEvent} (h : parser.Counted log) :
    Ensures log parser.finish fun _ log =>
      log.countP MailEvent.isSource = 1 ∧ 0 < log.countP MailEvent.isDestination := by
  unfold MailParser.finish
  split
  next => exact .fail _
  next hstate =>
    obtain ⟨hfrom, hdestination⟩ := h.content (not_not.mp hstate)
    have hsources := h.sources
    rw [hfrom] at hsources
    have hdestinations := h.destinations hdestination
    split
    next =>
      split
      next => exact .fail _
      next =>
        refine .tell ⟨?_, ?_⟩
        · rw [List.countP_append, hsources]
          rfl
        · rw [List.countP_append]
          exact hdestinations.trans_le (Nat.le_add_right _ _)
    next =>
      split
      next => exact .pure ⟨hsources, hdestinations⟩
      next => exact .fail _
    next => exact .pure ⟨hsources, hdestinations⟩

/-- What is emitted are the addresses that the callback is given. -/
def delivers {ε κ : Type} (cb : κ → Address → Except ε κ) : AddressCallback ε Address κ :=
  fun user address => (cb user address, [address])

theorem delivers_ne_nil {ε κ : Type} {ssl : OpenSSL} {cb : κ → Address → Except ε κ}
    {buffer : List UInt8} {user user' : κ}
    (h : (parseAddresses ssl (delivers cb) buffer user).value = .ok user') :
    (parseAddresses ssl (delivers cb) buffer user).log ≠ [] := by
  have hcb : ∀ (user : κ) (log : List Address) address, True ∨ log ≠ [] →
      Ensures log (delivers cb user address) fun _ log => log ≠ [] := by
    intro user log address _ user' _ hnil
    exact absurd hnil (List.append_ne_nil_of_right_ne_nil _ (List.cons_ne_nil _ _))
  have hlog := @ensures_parseAddresses _ _ _ ssl _ (fun _ _ => True) _ [] hcb buffer user trivial
    user' h
  rwa [List.nil_append] at hlog

/-- The buffer of `ntb_parse_addresses` can hold the list and the address at once: the result is
that with two lists, and on the way, byte by byte, nothing that is still to be read is overwritten
and the block keeps its size.  When it succeeds it has delivered an address, so that a mail that is
accepted has a single source and some destination. -/
theorem parseAddresses_inPlace {ε ω κ : Type} (ssl : OpenSSL) (cb : AddressCallback ε ω κ)
    (buffer : List UInt8) (user : κ) :
    parseAddresses ssl cb buffer user =
      (({ cbUserData := user } : ScratchData κ).parseLoop ssl cb buffer >>= fun data =>
        pure data.cbUserData) ∧
    (∀ s, Reading.Reaches ssl cb buffer user s → Reading.Unread buffer s ∧
      (s.left ≠ 0 → s.resume ssl cb = s.next ssl cb >>= Reading.resume ssl cb)) ∧
    (∀ (cb : κ → Address → Except ε κ) user',
      (parseAddresses ssl (delivers cb) buffer user).value = .ok user' →
      (parseAddresses ssl (delivers cb) buffer user).log ≠ []) ∧
    ∀ env chunks, (parseMail env chunks).value = .ok () →
      (parseMail env chunks).log.countP MailEvent.isSource = 1 ∧
      0 < (parseMail env chunks).log.countP MailEvent.isDestination := by
  refine ⟨parseAddresses_eq ssl cb buffer user,
    fun s hs => ⟨Reading.unread_of_reaches hs, Reading.resume_eq⟩,
    fun cb user' => delivers_ne_nil, fun env chunks h => ?_⟩
  have hmail : Ensures [] (parseMail env chunks) _ :=
    ((MailParser.counted_invariant env).chunks .start chunks).bind
      fun parser log hparser => ensures_finish hparser
  exact hmail () h

end Notbit.Mail
