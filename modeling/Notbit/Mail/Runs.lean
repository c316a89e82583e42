import Notbit.Mail.AddressesInPlace

/-!
# Runs — what the mail parser keeps along a run (`ntb-mail-parser.c`)

What is said of the parser and of its reports mostly depends on which headers there have been and on
whether the content has been reached.  It holds after every mail if it is kept by the end of a
header, by the end of the headers and by a piece of the content.
-/

open Bytes Streams Streams.Emits Traced Notbit.Proto

namespace Notbit.Mail

/-! ## 1. Functions that report nothing themselves -/

theorem ensures_contentTypeAttributes {ε ω : Type} {inv : List ω → Prop} {log : List ω}
    {attributeCb : List UInt8 → List UInt8 → Emits ε ω Unit}
    (hcb : ∀ name value log, inv log → Ensures log (attributeCb name value) fun _ log => inv log)
    (hlog : inv log) (p : List UInt8) :
    Ensures log (contentTypeAttributes attributeCb p) fun _ log => inv log := by
  fun_induction contentTypeAttributes attributeCb p generalizing log with
  | case1 => exact .fail _
  | case2 => exact .pure hlog
  | case3 => exact .fail _
  | case4 p ch rest hskip hne name value p' hattribute ih =>
    exact (hcb name value log hlog).mapError.bind fun _ log hlog => ih hlog

theorem ensures_parseContentType {ε ω : Type} {inv : List ω → Prop} {log : List ω}
    {typeCb : List UInt8 → Emits ε ω Unit} {attributeCb : List UInt8 → List UInt8 → Emits ε ω Unit}
    (htype : ∀ type log, inv log → Ensures log (typeCb type) fun _ log => inv log)
    (hcb : ∀ name value log, inv log → Ensures log (attributeCb name value) fun _ log => inv log)
    (hlog : inv log) (headerValue : List UInt8) :
    Ensures log (parseContentType headerValue typeCb attributeCb) fun _ log => inv log := by
  unfold parseContentType
  split
  next => exact .fail _
  next type p _ =>
    exact (htype type log hlog).mapError.bind fun _ log hlog =>
      ensures_contentTypeAttributes hcb hlog p

namespace MailParser

variable {env : MailEnv} {parser parser' : MailParser} {log : List MailEvent}

/-- The headers that there have been are the same. -/
structure SameHeaders (parser' parser : MailParser) : Prop where
  hadFrom : parser'.hadFrom = parser.hadFrom
  hadTo : parser'.hadTo = parser.hadTo
  hadCc : parser'.hadCc = parser.hadCc
  hadBcc : parser'.hadBcc = parser.hadBcc
  hadSubject : parser'.hadSubject = parser.hadSubject

theorem SameHeaders.refl (parser : MailParser) : SameHeaders parser parser :=
  ⟨rfl, rfl, rfl, rfl, rfl⟩

-- The headers for the content are not among them.
theorem ensures_contentType (parser : MailParser) (log : List MailEvent) :
    Ensures log parser.handleContentType fun parser' log' =>
      SameHeaders parser' parser ∧ parser'.state = parser.state ∧ log' = log := by
  unfold handleContentType
  split
  next => exact .fail _
  next =>
    refine (@ensures_parseContentType _ _ (fun log' => log' = log) _ _ _ ?_ ?_ rfl _).mapError.bind
      fun _ log' hlog => .pure ⟨⟨rfl, rfl, rfl, rfl, rfl⟩, rfl, hlog⟩
    · intro type log' hlog
      unfold contentTypeTypeCb
      split
      next => exact .fail _
      next => exact .pure hlog
    · intro name value log' hlog
      unfold contentTypeAttributeCb
      split
      next => exact .fail _
      next => exact .pure hlog

theorem ensures_transferEncoding (parser : MailParser) (log : List MailEvent) :
    Ensures log (parser.handleTransferEncoding env) fun parser' log' =>
      SameHeaders parser' parser ∧ parser'.state = parser.state ∧ log' = log := by
  unfold handleTransferEncoding
  dsimp only
  split_ifs
  · exact .fail _
  · exact .pure ⟨⟨rfl, rfl, rfl, rfl, rfl⟩, rfl, rfl⟩
  · exact .pure ⟨⟨rfl, rfl, rfl, rfl, rfl⟩, rfl, rfl⟩
  · exact .pure ⟨⟨rfl, rfl, rfl, rfl, rfl⟩, rfl, rfl⟩
  · exact .fail _

theorem ensures_state_addresses {cb : AddressCallback MailStop MailEvent MailParser}
    (hcb : ∀ parser address log, Ensures log (cb parser address) fun parser' _ =>
      parser'.state = parser.state) (parser : MailParser) (log : List MailEvent) :
    Ensures log (parser.parseAddressesOf env cb) fun parser' _ => parser'.state = parser.state := by
  unfold parseAddressesOf
  refine (@ensures_parseAddresses _ _ _ _ _ (fun (user : MailParser) _ => user.state = parser.state)
    (fun user _ => user.state = parser.state) log ?_ _ _ rfl).mapError
  intro user log' address hbefore
  exact (hcb user address log').mono fun user' _ huser' => huser'.trans (or_self_iff.mp hbefore)

theorem ensures_state_destination (parser : MailParser) (address : Address)
    (log : List MailEvent) : Ensures log (destinationAddressCb parser address) fun parser' _ =>
      parser'.state = parser.state :=
  .tell_bind (.pure rfl)

theorem ensures_state_from (parser : MailParser) (address : Address) (log : List MailEvent) :
    Ensures log (fromAddressCb parser address) fun parser' _ => parser'.state = parser.state := by
  unfold fromAddressCb
  split
  next => exact .fail _
  next => exact .tell_bind (.pure rfl)

/-- The end of a header does not lead on. -/
theorem ensures_state_headerEnd (parser : MailParser) (log : List MailEvent) :
    Ensures log (parser.handleHeaderEnd env) fun parser' _ => parser'.state = parser.state := by
  unfold handleHeaderEnd
  dsimp only
  have htrimmed : (if parser.buffer.getLast? = some 32 then
      { parser with buffer := parser.buffer.dropLast } else parser).state = parser.state := by
    split <;> rfl
  generalize (if parser.buffer.getLast? = some 32 then
    { parser with buffer := parser.buffer.dropLast } else parser) = parser at htrimmed ⊢
  rw [← htrimmed]
  cases parser.currentHeader with
  | skip => exact .pure rfl
  | «to» =>
    show Ensures log (parser.handleTo env) _
    unfold handleTo
    split
    next => exact .fail _
    next => exact ensures_state_addresses ensures_state_destination _ log
  | cc =>
    show Ensures log (parser.handleCc env) _
    unfold handleCc
    split
    next => exact .fail _
    next => exact ensures_state_addresses ensures_state_destination _ log
  | bcc =>
    show Ensures log (parser.handleBcc env) _
    unfold handleBcc
    split
    next => exact .fail _
    next => exact ensures_state_addresses ensures_state_destination _ log
  | «from» => exact ensures_state_addresses ensures_state_from _ log
  | subject =>
    show Ensures log parser.handleSubject _
    unfold handleSubject
    split
    next => exact .fail _
    next =>
      split
      next => exact .fail _
      next => exact .tell_bind (.pure rfl)
  | contentType => exact (ensures_contentType parser log).mono fun _ _ h => h.2.1
  | transferEncoding => exact (ensures_transferEncoding parser log).mono fun _ _ h => h.2.1

/-! ## 2. Invariants -/

/-- Something that is kept. -/
structure Invariant (env : MailEnv) (inv : MailParser → List MailEvent → Prop) : Prop where
  move : ∀ {parser parser' log}, inv parser log → SameHeaders parser' parser →
    (parser'.state = .content ↔ parser.state = .content) → inv parser' log
  headerEnd : ∀ {parser log}, inv parser log → parser.state ≠ .content →
    Ensures log (parser.handleHeaderEnd env) inv
  headersEnd : ∀ {parser log}, inv parser log → parser.state ≠ .content →
    Ensures log parser.handleHeadersEnd inv
  content : ∀ {parser log} data, inv parser log → parser.state = .content →
    inv parser (log ++ [.content data])

namespace Invariant

variable {inv : MailParser → List MailEvent → Prop}

-- Nothing but the place in the headers is changed.
theorem moveTo (hinv : Invariant env inv) (h : inv parser log) (hheaders : SameHeaders parser' parser)
    (hstate : parser.state ≠ .content) (hstate' : parser'.state ≠ .content) : inv parser' log :=
  hinv.move h hheaders (iff_of_false hstate' hstate)

theorem headerName (hinv : Invariant env inv) (h : inv parser log)
    (hstate : parser.state = .headerName) (data : List UInt8) :
    Ensures log (parser.handleHeaderName env data) fun p log => inv p.1 log := by
  have hne : parser.state ≠ .content := by rw [hstate]; decide
  unfold handleHeaderName
  dsimp only
  have happended : inv { parser with
      buffer := parser.buffer ++ data.take (data.findIdx fun ch => ch = 10 || ch = 58) } log :=
    hinv.moveTo h ⟨rfl, rfl, rfl, rfl, rfl⟩ hne hne
  split
  next => exact .pure happended
  next ch =>
    refine Ensures.bind (?_ : Ensures log _ inv) fun parser log hparser => .pure hparser
    unfold handleNameEnd
    split
    next =>
      unfold endOfLineInName
      split
      next => exact hinv.headersEnd happended hne
      next => exact .fail _
    next => exact .pure (hinv.moveTo h ⟨rfl, rfl, rfl, rfl, rfl⟩ hne nofun)

theorem headerValueStart (hinv : Invariant env inv) (h : inv parser log)
    (hstate : parser.state = .headerValueStart) (data : List UInt8) :
    inv (parser.handleHeaderValueStart data).1 log := by
  have hne : parser.state ≠ .content := by rw [hstate]; decide
  unfold handleHeaderValueStart
  dsimp only
  split
  · exact hinv.moveTo h ⟨rfl, rfl, rfl, rfl, rfl⟩ hne nofun
  · exact h

theorem headerValue (hinv : Invariant env inv) (h : inv parser log)
    (hstate : parser.state = .headerValue) (data : List UInt8) :
    Ensures log (parser.handleHeaderValue data) fun p log => inv p.1 log := by
  have hne : parser.state ≠ .content := by rw [hstate]; decide
  induction data generalizing parser with
  | nil => exact .pure h
  | cons ch data ih =>
    have hspace : parser.addSpace.state = parser.state ∧ SameHeaders parser.addSpace parser := by
      unfold addSpace
      split <;> exact ⟨rfl, rfl, rfl, rfl, rfl, rfl⟩
    rw [handleHeaderValue]
    split_ifs
    · have hne' : parser.addSpace.state ≠ .content := hspace.1.trans_ne hne
      exact (ih (hinv.moveTo h hspace.2 hne hne') (hspace.1.trans hstate) hne').bind
        fun p log hp => .pure hp
    · exact .fail _
    · exact .pure (hinv.moveTo h ⟨rfl, rfl, rfl, rfl, rfl⟩ hne (by simp))
    · exact .pure (hinv.moveTo h ⟨rfl, rfl, rfl, rfl, rfl⟩ hne (by simp))
    · have hpushed : inv { parser with buffer := parser.buffer ++ [ch] } log :=
        hinv.moveTo h ⟨rfl, rfl, rfl, rfl, rfl⟩ hne hne
      exact (ih hpushed hstate hne).bind fun p log hp => .pure hp

theorem checkEol (hinv : Invariant env inv) (h : inv parser log)
    (hstate : parser.state = .checkEol) (ch : UInt8) :
    Ensures log (parser.handleCheckEol ch) inv := by
  have hne : parser.state ≠ .content := by rw [hstate]; decide
  unfold handleCheckEol
  split
  next => exact .fail _
  next => exact .pure (hinv.moveTo h ⟨rfl, rfl, rfl, rfl, rfl⟩ hne nofun)

theorem checkContinuation (hinv : Invariant env inv) (h : inv parser log)
    (hstate : parser.state = .checkContinuation) (ch : UInt8) :
    Ensures log (parser.handleCheckContinuation env ch) inv := by
  have hne : parser.state ≠ .content := by rw [hstate]; decide
  unfold handleCheckContinuation
  split
  next => exact .pure (hinv.moveTo h ⟨rfl, rfl, rfl, rfl, rfl⟩ hne nofun)
  next =>
    refine ((hinv.headerEnd h hne).and (ensures_state_headerEnd parser log)).bind ?_
    rintro parser' log ⟨hparser, hstate'⟩
    exact .pure (hinv.moveTo hparser ⟨rfl, rfl, rfl, rfl, rfl⟩ (hstate'.trans_ne hne) nofun)

theorem contentChunks {δ : Type} (hinv : Invariant env inv) (h : inv parser log)
    (hstate : parser.state = .content) (decoder : ContentDecoder δ) (room : Nat) (data : δ)
    (input : List UInt8) :
    Ensures log (contentChunks decoder room data input) fun _ log => inv parser log := by
  have hchunk : ∀ log data input, inv parser log →
      Ensures log (contentChunk decoder room data input) fun _ log => inv parser log := by
    intro log data input h
    unfold MailParser.contentChunk
    split
    next => exact .fail _
    next => exact .fail _
    next => exact .tell_bind (.pure (hinv.content _ h hstate))
  fun_induction MailParser.contentChunks decoder room data input generalizing log with
  | case1 => exact .pure h
  | case2 data input hinput ih =>
    exact (hchunk log data _ h).bind fun data log hlog => ih data hlog

theorem handleContent (hinv : Invariant env inv) (h : inv parser log)
    (hstate : parser.state = .content) (room : Nat) (data : List UInt8) :
    Ensures log (handleContent room parser data) inv := by
  unfold MailParser.handleContent
  cases parser.encoding with
  | base64 =>
    exact (hinv.contentChunks h hstate base64Content room _ data).bind fun _ log hlog =>
      .pure (hinv.move hlog ⟨rfl, rfl, rfl, rfl, rfl⟩ Iff.rfl)
  | quotedPrintable =>
    exact (hinv.contentChunks h hstate quotedPrintableContent room _ data).bind fun _ log hlog =>
      .pure (hinv.move hlog ⟨rfl, rfl, rfl, rfl, rfl⟩ Iff.rfl)
  | raw => exact .tell_bind (.pure (hinv.content _ h hstate))

theorem handle (hinv : Invariant env inv) (h : inv parser log) (room : Nat) (data : List UInt8) :
    Ensures log (handle env room parser data) fun p log => inv p.1 log := by
  cases data with
  | nil => exact .pure h
  | cons ch data =>
    unfold MailParser.handle
    dsimp only
    cases hstate : parser.state with
    | headerName => exact hinv.headerName h hstate _
    | headerValueStart => exact .pure (hinv.headerValueStart h hstate _)
    | headerValue => exact hinv.headerValue h hstate _
    | checkEol =>
      exact (hinv.checkEol h hstate ch).bind fun parser log hparser => .pure hparser
    | checkContinuation =>
      exact (hinv.checkContinuation h hstate ch).bind fun parser log hparser => .pure hparser
    | content =>
      exact (hinv.handleContent h hstate room _).bind fun parser log hparser => .pure hparser

/-- What is kept holds after a mail in chunks. -/
theorem chunks (hinv : Invariant env inv) (hstart : inv {} []) (chunks : List (List UInt8)) :
    Ensures [] (chunks.foldlM (parse env) {}) inv := by
  have hhandle : ∀ parser data log, inv parser log →
      Ensures log ((machine env contentBufSize).handle parser data) fun p log => inv p.1 log :=
    fun _ data _ h => hinv.handle h contentBufSize data
  have hparse : ∀ parser data log, inv parser log → Ensures log (parse env parser data) inv :=
    fun _ data _ h => Ensures.drain hhandle h data
  exact Ensures.foldlM hparse hstart chunks

end Invariant

end MailParser

end Notbit.Mail
