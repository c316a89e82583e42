import Notbit.Keyring.Plaintext
import Notbit.Mail.Accepted
import Notbit.Mail.SavedHeaders

/-!
# Emails — the content of an email that is sent (`ntb-ipc.c`)

The subject and the content that the mail parser reports are put together to a single text, which the
receiver takes apart again at its first newline.
-/

open Bytes Streams Streams.Emits Traced Notbit.Proto Notbit.Mail HeaderBlocks

namespace Notbit.Ipc

/-! ## 1. The content -/

/-- The content in `struct ntb_ipc_email`, with its encoding; a fresh one is that of
`handle_email_command`. -/
structure EmailContent where
  content : List UInt8 := []
  contentEncoding : Nat := 1
  deriving DecidableEq, Repr

/-- `mail_parser_data_cb`; the addresses are not its business. -/
def mailParserDataCb (email : EmailContent) : MailEvent → EmailContent
  | .source _ | .destination _ => email
  | .subject data =>
    { content         := email.content ++ ascii "Subject:" ++ data ++ ascii "\nBody:"
      contentEncoding := 2 }
  | .content data => { email with content := email.content ++ data }

/-- What has been put together when the parser has ended. -/
def sentContent (log : List MailEvent) : EmailContent := log.foldl mailParserDataCb {}

/-- The subject that is reported. -/
def subjectData : MailEvent → Option (List UInt8)
  | .subject data => some data
  | _ => none

/-- What is sent for a subject and a content. -/
def contentOf : Option (List UInt8) → List UInt8 → EmailContent
  | none, body => { content := body, contentEncoding := 1 }
  | some subject, body =>
    { content         := ascii "Subject:" ++ subject ++ ascii "\nBody:" ++ body
      contentEncoding := 2 }

/-! ## 2. What has been put together along a run -/

/-- There is one subject at most, before the content. -/
structure Assembled (parser : MailParser) (log : List MailEvent) : Prop where
  subjects : (log.filterMap subjectData).length = parser.hadSubject.toNat
  content : sentContent log =
    contentOf (log.filterMap subjectData).head? (log.flatMap MailEvent.octets)
  headers : parser.state ≠ .content → log.flatMap MailEvent.octets = []

variable {env : MailEnv} {parser parser' : MailParser} {log : List MailEvent}

theorem sentContent_append (log : List MailEvent) (event : MailEvent) :
    sentContent (log ++ [event]) = mailParserDataCb (sentContent log) event := by
  rw [sentContent, List.foldl_append]
  rfl

namespace Assembled

theorem start : Assembled {} [] := ⟨rfl, rfl, fun _ => rfl⟩

theorem move (h : Assembled parser log) (hsubject : parser'.hadSubject = parser.hadSubject)
    (hstate : parser'.state ≠ .content → parser.state ≠ .content) : Assembled parser' log :=
  ⟨hsubject ▸ h.subjects, h.content, fun hcontent => h.headers (hstate hcontent)⟩

-- An address is not put into the content.
theorem address (h : Assembled parser log) {event : MailEvent} (hsubject : subjectData event = none)
    (hoctets : event.octets = []) (hcb : ∀ email, mailParserDataCb email event = email) :
    Assembled parser (log ++ [event]) := by
  have hsubjects : (log ++ [event]).filterMap subjectData = log.filterMap subjectData := by
    rw [List.filterMap_append, List.filterMap_cons_none hsubject]
    exact List.append_nil _
  have hbody : (log ++ [event]).flatMap MailEvent.octets = log.flatMap MailEvent.octets := by
    rw [List.flatMap_append, List.flatMap_singleton, hoctets, List.append_nil]
  refine ⟨?_, ?_, ?_⟩
  · rw [hsubjects]
    exact h.subjects
  · rw [hsubjects, hbody, sentContent_append, hcb]
    exact h.content
  · rw [hbody]
    exact h.headers

theorem addresses {cb : AddressCallback MailStop MailEvent MailParser}
    (hcb : ∀ parser log address, Assembled parser log → Ensures log (cb parser address) Assembled)
    (h : Assembled parser log) : Ensures log (parser.parseAddressesOf env cb) Assembled := by
  unfold MailParser.parseAddressesOf
  refine (@ensures_parseAddresses _ _ _ _ _ Assembled Assembled log ?_ _ _ h).mapError
  intro user log' address hbefore
  exact hcb user log' address (or_self_iff.mp hbefore)

theorem destinations (h : Assembled parser log) :
    Ensures log (parser.parseAddressesOf env MailParser.destinationAddressCb) Assembled :=
  addresses (fun _ _ _ h => .tell_bind (.pure (h.address rfl rfl fun _ => rfl))) h

theorem sources (h : Assembled parser log) :
    Ensures log (parser.parseAddressesOf env MailParser.fromAddressCb) Assembled := by
  refine addresses (fun parser log address h => ?_) h
  unfold MailParser.fromAddressCb
  split
  next => exact .fail _
  next => exact .tell_bind (.pure ((h.address rfl rfl fun _ => rfl).move rfl id))

/-- The subject comes first. -/
theorem subject (h : Assembled parser log) (hstate : parser.state ≠ .content) :
    Ensures log parser.handleSubject Assembled := by
  unfold MailParser.handleSubject
  split
  next => exact .fail _
  next hsubject =>
    have hnone : log.filterMap subjectData = [] := by
      have hlength := h.subjects
      rw [Bool.eq_false_of_not_eq_true hsubject] at hlength
      exact List.length_eq_zero_iff.mp hlength
    have hcontent := h.content
    rw [hnone, h.headers hstate] at hcontent
    split
    next => exact .fail _
    next buffer _ =>
      have hsubjects : (log ++ [MailEvent.subject buffer]).filterMap subjectData = [buffer] := by
        rw [List.filterMap_append, hnone]
        rfl
      have hbody : (log ++ [MailEvent.subject buffer]).flatMap MailEvent.octets = [] := by
        rw [List.flatMap_append, h.headers hstate]
        rfl
      refine .tell_bind (.pure ⟨?_, ?_, fun _ => hbody⟩)
      · rw [hsubjects]
        rfl
      · rw [hsubjects, hbody, sentContent_append, hcontent]
        show EmailContent.mk (_ ++ _ ++ _ ++ _) 2 = EmailContent.mk (_ ++ _ ++ _ ++ []) 2
        rw [List.append_nil]
        rfl

theorem same {log' : List MailEvent} (h : Assembled parser log)
    (hsame : MailParser.SameHeaders parser' parser ∧ parser'.state = parser.state ∧ log' = log) :
    Assembled parser' log' := by
  obtain ⟨hheaders, hstate, rfl⟩ := hsame
  exact h.move hheaders.hadSubject fun hne => hstate ▸ hne

theorem headerEnd (h : Assembled parser log) (hstate : parser.state ≠ .content) :
    Ensures log (parser.handleHeaderEnd env) Assembled := by
  unfold MailParser.handleHeaderEnd
  dsimp only
  have htrimmed : Assembled (if parser.buffer.getLast? = some 32 then
      { parser with buffer := parser.buffer.dropLast } else parser) log ∧
      (if parser.buffer.getLast? = some 32 then
        { parser with buffer := parser.buffer.dropLast } else parser).state ≠ .content := by
    split
    · exact ⟨h.move rfl id, hstate⟩
    · exact ⟨h, hstate⟩
  generalize (if parser.buffer.getLast? = some 32 then
    { parser with buffer := parser.buffer.dropLast } else parser) = parser at htrimmed ⊢
  obtain ⟨htrimmed, hstate⟩ := htrimmed
  cases parser.currentHeader with
  | skip => exact .pure htrimmed
  | «to» =>
    show Ensures log (parser.handleTo env) Assembled
    unfold MailParser.handleTo
    split
    next => exact .fail _
    next =>
      have hflag : Assembled { parser with hadTo := true } log := htrimmed.move rfl id
      exact hflag.destinations
  | cc =>
    show Ensures log (parser.handleCc env) Assembled
    unfold MailParser.handleCc
    split
    next => exact .fail _
    next =>
      have hflag : Assembled { parser with hadCc := true } log := htrimmed.move rfl id
      exact hflag.destinations
  | bcc =>
    show Ensures log (parser.handleBcc env) Assembled
    unfold MailParser.handleBcc
    split
    next => exact .fail _
    next =>
      have hflag : Assembled { parser with hadBcc := true } log := htrimmed.move rfl id
      exact hflag.destinations
  | «from» => exact htrimmed.sources
  | subject => exact htrimmed.subject hstate
  | contentType =>
    exact (MailParser.ensures_contentType parser log).mono fun _ _ => htrimmed.same
  | transferEncoding =>
    exact (MailParser.ensures_transferEncoding parser log).mono fun _ _ => htrimmed.same

theorem headersEnd (h : Assembled parser log) (hstate : parser.state ≠ .content) :
    Ensures log parser.handleHeadersEnd Assembled := by
  unfold MailParser.handleHeadersEnd
  dsimp only
  split_ifs
  · exact .fail _
  · exact .fail _
  · cases parser.encoding with
    | raw => exact .pure (h.move rfl fun _ => hstate)
    | base64 => exact .pure (h.move rfl fun _ => hstate)
    | quotedPrintable => exact .pure (h.move rfl fun _ => hstate)

theorem body (h : Assembled parser log) (hstate : parser.state = .content) (data : List UInt8) :
    Assembled parser (log ++ [.content data]) := by
  have hsubjects :
      (log ++ [MailEvent.content data]).filterMap subjectData = log.filterMap subjectData := by
    rw [List.filterMap_append]
    exact List.append_nil _
  have hbody : (log ++ [MailEvent.content data]).flatMap MailEvent.octets =
      log.flatMap MailEvent.octets ++ data := by
    rw [List.flatMap_append, List.flatMap_singleton]
    rfl
  refine ⟨?_, ?_, fun hne => absurd hstate hne⟩
  · rw [hsubjects]
    exact h.subjects
  · rw [hsubjects, hbody, sentContent_append, h.content]
    cases (log.filterMap subjectData).head? with
    | none => rfl
    | some subject =>
      show EmailContent.mk (_ ++ _ ++ _ ++ _ ++ _) 2 = EmailContent.mk (_ ++ _ ++ _ ++ (_ ++ _)) 2
      rw [List.append_assoc _ _ data]

theorem invariant (env : MailEnv) : MailParser.Invariant env Assembled where
  move h hheaders hstate := h.move hheaders.hadSubject (mt hstate.mpr)
  headerEnd h hstate := h.headerEnd hstate
  headersEnd h hstate := h.headersEnd hstate
  content data h hstate := h.body hstate data

theorem finish (h : Assembled parser log) :
    Ensures log parser.finish fun _ log =>
      (log.filterMap subjectData).length ≤ 1 ∧
      sentContent log =
        contentOf (log.filterMap subjectData).head? (log.flatMap MailEvent.octets) := by
  have hsubjects : (log.filterMap subjectData).length ≤ 1 := h.subjects ▸ Bool.toNat_le _
  unfold MailParser.finish
  split
  next => exact .fail _
  next hstate =>
    split
    next =>
      split
      next => exact .fail _
      next octets _ =>
        have hbody := h.body (not_not.mp hstate) octets
        exact .tell ⟨hbody.subjects ▸ Bool.toNat_le _, hbody.content⟩
    next =>
      split
      next => exact .pure ⟨hsubjects, h.content⟩
      next => exact .fail _
    next => exact .pure ⟨hsubjects, h.content⟩

end Assembled

/-- What is sent for a mail that is accepted is its subject, if there is one, and its content. -/
theorem sentContent_of_accepted {chunks : List (List UInt8)}
    (h : (parseMail env chunks).value = .ok ()) :
    let log := (parseMail env chunks).log
    (log.filterMap subjectData).length ≤ 1 ∧
      sentContent log =
        contentOf (log.filterMap subjectData).head? (log.flatMap MailEvent.octets) := by
  have hmail : Ensures [] (parseMail env chunks) _ :=
    ((Assembled.invariant env).chunks .start chunks).bind fun _ _ hparser => hparser.finish
  exact hmail () h

/-! ## 3. What the receiver makes of it -/

/-- The subject ends at the first newline. -/
theorem splitText_subject {front : List UInt8} (h : 10 ∉ front) (rest : List UInt8) :
    splitText 2 (ascii "Subject:" ++ front ++ 10 :: rest) =
      (some front, if rest.take 5 = ascii "Body:" then rest.drop 5 else rest) := by
  have hstart : ∀ ch ∈ ascii "Subject:", ch ≠ 10 := List.all_iff_forall_prop.mp rfl
  have hline : ∀ ch ∈ ascii "Subject:" ++ front, decide (ch = 10) = false := by
    intro ch hch
    rcases List.mem_append.mp hch with hch | hch
    · exact decide_eq_false (hstart ch hch)
    · exact decide_eq_false (ne_of_mem_of_not_mem hch h)
  have hlength : (ascii "Subject:").length = 8 := rfl
  have heol : (ascii "Subject:" ++ front ++ 10 :: rest).findIdx (· = 10) =
      (ascii "Subject:" ++ front).length := by
    have hnone := List.findIdx_eq_length.mpr hline
    rw [List.findIdx_append, hnone, if_neg (lt_irrefl _), List.findIdx_cons]
    simp
  unfold splitText
  dsimp only
  rw [heol, if_pos ?_]
  · rw [List.drop_length_add_append, List.take_left]
    rfl
  · refine ⟨rfl, ?_, ?_, ?_⟩
    · simp only [List.length_append, List.length_cons, hlength]
      omega
    · rw [List.append_assoc]
      exact List.take_left' hlength
    · simp only [List.length_append, List.length_cons]
      omega

/-- The plaintext is that of a message with the content and the encoding. -/
def Carries (ssl : OpenSSL) (mail : Delivery) (email : EmailContent) : Prop :=
  ∃ m : Keyring.Outgoing ssl, Keyring.MatchesSender (ofList mail.plaintext) mail.msg m ∧
    m.content = email.content ∧ m.contentEncoding.val = email.contentEncoding

/-- What is sent is taken apart into the subject and the content of the mail, also when a message has
carried it to its receiver, who saves these two. -/
structure SplitsBack (ssl : OpenSSL) (log : List MailEvent) : Prop where
  parts : splitText (sentContent log).contentEncoding (sentContent log).content =
    ((log.filterMap subjectData).head?, log.flatMap MailEvent.octets)
  carried : ∀ mail : Delivery, Carries ssl mail (sentContent log) →
    splitText mail.msg.encoding
        (window (ofList mail.plaintext) mail.msg.message mail.msg.messageLength) =
      ((log.filterMap subjectData).head?, log.flatMap MailEvent.octets)
  saved : ∀ mail : Delivery, Carries ssl mail (sentContent log) →
    writeText mail.msg.encoding
        (window (ofList mail.plaintext) mail.msg.message mail.msg.messageLength) =
      writeParts (log.filterMap subjectData).head? (log.flatMap MailEvent.octets)

-- A message brings what it carries.
theorem Carries.eq {ssl : OpenSSL} {mail : Delivery} {email : EmailContent}
    (h : Carries ssl mail email) (hencoding : email.contentEncoding < 2 ^ 31) :
    mail.msg.encoding = email.contentEncoding ∧
      window (ofList mail.plaintext) mail.msg.message mail.msg.messageLength = email.content := by
  obtain ⟨m, hm, hcontent, hvalue⟩ := h
  refine ⟨?_, hm.content.trans hcontent⟩
  rw [hm.encoding, hvalue, toUInt64]
  omega

theorem contentEncoding_contentOf (subject : Option (List UInt8)) (body : List UInt8) :
    (contentOf subject body).contentEncoding < 2 ^ 31 := by
  cases subject <;> simp [contentOf]

theorem splitText_contentOf_iff (subject : Option (List UInt8)) (body : List UInt8) :
    splitText (contentOf subject body).contentEncoding (contentOf subject body).content =
      (subject, body) ↔ ∀ s, subject = some s → 10 ∉ s := by
  cases subject with
  | none => exact iff_of_true rfl nofun
  | some subject =>
    have hmark : ascii "\nBody:" = 10 :: ascii "Body:" := rfl
    constructor
    · rintro hparts _ ⟨⟩ hmem
      -- the subject that is found ends at the first newline
      obtain ⟨front, back, rfl, hfront⟩ := List.eq_append_cons_of_mem hmem
      have hcontent : (contentOf (some (front ++ 10 :: back)) body).content =
          ascii "Subject:" ++ front ++ 10 :: (back ++ ascii "\nBody:" ++ body) := by
        simp [contentOf]
      have hsplit := splitText_subject hfront (back ++ ascii "\nBody:" ++ body)
      rw [hcontent, show (contentOf (some (front ++ 10 :: back)) body).contentEncoding = 2 from rfl,
        hsplit] at hparts
      have hlength := congrArg List.length (Option.some.inj (Prod.mk.inj hparts).1)
      rw [List.length_append, List.length_cons] at hlength
      omega
    · intro hline
      have hcontent : (contentOf (some subject) body).content =
          ascii "Subject:" ++ subject ++ 10 :: (ascii "Body:" ++ body) := by
        simp [contentOf, hmark]
      rw [hcontent, show (contentOf (some subject) body).contentEncoding = 2 from rfl,
        splitText_subject (hline subject rfl)]
      have hbody : (ascii "Body:" ++ body).take 5 = ascii "Body:" := List.take_left' rfl
      have hrest : (ascii "Body:" ++ body).drop 5 = body := List.drop_left' rfl
      rw [if_pos hbody, hrest]

theorem handleHeaderEnd_subject {subject : List UInt8} (hheader : parser.currentHeader = .subject)
    (hlast : ¬ parser.buffer.getLast? = some 32) (hfirst : parser.hadSubject = false)
    (hdecodes : encodedWordsDecode parser.buffer = some subject) :
    parser.handleHeaderEnd env = (Emits.tell [.subject subject] >>= fun _ =>
      pure { parser with hadSubject := true, buffer := subject }) := by
  have hhandler : parser.handleHeaderEnd env = parser.handleSubject := by
    simp only [MailParser.handleHeaderEnd, if_neg hlast, hheader]
  rw [hhandler, MailParser.handleSubject, hfirst, if_neg Bool.false_ne_true, hdecodes]

/-- A mail from an address to itself with a subject of a single word and no content. -/
def subjectMail (ssl : OpenSSL) (a : Address) (subject : List UInt8) : List UInt8 :=
  MailParser.addressFields ssl a ++
    MailParser.field (ascii "Subject") [] (subjectWord subject) ++ [10]

theorem parseMail_subjectMail {a : Address} (hversion : 1 ≤ a.version) {subject : List UInt8}
    (h : subject.length < 33) :
    parseMail env [subjectMail env.ssl a subject] =
      (.ok (), [.source a, .destination a, .subject subject]) := by
  have hword : (writeEncodedWords subject).flatten = subjectWord subject := by
    have hshort : subject.drop maxChunkLength = [] := by
      rw [List.drop_eq_nil_iff]
      show _ ≤ 39
      omega
    rw [flatten_writeEncodedWords, subjectWords_of_short hshort, List.intercalate_singleton]
  have hself : unfolded (subjectWord subject) = subjectWord subject :=
    unfolded_eq_self fun ch hch => mem_subjectWord hch
  have hdecodes := decodes_of_lt h
  rw [hword, hself] at hdecodes
  have hname : ∀ ch ∈ ascii "Subject", ¬ (ch = 10 ∨ ch = 58) := List.all_iff_forall_prop.mp rfl
  have hspaces : ∀ ch ∈ ([] : List UInt8), asciiIsLwsp ch = true := nofun
  have hheader : MailParser.headerNamed env (ascii "Subject") = .subject := rfl
  have htext : Folded (subjectWord subject) := Folded.of_bytes fun ch hch => by
    have hch := isText_subjectWord subject ch hch
    refine ⟨?_, ?_, hch.ne_newline⟩
    · rintro rfl
      exact absurd hch.1 (by decide)
    · rintro rfl
      exact absurd hch.1 (by decide)
  obtain ⟨word, hcons⟩ : ∃ word, subjectWord subject = 61 :: word := ⟨_, rfl⟩
  have hmail : subjectMail env.ssl a subject = MailParser.addressFields env.ssl a ++
      83 :: (ascii "ubject:" ++ subjectWord subject ++ [10] ++ [10]) := by
    rw [subjectMail, List.append_assoc]
    rfl
  have hfield : 83 :: (ascii "ubject:" ++ subjectWord subject ++ [10] ++ [10]) =
      MailParser.field (ascii "Subject") [] (61 :: word) ++ [10] := by
    rw [← hcons]
    rfl
  have hlast : (subjectWord subject).getLast? = some 61 := by
    rw [subjectWord, List.getLast?_append]
    rfl
  rw [hcons] at htext hself
  rw [parseMail, List.foldlM_cons, MailParser.parse, MailParser.drain_eq_readAll, hmail,
    MailParser.readAll_addressFields hversion (by decide), hfield,
    MailParser.readAll_field rfl rfl hname hspaces (by decide) htext, hheader, hself, ← hcons,
    MailParser.readAll_next rfl (by decide),
    handleHeaderEnd_subject rfl (by rw [hlast]; decide) rfl hdecodes]
  rfl

theorem splitsBack_iff {ssl : OpenSSL} {log : List MailEvent}
    (h : sentContent log =
      contentOf (log.filterMap subjectData).head? (log.flatMap MailEvent.octets)) :
    SplitsBack ssl log ↔ ∀ s, (log.filterMap subjectData).head? = some s → 10 ∉ s := by
  constructor
  · intro hsplits
    have hparts := hsplits.parts
    rw [h] at hparts
    exact (splitText_contentOf_iff _ _).mp hparts
  · intro hline
    have hparts := (splitText_contentOf_iff _ (log.flatMap MailEvent.octets)).mpr hline
    have hcarried : ∀ mail : Delivery, Carries ssl mail (sentContent log) →
        splitText mail.msg.encoding
            (window (ofList mail.plaintext) mail.msg.message mail.msg.messageLength) =
          ((log.filterMap subjectData).head?, log.flatMap MailEvent.octets) := by
      intro mail hcarries
      rw [h] at hcarries
      obtain ⟨hencoding, hcontent⟩ := hcarries.eq (contentEncoding_contentOf _ _)
      rw [hencoding, hcontent, hparts]
    refine ⟨h ▸ hparts, hcarried, fun mail hcarries => ?_⟩
    rw [writeText_eq, hcarried mail hcarries]

/-- There is one subject at most in a mail that is accepted, and its receiver finds the subject and
the content that the sender's parser has reported exactly if there is no newline in the subject. -/
theorem sentMail_splitsBack_iff (env : MailEnv) (chunks : List (List UInt8))
    (h : (parseMail env chunks).value = .ok ()) :
    ((parseMail env chunks).log.filterMap subjectData).length ≤ 1 ∧
      (SplitsBack env.ssl (parseMail env chunks).log ↔
        ∀ subject ∈ (parseMail env chunks).log.filterMap subjectData, 10 ∉ subject) := by
  obtain ⟨hsubjects, hcontent⟩ := sentContent_of_accepted h
  refine ⟨hsubjects, ?_⟩
  rw [splitsBack_iff hcontent]
  generalize (parseMail env chunks).log.filterMap subjectData = subjects at hsubjects ⊢
  match subjects, hsubjects with
  | [], _ => exact iff_of_true nofun nofun
  | [subject], _ =>
    rw [List.head?_cons, List.forall_mem_singleton]
    exact ⟨fun hall => hall subject rfl, fun hline s hs => Option.some.inj hs ▸ hline⟩

-- A subject of a single line.
theorem plainSubject_splitsBack :
    SplitsBack zeroEnv.ssl
      (parseMail zeroEnv [subjectMail zeroEnv.ssl zeroAddress (ascii "a")]).log := by
  have hmail := @parseMail_subjectMail zeroEnv zeroAddress (by decide) (ascii "a") (by decide)
  have hok : (parseMail zeroEnv [subjectMail zeroEnv.ssl zeroAddress (ascii "a")]).value = .ok () := by
    rw [hmail]
    rfl
  apply (sentMail_splitsBack_iff zeroEnv _ hok).2.mpr
  rw [hmail]
  exact List.forall_mem_singleton.mpr (by decide)

/-- The word =?UTF-8?B?YQpi?= is decoded to a subject of two lines, of which the receiver finds the
first one. -/
theorem newlineSubject_not_splitsBack :
    let mail := subjectMail zeroEnv.ssl zeroAddress (ascii "a\nb")
    (parseMail zeroEnv [mail]).value = .ok () ∧
      ¬ SplitsBack zeroEnv.ssl (parseMail zeroEnv [mail]).log := by
  intro mail
  have hmail : parseMail zeroEnv [mail] = _ :=
    @parseMail_subjectMail zeroEnv zeroAddress (by decide) (ascii "a\nb") (by decide)
  rw [hmail]
  refine ⟨rfl, fun h => ?_⟩
  exact (splitText_contentOf_iff (some (ascii "a\nb")) []).mp h.parts _ rfl (by decide)

end Notbit.Ipc
