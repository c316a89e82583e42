import Notbit.Mail.Headers

/-!
# Splits — a mail and its pieces

A mail that is cut into pieces is parsed like the whole mail.  Where the parser fails it has handed
over what the pieces before the failing one gave, so that there may be less of the content.
-/

open Bytes Streams Streams.Emits Traced Notbit.Proto Notbit.Store

namespace Notbit.Mail

/-! ## 1. The same mail -/

/-- The same result after the same addresses and the same subject, with the same content if it is a
success and with more of the content or less of it if it is not. -/
structure SameMail (x y : MailResult Unit) : Prop where
  value : x.value = y.value
  headers : x.log.flatMap MailEvent.header = y.log.flatMap MailEvent.header
  content : x.value = .ok () → x.log.flatMap MailEvent.octets = y.log.flatMap MailEvent.octets
  content_prefix : x.log.flatMap MailEvent.octets <+: y.log.flatMap MailEvent.octets ∨
    y.log.flatMap MailEvent.octets <+: x.log.flatMap MailEvent.octets

-- Two results that are both like a third one.
theorem SameMail.of_alike {x y z : MailResult Unit}
    (hx : Alike MailEvent.header MailEvent.octets x z)
    (hy : Alike MailEvent.header MailEvent.octets y z) : SameMail x y where
  value := hx.value.trans hy.value.symm
  headers := hx.kept.trans hy.kept.symm
  content hok := by
    have hok' : y.value = .ok () := hy.value.trans (hx.value.symm.trans hok)
    exact (hx.flat_eq () hok).trans (hy.flat_eq () hok').symm
  content_prefix := List.prefix_or_prefix_of_prefix hx.flat_prefix hy.flat_prefix

/-- The loop of the parser ends for every chunk.  A mail in chunks is the same mail as in one chunk,
unless one of the two is written or read outside of a buffer. -/
theorem parseMail_chunks (env : MailEnv) (chunks : List (List UInt8)) :
    (∀ parser chunk, ∃ fuel, (MailParser.machine env MailParser.contentBufSize).rounds fuel parser
      chunk = some (MailParser.parse env parser chunk)) ∧
    ((parseMail env chunks).value = .error .overrun ∨
      (parseMail env [chunks.flatten]).value = .error .overrun ∨
      SameMail (parseMail env chunks) (parseMail env [chunks.flatten])) := by
  refine ⟨Machine.exists_rounds _, ?_⟩
  have hwhole := parseMail_alike env [chunks.flatten]
  rw [List.flatten_singleton] at hwhole
  rcases parseMail_alike env chunks with hover | hchunks
  · exact .inl hover
  · exact .inr (hwhole.imp id fun hwhole => .of_alike hchunks hwhole)

/-! ## 2. A mail that is refused in its content -/

namespace MailParser

variable {env : MailEnv} {parser : MailParser} {room : Nat}

theorem contentChunks_of_short {δ : Type} {decoder : ContentDecoder δ} {input : List UInt8}
    (hne : input ≠ []) (h : input.length ≤ decoder.chunkSize) (data : δ) :
    contentChunks decoder room data input = contentChunk decoder room data input := by
  rw [contentChunks, if_neg hne, List.take_of_length_le h, List.drop_eq_nil_of_le h]
  have hnothing : ∀ data : δ, contentChunks decoder room data [] = pure data := by
    intro data
    rw [contentChunks, if_pos rfl]
  simp only [hnothing, bind_pure]

/-- The headers of a mail from an address to itself with base64 as encoding. -/
def base64Fields (ssl : OpenSSL) (a : Address) : List UInt8 :=
  addressFields ssl a ++ field (ascii "Content-Transfer-Encoding") [] (ascii "base64") ++ [10]

/-- The parser when it has read them. -/
def inBase64 : MailParser where
  state := .content
  currentHeader := .transferEncoding
  hadFrom := true
  hadTo := true
  hadTransferEncoding := true
  encoding := .base64

theorem readAll_base64Fields {a : Address} (hversion : 1 ≤ a.version) (data : List UInt8) :
    ({} : MailParser).readAll env room (base64Fields env.ssl a ++ data) =
      (Emits.tell [.source a, .destination a] >>= fun _ => inBase64.readAll env room data) := by
  have hfields : base64Fields env.ssl a ++ data = addressFields env.ssl a ++
      67 :: (ascii "ontent-Transfer-Encoding:base64" ++ 10 :: 10 :: data) := by
    rw [base64Fields, List.append_assoc, List.append_assoc]
    rfl
  have hfield : 67 :: (ascii "ontent-Transfer-Encoding:base64" ++ 10 :: 10 :: data) =
      field (ascii "Content-Transfer-Encoding") [] (98 :: ascii "ase64") ++ 10 :: data := rfl
  have hname : ∀ ch ∈ ascii "Content-Transfer-Encoding", ¬ (ch = 10 ∨ ch = 58) :=
    List.all_iff_forall_prop.mp rfl
  have htext : ∀ ch ∈ 98 :: ascii "ase64", IsValueByte ch := List.all_iff_forall_prop.mp rfl
  have hplain : ∀ ch ∈ 98 :: ascii "ase64", ¬ asciiIsLwsp ch = true ∧ ch ≠ 10 :=
    List.all_iff_forall_prop.mp rfl
  have hspaces : ∀ ch ∈ ([] : List UInt8), asciiIsLwsp ch = true := nofun
  have hheader : headerNamed env (ascii "Content-Transfer-Encoding") = .transferEncoding := rfl
  have hself : unfolded (98 :: ascii "ase64") = ascii "base64" :=
    (unfolded_eq_self hplain).trans rfl
  rw [hfields, readAll_addressFields hversion (by decide), hfield]
  refine bind_congr_of fun _ _ => ?_
  rw [readAll_field rfl rfl hname hspaces (by decide) (Folded.of_bytes htext), hheader, hself,
    readAll_next rfl (by decide)]
  rfl

theorem parse_inBase64 {data : List UInt8} (hstate : parser.state = .content)
    (hencoding : parser.encoding = .base64) (hne : data ≠ [])
    (h : data.length ≤ base64Content.chunkSize) :
    parse env parser data = contentChunk base64Content contentBufSize parser.base64Data data >>=
      fun base64Data => pure { parser with base64Data } := by
  rw [parse, drain_eq_readAll, readAll_content hstate hne]
  simp only [handleContent, hencoding, contentChunks_of_short hne h]

-- The headers come with the first chunk.
theorem parseMail_base64Fields {a : Address} (hversion : 1 ≤ a.version) (chunk : List UInt8)
    (chunks : List (List UInt8)) :
    parseMail env ((base64Fields env.ssl a ++ chunk) :: chunks) =
      (Emits.tell [.source a, .destination a] >>= fun _ =>
        (chunk :: chunks).foldlM (parse env) inBase64 >>= finish) := by
  rw [parseMail, List.foldlM_cons, List.foldlM_cons, parse, drain_eq_readAll,
    readAll_base64Fields hversion, bind_assoc, bind_assoc, parse, drain_eq_readAll]
  simp only [bind_assoc]

end MailParser

/-- A mail that is refused behind the first group of its content is reported with this group only
if the group came in a chunk before. -/
theorem refusedContent_not_same :
    let fields := MailParser.base64Fields zeroEnv.ssl zeroAddress
    let pieces := parseMail zeroEnv [fields ++ ascii "QUJD", ascii "=A"]
    let whole := parseMail zeroEnv [fields ++ ascii "QUJD=A"]
    pieces.value = .error MailParser.base64Content.error ∧
      whole.value = .error MailParser.base64Content.error ∧
      pieces.log.flatMap MailEvent.octets = ascii "ABC" ∧
      whole.log.flatMap MailEvent.octets = [] := by
  intro fields pieces whole
  have hversion : 1 ≤ zeroAddress.version := by decide
  let later : MailParser := { MailParser.inBase64 with base64Data := { value := 0x414243 } }
  have hfirst : MailParser.parse zeroEnv MailParser.inBase64 (ascii "QUJD") =
      (.ok later, [.content (ascii "ABC")]) := by
    rw [MailParser.parse_inBase64 rfl rfl (by decide) (by decide)]
    rfl
  have hsecond : [ascii "=A"].foldlM (MailParser.parse zeroEnv) later =
      (.error MailParser.base64Content.error, []) := by
    rw [List.foldlM_cons, MailParser.parse_inBase64 rfl rfl (by decide) (by decide)]
    rfl
  have hboth : [ascii "QUJD", ascii "=A"].foldlM (MailParser.parse zeroEnv) MailParser.inBase64 =
      (.error MailParser.base64Content.error, [.content (ascii "ABC")]) := by
    rw [List.foldlM_cons, hfirst]
    show (([ascii "=A"].foldlM (MailParser.parse zeroEnv) later).1,
      [.content (ascii "ABC")] ++ ([ascii "=A"].foldlM (MailParser.parse zeroEnv) later).2) = _
    rw [hsecond]
    rfl
  have hpieces : pieces = (.error MailParser.base64Content.error,
      [.source zeroAddress, .destination zeroAddress, .content (ascii "ABC")]) := by
    rw [show pieces = _ from MailParser.parseMail_base64Fields hversion _ _, hboth]
    rfl
  have hwhole : whole = (.error MailParser.base64Content.error,
      [.source zeroAddress, .destination zeroAddress]) := by
    rw [show whole = _ from MailParser.parseMail_base64Fields hversion _ _, List.foldlM_cons,
      MailParser.parse_inBase64 rfl rfl (by decide) (by decide)]
    rfl
  rw [hpieces, hwhole]
  exact ⟨rfl, rfl, rfl, rfl⟩

end Notbit.Mail
