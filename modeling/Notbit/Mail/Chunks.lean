import Notbit.Mail.Parser

/-!
# Chunks — a mail in chunks

What the parser does with a chunk is what it does with its bytes one after the other, except for the
pieces in which the content is delivered, and for a write behind the buffer for decoded content,
which happens for some chunks only.
-/

open Bytes Streams Streams.Emits Traced Notbit.Proto

namespace Notbit.Mail

/-! ## 1. One byte at a time -/

namespace MailEvent

/-- The events that do not depend on chunks. -/
def header : MailEvent → List MailEvent
  | .content _ => []
  | event => [event]

/-- The bytes of the content. -/
def octets : MailEvent → List UInt8
  | .content data => data
  | _ => []

end MailEvent

/-- What a decoder has written as a content event, with the error of the parser. -/
def asContent {δ : Type} (error : MailStop) (x : Emits Unit UInt8 δ) : MailResult δ :=
  match x.value with
  | .ok data => do
    tell [.content x.log]
    return data
  | .error _ => fail error

namespace MailParser

variable (env : MailEnv)

/-- A byte of a header's name. -/
def nameByte (parser : MailParser) (ch : UInt8) : MailResult MailParser :=
  if ch = 10 ∨ ch = 58 then parser.handleNameEnd env ch
  else return { parser with buffer := parser.buffer ++ [ch] }

/-- A byte of a header's value. -/
def valueByte (parser : MailParser) (ch : UInt8) : MailResult MailParser :=
  if asciiIsLwsp ch then return parser.addSpace
  else if ch = 0 then invalidHeader "Null byte encountered in a header"
  else if ch = 13 then return { parser with state := .checkEol }
  else if ch = 10 then return { parser with state := .checkContinuation }
  else return { parser with buffer := parser.buffer ++ [ch] }

/-- A byte of the content. -/
def contentByte (parser : MailParser) (ch : UInt8) : MailResult MailParser :=
  match parser.encoding with
  | .base64 => do
    let base64Data ← asContent base64Content.error (base64Byte parser.base64Data ch)
    return { parser with base64Data }
  | .quotedPrintable => do
    let qpData ← asContent quotedPrintableContent.error (quotedPrintableByte parser.qpData ch)
    return { parser with qpData }
  | .raw => do
    tell [.content [ch]]
    return parser

/-- What `handle_header_value_start` does before the value. -/
def startValue (parser : MailParser) : MailParser :=
  { parser with state := .headerValue, buffer := [] }

/-- What one byte does to the parser. -/
def byte (parser : MailParser) (ch : UInt8) : MailResult MailParser :=
  match parser.state with
  | .headerName => parser.nameByte env ch
  | .headerValueStart => if asciiIsLwsp ch then return parser else parser.startValue.valueByte ch
  | .headerValue => parser.valueByte ch
  | .checkEol => parser.handleCheckEol ch
  | .checkContinuation => do
    let parser ← parser.handleCheckContinuation env ch
    if asciiIsLwsp ch then parser.valueByte ch else parser.nameByte env ch
  | .content => parser.contentByte ch

/-! ## 2. The content -/

section Content

variable {δ : Type} {decoder : ContentDecoder δ} {step : δ → UInt8 → Emits Unit UInt8 δ} {room : Nat}

/-- The decoder works byte by byte, and what it writes for a chunk fits into the room. -/
structure Fits (decoder : ContentDecoder δ) (step : δ → UInt8 → Emits Unit UInt8 δ)
    (room : Nat) : Prop where
  decode_eq : ∀ data input, decoder.decode data input = input.foldlM step data
  fits : ∀ data input, input.length ≤ decoder.chunkSize →
    (decoder.decode data input).log.length ≤ room

/-- A decoder's writes before its error are not delivered. -/
theorem asContent_bind {α : Type} (error : MailStop) (x : Emits Unit UInt8 α)
    (f : α → Emits Unit UInt8 δ) :
    Alike MailEvent.header MailEvent.octets (asContent error (x >>= f))
      (asContent error x >>= fun a => asContent error (f a)) := by
  obtain ⟨v, log⟩ := x
  cases v with
  | error e => exact .refl _
  | ok a =>
    show Alike _ _ (asContent error ((f a).1, log ++ (f a).2))
      (asContent error (.ok a, log) >>= fun a => asContent error (f a))
    rcases hf : f a with ⟨v', log'⟩
    cases v' with
    | error e =>
      have hright : (asContent error (.ok a, log) >>= fun a => asContent error (f a)) =
          (.error error, [.content log]) := by
        show ((asContent error (f a)).1, [.content log] ++ (asContent error (f a)).2) = _
        rw [hf]
        rfl
      rw [hright]
      exact ⟨rfl, rfl, List.nil_prefix, nofun⟩
    | ok c =>
      have hright : (asContent error (.ok a, log) >>= fun a => asContent error (f a)) =
          (.ok c, [.content log, .content log']) := by
        show ((asContent error (f a)).1, [.content log] ++ (asContent error (f a)).2) = _
        rw [hf]
        rfl
      rw [hright]
      have hflat : [MailEvent.content (log ++ log')].flatMap MailEvent.octets =
          [MailEvent.content log, .content log'].flatMap MailEvent.octets := by
        simp [MailEvent.octets]
      exact ⟨rfl, rfl, hflat ▸ List.prefix_refl _, fun _ _ => hflat⟩

theorem asContent_foldlM (error : MailStop) (data : δ) (input : List UInt8) :
    Alike MailEvent.header MailEvent.octets (asContent error (input.foldlM step data))
      (input.foldlM (fun data ch => asContent error (step data ch)) data) := by
  induction input generalizing data with
  | nil => exact ⟨rfl, rfl, List.prefix_refl _, fun _ _ => rfl⟩
  | cons ch input ih =>
    rw [List.foldlM_cons, List.foldlM_cons]
    exact (asContent_bind error _ _).trans ((Alike.refl _).bind fun data' _ => ih data')

theorem contentChunk_eq (data : δ) {input : List UInt8}
    (h : (decoder.decode data input).log.length ≤ room) :
    contentChunk decoder room data input = asContent decoder.error (decoder.decode data input) := by
  rw [contentChunk, decodeInto, if_neg (Nat.not_lt.mpr h)]
  rcases decoder.decode data input with ⟨v, log⟩
  cases v <;> rfl

theorem contentChunks_alike (hfits : Fits decoder step room) (data : δ) (input : List UInt8) :
    Alike MailEvent.header MailEvent.octets (contentChunks decoder room data input)
      (input.foldlM (fun data ch => asContent decoder.error (step data ch)) data) := by
  induction hlength : input.length using Nat.strong_induction_on generalizing data input with
  | _ n ih =>
    rw [contentChunks]
    split
    next hnil =>
      rw [hnil]
      exact .refl _
    next hne =>
      have hpos : 0 < input.length := List.length_pos_iff.mpr hne
      have hchunk := decoder.chunkSize_pos
      have hshort : (input.take decoder.chunkSize).length ≤ decoder.chunkSize := by
        rw [List.length_take]
        exact Nat.min_le_left _ _
      rw [contentChunk_eq data (hfits.fits data _ hshort), hfits.decode_eq]
      conv => arg 4; rw [← List.take_append_drop decoder.chunkSize input, List.foldlM_append]
      refine (asContent_foldlM decoder.error data _).bind fun data' _ => ih _ ?_ data' _ rfl
      rw [List.length_drop]
      omega

/-- However much room there is, the loop fails with a write outside or it does the same. -/
theorem contentChunks_eq_or_overrun (hfits : Fits decoder step room) (room' : Nat) (data : δ)
    (input : List UInt8) :
    (contentChunks decoder room' data input).value = .error .overrun ∨
      contentChunks decoder room' data input = contentChunks decoder room data input := by
  induction hlength : input.length using Nat.strong_induction_on generalizing data input with
  | _ n ih =>
    rw [contentChunks.eq_def decoder room', contentChunks.eq_def decoder room]
    split
    next => exact .inr rfl
    next hne =>
      have hpos : 0 < input.length := List.length_pos_iff.mpr hne
      have hchunk := decoder.chunkSize_pos
      have hshort : (input.take decoder.chunkSize).length ≤ decoder.chunkSize := by
        rw [List.length_take]
        exact Nat.min_le_left _ _
      have hwide := hfits.fits data _ hshort
      by_cases hroom : (decoder.decode data (input.take decoder.chunkSize)).log.length ≤ room'
      · rw [contentChunk_eq data hroom, contentChunk_eq data hwide]
        refine bind_eq_or_error fun data' _ => ih _ ?_ data' _ rfl
        rw [List.length_drop]
        omega
      · left
        refine value_bind_of_error ?_
        rw [contentChunk, decodeInto, if_pos (Nat.lt_of_not_le hroom)]
        rfl

end Content

/-- Room for everything that a chunk can give. -/
def wideRoom : Nat := 3 * base64MaxInputForSize contentBufSize

theorem fits_base64 : Fits base64Content base64Byte wideRoom where
  decode_eq := base64Decode_eq
  fits data input h := by
    have hbyte : ∀ (data : Base64Data) ch, (base64Byte data ch).log.length ≤ 3 := by
      intro data ch
      unfold base64Byte
      split
      · split_ifs
        · exact Nat.zero_le _
        · exact le_refl _
        · exact Nat.zero_le _
      · split_ifs <;> exact Nat.zero_le _
    change (base64Decode data input).log.length ≤ wideRoom
    rw [base64Decode_eq]
    exact (length_log_foldlM hbyte data input).trans (Nat.mul_le_mul_left 3 h)

theorem fits_quotedPrintable : Fits quotedPrintableContent quotedPrintableByte wideRoom where
  decode_eq := quotedPrintableDecode_eq
  fits data input h := by
    change (quotedPrintableDecode data input).log.length ≤ wideRoom
    rw [quotedPrintableDecode_eq]
    refine (length_log_foldlM length_log_quotedPrintableByte data input).trans ?_
    have hchunk : input.length ≤ 512 := h
    have hroom : wideRoom = 2046 := rfl
    omega

theorem contentByte_base64 {parser : MailParser} (h : parser.encoding = .base64) (ch : UInt8) :
    parser.contentByte ch = (asContent base64Content.error (base64Byte parser.base64Data ch) >>=
      fun base64Data => pure { parser with base64Data }) := by
  unfold contentByte
  rw [h]

theorem foldlM_contentByte_base64 {parser : MailParser} (h : parser.encoding = .base64)
    (data : List UInt8) :
    data.foldlM contentByte parser =
      (data.foldlM (fun data ch => asContent base64Content.error (base64Byte data ch))
        parser.base64Data >>= fun base64Data => pure { parser with base64Data }) := by
  induction data generalizing parser with
  | nil => rfl
  | cons ch data ih =>
    rw [List.foldlM_cons, List.foldlM_cons, contentByte_base64 h, bind_assoc, bind_assoc]
    refine bind_congr_of fun base64Data _ => ?_
    rw [pure_bind]
    exact ih h

theorem contentByte_quotedPrintable {parser : MailParser}
    (h : parser.encoding = .quotedPrintable) (ch : UInt8) :
    parser.contentByte ch =
      (asContent quotedPrintableContent.error (quotedPrintableByte parser.qpData ch) >>=
      fun qpData => pure { parser with qpData }) := by
  unfold contentByte
  rw [h]

theorem foldlM_contentByte_quotedPrintable {parser : MailParser}
    (h : parser.encoding = .quotedPrintable) (data : List UInt8) :
    data.foldlM contentByte parser =
      (data.foldlM (fun data ch =>
          asContent quotedPrintableContent.error (quotedPrintableByte data ch))
        parser.qpData >>= fun qpData => pure { parser with qpData }) := by
  induction data generalizing parser with
  | nil => rfl
  | cons ch data ih =>
    rw [List.foldlM_cons, List.foldlM_cons, contentByte_quotedPrintable h, bind_assoc, bind_assoc]
    refine bind_congr_of fun qpData _ => ?_
    rw [pure_bind]
    exact ih h

theorem foldlM_contentByte_raw {parser : MailParser} (h : parser.encoding = .raw)
    (data : List UInt8) :
    Alike MailEvent.header MailEvent.octets (tell [.content data] >>= fun _ => pure parser)
      (data.foldlM contentByte parser) := by
  have hfold : data.foldlM contentByte parser =
      tell (data.map fun ch => MailEvent.content [ch]) >>= fun _ => pure parser := by
    induction data with
    | nil => rfl
    | cons ch data ih =>
      rw [List.foldlM_cons, List.map_cons, ← List.singleton_append, tell_append_bind, ← ih]
      simp only [contentByte, h, bind_assoc, pure_bind]
  rw [hfold]
  have hflat : ([MailEvent.content data] ++ []).flatMap MailEvent.octets =
      ((data.map fun ch => MailEvent.content [ch]) ++ []).flatMap MailEvent.octets := by
    rw [List.append_nil, List.append_nil, List.flatMap_map]
    simp [MailEvent.octets]
  refine ⟨rfl, ?_, hflat ▸ List.prefix_refl _, fun _ _ => hflat⟩
  show ([MailEvent.content data] ++ []).flatMap MailEvent.header =
    ((data.map fun ch => MailEvent.content [ch]) ++ []).flatMap MailEvent.header
  rw [List.append_nil, List.append_nil, List.flatMap_map]
  simp [MailEvent.header]

theorem handleContent_alike (parser : MailParser) (data : List UInt8) :
    Alike MailEvent.header MailEvent.octets (parser.handleContent wideRoom data)
      (data.foldlM contentByte parser) := by
  unfold handleContent
  split
  next h =>
    rw [foldlM_contentByte_base64 h]
    exact (contentChunks_alike fits_base64 _ _).bind fun _ _ => .refl _
  next h =>
    rw [foldlM_contentByte_quotedPrintable h]
    exact (contentChunks_alike fits_quotedPrintable _ _).bind fun _ _ => .refl _
  next h => exact foldlM_contentByte_raw h data

/-! ## 3. The headers -/

/-- What the parser does with a chunk: the bytes of the headers one after the other, and what is
left as content. -/
def readAll (room : Nat) (parser : MailParser) : List UInt8 → MailResult MailParser
  | [] => return parser
  | ch :: data =>
    if parser.state = .content then parser.handleContent room (ch :: data)
    else do
      let parser ← parser.byte env ch
      parser.readAll room data

section Headers

variable {env : MailEnv} {parser : MailParser} {room : Nat}

theorem readAll_content (h : parser.state = .content) {data : List UInt8} (hdata : data ≠ []) :
    parser.readAll env room data = parser.handleContent room data := by
  cases data with
  | nil => exact absurd rfl hdata
  | cons ch data => rw [readAll, if_pos h]

theorem readAll_cons (h : parser.state ≠ .content) (ch : UInt8) (data : List UInt8) :
    parser.readAll env room (ch :: data) =
      parser.byte env ch >>= fun parser => parser.readAll env room data := by
  rw [readAll, if_neg h]

theorem byte_headerName (h : parser.state = .headerName) (ch : UInt8) :
    parser.byte env ch = parser.nameByte env ch := by
  unfold byte
  rw [h]

theorem byte_headerValue (h : parser.state = .headerValue) (ch : UInt8) :
    parser.byte env ch = parser.valueByte ch := by
  unfold byte
  rw [h]

theorem byte_headerValueStart (h : parser.state = .headerValueStart) (ch : UInt8) :
    parser.byte env ch =
      if asciiIsLwsp ch then pure parser else parser.startValue.valueByte ch := by
  unfold byte
  rw [h]

theorem byte_checkContinuation (h : parser.state = .checkContinuation) (ch : UInt8) :
    parser.byte env ch =
      parser.handleCheckContinuation env ch >>= fun parser' => parser'.byte env ch := by
  unfold byte
  rw [h]
  refine bind_congr_of fun parser' hparser' => ?_
  unfold handleCheckContinuation at hparser'
  split at hparser'
  next hlwsp =>
    cases hparser'
    rw [if_pos hlwsp]
  next hlwsp =>
    obtain ⟨_, -, hparser'⟩ := value_bind_eq_ok hparser'
    cases hparser'
    rw [if_neg hlwsp]

-- Bytes of a name that do not end it.
theorem readAll_name {name : List UInt8} (hstate : parser.state = .headerName)
    (h : ∀ ch ∈ name, ¬ (ch = 10 ∨ ch = 58)) (data : List UInt8) :
    parser.readAll env room (name ++ data) =
      ({ parser with buffer := parser.buffer ++ name } : MailParser).readAll env room data := by
  induction name generalizing parser with
  | nil => rw [List.append_nil, List.nil_append]
  | cons ch name ih =>
    rw [List.forall_mem_cons] at h
    have hne : parser.state ≠ .content := by rw [hstate]; decide
    rw [List.cons_append, readAll_cons hne, byte_headerName hstate, nameByte, if_neg h.1,
      pure_bind]
    refine (@ih { parser with buffer := parser.buffer ++ [ch] } hstate h.2).trans ?_
    rw [List.append_assoc, List.singleton_append]

theorem readAll_spaces {spaces : List UInt8} (hstate : parser.state = .headerValueStart)
    (h : ∀ ch ∈ spaces, asciiIsLwsp ch = true) (data : List UInt8) :
    parser.readAll env room (spaces ++ data) = parser.readAll env room data := by
  induction spaces with
  | nil => rfl
  | cons ch spaces ih =>
    rw [List.forall_mem_cons] at h
    have hne : parser.state ≠ .content := by rw [hstate]; decide
    rw [List.cons_append, readAll_cons hne, byte_headerValueStart hstate, if_pos h.1, pure_bind,
      ih h.2]

-- The value starts with the first byte that is no blank.
theorem readAll_startValue (hstate : parser.state = .headerValueStart) {ch : UInt8}
    (h : ¬ asciiIsLwsp ch = true) (data : List UInt8) :
    parser.readAll env room (ch :: data) = parser.startValue.readAll env room (ch :: data) := by
  have hne : parser.state ≠ .content := by rw [hstate]; decide
  have hstart : parser.startValue.state ≠ .content := nofun
  rw [readAll_cons hne, readAll_cons hstart, byte_headerValueStart hstate, if_neg h,
    byte_headerValue rfl]

-- The bytes before the first one with some property.
theorem before_findIdx {p : UInt8 → Bool} {data : List UInt8} {ch : UInt8}
    (h : ch ∈ data.take (data.findIdx p)) : p ch = false := by
  obtain ⟨i, hi, hget⟩ := List.mem_iff_getElem.mp h
  rw [List.length_take] at hi
  rw [List.getElem_take] at hget
  have hnot := @List.not_of_lt_findIdx _ p data i (by omega)
  rwa [hget] at hnot

theorem handleHeaderName_readAll (hstate : parser.state = .headerName) (data : List UInt8) :
    (parser.handleHeaderName env data >>= fun p => p.1.readAll env room (data.drop p.2)) =
      parser.readAll env room data := by
  have hname : ∀ ch ∈ data.take (data.findIdx fun ch => ch = 10 || ch = 58),
      ¬ (ch = 10 ∨ ch = 58) := by
    intro ch hch
    have hfalse := before_findIdx hch
    simpa using hfalse
  conv => rhs; rw [← List.take_append_drop (data.findIdx fun ch => ch = 10 || ch = 58) data]
  rw [readAll_name hstate hname]
  unfold handleHeaderName
  dsimp only
  split
  next hnone => rw [pure_bind]
  next ch hsome =>
    obtain ⟨hlt, hget⟩ := List.getElem?_eq_some_iff.mp hsome
    have hch : ch = 10 ∨ ch = 58 := by
      have hfound := @List.findIdx_getElem _ (fun ch : UInt8 => ch = 10 || ch = 58) data hlt
      rw [hget] at hfound
      simpa using hfound
    rw [List.drop_eq_getElem_cons hlt, hget]
    have hbyte : ∀ name, ({ parser with buffer := parser.buffer ++ name } : MailParser).byte env ch =
        ({ parser with buffer := parser.buffer ++ name } : MailParser).handleNameEnd env ch := by
      intro name
      refine (byte_headerName (by exact hstate) ch).trans ?_
      rw [nameByte, if_pos hch]
    have hne : parser.state ≠ .content := by rw [hstate]; decide
    rw [readAll_cons (by exact hne), hbyte, bind_assoc]
    simp only [pure_bind]

theorem handleHeaderValueStart_readAll (hstate : parser.state = .headerValueStart)
    (data : List UInt8) : (parser.handleHeaderValueStart data).1.readAll env room
        (data.drop (parser.handleHeaderValueStart data).2) = parser.readAll env room data := by
  have hspaces : ∀ ch ∈ data.take (data.findIdx fun ch => !asciiIsLwsp ch),
      asciiIsLwsp ch = true := by
    intro ch hch
    have hfalse := before_findIdx hch
    simpa using hfalse
  conv => rhs; rw [← List.take_append_drop (data.findIdx fun ch => !asciiIsLwsp ch) data]
  rw [readAll_spaces hstate hspaces]
  unfold handleHeaderValueStart
  dsimp only
  split
  next hlt =>
    have hfound := @List.findIdx_getElem _ (fun ch => !asciiIsLwsp ch) data hlt
    have hnot : ¬ asciiIsLwsp data[data.findIdx fun ch => !asciiIsLwsp ch] = true := by
      simpa using hfound
    rw [List.drop_eq_getElem_cons hlt, readAll_startValue hstate hnot]
    rfl
  next => rfl

theorem handleHeaderValue_readAll (hstate : parser.state = .headerValue) (data : List UInt8) :
    (parser.handleHeaderValue data >>= fun p => p.1.readAll env room (data.drop p.2)) =
      parser.readAll env room data := by
  induction data generalizing parser with
  | nil => rfl
  | cons ch data ih =>
    have hne : parser.state ≠ .content := by rw [hstate]; decide
    have hgo : ∀ parser' : MailParser, parser'.state = .headerValue →
        ((parser'.handleHeaderValue data >>= fun p => pure (p.1, p.2 + 1)) >>= fun p =>
          p.1.readAll env room ((ch :: data).drop p.2)) = parser'.readAll env room data := by
      intro parser' hstate'
      rw [bind_assoc, ← ih hstate']
      simp only [pure_bind, List.drop_succ_cons]
    rw [readAll_cons hne, byte_headerValue hstate, handleHeaderValue, valueByte]
    split_ifs
    · refine hgo parser.addSpace ?_
      unfold addSpace
      split <;> exact hstate
    · rfl
    · rfl
    · rfl
    · exact hgo _ hstate

/-- The handlers' loop is that of the bytes, up to the content. -/
theorem drain_eq_readAll (room : Nat) (parser : MailParser) (data : List UInt8) :
    (machine env room).drain parser data = parser.readAll env room data := by
  refine @Machine.drain_eq_of _ _ _ _ (machine env room) (readAll env room) (fun _ => rfl) ?_
    parser data
  intro parser ch data
  have hhandle : (machine env room).handle parser (ch :: data) =
      handle env room parser (ch :: data) := rfl
  rw [hhandle, handle]
  cases hstate : parser.state with
  | headerName => exact handleHeaderName_readAll hstate (ch :: data)
  | headerValueStart =>
    dsimp only
    rw [pure_bind]
    exact handleHeaderValueStart_readAll hstate (ch :: data)
  | headerValue => exact handleHeaderValue_readAll hstate (ch :: data)
  | checkEol =>
    have hbyte : parser.byte env ch = parser.handleCheckEol ch := by
      unfold byte
      rw [hstate]
    rw [readAll_cons (by rw [hstate]; decide), hbyte, bind_assoc]
    rfl
  | checkContinuation =>
    rw [readAll_cons (by rw [hstate]; decide), byte_checkContinuation hstate, bind_assoc,
      bind_assoc]
    refine bind_congr_of fun parser' hparser' => ?_
    have hne : parser'.state ≠ .content := by
      unfold handleCheckContinuation at hparser'
      split at hparser'
      · cases hparser'
        simp
      · obtain ⟨_, -, hparser'⟩ := value_bind_eq_ok hparser'
        cases hparser'
        simp
    rw [pure_bind]
    exact readAll_cons hne ch data
  | content =>
    rw [readAll_content hstate (List.cons_ne_nil ch data), bind_assoc]
    have hdrop : (ch :: data).drop (data.length + 1) = [] := List.drop_length
    simp only [pure_bind, hdrop, readAll, bind_pure]

theorem byte_content (h : parser.state = .content) (data : List UInt8) :
    data.foldlM (byte env) parser = data.foldlM contentByte parser := by
  refine @foldlM_congr_of _ _ _ _ _ _ (fun parser => parser.state = .content) ?_ _ h data
  intro parser ch hstate
  have hbyte : parser.byte env ch = parser.contentByte ch := by
    unfold byte
    rw [hstate]
  refine ⟨hbyte, fun parser' h' => ?_⟩
  rw [hbyte] at h'
  unfold contentByte at h'
  split at h'
  · obtain ⟨base64Data, -, h'⟩ := value_bind_eq_ok h'
    cases h'
    exact hstate
  · obtain ⟨qpData, -, h'⟩ := value_bind_eq_ok h'
    cases h'
    exact hstate
  · cases h'
    exact hstate

/-- With less room the content is the same unless something is written behind the buffer. -/
theorem handleContent_eq_or_overrun (room : Nat) (parser : MailParser) (data : List UInt8) :
    (parser.handleContent room data).value = .error .overrun ∨
      parser.handleContent room data = parser.handleContent wideRoom data := by
  unfold handleContent
  split
  · exact (contentChunks_eq_or_overrun fits_base64 room parser.base64Data data).imp
      value_bind_of_error fun heq => by rw [heq]
  · exact (contentChunks_eq_or_overrun fits_quotedPrintable room parser.qpData data).imp
      value_bind_of_error fun heq => by rw [heq]
  · exact .inr rfl

theorem readAll_alike (room : Nat) (parser : MailParser) (data : List UInt8) :
    (parser.readAll env room data).value = .error .overrun ∨
      Alike MailEvent.header MailEvent.octets (parser.readAll env room data)
        (data.foldlM (byte env) parser) := by
  induction data generalizing parser with
  | nil => exact .inr (.refl _)
  | cons ch data ih =>
    by_cases hstate : parser.state = .content
    · rw [readAll_content hstate (List.cons_ne_nil ch data), byte_content hstate]
      refine (handleContent_eq_or_overrun room parser (ch :: data)).imp id fun heq => ?_
      rw [heq]
      exact handleContent_alike parser (ch :: data)
    · rw [readAll_cons hstate, List.foldlM_cons]
      exact Alike.bind_or fun parser' _ => ih parser'

end Headers

end MailParser

/-! ## 4. Mails -/

/-- The parser on a mail, one byte at a time. -/
def parseBytes (env : MailEnv) (mail : List UInt8) : MailResult Unit := do
  let parser ← mail.foldlM (MailParser.byte env) {}
  parser.finish

theorem parse_chunks_alike (env : MailEnv) (parser : MailParser) (chunks : List (List UInt8)) :
    (chunks.foldlM (MailParser.parse env) parser).value = .error .overrun ∨
      Alike MailEvent.header MailEvent.octets (chunks.foldlM (MailParser.parse env) parser)
        (chunks.flatten.foldlM (MailParser.byte env) parser) := by
  induction chunks generalizing parser with
  | nil => exact .inr (.refl _)
  | cons chunk chunks ih =>
    rw [List.foldlM_cons, List.flatten_cons, List.foldlM_append]
    have hchunk := @MailParser.readAll_alike env MailParser.contentBufSize parser chunk
    rw [← MailParser.drain_eq_readAll] at hchunk
    rcases hchunk with herror | halike
    · exact .inl (value_bind_of_error herror)
    · exact halike.bind_or_of fun parser' _ => ih parser'

/-- Unless it has written outside of a buffer, the parser has done what it does with the bytes one
after the other. -/
theorem parseMail_alike (env : MailEnv) (chunks : List (List UInt8)) :
    (parseMail env chunks).value = .error .overrun ∨
      Alike MailEvent.header MailEvent.octets (parseMail env chunks)
        (parseBytes env chunks.flatten) := by
  rcases parse_chunks_alike env {} chunks with herror | halike
  · exact .inl (value_bind_of_error herror)
  · exact .inr (halike.bind fun _ _ => .refl _)

end Notbit.Mail
