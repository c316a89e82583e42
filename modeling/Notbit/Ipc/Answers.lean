import Notbit.Ipc.Client
import Notbit.Ipc.LifeCycle

/-!
# Answers — what a program gets out of the socket (`ntb-ipc-client.c`)

The bytes that come from the daemon are whole commands and perhaps the start of one more.  What
`ntb_ipc_client_get_response` makes of them is said by `replyTo`, of the responses to its request
alone, and does not depend on how `read` cuts the bytes (`getResponse_pieces`).  The responses of a
daemon are such commands, so the client that waits for one of them gets its data
(`getResponse_responses`).
-/

open Bytes Framing Notbit.Proto

namespace Notbit.Ipc

/-! ## 1. Whole commands -/

/-- A command of the stream, with a name and sizes that fit its header. -/
structure Message where
  name : CString
  requestId : Nat
  payload : List UInt8
  name_short : name.bytes.length ≤ 11
  requestId_lt : requestId < 2 ^ 32
  noWrap : NoWrap payload.length

namespace Message

def bytes (m : Message) : List UInt8 := frame m.name.bytes m.requestId m.payload

/-- The response to a request. -/
def Answers (requestId : Nat) (m : Message) : Prop :=
  m.name.bytes = ascii "response" ∧ m.requestId = requestId

instance (requestId : Nat) (m : Message) : Decidable (m.Answers requestId) :=
  inferInstanceAs (Decidable (_ ∧ _))

/-- The payloads of the responses to a request. -/
def responses (requestId : Nat) (messages : List Message) : List (List UInt8) :=
  (messages.filter fun m => m.Answers requestId).map payload

end Message

/-- The bytes of a list of commands. -/
def streamOf (messages : List Message) : List UInt8 := messages.flatMap Message.bytes

section Find

variable {data more : List UInt8} {h : Header}

theorem find_command_requestId (hfind : find data = .command h) :
    h.requestId = announcedRequestId data := by
  unfold find at hfind
  split_ifs at hfind
  cases hfind
  rfl

/-- A command that is there stays there when more arrives. -/
theorem find_append (hfind : find data = .command h) : find (data ++ more) = .command h := by
  obtain ⟨hheader, hsize, hname, hlength⟩ := find_command hfind
  have hid := find_command_requestId hfind
  obtain ⟨hname', hlength', hid'⟩ := header_append more hheader
  unfold find
  rw [hlength', hname', hid', hname, ← hlength, ← hid, if_neg (by rw [List.length_append]; omega),
    if_neg (by rw [List.length_append]; omega)]
  rfl

variable (more) in
/-- The client waits for a header, and then for as many bytes as the header says. -/
theorem find_of_prefix (hsize : data.length < headerSize ∨
    data.length < commandSize (announcedLength (data ++ more))) : find data = .incomplete := by
  unfold find
  by_cases hheader : data.length < headerSize
  · rw [if_pos hheader]
  · rw [(header_append more (Nat.le_of_not_lt hheader)).2.1] at hsize
    rw [if_neg hheader, if_pos (hsize.resolve_left hheader)]

variable (more) in
/-- What is incomplete was incomplete when less of it was there. -/
theorem find_of_append (hfind : find (data ++ more) = .incomplete) : find data = .incomplete := by
  apply find_of_prefix more
  unfold find at hfind
  split_ifs at hfind with hheader hsize
  · left
    rw [List.length_append] at hheader
    omega
  · right
    rw [List.length_append] at hsize
    omega

end Find

namespace Message

variable (m : Message) (more : List UInt8)

theorem length_bytes : m.bytes.length = headerSize + m.payload.length :=
  length_frame (m.name_short.trans (by norm_num))

theorem find_bytes :
    find m.bytes = .command { requestId := m.requestId, length := m.payload.length } :=
  (find_frame m.name m.requestId m.payload m.name_short m.requestId_lt m.noWrap).1

theorem commandSize_payload : commandSize m.payload.length = m.bytes.length := by
  rw [commandSize_of_noWrap m.noWrap, length_bytes, Nat.add_comm]

/-- What stands at the start of a command and more bytes is the command. -/
theorem find_bytes_append : find (m.bytes ++ more) =
    .command { requestId := m.requestId, length := m.payload.length } :=
  find_append m.find_bytes

/-- A part of a command is no command. -/
theorem find_part {data rest : List UInt8} (hdata : data ++ rest = m.bytes ++ more)
    (hshort : data.length < m.bytes.length) : find data = .incomplete := by
  refine find_of_prefix rest (Or.inr ?_)
  have hlength := (find_command (m.find_bytes_append more)).2.2.2
  rw [hdata, ← hlength, commandSize_payload]
  exact hshort

theorem isResponse_iff (requestId : Nat) :
    ResponseState.IsResponse requestId (m.bytes ++ more) ↔ m.Answers requestId := by
  obtain ⟨-, hname, -⟩ :=
    find_frame m.name m.requestId m.payload m.name_short m.requestId_lt m.noWrap
  have hheader : headerSize ≤ m.bytes.length := by
    rw [length_bytes]
    omega
  obtain ⟨hname', -, hid'⟩ := header_append more hheader
  have hid := find_command_requestId m.find_bytes
  unfold ResponseState.IsResponse Answers
  rw [hid', ← hid]
  unfold commandName at hname ⊢
  rw [hname']
  change (List.takeWhile _ (List.take 12 m.bytes)) = _ at hname
  rw [hname]

theorem drop_header : (m.bytes ++ more).drop headerSize = m.payload ++ more := by
  obtain ⟨-, -, hpayload⟩ :=
    find_frame m.name m.requestId m.payload m.name_short m.requestId_lt m.noWrap
  rw [List.drop_append_of_le_length (by rw [length_bytes]; omega)]
  exact congrArg (· ++ more) hpayload

end Message

/-! ## 2. What the client answers -/

/-- A response that is cut off before its status, or one that comes after another. -/
def Refuses : List (List UInt8) → Prop
  | [] => False
  | [payload] => payload.length < 4
  | _ :: _ :: _ => True

instance : DecidablePred Refuses
  | [] => inferInstanceAs (Decidable False)
  | [payload] => inferInstanceAs (Decidable (payload.length < 4))
  | _ :: _ :: _ => inferInstanceAs (Decidable True)

/-- The answer to a request of which these are the responses, when no more bytes come. -/
def answer : List (List UInt8) → Except ClientError (List UInt8)
  | [] => .error { code := .noResponse, message := ascii "No response received from IPC socket" }
  | payload :: _ =>
    if ofBE (payload.take 4) = 0 then .ok (payload.drop 4)
    else .error { code := .commandFailed
                  message := ascii "command failed: " ++ (payload.drop 4).takeWhile (· ≠ 0) }

/-- The answer when the stream ends behind `tail`, the start of a command. -/
def replyTo (strerror tail : List UInt8) (responses : List (List UInt8)) :
    Except ClientError (List UInt8) :=
  if Refuses responses then
    .error { code := .invalidResponse
             message := ascii "Invalid response command received from IPC connection" }
  else if tail ≠ [] then
    .error { code := .file
             message := ascii "Invalid data received from IPC socket: " ++ strerror }
  else answer responses

@[simp] theorem streamOf_nil : streamOf [] = [] := rfl

theorem streamOf_cons (m : Message) (messages : List Message) :
    streamOf (m :: messages) = m.bytes ++ streamOf messages := rfl

theorem Message.responses_nil (requestId : Nat) : Message.responses requestId [] = [] := rfl

theorem Message.responses_singleton (requestId : Nat) (m : Message) :
    Message.responses requestId [m] = if m.Answers requestId then [m.payload] else [] := by
  by_cases h : m.Answers requestId <;> simp [Message.responses, h]

theorem Message.responses_append (requestId : Nat) (front back : List Message) :
    Message.responses requestId (front ++ back) =
      Message.responses requestId front ++ Message.responses requestId back := by
  rw [Message.responses, List.filter_append, List.map_append]
  rfl

theorem Message.responses_cons (requestId : Nat) (m : Message) (messages : List Message) :
    Message.responses requestId (m :: messages) =
      Message.responses requestId [m] ++ Message.responses requestId messages :=
  Message.responses_append requestId [m] messages

/-- What has been refused stays refused. -/
theorem Refuses.append {seen : List (List UInt8)} (h : Refuses seen) (more : List (List UInt8)) :
    Refuses (seen ++ more) := by
  match seen, more, h with
  | [_], [], h => exact h
  | [_], _ :: _, _ => exact trivial
  | _ :: _ :: _, _, _ => exact trivial

/-! ## 3. The loops of the client -/

namespace ResponseState

/-- What `ntb_ipc_client_get_response` gives its caller. -/
def result (s : ResponseState) : Except ClientError (List UInt8) :=
  match s.error with
  | some error => .error error
  | none => .ok s.responseBuf

/-- The end of `read_commands`. -/
def ended (s : ResponseState) : ResponseState :=
  if s.error = none ∧ s.hadResponse = false then
    s.setResponseError .noResponse (ascii "No response received from IPC socket")
  else s

theorem getResponse_eq (env : Unwritten) (requestId : Nat) (reads : List ReadResult) :
    getResponse env requestId reads = (readLoop env { requestId } reads).ended.result := rfl

/-- The client after the responses `seen`, none of which it has refused. -/
structure Has (requestId : Nat) (seen : List (List UInt8)) (s : ResponseState) : Prop where
  requestId : s.requestId = requestId
  hadResponse : s.hadResponse = true ↔ seen ≠ []
  accepted : ¬ Refuses seen
  waiting : seen = [] → s.error = none ∧ s.responseBuf = []
  answered : seen ≠ [] → s.result = answer seen

/-- The client has refused a response. -/
def Refused (s : ResponseState) : Prop :=
  s.error = some { code := .invalidResponse
                   message := ascii "Invalid response command received from IPC connection" }

variable {env : Unwritten} {s s' : ResponseState} {requestId : Nat} {seen : List (List UInt8)}

/-- The list of commands plays no part. -/
theorem Has.list (h : s.Has requestId seen) (c : Command) :
    ({ s with handled := s.handled ++ [c] } : ResponseState).Has requestId seen :=
  ⟨h.requestId, h.hadResponse, h.accepted, h.waiting, h.answered⟩

/-- Nor does the buffer. -/
theorem Has.withBuf (h : s.Has requestId seen) (buf : List UInt8) :
    ({ s with buf } : ResponseState).Has requestId seen :=
  ⟨h.requestId, h.hadResponse, h.accepted, h.waiting, h.answered⟩

/-- `handle_response` takes the first response if it has a status, and refuses every other. -/
theorem Has.handleResponse (h : s.Has requestId seen) {mem : Memory} {payload : List UInt8}
    (hmem : Holds mem 0 payload) :
    (∃ s', s.handleResponse mem payload.length = (s', true) ∧
        s'.Has requestId (seen ++ [payload]) ∧ s'.buf = s.buf) ∨
      (∃ s', s.handleResponse mem payload.length = (s', false) ∧ s'.Refused ∧
        Refuses (seen ++ [payload])) := by
  unfold ResponseState.handleResponse
  by_cases hbad : payload.length < 4 ∨ s.hadResponse = true
  · rw [if_pos hbad]
    refine Or.inr ⟨_, rfl, rfl, ?_⟩
    match seen, h, hbad with
    | [], h, hbad =>
      have hfirst : ¬ s.hadResponse = true := fun had => h.hadResponse.mp had rfl
      exact hbad.resolve_right hfirst
    | [_], _, _ => exact trivial
    | _ :: _ :: _, _, _ => exact trivial
  · rw [if_neg hbad]
    obtain ⟨hstatus, hfirst⟩ := not_or.mp hbad
    have hseen : seen = [] := by
      by_contra hne
      exact hfirst (h.hadResponse.mpr hne)
    subst hseen
    obtain ⟨herror, hbuf⟩ := h.waiting rfl
    -- the status and the data are the two parts of the payload
    have hparts : window mem 0 4 = payload.take 4 ∧
        window mem 4 (payload.length - 4) = payload.drop 4 := by
      apply List.append_inj
      · rw [List.take_append_drop, ← window_add mem 0,
          Nat.add_sub_cancel' (Nat.le_of_not_lt hstatus)]
        exact hmem
      · rw [length_window, List.length_take]
        omega
    simp only [hparts.1, hparts.2]
    refine Or.inl ⟨_, rfl, ?_, ?_⟩
    · by_cases hzero : ofBE (payload.take 4) = 0
      · rw [if_neg (not_not.mpr hzero)]
        exact ⟨h.requestId, by simp, hstatus, by simp,
          fun _ => by simp [result, answer, herror, hbuf, hzero]⟩
      · rw [if_pos hzero]
        exact ⟨h.requestId, by simp, hstatus, by simp,
          fun _ => by simp [result, answer, setResponseError, hzero]⟩
    · split <;> rfl

variable (env) in
/-- One round over a whole command: it is passed, or it is a response and refused. -/
theorem Has.round (h : s.Has requestId seen) (m : Message) (more : List UInt8) :
    (∃ s', ResponseState.round env s (m.bytes ++ more) = .take m.bytes.length s' ∧
        s'.Has requestId (seen ++ Message.responses requestId [m]) ∧ s'.buf = s.buf) ∨
      (∃ s', ResponseState.round env s (m.bytes ++ more) = .stop () s' ∧ s'.Refused ∧
        Refuses (seen ++ Message.responses requestId [m])) := by
  have hfind := m.find_bytes_append more
  rw [← m.commandSize_payload]
  unfold ResponseState.round
  rw [hfind, Message.responses_singleton]
  dsimp only
  obtain rfl := h.requestId
  by_cases hours : m.Answers s.requestId
  · rw [if_pos ((m.isResponse_iff more _).mpr hours), if_pos hours]
    have hmem : Holds (overlay ((m.bytes ++ more).drop headerSize) (env.behind s.buf)) 0
        m.payload := by
      rw [m.drop_header more]
      exact ((holds_append _ _ _ _).mp (holds_overlay _ _)).1
    have hlisted := h.list
      { requestId := m.requestId, length := m.payload.length,
        start := s.buf.length - (m.bytes ++ more).length }
    rcases hlisted.handleResponse hmem with ⟨s', htrue, hhas, hbuf⟩ | ⟨s', hfalse, hrefused⟩
    · rw [htrue]
      exact Or.inl ⟨s', rfl, hhas, hbuf⟩
    · rw [hfalse]
      exact Or.inr ⟨s', rfl, hrefused⟩
  · rw [if_neg fun hresponse => hours ((m.isResponse_iff more _).mp hresponse), if_neg hours,
      List.append_nil]
    exact Or.inl ⟨s, rfl, h, rfl⟩

/-- What is left in the buffer, with the bytes that are still to come, is whole commands and the
start of one more, and the first of them is not there yet. -/
structure Left (buf more : List UInt8) (messages : List Message) (tail : List UInt8) : Prop where
  stream : buf ++ more = streamOf messages ++ tail
  unfinished : find buf = .incomplete

variable (env) in
/-- The loop goes over whole commands: it takes those that are there, or one of them is refused. -/
theorem Has.loop {data more tail : List UInt8} {messages : List Message}
    (h : s.Has requestId seen) (hstream : data ++ more = streamOf messages ++ tail)
    (htail : find tail = .incomplete) {fuel : Nat} (hfuel : data.length < fuel) :
    let r := Framing.loop (ResponseState.round env) fuel s data
    (r.stopped = none ∧ ∃ front back, messages = front ++ back ∧ Left r.rest more back tail ∧
        r.state.Has requestId (seen ++ Message.responses requestId front)) ∨
      (r.stopped = some () ∧ r.state.Refused ∧
        Refuses (seen ++ Message.responses requestId messages)) := by
  induction messages generalizing fuel s seen data with
  | nil =>
    have hfind : find data = .incomplete := by
      apply find_of_append more
      rw [hstream]
      exact htail
    rw [loop_wait fuel (round_incomplete hfind)]
    refine Or.inl ⟨rfl, [], [], rfl, ⟨hstream, hfind⟩, ?_⟩
    rwa [Message.responses_nil, List.append_nil]
  | cons m messages ih =>
    rw [streamOf_cons, List.append_assoc] at hstream
    by_cases hshort : data.length < m.bytes.length
    · have hfind := m.find_part _ hstream hshort
      rw [loop_wait fuel (round_incomplete hfind)]
      refine Or.inl ⟨rfl, [], m :: messages, rfl, ⟨?_, hfind⟩, ?_⟩
      · rw [streamOf_cons, List.append_assoc]
        exact hstream
      · rwa [Message.responses_nil, List.append_nil]
    · -- the whole command is there, and one round goes over it
      obtain ⟨data, rfl⟩ := List.prefix_of_prefix_length_le (List.prefix_append m.bytes _)
        (hstream ▸ List.prefix_append data more) (Nat.le_of_not_lt hshort)
      obtain ⟨fuel, rfl⟩ : ∃ k, fuel = k + 1 := ⟨fuel - 1, by omega⟩
      rw [List.append_assoc] at hstream
      rw [Message.responses_cons, ← List.append_assoc]
      rcases h.round env m data with ⟨s', htake, hhas, -⟩ | ⟨s', hstop, hrefused, hrefuses⟩
      · rw [loop_take fuel htake, List.drop_left]
        have hlength : data.length < fuel := by
          rw [List.length_append, m.length_bytes, headerSize_eq] at hfuel
          omega
        rcases ih hhas (List.append_cancel_left hstream) hlength with
          ⟨hgoes, front, back, rfl, hleft, hhas'⟩ | hstopped
        · refine Or.inl ⟨hgoes, m :: front, back, rfl, hleft, ?_⟩
          rw [Message.responses_cons, ← List.append_assoc]
          exact hhas'
        · exact Or.inr hstopped
      · rw [loop_stop fuel hstop]
        exact Or.inr ⟨rfl, hrefused, hrefuses.append _⟩

variable (env) in
/-- `process_commands` leaves the start of a command, or it has refused a response. -/
theorem Has.processCommands {more tail : List UInt8} {messages : List Message}
    (h : s.Has requestId seen) (hstream : s.buf ++ more = streamOf messages ++ tail)
    (htail : find tail = .incomplete) :
    (∃ s' front back, s.processCommands env = (s', true) ∧ messages = front ++ back ∧
        Left s'.buf more back tail ∧
        s'.Has requestId (seen ++ Message.responses requestId front)) ∨
      (∃ s', s.processCommands env = (s', false) ∧ s'.Refused ∧
        Refuses (seen ++ Message.responses requestId messages)) := by
  unfold ResponseState.processCommands
  rcases h.loop env hstream htail (Nat.lt_succ_self _) with
    ⟨hgoes, front, back, hmessages, hleft, hhas⟩ | ⟨hstopped, hrefused, hrefuses⟩
  · dsimp only
    rw [hgoes, hleft.unfinished]
    exact Or.inl ⟨_, front, back, rfl, hmessages, hleft, hhas.withBuf _⟩
  · dsimp only
    rw [hstopped]
    exact Or.inr ⟨_, rfl, hrefused, hrefuses⟩

variable (env) in
/-- The loop of `read_commands` up to the end of the stream: it has seen all responses and keeps the
start of a command, or it has refused one. -/
theorem Has.readLoop {tail : List UInt8} {messages : List Message} (pieces : List (List UInt8))
    (strerror : List UInt8) (h : s.Has requestId seen)
    (hleft : Left s.buf pieces.flatten messages tail) (htail : find tail = .incomplete) :
    (∃ s', s'.Has requestId (seen ++ Message.responses requestId messages) ∧
        s.readLoop env (pieces.map .got ++ [.eof strerror]) =
          if tail ≠ [] then s'.setResponseError .file
            (ascii "Invalid data received from IPC socket: " ++ strerror) else s') ∨
      ((s.readLoop env (pieces.map .got ++ [.eof strerror])).Refused ∧
        Refuses (seen ++ Message.responses requestId messages)) := by
  induction pieces generalizing s seen messages with
  | nil =>
    obtain ⟨hstream, hunfinished⟩ := hleft
    rw [List.flatten_nil, List.append_nil] at hstream
    match messages, hstream with
    | [], hstream =>
      rw [streamOf_nil, List.nil_append] at hstream
      rw [Message.responses_nil, List.append_nil, ← hstream]
      exact Or.inl ⟨s, h, rfl⟩
    | m :: messages, hstream =>
      -- a whole command would have been found
      rw [hstream, streamOf_cons, List.append_assoc, m.find_bytes_append] at hunfinished
      cases hunfinished
  | cons piece pieces ih =>
    have hstream : s.buf ++ piece ++ pieces.flatten = streamOf messages ++ tail := by
      rw [List.append_assoc, ← List.flatten_cons]
      exact hleft.stream
    rw [List.map_cons, List.cons_append, ResponseState.readLoop]
    rcases (h.withBuf (s.buf ++ piece)).processCommands env hstream htail with
      ⟨s', front, back, htrue, rfl, hleft', hhas⟩ | ⟨s', hfalse, hrefused⟩
    · rw [htrue, Message.responses_append, ← List.append_assoc]
      exact ih hhas hleft'
    · rw [hfalse]
      exact Or.inr hrefused

theorem has_start (requestId : Nat) : ({ requestId } : ResponseState).Has requestId [] where
  requestId := rfl
  hadResponse := by simp
  accepted := id
  waiting _ := ⟨rfl, rfl⟩
  answered hne := absurd rfl hne

/-- At the end of a stream of whole commands the client answers with what it has. -/
theorem Has.ended (h : s.Has requestId seen) : s.ended.result = answer seen := by
  unfold ResponseState.ended
  by_cases hseen : seen = []
  · subst hseen
    obtain ⟨herror, -⟩ := h.waiting rfl
    have hhad : s.hadResponse = false := by
      simpa using mt h.hadResponse.mp (not_not.mpr rfl)
    rw [if_pos ⟨herror, hhad⟩]
    rfl
  · rw [if_neg fun hnone => by
      rw [h.hadResponse.mpr hseen] at hnone
      cases hnone.2]
    exact h.answered hseen

/-- An error is what the caller gets. -/
theorem result_ended_of_error {error : ClientError} (h : s.error = some error) :
    s.ended.result = .error error := by
  unfold ended result
  have hkept : ¬ (s.error = none ∧ s.hadResponse = false) := by simp [h]
  rw [if_neg hkept, h]

end ResponseState

/-! ## 4. Whole answers -/

/-- However `read` cuts the stream, the client answers with what the responses to its request say:
the data of the only one with status 0, the error of the only one with another status, or an error
of its own. -/
theorem getResponse_pieces (env : Unwritten) (requestId : Nat) (messages : List Message)
    (pieces : List (List UInt8)) (tail strerror : List UInt8) (htail : find tail = .incomplete)
    (hpieces : pieces.flatten = streamOf messages ++ tail) :
    getResponse env requestId (pieces.map .got ++ [.eof strerror]) =
      replyTo strerror tail (Message.responses requestId messages) := by
  have hleft : ResponseState.Left [] pieces.flatten messages tail :=
    ⟨by rw [List.nil_append, hpieces], by decide⟩
  rw [ResponseState.getResponse_eq]
  unfold replyTo
  rcases (ResponseState.has_start requestId).readLoop env pieces strerror hleft htail with
    ⟨s, hhas, hloop⟩ | ⟨hrefused, hrefuses⟩
  · rw [List.nil_append] at hhas
    rw [hloop, if_neg hhas.accepted]
    by_cases hwhole : tail ≠ []
    · rw [if_pos hwhole, if_pos hwhole]
      exact ResponseState.result_ended_of_error rfl
    · rw [if_neg hwhole, if_neg hwhole]
      exact hhas.ended
  · rw [List.nil_append] at hrefuses
    rw [if_pos hrefuses]
    exact ResponseState.result_ended_of_error hrefused

/-- A response of the daemon that fits a header. -/
structure Response.Fits (r : Response) : Prop where
  requestId_lt : r.requestId < 2 ^ 32
  noWrap : NoWrap (4 + r.data.length)

/-- The command that carries a response. -/
def Response.message (r : Response) (h : r.Fits) : Message where
  name := Conn.response
  requestId := r.requestId
  payload := add32 r.status.code ++ r.data
  name_short := by decide
  requestId_lt := h.requestId_lt
  noWrap := by
    rw [List.length_append, add32, length_toBE]
    exact h.noWrap

/-- The payload of a response. -/
def Response.payload (r : Response) : List UInt8 := add32 r.status.code ++ r.data

theorem Response.length_status (r : Response) : (add32 r.status.code).length = 4 := length_toBE 4 _

theorem streamOf_pmap (responses : List Response) (hfits : ∀ r ∈ responses, r.Fits) :
    streamOf (responses.pmap Response.message hfits) = responses.flatMap Response.bytes := by
  induction responses with
  | nil => rfl
  | cons r responses ih =>
    rw [List.pmap_cons, streamOf_cons, ih, List.flatMap_cons]
    rfl

theorem responses_pmap (requestId : Nat) (responses : List Response)
    (hfits : ∀ r ∈ responses, r.Fits) :
    Message.responses requestId (responses.pmap Response.message hfits) =
      (responses.filter fun r => r.requestId = requestId).map Response.payload := by
  induction responses with
  | nil => rfl
  | cons r responses ih =>
    rw [List.pmap_cons, Message.responses_cons, ih, List.filter_cons]
    by_cases hid : r.requestId = requestId
    · have hanswers : (r.message (hfits r List.mem_cons_self)).Answers requestId := ⟨rfl, hid⟩
      rw [Message.responses_singleton, if_pos hanswers, if_pos (decide_eq_true hid), List.map_cons]
      rfl
    · have hother : ¬ (r.message (hfits r List.mem_cons_self)).Answers requestId := fun h => hid h.2
      rw [Message.responses_singleton, if_neg hother, if_neg (by simpa using hid), List.nil_append]

/-- The status comes back as it was written. -/
theorem answer_payload (r : Response) : answer [r.payload] =
    if r.status = .success then .ok r.data
    else .error { code := .commandFailed
                  message := ascii "command failed: " ++ r.data.takeWhile (· ≠ 0) } := by
  have hlength := r.length_status
  have hstatus : ofBE (add32 r.status.code) = 0 ↔ r.status = .success := by
    cases r.status <;> decide
  unfold answer Response.payload
  simp only [List.take_left' hlength, List.drop_left' hlength, hstatus]

/-- A client whose request the daemon answers once gets the data if the status is a success, and
otherwise the text of the failure, whatever else the daemon answers and however it is cut. -/
theorem getResponse_responses (env : Unwritten) (before after : List Response) (r : Response)
    (pieces : List (List UInt8)) (strerror : List UInt8)
    (hfits : ∀ r' ∈ before ++ r :: after, r'.Fits)
    (honce : ∀ r' ∈ before ++ after, r'.requestId ≠ r.requestId)
    (hpieces : pieces.flatten = (before ++ r :: after).flatMap Response.bytes) :
    getResponse env r.requestId (pieces.map .got ++ [.eof strerror]) =
      if r.status = .success then .ok r.data
      else .error { code := .commandFailed
                    message := ascii "command failed: " ++ r.data.takeWhile (· ≠ 0) } := by
  have honly : (before ++ r :: after).filter (fun r' => r'.requestId = r.requestId) = [r] := by
    have hnone : ∀ l : List Response, (∀ r' ∈ l, r' ∈ before ++ after) →
        l.filter (fun r' => r'.requestId = r.requestId) = [] := fun l hl =>
      List.filter_eq_nil_iff.mpr fun r' hr' => by simpa using honce r' (hl r' hr')
    rw [List.filter_append, List.filter_cons_of_pos (by simp),
      hnone before fun r' => List.mem_append_left after,
      hnone after fun r' => List.mem_append_right before]
    rfl
  have hstream : pieces.flatten =
      streamOf ((before ++ r :: after).pmap Response.message hfits) ++ [] := by
    rw [streamOf_pmap, List.append_nil, hpieces]
  have haccepted : ¬ Refuses [r.payload] := by
    have hlength := r.length_status
    rw [Refuses, Response.payload, List.length_append]
    omega
  rw [getResponse_pieces env r.requestId _ pieces [] strerror (by decide) hstream, responses_pmap,
    honly, replyTo, List.map_singleton, if_neg haccepted, if_neg (not_not.mpr rfl)]
  exact answer_payload r

-- The answer to request 2 in a stream with another answer before it, cut in the middle of a header.
example :
    let env : Unwritten := { behind := fun _ _ => 0, fill := fun _ _ => 0 }
    let stream := ({ requestId := 1, status := .unsupported, data := [] } : Response).bytes ++
      ({ requestId := 2, status := .success, data := ascii "key" } : Response).bytes
    getResponse env 2 [.got (stream.take 30), .got (stream.drop 30), .eof []] =
      .ok (ascii "key") := by
  decide +kernel

end Notbit.Ipc
