import Notbit.Ipc.Server

/-!
# Client — how a program waits for the answer of the daemon (`ntb-ipc-client.c`)

The client reads commands until the daemon closes the socket and keeps the answer to its own request.
Its loop makes the same test as the loop of the daemon, in the same 32-bit arithmetic, and both go
wrong in the same way when a length field is close to `2 ^ 32`.
-/

open Bytes Framing Notbit.Proto

namespace Notbit.Ipc

/-! ## 1. The state of a request -/

/-- `enum ntb_ipc_client_error`, and the errors of the file domain. -/
inductive ErrorCode where
  | invalidData | invalidResponse | commandFailed | noResponse
  | file
  deriving DecidableEq, Repr

structure ClientError where
  code : ErrorCode
  message : List UInt8
  deriving DecidableEq, Repr

/-- `struct response_state`, with the commands that were given to `handle_response`.  `hung` says
that `process_commands` does not return. -/
structure ResponseState where
  buf : List UInt8 := []
  responseBuf : List UInt8 := []
  error : Option ClientError := none
  requestId : Nat
  hadResponse : Bool := false
  hung : Bool := false
  handled : List Command := []

namespace ResponseState

/-- `set_response_error`: the last error counts. -/
def setResponseError (s : ResponseState) (code : ErrorCode) (message : List UInt8) :
    ResponseState :=
  { s with error := some { code, message } }

/-- `handle_response`; in `mem` the payload stands at address 0. -/
def handleResponse (mem : Memory) (s : ResponseState) (dataLength : Nat) : ResponseState × Bool :=
  if dataLength < 4 ∨ s.hadResponse = true then
    (s.setResponseError .invalidResponse
      (ascii "Invalid response command received from IPC connection"), false)
  else
    let status := ofBE (window mem 0 4)
    let payload := window mem 4 (dataLength - 4)
    let s := if status ≠ 0 then
      s.setResponseError .commandFailed (ascii "command failed: " ++ payload.takeWhile (· ≠ 0))
      else s
    ({ s with hadResponse := true, responseBuf := s.responseBuf ++ payload }, true)

/-- The response to a request: its name and its request id. -/
def IsResponse (requestId : Nat) (data : List UInt8) : Prop :=
  commandName data = ascii "response" ∧ announcedRequestId data = requestId

instance (requestId : Nat) (data : List UInt8) : Decidable (IsResponse requestId data) :=
  inferInstanceAs (Decidable (_ ∧ _))

/-- One round of the loop of `process_commands`. -/
def round (env : Unwritten) (s : ResponseState) (data : List UInt8) : Verdict ResponseState Unit :=
  match find data with
  | .incomplete => .wait
  | .invalid => .stop () (s.setResponseError .invalidData
      (ascii "Invalid data received from IPC connection"))
  | .command h =>
    if IsResponse s.requestId data then
      let mem := overlay (data.drop headerSize) (env.behind s.buf)
      let s := { s with
        handled := s.handled ++
          [({ toHeader := h, start := s.buf.length - data.length } : Command)] }
      match s.handleResponse mem h.length with
      | (s', true) => .take (commandSize h.length) s'
      | (s', false) => .stop () s'
    else .take (commandSize h.length) s

/-- `process_commands`: what is left moves to the front of the buffer. -/
def processCommands (env : Unwritten) (s : ResponseState) : ResponseState × Bool :=
  let r := loop (round env) (s.buf.length + 1) s s.buf
  match r.stopped, find r.rest with
  | none, .incomplete => ({ r.state with buf := r.rest }, true)
  | none, _ => ({ r.state with hung := true }, false)
  | some _, _ => (r.state, false)

/-- What `read` gives: an error, the end of the stream or some bytes. -/
inductive ReadResult where
  | failed (strerror : List UInt8)
  | eof (strerror : List UInt8)
  | got (piece : List UInt8)

/-- The loop of `read_commands` over the results of its calls of `read`. -/
def readLoop (env : Unwritten) (s : ResponseState) : List ReadResult → ResponseState
  | [] => s
  | .failed strerror :: _ =>
    s.setResponseError .file (ascii "Error reading from IPC socket: " ++ strerror)
  | .eof strerror :: _ =>
    if s.buf ≠ [] then
      s.setResponseError .file (ascii "Invalid data received from IPC socket: " ++ strerror)
    else s
  | .got piece :: reads =>
    match processCommands env { s with buf := s.buf ++ piece } with
    | (s', true) => readLoop env s' reads
    | (s', false) => s'

/-- `read_commands` -/
def readCommands (env : Unwritten) (s : ResponseState) (reads : List ReadResult) : ResponseState :=
  let s := readLoop env s reads
  if s.error = none ∧ s.hadResponse = false then
    s.setResponseError .noResponse (ascii "No response received from IPC socket")
  else s

end ResponseState

/-- `ntb_ipc_client_get_response` -/
def getResponse (env : Unwritten) (requestId : Nat) (reads : List ResponseState.ReadResult) :
    Except ClientError (List UInt8) :=
  let s := ResponseState.readCommands env { requestId } reads
  match s.error with
  | some error => .error error
  | none => .ok s.responseBuf

/-! ## 2. Where the loops go -/

/-- A header with a length so close to `2 ^ 32` that it is taken for a whole command, while its
payload is not there. -/
def LooksWhole (data : List UInt8) : Prop :=
  headerSize ≤ data.length ∧ checkCommandString (data.take 12) = true ∧
    ¬ NoWrap (announcedLength data) ∧ data.length < headerSize + announcedLength data

instance (data : List UInt8) : Decidable (LooksWhole data) :=
  inferInstanceAs (Decidable (_ ∧ _ ∧ _ ∧ _))

/-- The places in the data that are reached by stepping over commands by their 32-bit sizes. -/
inductive Walk : List UInt8 → List UInt8 → Prop where
  | here {data : List UInt8} : Walk data data
  | past {data d : List UInt8} {h : Header} (hfind : find data = .command h)
      (hrest : Walk (data.drop (commandSize h.length)) d) : Walk data d

/-- The same for a client that waits for `requestId`: it goes over the commands of others and over
one response, if that has a status; `had` says whether it has had it. -/
inductive ClientWalk (requestId : Nat) : Bool → List UInt8 → List UInt8 → Prop where
  | here {had : Bool} {data : List UInt8} : ClientWalk requestId had data data
  | other {had : Bool} {data d : List UInt8} {h : Header} (hfind : find data = .command h)
      (hother : ¬ ResponseState.IsResponse requestId data)
      (hrest : ClientWalk requestId had (data.drop (commandSize h.length)) d) :
      ClientWalk requestId had data d
  | response {data d : List UInt8} {h : Header} (hfind : find data = .command h)
      (hours : ResponseState.IsResponse requestId data) (hstatus : 4 ≤ h.length)
      (hrest : ClientWalk requestId true (data.drop (commandSize h.length)) d) :
      ClientWalk requestId false data d

/-- A command is in the buffer: its header stands at its start and the payload behind it. -/
structure Present (buffer : List UInt8) (c : Command) : Prop where
  length : c.length = announcedLength (buffer.drop c.start)
  payload : c.start + headerSize + c.length ≤ buffer.length

theorem find_of_looksWhole {data : List UInt8} (h : LooksWhole data) :
    find data =
      .command { requestId := announcedRequestId data, length := announcedLength data } := by
  obtain ⟨hheader, hname, hwrap, -⟩ := h
  have hsmall := commandSize_of_wrap hwrap (announcedLength_lt data)
  unfold find
  rw [if_neg (by omega), if_neg (by omega), hname]
  rfl

/-- A command that the test lets through is there unless it only looks whole. -/
theorem present_iff {buffer data : List UInt8} {h : Header} (hsuffix : data <:+ buffer)
    (hfind : find data = .command h) :
    Present buffer { toHeader := h, start := buffer.length - data.length } ↔ ¬ LooksWhole data := by
  obtain ⟨front, rfl⟩ := hsuffix
  have hstart : (front ++ data).length - data.length = front.length := by
    rw [List.length_append]
    omega
  obtain ⟨hheader, hsize, hname, hlength⟩ := find_command hfind
  constructor
  · intro hpresent hlooks
    have hpayload := hpresent.payload
    simp only [List.length_append] at hpayload
    have hshort := hlooks.2.2.2
    rw [← hlength] at hshort
    omega
  · intro hlooks
    refine ⟨?_, ?_⟩
    · simp only [hstart, List.drop_left]
      exact hlength
    · simp only [List.length_append]
      by_cases hwrap : NoWrap h.length
      · have hcomplete := find_complete hfind hwrap
        omega
      · by_contra hshort
        exact hlooks ⟨hheader, hname, by rw [← hlength]; exact hwrap, by rw [← hlength]; omega⟩

/-! ## 3. The two ledgers -/

/-- The command at a place of the buffer, when one is found there. -/
def commandAt (buffer data : List UInt8) : List Command :=
  match find data with
  | .command h => [{ toHeader := h, start := buffer.length - data.length }]
  | _ => []

theorem commandAt_of_find {buffer data : List UInt8} {h : Header} (hfind : find data = .command h) :
    commandAt buffer data = [{ toHeader := h, start := buffer.length - data.length }] := by
  rw [commandAt, hfind]

/-- All commands found at a place are present exactly if nothing there only looks whole. -/
theorem commandAt_present_iff {buffer data : List UInt8} (hsuffix : data <:+ buffer) :
    (∀ c ∈ commandAt buffer data, Present buffer c) ↔ ¬ LooksWhole data := by
  cases hfind : find data with
  | command h =>
    rw [commandAt_of_find hfind, List.forall_mem_singleton, present_iff hsuffix hfind]
  | incomplete =>
    have hlooks : ¬ LooksWhole data := fun h => by
      rw [find_of_looksWhole h] at hfind
      cases hfind
    simp [commandAt, hfind, hlooks]
  | invalid =>
    have hlooks : ¬ LooksWhole data := fun h => by
      rw [find_of_looksWhole h] at hfind
      cases hfind
    simp [commandAt, hfind, hlooks]

section Server

variable {env : Env} {s t : Conn} {buffer data d : List UInt8}

/-- The loop of the daemon enters every command it finds. -/
theorem server_ledger (env : Env) (buffer : List UInt8) :
    Ledger (Conn.round env) (fun s => s.readFinished = false ∧ s.inbuf = buffer) Conn.dispatched
      (fun _ data => commandAt buffer data) where
  wait {s data} hs hround := by
    cases hfind : find data with
    | command h =>
      obtain ⟨s', htake, -, -⟩ := Conn.round_command env hs.1 hfind
      rw [htake] at hround
      cases hround
    | incomplete => rw [commandAt, hfind]
    | invalid => rw [commandAt, hfind]
  take {s data n s'} hs hround := by
    cases hfind : find data with
    | command h =>
      obtain ⟨s'', htake, htakes, hdispatched⟩ := Conn.round_command env hs.1 hfind
      rw [htake] at hround
      cases hround
      rw [hs.2] at hdispatched
      exact ⟨⟨htakes.readFinished.trans hs.1, htakes.inbuf.trans hs.2⟩,
        by rw [hdispatched, commandAt_of_find hfind]⟩
    | incomplete =>
      rw [Conn.round, hfind] at hround
      cases hround
    | invalid =>
      rw [Conn.round, hfind] at hround
      cases hround
  stop {s data e s'} hs hround := by
    cases hfind : find data with
    | command h =>
      obtain ⟨s'', htake, -, -⟩ := Conn.round_command env hs.1 hfind
      rw [htake] at hround
      cases hround
    | incomplete =>
      rw [Conn.round, hfind] at hround
      cases hround
    | invalid =>
      rw [Conn.round, hfind] at hround
      cases hround
      rw [commandAt, hfind, List.append_nil]
      rfl

-- The daemon comes to the places of the walk.
theorem walk_of_visits (hopen : s.readFinished = false)
    (h : Visits (Conn.round env) s data t d) : Walk data d := by
  induction h with
  | here => exact .here
  | @take s s' t data d n hround hrest ih =>
    cases hfind : find data with
    | command h =>
      obtain ⟨s'', htake, htakes, -⟩ := Conn.round_command env hopen hfind
      rw [htake] at hround
      cases hround
      exact .past hfind (ih (htakes.readFinished.trans hopen))
    | incomplete =>
      rw [Conn.round, hfind] at hround
      cases hround
    | invalid =>
      rw [Conn.round, hfind] at hround
      cases hround

variable (env) in
theorem visits_of_walk (hopen : s.readFinished = false) (h : Walk data d) :
    ∃ t, Visits (Conn.round env) s data t d := by
  induction h generalizing s with
  | here => exact ⟨s, .here⟩
  | past hfind hrest ih =>
    obtain ⟨s', htake, htakes, -⟩ := Conn.round_command env hopen hfind
    obtain ⟨t, ht⟩ := ih (htakes.readFinished.trans hopen)
    exact ⟨t, .take htake ht⟩

theorem Walk.suffix (h : Walk data d) : d <:+ data := by
  induction h with
  | here => exact List.suffix_rfl
  | past hfind hrest ih => exact ih.trans (List.drop_suffix _ _)

theorem server_present_iff (hopen : s.readFinished = false) :
    (∀ rounds, ∀ c ∈ (loop (Conn.round env) rounds s s.inbuf).state.dispatched.drop
        s.dispatched.length, Present s.inbuf c) ↔
      ∀ d, Walk s.inbuf d → ¬ LooksWhole d := by
  rw [(server_ledger env s.inbuf).forall_iff ⟨hopen, rfl⟩]
  constructor
  · intro hall d hwalk
    obtain ⟨t, hvisits⟩ := visits_of_walk env hopen hwalk
    exact (commandAt_present_iff hwalk.suffix).mp (hall t d hvisits)
  · intro hall t d hvisits
    have hwalk := walk_of_visits hopen hvisits
    exact (commandAt_present_iff hwalk.suffix).mpr (hall d hwalk)

end Server

section Client

variable {env : Unwritten} {s s' t : ResponseState} {buffer data d : List UInt8} {h : Header}

open ResponseState

variable (env) in
-- A response is handled: the loop goes on behind the first one that has a status.
theorem round_response (hfind : find data = .command h) (hours : IsResponse s.requestId data) :
    (∃ s', ResponseState.round env s data = .take (commandSize h.length) s' ∧ 4 ≤ h.length ∧
        s.hadResponse = false ∧ s'.hadResponse = true ∧ s'.requestId = s.requestId ∧
        s'.buf = s.buf ∧ s'.handled = s.handled ++ commandAt s.buf data) ∨
      (∃ s', ResponseState.round env s data = .stop () s' ∧
        (h.length < 4 ∨ s.hadResponse = true) ∧
        s'.handled = s.handled ++ commandAt s.buf data) := by
  rw [commandAt_of_find hfind]
  unfold ResponseState.round
  simp only [hfind]
  rw [if_pos hours]
  unfold handleResponse
  by_cases hbad : h.length < 4 ∨ s.hadResponse = true
  · dsimp only
    rw [if_pos hbad]
    exact Or.inr ⟨_, rfl, hbad, rfl⟩
  · dsimp only
    rw [if_neg hbad]
    rw [not_or] at hbad
    refine Or.inl ⟨_, rfl, by omega, by simpa using hbad.2, rfl, ?_, ?_, ?_⟩
    all_goals
      dsimp only
      split <;> rfl

theorem round_other (hfind : find data = .command h) (hother : ¬ IsResponse s.requestId data) :
    ResponseState.round env s data = .take (commandSize h.length) s := by
  unfold ResponseState.round
  simp only [hfind]
  rw [if_neg hother]

/-- What the client enters at a place: the response to its own request. -/
def responseAt (requestId : Nat) (buffer data : List UInt8) : List Command :=
  if IsResponse requestId data then commandAt buffer data else []

variable (env) in
-- What one round of the client does with a command that is found.
theorem round_found (hfind : find data = .command h) :
    (∃ s', ResponseState.round env s data = .take (commandSize h.length) s' ∧
        (¬ IsResponse s.requestId data ∧ s'.hadResponse = s.hadResponse ∨
          IsResponse s.requestId data ∧ 4 ≤ h.length ∧ s.hadResponse = false ∧
            s'.hadResponse = true) ∧
        s'.requestId = s.requestId ∧ s'.buf = s.buf ∧
        s'.handled = s.handled ++ responseAt s.requestId s.buf data) ∨
      (∃ s', ResponseState.round env s data = .stop () s' ∧ IsResponse s.requestId data ∧
        (h.length < 4 ∨ s.hadResponse = true) ∧
        s'.handled = s.handled ++ responseAt s.requestId s.buf data) := by
  unfold responseAt
  by_cases hours : IsResponse s.requestId data
  · rw [if_pos hours]
    rcases round_response env hfind hours with
      ⟨s', htake, hstatus, hfirst, hhad, hid, hbuf, hhandled⟩ | ⟨s', hstop, hbad, hhandled⟩
    · exact Or.inl ⟨s', htake, Or.inr ⟨hours, hstatus, hfirst, hhad⟩, hid, hbuf, hhandled⟩
    · exact Or.inr ⟨s', hstop, hours, hbad, hhandled⟩
  · rw [if_neg hours, List.append_nil]
    exact Or.inl ⟨s, round_other hfind hours, Or.inl ⟨hours, rfl⟩, rfl, rfl, rfl⟩

theorem round_incomplete (hfind : find data = .incomplete) :
    ResponseState.round env s data = .wait := by
  rw [ResponseState.round, hfind]

theorem round_invalid (hfind : find data = .invalid) :
    ResponseState.round env s data = .stop () (s.setResponseError .invalidData
      (ascii "Invalid data received from IPC connection")) := by
  rw [ResponseState.round, hfind]

/-- The loop of the client enters the responses to its request. -/
theorem client_ledger (env : Unwritten) (requestId : Nat) (buffer : List UInt8) :
    Ledger (ResponseState.round env) (fun s => s.requestId = requestId ∧ s.buf = buffer)
      ResponseState.handled (fun _ data => responseAt requestId buffer data) where
  wait {s data} hs hround := by
    cases hfind : find data with
    | command h =>
      rcases round_found env (s := s) hfind with ⟨s', htake, -⟩ | ⟨s', hstop, -⟩
      · rw [htake] at hround
        cases hround
      · rw [hstop] at hround
        cases hround
    | incomplete => simp [responseAt, commandAt, hfind]
    | invalid => simp [responseAt, commandAt, hfind]
  take {s data n s'} hs hround := by
    obtain ⟨rfl, rfl⟩ := hs
    cases hfind : find data with
    | command h =>
      rcases round_found env (s := s) hfind with
        ⟨s'', htake, -, hid, hbuf, hhandled⟩ | ⟨s'', hstop, -⟩
      · rw [htake] at hround
        cases hround
        exact ⟨⟨hid, hbuf⟩, hhandled⟩
      · rw [hstop] at hround
        cases hround
    | incomplete =>
      rw [round_incomplete hfind] at hround
      cases hround
    | invalid =>
      rw [round_invalid hfind] at hround
      cases hround
  stop {s data e s'} hs hround := by
    obtain ⟨rfl, rfl⟩ := hs
    cases hfind : find data with
    | command h =>
      rcases round_found env (s := s) hfind with ⟨s'', htake, -⟩ | ⟨s'', hstop, -, -, hhandled⟩
      · rw [htake] at hround
        cases hround
      · rw [hstop] at hround
        cases hround
        exact hhandled
    | incomplete =>
      rw [round_incomplete hfind] at hround
      cases hround
    | invalid =>
      rw [round_invalid hfind] at hround
      cases hround
      simp [responseAt, commandAt, hfind, setResponseError]

theorem clientWalk_of_visits (h : Visits (ResponseState.round env) s data t d) :
    ClientWalk s.requestId s.hadResponse data d := by
  induction h with
  | here => exact .here
  | @take s s' t data d n hround hrest ih =>
    cases hfind : find data with
    | command h =>
      rcases round_found env (s := s) hfind with
        ⟨s'', htake, hkind, hid, -, -⟩ | ⟨s'', hstop, -⟩
      · rw [htake] at hround
        cases hround
        rw [hid] at ih
        rcases hkind with ⟨hother, hhad⟩ | ⟨hours, hstatus, hfirst, hhad⟩
        · rw [hhad] at ih
          exact .other hfind hother ih
        · rw [hhad] at ih
          rw [hfirst]
          exact .response hfind hours hstatus ih
      · rw [hstop] at hround
        cases hround
    | incomplete =>
      rw [round_incomplete hfind] at hround
      cases hround
    | invalid =>
      rw [round_invalid hfind] at hround
      cases hround

variable (env) in
theorem visits_of_clientWalk {requestId : Nat} {had : Bool} (h : ClientWalk requestId had data d)
    (hid : s.requestId = requestId) (hhad : s.hadResponse = had) :
    ∃ t, Visits (ResponseState.round env) s data t d := by
  induction h generalizing s with
  | here => exact ⟨s, .here⟩
  | @other had data d h hfind hother hrest ih =>
    subst hid
    obtain ⟨t, ht⟩ := ih rfl hhad
    exact ⟨t, .take (round_other hfind hother) ht⟩
  | @response data d h hfind hours hstatus hrest ih =>
    subst hid
    rcases round_response env hfind hours with
      ⟨s', htake, -, -, hhad', hid', -, -⟩ | ⟨s', -, hbad, -⟩
    · obtain ⟨t, ht⟩ := ih hid' hhad'
      exact ⟨t, .take htake ht⟩
    · rw [hhad] at hbad
      simp only [Bool.false_eq_true, or_false] at hbad
      omega

theorem ClientWalk.suffix {requestId : Nat} {had : Bool} (h : ClientWalk requestId had data d) :
    d <:+ data := by
  induction h with
  | here => exact List.suffix_rfl
  | other hfind hother hrest ih => exact ih.trans (List.drop_suffix _ _)
  | response hfind hours hstatus hrest ih => exact ih.trans (List.drop_suffix _ _)

theorem client_present_iff :
    (∀ rounds, ∀ c ∈ (loop (ResponseState.round env) rounds s s.buf).state.handled.drop
        s.handled.length, Present s.buf c) ↔
      ∀ d, ClientWalk s.requestId s.hadResponse s.buf d → IsResponse s.requestId d →
        ¬ LooksWhole d := by
  rw [(client_ledger env s.requestId s.buf).forall_iff ⟨rfl, rfl⟩]
  constructor
  · intro hall d hwalk hours
    obtain ⟨t, hvisits⟩ := visits_of_clientWalk env hwalk rfl rfl
    have hhere := hall t d hvisits
    rw [responseAt, if_pos hours] at hhere
    exact (commandAt_present_iff hwalk.suffix).mp hhere
  · intro hall t d hvisits
    have hwalk := clientWalk_of_visits hvisits
    unfold responseAt
    split
    · next hours => exact (commandAt_present_iff hwalk.suffix).mpr (hall d hwalk hours)
    · exact nofun

end Client

/-! ## 4. Both loops -/

/-- Both loops hand on only commands that are in the buffer, in any number of rounds, exactly if no
length field they come to is so close to `2 ^ 32` that its command looks whole without its
payload. -/
theorem handed_on_present_iff (env : Env) (s : Conn) (r : ResponseState)
    (hopen : s.readFinished = false) :
    ((∀ rounds, ∀ c ∈ (loop (Conn.round env) rounds s s.inbuf).state.dispatched.drop
        s.dispatched.length, Present s.inbuf c) ↔
      ∀ d, Walk s.inbuf d → ¬ LooksWhole d) ∧
    ((∀ rounds, ∀ c ∈ (loop (ResponseState.round env.toUnwritten) rounds r r.buf).state.handled.drop
        r.handled.length, Present r.buf c) ↔
      ∀ d, ClientWalk r.requestId r.hadResponse r.buf d →
        ResponseState.IsResponse r.requestId d → ¬ LooksWhole d) :=
  ⟨server_present_iff hopen, client_present_iff⟩

/-- A response with nothing but a status, for request 1. -/
def emptyResponse : List UInt8 := frame (ascii "response") 1 [0, 0, 0, 0]

/-- A daemon and a client that find the same response in their buffers hand on what is there. -/
theorem emptyResponse_present :
    let env : Env := { behind := fun _ _ => 0, fill := fun _ _ => 0, nonblockError := fun _ => none }
    let s : Conn := { inbuf := emptyResponse }
    let r : ResponseState := { buf := emptyResponse, requestId := 1 }
    (∀ rounds, ∀ c ∈ (loop (Conn.round env) rounds s s.inbuf).state.dispatched.drop 0,
      Present s.inbuf c) ∧
    (∀ rounds, ∀ c ∈ (loop (ResponseState.round env.toUnwritten) rounds r r.buf).state.handled.drop
      0, Present r.buf c) := by
  intro env s r
  have hiff := handed_on_present_iff env s r rfl
  have hfirst : find emptyResponse = .command { requestId := 1, length := 4 } := by decide +kernel
  have hlooks : ¬ LooksWhole emptyResponse := by decide +kernel
  have hrest : emptyResponse.drop (commandSize 4) = [] := by decide +kernel
  refine ⟨hiff.1.mpr fun d hwalk => ?_, hiff.2.mpr fun d hwalk _ => ?_⟩
  · cases hwalk with
    | here => exact hlooks
    | past hfind hafter =>
      rw [hfirst] at hfind
      cases hfind
      rw [hrest] at hafter
      cases hafter with
      | here => decide
      | past hfind _ => cases hfind
  · cases hwalk with
    | here => exact hlooks
    | other hfind hother hafter => exact absurd (by decide +kernel) hother
    | response hfind hours hstatus hafter =>
      rw [hfirst] at hfind
      cases hfind
      rw [hrest] at hafter
      cases hafter with
      | here => decide
      | other hfind _ _ => cases hfind

/-- The header of a response of almost 4 GiB, and nothing behind it. -/
def hugeResponse : List UInt8 :=
  commandField (ascii "response") ++ toBE 4 1 ++ toBE 4 (2 ^ 32 - 1)

/-- Both loops hand on a command with a payload of `2 ^ 32 - 1` bytes out of a buffer of 20. -/
theorem hugeResponse_not_present :
    let env : Env := { behind := fun _ _ => 0, fill := fun _ _ => 0, nonblockError := fun _ => none }
    let s : Conn := { inbuf := hugeResponse }
    let r : ResponseState := { buf := hugeResponse, requestId := 1 }
    let c : Command := { requestId := 1, length := 2 ^ 32 - 1, start := 0 }
    hugeResponse.length = 20 ∧
      (loop (Conn.round env) 1 s s.inbuf).state.dispatched = [c] ∧
      (loop (ResponseState.round env.toUnwritten) 1 r r.buf).state.handled = [c] ∧
      ¬ Present hugeResponse c := by
  intro env s r c
  refine ⟨by decide +kernel, by decide +kernel, by decide +kernel, fun hpresent => ?_⟩
  have hpayload := hpresent.payload
  revert hpayload
  decide +kernel

end Notbit.Ipc
