import Notbit.Ipc.Commands
import Notbit.Lib.Runs

/-!
# Server — a connection of the IPC socket in the daemon (`ntb-ipc.c`)

The daemon keeps one record for each client.  `handleRead` appends what has arrived to the input
buffer and hands every command in the buffer to its handler; a handler answers at once, or leaves an
email or a key generation behind that answers later.  The loop moves a pointer of its own through the
buffer and never takes the commands out of it.
-/

open Bytes Traced Traced.Parser Framing Runs Notbit.Proto

namespace Notbit.Ipc

/-! ## 1. The connection -/

/-- `enum ntb_ipc_proto_status` -/
inductive Status where
  | success | genericError | invalidCommand | fdError | invalidEmail | unknownFromAddress
  | unsupported
  deriving DecidableEq, Repr

def Status.code : Status → Nat
  | .success => 0
  | .genericError => 1
  | .invalidCommand => 2
  | .fdError => 3
  | .invalidEmail => 4
  | .unknownFromAddress => 5
  | .unsupported => 6

structure Response where
  requestId : Nat
  status : Status
  data : List UInt8
  deriving DecidableEq, Repr

/-- `struct ntb_ipc_email`: the parser and what it has collected are the mail parser's business. -/
structure Email where
  requestId : Nat
  fd : Nat
  deriving DecidableEq, Repr

/-- The fields of `struct ntb_key_params` that `handle_keygen_command` sets. -/
structure KeyParams where
  label : List UInt8
  version : Nat
  stream : Nat
  nonceTrialsPerByte : Int
  payloadLengthExtraBytes : Int
  deriving DecidableEq, Repr

/-- `struct ntb_ipc_task`, with what the keyring was asked for. -/
structure Task where
  requestId : Nat
  params : KeyParams
  zeroes : Nat
  deriving DecidableEq, Repr

/-- `struct ntb_ipc_connection`.  The fields behind `removed` are the history of the connection:
everything that was received, the commands that were given to `process_command`, the responses that
were put into the output buffer, and whether the connection was removed before it had answered.
`hung` says that `process_commands` does not return. -/
structure Conn where
  inbuf : List UInt8 := []
  outbuf : Buffer := []
  fdQueue : List Nat := []
  emails : List Email := []
  tasks : List Task := []
  readFinished : Bool := false
  writeFinished : Bool := false
  hung : Bool := false
  removed : Bool := false
  received : List UInt8 := []
  dispatched : List Command := []
  responses : List Response := []
  lost : Bool := false

/-- Memory that nobody has written, and what `ntb_socket_set_nonblock` says of a descriptor. -/
structure Env extends Unwritten where
  nonblockError : Nat → Option (List UInt8)

namespace Conn

/-- Something that the client still has to get. -/
def outstanding (s : Conn) : Bool := s.outbuf ≠ [] || s.emails ≠ [] || s.tasks ≠ []

/-- `remove_connection` -/
def removeConnection (s : Conn) : Conn :=
  { s with
    inbuf := []
    outbuf := []
    fdQueue := []
    emails := []
    tasks := []
    removed := true
    lost := s.lost || s.outstanding }

/-- `update_poll`; the connection is shut down when everything is answered, and removed when both
directions are closed. -/
def updatePoll (s : Conn) : Conn × Bool :=
  let s := if !s.writeFinished && s.readFinished && !s.outstanding then
    { s with writeFinished := true } else s
  if s.readFinished && s.writeFinished then (s.removeConnection, false) else (s, true)

def response : CString := ⟨ascii "response", nonzero_of_all rfl⟩

/-- The output buffer after `begin_send_response`, the data of the response and
`end_send_response`. -/
def appendResponse (env : Env) (s : Conn) (r : Response) : Conn :=
  { s with
    outbuf := endCommand (beginCommand (env.fill s.outbuf) s.outbuf response r.requestId ++
      (add32 r.status.code ++ r.data)) s.outbuf.length
    responses := s.responses ++ [r] }

/-- `send_response` -/
def sendResponse (env : Env) (s : Conn) (requestId : Nat) (status : Status) (data : List UInt8) :
    Conn × Bool :=
  (s.appendResponse env { requestId, status, data }).updatePoll

/-! ## 2. The command handlers -/

/-- `handle_email_command` -/
def handleEmailCommand (env : Env) (s : Conn) (requestId : Nat) : Conn × Bool :=
  match s.fdQueue with
  | [] => s.sendResponse env requestId .invalidCommand
      (ascii "email command was sent without a file descriptor argument")
  | fd :: fdQueue =>
    let s := { s with fdQueue }
    match env.nonblockError fd with
    | some message => s.sendResponse env requestId .fdError message
    | none => ({ s with emails := { requestId, fd } :: s.emails }, true)

end Conn

/-- The arguments of a keygen command. -/
structure KeygenArgs where
  version : Nat
  stream : Nat
  nonceTrialsPerByte : Nat
  payloadExtraBytes : Nat
  zeroes : Nat
  label : VarStr
  deriving DecidableEq, Repr

def keygenArguments : List Argument := [.varInt, .varInt, .varInt, .varInt, .u8, .varStr]

/-- The call of `ntb_proto_get_command` in `handle_keygen_command`. -/
def parseKeygen (data commandLength : Nat) : Parser KeygenArgs := do
  let (vs, _) ← getCommand data commandLength keygenArguments
  match vs with
  | [.num version, .num stream, .num nonceTrialsPerByte, .num payloadExtraBytes, .num zeroes,
      .varStr label] =>
    return { version, stream, nonceTrialsPerByte, payloadExtraBytes, zeroes, label }
  | _ => stop .abort

/-- `label_is_valid`: no control characters. -/
def labelIsValid (label : List UInt8) : Bool := label.all fun b => ¬ b.toNat < 0x20

/-- The value a `uint64_t` has in an `int`. -/
def toCInt (value : Nat) : Int := ((value : Int) + 2 ^ 31) % 2 ^ 32 - 2 ^ 31

namespace Conn

/-- `handle_keygen_command`; in `mem` the payload stands at address 0. -/
def handleKeygenCommand (env : Env) (mem : Memory) (s : Conn) (requestId commandLength : Nat) :
    Conn × Bool :=
  match (parseKeygen 0 commandLength).value mem with
  | .error _ =>
    s.sendResponse env requestId .invalidCommand (ascii "The keygen command is invalid")
  | .ok args =>
    let version := if args.version = 0 then 4 else args.version
    let nonceTrialsPerByte :=
      if args.nonceTrialsPerByte = 0 then minNonceTrialsPerByte * 2 else args.nonceTrialsPerByte
    let payloadExtraBytes :=
      if args.payloadExtraBytes = 0 then minExtraBytes else args.payloadExtraBytes
    let label := window mem args.label.data args.label.length
    if version < 2 ∨ version > 4 then
      s.sendResponse env requestId .unsupported (ascii "The requested key version is not supported")
    else if args.stream ≠ 1 then
      s.sendResponse env requestId .unsupported (ascii "The requested stream is not supported")
    else if args.zeroes > 2 then
      s.sendResponse env requestId .unsupported
        (ascii "The requested number of zeroes is not supported")
    else if !labelIsValid label then
      s.sendResponse env requestId .invalidCommand
        (ascii "The new key label contains invalid characters")
    else
      let params : KeyParams :=
        { label, version, stream := args.stream, nonceTrialsPerByte := toCInt nonceTrialsPerByte
          payloadLengthExtraBytes := toCInt payloadExtraBytes }
      ({ s with tasks := { requestId, params, zeroes := args.zeroes } :: s.tasks }, true)

/-- The text for a name that is in neither entry of `commands`, between curly quotes. -/
def unknownCommand (name : List UInt8) : List UInt8 :=
  ascii "Unknown command " ++ [0xe2, 0x80, 0x9c] ++ name ++ [0xe2, 0x80, 0x9d]

/-- `process_command` on the data from the command on. -/
def processCommand (env : Env) (s : Conn) (data : List UInt8) (h : Header) : Conn × Bool :=
  let mem := overlay (data.drop headerSize) (env.behind s.inbuf)
  let s := { s with
    dispatched := s.dispatched ++
      [({ toHeader := h, start := s.inbuf.length - data.length } : Command)] }
  if commandName data = ascii "email" then s.handleEmailCommand env h.requestId
  else if commandName data = ascii "keygen" then s.handleKeygenCommand env mem h.requestId h.length
  else s.sendResponse env h.requestId .invalidCommand (unknownCommand (commandName data))

/-- One round of the loop of `process_commands`. -/
def round (env : Env) (s : Conn) (data : List UInt8) : Verdict Conn Unit :=
  match find data with
  | .incomplete => .wait
  | .invalid => .stop () s.removeConnection
  | .command h =>
    match s.processCommand env data h with
    | (s', true) => .take (commandSize h.length) s'
    | (s', false) => .stop () s'

/-- `process_commands`.  A loop that has not ended after more rounds than there are bytes stays
where it is for ever: it takes nothing of the buffer.  Whatever it takes, the buffer is left as it
is, and so it is never empty when the queued descriptors could be closed. -/
def processCommands (env : Env) (s : Conn) : Conn :=
  let r := loop (round env) (s.inbuf.length + 1) s s.inbuf
  match r.stopped, find r.rest with
  | none, .incomplete => if r.state.inbuf = [] then { r.state with fdQueue := [] } else r.state
  | none, _ => { r.state with hung := true }
  | some _, _ => r.state

/-- `handle_read` with the bytes and the descriptors that have arrived. -/
def handleRead (env : Env) (s : Conn) (piece : List UInt8) (fds : List Nat) : Conn :=
  let s := { s with fdQueue := s.fdQueue ++ fds }
  if piece = [] then ({ s with readFinished := true }.updatePoll).1
  else { s with inbuf := s.inbuf ++ piece, received := s.received ++ piece }.processCommands env

end Conn

/-! ## 3. Everything that can happen to a connection -/

inductive Event where
  /-- Bytes and descriptors arrive; no bytes are the end of the stream. -/
  | read (piece : List UInt8) (fds : List Nat)
  /-- `handle_write` has written some bytes of the output buffer. -/
  | write (n : Nat)
  /-- `email_poll_cb`: an email has more data, or comes to its end and is answered. -/
  | email (i : Nat) (answer : Option (Status × List UInt8))
  /-- `create_key_cb` with the address of the key and its text. -/
  | key (i : Nat) (version stream : Nat) (ripe : List UInt8) (address : CString)

/-- The data of the response to a key generation. -/
def keyData (version stream : Nat) (ripe : List UInt8) (address : CString) : List UInt8 :=
  addVarInt version ++ addVarInt stream ++ ripe ++ addVarStr address

def step (env : Env) (s : Conn) : Event → Option Conn
  | .read piece fds =>
    if s.removed || s.hung || s.readFinished then none else some (s.handleRead env piece fds)
  | .write n =>
    if s.removed || s.hung || s.outbuf.length < n || n = 0 then none
    else some ({ s with outbuf := s.outbuf.drop n }.updatePoll).1
  | .email i answer => do
    if s.removed || s.hung then none
    else
      let email ← s.emails[i]?
      match answer with
      | none => return s
      | some (status, data) =>
        -- the email is in its list until the response is in the buffer
        let s := (s.sendResponse env email.requestId status data).1
        return { s with emails := s.emails.eraseIdx i }
  | .key i version stream ripe address => do
    if s.removed || s.hung then none
    else
      let task ← s.tasks[i]?
      let s := { s with tasks := s.tasks.eraseIdx i }
      return (s.sendResponse env task.requestId .success (keyData version stream ripe address)).1

/-! ## 4. One answer for each command that is dispatched -/

namespace Conn

/-- The part of the connection that handlers leave alone while the client may still write. -/
structure SameStream (s s' : Conn) : Prop where
  inbuf : s'.inbuf = s.inbuf
  received : s'.received = s.received
  readFinished : s'.readFinished = s.readFinished
  removed : s'.removed = s.removed
  hung : s'.hung = s.hung
  lost : s'.lost = s.lost

/-- The request ids that were answered or still will be. -/
def answerIds (s : Conn) : List Nat :=
  s.responses.map (·.requestId) ++ (s.emails.map (·.requestId) ++ s.tasks.map (·.requestId))

/-- What a handler does with a command: it answers, or remembers that it has to. -/
structure Takes (s s' : Conn) (requestId : Nat) : Prop extends SameStream s s' where
  answer : s'.answerIds.Perm (requestId :: s.answerIds)
  outstanding : s'.outstanding = true

variable {env : Env} {s s' : Conn}

theorem updatePoll_of_open (h : s.readFinished = false) : s.updatePoll = (s, true) := by
  simp [updatePoll, h]

variable (env) in
theorem appendResponse_outbuf_ne_nil (r : Response) : (s.appendResponse env r).outbuf ≠ [] := by
  intro h
  have hlen := congrArg List.length h
  simp only [appendResponse, endCommand, patch, List.length_append, length_toBE,
    List.length_nil] at hlen
  omega

variable (env) in
theorem sendResponse_takes (hopen : s.readFinished = false) (requestId : Nat) (status : Status)
    (data : List UInt8) :
    ∃ s', s.sendResponse env requestId status data = (s', true) ∧ Takes s s' requestId ∧
      s'.dispatched = s.dispatched := by
  refine ⟨s.appendResponse env { requestId, status, data }, updatePoll_of_open hopen, ?_, rfl⟩
  refine ⟨⟨rfl, rfl, rfl, rfl, rfl, rfl⟩, ?_, ?_⟩
  · simp only [answerIds, appendResponse, List.map_append, List.map_cons, List.map_nil,
      List.append_assoc, List.singleton_append]
    exact List.perm_middle
  · have hne := appendResponse_outbuf_ne_nil env (s := s) { requestId, status, data }
    simp [Conn.outstanding, hne]

/-- What a handler does with a command, whatever becomes of the queued descriptors: it answers, or
leaves an email or a key generation behind. -/
inductive Handles (env : Env) (s : Conn) (requestId : Nat) : Conn × Bool → Prop where
  | answer (fdQueue : List Nat) (status : Status) (data : List UInt8) :
      Handles env s requestId ({ s with fdQueue }.sendResponse env requestId status data)
  | email (fdQueue : List Nat) (fd : Nat) :
      Handles env s requestId ({ s with fdQueue, emails := { requestId, fd } :: s.emails }, true)
  | task (params : KeyParams) (zeroes : Nat) :
      Handles env s requestId ({ s with tasks := { requestId, params, zeroes } :: s.tasks }, true)

variable (env s) in
theorem handleEmailCommand_handles (requestId : Nat) :
    Handles env s requestId (s.handleEmailCommand env requestId) := by
  unfold handleEmailCommand
  split
  · exact .answer s.fdQueue _ _
  · dsimp only
    split
    · exact .answer _ _ _
    · exact .email _ _

variable (env s) in
theorem handleKeygenCommand_handles (mem : Memory) (requestId commandLength : Nat) :
    Handles env s requestId (s.handleKeygenCommand env mem requestId commandLength) := by
  unfold handleKeygenCommand
  split
  · exact .answer s.fdQueue _ _
  · next args _ =>
    dsimp only
    generalize (if args.version = 0 then 4 else args.version) = version
    generalize (if args.nonceTrialsPerByte = 0 then minNonceTrialsPerByte * 2 else
      args.nonceTrialsPerByte) = nonceTrialsPerByte
    generalize (if args.payloadExtraBytes = 0 then minExtraBytes else args.payloadExtraBytes) =
      payloadExtraBytes
    split_ifs
    · exact .answer s.fdQueue _ _
    · exact .answer s.fdQueue _ _
    · exact .answer s.fdQueue _ _
    · exact .answer s.fdQueue _ _
    · exact .task _ _

/-- The connection with a command on its record. -/
def dispatch (s : Conn) (data : List UInt8) (h : Header) : Conn :=
  { s with
    dispatched := s.dispatched ++
      [{ toHeader := h, start := s.inbuf.length - data.length }] }

variable (env s) in
theorem processCommand_handles (data : List UInt8) (h : Header) :
    Handles env (s.dispatch data h) h.requestId (s.processCommand env data h) := by
  unfold processCommand
  dsimp only
  split_ifs
  · exact handleEmailCommand_handles env (s.dispatch data h) _
  · exact handleKeygenCommand_handles env (s.dispatch data h) _ _ _
  · exact .answer s.fdQueue _ _

-- Every command that is handled is answered once, now or later.
theorem Handles.takes {requestId : Nat} {r : Conn × Bool} (h : Handles env s requestId r)
    (hopen : s.readFinished = false) :
    ∃ s', r = (s', true) ∧ Takes s s' requestId ∧ s'.dispatched = s.dispatched := by
  cases h with
  | answer fdQueue status data =>
    obtain ⟨s', hs', ⟨⟨h₁, h₂, h₃, h₄, h₅, h₆⟩, hanswer, hout⟩, hdispatched⟩ :=
      sendResponse_takes env (s := { s with fdQueue }) hopen requestId status data
    exact ⟨s', hs', ⟨⟨h₁, h₂, h₃, h₄, h₅, h₆⟩, hanswer, hout⟩, hdispatched⟩
  | email fdQueue fd =>
    refine ⟨_, rfl, ⟨⟨rfl, rfl, rfl, rfl, rfl, rfl⟩, ?_, ?_⟩, rfl⟩
    · simp only [answerIds, List.map_cons, List.cons_append]
      exact List.perm_middle
    · simp [Conn.outstanding]
  | task params zeroes =>
    refine ⟨_, rfl, ⟨⟨rfl, rfl, rfl, rfl, rfl, rfl⟩, ?_, ?_⟩, rfl⟩
    · simp only [answerIds, List.map_cons, ← List.append_assoc]
      exact List.perm_middle
    · simp [Conn.outstanding]

variable (env) in
theorem processCommand_takes (hopen : s.readFinished = false) (data : List UInt8) (h : Header) :
    ∃ s', s.processCommand env data h = (s', true) ∧ Takes s s' h.requestId ∧
      s'.dispatched = s.dispatched ++
        [{ toHeader := h, start := s.inbuf.length - data.length }] := by
  obtain ⟨s', hs', ⟨⟨h₁, h₂, h₃, h₄, h₅, h₆⟩, hanswer, hout⟩, hdispatched⟩ :=
    (processCommand_handles env s data h).takes hopen
  exact ⟨s', hs', ⟨⟨h₁, h₂, h₃, h₄, h₅, h₆⟩, hanswer, hout⟩, hdispatched⟩

variable (env) in
-- A round that finds a command dispatches it and takes its size.
theorem round_command (hopen : s.readFinished = false) {data : List UInt8} {h : Header}
    (hfind : find data = .command h) :
    ∃ s', round env s data = .take (commandSize h.length) s' ∧ Takes s s' h.requestId ∧
      s'.dispatched = s.dispatched ++
        [{ toHeader := h, start := s.inbuf.length - data.length }] := by
  obtain ⟨s', hs', htakes, hdispatched⟩ := processCommand_takes env hopen data h
  exact ⟨s', by rw [round, hfind]; simp only [hs'], htakes, hdispatched⟩

end Conn

/-! ## 5. Whole runs -/

/-- What a client can expect of a connection: each complete command of its stream was dispatched
once and in order, each of them has one response or will get it, and the input buffer holds the
incomplete end of the stream. -/
structure Served (s : Conn) : Prop where
  dispatched : s.dispatched = commandsOf s.received
  answered : s.answerIds.Perm (s.dispatched.map (·.requestId)) ∧ s.lost = false
  buffered : s.removed = false → s.inbuf = tailOf s.received

/-- A connection on which nothing was dispatched yet. -/
structure Quiet (s : Conn) : Prop where
  unfinished : FirstUnfinished s.received
  dispatched : s.dispatched = []
  responses : s.responses = []
  outstanding : s.outstanding = false
  lost : s.lost = false
  hung : s.hung = false
  waiting : s.removed = false → s.inbuf = s.received ∧ find s.received = .incomplete
  closed : s.removed = true → s.readFinished = true ∨ NameRefused s.received

variable {env : Env} {s s' : Conn}

theorem outstanding_eq_false (h : s.outstanding = false) :
    s.outbuf = [] ∧ s.emails = [] ∧ s.tasks = [] := by
  unfold Conn.outstanding at h
  simp only [Bool.or_eq_false_iff, decide_eq_false_iff_not, not_not] at h
  exact ⟨h.1.1, h.1.2, h.2⟩

theorem Quiet.served (h : Quiet s) : Served s := by
  obtain ⟨-, hemails, htasks⟩ := outstanding_eq_false h.outstanding
  refine ⟨?_, ⟨?_, h.lost⟩, fun hopen => ?_⟩
  · rw [h.dispatched, commandsOf_of_firstUnfinished h.unfinished]
  · rw [Conn.answerIds, h.responses, hemails, htasks, h.dispatched]
    exact List.Perm.refl _
  · obtain ⟨hbuf, hfind⟩ := h.waiting hopen
    rw [hbuf, tailOf_of_incomplete hfind]

/-- What a client has sent: the pieces that were read before the end of the stream. -/
def stream : List Event → List UInt8
  | [] => []
  | .read [] _ :: _ => []
  | .read piece _ :: events => piece ++ stream events
  | .write _ :: events => stream events
  | .email _ _ :: events => stream events
  | .key _ _ _ _ _ :: events => stream events

/-- A read is not the one that completes the first command. -/
def Event.Harmless (s : Conn) : Event → Prop
  | .read piece _ => FirstUnfinished (s.received ++ piece)
  | _ => True

theorem Quiet.removeConnection (h : Quiet s)
    (hclosed : s.readFinished = true ∨ NameRefused s.received) : Quiet s.removeConnection where
  unfinished := h.unfinished
  dispatched := h.dispatched
  responses := h.responses
  outstanding := rfl
  lost := by simp [Conn.removeConnection, h.lost, h.outstanding]
  hung := h.hung
  waiting hopen := nomatch hopen
  closed _ := hclosed

-- The poll flags do not matter for what was dispatched and answered.
theorem Quiet.updatePoll (h : Quiet s) : Quiet s.updatePoll.1 := by
  have hshut : Quiet { s with writeFinished := true } :=
    { h with outstanding := h.outstanding }
  unfold Conn.updatePoll
  dsimp only
  by_cases hdone : (!s.writeFinished && s.readFinished && !s.outstanding) = true
  · rw [if_pos hdone]
    split
    · next hboth => exact hshut.removeConnection (Or.inl (Bool.and_eq_true_iff.mp hboth).1)
    · exact hshut
  · rw [if_neg hdone]
    split
    · next hboth => exact h.removeConnection (Or.inl (Bool.and_eq_true_iff.mp hboth).1)
    · exact h

theorem Conn.updatePoll_received (s : Conn) : s.updatePoll.1.received = s.received := by
  unfold Conn.updatePoll Conn.removeConnection
  dsimp only
  split_ifs <;> rfl

theorem Conn.updatePoll_readFinished (s : Conn) :
    s.updatePoll.1.readFinished = s.readFinished := by
  unfold Conn.updatePoll Conn.removeConnection
  dsimp only
  split_ifs <;> rfl

variable (env) in
theorem Quiet.eof (h : Quiet s) (fds : List Nat) :
    Quiet (s.handleRead env [] fds) ∧ (s.handleRead env [] fds).received = s.received ∧
      (s.handleRead env [] fds).readFinished = true := by
  let s₁ : Conn := { s with fdQueue := s.fdQueue ++ fds, readFinished := true }
  have hclosed : Quiet s₁ := { h with outstanding := h.outstanding, closed := fun _ => Or.inl rfl }
  have hread : s.handleRead env [] fds = s₁.updatePoll.1 := by
    unfold Conn.handleRead
    rw [if_pos rfl]
  rw [hread, Conn.updatePoll_received, Conn.updatePoll_readFinished]
  exact ⟨hclosed.updatePoll, rfl, rfl⟩

/-- A read with the bytes at the end of the buffer, before the loop. -/
def Conn.withPiece (s : Conn) (piece : List UInt8) (fds : List Nat) : Conn :=
  { s with
    fdQueue := s.fdQueue ++ fds
    inbuf := s.inbuf ++ piece
    received := s.received ++ piece }

theorem Conn.handleRead_piece {piece : List UInt8} (hpiece : piece ≠ []) (fds : List Nat) :
    s.handleRead env piece fds = (s.withPiece piece fds).processCommands env := by
  unfold Conn.handleRead
  rw [if_neg hpiece]
  rfl

theorem Conn.processCommands_incomplete (hfind : find s.inbuf = .incomplete) (hne : s.inbuf ≠ []) :
    s.processCommands env = s := by
  have hwait : Conn.round env s s.inbuf = .wait := by
    rw [Conn.round, hfind]
  unfold Conn.processCommands
  dsimp only
  rw [loop_wait _ hwait]
  simp only [hfind]
  rw [if_neg hne]

theorem Conn.processCommands_invalid (hfind : find s.inbuf = .invalid) :
    s.processCommands env = s.removeConnection := by
  have hstop : Conn.round env s s.inbuf = .stop () s.removeConnection := by
    rw [Conn.round, hfind]
  unfold Conn.processCommands
  dsimp only
  rw [loop_stop _ hstop]

variable (env) in
-- As long as the first command is not there, a read only adds to the buffer or ends the connection.
theorem Quiet.read {piece : List UInt8} (h : Quiet s) (hopen : s.removed = false)
    (hpiece : piece ≠ []) (hunfinished : FirstUnfinished (s.received ++ piece)) (fds : List Nat) :
    Quiet (s.handleRead env piece fds) ∧
      (s.handleRead env piece fds).received = s.received ++ piece ∧
      (s.handleRead env piece fds).readFinished = s.readFinished := by
  have hinbuf : (s.withPiece piece fds).inbuf = s.received ++ piece := by
    show s.inbuf ++ piece = s.received ++ piece
    rw [(h.waiting hopen).1]
  rw [Conn.handleRead_piece hpiece]
  cases hfind : find (s.received ++ piece) with
  | incomplete =>
    rw [Conn.processCommands_incomplete (by rw [hinbuf, hfind]) (by rw [hinbuf]; simp [hpiece])]
    have hquiet : Quiet (s.withPiece piece fds) :=
      { h with
        unfinished := hunfinished
        outstanding := h.outstanding
        waiting := fun _ => ⟨hinbuf, hfind⟩
        closed := fun hremoved => absurd hremoved (by
          show ¬ s.removed = true
          rw [hopen]
          exact nofun) }
    exact ⟨hquiet, rfl, rfl⟩
  | invalid =>
    rw [Conn.processCommands_invalid (by rw [hinbuf, hfind])]
    have hlost : (s.lost || s.outstanding) = false := by
      rw [h.lost, h.outstanding]
      rfl
    have hquiet : Quiet (s.withPiece piece fds).removeConnection :=
      { h with
        unfinished := hunfinished
        outstanding := rfl
        lost := hlost
        waiting := fun hremoved => nomatch hremoved
        closed := fun _ => Or.inr (nameRefused_of_invalid hfind) }
    exact ⟨hquiet, rfl, rfl⟩
  | command c => exact absurd hfind (firstUnfinished_iff.mp hunfinished c)

/-- A connection that has dispatched a command and kept it in its input buffer. -/
structure Stuck (buffer : List UInt8) (s : Conn) : Prop where
  inbuf : s.inbuf = buffer
  received : s.received = buffer
  removed : s.removed = false
  readFinished : s.readFinished = false
  dispatched : s.dispatched ≠ []
  outstanding : s.outstanding = true

variable {buffer : List UInt8}

theorem Conn.Takes.stuck {requestId : Nat} {c : Command} (htakes : s.Takes s' requestId)
    (hdispatched : s'.dispatched = s.dispatched ++ [c]) (hinbuf : s.inbuf = buffer)
    (hreceived : s.received = buffer) (hremoved : s.removed = false)
    (hopen : s.readFinished = false) : Stuck buffer s' where
  inbuf := by rw [htakes.inbuf, hinbuf]
  received := by rw [htakes.received, hreceived]
  removed := by rw [htakes.removed, hremoved]
  readFinished := by rw [htakes.readFinished, hopen]
  dispatched := by simp [hdispatched]
  outstanding := htakes.outstanding

variable (env) in
-- The rest of the loop does not take the command out of the buffer, and a connection that is
-- removed in it loses the response.
theorem Stuck.loop (h : Stuck buffer s) (fuel : Nat) (data : List UInt8) :
    ((loop (Conn.round env) fuel s data).stopped = none ∧
        Stuck buffer (loop (Conn.round env) fuel s data).state) ∨
      ((loop (Conn.round env) fuel s data).stopped.isSome ∧
        (loop (Conn.round env) fuel s data).state.lost = true) := by
  apply loop_invariant (J := Stuck buffer) (K := fun s => s.lost = true) _ _ fuel h
  · intro s data n s' hs hround
    cases hfind : find data with
    | incomplete =>
      rw [Conn.round, hfind] at hround
      cases hround
    | invalid =>
      rw [Conn.round, hfind] at hround
      cases hround
    | command c =>
      obtain ⟨s'', htake, htakes, hdispatched⟩ :=
        Conn.round_command env hs.readFinished hfind
      rw [htake] at hround
      cases hround
      exact htakes.stuck hdispatched hs.inbuf hs.received hs.removed hs.readFinished
  · intro s data e s' hs hround
    cases hfind : find data with
    | incomplete =>
      rw [Conn.round, hfind] at hround
      cases hround
    | invalid =>
      rw [Conn.round, hfind] at hround
      cases hround
      show (s.lost || s.outstanding) = true
      rw [hs.outstanding, Bool.or_true]
    | command c =>
      obtain ⟨s'', htake, -, -⟩ := Conn.round_command env hs.readFinished hfind
      rw [htake] at hround
      cases hround

theorem Stuck.not_served (h : Stuck buffer s) : ¬ Served s := by
  intro hserved
  have htail := hserved.buffered h.removed
  rw [h.inbuf, h.received] at htail
  apply tailOf_ne _ htail.symm
  rw [← h.received, ← hserved.dispatched]
  exact h.dispatched

/-- The read that completes the first command leaves it in the buffer, or loses its response. -/
theorem Quiet.read_complete {piece : List UInt8} (h : Quiet s) (hopen : s.removed = false)
    (hreading : s.readFinished = false) (hpiece : piece ≠ [])
    (hfinished : ¬ FirstUnfinished (s.received ++ piece)) (fds : List Nat) :
    ¬ Served (s.handleRead env piece fds) := by
  have hinbuf : (s.withPiece piece fds).inbuf = s.received ++ piece := by
    show s.inbuf ++ piece = s.received ++ piece
    rw [(h.waiting hopen).1]
  rw [firstUnfinished_iff] at hfinished
  push Not at hfinished
  obtain ⟨c, hfind⟩ := hfinished
  obtain ⟨s₁, htake, htakes, hdispatched⟩ :=
    Conn.round_command env (s := s.withPiece piece fds) hreading hfind
  have hstuck : Stuck (s.received ++ piece) s₁ :=
    htakes.stuck hdispatched hinbuf rfl hopen hreading
  rw [Conn.handleRead_piece hpiece, Conn.processCommands, hinbuf, loop_take _ htake]
  -- the first command is dispatched; the loop then goes on, or hangs, or removes the connection
  generalize hr : loop (Conn.round env) (s.received ++ piece).length s₁ _ = r
  have hloop := hstuck.loop env (s.received ++ piece).length
    ((s.received ++ piece).drop (commandSize c.length))
  rw [hr] at hloop
  rcases hloop with ⟨hnone, hstill⟩ | ⟨hsome, hlost⟩
  · rw [hnone]
    dsimp only
    split
    · split
      · exact Stuck.not_served ⟨hstill.inbuf, hstill.received, hstill.removed,
          hstill.readFinished, hstill.dispatched, hstill.outstanding⟩
      · exact hstill.not_served
    · exact Stuck.not_served ⟨hstill.inbuf, hstill.received, hstill.removed,
        hstill.readFinished, hstill.dispatched, hstill.outstanding⟩
    · next hstopped => cases hstopped
  · obtain ⟨e, hstopped⟩ := Option.isSome_iff_exists.mp hsome
    rw [hstopped]
    intro hserved
    have hkept : r.state.lost = false := hserved.answered.2
    rw [hlost] at hkept
    cases hkept

theorem stream_read {piece : List UInt8} (hpiece : piece ≠ []) (fds : List Nat)
    (events : List Event) : stream (.read piece fds :: events) = piece ++ stream events := by
  cases piece with
  | nil => exact absurd rfl hpiece
  | cons b piece => rfl

/-- On a quiet connection only a read can happen. -/
theorem Quiet.step_eq_some (h : Quiet s) {e : Event} (hstep : step env s e = some s') :
    ∃ piece fds, e = .read piece fds ∧ s.removed = false ∧ s.readFinished = false ∧
      s' = s.handleRead env piece fds := by
  obtain ⟨houtbuf, hemails, htasks⟩ := outstanding_eq_false h.outstanding
  cases e with
  | read piece fds =>
    unfold step at hstep
    dsimp only at hstep
    split_ifs at hstep with hcan
    simp only [Bool.or_eq_true, not_or, Bool.not_eq_true] at hcan
    exact ⟨piece, fds, rfl, hcan.1.1, hcan.2, (Option.some.inj hstep).symm⟩
  | write n =>
    unfold step at hstep
    dsimp only at hstep
    split_ifs at hstep with hcan
    simp only [houtbuf, List.length_nil, Bool.or_eq_true, decide_eq_true_eq] at hcan
    omega
  | email i answer => simp [step, hemails] at hstep
  | key i version stream ripe address => simp [step, htasks] at hstep

theorem Quiet.step_read (h : Quiet s) (hopen : s.removed = false) (hreading : s.readFinished = false)
    (piece : List UInt8) (fds : List Nat) :
    step env s (.read piece fds) = some (s.handleRead env piece fds) := by
  rw [step, hopen, h.hung, hreading]
  rfl

theorem Quiet.step (h : Quiet s) {e : Event} (hok : e.Harmless s)
    (hstep : step env s e = some s') : Quiet s' := by
  obtain ⟨piece, fds, rfl, hopen, -, rfl⟩ := h.step_eq_some hstep
  by_cases hpiece : piece = []
  · subst hpiece
    exact (h.eof env fds).1
  · exact (h.read env hopen hpiece hok fds).1

theorem Quiet.step_breaks (h : Quiet s) {e : Event} (hbad : ¬ e.Harmless s)
    (hstep : Ipc.step env s e = some s') : ¬ Served s' := by
  obtain ⟨piece, fds, rfl, hopen, hreading, rfl⟩ := h.step_eq_some hstep
  have hpiece : piece ≠ [] := by
    rintro rfl
    apply hbad
    show FirstUnfinished (s.received ++ [])
    rw [List.append_nil]
    exact h.unfinished
  exact h.read_complete hopen hreading hpiece hbad fds

/-- The part of the events that a connection still reads. -/
def Conn.unread (s : Conn) (events : List Event) : List UInt8 :=
  if s.readFinished then [] else stream events

/-- All reads of a run are harmless exactly if the first command never becomes complete. -/
theorem Quiet.along_iff (h : Quiet s) (events : List Event) :
    Along (Ipc.step env) (fun s e => e.Harmless s) s events ↔
      FirstUnfinished (s.received ++ s.unread events) := by
  induction events generalizing s with
  | nil =>
    have hnil : s.unread [] = [] := by
      unfold Conn.unread
      split <;> rfl
    rw [hnil, List.append_nil]
    exact ⟨fun _ => h.unfinished, fun _ => trivial⟩
  | cons e events ih =>
    rw [Along]
    cases hstep : Ipc.step env s e with
    | some s' =>
      obtain ⟨piece, fds, rfl, hopen, hreading, rfl⟩ := h.step_eq_some hstep
      rw [next_of_some hstep]
      have hunread : s.unread (.read piece fds :: events) = stream (.read piece fds :: events) := by
        rw [Conn.unread, hreading]
        rfl
      rw [hunread]
      by_cases hpiece : piece = []
      · -- the end of the stream: nothing of what follows is read
        subst hpiece
        obtain ⟨hquiet, hreceived, hfinished⟩ := h.eof env fds
        have hend : (s.handleRead env [] fds).unread events = [] := by
          rw [Conn.unread, hfinished]
          rfl
        rw [ih hquiet, hreceived, hend, Event.Harmless, stream, List.append_nil]
        simp
      · rw [stream_read hpiece, ← List.append_assoc]
        by_cases hunfinished : FirstUnfinished (s.received ++ piece)
        · obtain ⟨hquiet, hreceived, hfinished⟩ := h.read env hopen hpiece hunfinished fds
          have hrest : (s.handleRead env piece fds).unread events = stream events := by
            rw [Conn.unread, hfinished, hreading]
            rfl
          rw [ih hquiet, hreceived, hrest]
          simp [Event.Harmless, hunfinished]
        · refine ⟨fun halong => absurd (halong.1 rfl) hunfinished, fun hall => ?_⟩
          exact absurd hall.of_append hunfinished
    | none =>
      rw [next_of_none hstep, ih h]
      simp only [Option.isSome_none, Bool.false_eq_true, false_implies, true_and]
      cases e with
      | read piece fds =>
        -- the connection reads no more: it has seen the end of the stream or is removed
        by_cases hreading : s.readFinished = true
        · rw [Conn.unread, Conn.unread, hreading]
          rfl
        · have hremoved : s.removed = true := by
            by_contra hopen
            rw [h.step_read (by simpa using hopen) (by simpa using hreading)] at hstep
            cases hstep
          have hrefused := (h.closed hremoved).resolve_left hreading
          exact ⟨fun _ => hrefused.firstUnfinished _, fun _ => hrefused.firstUnfinished _⟩
      | write n => rfl
      | email i answer => rfl
      | key i version stream ripe address => rfl

theorem quiet_init : Quiet {} where
  unfinished := by decide
  dispatched := rfl
  responses := rfl
  outstanding := rfl
  lost := rfl
  hung := rfl
  waiting _ := ⟨rfl, rfl⟩
  closed hremoved := nomatch hremoved

/-- A connection serves its client in every state exactly as long as the client has not completed
its first command. -/
theorem served_iff (env : Env) (events : List Event) :
    (∀ pre, pre <+: events → Served (run (step env) {} pre)) ↔ FirstUnfinished (stream events) := by
  rw [always_iff_along (fun _ h => h.served) (fun _ _ _ h hok hstep => h.step hok hstep)
    (fun _ _ _ h hbad hstep => h.step_breaks hbad hstep) quiet_init, quiet_init.along_iff]
  rfl

/-- One unknown command that arrives as a whole, and then the first byte of another one. -/
def unknownThenByte : List Event :=
  [.read (frame (ascii "x") 7 []) [], .read [0] []]

/-- The command is complete after the first read and dispatched; the second read finds it in the
buffer and dispatches it once more, with a second response to request 7. -/
theorem unknownThenByte_not_served :
    let env : Env := { behind := fun _ _ => 0, fill := fun _ _ => 0, nonblockError := fun _ => none }
    let s := run (step env) {} unknownThenByte
    commandsOf s.received = [{ requestId := 7, length := 0, start := 0 }] ∧
      s.dispatched = [{ requestId := 7, length := 0, start := 0 },
        { requestId := 7, length := 0, start := 0 }] ∧
      s.responses.map (·.requestId) = [7, 7] ∧ s.inbuf = s.received ∧
      ¬ (∀ pre, pre <+: unknownThenByte → Served (run (step env) {} pre)) := by
  intro env s
  refine ⟨by decide +kernel, by decide +kernel, by decide +kernel, by decide +kernel, ?_⟩
  intro hall
  have hserved := (hall _ List.prefix_rfl).dispatched
  revert hserved
  decide +kernel

end Notbit.Ipc
