import Notbit.Blob
import Notbit.Connection.HashLists
import Notbit.Lib.Framing
import Notbit.Proto.Frames

/-!
# Commands — what a connection does with the bytes it receives (`ntb-connection.c`)

`next` is one round of the loop of `process_commands`, as a reader in the sense of `Framing`: it
waits for a whole command, takes it, or ends the connection.  A command that announces too much is
refused while it is still arriving; everything else is checked when the command is complete.
-/

open Bytes Traced Traced.Parser Framing Notbit.Proto

namespace Notbit.Connection

/-- `NTB_CONNECTION_MAX_MESSAGE_SIZE` -/
def maxMessageSize : Nat := 128 * 1024 * 1024

/-! ## 1. Events -/

/-- `struct ntb_connection_version_event` -/
structure VersionEvent where
  version : Nat
  services : Nat
  timestamp : Nat
  addrRecv : Netaddress
  addrFrom : Netaddress
  nonce : Nat
  userAgent : VarStr
  streamNumbers : VarIntList
  deriving DecidableEq, Repr

/-- `struct ntb_connection_object_event` -/
structure ObjectEvent where
  type : InvType
  nonce : Nat
  timestamp : Nat
  streamNumber : Nat
  objectData : Nat
  objectDataLength : Nat
  deriving DecidableEq, Repr

/-- `struct ntb_connection_addr_event` -/
structure AddrEvent where
  timestamp : Nat
  stream : Nat
  services : Nat
  address : Netaddress
  deriving DecidableEq, Repr

/-- The events of a connection.  An address in an event is counted from the start of the payload
of the command. -/
inductive Event where
  | error
  | connectFailed
  | version (e : VersionEvent)
  | verack
  | object (e : ObjectEvent)
  | inv (e : HashEvent)
  | addr (e : AddrEvent)
  | getdata (e : HashEvent)
  deriving DecidableEq, Repr

/-! ## 2. The command handlers -/

inductive Action where
  | emit (e : Event)
  | sendPong
  deriving DecidableEq, Repr

/-- What a handler makes of a payload: the actions it takes one after the other as long as each of
them succeeds, and whether it then finds the payload to be invalid. -/
structure Handled where
  actions : List Action
  malformed : Bool
  deriving DecidableEq, Repr

/-- A handler gets the memory in which its payload stands at address 0, and the length of it. -/
abbrev Handler := Memory → Nat → Handled

def Handled.invalid : Handled := { actions := [], malformed := true }

def Handled.event (e : Event) : Handled := { actions := [.emit e], malformed := false }

/-- The header that the objects with a version of their own have. -/
def versionedHeader : List Argument := [.u64, .timestamp, .varInt, .varInt]

def versionedObjectHandler (type : InvType) : Handler := fun mem commandLength =>
  match (getCommand 0 commandLength versionedHeader).value mem with
  | .ok ([.num nonce, .num timestamp, .num _, .num streamNumber], _) =>
    .event (.object { type, nonce, timestamp, streamNumber, objectData := 0
                      objectDataLength := commandLength })
  | _ => .invalid

def getpubkeyCommandHandler : Handler := versionedObjectHandler .getpubkey

def pubkeyCommandHandler : Handler := versionedObjectHandler .pubkey

def broadcastCommandHandler : Handler := versionedObjectHandler .broadcast

def msgCommandHandler : Handler := fun mem commandLength =>
  match (getCommand 0 commandLength [.u64, .timestamp, .varInt]).value mem with
  | .ok ([.num nonce, .num timestamp, .num streamNumber], _) =>
    .event (.object { type := .msg, nonce, timestamp, streamNumber, objectData := 0
                      objectDataLength := commandLength })
  | _ => .invalid

/-- The two handlers of counted hash lists, which differ in the event they emit. -/
def hashCommandHandler (handler : Nat → Nat → Parser HashEvent) (event : HashEvent → Event) :
    Handler := fun mem commandLength =>
  match (handler 0 commandLength).value mem with
  | .ok e => .event (event e)
  | .error _ => .invalid

def versionArguments : List Argument :=
  [.u32, .u64, .timestamp, .u64, .netaddress, .u64, .netaddress, .u64, .varStr, .varIntList]

def versionCommandHandler : Handler := fun mem commandLength =>
  match (getCommand 0 commandLength versionArguments).value mem with
  | .ok ([.num version, .num services, .num timestamp, .num _, .netaddress addrRecv, .num _,
      .netaddress addrFrom, .num nonce, .varStr userAgent, .varIntList streamNumbers], _) =>
    .event (.version { version, services, timestamp, addrRecv, addrFrom, nonce, userAgent
                       streamNumbers })
  | _ => .invalid

def addrArguments : List Argument := [.timestamp, .u32, .u64, .netaddress]

/-- The loop of `addr_command_handler`: each address is passed on before the next one is parsed. -/
def addrEvents (mem : Memory) : Nat → Cursor → Handled
  | 0, _ => { actions := [], malformed := false }
  | n + 1, c =>
    match (getCommand c.pos c.len addrArguments).value mem with
    | .ok ([.num timestamp, .num stream, .num services, .netaddress address], addrLength) =>
      let rest := addrEvents mem n (c.advance 32 addrLength)
      { rest with actions := .emit (.addr { timestamp, stream, services, address }) :: rest.actions }
    | _ => .invalid

def addrCommandHandler : Handler := fun mem commandLength =>
  match (getVarInt { pos := 0, len := commandLength }).value mem with
  | .ok (nAddresses, c) => addrEvents mem nAddresses c
  | .error _ => .invalid

def verackCommandHandler : Handler := fun _ _ => .event .verack

def pingCommandHandler : Handler := fun _ _ => { actions := [.sendPong], malformed := false }

/-- `command_handlers` -/
def commandHandlers : List (List UInt8 × Handler) :=
  [(ascii "getpubkey", getpubkeyCommandHandler),
    (ascii "pubkey", pubkeyCommandHandler),
    (ascii "msg", msgCommandHandler),
    (ascii "broadcast", broadcastCommandHandler),
    (ascii "inv", hashCommandHandler invCommandHandler .inv),
    (ascii "version", versionCommandHandler),
    (ascii "addr", addrCommandHandler),
    (ascii "getdata", hashCommandHandler getdataCommandHandler .getdata),
    (ascii "verack", verackCommandHandler),
    (ascii "ping", pingCommandHandler)]

/-! ## 3. Processing commands -/

variable {σ : Type}

/-- The part of `struct ntb_connection` that the commands of a peer can change, with the state of
whoever listens to its events and the commands that were given to a handler. -/
structure Conn (σ : Type) where
  listener : σ
  connectSucceeded : Bool
  outBuf : Buffer
  dispatched : List (List UInt8 × List UInt8)

/-- Why a connection ends: a protocol error, a listener that has removed the connection and says
so, or the end of the stream. -/
inductive Failure where
  | tooLong
  | badMagic
  | badCommandString
  | badChecksum
  | malformed
  | refused
  | closed
  deriving DecidableEq, Repr

/-- The listener of the events: it is given the payload the event points into. -/
abbrev Notify (σ : Type) := σ → List UInt8 → Event → σ × Bool

variable (ssl : OpenSSL) (notify : Notify σ) (unwritten : Unwritten)

/-- `set_error_state` -/
def setErrorState (s : Conn σ) : Conn σ :=
  let event := if s.connectSucceeded then Event.error else Event.connectFailed
  { s with listener := (notify s.listener [] event).1 }

def pong : CString := ⟨ascii "pong", nonzero_of_all rfl⟩

/-- `send_pong` -/
def sendPong (s : Conn σ) : Conn σ :=
  { s with outBuf := (addCommand ssl (unwritten.fill s.outBuf) s.outBuf pong []).getD s.outBuf }

def act (payload : List UInt8) (s : Conn σ) : Action → Conn σ × Bool
  | .emit e => ({ s with listener := (notify s.listener payload e).1 },
      (notify s.listener payload e).2)
  | .sendPong => (sendPong ssl unwritten s, true)

/-- The actions of a handler, until one of them fails. -/
def perform (payload : List UInt8) : Conn σ → List Action → Conn σ × Bool
  | s, [] => (s, true)
  | s, a :: as =>
    match act ssl notify unwritten payload s a with
    | (s', true) => perform payload s' as
    | (s', false) => (s', false)

def handle (payload : List UInt8) (s : Conn σ) (handled : Handled) : Conn σ × Option Failure :=
  match perform ssl notify unwritten payload s handled.actions with
  | (s', false) => (s', some .refused)
  | (s', true) => if handled.malformed then (setErrorState notify s', some .malformed) else (s', none)

/-- The three checks at the start of `process_command`, on a header and its payload. -/
def frameError (command : List UInt8) : Option Failure :=
  if command.take 4 ≠ magic then some .badMagic
  else if !checkCommandString ((command.drop 4).take 12) then some .badCommandString
  else if (ssl.sha512 (command.drop headerSize)).take 4 ≠ (command.drop 20).take 4 then
    some .badChecksum
  else none

/-- The name of a command, up to its terminator. -/
def commandName (command : List UInt8) : List UInt8 := ((command.drop 4).take 12).takeWhile (· ≠ 0)

/-- `process_command`; in `mem` the payload of the command stands at address 0. -/
def processCommand (mem : Memory) (s : Conn σ) (command : List UInt8) : Conn σ × Option Failure :=
  match frameError ssl command with
  | some failure => (setErrorState notify s, some failure)
  | none =>
    let payload := command.drop headerSize
    match commandHandlers.find? (·.1 = commandName command) with
    -- an unknown command is ignored
    | none => (s, none)
    | some (name, handler) =>
      handle ssl notify unwritten payload
        { s with dispatched := s.dispatched ++ [(name, payload)] } (handler mem payload.length)

/-- The length a header announces. -/
def announcedLength (buf : List UInt8) : Nat := ofBE ((buf.drop 16).take 4)

/-- One round of the loop of `process_commands`.  The sum of the two lengths is a `uint32_t`. -/
def next (s : Conn σ) (buf : List UInt8) : Verdict (Conn σ) Failure :=
  if buf.length < headerSize then .wait
  else
    let commandLength := announcedLength buf
    -- checked before the command is complete, so that the buffer cannot grow without bound
    if maxMessageSize < commandLength then .stop .tooLong (setErrorState notify s)
    else if buf.length < (headerSize + commandLength) % 2 ^ 32 then .wait
    else
      let mem := overlay (buf.drop headerSize) (unwritten.behind buf)
      let command := buf.take (headerSize + commandLength)
      match processCommand ssl notify unwritten mem s command with
      | (s', none) => .take (headerSize + commandLength) s'
      | (s', some failure) => .stop failure s'

/-- `handle_read` with what `read` returned.  A connection that was ended has no source to be
polled any more. -/
def handleRead (r : Outcome UInt8 (Conn σ) Failure) (piece : List UInt8) :
    Outcome UInt8 (Conn σ) Failure :=
  match r.stopped with
  | some _ => r
  | none =>
    if piece = [] then ⟨setErrorState notify r.state, [], some .closed⟩
    else read (next ssl notify unwritten) r.state (r.rest ++ piece)

/-- A connection that is fed the pieces of a stream. -/
def receive (s : Conn σ) (pieces : List (List UInt8)) : Outcome UInt8 (Conn σ) Failure :=
  pieces.foldl (handleRead ssl notify unwritten) ⟨s, [], none⟩

/-! ## 4. A handler sees its payload only -/

/-- What the handler does is determined by the bytes of the payload. -/
def Handler.Local (handler : Handler) : Prop :=
  ∀ mem mem' : Memory, ∀ commandLength < 2 ^ 32, (∀ i < commandLength, mem i = mem' i) →
    handler mem commandLength = handler mem' commandLength

theorem value_eq_of_agree {α : Type} {x : Parser α} {mem mem' : Memory} {commandLength : Nat}
    (h : Parser.Local 0 (0 + commandLength) x) (hsame : ∀ i < commandLength, mem i = mem' i) :
    x.value mem = x.value mem' :=
  h mem mem' fun i _ hi => hsame i (by omega)

theorem local_versionedObjectHandler (type : InvType) :
    (versionedObjectHandler type).Local := by
  intro mem mem' commandLength hlen hsame
  unfold versionedObjectHandler
  rw [value_eq_of_agree (local_getCommand versionedHeader hlen) hsame]

theorem local_msgCommandHandler : Handler.Local msgCommandHandler := by
  intro mem mem' commandLength hlen hsame
  unfold msgCommandHandler
  rw [value_eq_of_agree (local_getCommand _ hlen) hsame]

theorem local_versionCommandHandler : Handler.Local versionCommandHandler := by
  intro mem mem' commandLength hlen hsame
  unfold versionCommandHandler
  rw [value_eq_of_agree (local_getCommand versionArguments hlen) hsame]

theorem local_hashListHandler (data commandLength : Nat) :
    Parser.Local data (data + commandLength) (hashListHandler data commandLength) := by
  apply (local_getVarInt { pos := data, len := commandLength }).bind
  rintro mem ⟨n, c⟩ _
  dsimp only
  split_ifs
  · exact local_reject
  · exact local_pure _

theorem local_hashCommandHandler (event : HashEvent → Event) :
    (hashCommandHandler hashListHandler event).Local := by
  intro mem mem' commandLength _ hsame
  unfold hashCommandHandler
  rw [value_eq_of_agree (local_hashListHandler 0 commandLength) hsame]

theorem addrEvents_eq {mem mem' : Memory} {n : Nat} {c : Cursor} (hc : c.len < 2 ^ 32)
    (hsame : ∀ i, c.pos ≤ i → i < c.pos + c.len → mem i = mem' i) :
    addrEvents mem n c = addrEvents mem' n c := by
  induction n generalizing c with
  | zero => rfl
  | succ n ih =>
    rw [addrEvents, addrEvents, ← local_getCommand addrArguments hc mem mem' hsame]
    split
    next timestamp stream services address addrLength hparse =>
      have hle := getCommand_consumed hc hparse
      have hadvance := Cursor.advance_of_le hle hc
      rw [hadvance, ih]
      · rw [Cursor.skip_len]
        omega
      · intro i hlo hhi
        rw [Cursor.skip_pos] at hlo
        rw [Cursor.skip_pos, Cursor.skip_len] at hhi
        exact hsame i (by omega) (by omega)
    next => rfl

theorem local_addrCommandHandler : Handler.Local addrCommandHandler := by
  intro mem mem' commandLength hlen hsame
  unfold addrCommandHandler
  rw [← value_eq_of_agree (local_getVarInt { pos := 0, len := commandLength }) hsame]
  split
  next n c hcount =>
    obtain ⟨hpos, hsum⟩ := getVarInt_consumed hcount
    simp only at hpos hsum
    apply addrEvents_eq
    · omega
    · intro i _ hi
      exact hsame i (by omega)
  next => rfl

theorem local_commandHandlers : ∀ h ∈ commandHandlers, h.2.Local := by
  intro h hmem
  simp only [commandHandlers, List.mem_cons, List.not_mem_nil, or_false] at hmem
  rcases hmem with rfl | rfl | rfl | rfl | rfl | rfl | rfl | rfl | rfl | rfl
  · exact local_versionedObjectHandler .getpubkey
  · exact local_versionedObjectHandler .pubkey
  · exact local_msgCommandHandler
  · exact local_versionedObjectHandler .broadcast
  · exact local_hashCommandHandler .inv
  · exact local_versionCommandHandler
  · exact local_addrCommandHandler
  · exact local_hashCommandHandler .getdata
  · exact fun _ _ _ _ _ => rfl
  · exact fun _ _ _ _ _ => rfl

/-! ## 5. The pieces of a stream do not matter -/

variable {ssl notify} {unwritten unwritten' : Unwritten} {s : Conn σ} {buf : List UInt8}

-- A pong is a command without a payload, whatever was in the buffer.
theorem sendPong_eq (ssl : OpenSSL) (unwritten : Unwritten) (s : Conn σ) :
    sendPong ssl unwritten s = { s with outBuf := s.outBuf ++ frame ssl pong.bytes [] } := by
  have hempty : addArguments [] = some [] := rfl
  rw [sendPong, addCommand_eq (by decide) hempty (by norm_num)]
  rfl

variable (unwritten unwritten') in
theorem act_congr (payload : List UInt8) (a : Action) :
    act ssl notify unwritten payload s a = act ssl notify unwritten' payload s a := by
  cases a with
  | emit e => rfl
  | sendPong => rw [act, act, sendPong_eq, sendPong_eq]

theorem perform_congr (payload : List UInt8) (actions : List Action) :
    perform ssl notify unwritten payload s actions =
      perform ssl notify unwritten' payload s actions := by
  induction actions generalizing s with
  | nil => rfl
  | cons a actions ih =>
    rw [perform, perform, act_congr unwritten unwritten' payload a]
    cases act ssl notify unwritten' payload s a with
    | mk s' ok =>
      cases ok with
      | true => exact ih
      | false => rfl

-- A command is processed in the same way wherever its payload stands.
theorem processCommand_congr {mem mem' : Memory} {command : List UInt8}
    (hlen : command.length < 2 ^ 32)
    (hsame : ∀ i < (command.drop headerSize).length, mem i = mem' i) :
    processCommand ssl notify unwritten mem s command =
      processCommand ssl notify unwritten' mem' s command := by
  unfold processCommand
  split
  · rfl
  · dsimp only
    split
    · rfl
    · next name handler hfind =>
      have hlocal := local_commandHandlers _ (List.mem_of_find?_eq_some hfind) mem mem'
        (command.drop headerSize).length (by rw [List.length_drop]; omega) hsame
      simp only at hlocal
      unfold handle
      rw [hlocal, perform_congr]

theorem announcedLength_append (more : List UInt8) (h : headerSize ≤ buf.length) :
    announcedLength (buf ++ more) = announcedLength buf := by
  unfold headerSize at h
  unfold announcedLength
  rw [List.drop_append_of_le_length (by omega), List.take_append_of_le_length (by
    rw [List.length_drop]
    omega)]

variable (unwritten') in
-- Once a round does not wait, further bytes do not change what it does.
theorem next_append (more : List UInt8)
    (h : next ssl notify unwritten s buf ≠ .wait) :
    next ssl notify unwritten' s (buf ++ more) = next ssl notify unwritten s buf := by
  by_cases hheader : buf.length < headerSize
  · exact absurd (by rw [next, if_pos hheader]) h
  · have hlonger : ¬ (buf ++ more).length < headerSize := by
      rw [List.length_append]
      omega
    have hlength := announcedLength_append more (Nat.le_of_not_lt hheader)
    rw [next, if_neg hlonger, hlength]
    rw [next, if_neg hheader] at h ⊢
    dsimp only at h ⊢
    by_cases hlong : maxMessageSize < announcedLength buf
    · rw [if_pos hlong, if_pos hlong]
    · rw [if_neg hlong] at h ⊢
      rw [if_neg hlong]
      have hsum : (headerSize + announcedLength buf) % 2 ^ 32 =
          headerSize + announcedLength buf := by
        unfold headerSize maxMessageSize at *
        omega
      rw [hsum] at h ⊢
      by_cases hwait : buf.length < headerSize + announcedLength buf
      · exact absurd (by rw [if_pos hwait]) h
      · rw [if_neg hwait, if_neg (by rw [List.length_append]; omega),
          List.take_append_of_le_length (by omega)]
        -- the handler sees another memory, in which its payload is the same
        have hcommand : (buf.take (headerSize + announcedLength buf)).length =
            headerSize + announcedLength buf := by
          rw [List.length_take]
          omega
        have hshort : (buf.take (headerSize + announcedLength buf)).length < 2 ^ 32 := by
          unfold headerSize maxMessageSize at *
          omega
        have hsame : ∀ i < ((buf.take (headerSize + announcedLength buf)).drop headerSize).length,
            overlay ((buf ++ more).drop headerSize) (unwritten'.behind (buf ++ more)) i =
              overlay (buf.drop headerSize) (unwritten.behind buf) i := by
          intro i hi
          rw [List.length_drop, hcommand] at hi
          have hin : i < (buf.drop headerSize).length := by
            rw [List.length_drop]
            omega
          rw [List.drop_append_of_le_length (by omega)]
          simp [overlay, List.getElem?_append_left hin, List.getElem?_eq_getElem hin]
        rw [processCommand_congr hshort hsame]

theorem next_congr : next ssl notify unwritten s buf = next ssl notify unwritten' s buf := by
  by_cases h : next ssl notify unwritten' s buf = .wait
  · by_contra hne
    have hsame := next_append unwritten' [] (fun hw => hne (hw.trans h.symm))
    rw [List.append_nil] at hsame
    exact hne hsame.symm
  · have hsame := next_append unwritten [] h
    rwa [List.append_nil] at hsame

theorem next_take {n : Nat} {s' : Conn σ} (h : next ssl notify unwritten s buf = .take n s') :
    0 < n ∧ n ≤ buf.length := by
  unfold next at h
  dsimp only at h
  split_ifs at h with hheader hlong hwait
  split at h
  · cases h
    unfold headerSize maxMessageSize at *
    omega
  · cases h

theorem next_stable : Stable (next ssl notify unwritten) where
  nil s := by rw [next, if_pos (by decide)]
  take h := by
    obtain ⟨hpos, hle⟩ := next_take h
    refine ⟨hpos, hle, fun more => ?_⟩
    rw [next_append unwritten more (by rw [h]; exact nofun), h]
  stop h more := by
    rw [next_append unwritten more (by rw [h]; exact nofun), h]

-- Non-empty pieces are read as `Framing.feed` reads them.
theorem receive_eq_feed {pieces : List (List UInt8)} (hpieces : ∀ p ∈ pieces, p ≠ []) :
    receive ssl notify unwritten s pieces = feed (next ssl notify unwritten) ⟨s, [], none⟩ pieces := by
  unfold receive feed
  generalize (⟨s, [], none⟩ : Outcome UInt8 (Conn σ) Failure) = r
  induction pieces generalizing r with
  | nil => rfl
  | cons piece pieces ih =>
    have hfirst : handleRead ssl notify unwritten r piece =
        r.andThen (next ssl notify unwritten) piece := by
      unfold handleRead Outcome.andThen
      rw [if_neg (hpieces piece List.mem_cons_self)]
      cases r.stopped with
      | none => rfl
      | some failure => rfl
    rw [List.foldl_cons, List.foldl_cons, hfirst]
    exact ih (fun p hp => hpieces p (List.mem_cons_of_mem piece hp)) _

/-- What a connection does with a stream, the error it ends with and what it leaves in its buffer
do not depend on the non-empty pieces in which the stream arrives, nor on memory that nobody has
written; and a connection that has failed does nothing more. -/
theorem receive_pieces (ssl : OpenSSL) (notify : Notify σ) (unwritten unwritten' : Unwritten)
    (s : Conn σ) (pieces : List (List UInt8)) (hpieces : ∀ p ∈ pieces, p ≠ []) :
    receive ssl notify unwritten s pieces =
        read (next ssl notify unwritten') s pieces.flatten ∧
      ∀ more, (receive ssl notify unwritten s pieces).stopped.isSome →
        receive ssl notify unwritten s (pieces ++ more) =
          receive ssl notify unwritten s pieces := by
  constructor
  · rw [receive_eq_feed hpieces, next_stable.feed_eq_read]
    have hsame : next ssl notify unwritten = next ssl notify unwritten' := by
      funext s buf
      exact next_congr
    rw [hsame]
  · intro more hstopped
    have hdone : ∀ r : Outcome UInt8 (Conn σ) Failure, r.stopped.isSome →
        more.foldl (handleRead ssl notify unwritten) r = r := by
      intro r hr
      obtain ⟨failure, hfailure⟩ := Option.isSome_iff_exists.mp hr
      induction more with
      | nil => rfl
      | cons piece more ih =>
        rw [List.foldl_cons, handleRead, hfailure]
        exact ih
    rw [receive, List.foldl_append]
    exact hdone _ hstopped

/-- A listener that lets everything pass. -/
def acceptAll : Notify Unit := fun _ _ _ => ((), true)

def zeroes : Unwritten := { behind := fun _ _ => 0, fill := fun _ _ => 0 }

/-- The two halves of a ping. -/
def splitPing : List (List UInt8) :=
  let ping := frame OpenSSL.additive (ascii "ping") []
  [ping.take 10, ping.drop 10]

theorem splitPing_received :
    (∀ p ∈ splitPing, p ≠ []) ∧
      receive OpenSSL.additive acceptAll zeroes ⟨(), true, [], []⟩ splitPing =
        read (next OpenSSL.additive acceptAll zeroes) ⟨(), true, [], []⟩ splitPing.flatten := by
  have hpieces : ∀ p ∈ splitPing, p ≠ [] := by decide +kernel
  exact ⟨hpieces, (receive_pieces _ _ _ _ _ _ hpieces).1⟩

/-! ## 6. What is sent is received -/

section Sent

variable {command payload : List UInt8}

theorem frame_parts (ssl : OpenSSL) (command payload : List UInt8) :
    frame ssl command payload =
      magic ++ (commandField command ++ (toBE 4 payload.length ++
        ((ssl.sha512 payload).take 4 ++ payload))) := by
  simp only [frame, List.append_assoc]

theorem frame_drop_header (h : command.length ≤ 12) :
    (frame ssl command payload).drop headerSize = payload := by
  unfold frame
  apply List.drop_left'
  rw [List.length_append, List.length_append, List.length_append, length_magic,
    length_commandField h, length_toBE, length_checksum]
  rfl

theorem frame_nameField (h : command.length ≤ 12) :
    ((frame ssl command payload).drop 4).take 12 = commandField command := by
  rw [frame_parts, List.drop_left' length_magic, List.take_left' (length_commandField h)]

theorem frame_drop_name (h : command.length ≤ 12) :
    (frame ssl command payload).drop 16 =
      toBE 4 payload.length ++ ((ssl.sha512 payload).take 4 ++ payload) := by
  rw [frame_parts, ← List.append_assoc]
  apply List.drop_left'
  rw [List.length_append, length_magic, length_commandField h]

theorem frame_checksum (h : command.length ≤ 12) :
    ((frame ssl command payload).drop 20).take 4 = (ssl.sha512 payload).take 4 := by
  rw [show (20 : Nat) = 16 + 4 from rfl, ← List.drop_drop, frame_drop_name h,
    List.drop_left' (length_toBE 4 _), List.take_left' (length_checksum ssl payload)]

-- The header of a command announces the length of its payload.
theorem announcedLength_frame (h : command.length ≤ 12) (hpayload : payload.length < 2 ^ 32) :
    announcedLength (frame ssl command payload) = payload.length := by
  rw [announcedLength, frame_drop_name h, List.take_left' (length_toBE 4 _),
    ofBE_toBE_of_lt (by omega)]

-- A command passes the checks of the receiver.
theorem frameError_frame {command : CString} (h : command.bytes.length ≤ 11) :
    frameError ssl (frame ssl command.bytes payload) = none := by
  have hmagic : (frame ssl command.bytes payload).take 4 = magic := by
    rw [frame_parts, List.take_left' length_magic]
  unfold frameError
  rw [hmagic, frame_nameField (by omega), checkCommandString_commandField h,
    frame_drop_header (by omega), frame_checksum (by omega)]
  simp

theorem commandName_frame {command : CString} (h : command.bytes.length ≤ 11) :
    commandName (frame ssl command.bytes payload) = command.bytes := by
  obtain ⟨k, hk⟩ : ∃ k, 12 - command.bytes.length = k + 1 := ⟨11 - command.bytes.length, by omega⟩
  have hnonzero : ∀ b ∈ command.bytes, (decide (b ≠ 0)) = true := by
    intro b hb
    simpa using command.nonzero b hb
  rw [commandName, frame_nameField (by omega), commandField, hk,
    List.takeWhile_append_of_pos hnonzero, List.replicate_succ,
    List.takeWhile_cons_of_neg (by simp), List.append_nil]

/-- The command that is appended for a list of arguments passes the checks of the receiver, and
the receiver gets the same values out of all of its payload. -/
def RoundTrips (ssl : OpenSSL) (command : CString) (args : List ArgInput) : Prop :=
  ∀ (fill : Memory) (buf : Buffer), ∃ bytes, addCommand ssl fill buf command args =
      some (buf ++ bytes) ∧
    frameError ssl bytes = none ∧ announcedLength bytes = bytes.length - headerSize ∧
    ∀ (mem : Memory) (p : Nat), Holds mem p (bytes.drop headerSize) →
      ∃ vs, (getCommand p (bytes.length - headerSize) (args.map ArgInput.kind)).value mem =
          .ok (vs, bytes.length - headerSize) ∧
        List.Forall₂ (Received mem) args vs

/-- Every command whose payload is shorter than 2^31 bytes, the most a var_int can be read from,
is read back. -/
theorem addCommand_roundTrips (ssl : OpenSSL) (command : CString) (args : List ArgInput)
    (hname : command.bytes.length ≤ 11) (hargs : ∀ a ∈ args, a.Sendable)
    (hsize : ∀ payload, addArguments args = some payload → payload.length < 2 ^ 31) :
    RoundTrips ssl command args := by
  intro fill buf
  obtain ⟨payload, hpayload⟩ := addArguments_isSome hargs
  have hshort := hsize payload hpayload
  have hlength : (frame ssl command.bytes payload).length - headerSize = payload.length := by
    rw [length_frame (by omega), Nat.add_sub_cancel_left]
  refine ⟨frame ssl command.bytes payload, addCommand_eq (by omega) hpayload (by omega),
    frameError_frame hname, ?_, ?_⟩
  · rw [announcedLength_frame (by omega) (by omega), hlength]
  · intro mem p hmem
    rw [frame_drop_header (by omega)] at hmem
    obtain ⟨vs, hread, hreceived⟩ := getArguments_addArguments (c := { pos := p, len := payload.length })
      hargs hpayload hmem (le_refl _) hshort
    refine ⟨vs, ?_, hreceived⟩
    rw [hlength, getCommand, value_bind_of_ok hread, value_pure, Cursor.skip_pos,
      Nat.add_sub_cancel_left]

theorem addArguments_replicate {a : ArgInput} {bs : List UInt8} (h : addArgument a = some bs)
    (n : Nat) : addArguments (List.replicate n a) = some (List.replicate n bs).flatten := by
  induction n with
  | zero => rfl
  | succ n ih => rw [List.replicate_succ, addArguments, h, ih]; rfl

end Sent

/-- The longest string a one-byte length can announce. -/
def longString : CString :=
  ⟨List.replicate 252 97, fun b hb => by rw [List.eq_of_mem_replicate hb]; decide⟩

theorem length_longString : longString.bytes.length = 252 := List.length_replicate

/-- A var_int, and `n` long strings behind it. -/
def longArguments (n : Nat) : List ArgInput := .varInt 0 :: List.replicate n (.varStr longString)

theorem longArguments_sendable (n : Nat) : ∀ a ∈ longArguments n, a.Sendable := by
  intro a ha
  rcases List.mem_cons.mp ha with rfl | ha
  · trivial
  · rw [List.eq_of_mem_replicate ha]
    exact le_of_eq length_longString

theorem addArguments_longArguments (n : Nat) :
    ∃ payload, addArguments (longArguments n) = some payload ∧ payload.length = 1 + n * 253 := by
  have hone : (addVarStr longString).length = 253 := by
    rw [addVarStr_of_le (le_of_eq length_longString), List.length_append, length_longString,
      addVarInt_of_lt (by norm_num), List.length_singleton]
  refine ⟨addVarInt 0 ++ (List.replicate n (addVarStr longString)).flatten, ?_, ?_⟩
  · have hstring : addArgument (.varStr longString) = some (addVarStr longString) := rfl
    rw [longArguments, addArguments, addArguments_replicate hstring]
    rfl
  · rw [List.length_append, List.length_flatten, List.map_replicate, List.sum_replicate, hone,
      addVarInt_of_lt (by norm_num), List.length_singleton, smul_eq_mul]

-- The receiver takes a length of 2^31 or more for a negative number and reads no var_int.
theorem longArguments_refused {n : Nat} (hlong : 2 ^ 31 ≤ 1 + n * 253)
    (hfits : 1 + n * 253 < 2 ^ 32) (ssl : OpenSSL) : ¬ RoundTrips ssl pong (longArguments n) := by
  intro h
  obtain ⟨bytes, hbytes, -, -, hget⟩ := h (fun _ => 0) []
  obtain ⟨payload, hpayload, hlen⟩ := addArguments_longArguments n
  rw [addCommand_eq (by decide) hpayload (by omega), List.nil_append, Option.some.injEq,
    List.nil_append] at hbytes
  subst hbytes
  rw [frame_drop_header (by decide), length_frame (by decide), Nat.add_sub_cancel_left] at hget
  obtain ⟨vs, hread, -⟩ := hget _ 0 (holds_ofList _)
  have hreject : ∀ mem : Memory, (getVarInt { pos := 0, len := payload.length }).value mem =
      .error .reject := by
    intro mem
    rw [getVarInt, if_pos (by simp only; omega), value_reject]
  rw [longArguments, List.map_cons, ArgInput.kind, getCommand, value_bind_eq_ok] at hread
  obtain ⟨r, hr, -⟩ := hread
  obtain ⟨r, hr, -⟩ := value_bind_eq_ok.mp hr
  obtain ⟨r, hr, -⟩ := value_bind_eq_ok.mp hr
  rw [hreject] at hr
  cases hr

/-- A list of sendable arguments whose payload is 87 bytes longer than 2^31. -/
theorem longArguments_not_received :
    pong.bytes.length ≤ 11 ∧ (∀ a ∈ longArguments 8488078, a.Sendable) ∧
      ¬ RoundTrips OpenSSL.additive pong (longArguments 8488078) :=
  ⟨by decide, longArguments_sendable _, longArguments_refused (by norm_num) (by norm_num) _⟩

/-- The arguments of a version command. -/
def versionInputs : List ArgInput :=
  [.u32 2, .u64 1, .timestamp 1400000000, .varStr ⟨ascii "/notbit:0.1/", nonzero_of_all rfl⟩, .varInt 1]

theorem versionInputs_received : RoundTrips OpenSSL.additive ⟨ascii "version", nonzero_of_all rfl⟩
    versionInputs := by
  apply addCommand_roundTrips
  · decide
  · decide
  · intro payload hpayload
    have hlen : (addArguments versionInputs).map List.length = some 34 := by decide +kernel
    rw [hpayload, Option.map_some, Option.some.injEq] at hlen
    omega

end Notbit.Connection
