import Notbit.Connection.Commands

/-!
# Lists — commands that are written entry by entry (`ntb-connection.c`)

`inv`, `getdata` and `addr` reserve one byte for the number of their entries and start another
command when that byte is full.  `written_eq` says what has been written in the end: commands of one
to 252 entries that hold the entries in order.  The same entries arrive at the other end
(`lists_delivered`).
-/

open Bytes Traced Traced.Parser Framing Notbit.Proto

namespace Notbit.Connection

/-! ## 1. Writing -/

/-- The fields of `struct ntb_connection` that the writers use. -/
structure Writer where
  outBuf : Buffer
  commandStart : Nat

/-- `get_n_hashes_for_command` and `get_n_hashes_for_addr`, which differ in the size of an entry. -/
def Writer.nEntries (w : Writer) (size : Nat) : Nat :=
  (w.outBuf.length - w.commandStart - 1 - headerSize) / size

variable (ssl : OpenSSL) (fill : Buffer → Memory)

/-- `begin_hash_command`; one byte is reserved for the count. -/
def Writer.beginList (command : CString) (w : Writer) : Writer :=
  let buf := beginCommand (fill w.outBuf) w.outBuf command
  { outBuf := setLength (fill buf) buf (buf.length + 1), commandStart := w.outBuf.length }

/-- `end_hash_command` -/
def Writer.endList (size : Nat) (w : Writer) : Writer :=
  let n := w.nEntries size
  -- a command without entries is abandoned
  if n = 0 then { w with outBuf := w.outBuf.take w.commandStart }
  else
    let buf := patch w.outBuf (w.commandStart + headerSize) (toBE 1 n)
    { w with outBuf := endCommand ssl buf w.commandStart }

/-- `add_hash_for_command` -/
def Writer.addEntry (command : CString) (size : Nat) (w : Writer) (entry : Buffer) : Writer :=
  let w := if w.nEntries size ≥ 0xfc then (w.endList ssl size).beginList fill command else w
  { w with outBuf := w.outBuf ++ entry }

def inv : CString := ⟨ascii "inv", nonzero_of_all rfl⟩

def getdata : CString := ⟨ascii "getdata", nonzero_of_all rfl⟩

def addr : CString := ⟨ascii "addr", nonzero_of_all rfl⟩

def Writer.beginInv : Writer → Writer := Writer.beginList fill inv

def Writer.addInvHash (w : Writer) (hash : Hash) : Writer :=
  w.addEntry ssl fill inv hashLength hash.val

def Writer.endInv : Writer → Writer := Writer.endList ssl hashLength

def Writer.beginGetdata : Writer → Writer := Writer.beginList fill getdata

def Writer.addGetdataHash (w : Writer) (hash : Hash) : Writer :=
  w.addEntry ssl fill getdata hashLength hash.val

def Writer.endGetdata : Writer → Writer := Writer.endList ssl hashLength

/-- The arguments of `ntb_connection_add_addr_address`. -/
structure AddrRecord where
  timestamp : Int
  stream : UInt32
  services : UInt64
  address : SizedNetaddress

def AddrRecord.bytes (r : AddrRecord) : Buffer :=
  add64 (toUInt64 r.timestamp) ++ (add32 r.stream.toNat ++ (add64 r.services.toNat ++
    (addNetaddress r.address.toNetaddress ++ [])))

/-- `sizeof (uint64_t) + sizeof (uint32_t) + sizeof (uint64_t) + 16 + 2` -/
def addrLength : Nat := 8 + 4 + 8 + 16 + 2

def Writer.beginAddr : Writer → Writer := Writer.beginList fill addr

def Writer.addAddrAddress (w : Writer) (r : AddrRecord) : Writer :=
  w.addEntry ssl fill addr addrLength r.bytes

def Writer.endAddr : Writer → Writer := Writer.endList ssl addrLength

/-! ## 2. What has been written -/

/-- A command with some entries. -/
def listFrame (command : CString) (entries : List Buffer) : Buffer :=
  frame ssl command.bytes (toBE 1 entries.length ++ entries.flatten)

variable {ssl fill} {command : CString} {size : Nat} {earlier : Buffer} {w : Writer}

/-- The buffer of a list that is being written: the commands that are finished, and the open one
with its entries so far. -/
structure Writing (ssl : OpenSSL) (command : CString) (earlier : Buffer) (w : Writer)
    (done : List (List Buffer)) (entries : List Buffer) : Prop where
  start : w.commandStart = (earlier ++ (done.map (listFrame ssl command)).flatten).length
  buffer : ∃ (fill : Memory) (count : UInt8), w.outBuf =
    beginCommand fill (earlier ++ (done.map (listFrame ssl command)).flatten) command ++
      ([count] ++ entries.flatten)

theorem length_flatten_of_size {entries : List Buffer} (h : ∀ e ∈ entries, e.length = size) :
    entries.flatten.length = entries.length * size := by
  rw [List.length_flatten, List.eq_replicate_of_mem (a := size) (l := entries.map List.length)
    (by simpa using h), List.sum_replicate, List.length_map, smul_eq_mul]

theorem Writing.nEntries {done : List (List Buffer)} {entries : List Buffer}
    (h : Writing ssl command earlier w done entries) (hname : command.bytes.length ≤ 11)
    (hsize : 0 < size) (hentries : ∀ e ∈ entries, e.length = size) :
    w.nEntries size = entries.length := by
  obtain ⟨hstart, fill, count, hbuffer⟩ := h
  have hlen : w.outBuf.length - w.commandStart - 1 - headerSize = entries.length * size := by
    have hcount : ([count] ++ entries.flatten).length = 1 + entries.length * size := by
      rw [List.length_append, List.length_singleton, length_flatten_of_size hentries]
    rw [hbuffer, hstart, List.length_append, length_beginCommand (by omega), hcount]
    omega
  rw [Writer.nEntries, hlen, Nat.mul_div_cancel _ hsize]

-- The first step: an open command without entries.
theorem writing_beginList (done : List (List Buffer))
    (hw : w.outBuf = earlier ++ (done.map (listFrame ssl command)).flatten) :
    Writing ssl command earlier (w.beginList fill command) done [] := by
  refine ⟨by rw [Writer.beginList, hw], fill w.outBuf, ?_⟩
  rw [Writer.beginList, setLength, Nat.add_sub_cancel_left, hw]
  exact ⟨_, rfl⟩

/-- Ending a command that has entries. -/
theorem Writing.endList {done : List (List Buffer)} {entries : List Buffer}
    (h : Writing ssl command earlier w done entries) (hname : command.bytes.length ≤ 11)
    (hsize : 0 < size) (hsmall : size < 2 ^ 16) (hentries : ∀ e ∈ entries, e.length = size)
    (hne : entries ≠ []) (hmax : entries.length ≤ 252) :
    (w.endList ssl size).outBuf =
      earlier ++ ((done ++ [entries]).map (listFrame ssl command)).flatten := by
  have hn := h.nEntries hname hsize hentries
  obtain ⟨hstart, fill, count, hbuffer⟩ := h
  have hbytes : entries.flatten.length < 2 ^ 31 := by
    rw [length_flatten_of_size hentries]
    calc entries.length * size ≤ 252 * 2 ^ 16 := Nat.mul_le_mul hmax (le_of_lt hsmall)
      _ < 2 ^ 31 := by norm_num
  have hcount : patch w.outBuf (w.commandStart + headerSize) (toBE 1 entries.length) =
      beginCommand fill (earlier ++ (done.map (listFrame ssl command)).flatten) command ++
        (toBE 1 entries.length ++ entries.flatten) := by
    rw [hbuffer, hstart, ← List.append_assoc, ← List.append_assoc]
    exact patch_append (length_beginCommand (by omega)) (by rw [length_toBE, List.length_singleton])
  have hpositive : entries.length ≠ 0 := fun h => hne (List.length_eq_zero_iff.mp h)
  have hframe : endCommand ssl (beginCommand fill (earlier ++
      (done.map (listFrame ssl command)).flatten) command ++
        (toBE 1 entries.length ++ entries.flatten)) w.commandStart =
      earlier ++ (done.map (listFrame ssl command)).flatten ++ listFrame ssl command entries := by
    rw [hstart]
    apply endCommand_beginCommand (by omega)
    rw [List.length_append, length_toBE]
    omega
  unfold Writer.endList
  dsimp only
  rw [hn, if_neg hpositive, hcount, hframe, List.map_append, List.flatten_append,
    List.map_singleton, List.flatten_singleton, List.append_assoc]

-- Ending a command without entries takes it back.
theorem Writing.endList_nil {done : List (List Buffer)}
    (h : Writing ssl command earlier w done []) (hname : command.bytes.length ≤ 11)
    (hsize : 0 < size) :
    (w.endList ssl size).outBuf = earlier ++ (done.map (listFrame ssl command)).flatten := by
  have hn := h.nEntries hname hsize (by simp)
  obtain ⟨hstart, fill, count, hbuffer⟩ := h
  have hfield : command.bytes.length ≤ 12 := by omega
  obtain ⟨length, checksum, -, -, heq⟩ := beginCommand_eq fill
    (earlier ++ (done.map (listFrame ssl command)).flatten) hfield
  unfold Writer.endList
  dsimp only
  rw [hn, List.length_nil, if_pos rfl, hbuffer, heq, hstart]
  simp only [List.append_assoc]
  rw [← List.append_assoc, List.take_left' rfl]

variable (fill) in
-- One more entry: in the open command, or in a new one when that is full.
theorem Writing.addEntry {done : List (List Buffer)} {entries : List Buffer} (entry : Buffer)
    (h : Writing ssl command earlier w done entries) (hname : command.bytes.length ≤ 11)
    (hsize : 0 < size) (hsmall : size < 2 ^ 16) (hentries : ∀ e ∈ entries, e.length = size)
    (hmax : entries.length ≤ 252) :
    (entries.length < 252 →
      Writing ssl command earlier (w.addEntry ssl fill command size entry) done
        (entries ++ [entry])) ∧
    (entries.length = 252 →
      Writing ssl command earlier (w.addEntry ssl fill command size entry) (done ++ [entries])
        [entry]) := by
  have hn := h.nEntries hname hsize hentries
  have happend : ∀ {w : Writer} {done entries}, Writing ssl command earlier w done entries →
      Writing ssl command earlier { w with outBuf := w.outBuf ++ entry } done
        (entries ++ [entry]) := by
    rintro w done entries ⟨hstart, fill, count, hbuffer⟩
    refine ⟨hstart, fill, count, ?_⟩
    simp only [hbuffer, List.flatten_append, List.flatten_singleton, List.append_assoc]
  constructor
  · intro hroom
    unfold Writer.addEntry
    rw [hn, if_neg (by omega)]
    exact happend h
  · intro hfull
    have hne : entries ≠ [] := by
      rintro rfl
      simp at hfull
    unfold Writer.addEntry
    rw [hn, if_pos (by omega)]
    exact happend (writing_beginList (done ++ [entries])
      (h.endList hname hsize hsmall hentries hne hmax))

variable (ssl fill w) in
-- The loop of the caller: the finished commands are full, and only the first one can be open
-- without an entry.
theorem writing_entries (hname : command.bytes.length ≤ 11) (hsize : 0 < size)
    (hsmall : size < 2 ^ 16) {list : List Buffer} (hlist : ∀ e ∈ list, e.length = size)
    (hw : w.outBuf = earlier) :
    ∃ done entries, Writing ssl command earlier
        (list.foldl (Writer.addEntry ssl fill command size) (w.beginList fill command)) done
        entries ∧
      done.flatten ++ entries = list ∧ (∀ c ∈ done, c.length = 252) ∧ entries.length ≤ 252 ∧
      (entries = [] → done = []) := by
  induction list using List.reverseRecOn with
  | nil =>
    have hempty : w.outBuf = earlier ++
        (([] : List (List Buffer)).map (listFrame ssl command)).flatten := by simpa using hw
    exact ⟨[], [], writing_beginList [] hempty, rfl, by simp, by simp, fun _ => rfl⟩
  | append_singleton list entry ih =>
    obtain ⟨done, entries, hwriting, hflat, hdone, hmax, hnil⟩ :=
      ih fun e he => hlist e (List.mem_append_left _ he)
    have hentries : ∀ e ∈ entries, e.length = size := by
      intro e he
      apply hlist e
      rw [← hflat]
      exact List.mem_append_left _ (List.mem_append_right _ he)
    obtain ⟨hroom, hfull⟩ := hwriting.addEntry fill entry hname hsize hsmall hentries hmax
    rw [List.foldl_append, List.foldl_cons, List.foldl_nil]
    by_cases hlt : entries.length < 252
    · refine ⟨done, entries ++ [entry], hroom hlt, by rw [← hflat, List.append_assoc], hdone, ?_,
        fun h => absurd h (by simp)⟩
      rw [List.length_append, List.length_singleton]
      omega
    · have hexact : entries.length = 252 := by omega
      refine ⟨done ++ [entries], [entry], hfull hexact, ?_, ?_, by simp,
        fun h => absurd h (by simp)⟩
      · rw [List.flatten_append, List.flatten_singleton, hflat]
      · intro c hc
        rcases List.mem_append.mp hc with hc | hc
        · exact hdone c hc
        · rw [List.mem_singleton.mp hc, hexact]

variable (ssl fill w) in
-- What the three functions have written: commands of one to 252 entries, behind what was in the
-- buffer before.
theorem written_eq (hname : command.bytes.length ≤ 11) (hsize : 0 < size) (hsmall : size < 2 ^ 16)
    {list : List Buffer} (hlist : ∀ e ∈ list, e.length = size) :
    ∃ commands : List (List Buffer), commands.flatten = list ∧
      (∀ c ∈ commands, 1 ≤ c.length ∧ c.length ≤ 252) ∧
      ((list.foldl (Writer.addEntry ssl fill command size) (w.beginList fill command)).endList ssl
        size).outBuf = w.outBuf ++ (commands.map (listFrame ssl command)).flatten := by
  obtain ⟨done, entries, hwriting, hflat, hdone, hmax, hnil⟩ :=
    writing_entries ssl fill w hname hsize hsmall hlist rfl
  by_cases hentries : entries = []
  · have hempty := hnil hentries
    subst hentries hempty
    exact ⟨[], hflat, by simp, hwriting.endList_nil hname hsize⟩
  · refine ⟨done ++ [entries], ?_, ?_, ?_⟩
    · rw [List.flatten_append, List.flatten_singleton, hflat]
    · intro c hc
      rcases List.mem_append.mp hc with hc | hc
      · rw [hdone c hc]
        omega
      · have hpositive := List.length_pos_iff.mpr hentries
        rw [List.mem_singleton.mp hc]
        omega
    · apply hwriting.endList hname hsize hsmall _ hentries hmax
      intro e he
      apply hlist e
      rw [← hflat]
      exact List.mem_append_right _ he

/-! ## 3. What the other end gets -/

/-- A listener that keeps what it is given and lets it pass. -/
def record : Notify (List (List UInt8 × Event)) := fun log payload e => (log ++ [(payload, e)], true)

/-- A list is written in commands of one to 252 entries behind what was in the buffer; another
connection makes of them events whose entries are the list.  `decode` gives the entries of an event
of the expected kind. -/
def Delivered {α β : Type} (ssl : OpenSSL) (command : CString) (encode : α → Buffer) (view : α → β)
    (decode : List UInt8 × Event → Option (List β)) (list : List α) (earlier out : Buffer) :
    Prop :=
  ∃ commands : List (List α), commands.flatten = list ∧
    (∀ c ∈ commands, 1 ≤ c.length ∧ c.length ≤ 252) ∧
    out = earlier ++ (commands.map fun c => listFrame ssl command (c.map encode)).flatten ∧
    (list = [] → out = earlier) ∧
    ∀ (unwritten : Unwritten) (s : Conn (List (List UInt8 × Event))),
      ∃ log, (read (next ssl record unwritten) s (out.drop earlier.length)).state.listener =
          s.listener ++ log ∧
        (read (next ssl record unwritten) s (out.drop earlier.length)).stopped = none ∧
        (read (next ssl record unwritten) s (out.drop earlier.length)).rest = [] ∧
        (log.mapM decode).map List.flatten = some (list.map view)

section Reading

variable {unwritten : Unwritten} {s : Conn (List (List UInt8 × Event))} {payload : List UInt8}

-- A listener that refuses nothing is given all the events of a command.
theorem perform_record (events : List Event) :
    perform ssl record unwritten payload s (events.map Action.emit) =
      ({ s with listener := s.listener ++ events.map fun e => (payload, e) }, true) := by
  induction events generalizing s with
  | nil => simp [perform]
  | cons e events ih =>
    rw [List.map_cons, perform]
    simp only [act, record]
    rw [ih]
    simp [List.append_assoc]

variable (ssl unwritten s) in
-- A command that is known and whose payload is valid is taken, and its events are passed on.
theorem next_listFrame {handler : Handler} {events : List Event}
    (hname : command.bytes.length ≤ 11)
    (hfind : commandHandlers.find? (·.1 = command.bytes) = some (command.bytes, handler))
    (hlen : payload.length ≤ maxMessageSize)
    (hhandler : ∀ mem, Holds mem 0 payload →
      handler mem payload.length = { actions := events.map .emit, malformed := false }) :
    next ssl record unwritten s (frame ssl command.bytes payload) =
      .take (frame ssl command.bytes payload).length
        { s with
          dispatched := s.dispatched ++ [(command.bytes, payload)]
          listener := s.listener ++ events.map fun e => (payload, e) } := by
  have hlength : (frame ssl command.bytes payload).length = headerSize + payload.length :=
    length_frame (by omega)
  have hbound : payload.length < 2 ^ 27 + 1 := by
    unfold maxMessageSize at hlen
    omega
  have hsum : (headerSize + payload.length) % 2 ^ 32 = headerSize + payload.length := by
    unfold headerSize
    omega
  have hprocess : processCommand ssl record unwritten
      (overlay ((frame ssl command.bytes payload).drop headerSize)
        (unwritten.behind (frame ssl command.bytes payload))) s (frame ssl command.bytes payload) =
      ({ s with
          dispatched := s.dispatched ++ [(command.bytes, payload)]
          listener := s.listener ++ events.map fun e => (payload, e) }, none) := by
    rw [processCommand, frameError_frame hname]
    dsimp only
    rw [commandName_frame hname, hfind, frame_drop_header (by omega)]
    dsimp only
    rw [hhandler _ (holds_overlay payload _), handle, perform_record]
    rfl
  rw [next, if_neg (by rw [hlength]; omega), announcedLength_frame (by omega) (by omega)]
  dsimp only
  rw [if_neg (by omega), hsum, if_neg (by rw [hlength]; omega), ← hlength, List.take_length,
    hprocess]

/-- One command after the other. -/
theorem read_listFrames {α β : Type} {encode : α → Buffer} {view : α → β} {handler : Handler}
    {decode : List UInt8 × Event → Option (List β)} {events : List α → List Event}
    (hname : command.bytes.length ≤ 11)
    (hfind : commandHandlers.find? (·.1 = command.bytes) = some (command.bytes, handler))
    {commands : List (List α)}
    (hlen : ∀ c ∈ commands, (toBE 1 c.length ++ (c.map encode).flatten).length ≤ maxMessageSize)
    (hhandler : ∀ c ∈ commands, ∀ mem, Holds mem 0 (toBE 1 c.length ++ (c.map encode).flatten) →
      handler mem (toBE 1 c.length ++ (c.map encode).flatten).length =
        { actions := (events c).map .emit, malformed := false })
    (hdecode : ∀ c ∈ commands, (((events c).map fun e =>
      (toBE 1 c.length ++ (c.map encode).flatten, e)).mapM decode).map List.flatten =
        some (c.map view)) :
    ∃ log, (read (next ssl record unwritten) s
        (commands.map fun c => listFrame ssl command (c.map encode)).flatten).state.listener =
          s.listener ++ log ∧
      (read (next ssl record unwritten) s
        (commands.map fun c => listFrame ssl command (c.map encode)).flatten).stopped = none ∧
      (read (next ssl record unwritten) s
        (commands.map fun c => listFrame ssl command (c.map encode)).flatten).rest = [] ∧
      (log.mapM decode).map List.flatten = some (commands.flatten.map view) := by
  induction commands generalizing s with
  | nil => exact ⟨[], by rw [List.append_nil]; rfl, rfl, rfl, rfl⟩
  | cons c commands ih =>
    have hmem : c ∈ c :: commands := List.mem_cons_self
    have hframe : listFrame ssl command (c.map encode) =
        frame ssl command.bytes (toBE 1 c.length ++ (c.map encode).flatten) := by
      rw [listFrame, List.length_map]
    have hfirst := next_listFrame ssl unwritten s hname hfind (hlen c hmem) (hhandler c hmem)
    rw [List.map_cons, List.flatten_cons, hframe, next_stable.read_append_of_take hfirst]
    obtain ⟨log, hlog, hstopped, hrest, hentries⟩ := ih
      (s := { s with
        dispatched := s.dispatched ++ [(command.bytes, toBE 1 c.length ++ (c.map encode).flatten)]
        listener := s.listener ++ (events c).map fun e =>
          (toBE 1 c.length ++ (c.map encode).flatten, e) })
      (fun d hd => hlen d (List.mem_cons_of_mem c hd))
      (fun d hd => hhandler d (List.mem_cons_of_mem c hd))
      (fun d hd => hdecode d (List.mem_cons_of_mem c hd))
    refine ⟨(events c).map (fun e => (toBE 1 c.length ++ (c.map encode).flatten, e)) ++ log,
      by rw [hlog, List.append_assoc], hstopped, hrest, ?_⟩
    -- the entries of the first command, and then those of the others
    obtain ⟨firsts, hfirsts, hflat⟩ := Option.map_eq_some_iff.mp (hdecode c hmem)
    obtain ⟨others, hothers, hflat'⟩ := Option.map_eq_some_iff.mp hentries
    rw [List.mapM_append, hfirsts, hothers]
    simp [hflat, hflat']

/-- The hashes an event points to. -/
def HashEvent.hashesIn (e : HashEvent) (payload : List UInt8) : List (List UInt8) :=
  (List.range e.nHashes).map fun i => window (ofList payload) (e.hashAddr i) hashLength

def decodeInv : List UInt8 × Event → Option (List (List UInt8))
  | (payload, .inv e) => some (e.hashesIn payload)
  | _ => none

def decodeGetdata : List UInt8 × Event → Option (List (List UInt8))
  | (payload, .getdata e) => some (e.hashesIn payload)
  | _ => none

def decodeAddr : List UInt8 × Event → Option (List AddrEvent)
  | (_, .addr e) => some [e]
  | _ => none

/-- The event a record arrives as. -/
def AddrRecord.view (r : AddrRecord) : AddrEvent :=
  { timestamp := r.timestamp.toNat
    stream := r.stream.toNat
    services := r.services.toNat
    address := r.address.toNetaddress }

theorem length_hashPayload (hashes : List Hash) :
    (toBE 1 hashes.length ++ (hashes.map Subtype.val).flatten).length =
      1 + hashes.length * hashLength := by
  have hsizes : ∀ e ∈ hashes.map Subtype.val, e.length = hashLength := by
    intro e he
    obtain ⟨hash, -, rfl⟩ := List.mem_map.mp he
    exact hash.property
  rw [List.length_append, length_toBE, length_flatten_of_size hsizes, List.length_map]

-- The count of a command that is written is read as a one-byte var_int.
theorem getVarInt_count {mem : Memory} {n len : Nat} {entries : List UInt8} (hn : n ≤ 252)
    (hmem : Holds mem 0 (toBE 1 n ++ entries)) (hlen : len = 1 + entries.length)
    (hlimit : len < 2 ^ 31) :
    (getVarInt { pos := 0, len }).value mem = .ok (n, { pos := 1, len := entries.length }) := by
  have hcount : toBE 1 n = addVarInt n := by
    rw [addVarInt_of_lt (by omega)]
    rfl
  obtain ⟨hbyte, -⟩ := (holds_append _ _ _ _).mp hmem
  rw [hcount] at hbyte
  have hread := reads_getVarInt (v := n) (by omega) mem { pos := 0, len } hbyte
    (by rw [← hcount, length_toBE]; simp only; omega) hlimit
  rw [hread, ← hcount, length_toBE, hlen]
  simp [Cursor.skip]

theorem hashCommandHandler_value (event : HashEvent → Event) {hashes : List Hash}
    (hmax : hashes.length ≤ 252) {mem : Memory}
    (hmem : Holds mem 0 (toBE 1 hashes.length ++ (hashes.map Subtype.val).flatten)) :
    hashCommandHandler hashListHandler event mem
        (toBE 1 hashes.length ++ (hashes.map Subtype.val).flatten).length =
      { actions := [event { hashes := 1, nHashes := hashes.length }].map .emit,
        malformed := false } := by
  have hlen := length_hashPayload hashes
  have hentries : (hashes.map Subtype.val).flatten.length = hashes.length * hashLength := by
    rw [List.length_append, length_toBE] at hlen
    omega
  unfold hashLength at hlen hentries
  have hlen' : 1 + hashes.length * 32 = 1 + (hashes.map Subtype.val).flatten.length := by omega
  have hcount := getVarInt_count hmax hmem hlen' (by omega)
  have hvalue : (hashListHandler 0 (1 + hashes.length * 32)).value mem =
      .ok { hashes := 1, nHashes := hashes.length } := by
    apply hashListHandler_ok.mpr
    refine ⟨hashes.length, _, hcount, ?_, rfl⟩
    simp only [hentries, hashLength]
    omega
  rw [hlen, hashCommandHandler, hvalue]
  rfl

-- The hashes of a list that is stored somewhere.
theorem windows_of_holds {mem : Memory} {base : Nat} {hashes : List Hash}
    (hmem : Holds mem base (hashes.map Subtype.val).flatten) :
    (List.range hashes.length).map (fun i => window mem (base + i * hashLength) hashLength) =
      hashes.map Subtype.val := by
  induction hashes generalizing base with
  | nil => rfl
  | cons hash hashes ih =>
    rw [List.map_cons, List.flatten_cons] at hmem
    obtain ⟨hfirst, hrest⟩ := (holds_append _ _ _ _).mp hmem
    have hlen : hash.val.length = hashLength := hash.property
    rw [hlen] at hrest
    rw [List.length_cons, List.range_succ_eq_map, List.map_cons, List.map_map, List.map_cons,
      Nat.zero_mul, Nat.add_zero, hfirst.window_eq hlen, ← ih hrest]
    congr 1
    apply List.map_congr_left
    intro i _
    show window mem (base + (i + 1) * hashLength) hashLength =
      window mem (base + hashLength + i * hashLength) hashLength
    rw [Nat.succ_mul, Nat.add_comm (i * hashLength), Nat.add_assoc]

theorem hashesIn_eq {hashes : List Hash} (hmax : hashes.length ≤ 252) :
    HashEvent.hashesIn { hashes := 1, nHashes := hashes.length }
        (toBE 1 hashes.length ++ (hashes.map Subtype.val).flatten) =
      hashes.map Subtype.val := by
  obtain ⟨-, hmem⟩ := (holds_append _ _ _ _).mp
    (holds_ofList (toBE 1 hashes.length ++ (hashes.map Subtype.val).flatten))
  rw [length_toBE, Nat.zero_add] at hmem
  refine Eq.trans ?_ (windows_of_holds hmem)
  apply List.map_congr_left
  intro i hi
  have hlt := List.mem_range.mp hi
  simp only at hlt
  unfold HashEvent.hashAddr
  rw [Nat.mod_eq_of_lt (by unfold hashLength; omega)]

theorem length_addrBytes (r : AddrRecord) : r.bytes.length = addrLength := by
  have haddress := length_addNetaddress r.address
  unfold AddrRecord.bytes add64 add32
  simp only [List.length_append, length_toBE, haddress, List.length_nil]
  rfl

theorem addrRecord_encodes {r : AddrRecord} (htime : 0 < r.timestamp ∧ r.timestamp < 2 ^ 32) :
    Encodes addrArguments [.num r.view.timestamp, .num r.view.stream, .num r.view.services,
      .netaddress r.view.address] r.bytes := by
  have hservices := reads_u64 r.services.toNat
  rw [Nat.mod_eq_of_lt r.services.toNat_lt] at hservices
  have htimestamp : toUInt64 r.timestamp = r.timestamp.toNat := by
    unfold toUInt64
    omega
  unfold AddrRecord.bytes
  rw [htimestamp]
  exact .cons (reads_timestamp (by omega)) (.cons (reads_u32 r.stream.toNat_lt) (.cons hservices
    (.cons (reads_netaddress r.address) .nil)))

-- The loop over the addresses gives one event for each of them.
theorem addrEvents_value {mem : Memory} {records : List AddrRecord} {c : Cursor}
    (htimes : ∀ r ∈ records, 0 < r.timestamp ∧ r.timestamp < 2 ^ 32)
    (hmem : Holds mem c.pos (records.map AddrRecord.bytes).flatten)
    (hlen : (records.map AddrRecord.bytes).flatten.length ≤ c.len) (hc : c.len < 2 ^ 31) :
    addrEvents mem records.length c =
      { actions := (records.map fun r => Event.addr r.view).map .emit, malformed := false } := by
  induction records generalizing c with
  | nil => rfl
  | cons r records ih =>
    rw [List.map_cons, List.flatten_cons] at hmem hlen
    rw [List.length_append] at hlen
    obtain ⟨hfirst, hrest⟩ := (holds_append _ _ _ _).mp hmem
    have hparse := getCommand_value (addrRecord_encodes (htimes r List.mem_cons_self)) hfirst
      (by omega) hc
    have hadvance : c.advance 32 r.bytes.length = c.skip r.bytes.length :=
      Cursor.advance_of_le (by omega) (by omega)
    rw [List.length_cons, addrEvents, hparse]
    dsimp only
    have hothers := ih (c := c.skip r.bytes.length)
      (fun r' hr' => htimes r' (List.mem_cons_of_mem r hr')) hrest
      (by rw [Cursor.skip_len]; omega) (by rw [Cursor.skip_len]; omega)
    rw [hadvance, hothers]
    rfl

theorem decodeAddr_events (payload : List UInt8) (records : List AddrRecord) :
    (((records.map fun r => Event.addr r.view).map fun e => (payload, e)).mapM decodeAddr).map
      List.flatten = some (records.map AddrRecord.view) := by
  induction records with
  | nil => rfl
  | cons r records ih =>
    obtain ⟨events, hevents, hflat⟩ := Option.map_eq_some_iff.mp ih
    rw [List.map_cons, List.map_cons, List.mapM_cons, hevents]
    show some (r.view :: events.flatten) = _
    rw [hflat, List.map_cons]

theorem addrCommandHandler_value {records : List AddrRecord} (hmax : records.length ≤ 252)
    (htimes : ∀ r ∈ records, 0 < r.timestamp ∧ r.timestamp < 2 ^ 32) {mem : Memory}
    (hmem : Holds mem 0 (toBE 1 records.length ++ (records.map AddrRecord.bytes).flatten)) :
    addrCommandHandler mem
        (toBE 1 records.length ++ (records.map AddrRecord.bytes).flatten).length =
      { actions := (records.map fun r => Event.addr r.view).map .emit, malformed := false } := by
  have hentries : (records.map AddrRecord.bytes).flatten.length = records.length * 38 := by
    have hsizes : ∀ e ∈ records.map AddrRecord.bytes, e.length = 38 := by
      intro e he
      obtain ⟨r, -, rfl⟩ := List.mem_map.mp he
      exact length_addrBytes r
    rw [length_flatten_of_size hsizes, List.length_map]
  have hcount := getVarInt_count hmax hmem rfl (by omega)
  obtain ⟨-, hrest⟩ := (holds_append _ _ _ _).mp hmem
  rw [List.length_append, length_toBE, addrCommandHandler, hcount]
  exact addrEvents_value htimes hrest (le_refl _) (by simp only; omega)

end Reading

-- Entries that were cut into commands are values that were cut into commands.
theorem unmap_commands {α : Type} {encode : α → Buffer} {list : List α}
    {commands : List (List Buffer)} (h : commands.flatten = list.map encode) :
    ∃ values : List (List α), values.flatten = list ∧ values.map (List.map encode) = commands := by
  induction commands generalizing list with
  | nil => exact ⟨[], by simpa using h.symm, rfl⟩
  | cons c commands ih =>
    rw [List.flatten_cons] at h
    obtain ⟨first, rest, rfl, rfl, hrest⟩ := List.map_eq_append_iff.mp h.symm
    obtain ⟨values, hflat, hmap⟩ := ih hrest.symm
    exact ⟨first :: values, by rw [List.flatten_cons, hflat], by rw [List.map_cons, hmap]⟩

variable (ssl fill command w) in
-- A list of entries of one size is delivered when the handler of its command gives them back.
theorem delivered_of_handler {α β : Type} (encode : α → Buffer) (view : α → β) {handler : Handler}
    (decode : List UInt8 × Event → Option (List β)) (events : List α → List Event) (list : List α)
    (hname : command.bytes.length ≤ 11) (hsize : 0 < size) (hsmall : size < 2 ^ 16)
    (hfind : commandHandlers.find? (·.1 = command.bytes) = some (command.bytes, handler))
    (hencode : ∀ a, (encode a).length = size)
    (hhandler : ∀ c : List α, c.length ≤ 252 → (∀ a ∈ c, a ∈ list) → ∀ mem,
      Holds mem 0 (toBE 1 c.length ++ (c.map encode).flatten) →
      handler mem (toBE 1 c.length ++ (c.map encode).flatten).length =
        { actions := (events c).map .emit, malformed := false })
    (hdecode : ∀ c : List α, c.length ≤ 252 → (((events c).map fun e =>
      (toBE 1 c.length ++ (c.map encode).flatten, e)).mapM decode).map List.flatten =
        some (c.map view)) :
    Delivered ssl command encode view decode list w.outBuf
      (((list.map encode).foldl (Writer.addEntry ssl fill command size)
        (w.beginList fill command)).endList ssl size).outBuf := by
  have hlist : ∀ e ∈ list.map encode, e.length = size := by
    intro e he
    obtain ⟨a, -, rfl⟩ := List.mem_map.mp he
    exact hencode a
  obtain ⟨commands, hflat, hcounts, hout⟩ := written_eq ssl fill w hname hsize hsmall hlist
  obtain ⟨values, hvalues, rfl⟩ := unmap_commands hflat
  have hbounds : ∀ c ∈ values, 1 ≤ c.length ∧ c.length ≤ 252 := by
    intro c hc
    have h := hcounts (c.map encode) (List.mem_map_of_mem hc)
    rwa [List.length_map] at h
  have hmember : ∀ c ∈ values, ∀ a ∈ c, a ∈ list := by
    intro c hc a ha
    rw [← hvalues]
    exact List.mem_flatten_of_mem hc ha
  rw [List.map_map] at hout
  refine ⟨values, hvalues, hbounds, hout, ?_, fun unwritten s => ?_⟩
  · rintro rfl
    have hnil : values = [] := by
      cases values with
      | nil => rfl
      | cons c values =>
        have hfirst := (hbounds c List.mem_cons_self).1
        rw [List.flatten_cons, List.append_eq_nil_iff] at hvalues
        rw [hvalues.1] at hfirst
        simp at hfirst
    rw [hout, hnil]
    simp
  · rw [hout, List.drop_left' rfl, ← hvalues]
    apply read_listFrames hname hfind
    · intro c hc
      have hsizes : ∀ e ∈ c.map encode, e.length = size := by
        intro e he
        obtain ⟨a, -, rfl⟩ := List.mem_map.mp he
        exact hencode a
      have hcount := (hbounds c hc).2
      have hbytes : c.length * size ≤ 252 * 2 ^ 16 := Nat.mul_le_mul hcount (le_of_lt hsmall)
      rw [List.length_append, length_toBE, length_flatten_of_size hsizes, List.length_map]
      unfold maxMessageSize
      omega
    · exact fun c hc => hhandler c (hbounds c hc).2 (hmember c hc)
    · exact fun c hc => hdecode c (hbounds c hc).2

/-- Hashes that are announced or requested and addresses that are passed on arrive at the other
end as they were given to the writers, in order. -/
theorem lists_delivered (ssl : OpenSSL) (fill : Buffer → Memory) (w : Writer) :
    (∀ hashes : List Hash, Delivered ssl inv Subtype.val Subtype.val decodeInv hashes w.outBuf
      ((hashes.foldl (Writer.addInvHash ssl fill) (w.beginInv fill)).endInv ssl).outBuf) ∧
    (∀ hashes : List Hash, Delivered ssl getdata Subtype.val Subtype.val decodeGetdata hashes
      w.outBuf ((hashes.foldl (Writer.addGetdataHash ssl fill)
        (w.beginGetdata fill)).endGetdata ssl).outBuf) ∧
    ∀ records : List AddrRecord, (∀ r ∈ records, 0 < r.timestamp ∧ r.timestamp < 2 ^ 32) →
      Delivered ssl addr AddrRecord.bytes AddrRecord.view decodeAddr records w.outBuf
        ((records.foldl (Writer.addAddrAddress ssl fill) (w.beginAddr fill)).endAddr ssl).outBuf := by
  refine ⟨fun hashes => ?_, fun hashes => ?_, fun records htimes => ?_⟩
  · have hdelivered := delivered_of_handler ssl fill inv w Subtype.val Subtype.val decodeInv
      (fun c => [.inv { hashes := 1, nHashes := c.length }]) hashes (by decide)
      (show 0 < hashLength by decide) (by decide) rfl (fun hash => hash.property)
      (fun c hc _ mem hmem => hashCommandHandler_value .inv hc hmem)
      (fun c hc => by
        show ((some [HashEvent.hashesIn _ _]).map List.flatten) = _
        rw [hashesIn_eq hc, Option.map_some, List.flatten_singleton])
    rw [List.foldl_map] at hdelivered
    exact hdelivered
  · have hdelivered := delivered_of_handler ssl fill getdata w Subtype.val Subtype.val decodeGetdata
      (fun c => [.getdata { hashes := 1, nHashes := c.length }]) hashes (by decide)
      (show 0 < hashLength by decide) (by decide) rfl (fun hash => hash.property)
      (fun c hc _ mem hmem => hashCommandHandler_value .getdata hc hmem)
      (fun c hc => by
        show ((some [HashEvent.hashesIn _ _]).map List.flatten) = _
        rw [hashesIn_eq hc, Option.map_some, List.flatten_singleton])
    rw [List.foldl_map] at hdelivered
    exact hdelivered
  · have hdelivered := delivered_of_handler ssl fill addr w AddrRecord.bytes AddrRecord.view
      decodeAddr (fun c => c.map fun r => .addr r.view) records (by decide)
      (show 0 < addrLength by decide) (by decide) rfl length_addrBytes
      (fun c hc hmem mem => addrCommandHandler_value hc fun r hr => htimes r (hmem r hr))
      (fun c _ => decodeAddr_events _ c)
    rw [List.foldl_map] at hdelivered
    exact hdelivered

/-- Addresses of May 2014. -/
def sampleRecord (i : Nat) : AddrRecord where
  timestamp := 1400000000 + i
  stream := 1
  services := 1
  address := ⟨⟨List.replicate 16 0, 8444⟩, rfl, by norm_num⟩

def sampleRecords : List AddrRecord := (List.range 300).map sampleRecord

-- More records than the number in one byte can tell, behind a command that has not been sent yet.
theorem sampleRecords_delivered :
    Delivered OpenSSL.additive addr AddrRecord.bytes AddrRecord.view decodeAddr sampleRecords
      (frame OpenSSL.additive (ascii "verack") [])
      ((sampleRecords.foldl (Writer.addAddrAddress OpenSSL.additive fun _ _ => 0)
        (Writer.beginAddr (fun _ _ => 0) ⟨frame OpenSSL.additive (ascii "verack") [], 0⟩)).endAddr
          OpenSSL.additive).outBuf := by
  apply (lists_delivered OpenSSL.additive (fun _ _ => 0)
    ⟨frame OpenSSL.additive (ascii "verack") [], 0⟩).2.2
  intro r hr
  obtain ⟨i, hi, rfl⟩ := List.mem_map.mp hr
  rw [List.mem_range] at hi
  show (0 : Int) < 1400000000 + i ∧ (1400000000 + i : Int) < 2 ^ 32
  omega

end Notbit.Connection
