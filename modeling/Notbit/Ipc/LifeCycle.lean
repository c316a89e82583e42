import Notbit.Ipc.Server

/-!
# LifeCycle — when the daemon closes a connection (`ntb-ipc.c`)

`update_poll` decides whether a connection is shut down and freed.  It is called whenever a response
is finished, and so while the email that is answered is still in its list, but after a finished key
generation has left its own.  Every connection is in one of three phases: it serves its client, it
has said everything and is gone, or it has met a name that is refused.
-/

open Bytes Traced Framing Runs Notbit.Proto

namespace Notbit.Ipc

/-! ## 1. What the client gets -/

/-- The bytes of a response. -/
def Response.bytes (r : Response) : List UInt8 :=
  frame Conn.response.bytes r.requestId (add32 r.status.code ++ r.data)

/-- The bytes that leave the socket. -/
def written (s : Conn) : Event → List UInt8
  | .write n => s.outbuf.take n
  | _ => []

namespace Conn

variable {env : Env} {s s' : Conn}

variable (env) in
theorem appendResponse_outbuf (r : Response) :
    (s.appendResponse env r).outbuf = s.outbuf ++ r.bytes :=
  endCommand_beginCommand (by decide)

/-- Responses were put behind what the output buffer held, and the connection is as open as it
was. -/
structure Adds (s s' : Conn) : Prop where
  writeFinished : s'.writeFinished = s.writeFinished
  responses : ∃ more, s'.responses = s.responses ++ more ∧
    s'.outbuf = s.outbuf ++ more.flatMap Response.bytes

theorem Adds.refl (s : Conn) : Adds s s :=
  ⟨rfl, [], (List.append_nil _).symm, (List.append_nil _).symm⟩

variable (env) in
theorem adds_appendResponse (r : Response) : Adds s (s.appendResponse env r) := by
  refine ⟨rfl, [r], rfl, ?_⟩
  rw [appendResponse_outbuf, List.flatMap_singleton]

theorem updatePoll_of_outstanding (hwrite : s.writeFinished = false)
    (hout : s.outstanding = true) : s.updatePoll = (s, true) := by
  simp [updatePoll, hwrite, hout]

variable (env) in
-- The response itself keeps the connection: nothing is freed under the caller.
theorem sendResponse_eq (hwrite : s.writeFinished = false) (requestId : Nat) (status : Status)
    (data : List UInt8) : s.sendResponse env requestId status data =
      (s.appendResponse env { requestId, status, data }, true) := by
  have hne := appendResponse_outbuf_ne_nil env (s := s) { requestId, status, data }
  have hout : (s.appendResponse env { requestId, status, data }).outstanding = true := by
    simp [outstanding, hne]
  exact updatePoll_of_outstanding (s := s.appendResponse env { requestId, status, data }) hwrite hout

variable (env) in
theorem sendResponse_adds (hwrite : s.writeFinished = false) (requestId : Nat) (status : Status)
    (data : List UInt8) : Adds s (s.sendResponse env requestId status data).1 := by
  rw [sendResponse_eq env hwrite]
  exact adds_appendResponse env _

theorem Handles.adds {requestId : Nat} {r : Conn × Bool} (h : Handles env s requestId r)
    (hwrite : s.writeFinished = false) : Adds s r.1 := by
  cases h with
  | answer fdQueue status data =>
    obtain ⟨hsame, more⟩ := sendResponse_adds env (s := { s with fdQueue }) hwrite requestId status
      data
    exact ⟨hsame, more⟩
  | email fdQueue fd => exact ⟨rfl, [], (List.append_nil _).symm, (List.append_nil _).symm⟩
  | task params zeroes => exact ⟨rfl, [], (List.append_nil _).symm, (List.append_nil _).symm⟩

variable (env) in
theorem processCommand_adds (hwrite : s.writeFinished = false) (data : List UInt8) (h : Header) :
    Adds s (s.processCommand env data h).1 := by
  obtain ⟨hsame, more⟩ := (processCommand_handles env s data h).adds hwrite
  exact ⟨hsame, more⟩

end Conn

/-! ## 2. The phases of a connection -/

/-- The loops come to a whole command whose name is refused.  Whole is what passes the test of the
size in 32 bits, which a length near 2^32 passes with less than it announces. -/
inductive MeetsInvalid : List UInt8 → Prop where
  | here {data : List UInt8} (h : find data = .invalid) : MeetsInvalid data
  | later {data : List UInt8} {h : Header} (hfind : find data = .command h)
      (hrest : MeetsInvalid (data.drop (commandSize h.length))) : MeetsInvalid data

/-- A connection that serves its client; `past` has left the socket. -/
structure Serving (s : Conn) (past : List UInt8) : Prop where
  removed : s.removed = false
  writeFinished : s.writeFinished = false
  lost : s.lost = false
  inbuf : s.inbuf = s.received
  answered : s.answerIds.Perm (s.dispatched.map (·.requestId))
  bytes : past ++ s.outbuf = s.responses.flatMap Response.bytes
  reading : s.hung = true → s.readFinished = false
  waits : s.readFinished = true → s.outstanding = true

/-- A connection that was shut down and removed after everything was said. -/
structure Finished (s : Conn) (past : List UInt8) : Prop where
  removed : s.removed = true
  readFinished : s.readFinished = true
  writeFinished : s.writeFinished = true
  answered : (s.responses.map (·.requestId)).Perm (s.dispatched.map (·.requestId))
  bytes : past = s.responses.flatMap Response.bytes

/-- A connection that was removed for a name. -/
structure Refused (s : Conn) : Prop where
  removed : s.removed = true
  readFinished : s.readFinished = false
  writeFinished : s.writeFinished = false
  invalid : MeetsInvalid s.received

/-- Where a connection is in its life. -/
inductive Phase (s : Conn) (past : List UInt8) : Prop where
  | serving (h : Serving s past)
  | finished (h : Finished s past)
  | refused (h : Refused s)

variable {env : Env} {s s' : Conn} {past : List UInt8}

theorem outstanding_of_outbuf (h : s.outbuf ≠ []) : s.outstanding = true := by
  simp [Conn.outstanding, h]

/-- `update_poll` closes a connection exactly when nothing is outstanding. -/
theorem phase_updatePoll (hremoved : s.removed = false) (hwrite : s.writeFinished = false)
    (hlost : s.lost = false) (hinbuf : s.inbuf = s.received)
    (hanswered : s.answerIds.Perm (s.dispatched.map (·.requestId)))
    (hbytes : past ++ s.outbuf = s.responses.flatMap Response.bytes) (hhung : s.hung = false) :
    Phase s.updatePoll.1 past := by
  cases hout : s.outstanding with
  | true =>
    rw [Conn.updatePoll_of_outstanding hwrite hout]
    exact .serving ⟨hremoved, hwrite, hlost, hinbuf, hanswered, hbytes, by simp [hhung],
      fun _ => hout⟩
  | false =>
    cases hread : s.readFinished with
    | false =>
      rw [Conn.updatePoll_of_open hread]
      exact .serving ⟨hremoved, hwrite, hlost, hinbuf, hanswered, hbytes, fun _ => hread,
        fun h => by rw [hread] at h; cases h⟩
    | true =>
      have hdone : s.updatePoll.1 = { s with writeFinished := true }.removeConnection := by
        simp [Conn.updatePoll, hwrite, hread, hout]
      obtain ⟨houtbuf, hemails, htasks⟩ := outstanding_eq_false hout
      rw [hdone]
      refine .finished ⟨rfl, hread, rfl, ?_, ?_⟩
      · rw [Conn.answerIds, hemails, htasks, List.map_nil, List.map_nil, List.append_nil,
          List.append_nil] at hanswered
        exact hanswered
      · rw [houtbuf, List.append_nil] at hbytes
        exact hbytes

variable (env) in
-- One more command, while the client may still write.
theorem Serving.command (h : Serving s past) (hopen : s.readFinished = false) (data : List UInt8)
    {header : Header} (hfind : find data = .command header) :
    ∃ s', Conn.round env s data = .take (commandSize header.length) s' ∧ Serving s' past ∧
      s'.readFinished = false := by
  obtain ⟨s', hround, htakes, hdispatched⟩ := Conn.round_command env hopen hfind
  obtain ⟨s'', hcommand, -⟩ := Conn.processCommand_takes env hopen data header
  have hs' : (s.processCommand env data header).1 = s' := by
    rw [Conn.round, hfind] at hround
    simp only [hcommand] at hround
    rw [hcommand]
    injection hround
  obtain ⟨hsame, more, hresponses, houtbuf⟩ :=
    hs' ▸ Conn.processCommand_adds env h.writeFinished data header
  refine ⟨s', hround, ?_, htakes.readFinished.trans hopen⟩
  constructor
  · exact htakes.removed.trans h.removed
  · exact hsame.trans h.writeFinished
  · exact htakes.lost.trans h.lost
  · rw [htakes.inbuf, htakes.received, h.inbuf]
  · rw [hdispatched, List.map_append]
    exact htakes.answer.trans ((h.answered.cons _).trans (List.perm_append_singleton _ _).symm)
  · rw [houtbuf, hresponses, ← List.append_assoc, h.bytes, List.flatMap_append]
  · exact fun _ => htakes.readFinished.trans hopen
  · exact fun _ => htakes.outstanding

variable (env) in
-- The loop of `process_commands`: it leaves a connection that serves its client, or finds a name
-- that is refused.
theorem Serving.loop (h : Serving s past) (hopen : s.readFinished = false) (fuel : Nat) :
    ((loop (Conn.round env) fuel s s.inbuf).stopped = none ∧
        Serving (loop (Conn.round env) fuel s s.inbuf).state past ∧
        (loop (Conn.round env) fuel s s.inbuf).state.readFinished = false) ∨
      ((loop (Conn.round env) fuel s s.inbuf).stopped.isSome ∧
        Refused (loop (Conn.round env) fuel s s.inbuf).state) := by
  have hloop := @loop_invariant_rest _ _ _ (Conn.round env) s s.inbuf
    (fun s buf => Serving s past ∧ s.readFinished = false ∧
      (MeetsInvalid buf → MeetsInvalid s.received)) Refused ?_ ?_ fuel
    ⟨h, hopen, fun hbuf => h.inbuf ▸ hbuf⟩
  · rcases hloop with ⟨hnone, hserving, hreading, -⟩ | hrefused
    · exact Or.inl ⟨hnone, hserving, hreading⟩
    · exact Or.inr hrefused
  · rintro s data n s' ⟨hs, hreading, hmeets⟩ hround
    cases hfind : find data with
    | incomplete =>
      rw [Conn.round, hfind] at hround
      cases hround
    | invalid =>
      rw [Conn.round, hfind] at hround
      cases hround
    | command header =>
      obtain ⟨s'', htake, hserving, hstill⟩ := hs.command env hreading data hfind
      obtain ⟨_, htake', htakes, -⟩ := Conn.round_command env hreading hfind
      rw [htake'] at hround htake
      cases hround
      cases htake
      refine ⟨hserving, hstill, fun hrest => ?_⟩
      rw [htakes.received]
      exact hmeets (.later hfind hrest)
  · rintro s data e s' ⟨hs, hreading, hmeets⟩ hround
    cases hfind : find data with
    | incomplete =>
      rw [Conn.round, hfind] at hround
      cases hround
    | invalid =>
      rw [Conn.round, hfind] at hround
      cases hround
      exact ⟨rfl, hreading, hs.writeFinished, hmeets (.here hfind)⟩
    | command header =>
      obtain ⟨s'', htake, -⟩ := hs.command env hreading data hfind
      rw [htake] at hround
      cases hround

variable (env) in
theorem Serving.processCommands (h : Serving s past) (hopen : s.readFinished = false) :
    Phase (s.processCommands env) past := by
  have hloop := h.loop env hopen (s.inbuf.length + 1)
  unfold Conn.processCommands
  generalize Framing.loop (Conn.round env) (s.inbuf.length + 1) s s.inbuf = r at hloop ⊢
  dsimp only
  rcases hloop with ⟨hnone, hserving, hreading⟩ | ⟨hsome, hrefused⟩
  · have hwaits : ∀ {t : Conn}, t.readFinished = r.state.readFinished →
        t.readFinished = true → t.outstanding = true := fun hsame hfinished => by
      rw [hsame, hreading] at hfinished
      cases hfinished
    rw [hnone]
    split
    · split
      · exact .serving { hserving with answered := hserving.answered, waits := hwaits rfl }
      · exact .serving hserving
    · exact .serving { hserving with
        answered := hserving.answered, reading := fun _ => hreading, waits := hwaits rfl }
    · next hstopped => cases hstopped
  · obtain ⟨e, hstopped⟩ := Option.isSome_iff_exists.mp hsome
    rw [hstopped]
    exact .refused hrefused

/-! ## 3. Every event -/

variable (env) in
theorem Serving.handleRead (h : Serving s past) (hopen : s.readFinished = false)
    (hhung : s.hung = false) (piece : List UInt8) (fds : List Nat) :
    Phase (s.handleRead env piece fds) past := by
  by_cases hpiece : piece = []
  · unfold Conn.handleRead
    rw [if_pos hpiece]
    exact phase_updatePoll h.removed h.writeFinished h.lost h.inbuf h.answered h.bytes hhung
  · have hserving : Serving (s.withPiece piece fds) past := by
      refine { h with inbuf := ?_, answered := h.answered, waits := fun hfinished => ?_ }
      · show s.inbuf ++ piece = s.received ++ piece
        rw [h.inbuf]
      · rw [show s.readFinished = true from hfinished] at hopen
        cases hopen
    rw [Conn.handleRead_piece hpiece]
    exact hserving.processCommands env hopen

theorem Serving.write (h : Serving s past) (hhung : s.hung = false) (n : Nat) :
    Phase ({ s with outbuf := s.outbuf.drop n }.updatePoll).1 (past ++ s.outbuf.take n) := by
  refine phase_updatePoll h.removed h.writeFinished h.lost h.inbuf h.answered ?_ hhung
  show past ++ s.outbuf.take n ++ s.outbuf.drop n = _
  rw [List.append_assoc, List.take_append_drop, h.bytes]

/-- A response to a request that is taken off its list, before or after. -/
theorem Serving.answer (h : Serving s past) {t : Conn} (r : Response)
    (ht : t = { s.appendResponse env r with emails := t.emails, tasks := t.tasks })
    (hids : (s.emails.map (·.requestId) ++ s.tasks.map (·.requestId)).Perm
      (r.requestId :: (t.emails.map (·.requestId) ++ t.tasks.map (·.requestId)))) :
    Serving t past := by
  have hne : t.outbuf ≠ [] := by
    rw [ht]
    exact Conn.appendResponse_outbuf_ne_nil env r
  have hresponses : t.responses = s.responses ++ [r] := by rw [ht]; rfl
  have houtbuf : t.outbuf = s.outbuf ++ r.bytes := by
    rw [ht]
    exact Conn.appendResponse_outbuf env r
  refine ⟨?_, ?_, ?_, ?_, ?_, ?_, ?_, fun _ => outstanding_of_outbuf hne⟩
  · rw [ht]; exact h.removed
  · rw [ht]; exact h.writeFinished
  · rw [ht]; exact h.lost
  · rw [ht]; exact h.inbuf
  · have hdispatched : t.dispatched = s.dispatched := by rw [ht]; rfl
    rw [hdispatched]
    refine List.Perm.trans ?_ h.answered
    unfold Conn.answerIds
    rw [hresponses, List.map_append, List.append_assoc]
    exact hids.symm.append_left _
  · rw [houtbuf, hresponses, ← List.append_assoc, h.bytes, List.flatMap_append,
      List.flatMap_singleton]
  · rw [ht]; exact h.reading

theorem perm_eraseIdx {α : Type} {l : List α} {i : Nat} {a : α} (h : l[i]? = some a)
    (f : α → Nat) : (l.map f).Perm (f a :: (l.eraseIdx i).map f) := by
  obtain ⟨hi, rfl⟩ := List.getElem?_eq_some_iff.mp h
  exact ((List.getElem_cons_eraseIdx_perm hi).map f).symm

-- A connection that is removed, or stays in its loop, does nothing any more.
theorem open_of_step {e : Event} (hstep : step env s e = some s') :
    s.removed = false ∧ s.hung = false := by
  cases hremoved : s.removed with
  | true => cases e <;> simp [step, hremoved] at hstep
  | false =>
    cases hhung : s.hung with
    | true => cases e <;> simp [step, hhung] at hstep
    | false => exact ⟨rfl, rfl⟩

/-- The response keeps the connection, and so the email is still there when it is removed. -/
theorem Serving.step_email (env : Env) (h : Serving s past) (hhung : s.hung = false) {i : Nat}
    {email : Email} (hemail : s.emails[i]? = some email) (status : Status) (data : List UInt8) :
    ∃ t, step env s (.email i (some (status, data))) = some t ∧ Serving t past ∧ t.hung = false ∧
      t.readFinished = s.readFinished ∧ t.emails = s.emails.eraseIdx i ∧ t.tasks = s.tasks := by
  let r : Response := { requestId := email.requestId, status, data }
  let t : Conn := { s.appendResponse env r with emails := s.emails.eraseIdx i }
  have hstep : step env s (.email i (some (status, data))) = some t := by
    simp [step, h.removed, hhung, hemail, Conn.sendResponse_eq env h.writeFinished]
    rfl
  have hserving : Serving t past :=
    h.answer r rfl ((perm_eraseIdx hemail (·.requestId)).append_right _)
  exact ⟨t, hstep, hserving, hhung, rfl, rfl, rfl⟩

theorem Serving.step_key (env : Env) (h : Serving s past) (hhung : s.hung = false) {i : Nat}
    {task : Task} (htask : s.tasks[i]? = some task) (version stream : Nat) (ripe : List UInt8)
    (address : CString) :
    ∃ t, step env s (.key i version stream ripe address) = some t ∧ Serving t past ∧
      t.hung = false ∧ t.readFinished = s.readFinished ∧ t.emails = s.emails ∧
      t.tasks = s.tasks.eraseIdx i := by
  let r : Response :=
    { requestId := task.requestId, status := .success, data := keyData version stream ripe address }
  let t : Conn := { s with tasks := s.tasks.eraseIdx i }.appendResponse env r
  have hcan : (s.removed || s.hung) = false := by rw [h.removed, hhung]; rfl
  have hsend := Conn.sendResponse_eq env (s := { s with tasks := s.tasks.eraseIdx i })
    h.writeFinished task.requestId .success (keyData version stream ripe address)
  have hstep : step env s (.key i version stream ripe address) = some t := by
    unfold step
    dsimp only
    rw [hcan, htask, Option.bind_eq_bind, Option.bind_some, hsend]
    rfl
  have hserving : Serving t past := h.answer r rfl
    (((perm_eraseIdx htask (·.requestId)).append_left _).trans List.perm_middle)
  exact ⟨t, hstep, hserving, hhung, rfl, rfl, rfl⟩

theorem Phase.step (h : Phase s past) {e : Event} (hstep : step env s e = some s') :
    Phase s' (past ++ written s e) := by
  obtain ⟨hopen, hhung⟩ := open_of_step hstep
  have hserving : Serving s past := by
    cases h with
    | serving h => exact h
    | finished h => rw [h.removed] at hopen; cases hopen
    | refused h => rw [h.removed] at hopen; cases hopen
  cases e with
  | read piece fds =>
    unfold Ipc.step at hstep
    dsimp only at hstep
    split_ifs at hstep with hcan
    simp only [Bool.or_eq_true, not_or, Bool.not_eq_true] at hcan
    cases hstep
    rw [show written s (.read piece fds) = [] from rfl, List.append_nil]
    exact hserving.handleRead env hcan.2 hhung piece fds
  | write n =>
    unfold Ipc.step at hstep
    dsimp only at hstep
    split_ifs at hstep
    cases hstep
    exact hserving.write hhung n
  | email i answer =>
    rw [show written s (.email i answer) = [] from rfl, List.append_nil]
    cases hemail : s.emails[i]? with
    | none => simp [Ipc.step, hemail] at hstep
    | some email =>
      cases answer with
      | none =>
        have hsame : s' = s := by simpa [Ipc.step, hopen, hhung, hemail] using hstep.symm
        rw [hsame]
        exact .serving hserving
      | some answer =>
        obtain ⟨t, ht, hserves, -⟩ := hserving.step_email env hhung hemail answer.1 answer.2
        rw [ht] at hstep
        cases hstep
        exact .serving hserves
  | key i version stream ripe address =>
    rw [show written s (.key i version stream ripe address) = [] from rfl, List.append_nil]
    cases htask : s.tasks[i]? with
    | none => simp [Ipc.step, htask] at hstep
    | some task =>
      obtain ⟨t, ht, hserves, -⟩ := hserving.step_key env hhung htask version stream ripe address
      rw [ht] at hstep
      cases hstep
      exact .serving hserves

/-! ## 4. Every connection comes to its end -/

-- The last write closes a connection.
theorem Serving.last_write (env : Env) (h : Serving s past) (hhung : s.hung = false)
    (hread : s.readFinished = true) (hemails : s.emails = []) (htasks : s.tasks = []) :
    ∃ s', step env s (.write s.outbuf.length) = some s' ∧ s'.removed = true := by
  have hne : s.outbuf ≠ [] := by
    have hout := h.waits hread
    simpa [Conn.outstanding, hemails, htasks] using hout
  have hlen : s.outbuf.length ≠ 0 := fun hzero => hne (List.length_eq_zero_iff.mp hzero)
  refine ⟨_, by simp [step, h.removed, hhung, hlen]; rfl, ?_⟩
  simp [Conn.updatePoll, Conn.outstanding, h.writeFinished, hread, hemails, htasks,
    Conn.removeConnection]

/-- Each email and each task can be answered, and then the output written; none of it takes the
client. -/
theorem Serving.finishes (env : Env) (h : Serving s past) (hhung : s.hung = false)
    (hread : s.readFinished = true) :
    ∃ more : List Event, (∀ piece fds, .read piece fds ∉ more) ∧
      (run (step env) s more).removed = true := by
  -- induction on the number of emails and tasks
  generalize hn : s.emails.length + s.tasks.length = n
  induction n generalizing s with
  | zero =>
    have hemails : s.emails = [] := List.length_eq_zero_iff.mp (by omega)
    have htasks : s.tasks = [] := List.length_eq_zero_iff.mp (by omega)
    obtain ⟨s', hstep, hremoved⟩ := h.last_write env hhung hread hemails htasks
    refine ⟨[.write s.outbuf.length], by simp, ?_⟩
    rw [run_cons, run_nil, next_of_some hstep]
    exact hremoved
  | succ n ih =>
    cases hemails : s.emails with
    | cons email emails =>
      have hemail : s.emails[0]? = some email := by rw [hemails]; rfl
      obtain ⟨t, hstep, hserving, hrest⟩ := h.step_email env hhung hemail .success []
      obtain ⟨hhung', hread', hemails', htasks'⟩ := hrest
      obtain ⟨more, hmore, hremoved⟩ := ih hserving hhung' (hread'.trans hread) (by
        rw [hemails', htasks', hemails, List.eraseIdx_cons_zero]
        rw [hemails, List.length_cons] at hn
        omega)
      refine ⟨.email 0 (some (.success, [])) :: more, by simpa using hmore, ?_⟩
      rw [run_cons, next_of_some hstep]
      exact hremoved
    | nil =>
      cases htasks : s.tasks with
      | nil => simp [hemails, htasks] at hn
      | cons task tasks =>
        have htask : s.tasks[0]? = some task := by rw [htasks]; rfl
        let address : CString := ⟨[], nonzero_of_all rfl⟩
        obtain ⟨t, hstep, hserving, hrest⟩ := h.step_key env hhung htask 4 1 [] address
        obtain ⟨hhung', hread', hemails', htasks'⟩ := hrest
        obtain ⟨more, hmore, hremoved⟩ := ih hserving hhung' (hread'.trans hread) (by
          rw [hemails', htasks', htasks, List.eraseIdx_cons_zero]
          rw [htasks, List.length_cons] at hn
          omega)
        refine ⟨.key 0 4 1 [] address :: more, by simpa using hmore, ?_⟩
        rw [run_cons, next_of_some hstep]
        exact hremoved

/-! ## 5. Whole runs -/

theorem serving_init : Serving {} [] where
  removed := rfl
  writeFinished := rfl
  lost := rfl
  inbuf := rfl
  answered := List.Perm.refl _
  bytes := rfl
  reading h := nomatch h
  waits h := nomatch h

theorem phase_run (env : Env) (events : List Event) :
    Phase (run (step env) {} events) (emitted (step env) written {} events) :=
  invariant_emitted (P := Phase) (fun _ _ _ _ h hstep => h.step hstep) (.serving serving_init) events

/-- A connection that is shut down or removed has come to the end of its input, has answered every
request and has written every byte of its responses. -/
def Complete (s : Conn) (past : List UInt8) : Prop :=
  s.readFinished = true ∧
    (s.responses.map (·.requestId)).Perm (s.dispatched.map (·.requestId)) ∧
    past = s.responses.flatMap Response.bytes

/-- Something is left to do for a connection whose client has ended its input, and when it is done
the connection is removed, without anything more from the client. -/
structure Pending (env : Env) (s : Conn) : Prop where
  outstanding : s.outstanding = true
  ends : ∃ more : List Event, (∀ piece fds, .read piece fds ∉ more) ∧
    (run (step env) s more).removed = true

/-- A connection is shut down and removed when it is complete, or it is removed because a name was
refused; and while it is there after the end of the input, it waits for something. -/
theorem life_cycle (env : Env) (events : List Event) :
    let s := run (step env) {} events
    let past := emitted (step env) written {} events
    (s.writeFinished = true → Complete s past) ∧
      (s.removed = true → Complete s past ∨ s.readFinished = false ∧ MeetsInvalid s.received) ∧
      (s.readFinished = true → s.removed = false → Pending env s) := by
  intro s past
  cases phase_run env events with
  | serving h =>
    refine ⟨fun hwrite => ?_, fun hremoved => ?_, fun hread _ => ?_⟩
    · rw [h.writeFinished] at hwrite
      cases hwrite
    · rw [h.removed] at hremoved
      cases hremoved
    · have hhung : s.hung = false := by
        by_contra hhung
        rw [h.reading (by simpa using hhung)] at hread
        cases hread
      exact ⟨h.waits hread, h.finishes env hhung hread⟩
  | finished h =>
    have hcomplete : Complete s past := ⟨h.readFinished, h.answered, h.bytes⟩
    refine ⟨fun _ => hcomplete, fun _ => Or.inl hcomplete, fun _ hopen => ?_⟩
    rw [h.removed] at hopen
    cases hopen
  | refused h =>
    refine ⟨fun hwrite => ?_, fun _ => Or.inr ⟨h.readFinished, h.invalid⟩, fun _ hopen => ?_⟩
    · rw [h.writeFinished] at hwrite
      cases hwrite
    · rw [h.removed] at hopen
      cases hopen

/-- An email, and behind it a command whose name has no terminator. -/
def emailThenBadName : List Event :=
  [.read (frame (ascii "email") 7 [] ++ frame (ascii "twelve bytes") 8 []) [5]]

-- The connection is removed while the email is still read, with the client's input not at its end.
theorem emailThenBadName_not_complete :
    let env : Env := { behind := fun _ _ => 0, fill := fun _ _ => 0, nonblockError := fun _ => none }
    let s := run (step env) {} emailThenBadName
    s.removed = true ∧ s.readFinished = false ∧ s.dispatched.map (·.requestId) = [7] ∧
      s.responses = [] ∧
      ¬ (s.removed = true → Complete s (emitted (step env) written {} emailThenBadName)) := by
  intro env s
  have hremoved : s.removed = true := by decide +kernel
  have hread : s.readFinished = false := by decide +kernel
  refine ⟨hremoved, hread, by decide +kernel, by decide +kernel, fun hall => ?_⟩
  rw [(hall hremoved).1] at hread
  cases hread

end Notbit.Ipc
