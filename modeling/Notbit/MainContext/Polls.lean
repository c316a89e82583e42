import Notbit.Lib.Runs

/-!
# Polls — the file descriptors of the main loop (`ntb-main-context.c`)

The results of one call of `poll` are matched with the registered sources by the number of the
descriptor, one after the other, and each callback may register and remove sources.  A result finds
the source it belongs to exactly as long as the callbacks before it have left that source alone and
have not used its number again.
-/

open Runs

namespace Notbit.MainContext

/-! ## 1. The sources -/

/-- `enum ntb_main_context_poll_flags` -/
structure PollFlags where
  input : Bool := false
  output : Bool := false
  error : Bool := false
  deriving DecidableEq, Repr

/-- A poll source.  Its number is that of the call that registered it, so that a source whose memory
is used again is not taken for the one before. -/
structure PollSource where
  id : Nat
  fd : Int
  currentFlags : PollFlags
  deriving DecidableEq, Repr

/-- What is asked for in a `struct pollfd`. -/
structure Pollfd where
  fd : Int
  pollIn : Bool
  pollOut : Bool
  deriving DecidableEq, Repr

/-- What is reported in a `struct pollfd`. -/
structure Revents where
  pollIn : Bool := false
  pollOut : Bool := false
  pollHup : Bool := false
  pollErr : Bool := false
  pollNval : Bool := false
  deriving DecidableEq, Repr

/-- `revents == 0` -/
def Revents.none : Revents := {}

/-- The entry of a source in the array; its events are those of `get_poll_events`. -/
def PollSource.toPollfd (source : PollSource) : Pollfd where
  fd := source.fd
  pollIn := source.currentFlags.input
  pollOut := source.currentFlags.output

/-- The poll sources of the main context, the last one first, and the array made of them.  An array
that is not marked as dirty is that of the sources. -/
structure Polls where
  sources : List PollSource := []
  pollArray : List Pollfd := []
  dirty : Bool := true
  nextId : Nat := 0
  fresh : dirty = false → pollArray = sources.map PollSource.toPollfd := by simp
  numbered : ∀ source ∈ sources, source.id < nextId := by simp
  sorted : sources.Pairwise (fun newer older => older.id < newer.id) := by simp

/-- What a callback can do to the poll sources. -/
inductive PollOp where
  | add (fd : Int) (flags : PollFlags)
  | modify (id : Nat) (flags : PollFlags)
  | remove (id : Nat)
  deriving DecidableEq, Repr

namespace Polls

/-- `ntb_main_context_add_poll` -/
def addPoll (mc : Polls) (fd : Int) (flags : PollFlags) : Polls where
  sources := { id := mc.nextId, fd, currentFlags := flags } :: mc.sources
  pollArray := mc.pollArray
  dirty := true
  nextId := mc.nextId + 1
  fresh := nofun
  numbered := by
    rintro source (_ | ⟨_, hsource⟩)
    · exact Nat.lt_succ_self _
    · exact Nat.lt_succ_of_lt (mc.numbered source hsource)
  sorted := List.pairwise_cons.mpr ⟨mc.numbered, mc.sorted⟩

/-- A source with other flags, when it is the one that is meant. -/
def setFlags (id : Nat) (flags : PollFlags) (source : PollSource) : PollSource :=
  if source.id = id then { source with currentFlags := flags } else source

@[simp] theorem setFlags_id (id : Nat) (flags : PollFlags) (source : PollSource) :
    (setFlags id flags source).id = source.id := by
  unfold setFlags
  split <;> rfl

/-- `ntb_main_context_modify_poll`; the array stays clean when nothing changes. -/
def modifyPoll (mc : Polls) (id : Nat) (flags : PollFlags) : Polls :=
  if ∀ source ∈ mc.sources, source.id = id → source.currentFlags = flags then mc
  else
    { sources := mc.sources.map (setFlags id flags)
      pollArray := mc.pollArray
      dirty := true
      nextId := mc.nextId
      fresh := nofun
      numbered := by
        intro source hsource
        obtain ⟨old, hold, rfl⟩ := List.mem_map.mp hsource
        rw [setFlags_id]
        exact mc.numbered old hold
      sorted := by simpa only [List.pairwise_map, setFlags_id] using mc.sorted }

/-- `ntb_main_context_remove_source` -/
def removeSource (mc : Polls) (id : Nat) : Polls where
  sources := mc.sources.filter (·.id ≠ id)
  pollArray := mc.pollArray
  dirty := true
  nextId := mc.nextId
  fresh := nofun
  numbered source hsource := mc.numbered source (List.mem_filter.mp hsource).1
  sorted := mc.sorted.filter _

def perform (mc : Polls) : PollOp → Polls
  | .add fd flags => mc.addPoll fd flags
  | .modify id flags => mc.modifyPoll id flags
  | .remove id => mc.removeSource id

/-- `ensure_poll_array` -/
def ensurePollArray (mc : Polls) : Polls where
  sources := mc.sources
  pollArray := if mc.dirty then mc.sources.map PollSource.toPollfd else mc.pollArray
  dirty := false
  nextId := mc.nextId
  fresh := by
    intro
    cases hdirty : mc.dirty with
    | true => rfl
    | false => exact mc.fresh hdirty
  numbered := mc.numbered
  sorted := mc.sorted

/-- `get_source_for_fd`; there is no result where the code ends the program. -/
def getSourceForFd (mc : Polls) (fd : Int) : Option PollSource := mc.sources.find? (·.fd = fd)

end Polls

/-! ## 2. One pass -/

/-- The flags a callback is given.  A hangup is reported as input to a source that polls for it. -/
def callbackFlags (source : PollSource) (revents : Revents) : PollFlags where
  input := revents.pollIn || revents.pollHup && source.currentFlags.input
  output := revents.pollOut
  error := revents.pollHup && !source.currentFlags.input || revents.pollErr

/-- A call of a callback, with the sources that were registered then. -/
structure PollCall where
  source : PollSource
  flags : PollFlags
  registered : List PollSource

/-- A pass over the results: those that are left, the calls that were made, and whether the program
was ended. -/
structure PollPass where
  polls : Polls
  left : List (Pollfd × Revents)
  calls : List PollCall := []
  fatal : Bool := false

/-- The start of the loop of `ntb_main_context_poll`, with what `poll` reports for each entry of the
array. -/
def pollPass (mc : Polls) (revents : Nat → Revents) : PollPass where
  polls := mc.ensurePollArray
  left := mc.ensurePollArray.pollArray.mapIdx fun i pollfd => (pollfd, revents i)

/-- `handle_poll_result` for the next result; `effect` is what the callback does to the sources. -/
def handlePollResult (p : PollPass) (effect : List PollOp) : Option PollPass :=
  if p.fatal then none
  else
    match p.left with
    | [] => none
    | (pollfd, revents) :: left =>
      if revents = .none then some { p with left }
      else
        match p.polls.getSourceForFd pollfd.fd with
        | none => some { p with left, fatal := true }
        | some source =>
          some
            { polls := effect.foldl Polls.perform p.polls
              left
              calls := p.calls ++ [{ source, flags := callbackFlags source revents
                                     registered := p.polls.sources }]
              fatal := false }

/-! ## 3. When the results find their sources -/

/-- The source with this number was polled and reported ready. -/
def WasReady (mc : Polls) (revents : Nat → Revents) (id : Nat) : Prop :=
  ∃ i source, mc.sources[i]? = some source ∧ source.id = id ∧ revents i ≠ .none

/-- The program has not ended, and each callback was called for a source that was polled, was ready
and was still registered. -/
structure Proper (mc : Polls) (revents : Nat → Revents) (p : PollPass) : Prop where
  running : p.fatal = false
  calls : ∀ call ∈ p.calls, WasReady mc revents call.source.id ∧ call.source ∈ call.registered

/-- The source of a result is still there: it was polled and ready, and no source that was registered
later has its number. -/
structure Undisturbed (mc : Polls) (revents : Nat → Revents) (sources : List PollSource)
    (number : Int) (source : PollSource) : Prop where
  ready : WasReady mc revents source.id
  registered : source ∈ sources
  fd : source.fd = number
  newest : ∀ other ∈ sources, other.fd = number → other.id ≤ source.id

/-- The next result is not ready or undisturbed. -/
def NextUndisturbed (mc : Polls) (revents : Nat → Revents) (p : PollPass) : Prop :=
  ∀ result ∈ p.left.head?, result.2 ≠ .none →
    ∃ source, Undisturbed mc revents p.polls.sources result.1.fd source

variable {mc : Polls} {revents : Nat → Revents} {p p' : PollPass} {effect : List PollOp}

/-- The list has the newest sources in front. -/
theorem getSourceForFd_eq_some_iff {mc : Polls} {fd : Int} {source : PollSource} :
    mc.getSourceForFd fd = some source ↔ source ∈ mc.sources ∧ source.fd = fd ∧
      ∀ other ∈ mc.sources, other.fd = fd → other.id ≤ source.id := by
  unfold Polls.getSourceForFd
  constructor
  · intro hfind
    obtain ⟨hfd, newer, older, hsources, hnewer⟩ := List.find?_eq_some_iff_append.mp hfind
    have hsorted := mc.sorted
    rw [hsources, List.pairwise_append, List.pairwise_cons] at hsorted
    refine ⟨List.mem_of_find?_eq_some hfind, by simpa using hfd, fun other hother hsame => ?_⟩
    rw [hsources] at hother
    rcases List.mem_append.mp hother with hmem | hmem
    · exact absurd hsame (by simpa using hnewer other hmem)
    · rcases List.mem_cons.mp hmem with rfl | hmem
      · exact le_rfl
      · exact (hsorted.2.1.1 other hmem).le
  · rintro ⟨hmem, hfd, hnewest⟩
    have hsome : (mc.sources.find? (·.fd = fd)).isSome :=
      List.find?_isSome.mpr ⟨source, hmem, by simpa using hfd⟩
    obtain ⟨first, hfirst⟩ := Option.isSome_iff_exists.mp hsome
    obtain ⟨hfd', newer, older, hsources, hnewer⟩ := List.find?_eq_some_iff_append.mp hfirst
    have hsorted := mc.sorted
    rw [hsources, List.pairwise_append, List.pairwise_cons] at hsorted
    have hle := hnewest first (List.mem_of_find?_eq_some hfirst) (by simpa using hfd')
    rw [hsources] at hmem
    rw [hfirst]
    rcases List.mem_append.mp hmem with hfront | hrest
    · exact absurd hfd (by simpa using hnewer source hfront)
    · rcases List.mem_cons.mp hrest with rfl | hback
      · rfl
      · exact absurd (hsorted.2.1.1 source hback) (by omega)

theorem Proper.step (h : Proper mc revents p) (hok : NextUndisturbed mc revents p)
    (hstep : handlePollResult p effect = some p') : Proper mc revents p' := by
  unfold handlePollResult at hstep
  rw [if_neg (by rw [h.running]; exact Bool.false_ne_true)] at hstep
  cases hleft : p.left with
  | nil =>
    rw [hleft] at hstep
    cases hstep
  | cons result left =>
    rw [hleft] at hstep
    dsimp only at hstep
    split at hstep
    · cases hstep
      exact ⟨h.running, h.calls⟩
    · next hready =>
      obtain ⟨source, hsource⟩ := hok result (by rw [hleft]; rfl) hready
      have hfind := getSourceForFd_eq_some_iff.mpr ⟨hsource.registered, hsource.fd, hsource.newest⟩
      rw [hfind] at hstep
      cases hstep
      refine ⟨rfl, fun call hcall => ?_⟩
      rcases List.mem_append.mp hcall with hold | hnew
      · exact h.calls call hold
      · rw [List.mem_singleton.mp hnew]
        exact ⟨hsource.ready, hsource.registered⟩

theorem Proper.step_breaks (h : Proper mc revents p) (hbad : ¬ NextUndisturbed mc revents p)
    (hstep : handlePollResult p effect = some p') : ¬ Proper mc revents p' := by
  unfold handlePollResult at hstep
  rw [if_neg (by rw [h.running]; exact Bool.false_ne_true)] at hstep
  cases hleft : p.left with
  | nil =>
    rw [hleft] at hstep
    cases hstep
  | cons result left =>
    have hhead : p.left.head? = some result := by rw [hleft]; rfl
    rw [hleft] at hstep
    dsimp only at hstep
    split at hstep
    · next hidle =>
      refine absurd (fun result' hresult' hready => ?_) hbad
      rw [hhead] at hresult'
      cases hresult'
      exact absurd hidle hready
    · cases hfind : p.polls.getSourceForFd result.1.fd with
      | none =>
        rw [hfind] at hstep
        cases hstep
        exact fun hproper => Bool.noConfusion hproper.running
      | some source =>
        rw [hfind] at hstep
        cases hstep
        intro hproper
        obtain ⟨hmem, hfd, hnewest⟩ := getSourceForFd_eq_some_iff.mp hfind
        have hwas := (hproper.calls _ (List.mem_append_right _ List.mem_cons_self)).1
        apply hbad
        intro result' hresult' _
        rw [hhead] at hresult'
        cases hresult'
        exact ⟨source, hwas, hmem, hfd, hnewest⟩

/-- A pass is proper to its end exactly if each result is undisturbed when its turn comes. -/
theorem poll_proper_iff (mc : Polls) (revents : Nat → Revents) (effects : List (List PollOp)) :
    (∀ pre, pre <+: effects →
        Proper mc revents (run handlePollResult (pollPass mc revents) pre)) ↔
      Along handlePollResult (fun p _ => NextUndisturbed mc revents p) (pollPass mc revents) effects :=
  always_iff_along (fun _ h => h) (fun _ _ _ h hok hstep => h.step hok hstep)
    (fun _ _ _ h hbad hstep => h.step_breaks hbad hstep) ⟨rfl, nofun⟩ effects

/-- Two sockets that are listened to. -/
def twoListenSockets : Polls :=
  [PollOp.add 5 { input := true }, PollOp.add 6 { input := true }].foldl Polls.perform {}

/-- The first callback accepts one peer too many: the connection is registered, and the sources of
both listen sockets are removed. -/
def acceptLast : List PollOp := [.add 9 { input := true }, .remove 0, .remove 1]

-- The result of the other socket finds no source.
theorem twoListenSockets_not_proper :
    let revents : Nat → Revents := fun _ => { pollIn := true }
    (run handlePollResult (pollPass twoListenSockets revents) [acceptLast, []]).fatal = true ∧
      ¬ ∀ pre, pre <+: [acceptLast, []] →
        Proper twoListenSockets revents
          (run handlePollResult (pollPass twoListenSockets revents) pre) := by
  intro revents
  have hfatal : (run handlePollResult (pollPass twoListenSockets revents)
      [acceptLast, []]).fatal = true := by
    decide +kernel
  refine ⟨hfatal, fun hall => ?_⟩
  have hrunning := (hall _ List.prefix_rfl).running
  rw [hfatal] at hrunning
  cases hrunning

end Notbit.MainContext
