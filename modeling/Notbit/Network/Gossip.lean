import Notbit.Network.Requests

/-!
# Gossip — networks that pass their objects on to each other (`ntb-network.c`)

Any number of networks that run this program, each with the files of its store, and the connections
between them.  What a network sends to a peer waits in a queue until the network at the other end
gets it: the hashes of inv and getdata commands in the order in which they were sent and in commands
of any size, the objects in any order, since they are sent when the connection has loaded them.
Everything else can happen at any time, also with peers from outside.  Who is asked for an object
that was announced to it and has not come yet sends what it finds at a pointer that nobody has
written.
-/

open Notbit.Proto Runs Relation

namespace Notbit.Network

/-! ## 1. The model -/

/-- The content of the files of the objects. -/
abbrev Disk := Hash → Option Blob

def FileTask.apply (disk : Disk) : FileTask → Disk
  | .save hash blob => Function.update disk hash (some blob)
  | .delete hash => Function.update disk hash none

/-- The files a load finds: the store thread does what it is asked to do in order. -/
def State.disk (nw : State) (start : Disk) : Disk := nw.fileTasks.foldl FileTask.apply start

/-- A hash in a command on its way. -/
inductive Notice where
  | inv (hash : Hash)
  | getdata (hash : Hash)
  deriving DecidableEq, Repr

def Notice.hash : Notice → Hash
  | .inv hash | .getdata hash => hash

def Notice.isInv : Notice → Bool
  | .inv _ => true
  | .getdata _ => false

/-- The hashes an effect sends to a peer. -/
def Effect.notices (p : Nat) : Effect → List Notice
  | .sendInv peer hashes => if peer = p then hashes.map .inv else []
  | .sendGetdata peer hashes => if peer = p then hashes.map .getdata else []
  | _ => []

/-- What the pointer to a blob is taken for that was not written since the inventory was allocated:
nothing, or some bytes. -/
abbrev Stray := Hash → Option Blob

/-- What is sent for an inventory: its blob, from memory or from the store.  Only `add_object` and
the store write the pointer, so in any other inventory it is a stray one. -/
def Inventory.content (disk : Disk) (stray : Stray) (inv : Inventory) : Option Blob :=
  if inv.state = .accepted then
    match inv.blob with
    | some (some blob) => some blob
    | some none => disk inv.hash
    | none => stray inv.hash
  else stray inv.hash

/-- The objects that a network sends to a peer when something happens. -/
def State.sentBlobs (nw : State) (disk : Disk) (stray : Stray) (p : Nat) : Event → List Blob
  | .getdata peer hashes =>
    if peer = p then (nw.getdataInventories hashes).filterMap (·.content disk stray) else []
  | _ => []

/-- A file has the object in it that its name promises. -/
def Genuine (ssl : OpenSSL) (hash : Hash) (blob : Blob) : Prop :=
  doubleHash ssl blob.data = hash ∧ (objectTimestamp blob.data).isSome

/-- The networks `ι` and the connections between them. -/
structure Mesh (ι : Type) where
  /-- The files each network starts with. -/
  start : ι → Disk
  node : ι → State
  /-- The other end of the connection that a peer stands for, if it is one of these networks. -/
  wire : ι → Nat → Option (ι × Nat) := fun _ _ => none
  /-- The connections that were made and not accepted yet. -/
  dials : List (ι × Nat) := []
  /-- What a network has sent to a peer and what has not arrived. -/
  notices : ι → Nat → List Notice := fun _ _ => []
  blobs : ι → Nat → List Blob := fun _ _ => []

/-- What can happen to the networks.  A delivery names the network that gets it and its peer; that of
a getdata also says what the stray pointers are that are found. -/
inductive MeshEvent (ι : Type) where
  | dial (i : ι) (monotonic rand : Nat)
  | accept (i : ι) (socket k : Nat)
  | inv (i : ι) (p monotonic n : Nat)
  | getdata (i : ι) (p n : Nat) (stray : Stray)
  | object (i : ι) (p k : Nat) (now : Int)
  | own (i : ι) (e : Event)

/-- A peer from outside gets strays too, but what it does with them is up to it. -/
def MeshEvent.stray {ι : Type} : MeshEvent ι → Stray
  | .getdata _ _ _ stray => stray
  | _ => fun _ => none

namespace Mesh

variable {ι : Type} [DecidableEq ι]

def disk (s : Mesh ι) (i : ι) : Disk := (s.node i).disk (s.start i)

/-- A peer is at the other end of a connection to one of the networks. -/
def inside (s : Mesh ι) (i : ι) (p : Nat) : Bool :=
  (s.wire i p).isSome || (s.dials.contains (i, p))

/-- What a network can do on its own.  Requests and objects come from the networks through the
queues; the store hands over the files that are there. -/
def allows (s : Mesh ι) (i : ι) : Event → Bool
  | .inv p _ _ | .getdata p _ | .object p _ _ => !s.inside i p
  | .loadBlob type hash timestamp => (s.disk i hash).any fun blob =>
    blob.type = type ∧ objectTimestamp blob.data = some timestamp
  | _ => true

/-- The network an event is about and what happens to it. -/
def event (s : Mesh ι) : MeshEvent ι → Option (ι × Event)
  | .dial i monotonic rand => some (i, .connectQueue monotonic rand true)
  | .accept i socket k => s.dials[k]?.map fun _ => (i, .accept socket)
  | .inv i p monotonic n => do
    let (j, q) ← s.wire i p
    let chunk := (s.notices j q).take n
    if chunk.all (·.isInv) then some (i, .inv p monotonic (chunk.map (·.hash))) else none
  | .getdata i p n _ => do
    let (j, q) ← s.wire i p
    let chunk := (s.notices j q).take n
    if chunk.all (!·.isInv) then some (i, .getdata p (chunk.map (·.hash))) else none
  | .object i p k now => do
    let (j, q) ← s.wire i p
    let blob ← (s.blobs j q)[k]?
    some (i, .object p now blob)
  | .own i e => if s.allows i e then some (i, e) else none

/-- What is delivered is taken out of its queue. -/
def take (s : Mesh ι) : MeshEvent ι → Mesh ι
  | .inv i p _ n | .getdata i p n _ => match s.wire i p with
    | some (j, q) => { s with
        notices := fun a b =>
          if (a, b) = (j, q) then (s.notices j q).drop n else s.notices a b }
    | none => s
  | .object i p k _ => match s.wire i p with
    | some (j, q) => { s with
        blobs := fun a b => if (a, b) = (j, q) then (s.blobs j q).eraseIdx k else s.blobs a b }
    | none => s
  | .dial .. | .accept .. | .own .. => s

/-- One network does something, and what it sends goes into the queues. -/
def act (ssl : OpenSSL) (s : Mesh ι) (i : ι) (e : Event) (stray : Stray) : Option (Mesh ι) := do
  let nw ← Network.step ssl (s.node i) e
  let effects := nw.log.drop (s.node i).log.length
  return { s with
    node := Function.update s.node i nw
    notices := Function.update s.notices i fun p =>
      s.notices i p ++ effects.flatMap (Effect.notices p)
    blobs := Function.update s.blobs i fun p =>
      s.blobs i p ++ (s.node i).sentBlobs (s.disk i) stray p e }

/-- A connection that was made waits to be accepted, and is then a connection at both ends. -/
def join (s s' : Mesh ι) : MeshEvent ι → Option (Mesh ι)
  | .dial i _ _ =>
    let p := (s.node i).nextPeer
    if (s'.node i).nextPeer = p + 1 then some { s' with dials := (i, p) :: s'.dials } else none
  | .accept i _ k => do
    let (j, q) ← s.dials[k]?
    let p := (s.node i).nextPeer
    some { s' with
      dials := s'.dials.eraseIdx k
      wire := fun a b => if (a, b) = (i, p) then some (j, q)
        else if (a, b) = (j, q) then some (i, p) else s'.wire a b }
  | .inv .. | .getdata .. | .object .. | .own .. => some s'

def step (ssl : OpenSSL) (s : Mesh ι) (e : MeshEvent ι) : Option (Mesh ι) := do
  let (i, ev) ← s.event e
  let s' ← (s.take e).act ssl i ev e.stray
  s.join s' e

/-- The networks when they are started. -/
def new (start : ι → Disk) (nonce : ι → Nat) (defaultAddrs : ι → List Netaddress) : Mesh ι where
  start := start
  node i := .new (nonce i) (defaultAddrs i)

/-! ## 2. Steps -/

/-- What becomes of the connections in a step. -/
inductive Joined (s : Mesh ι) (e : MeshEvent ι) (i : ι) (ev : Event) (s' : Mesh ι) : Prop
  | same (hwire : s'.wire = s.wire) (hdials : s'.dials = s.dials)
  | dialed (hev : ∃ monotonic rand, ev = .connectQueue monotonic rand true)
    (hborn : (s'.node i).nextPeer = (s.node i).nextPeer + 1) (hwire : s'.wire = s.wire)
    (hdials : s'.dials = (i, (s.node i).nextPeer) :: s.dials)
  | accepted (socket k : Nat) (j : ι) (q : Nat) (he : e = .accept i socket k)
    (hborn : (s'.node i).nextPeer = (s.node i).nextPeer + 1) (hdial : s.dials[k]? = some (j, q))
    (hdials : s'.dials = s.dials.eraseIdx k)
    (hwire : s'.wire = fun a b => if (a, b) = (i, (s.node i).nextPeer) then some (j, q)
      else if (a, b) = (j, q) then some (i, (s.node i).nextPeer) else s.wire a b)

/-- A step: a network does something, and what it sends goes into the queues. -/
structure Acts (ssl : OpenSSL) (s : Mesh ι) (e : MeshEvent ι) (i : ι) (ev : Event)
    (effects : List Effect) (s' : Mesh ι) : Prop where
  event : s.event e = some (i, ev)
  step : Network.step ssl (s.node i) ev = some (s'.node i)
  log : (s'.node i).log = (s.node i).log ++ effects
  others : ∀ j, j ≠ i → s'.node j = s.node j
  start : s'.start = s.start
  notices : ∀ j p, s'.notices j p =
    (s.take e).notices j p ++ if j = i then effects.flatMap (Effect.notices p) else []
  blobs : ∀ j p, s'.blobs j p =
    (s.take e).blobs j p ++ if j = i then (s.node i).sentBlobs (s.disk i) e.stray p ev else []
  joined : Joined s e i ev s'

variable {ssl : OpenSSL} {s s' : Mesh ι} {e : MeshEvent ι} {i : ι} {ev : Event}

/-- What happens to a network: something of its own, or what another one has sent. -/
inductive Happens (s : Mesh ι) (e : MeshEvent ι) (i : ι) : Event → Prop
  | dial (monotonic rand : Nat) (he : e = .dial i monotonic rand) :
    Happens s e i (.connectQueue monotonic rand true)
  | accept (socket k : Nat) (he : e = .accept i socket k) : Happens s e i (.accept socket)
  | inv (p monotonic n : Nat) (j : ι) (q : Nat) (he : e = .inv i p monotonic n)
    (hwire : s.wire i p = some (j, q)) (hall : ∀ x ∈ (s.notices j q).take n, x.isInv = true) :
    Happens s e i (.inv p monotonic (((s.notices j q).take n).map (·.hash)))
  | getdata (p n : Nat) (stray : Stray) (j : ι) (q : Nat) (he : e = .getdata i p n stray)
    (hwire : s.wire i p = some (j, q)) (hall : ∀ x ∈ (s.notices j q).take n, x.isInv = false) :
    Happens s e i (.getdata p (((s.notices j q).take n).map (·.hash)))
  | object (p k : Nat) (now : Int) (j : ι) (q : Nat) (blob : Blob) (he : e = .object i p k now)
    (hwire : s.wire i p = some (j, q)) (hget : (s.blobs j q)[k]? = some blob) :
    Happens s e i (.object p now blob)
  | own {ev : Event} (he : e = .own i ev) (hallows : s.allows i ev = true) : Happens s e i ev

theorem event_cases (hevent : s.event e = some (i, ev)) : Happens s e i ev := by
  cases e with
  | dial j monotonic rand =>
    cases hevent
    exact .dial monotonic rand rfl
  | accept j socket k =>
    obtain ⟨d, -, heq⟩ := Option.map_eq_some_iff.mp hevent
    cases heq
    exact .accept socket k rfl
  | inv j p monotonic n =>
    obtain ⟨⟨a, q⟩, hwire, hevent⟩ := Option.bind_eq_some_iff.mp hevent
    simp only at hevent
    split at hevent
    next hall =>
      cases hevent
      exact .inv p monotonic n a q rfl hwire (List.all_eq_true.mp hall)
    next => cases hevent
  | getdata j p n stray =>
    obtain ⟨⟨a, q⟩, hwire, hevent⟩ := Option.bind_eq_some_iff.mp hevent
    simp only at hevent
    split at hevent
    next hall =>
      cases hevent
      refine .getdata p n stray a q rfl hwire fun x hx => ?_
      simpa using List.all_eq_true.mp hall x hx
    next => cases hevent
  | object j p k now =>
    obtain ⟨⟨a, q⟩, hwire, hevent⟩ := Option.bind_eq_some_iff.mp hevent
    obtain ⟨blob, hget, heq⟩ := Option.bind_eq_some_iff.mp hevent
    cases heq
    exact .object p k now a q blob rfl hwire hget
  | own j e =>
    simp only [event] at hevent
    split at hevent
    next hallows =>
      cases hevent
      exact .own rfl hallows
    next => cases hevent

omit [DecidableEq ι] in
theorem log_step {nw nw' : State} (hs : Network.step ssl nw ev = some nw') :
    ∃ effects, nw'.log = nw.log ++ effects := by
  by_cases hgetdata : ∃ peer hashes, ev = .getdata peer hashes
  · obtain ⟨peer, hashes, rfl⟩ := hgetdata
    obtain ⟨p, -, rfl⟩ := Option.map_eq_some_iff.mp hs
    exact ⟨_, rfl⟩
  · obtain ⟨effects, heq, -⟩ := grows_step hs fun peer hashes heq => hgetdata ⟨peer, hashes, heq⟩
    exact ⟨effects, heq⟩

theorem take_frame (s : Mesh ι) (e : MeshEvent ι) :
    (s.take e).node = s.node ∧ (s.take e).start = s.start ∧ (s.take e).wire = s.wire ∧
      (s.take e).dials = s.dials := by
  cases e with
  | inv i p monotonic n => simp only [take]; split <;> exact ⟨rfl, rfl, rfl, rfl⟩
  | getdata i p n stray => simp only [take]; split <;> exact ⟨rfl, rfl, rfl, rfl⟩
  | object i p k now => simp only [take]; split <;> exact ⟨rfl, rfl, rfl, rfl⟩
  | dial i monotonic rand => exact ⟨rfl, rfl, rfl, rfl⟩
  | accept i socket k => exact ⟨rfl, rfl, rfl, rfl⟩
  | own i e => exact ⟨rfl, rfl, rfl, rfl⟩

/-- Joining the connections leaves everything else as it is. -/
theorem join_cases {s₁ : Mesh ι} (hs : s.join s₁ e = some s') (hevent : s.event e = some (i, ev))
    (hstep : Network.step ssl (s.node i) ev = some (s₁.node i)) (hwire : s₁.wire = s.wire)
    (hdials : s₁.dials = s.dials) :
    (s'.node = s₁.node ∧ s'.start = s₁.start ∧ s'.notices = s₁.notices ∧ s'.blobs = s₁.blobs) ∧
      Joined s e i ev s' := by
  cases e with
  | dial j monotonic rand =>
    cases hevent
    simp only [join] at hs
    split at hs
    next hborn =>
      cases hs
      exact ⟨⟨rfl, rfl, rfl, rfl⟩, .dialed ⟨monotonic, rand, rfl⟩ hborn hwire (by rw [hdials])⟩
    next => cases hs
  | accept j socket k =>
    obtain ⟨⟨a, q⟩, hdial, hs⟩ := Option.bind_eq_some_iff.mp hs
    obtain ⟨d, -, heq⟩ := Option.map_eq_some_iff.mp hevent
    cases heq
    cases hs
    refine ⟨⟨rfl, rfl, rfl, rfl⟩, .accepted socket k a q rfl ?_ hdial (by rw [hdials]) (by rw [hwire])⟩
    show (s₁.node i).nextPeer = _
    simp only [Network.step] at hstep
    split at hstep
    · rw [← Option.some.inj hstep]
      rfl
    · cases hstep
  | inv j p monotonic n => cases hs; exact ⟨⟨rfl, rfl, rfl, rfl⟩, .same hwire hdials⟩
  | getdata j p n stray => cases hs; exact ⟨⟨rfl, rfl, rfl, rfl⟩, .same hwire hdials⟩
  | object j p k now => cases hs; exact ⟨⟨rfl, rfl, rfl, rfl⟩, .same hwire hdials⟩
  | own j e => cases hs; exact ⟨⟨rfl, rfl, rfl, rfl⟩, .same hwire hdials⟩

theorem acts_of_step (hs : s.step ssl e = some s') :
    ∃ i ev effects, Acts ssl s e i ev effects s' := by
  obtain ⟨⟨i, ev⟩, hevent, hs⟩ := Option.bind_eq_some_iff.mp hs
  obtain ⟨s₁, hact, hjoin⟩ := Option.bind_eq_some_iff.mp hs
  obtain ⟨nw, hstep, hact⟩ := Option.bind_eq_some_iff.mp hact
  obtain ⟨hnode, hstart, hwire, hdials⟩ := s.take_frame e
  simp only at hstep hact hjoin
  have hdisk : (s.take e).disk i = s.disk i := by rw [disk, disk, hnode, hstart]
  rw [hnode] at hstep
  obtain ⟨effects, hlog⟩ := log_step hstep
  have hdrop : nw.log.drop ((s.take e).node i).log.length = effects := by
    rw [hnode, hlog, List.drop_left]
  rw [hdrop, hdisk, hnode] at hact
  have hs₁ := Option.some.inj hact
  have hself : s₁.node i = nw := by rw [← hs₁]; exact Function.update_self ..
  obtain ⟨⟨hnode', hstart', hnotices', hblobs'⟩, hjoined⟩ := join_cases hjoin hevent
    (hself.symm ▸ hstep) (by rw [← hs₁]; exact hwire) (by rw [← hs₁]; exact hdials)
  refine ⟨i, ev, effects, hevent, ?_, ?_, fun j hj => ?_, ?_, fun j p => ?_, fun j p => ?_,
    hjoined⟩
  · rw [hnode', hself]
    exact hstep
  · rw [hnode', hself]
    exact hlog
  · rw [hnode', ← hs₁]
    exact Function.update_of_ne hj ..
  · rw [hstart', ← hs₁]
    exact hstart
  · rw [hnotices', ← hs₁]
    by_cases hj : j = i
    · subst hj
      simp only [Function.update_self, if_pos]
    · simp only [Function.update_of_ne hj, if_neg hj, List.append_nil]
  · rw [hblobs', ← hs₁]
    by_cases hj : j = i
    · subst hj
      simp only [Function.update_self, if_pos]
    · simp only [Function.update_of_ne hj, if_neg hj, List.append_nil]

/-! ## 3. Where objects come from -/

/-- A network has had an object saved under a hash, or it started with its file. -/
def Stored (s : Mesh ι) (i : ι) (hash : Hash) (blob : Blob) : Prop :=
  .save hash blob ∈ (s.node i).fileTasks ∨ s.start i hash = some blob

omit [DecidableEq ι] in
theorem stored_of_disk {hash : Hash} {blob : Blob} (h : s.disk i hash = some blob) :
    s.Stored i hash blob := by
  unfold disk State.disk at h
  unfold Stored
  generalize (s.node i).fileTasks = tasks at h
  induction tasks using List.reverseRecOn with
  | nil => exact .inr h
  | append_singleton tasks task ih =>
    rw [List.foldl_append, List.foldl_cons, List.foldl_nil] at h
    have hold := fun h => (ih h).imp (List.mem_append_left [task]) id
    cases task with
    | save hash' blob' =>
      by_cases heq : hash = hash'
      · subst heq
        rw [FileTask.apply, Function.update_self] at h
        cases h
        exact .inl (List.mem_append_right _ List.mem_cons_self)
      · rw [FileTask.apply, Function.update_of_ne heq] at h
        exact hold h
    | delete hash' =>
      by_cases heq : hash = hash'
      · subst heq
        rw [FileTask.apply, Function.update_self] at h
        cases h
      · rw [FileTask.apply, Function.update_of_ne heq] at h
        exact hold h

omit [DecidableEq ι] in
theorem save_of_dropped {v v' : List Object × List FileTask} (h : ReflTransGen State.Dropped v v')
    {hash : Hash} {blob : Blob} (hmem : .save hash blob ∈ v'.2) : .save hash blob ∈ v.2 := by
  induction h with
  | refl => exact hmem
  | tail _ hdropped ih =>
    obtain ⟨old, rfl⟩ := hdropped
    refine ih ((List.mem_append.mp hmem).resolve_right ?_)
    simp

omit [DecidableEq ι] in
/-- What is saved is an object that was added in the step, under its hash. -/
theorem save_step {nw nw' : State} (htracked : nw.Tracked [])
    (hs : Network.step ssl nw ev = some nw') {hash : Hash} {blob : Blob}
    (hmem : .save hash blob ∈ nw'.fileTasks) : .save hash blob ∈ nw.fileTasks ∨
      (∃ now flags, ev.addedObject = some (now, blob, flags)) ∧ Genuine ssl hash blob := by
  cases (htracked.step hs).2 with
  | same hadded h =>
    rw [show nw'.fileTasks = nw.fileTasks from congrArg Prod.snd h] at hmem
    exact .inl hmem
  | accepted now added flags hadded haccepts h =>
    obtain ⟨timestamp, htime, -, h⟩ := h
    rw [show nw'.fileTasks = _ from congrArg Prod.snd h] at hmem
    rcases List.mem_append.mp hmem with hold | hnew
    · exact .inl hold
    · cases List.mem_singleton.mp hnew
      exact .inr ⟨⟨now, flags, hadded⟩, rfl, by rw [htime]; rfl⟩
  | collected now monotonic h => exact .inl (save_of_dropped h hmem)
  | loaded type hash' timestamp hnone h =>
    rw [show nw'.fileTasks = nw.fileTasks from congrArg Prod.snd h] at hmem
    exact .inl hmem

/-- What is sent in a step in the place of objects that are not there. -/
def strays (s : Mesh ι) (e : MeshEvent ι) : List Blob :=
  match s.event e with
  | some (i, .getdata _ hashes) =>
    ((s.node i).getdataInventories hashes).filterMap fun inv =>
      if inv.state = .accepted then none else e.stray inv.hash
  | _ => []

/-- What is sent was saved and is still in memory, or it is loaded, or it is a stray. -/
theorem stored_of_sent (hevent : s.event e = some (i, ev)) (hfilled : (s.node i).Filled) {p : Nat}
    {blob : Blob} (hmem : blob ∈ (s.node i).sentBlobs (s.disk i) e.stray p ev) :
    (∃ hash, s.Stored i hash blob) ∨ blob ∈ s.strays e := by
  cases ev with
  | getdata peer hashes =>
    simp only [State.sentBlobs] at hmem
    split_ifs at hmem with hp
    · obtain ⟨inv, hinv, hcontent⟩ := List.mem_filterMap.mp hmem
      by_cases hstate : inv.state = .accepted
      · refine .inl ⟨inv.hash, ?_⟩
        obtain ⟨hash, hhash, a, hget, rfl, -⟩ := mem_getdataInventories.mp hinv
        have havailable := hfilled a hstate
        rw [Inventory.content, if_pos hstate] at hcontent
        unfold Inventory.Available at havailable
        have hsave : ∀ b, Effect.saveBlob ((s.node i).heap a).hash b ∈ (s.node i).log →
            FileTask.save ((s.node i).heap a).hash b ∈ (s.node i).fileTasks := fun b hb =>
          List.mem_filterMap.mpr ⟨_, hb, rfl⟩
        cases hblob : ((s.node i).heap a).blob with
        | none => rw [hblob] at havailable; exact absurd havailable id
        | some loaded =>
          rw [hblob] at havailable hcontent
          cases loaded with
          | none => exact stored_of_disk hcontent
          | some b =>
            cases hcontent
            exact .inl (hsave _ havailable)
      · rw [Inventory.content, if_neg hstate] at hcontent
        refine .inr ?_
        rw [strays, hevent]
        exact List.mem_filterMap.mpr ⟨inv, hinv, by rw [if_neg hstate]; exact hcontent⟩
    · cases hmem
  | _ => cases hmem

/-- The object a network is given from outside or by the rest of its program. -/
def brings : MeshEvent ι → List Blob
  | .own _ ev => (ev.addedObject.map fun added => added.2.1).toList
  | _ => []

/-- An object was brought in or sent as a stray, or a network started with its file. -/
def Sourced (s : Mesh ι) (past : List Blob) (blob : Blob) : Prop :=
  blob ∈ past ∨ ∃ i hash, s.start i hash = some blob

/-- Every object that is saved or on its way has a source, and what is saved is an object of its
hash. -/
structure Honest (ssl : OpenSSL) (s : Mesh ι) (past : List Blob) : Prop where
  tracked : ∀ i, (s.node i).Tracked []
  filled : ∀ i, (s.node i).Filled
  stored : ∀ i hash blob, s.Stored i hash blob → Genuine ssl hash blob ∧ s.Sourced past blob
  sent : ∀ i p, ∀ blob ∈ s.blobs i p, s.Sourced past blob

theorem mem_take_blobs {j : ι} {p : Nat} {blob : Blob} (h : blob ∈ (s.take e).blobs j p) :
    blob ∈ s.blobs j p := by
  cases e with
  | object i q k now =>
    simp only [take] at h
    split at h
    next a b _ =>
      simp only at h
      split_ifs at h with heq
      · cases heq
        exact List.mem_of_mem_eraseIdx h
      · exact h
    next => exact h
  | inv i q monotonic n => simp only [take] at h; split at h <;> exact h
  | getdata i q n stray => simp only [take] at h; split at h <;> exact h
  | dial i monotonic rand => exact h
  | accept i socket k => exact h
  | own i e => exact h

-- An object that a network is given was brought in, or another network had sent it.
theorem added_cases (hevent : s.event e = some (i, ev)) {now : Int} {blob : Blob}
    {flags : AddObjectFlags} (hadded : ev.addedObject = some (now, blob, flags)) :
    blob ∈ brings e ∨ ∃ j q, blob ∈ s.blobs j q := by
  cases event_cases hevent with
  | object p k now' j q sent he hwire hget =>
    cases hadded
    exact .inr ⟨j, q, List.mem_of_getElem? hget⟩
  | own he hallows =>
    rw [he]
    exact .inl (by simp [brings, hadded])
  | dial monotonic rand he => cases hadded
  | accept socket k he => cases hadded
  | inv p monotonic n j q he hwire hall => cases hadded
  | getdata p n stray j q he hwire hall => cases hadded

/-- What a step adds to the sources. -/
def sources (s : Mesh ι) (e : MeshEvent ι) : List Blob := brings e ++ s.strays e

theorem Honest.step {past : List Blob} (h : s.Honest ssl past) (hs : s.step ssl e = some s') :
    s'.Honest ssl (past ++ s.sources e) := by
  obtain ⟨i, ev, effects, hacts⟩ := acts_of_step hs
  have hmono : ∀ blob, s.Sourced past blob → s'.Sourced (past ++ s.sources e) blob := fun blob hsrc =>
    hsrc.imp (List.mem_append_left _) fun ⟨j, hash, heq⟩ => ⟨j, hash, by rwa [hacts.start]⟩
  refine ⟨fun j => ?_, fun j => ?_, fun j hash blob hstored => ?_, fun j p blob hblob => ?_⟩
  · by_cases hj : j = i
    · exact hj ▸ ((h.tracked i).step hacts.step).1
    · exact hacts.others j hj ▸ h.tracked j
  · by_cases hj : j = i
    · exact hj ▸ (h.filled i).step hacts.step
    · exact hacts.others j hj ▸ h.filled j
  · have hold : s.Stored j hash blob → Genuine ssl hash blob ∧
        s'.Sourced (past ++ s.sources e) blob := fun hold =>
      ⟨(h.stored j hash blob hold).1, hmono blob (h.stored j hash blob hold).2⟩
    rcases hstored with hsaved | hstart
    · by_cases hj : j = i
      · subst hj
        rcases save_step (h.tracked j) hacts.step hsaved with hsaved | ⟨⟨now, flags, hadded⟩, hgen⟩
        · exact hold (.inl hsaved)
        · refine ⟨hgen, ?_⟩
          rcases added_cases hacts.event hadded with hbrings | ⟨a, q, hsent⟩
          · exact .inl (List.mem_append_right _ (List.mem_append_left _ hbrings))
          · exact hmono blob (h.sent a q blob hsent)
      · rw [hacts.others j hj] at hsaved
        exact hold (.inl hsaved)
    · rw [hacts.start] at hstart
      exact hold (.inr hstart)
  · rw [hacts.blobs] at hblob
    rcases List.mem_append.mp hblob with hold | hnew
    · exact hmono blob (h.sent j p blob (mem_take_blobs hold))
    · split_ifs at hnew with hj
      · rcases stored_of_sent hacts.event (h.filled i) hnew with ⟨hash, hstored⟩ | hstray
        · exact hmono blob (h.stored i hash blob hstored).2
        · exact .inl (List.mem_append_right _ (List.mem_append_right _ hstray))
      · cases hnew

omit [DecidableEq ι] in
theorem honest_new {start : ι → Disk} (hstart : ∀ i hash blob, start i hash = some blob →
    Genuine ssl hash blob) (nonce : ι → Nat) (defaultAddrs : ι → List Netaddress) :
    (new start nonce defaultAddrs).Honest ssl [] := by
  refine ⟨fun i => State.tracked_new _ _, fun i a ha => ?_, fun i hash blob hstored => ?_,
    fun i p blob hblob => ?_⟩
  · cases ha
  · rcases hstored with hsaved | hold
    · cases hsaved
    · exact ⟨hstart i hash blob hold, .inr ⟨i, hash, hold⟩⟩
  · cases hblob

theorem honest_run {start : ι → Disk} (hstart : ∀ i hash blob, start i hash = some blob →
    Genuine ssl hash blob) (nonce : ι → Nat) (defaultAddrs : ι → List Netaddress)
    (events : List (MeshEvent ι)) : (run (step ssl) (new start nonce defaultAddrs) events).Honest ssl
      (emitted (step ssl) sources (new start nonce defaultAddrs) events) := by
  rw [← List.nil_append (emitted _ _ _ _)]
  exact invariant_emitted (fun _ _ _ _ h hs => h.step hs) (honest_new hstart nonce defaultAddrs)
    events

theorem start_run (ssl : OpenSSL) (s : Mesh ι) (events : List (MeshEvent ι)) :
    (run (step ssl) s events).start = s.start :=
  invariant (P := fun s' : Mesh ι => s'.start = s.start) (fun _ _ _ h hs => by
    obtain ⟨i, ev, effects, hacts⟩ := acts_of_step hs
    exact hacts.start.trans h) rfl events

/-- A getdata that is delivered finds only objects that have come. -/
def FindsAccepted (s : Mesh ι) (e : MeshEvent ι) : Prop :=
  match s.event e with
  | some (i, .getdata _ hashes) =>
    ∀ inv ∈ (s.node i).getdataInventories hashes, inv.state = .accepted
  | _ => True

instance (s : Mesh ι) (e : MeshEvent ι) : Decidable (s.FindsAccepted e) := by
  unfold FindsAccepted
  split <;> infer_instance

theorem FindsAccepted.strays_eq_nil {s : Mesh ι} {e : MeshEvent ι} (h : s.FindsAccepted e) :
    s.strays e = [] := by
  unfold FindsAccepted at h
  unfold strays
  split
  · next i peer hashes hevent =>
    rw [hevent] at h
    exact List.filterMap_eq_nil_iff.mpr fun inv hinv => if_pos (h inv hinv)
  · rfl

/-- If every getdata finds objects that have come, nothing is sent in the place of one. -/
theorem emitted_strays_eq_nil {s : Mesh ι} {events : List (MeshEvent ι)}
    (h : Along (step ssl) FindsAccepted s events) : emitted (step ssl) strays s events = [] := by
  induction events generalizing s with
  | nil => rfl
  | cons e events ih =>
    obtain ⟨hhere, hrest⟩ := h
    rw [emitted, ih hrest, List.append_nil]
    split_ifs with hsome
    · exact (hhere hsome).strays_eq_nil
    · rfl

/-- Whatever the networks do and in whatever order: an object that one of them has saved is saved
under its own hash, and it was brought in at one of them, or it lay in the files of one of them from
the start, or one of them was asked for an object that had not come and sent what it took for it.
When no getdata finds an object that has not come, one of the first two is the case. -/
theorem saved_sourced {start : ι → Disk} (hstart : ∀ i hash blob, start i hash = some blob →
    Genuine ssl hash blob) (nonce : ι → Nat) (defaultAddrs : ι → List Netaddress)
    (events : List (MeshEvent ι)) (i : ι) {hash : Hash} {blob : Blob}
    (hsaved : .save hash blob ∈
      ((run (step ssl) (new start nonce defaultAddrs) events).node i).fileTasks) :
    doubleHash ssl blob.data = hash ∧
      (blob ∈ emitted (step ssl) (fun _ => brings) (new start nonce defaultAddrs) events ∨
        (∃ j hash, start j hash = some blob) ∨
        blob ∈ emitted (step ssl) strays (new start nonce defaultAddrs) events) ∧
      (Along (step ssl) FindsAccepted (new start nonce defaultAddrs) events →
        blob ∈ emitted (step ssl) (fun _ => brings) (new start nonce defaultAddrs) events ∨
          ∃ j hash, start j hash = some blob) := by
  obtain ⟨hgenuine, hsourced⟩ :=
    (honest_run hstart nonce defaultAddrs events).stored i hash blob (.inl hsaved)
  have hall : blob ∈ emitted (step ssl) (fun _ => brings) (new start nonce defaultAddrs) events ∨
      (∃ j hash, start j hash = some blob) ∨
      blob ∈ emitted (step ssl) strays (new start nonce defaultAddrs) events := by
    rcases hsourced with hpast | ⟨j, hash, heq⟩
    · exact ((mem_emitted_append events).mp hpast).imp id .inr
    · rw [start_run] at heq
      exact .inr (.inl ⟨j, hash, heq⟩)
  refine ⟨hgenuine.1, hall, fun hfinds => ?_⟩
  rw [emitted_strays_eq_nil hfinds] at hall
  exact hall.imp id fun hrest => hrest.resolve_right List.not_mem_nil

/-- A message with nothing in it. -/
def sampleBlob : Blob where
  type := .msg
  data := add64 0 ++ add64 1400000000 ++ [2, 1] ++ List.replicate 20 0

def samplePeer : Netaddress := { host := List.replicate 16 2, port := 8444 }

/-- The first network makes a connection to the second one, and after the handshake an object is
added. -/
def sampleGossip : List (MeshEvent Bool) :=
  [.own true .addListenAddress, .dial false minReconnectTime 0, .accept true 0 0,
    .own true (.version 0 1400000000 1 2 1400000000 1 1 samplePeer),
    .own false (.verack 0 1400000000),
    .own false (.version 0 1400000000 2 2 1400000000 1 1 samplePeer),
    .own true (.verack 0 1400000000),
    .own false (.addBlob 1400000000 sampleBlob { skipValidation := true }),
    .inv true 0 0 1, .getdata false 0 1 (fun _ => none), .object true 0 0 1400000000,
    .inv false 0 0 1]

def sampleMesh : Mesh Bool :=
  run (step .additive)
    (new (fun _ _ => none) (fun i => if i then 2 else 1) fun i => if i then [] else [samplePeer])
    sampleGossip

/-- The second network has saved what was added to the first one. -/
theorem sampleGossip_sourced :
    sampleBlob ∈ emitted (step .additive) (fun _ => brings) (new (fun _ _ => none)
        (fun i => if i then 2 else 1) fun i => if i then [] else [samplePeer]) sampleGossip ∨
      ∃ j hash, (fun (_ : Bool) (_ : Hash) => none) j hash = some sampleBlob :=
  (saved_sourced (by simp) _ _ sampleGossip true
    (show FileTask.save (doubleHash .additive sampleBlob.data) sampleBlob ∈ _ by
      decide +kernel)).2.2 (by decide +kernel)

end Mesh

end Notbit.Network
