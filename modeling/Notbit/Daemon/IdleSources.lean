import Notbit.Connection.Sending
import Notbit.Ipc.LifeCycle
import Notbit.Keyring.Cancels
import Notbit.Keyring.Mail
import Notbit.Keyring.Requests
import Notbit.Network.Objects
import Notbit.Network.Ties

/-!
# IdleSources — the idle sources of the whole program (`ntb-main-context.c`)

The keyring, the network, the connections to the peers and the clients of the IPC socket, with the
idle sources that are registered for what they wait for.  A thread that has finished with a task
registers a source, whose callback gives the result to the one that waits for it.  A callback may
hand an object to the network, which the keyring hears of at once; everything else that happens is an
event of its own.
-/

open Bytes Runs Notbit.Proto

namespace Notbit.Daemon

/-! ## 1. The program -/

/-- An idle source, by what it was registered for: a task of the keyring, a key that a client asked
for, an object that a connection loads from the store, and the queue of connections to be made. -/
inductive Source where
  | task (t : Nat)
  | keygen (k : Nat)
  | load (peer cookie : Nat)
  | connectQueue
  deriving DecidableEq, Repr

/-- A client of the IPC socket.  The keys that it waits for have numbers, in the order of its
tasks. -/
structure Client where
  conn : Ipc.Conn := {}
  keygens : List Nat := []
  numbered : keygens.length = conn.tasks.length := by rfl

/-- The client after an event: new tasks get new numbers, and a connection that is removed has no
tasks. -/
def Client.number (next : Nat) (keygens : List Nat) (conn : Ipc.Conn) : Client where
  conn := conn
  keygens := List.range' next (conn.tasks.length - keygens.length) ++
    keygens.drop (keygens.length - conn.tasks.length)
  numbered := by
    rw [List.length_append, List.length_range', List.length_drop]
    omega

/-- The program, with its idle sources, the newest one first. -/
structure State (ssl : OpenSSL) where
  keyring : Keyring.State ssl
  network : Network.State
  senders : Nat → Connection.Sender := fun _ => {}
  clients : List Client := []
  nextKeygen : Nat := 0
  idleSources : List Source := []

/-- What the callback of an idle source is given, and for the connect queue the clock, the random
number and whether the connection could be made. -/
inductive Call (ssl : OpenSSL) where
  | task (env : Keyring.Env ssl) (t : Nat) (result : Keyring.Result ssl)
  | keygen (k : Nat) (key : Key ssl) (address : CString)
  | load (peer cookie : Nat) (blob : Option Blob)
  | connectQueue (monotonic rand : Nat) (ok : Bool)

/-- Everything that can happen. -/
inductive Event (ssl : OpenSSL) where
  | keyring (e : Keyring.Event ssl)
  | network (e : Network.Event)
  | sender (peer : Nat) (e : Connection.SendEvent)
  /-- Another client connects. -/
  | accept
  | client (i : Nat) (e : Ipc.Event)
  /-- A thread has finished with a task and registers the idle source for it. -/
  | finish (source : Source)
  /-- The callback of an idle source. -/
  | idle (call : Call ssl)

variable {ssl : OpenSSL}

def Call.source : Call ssl → Source
  | .task _ t _ => .task t
  | .keygen k _ _ => .keygen k
  | .load peer cookie _ => .load peer cookie
  | .connectQueue _ _ _ => .connectQueue

/-- The object of a call to the network, with the flags that the callers pass. -/
def addedObject : Keyring.Effect ssl → Option (Blob × Network.AddObjectFlags)
  | .addBlob none blob => some (blob, { skipValidation := true, delay := true })
  | .addBlob (some _) blob => some (blob, { skipValidation := true })
  | .addObjectFromData blob => some (blob, { delay := true })
  | _ => none

instance (nw : Network.State) (now : Int) (blob : Blob) (flags : Network.AddObjectFlags) :
    Decidable (Network.State.Accepts ssl nw now blob flags) :=
  decidable_of_iff
    ((objectTimestamp blob.data).any (fun timestamp => flags.skipValidation ||
        !Network.shouldReject ssl blob.type blob.data (now - timestamp)) = true ∧
      (nw.hashGet (doubleHash ssl blob.data)).all (fun a => (nw.heap a).state.isStub) = true) <| by
    unfold Network.State.Accepts
    refine and_congr ?_ ?_
    · cases objectTimestamp blob.data with
      | none => simp
      | some timestamp => cases flags.skipValidation <;> simp
    · cases nw.hashGet (doubleHash ssl blob.data) <;> simp

/-- A call of the keyring to the network.  What the keyring was told of the object is what the network
does with it. -/
def tell (env : Keyring.Env ssl) (nw : Network.State) (e : Keyring.Effect ssl) :
    Option Network.State :=
  match addedObject e with
  | none => some nw
  | some (blob, flags) =>
    if env.announces blob = true ↔ Network.State.Accepts ssl nw env.now blob flags then
      nw.addObject ssl env.now blob flags
    else none

namespace State

/-- What the source was registered for is still waited for; `ntb_crypto_cancel_task`,
`ntb_pow_cancel` and `ntb_store_cancel_task` remove the source with the task. -/
def awaits (s : State ssl) : Source → Bool
  | .task t => s.keyring.tasks.any (·.1 = t)
  | .keygen k => s.clients.any (k ∈ ·.keygens)
  | .load peer cookie =>
    (s.network.findPeer peer).isSome && (s.senders peer).tasks.any (·.cookie = cookie)
  | .connectQueue => s.network.book.connectQueueSource = some true

/-- The idle sources after an event: those that nobody waits for have been removed, and the network
may have registered its own. -/
def refresh (s : State ssl) : State ssl :=
  { s with
    idleSources :=
      (if s.awaits .connectQueue ∧ .connectQueue ∉ s.idleSources then [.connectQueue] else []) ++
        s.idleSources.filter s.awaits }

/-- The program that starts with the keys, the pubkey objects and the outgoing messages of the
store. -/
def new (nonce : Nat) (defaultAddrs : List Proto.Netaddress) (env : Keyring.Env ssl)
    (keys : List (Keyring.KeyringKey ssl)) (pubkeys : List Blob) (records : List Keyring.Record) :
    State ssl :=
  refresh
    { keyring := (Keyring.State.new []).restart env keys pubkeys records
      network := Network.State.new nonce defaultAddrs }

variable (ipcEnv : Ipc.Env) (fill : Buffer → Memory)

/-- The callback of an idle source. -/
def call (s : State ssl) : Call ssl → Option (State ssl)
  | .task env t result => do
    let keyring ← Keyring.step s.keyring (.complete env t result)
    let network ← (keyring.log.drop s.keyring.log.length).foldlM (tell env) s.network
    return { s with keyring, network }
  | .keygen k key address => do
    let keyring ← Keyring.step s.keyring (.addKey (.own key))
    let i ← s.clients.findIdx? (k ∈ ·.keygens)
    let client ← s.clients[i]?
    let j := client.keygens.idxOf k
    let conn ← Ipc.step ipcEnv client.conn
      (.key j key.address.version key.address.stream key.address.ripe address)
    let client := Client.number s.nextKeygen (client.keygens.eraseIdx j) conn
    return { s with keyring, clients := s.clients.set i client }
  | .load peer cookie blob => do
    let conn := s.senders peer
    let i := conn.tasks.findIdx (·.cookie = cookie)
    let conn ← Connection.sendStep ssl fill conn (.load i blob)
    return { s with senders := Function.update s.senders peer conn }
  | .connectQueue monotonic rand ok => do
    let network ← Network.step ssl s.network (.connectQueue monotonic rand ok)
    return { s with network }

/-- What an event does, but for the idle sources that it removes. -/
def perform (s : State ssl) : Event ssl → Option (State ssl)
  | .keyring e => match e with
    | .complete .. | .restart .. => none
    | e => (Keyring.step s.keyring e).map fun keyring => { s with keyring }
  | .network e => match e with
    -- the timer of the connect queue has the same callback
    | .connectQueue monotonic rand ok =>
      if s.awaits .connectQueue then none
      else (Network.step ssl s.network (.connectQueue monotonic rand ok)).map
        fun network => { s with network }
    | e => (Network.step ssl s.network e).map fun network => { s with network }
  | .sender peer e => match e with
    | .load .. => none
    | e => do
      let _ ← s.network.findPeer peer
      let conn ← Connection.sendStep ssl fill (s.senders peer) e
      return { s with senders := Function.update s.senders peer conn }
  | .accept => some { s with clients := s.clients ++ [{}] }
  | .client i e => match e with
    | .key .. => none
    | e => do
      let client ← s.clients[i]?
      let conn ← Ipc.step ipcEnv client.conn e
      return { s with
        clients := s.clients.set i (Client.number s.nextKeygen client.keygens conn)
        nextKeygen := s.nextKeygen + conn.tasks.length }
  | .finish source =>
    if source ≠ .connectQueue ∧ s.awaits source ∧ source ∉ s.idleSources then
      some { s with idleSources := source :: s.idleSources }
    else none
  | .idle call => if call.source ∈ s.idleSources then s.call ipcEnv fill call else none

end State

def step (ipcEnv : Ipc.Env) (fill : Buffer → Memory) (s : State ssl) (e : Event ssl) :
    Option (State ssl) := (s.perform ipcEnv fill e).map State.refresh

/-! ## 2. What is known between two events -/

variable {ipcEnv : Ipc.Env} {fill : Buffer → Memory} {s s' : State ssl} {e : Event ssl}

/-- The keyring and the clients are as their own events leave them, and every idle source is one that
is still waited for. -/
structure Consistent (s : State ssl) : Prop where
  keyring : Keyring.Inv True False s.keyring none
  lettered : Keyring.Lettered s.keyring
  clients : ∀ client ∈ s.clients, ∃ past, Ipc.Phase client.conn past
  awaited : ∀ source ∈ s.idleSources, s.awaits source = true

-- The idle sources after an event.
theorem mem_refresh {source : Source} (h : source ∈ s.idleSources) :
    source ∈ s.refresh.idleSources ↔ s.awaits source = true := by
  unfold State.refresh
  dsimp only
  rw [List.mem_append, List.mem_filter, and_iff_right h]
  refine or_iff_right_of_imp fun hnew => ?_
  split_ifs at hnew with hqueue
  · rw [List.mem_singleton.mp hnew]
    exact hqueue.1
  · cases hnew

theorem Consistent.refresh (hkeyring : Keyring.Inv True False s.keyring none)
    (hlettered : Keyring.Lettered s.keyring)
    (hclients : ∀ client ∈ s.clients, ∃ past, Ipc.Phase client.conn past) :
    Consistent s.refresh where
  keyring := hkeyring
  lettered := hlettered
  clients := hclients
  awaited source h := by
    show s.awaits source = true
    unfold State.refresh at h
    rcases List.mem_append.mp h with hnew | hold
    · split_ifs at hnew with hqueue
      · rw [List.mem_singleton.mp hnew]
        exact hqueue.1
      · cases hnew
    · exact (List.mem_filter.mp hold).2

theorem consistent_new (nonce : Nat) (defaultAddrs : List Proto.Netaddress) (env : Keyring.Env ssl)
    (keys : List (Keyring.KeyringKey ssl)) (pubkeys : List Blob) (records : List Keyring.Record) :
    Consistent (State.new nonce defaultAddrs env keys pubkeys records) := by
  apply Consistent.refresh
  · refine (Keyring.inv_new []).restart (fun record _ hloads => absurd trivial hloads) keys pubkeys
  · have hmoves : Keyring.Moves ⟨fun _ => True, fun _ => True⟩ (Keyring.State.new [])
        ((Keyring.State.new []).restart env keys pubkeys records) :=
      Keyring.moves_restart (Keyring.lettered_new []) keys pubkeys records
    exact (Keyring.lettered_new []).moves hmoves
  · exact fun client hclient => absurd hclient List.not_mem_nil

-- A client whose connection has gone on.
theorem phase_set {clients : List Client} {i : Nat} {client : Client}
    (h : ∀ client ∈ clients, ∃ past, Ipc.Phase client.conn past)
    (hnew : ∃ past, Ipc.Phase client.conn past) :
    ∀ client' ∈ clients.set i client, ∃ past, Ipc.Phase client'.conn past := by
  intro client' hclient
  rcases List.mem_or_eq_of_mem_set hclient with hold | rfl
  · exact h client' hold
  · exact hnew

theorem keyring_step {e : Keyring.Event ssl} {keyring : Keyring.State ssl} (h : Consistent s)
    (hs : Keyring.step s.keyring e = some keyring) :
    Keyring.Inv True False keyring none ∧ Keyring.Lettered keyring :=
  ⟨h.keyring.step (fun hstrict => hstrict.elim) (fun hloads => absurd trivial hloads) hs,
    h.lettered.step hs⟩

-- What a client does is a step of its connection.
theorem phase_step {client : Client} {e : Ipc.Event} {conn : Ipc.Conn} {i : Nat} (h : Consistent s)
    (hclient : s.clients[i]? = some client) (hs : Ipc.step ipcEnv client.conn e = some conn) :
    ∃ past, Ipc.Phase conn past := by
  obtain ⟨past, hphase⟩ := h.clients client (List.mem_of_getElem? hclient)
  exact ⟨_, hphase.step hs⟩

theorem Consistent.call {c : Call ssl} (h : Consistent s) (hs : s.call ipcEnv fill c = some s') :
    Consistent s'.refresh := by
  cases c with
  | task env t result =>
    obtain ⟨keyring, hkeyring, hs⟩ := Option.bind_eq_some_iff.mp hs
    obtain ⟨network, -, hs⟩ := Option.bind_eq_some_iff.mp hs
    cases hs
    obtain ⟨hinv, hlettered⟩ := keyring_step h hkeyring
    exact .refresh hinv hlettered h.clients
  | keygen k key address =>
    obtain ⟨i, -, hs⟩ := Option.bind_eq_some_iff.mp hs
    obtain ⟨client, hclient, hs⟩ := Option.bind_eq_some_iff.mp hs
    obtain ⟨conn, hconn, hs⟩ := Option.bind_eq_some_iff.mp hs
    cases hs
    obtain ⟨hinv, hlettered⟩ := @keyring_step _ s (.addKey (.own key)) _ h rfl
    exact .refresh hinv hlettered (phase_set h.clients (phase_step h hclient hconn))
  | load peer cookie blob =>
    obtain ⟨conn, -, hs⟩ := Option.bind_eq_some_iff.mp hs
    cases hs
    exact .refresh h.keyring h.lettered h.clients
  | connectQueue monotonic rand ok =>
    obtain ⟨network, -, hs⟩ := Option.bind_eq_some_iff.mp hs
    cases hs
    exact .refresh h.keyring h.lettered h.clients

theorem Consistent.step (h : Consistent s) (hs : step ipcEnv fill s e = some s') :
    Consistent s' := by
  obtain ⟨s₁, hperform, rfl⟩ := Option.map_eq_some_iff.mp hs
  clear hs
  cases e with
  | keyring e =>
    have hstep : ∃ keyring, Keyring.step s.keyring e = some keyring ∧ s₁ = { s with keyring } := by
      simp only [State.perform] at hperform
      split at hperform
      · cases hperform
      · cases hperform
      · obtain ⟨keyring, hkeyring, rfl⟩ := Option.map_eq_some_iff.mp hperform
        exact ⟨keyring, hkeyring, rfl⟩
    obtain ⟨keyring, hkeyring, rfl⟩ := hstep
    obtain ⟨hinv, hlettered⟩ := keyring_step h hkeyring
    exact .refresh hinv hlettered h.clients
  | network e =>
    have hstep : ∃ network, s₁ = { s with network } := by
      simp only [State.perform] at hperform
      split at hperform
      · split_ifs at hperform
        obtain ⟨network, -, rfl⟩ := Option.map_eq_some_iff.mp hperform
        exact ⟨network, rfl⟩
      · obtain ⟨network, -, rfl⟩ := Option.map_eq_some_iff.mp hperform
        exact ⟨network, rfl⟩
    obtain ⟨network, rfl⟩ := hstep
    exact .refresh h.keyring h.lettered h.clients
  | sender peer e =>
    have hstep : ∃ senders, s₁ = { s with senders } := by
      simp only [State.perform] at hperform
      split at hperform
      · cases hperform
      · obtain ⟨-, -, hperform⟩ := Option.bind_eq_some_iff.mp hperform
        obtain ⟨conn, -, hperform⟩ := Option.bind_eq_some_iff.mp hperform
        cases hperform
        exact ⟨_, rfl⟩
    obtain ⟨senders, rfl⟩ := hstep
    exact .refresh h.keyring h.lettered h.clients
  | accept =>
    cases hperform
    refine .refresh h.keyring h.lettered fun client hclient => ?_
    rcases List.mem_append.mp hclient with hold | hnew
    · exact h.clients client hold
    · rw [List.mem_singleton.mp hnew]
      exact ⟨[], .serving Ipc.serving_init⟩
  | client i e =>
    simp only [State.perform] at hperform
    split at hperform
    · cases hperform
    · obtain ⟨client, hclient, hperform⟩ := Option.bind_eq_some_iff.mp hperform
      obtain ⟨conn, hconn, hperform⟩ := Option.bind_eq_some_iff.mp hperform
      cases hperform
      exact .refresh h.keyring h.lettered (phase_set h.clients (phase_step h hclient hconn))
  | finish source =>
    simp only [State.perform] at hperform
    split_ifs at hperform
    cases hperform
    exact .refresh h.keyring h.lettered h.clients
  | idle c =>
    simp only [State.perform] at hperform
    split_ifs at hperform
    exact h.call hperform

/-! ## 3. What the callbacks remove -/

variable (ipcEnv fill) in
/-- The callback of an idle source removes no idle source but its own. -/
def Spares (s : State ssl) (e : Event ssl) : Prop :=
  ∀ c, e = .idle c → ∀ s', step ipcEnv fill s e = some s' →
    ∀ source ∈ s.idleSources, source ≠ c.source → source ∈ s'.idleSources

/-- The callback hands no object to the network that is new there and redirects a message with an
idle source. -/
def Undisturbed (s : State ssl) (e : Event ssl) : Prop :=
  ∀ env t result, e = .idle (.task env t result) → ∀ job, (t, job) ∈ s.keyring.tasks →
    ∀ effect blob flags, Keyring.HandsOver job result effect blob →
      addedObject effect = some (blob, flags) →
        Network.State.Accepts ssl s.network env.now blob flags →
          ∀ m, Keyring.Redirects s.keyring blob m →
            ∀ task ∈ s.keyring.tasks, task.2.message = some m.id →
              .task task.1 ∉ s.idleSources

theorem ties_tell {env : Keyring.Env ssl} {nw nw' : Network.State} {effect : Keyring.Effect ssl}
    (h : tell env nw effect = some nw') : nw'.ties = nw.ties := by
  unfold tell at h
  split at h
  · cases h
    rfl
  · split_ifs at h
    exact Network.State.ties_addObject h

theorem ties_foldlM {env : Keyring.Env ssl} {effects : List (Keyring.Effect ssl)}
    {nw nw' : Network.State} (h : effects.foldlM (tell env) nw = some nw') : nw'.ties = nw.ties := by
  induction effects generalizing nw with
  | nil =>
    cases h
    rfl
  | cons effect effects ih =>
    rw [List.foldlM_cons] at h
    obtain ⟨nw₁, hfirst, hrest⟩ := Option.bind_eq_some_iff.mp h
    exact (ih hrest).trans (ties_tell hfirst)

theorem isSome_findPeer (nw : Network.State) (peer : Nat) :
    (nw.findPeer peer).isSome = nw.ties.peers.any (·.id = peer) := by
  rw [Network.State.findPeer, List.isSome_find?, Network.State.ties, List.any_map]
  rfl

-- Adding objects touches neither the peers nor the queue of connections.
theorem awaits_of_ties {keyring : Keyring.State ssl} {network : Network.State}
    (h : network.ties = s.network.ties) {source : Source} (hsource : ∀ t, source ≠ .task t) :
    { s with keyring, network }.awaits source = s.awaits source := by
  cases source with
  | task t => exact absurd rfl (hsource t)
  | keygen k => rfl
  | load peer cookie =>
    show ((network.findPeer peer).isSome && _) = _
    rw [isSome_findPeer, h, ← isSome_findPeer]
    rfl
  | connectQueue =>
    have hbook : network.book = s.network.book := congrArg (·.book) h
    show decide (network.book.connectQueueSource = some true) = _
    rw [hbook]
    rfl

theorem awaits_task {t : Nat} : s.awaits (.task t) = true ↔ ∃ task ∈ s.keyring.tasks, task.1 = t := by
  simp [State.awaits]

/-- The keyring was told of the object what the network makes of it. -/
theorem announces_iff {env : Keyring.Env ssl} {t : Nat} {job : Keyring.Job ssl}
    {result : Keyring.Result ssl} {keyring : Keyring.State ssl} {network : Network.State}
    (h : Consistent s)
    (hs : Keyring.callback env (s.keyring.cancel (some t)) job result = some keyring)
    (htell : (keyring.log.drop s.keyring.log.length).foldlM (tell env) s.network = some network)
    {effect : Keyring.Effect ssl} {blob : Blob} (hover : Keyring.HandsOver job result effect blob) :
    ∃ flags, addedObject effect = some (blob, flags) ∧
      (env.announces blob = true ↔ Network.State.Accepts ssl s.network env.now blob flags) := by
  have hcancel : Keyring.Lettered (s.keyring.cancel (some t)) :=
    h.lettered.congr rfl rfl fun _ ht => List.mem_of_mem_filter ht
  obtain ⟨rest, hlog⟩ := Keyring.log_callback hcancel hover hs
  have hdrop : keyring.log.drop s.keyring.log.length = effect :: rest := by
    rw [hlog]
    exact List.drop_left
  rw [hdrop, List.foldlM_cons] at htell
  obtain ⟨network₁, hfirst, -⟩ := Option.bind_eq_some_iff.mp htell
  have hobject : ∃ flags, addedObject effect = some (blob, flags) := by
    cases hover with
    | pubkey => exact ⟨_, rfl⟩
    | acknowledgement => exact ⟨_, rfl⟩
  obtain ⟨flags, hobject⟩ := hobject
  refine ⟨flags, hobject, ?_⟩
  unfold tell at hfirst
  rw [hobject] at hfirst
  dsimp only at hfirst
  split_ifs at hfirst with hsame
  exact hsame

theorem message_of_handsOver {job : Keyring.Job ssl} {result : Keyring.Result ssl}
    {effect : Keyring.Effect ssl} {blob : Blob} (h : Keyring.HandsOver job result effect blob) :
    job.message = none := by
  cases h with
  | pubkey => rfl
  | acknowledgement => rfl

/-- The callback of a task of the keyring. -/
theorem spares_task {env : Keyring.Env ssl} {t : Nat} {result : Keyring.Result ssl}
    (h : Consistent s) (hs : s.call ipcEnv fill (.task env t result) = some s') :
    (∀ source ∈ s.idleSources, source ≠ .task t → s'.awaits source = true) ↔
      Undisturbed s (.idle (.task env t result)) := by
  obtain ⟨keyring, hkeyring, hs⟩ := Option.bind_eq_some_iff.mp hs
  obtain ⟨network, htell, hs⟩ := Option.bind_eq_some_iff.mp hs
  cases hs
  obtain ⟨⟨t', job⟩, hfind, hcallback⟩ := Option.bind_eq_some_iff.mp hkeyring
  have ht' := List.find?_some hfind
  obtain rfl : t' = t := of_decide_eq_true ht'
  have hjob := List.mem_of_find?_eq_some hfind
  have hdrops := Keyring.drops_callback h.keyring hjob hcallback
  have hmessages : (s.keyring.cancel (some t')).messages = s.keyring.messages := rfl
  have hannounces := @announces_iff _ s env t' job result keyring network h hcallback htell
  -- a task that was there and has another number
  have hthere : ∀ task ∈ s.keyring.tasks, task.1 ≠ t' →
      (task ∈ keyring.tasks ↔
        ¬ Keyring.Loses env (s.keyring.cancel (some t')) job result task) := by
    intro task htask hne
    rw [hdrops.tasks task (h.keyring.taskBound task htask)]
    refine and_iff_right (List.mem_filter.mpr ⟨htask, ?_⟩)
    simpa using hne
  constructor
  · rintro hspares env₁ t₁ result₁ ⟨⟩ job₁ hjob₁ effect blob flags hover hobject haccepts m hredirects
      task htask hmsg hidle
    cases h.keyring.task_eq hjob₁ hjob rfl
    have hne : task.1 ≠ t' := by
      intro heq
      rw [h.keyring.task_eq htask hjob heq, message_of_handsOver hover] at hmsg
      cases hmsg
    obtain ⟨other, hother, hid⟩ := awaits_task.mp (hspares _ hidle fun heq => hne (by cases heq; rfl))
    have hold : other ∈ s.keyring.tasks :=
      List.mem_of_mem_filter ((hdrops.tasks other (by
        rw [hid]; exact h.keyring.taskBound task htask)).mp hother).1
    rw [h.keyring.task_eq hold htask hid] at hother
    obtain ⟨flags', hobject', hsame⟩ := hannounces hover
    cases hobject.symm.trans hobject'
    exact (hthere task htask hne).mp hother
      ⟨effect, blob, hover, hsame.mpr haccepts, m,
        (Keyring.redirects_congr hmessages).mpr hredirects, hmsg⟩
  · intro hundisturbed source hsource hne
    by_cases htask : ∃ t₁, source = .task t₁
    · obtain ⟨t₁, rfl⟩ := htask
      obtain ⟨task, hmem, rfl⟩ := awaits_task.mp (h.awaited _ hsource)
      refine awaits_task.mpr ⟨task, ?_, rfl⟩
      rw [hthere task hmem fun heq => hne (by rw [heq])]
      rintro ⟨effect, blob, hover, hann, m, hredirects, hmsg⟩
      obtain ⟨flags, hobject, hsame⟩ := hannounces hover
      exact hundisturbed env t' result rfl job hjob effect blob flags hover hobject (hsame.mp hann) m
        ((Keyring.redirects_congr hmessages).mp hredirects) task hmem hmsg hsource
    · rw [not_exists] at htask
      rw [awaits_of_ties (ties_foldlM htell) htask]
      exact h.awaited source hsource

theorem tasks_loadCb (conn : Connection.Sender) (blob : Option Blob) :
    (conn.loadCb blob).tasks = conn.tasks := by
  unfold Connection.Sender.loadCb
  split
  · rfl
  · split
    · rfl
    · split <;> rfl

/-- The load of a connection. -/
theorem spares_load {peer cookie : Nat} {blob : Option Blob} (h : Consistent s)
    (hs : s.call ipcEnv fill (.load peer cookie blob) = some s') :
    ∀ source ∈ s.idleSources, source ≠ .load peer cookie → s'.awaits source = true := by
  intro source hsource hne
  obtain ⟨conn, hconn, hs⟩ := Option.bind_eq_some_iff.mp hs
  cases hs
  have hawaited := h.awaited source hsource
  cases source with
  | task t => exact hawaited
  | keygen k => exact hawaited
  | connectQueue => exact hawaited
  | load peer' cookie' =>
    by_cases hpeer : peer' = peer
    · subst hpeer
      have hcookie : cookie' ≠ cookie := fun heq => hne (by rw [heq])
      simp only [Connection.sendStep] at hconn
      split_ifs at hconn
      cases hconn
      simp only [State.awaits, Function.update_self, tasks_loadCb, Bool.and_eq_true,
        List.any_eq_true, decide_eq_true_eq] at hawaited ⊢
      obtain ⟨hthere, task, htask, hid⟩ := hawaited
      refine ⟨hthere, task, ?_, hid⟩
      -- the load that is taken off the list has the other cookie
      obtain ⟨i, hi, rfl⟩ := List.getElem_of_mem htask
      refine List.mem_eraseIdx_iff_getElem.mpr ⟨i, hi, ?_, rfl⟩
      rintro rfl
      have hfound := List.findIdx_getElem (w := hi)
      exact hcookie (hid.symm.trans (of_decide_eq_true hfound))
    · simp only [State.awaits, Function.update_of_ne hpeer] at hawaited ⊢
      exact hawaited

-- The connection to the client stays, with one task less.
theorem tasks_key {conn conn' : Ipc.Conn} {past : List UInt8} {j version stream : Nat}
    {ripe : List UInt8} {address : CString} (h : Ipc.Phase conn past)
    (hs : Ipc.step ipcEnv conn (.key j version stream ripe address) = some conn') :
    j < conn.tasks.length ∧ conn'.tasks = conn.tasks.eraseIdx j := by
  obtain ⟨hopen, hhung⟩ := Ipc.open_of_step hs
  have hserving : Ipc.Serving conn past := by
    cases h with
    | serving h => exact h
    | finished h => rw [h.removed] at hopen; cases hopen
    | refused h => rw [h.removed] at hopen; cases hopen
  cases htask : conn.tasks[j]? with
  | none => simp [Ipc.step, htask] at hs
  | some task =>
    obtain ⟨hj, -⟩ := List.getElem?_eq_some_iff.mp htask
    obtain ⟨t, ht, -, -, -, -, htasks⟩ :=
      hserving.step_key ipcEnv hhung htask version stream ripe address
    obtain rfl := Option.some.inj (hs.symm.trans ht)
    exact ⟨hj, htasks⟩

theorem mem_eraseIdx_idxOf {l : List Nat} {a b : Nat} (h : a ∈ l) (hne : a ≠ b) :
    a ∈ l.eraseIdx (l.idxOf b) := by
  obtain ⟨i, hi, rfl⟩ := List.getElem_of_mem h
  refine List.mem_eraseIdx_iff_getElem.mpr ⟨i, hi, ?_, rfl⟩
  rintro rfl
  exact hne (List.getElem_idxOf hi)

/-- A key that a client asked for. -/
theorem spares_keygen {k : Nat} {key : Key ssl} {address : CString} (h : Consistent s)
    (hs : s.call ipcEnv fill (.keygen k key address) = some s') :
    ∀ source ∈ s.idleSources, source ≠ .keygen k → s'.awaits source = true := by
  intro source hsource hne
  obtain ⟨i, -, hs⟩ := Option.bind_eq_some_iff.mp hs
  obtain ⟨client, hclient, hs⟩ := Option.bind_eq_some_iff.mp hs
  obtain ⟨conn, hconn, hs⟩ := Option.bind_eq_some_iff.mp hs
  cases hs
  have hawaited := h.awaited source hsource
  cases source with
  | task t => exact hawaited
  | load peer cookie => exact hawaited
  | connectQueue => exact hawaited
  | keygen k' =>
    have hk : k' ≠ k := fun heq => hne (by rw [heq])
    obtain ⟨other, hother, hmem⟩ := List.any_eq_true.mp hawaited
    have hmem : k' ∈ other.keygens := of_decide_eq_true hmem
    obtain ⟨j, hj, rfl⟩ := List.getElem_of_mem hother
    obtain ⟨hi, hget⟩ := List.getElem?_eq_some_iff.mp hclient
    refine List.any_eq_true.mpr ?_
    by_cases hij : i = j
    · subst hij
      rw [hget] at hmem
      obtain ⟨past, hphase⟩ := h.clients client (List.mem_of_getElem? hclient)
      obtain ⟨hlt, htasks⟩ := tasks_key hphase hconn
      refine ⟨_, List.mem_iff_getElem.mpr ⟨i, by simpa using hi, List.getElem_set_self _⟩,
        decide_eq_true ?_⟩
      have hlength : conn.tasks.length =
          (client.keygens.eraseIdx (client.keygens.idxOf k)).length := by
        rw [htasks, List.length_eraseIdx_of_lt hlt, List.length_eraseIdx, client.numbered,
          if_pos hlt]
      refine List.mem_append_right _ ?_
      rw [hlength, Nat.sub_self, List.drop_zero]
      exact mem_eraseIdx_idxOf hmem hk
    · refine ⟨s.clients[j], List.mem_iff_getElem.mpr ⟨j, by simpa using hj, ?_⟩, decide_eq_true hmem⟩
      exact List.getElem_set_ne hij _

theorem peers_connectQueueCb {nw nw' : Network.State} {monotonic rand : Nat} {ok : Bool}
    (h : nw.connectQueueCb monotonic rand ok = some nw') :
    ∃ new, nw'.peers = new ++ nw.peers := by
  unfold Network.State.connectQueueCb at h
  dsimp only at h
  split_ifs at h with hdone hnobody
  · cases h
    exact ⟨[], rfl⟩
  · cases h
    exact ⟨[], rfl⟩
  · obtain ⟨addr, -, h⟩ := Option.bind_eq_some_iff.mp h
    cases h
    exact ⟨[_], rfl⟩
  · obtain ⟨addr, -, h⟩ := Option.bind_eq_some_iff.mp h
    cases h
    exact ⟨[], rfl⟩

-- A connection is made, or the queue ends.
theorem spares_connectQueue {monotonic rand : Nat} {ok : Bool} (h : Consistent s)
    (hs : s.call ipcEnv fill (.connectQueue monotonic rand ok) = some s') :
    ∀ source ∈ s.idleSources, source ≠ .connectQueue → s'.awaits source = true := by
  intro source hsource hne
  obtain ⟨network, hnetwork, hs⟩ := Option.bind_eq_some_iff.mp hs
  cases hs
  have hawaited := h.awaited source hsource
  cases source with
  | task t => exact hawaited
  | keygen k => exact hawaited
  | connectQueue => exact absurd rfl hne
  | load peer cookie =>
    simp only [Network.step] at hnetwork
    split_ifs at hnetwork
    obtain ⟨new, hpeers⟩ := peers_connectQueueCb hnetwork
    simp only [State.awaits, Bool.and_eq_true] at hawaited ⊢
    refine ⟨?_, hawaited.2⟩
    rw [Network.State.findPeer, hpeers, List.find?_append, Option.isSome_or]
    exact Bool.or_eq_true_iff.mpr (Or.inr hawaited.1)

/-! ## 4. Whole runs -/

theorem idleSources_call {c : Call ssl} (hs : s.call ipcEnv fill c = some s') :
    s'.idleSources = s.idleSources := by
  cases c with
  | task env t result =>
    obtain ⟨keyring, -, hs⟩ := Option.bind_eq_some_iff.mp hs
    obtain ⟨network, -, hs⟩ := Option.bind_eq_some_iff.mp hs
    cases hs
    rfl
  | keygen k key address =>
    obtain ⟨i, -, hs⟩ := Option.bind_eq_some_iff.mp hs
    obtain ⟨client, -, hs⟩ := Option.bind_eq_some_iff.mp hs
    obtain ⟨conn, -, hs⟩ := Option.bind_eq_some_iff.mp hs
    cases hs
    rfl
  | load peer cookie blob =>
    obtain ⟨conn, -, hs⟩ := Option.bind_eq_some_iff.mp hs
    cases hs
    rfl
  | connectQueue monotonic rand ok =>
    obtain ⟨network, -, hs⟩ := Option.bind_eq_some_iff.mp hs
    cases hs
    rfl

-- What a callback spares is what is still waited for when it is done.
theorem spares_iff_awaits {c : Call ssl} (hs : s.call ipcEnv fill c = some s')
    (hsource : c.source ∈ s.idleSources) :
    Spares ipcEnv fill s (.idle c) ↔
      ∀ source ∈ s.idleSources, source ≠ c.source → s'.awaits source = true := by
  have hstep : step ipcEnv fill s (.idle c) = some s'.refresh := by
    unfold step State.perform
    dsimp only
    rw [if_pos hsource, hs]
    rfl
  have hsame := idleSources_call hs
  constructor
  · intro hspares source hmem hne
    exact (mem_refresh (hsame.symm ▸ hmem)).mp (hspares c rfl _ hstep source hmem hne)
  · rintro hawaits c' ⟨⟩ t ht source hmem hne
    obtain rfl := Option.some.inj (hstep.symm.trans ht)
    exact (mem_refresh (hsame.symm ▸ hmem)).mpr (hawaits source hmem hne)

theorem spares_iff (h : Consistent s) (hs : step ipcEnv fill s e = some s') :
    Spares ipcEnv fill s e ↔ Undisturbed s e := by
  obtain ⟨s₁, hperform, -⟩ := Option.map_eq_some_iff.mp hs
  cases e with
  | idle c =>
    simp only [State.perform] at hperform
    split_ifs at hperform with hsource
    rw [spares_iff_awaits hperform hsource]
    cases c with
    | task env t result => exact spares_task h hperform
    | keygen k key address =>
      exact iff_of_true (spares_keygen h hperform) fun _ _ _ heq => nomatch heq
    | load peer cookie blob =>
      exact iff_of_true (spares_load h hperform) fun _ _ _ heq => nomatch heq
    | connectQueue monotonic rand ok =>
      exact iff_of_true (spares_connectQueue h hperform) fun _ _ _ heq => nomatch heq
  | _ => exact iff_of_true (fun _ heq => nomatch heq) fun _ _ _ heq => nomatch heq

/-- In every run of the program the callbacks of the idle sources spare the other idle sources
exactly if none of them hands over an object that is new to the network and redirects a message whose
own callback is due. -/
theorem idleSources_spared_iff (ipcEnv : Ipc.Env) (fill : Buffer → Memory) (nonce : Nat)
    (defaultAddrs : List Proto.Netaddress) (env : Keyring.Env ssl)
    (keys : List (Keyring.KeyringKey ssl)) (pubkeys : List Blob) (records : List Keyring.Record)
    (events : List (Event ssl)) :
    Along (step ipcEnv fill) (Spares ipcEnv fill)
        (State.new nonce defaultAddrs env keys pubkeys records) events ↔
      Along (step ipcEnv fill) Undisturbed
        (State.new nonce defaultAddrs env keys pubkeys records) events :=
  along_congr (I := Consistent) (fun _ _ _ h hs => h.step hs) (fun _ _ _ h hs => spares_iff h hs)
    (consistent_new nonce defaultAddrs env keys pubkeys records) events

/-! ## 5. A run that removes the callback of a proof of work -/

open Keyring (strangerAddress emptyPubkey sampleEnv sampleAckdata)

/-- The own key of the run. -/
def ownKey : Key .additive := (Crypto.sampleKey 4 Address.four_lt).toKey

/-- Mail for the own key that has the stranger's pubkey for its acknowledgement. -/
def pubkeyMail : MessageFields where
  messageVersion := 1
  senderAddressVersion := 4
  senderStreamNumber := 1
  senderBehaviors := pubkeyBehaviors
  signingKey := addPublicKey .additive ownKey.signingKey
  encryptionKey := addPublicKey .additive ownKey.encryptionKey
  nonceTrialsPerByte := 320
  extraBytes := 14000
  ripe := ownKey.address.ripe
  encoding := 1
  content := []
  ack := Keyring.command .additive (Keyring.State.commandNameForType .pubkey) emptyPubkey.data

def pubkeyMailObject : Blob where
  type := .msg
  data := toBE 8 0 ++ Keyring.State.msgFields sampleEnv 1400000000 ownKey
    { address := ownKey.address
      nonceTrialsPerByte := ownKey.nonceTrialsPerByte
      payloadLengthExtraBytes := ownKey.payloadLengthExtraBytes
      signingKey := OpenSSL.additive.publicKey ownKey.signingKey
      encryptionKey := OpenSSL.additive.publicKey ownKey.encryptionKey } pubkeyMail.encode

/-- The callback of the mail. -/
def mailCallback : Event .additive :=
  .idle (.task sampleEnv 2 (.decrypted
    (Keyring.decryptedMsg sampleEnv Keyring.sampleKeys pubkeyMailObject).join))

/-- Mail for the stranger is on its way to a getpubkey request, whose proof of work is found, and
the mail that brings the pubkey has been decrypted. -/
def dueRequest : List (Event .additive) :=
  [.keyring (.sendMessage ownKey.address [strangerAddress] CInt.one []
      sampleAckdata),
    .finish (.task 0), .idle (.task sampleEnv 0 (.ackdata sampleAckdata)),
    .keyring (.newObject sampleEnv pubkeyMailObject), .finish (.task 1), .finish (.task 2)]

/-- The acknowledgement of the mail redirects the message, and the callback of its proof of work is
removed. -/
theorem dueRequest_not_spared :
    let ipcEnv : Ipc.Env :=
      { behind := fun _ _ => 0, fill := fun _ _ => 0, nonblockError := fun _ => none }
    ¬ Along (step ipcEnv fun _ _ => 0) (Spares ipcEnv fun _ _ => 0)
      (State.new 0 [] sampleEnv Keyring.sampleKeys [] []) (dueRequest ++ [mailCallback]) := by
  intro ipcEnv halong
  have hspares := ((along_append _ _).mp halong).2.1
  have hgone : (step ipcEnv (fun _ _ => 0) (run (step ipcEnv fun _ _ => 0)
      (State.new 0 [] sampleEnv Keyring.sampleKeys [] []) dueRequest) mailCallback).map
        (·.idleSources) = some [] := by
    decide +kernel
  have hdue : .task 1 ∈ (run (step ipcEnv fun _ _ => 0)
      (State.new 0 [] sampleEnv Keyring.sampleKeys [] []) dueRequest).idleSources := by
    decide +kernel
  obtain ⟨s', hs', hnone⟩ := Option.map_eq_some_iff.mp hgone
  have hmem := hspares (Option.isSome_of_eq_some hs') _ rfl s' hs' (.task 1) hdue (by decide)
  rw [hnone] at hmem
  exact List.not_mem_nil hmem

end Notbit.Daemon
