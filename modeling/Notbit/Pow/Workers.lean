import Notbit.Lib.Runs
import Notbit.Pow.Target

/-!
# Workers — the search for a nonce on several threads (`ntb-pow.c`)

One step is what a thread does while it holds the mutex, one round of the search loop, or one
dispatch of the main loop.  A cookie keeps the request it was made for, so that what is delivered
for it can be compared with what was asked; the program itself only keeps the hash and the target.
-/

open Bytes Runs Notbit.Proto

namespace Notbit.Pow

/-! ## 1. Requests -/

/-- An object inside a buffer that waits for its nonce: the object's first eight bytes are the
nonce, the rest is the payload that is hashed.  Its size is far above what a connection admits
(`NTB_CONNECTION_MAX_MESSAGE_SIZE` is 2^27). -/
structure Request where
  data : List UInt8
  start : Nat
  size : Nat
  difficulty : Difficulty
  inside : start + size ≤ data.length
  nonceFits : 8 ≤ size
  bounded : size ≤ 2 ^ 31

/-- The arguments `payload` and `length` of `ntb_pow_calculate`. -/
def Request.payload (r : Request) : List UInt8 := (r.data.drop (r.start + 8)).take (r.size - 8)

/-- The buffer after a callback has copied the nonce into it, most significant byte first. -/
def Request.dataWithNonce (r : Request) (nonce : Nat) : List UInt8 :=
  r.data.take r.start ++ toBE 8 nonce ++ r.data.drop (r.start + 8)

/-- The finished object. -/
def Request.object (r : Request) (nonce : Nat) : List UInt8 :=
  ((r.dataWithNonce nonce).drop r.start).take r.size

-- The object is the nonce followed by the payload that was hashed.
theorem Request.object_eq (r : Request) (nonce : Nat) :
    r.object nonce = toBE 8 nonce ++ r.payload := by
  have hin := r.inside
  have hfit := r.nonceFits
  have hstart : (r.data.take r.start).length = r.start := by
    rw [List.length_take]
    omega
  unfold object dataWithNonce payload
  rw [List.append_assoc, List.drop_append_of_le_length (by omega), List.drop_of_length_le (by omega),
    List.nil_append, List.take_append, length_toBE, List.take_of_length_le (by rw [length_toBE]; omega)]

theorem Request.length_payload (r : Request) : r.payload.length = r.size - 8 := by
  have hin := r.inside
  have hfit := r.nonceFits
  unfold payload
  rw [List.length_take, List.length_drop]
  omega

-- Producer and checker see the same length.
theorem Request.length_object (r : Request) (nonce : Nat) :
    (r.object nonce).length = r.payload.length + 8 := by
  rw [object_eq, List.length_append, length_toBE]
  omega

/-! ## 2. The state -/

/-- `struct ntb_pow_cookie`.  `func` and `user_data` are the request; `held` says whether the caller
may still cancel, and `frees` counts the calls to `ntb_free`. -/
structure Cookie where
  request : Request
  refCount : Int
  nextNonceOffset : Nat
  hash : List UInt8
  target : Nat
  nonce : Nat
  done : Bool
  idleSource : Bool
  held : Bool
  frees : Nat

/-- Where a worker thread is.  `locking` is the point before the mutex is taken again. -/
inductive Worker where
  | waiting
  | searching (cookie nonce i : Nat)
  | solved (cookie nonce : Nat)
  | locking (cookie nonce : Nat)
  | exited
  deriving DecidableEq

structure State where
  cookies : List Cookie
  queue : List Nat
  workers : List Worker
  quit : Bool
  /-- The nonces passed to callbacks, with the cookie each belongs to. -/
  delivered : List (Nat × Nat)

/-- `ntb_pow_new` -/
def State.init (nThreads : Nat) : State :=
  { cookies := [], queue := [], workers := List.replicate nThreads .waiting, quit := false,
    delivered := [] }

def State.setCookie (s : State) (id : Nat) (f : Cookie → Cookie) : State :=
  { s with cookies := s.cookies.modify id f }

def State.setWorker (s : State) (w : Nat) (p : Worker) : State :=
  { s with workers := s.workers.set w p }

/-- `unref_cookie` -/
def Cookie.unref (c : Cookie) : Cookie :=
  { c with
    refCount := c.refCount - 1
    frees := if c.refCount - 1 ≤ 0 then c.frees + 1 else c.frees }

def Cookie.ref (c : Cookie) : Cookie := { c with refCount := c.refCount + 1 }

/-- `remove_queued_cookie` -/
def State.removeQueuedCookie (s : State) (id : Nat) : State :=
  { s with queue := s.queue.erase id }.setCookie id Cookie.unref

/-- `NTB_POW_NONCES_PER_CHECK` -/
def noncesPerCheck : Nat := 4096

/-! ## 3. The steps -/

/-- `ntb_list_insert (pow->queue.next, &cookie->link)`: behind the first entry, if there is one. -/
def insertAfterFirst (queue : List Nat) (id : Nat) : List Nat :=
  match queue with
  | [] => [id]
  | first :: rest => first :: id :: rest

/-- The cookie `ntb_pow_calculate` makes. -/
def Cookie.new (ssl : OpenSSL) (r : Request) : Cookie :=
  { request := r
    refCount := 2
    nextNonceOffset := 0
    hash := ssl.sha512 r.payload
    target := calculateTarget (r.payload.length + 8) r.difficulty.extraBytes
      r.difficulty.trialsPerByte
    nonce := 0
    done := false
    idleSource := false
    held := true
    frees := 0 }

/-- `ntb_pow_calculate` -/
def calculate (ssl : OpenSSL) (s : State) (r : Request) : State :=
  { s with
    cookies := s.cookies ++ [Cookie.new ssl r]
    queue := insertAfterFirst s.queue s.cookies.length }

/-- `ntb_pow_cancel` -/
def cancel (s : State) (id : Nat) (c : Cookie) : State :=
  let s := if c.nextNonceOffset < s.workers.length then s.removeQueuedCookie id else s
  let s := if c.idleSource then s.setCookie id fun c => { c with idleSource := false }.unref else s
  s.setCookie id fun c => { c with done := true, held := false }.unref

/-- `idle_cb`, with the call of the callback at its end.  Both the idle source's reference and the
caller's are dropped. -/
def idleCb (s : State) (id : Nat) (c : Cookie) : State :=
  { s.setCookie id fun c => { c with idleSource := false, held := false }.unref.unref with
    delivered := s.delivered ++ [(id, c.nonce)] }

/-- `set_solution` -/
def Cookie.setSolution (c : Cookie) (nonce : Nat) : Cookie :=
  if c.done then c
  else { c with nonce := nonce, done := true, idleSource := true }.ref

/-- The test at the head of the loop of `find_nonce`; when it fails the function returns and the
thread drops its reference. -/
def testLoop (s : State) (w id nonce : Nat) : State :=
  let done := match s.cookies[id]? with
    | some c => c.done
    | none => false
  if !done && !s.quit then s.setWorker w (.searching id nonce 0)
  else (s.setCookie id Cookie.unref).setWorker w .waiting

/-- A thread takes the first cookie of the queue and starts with the next offset of that cookie. -/
def take (s : State) (w id : Nat) (c : Cookie) : State :=
  let nonceOffset := c.nextNonceOffset
  let s := s.setCookie id fun c => { c.ref with nextNonceOffset := c.nextNonceOffset + 1 }
  let s := if nonceOffset + 1 ≥ s.workers.length then s.removeQueuedCookie id else s
  testLoop s w id nonceOffset

/-- The next step of thread `w`. -/
def workerStep (ssl : OpenSSL) (s : State) (w : Nat) : Option State :=
  match s.workers[w]? with
  | some .waiting =>
    if s.quit then some (s.setWorker w .exited)
    else
      match s.queue with
      | [] => none
      | id :: _ => (s.cookies[id]?).map (take s w id)
  | some (.searching id nonce i) =>
    if i < noncesPerCheck then
      (s.cookies[id]?).map fun c =>
        if powValue ssl (toBE 8 nonce) c.hash ≤ c.target then s.setWorker w (.solved id nonce)
        else s.setWorker w (.searching id ((nonce + s.workers.length) % 2 ^ 64) (i + 1))
    else some (s.setWorker w (.locking id nonce))
  | some (.solved id nonce) =>
    some ((s.setCookie id fun c => c.setSolution nonce).setWorker w (.locking id nonce))
  | some (.locking id nonce) => some (testLoop s w id nonce)
  | some .exited => none
  | none => none

inductive Event where
  | calculate (r : Request)
  | cancel (id : Nat)
  | idle (id : Nat)
  | worker (w : Nat)
  /-- The two halves of `ntb_pow_free`, before and after the threads are joined. -/
  | quit
  | free

def step (ssl : OpenSSL) (s : State) : Event → Option State
  | .calculate r => some (calculate ssl s r)
  | .cancel id =>
    -- a caller may not cancel twice, nor after its callback was invoked
    match s.cookies[id]? with
    | some c => if c.held then some (cancel s id c) else none
    | none => none
  | .idle id =>
    match s.cookies[id]? with
    | some c => if c.idleSource then some (idleCb s id c) else none
    | none => none
  | .worker w => workerStep ssl s w
  | .quit => some { s with quit := true }
  | .free =>
    if s.quit && s.workers.all (· == .exited) then
      some (s.queue.foldl State.removeQueuedCookie s)
    else none

/-! ## 4. What is delivered is a solution -/

variable {ssl : OpenSSL} {s s' : State}

/-- The nonce brings the request's object below the target that was computed for it. -/
def Solves (ssl : OpenSSL) (r : Request) (nonce : Nat) : Prop :=
  powValue ssl (toBE 8 nonce) (ssl.sha512 r.payload) ≤
    calculateTarget (r.payload.length + 8) r.difficulty.extraBytes r.difficulty.trialsPerByte

/-- The cookie is the one of its request, and the nonce that waits to be delivered solves it. -/
structure Cookie.Genuine (ssl : OpenSSL) (c : Cookie) : Prop where
  hash_eq : c.hash = ssl.sha512 c.request.payload
  target_eq : c.target = calculateTarget (c.request.payload.length + 8)
    c.request.difficulty.extraBytes c.request.difficulty.trialsPerByte
  solved : c.idleSource → Solves ssl c.request c.nonce

/-- Cookie `id` was made for a request that `nonce` solves. -/
def State.SolvedBy (ssl : OpenSSL) (s : State) (id nonce : Nat) : Prop :=
  ∃ c, s.cookies[id]? = some c ∧ Solves ssl c.request nonce

structure Inv (ssl : OpenSSL) (s : State) : Prop where
  cookies : ∀ (id : Nat) (c : Cookie), s.cookies[id]? = some c → c.Genuine ssl
  workers : ∀ id nonce, Worker.solved id nonce ∈ s.workers → s.SolvedBy ssl id nonce
  delivered : ∀ d ∈ s.delivered, s.SolvedBy ssl d.1 d.2

/-- A change to a cookie that keeps what it was made for. -/
def KeepsRequest (ssl : OpenSSL) (f : Cookie → Cookie) : Prop :=
  ∀ c, (f c).request = c.request ∧ (c.Genuine ssl → (f c).Genuine ssl)

theorem Cookie.Genuine.of_eq {c c' : Cookie} (h : c.Genuine ssl) (hr : c'.request = c.request)
    (hh : c'.hash = c.hash) (ht : c'.target = c.target)
    (hi : c'.idleSource → c.idleSource ∧ c'.nonce = c.nonce) : c'.Genuine ssl := by
  obtain ⟨h₁, h₂, h₃⟩ := h
  refine ⟨by rw [hr, hh, h₁], by rw [hr, ht, h₂], fun hidle => ?_⟩
  obtain ⟨hidle', hnonce⟩ := hi hidle
  rw [hr, hnonce]
  exact h₃ hidle'

theorem keepsRequest_unref : KeepsRequest ssl Cookie.unref := fun _ =>
  ⟨rfl, fun h => h.of_eq rfl rfl rfl fun hi => ⟨hi, rfl⟩⟩

theorem getElem?_setCookie (s : State) (id j : Nat) (f : Cookie → Cookie) :
    (s.setCookie id f).cookies[j]? = (s.cookies[j]?).map fun c => if id = j then f c else c := by
  simp only [State.setCookie, List.getElem?_modify]
  rfl

theorem State.SolvedBy.setCookie {id j nonce : Nat} {f : Cookie → Cookie}
    (h : s.SolvedBy ssl j nonce) (hf : ∀ c, (f c).request = c.request) :
    (s.setCookie id f).SolvedBy ssl j nonce := by
  obtain ⟨c, hc, hsolves⟩ := h
  refine ⟨if id = j then f c else c, ?_, ?_⟩
  · rw [getElem?_setCookie, hc, Option.map_some]
  · split_ifs
    · rwa [hf]
    · exact hsolves

-- A change of one cookie keeps the invariant when the cookie it meets stays genuine.
theorem Inv.setCookie {id : Nat} {f : Cookie → Cookie} (h : Inv ssl s)
    (hf : ∀ c, (f c).request = c.request)
    (hgen : ∀ c, s.cookies[id]? = some c → (f c).Genuine ssl) : Inv ssl (s.setCookie id f) := by
  constructor
  · intro j c' hc'
    rw [getElem?_setCookie] at hc'
    obtain ⟨c, hc, rfl⟩ := Option.map_eq_some_iff.mp hc'
    split_ifs with hj
    · subst hj
      exact hgen c hc
    · exact h.cookies j c hc
  · intro j nonce hw
    exact (h.workers j nonce hw).setCookie hf
  · intro d hd
    exact (h.delivered d hd).setCookie hf

theorem Inv.keepsRequest {id : Nat} {f : Cookie → Cookie} (h : Inv ssl s)
    (hf : KeepsRequest ssl f) : Inv ssl (s.setCookie id f) :=
  h.setCookie (fun c => (hf c).1) fun c hc => (hf c).2 (h.cookies id c hc)

theorem Inv.setWorker {w : Nat} {p : Worker} (h : Inv ssl s)
    (hp : ∀ id nonce, p = .solved id nonce → s.SolvedBy ssl id nonce) :
    Inv ssl (s.setWorker w p) := by
  refine ⟨h.cookies, fun id nonce hmem => ?_, h.delivered⟩
  rcases List.mem_or_eq_of_mem_set hmem with hold | hnew
  · exact h.workers id nonce hold
  · exact hp id nonce hnew.symm

theorem Inv.setQueue (h : Inv ssl s) (queue : List Nat) : Inv ssl { s with queue := queue } :=
  ⟨h.cookies, h.workers, h.delivered⟩

theorem Inv.removeQueuedCookie (h : Inv ssl s) (id : Nat) : Inv ssl (s.removeQueuedCookie id) :=
  (h.setQueue _).keepsRequest keepsRequest_unref

theorem Inv.removeQueuedCookies (h : Inv ssl s) (ids : List Nat) :
    Inv ssl (ids.foldl State.removeQueuedCookie s) := by
  induction ids generalizing s with
  | nil => exact h
  | cons id ids ih => exact ih (h.removeQueuedCookie id)

theorem Inv.calculate (h : Inv ssl s) (r : Request) : Inv ssl (calculate ssl s r) := by
  have hgrow : ∀ id nonce, s.SolvedBy ssl id nonce →
      (Pow.calculate ssl s r).SolvedBy ssl id nonce := by
    rintro id nonce ⟨c, hc, hsolves⟩
    refine ⟨c, ?_, hsolves⟩
    exact List.getElem?_append_left (List.getElem?_eq_some_iff.mp hc).1 ▸ hc
  constructor
  · intro id c hc
    rcases List.mem_append.mp (List.mem_of_getElem? hc) with hold | hnew
    · obtain ⟨j, hj⟩ := List.mem_iff_getElem?.mp hold
      exact h.cookies j c hj
    · rw [List.mem_singleton.mp hnew]
      exact ⟨rfl, rfl, fun hidle => absurd hidle Bool.false_ne_true⟩
  · exact fun id nonce hw => hgrow id nonce (h.workers id nonce hw)
  · exact fun d hd => hgrow d.1 d.2 (h.delivered d hd)

theorem Inv.cancel (h : Inv ssl s) (id : Nat) (c : Cookie) : Inv ssl (cancel s id c) := by
  have hdone : KeepsRequest ssl fun c => { c with done := true, held := false }.unref := fun _ =>
    ⟨rfl, fun hg => hg.of_eq rfl rfl rfl fun hi => ⟨hi, rfl⟩⟩
  have hidle : KeepsRequest ssl fun c => { c with idleSource := false }.unref := fun _ =>
    ⟨rfl, fun hg => hg.of_eq rfl rfl rfl fun hi => absurd hi Bool.false_ne_true⟩
  unfold Pow.cancel
  apply Inv.keepsRequest _ hdone
  split_ifs
  · exact (h.removeQueuedCookie id).keepsRequest hidle
  · exact h.keepsRequest hidle
  · exact h.removeQueuedCookie id
  · exact h

theorem Inv.idleCb {id : Nat} {c : Cookie} (h : Inv ssl s) (hc : s.cookies[id]? = some c)
    (hidle : c.idleSource) : Inv ssl (idleCb s id c) := by
  have hoff : KeepsRequest ssl fun c =>
      { c with idleSource := false, held := false }.unref.unref := fun _ =>
    ⟨rfl, fun hg => hg.of_eq rfl rfl rfl fun hi => absurd hi Bool.false_ne_true⟩
  have hset : Inv ssl (s.setCookie id fun c =>
      { c with idleSource := false, held := false }.unref.unref) := h.keepsRequest hoff
  obtain ⟨hcookies, hworkers, hdelivered⟩ := hset
  refine ⟨hcookies, hworkers, fun d hd => ?_⟩
  rcases List.mem_append.mp hd with hold | hnew
  · exact hdelivered d hold
  · -- the nonce that is passed on is the one `set_solution` stored
    rw [List.mem_singleton.mp hnew]
    have hsolved : s.SolvedBy ssl id c.nonce := ⟨c, hc, (h.cookies id c hc).solved hidle⟩
    exact hsolved.setCookie fun _ => rfl

theorem Inv.setSolution {id nonce : Nat} (h : Inv ssl s) (hsolved : s.SolvedBy ssl id nonce) :
    Inv ssl (s.setCookie id fun c => c.setSolution nonce) := by
  apply h.setCookie
  · intro c
    unfold Cookie.setSolution
    split_ifs <;> rfl
  · intro c hc
    have hgen := h.cookies id c hc
    unfold Cookie.setSolution
    split_ifs
    · exact hgen
    · refine ⟨hgen.hash_eq, hgen.target_eq, fun _ => ?_⟩
      obtain ⟨c', hc', hsolves⟩ := hsolved
      rw [hc, Option.some.injEq] at hc'
      subst hc'
      exact hsolves

theorem Inv.testLoop (h : Inv ssl s) (w id nonce : Nat) : Inv ssl (testLoop s w id nonce) := by
  unfold Pow.testLoop
  dsimp only
  split_ifs
  · exact h.setWorker fun _ _ he => Worker.noConfusion he
  · exact (h.keepsRequest keepsRequest_unref).setWorker fun _ _ he => Worker.noConfusion he

theorem Inv.take (h : Inv ssl s) (w id : Nat) (c : Cookie) : Inv ssl (take s w id c) := by
  have hnext : KeepsRequest ssl fun c =>
      { c.ref with nextNonceOffset := c.nextNonceOffset + 1 } := fun _ =>
    ⟨rfl, fun hg => hg.of_eq rfl rfl rfl fun hi => ⟨hi, rfl⟩⟩
  unfold Pow.take
  apply Inv.testLoop
  split_ifs
  · exact (h.keepsRequest hnext).removeQueuedCookie id
  · exact h.keepsRequest hnext

theorem Inv.workerStep {w : Nat} (h : Inv ssl s) (hs : workerStep ssl s w = some s') :
    Inv ssl s' := by
  unfold Pow.workerStep at hs
  split at hs
  next =>
    split_ifs at hs
    · rw [← Option.some.inj hs]
      exact h.setWorker fun _ _ he => Worker.noConfusion he
    · split at hs
      next => exact absurd hs (by simp)
      next id rest hq =>
        obtain ⟨c, -, rfl⟩ := Option.map_eq_some_iff.mp hs
        exact h.take w id c
  next id nonce i hw =>
    split_ifs at hs
    · obtain ⟨c, hc, rfl⟩ := Option.map_eq_some_iff.mp hs
      split_ifs with hle
      · -- the worker's own comparison is the one the request asks for
        have hgen := h.cookies id c hc
        rw [hgen.hash_eq, hgen.target_eq] at hle
        apply h.setWorker
        rintro id' nonce' he
        obtain ⟨rfl, rfl⟩ := Worker.solved.inj he
        exact ⟨c, hc, hle⟩
      · exact h.setWorker fun _ _ he => Worker.noConfusion he
    · rw [← Option.some.inj hs]
      exact h.setWorker fun _ _ he => Worker.noConfusion he
  next id nonce hw =>
    rw [← Option.some.inj hs]
    exact (h.setSolution (h.workers id nonce (List.mem_of_getElem? hw))).setWorker
      fun _ _ he => Worker.noConfusion he
  next id nonce hw =>
    rw [← Option.some.inj hs]
    exact h.testLoop w id nonce
  next => exact absurd hs (by simp)
  next => exact absurd hs (by simp)

theorem Inv.step {e : Event} (h : Inv ssl s) (hs : step ssl s e = some s') : Inv ssl s' := by
  cases e with
  | calculate r =>
    rw [← Option.some.inj hs]
    exact h.calculate r
  | cancel id =>
    simp only [Pow.step] at hs
    split at hs
    next c hc =>
      split_ifs at hs
      rw [← Option.some.inj hs]
      exact h.cancel id c
    next => exact absurd hs (by simp)
  | idle id =>
    simp only [Pow.step] at hs
    split at hs
    next c hc =>
      split_ifs at hs with hidle
      rw [← Option.some.inj hs]
      exact h.idleCb hc hidle
    next => exact absurd hs (by simp)
  | worker w => exact h.workerStep hs
  | quit =>
    rw [← Option.some.inj hs]
    exact ⟨h.cookies, h.workers, h.delivered⟩
  | free =>
    simp only [Pow.step] at hs
    split_ifs at hs
    rw [← Option.some.inj hs]
    exact h.removeQueuedCookies s.queue

theorem Inv.init (nThreads : Nat) : Inv ssl (State.init nThreads) := by
  refine ⟨?_, ?_, ?_⟩
  · intro id c hc
    simp [State.init] at hc
  · intro id nonce hw
    exact absurd (List.eq_of_mem_replicate hw) (by simp)
  · intro d hd
    simp [State.init] at hd

/-! ## 5. Delivered nonces pass the check -/

-- The minimum difficulty accepts what a caller's difficulty was solved with.
theorem powCheck_of_solves {r : Request} {nonce : Nat} (h : Solves ssl r nonce) :
    powCheck ssl (r.object nonce) minExtraBytes minNonceTrialsPerByte = some true := by
  have hfit := r.nonceFits
  have hbound := r.bounded
  have hlen := r.length_payload
  obtain ⟨he, he'⟩ := r.difficulty.extraBytes_bounds
  obtain ⟨ht, ht'⟩ := r.difficulty.trialsPerByte_bounds
  have htarget : calculateTarget (r.payload.length + 8) r.difficulty.extraBytes
      r.difficulty.trialsPerByte ≤
        calculateTarget (r.payload.length + 8) minExtraBytes minNonceTrialsPerByte :=
    calculateTarget_antitone (by omega) (le_refl _) he he' (le_refl _) ht ht'
  have htake : (r.object nonce).take 8 = toBE 8 nonce := by
    rw [r.object_eq, List.take_left' (length_toBE 8 nonce)]
  have hdrop : (r.object nonce).drop 8 = r.payload := by
    rw [r.object_eq, List.drop_left' (length_toBE 8 nonce)]
  unfold powCheck
  rw [if_neg (by rw [r.length_object]; omega), htake, hdrop, r.length_object]
  simp only [Option.some.injEq, decide_eq_true_eq]
  exact le_trans h htarget

/-- Every nonce that was delivered belongs to a request, and the object it finishes is accepted
under the minimum parameters. -/
def DeliveriesAccepted (ssl : OpenSSL) (s : State) : Prop :=
  ∀ d ∈ s.delivered, ∃ c, s.cookies[d.1]? = some c ∧
    powCheck ssl (c.request.object d.2) minExtraBytes minNonceTrialsPerByte = some true

/-- Both sides of a request divide 2^64 exactly: by the same length, by a divisor that is neither
zero nor wrapped, and with a larger quotient under the minimum parameters. -/
def TargetsExact (r : Request) : Prop :=
  let minProduct := (r.size + minExtraBytes) * minNonceTrialsPerByte
  let product := (r.size + r.difficulty.extraBytes.toNat) * r.difficulty.trialsPerByte.toNat
  r.payload.length + 8 = r.size ∧ (∀ nonce, (r.object nonce).length = r.size) ∧
    0 < minProduct ∧ minProduct ≤ product ∧ product < 2 ^ 64 ∧
    targetDivisor r.size minExtraBytes minNonceTrialsPerByte = minProduct ∧
    targetDivisor r.size r.difficulty.extraBytes r.difficulty.trialsPerByte = product ∧
    calculateTarget r.size minExtraBytes minNonceTrialsPerByte = 2 ^ 64 / minProduct ∧
    calculateTarget r.size r.difficulty.extraBytes r.difficulty.trialsPerByte =
      2 ^ 64 / product ∧
    2 ^ 64 / product ≤ 2 ^ 64 / minProduct

theorem targetsExact (r : Request) : TargetsExact r := by
  have hfit := r.nonceFits
  have hbound := r.bounded
  have hlen := r.length_payload
  obtain ⟨he, he'⟩ := r.difficulty.extraBytes_bounds
  obtain ⟨ht, ht'⟩ := r.difficulty.trialsPerByte_bounds
  have hprod := product_lt hbound he' ht'
  have hpos : 0 < (r.size + minExtraBytes) * minNonceTrialsPerByte :=
    Nat.mul_pos (by unfold minExtraBytes; omega) (by decide)
  have hle : (r.size + minExtraBytes) * minNonceTrialsPerByte ≤
      (r.size + r.difficulty.extraBytes.toNat) * r.difficulty.trialsPerByte.toNat :=
    Nat.mul_le_mul (by omega) (by omega)
  refine ⟨by omega, fun nonce => by rw [r.length_object]; omega, hpos, hle, by omega, ?_, ?_, ?_,
    ?_, Nat.div_le_div_left hle hpos⟩
  · exact targetDivisor_eq hbound (by decide) (by decide) (by decide) (by decide)
  · unfold minExtraBytes at he
    unfold minNonceTrialsPerByte at ht
    exact targetDivisor_eq hbound (by omega) he' (by omega) ht'
  · exact calculateTarget_eq hbound (le_refl _) (by decide) (le_refl _) (by decide)
  · exact calculateTarget_eq hbound he he' ht ht'

/-- In every run of the workers, every delivered nonce finishes an object that the network
accepts; and for every request the targets are computed exactly. -/
theorem delivered_nonce_accepted (ssl : OpenSSL) (nThreads : Nat) (events : List Event) :
    DeliveriesAccepted ssl (run (step ssl) (State.init nThreads) events) ∧
      ∀ r : Request, TargetsExact r := by
  have hinv : Inv ssl (run (step ssl) (State.init nThreads) events) :=
    invariant (fun _ _ _ h hs => h.step hs) (Inv.init nThreads) events
  refine ⟨fun d hd => ?_, targetsExact⟩
  obtain ⟨c, hc, hsolves⟩ := hinv.delivered d hd
  exact ⟨c, hc, powCheck_of_solves hsolves⟩

end Notbit.Pow
