import Notbit.Keyring.Cookies
import Notbit.Keyring.PubkeyRuns

/-!
# Cancels — the tasks that a callback takes from other messages (`ntb-keyring.c`)

A task ends with its callback, or it is cancelled with the message it is for.  What a callback hands
to the network comes back as an object, and an object can free a message or give it a pubkey to try;
these messages lose their tasks, and nothing else loses one.
-/

open Bytes Traced Notbit.Proto

namespace Notbit.Keyring

variable {ssl : OpenSSL} {loads strict : Prop} {env : Env ssl} {s s' s'' : State ssl}
  {m : Message ssl} {p : Nat}

/-! ## 1. Tasks that are gone -/

/-- Of the tasks that were requested before, exactly those that `gone` tells of are gone now. -/
structure Drops (s s' : State ssl) (gone : Nat × Job ssl → Prop) : Prop where
  nextTask : s.nextTask ≤ s'.nextTask
  tasks : ∀ task : Nat × Job ssl, task.1 < s.nextTask →
    (task ∈ s'.tasks ↔ task ∈ s.tasks ∧ ¬ gone task)

/-- No task is gone. -/
def Keeps (s s' : State ssl) : Prop := Drops s s' fun _ => False

theorem Drops.congr {gone gone' : Nat × Job ssl → Prop} (h : Drops s s' gone)
    (heq : ∀ task ∈ s.tasks, gone task ↔ gone' task) : Drops s s' gone' where
  nextTask := h.nextTask
  tasks task hlt := by
    rw [h.tasks task hlt]
    exact and_congr_right fun ht => not_congr (heq task ht)

theorem Drops.trans {gone gone' : Nat × Job ssl → Prop} (h : Drops s s' gone)
    (h' : Drops s' s'' gone') : Drops s s'' fun task => gone task ∨ gone' task where
  nextTask := h.nextTask.trans h'.nextTask
  tasks task hlt := by
    rw [h'.tasks task (hlt.trans_le h.nextTask), h.tasks task hlt, not_or, and_assoc]

theorem Drops.keeps {gone : Nat × Job ssl → Prop} (h : Drops s s' gone) (h' : Keeps s' s'') :
    Drops s s'' gone :=
  (h.trans h').congr fun _ _ => or_iff_left id

theorem Keeps.drops {gone : Nat × Job ssl → Prop} (h : Keeps s s') (h' : Drops s' s'' gone) :
    Drops s s'' gone :=
  (h.trans h').congr fun _ _ => or_iff_right id

theorem Keeps.trans (h : Keeps s s') (h' : Keeps s' s'') : Keeps s s'' := Drops.keeps h h'

theorem keeps_of_eq (htasks : s'.tasks = s.tasks) (hnext : s'.nextTask = s.nextTask) :
    Keeps s s' where
  nextTask := hnext.ge
  tasks task _ := by rw [htasks, not_false_eq_true, and_true]

theorem Keeps.refl (s : State ssl) : Keeps s s := keeps_of_eq rfl rfl

theorem keeps_of_core (hcore : s'.core = s.core) : Keeps s s' :=
  keeps_of_eq (congrArg (·.2.2.1) hcore) (congrArg (·.2.2.2.1) hcore)

theorem keeps_emit (s : State ssl) (effects : List (Effect ssl)) : Keeps s (s.emit effects) :=
  keeps_of_eq rfl rfl

theorem keeps_request (s : State ssl) (job : Job ssl) : Keeps s (s.request job).2 where
  nextTask := Nat.le_succ _
  tasks task hlt := by
    rw [not_false_eq_true, and_true]
    refine ⟨fun ht => ?_, fun ht => List.mem_append_left _ ht⟩
    rcases List.mem_append.mp ht with hold | hnew
    · exact hold
    · rw [List.mem_singleton.mp hnew] at hlt
      exact absurd hlt (lt_irrefl _)

-- A request and the message that waits for it.
theorem keeps_requestFor (s : State ssl) (job : Job ssl) (m : Message ssl) :
    Keeps s ((s.request job).2.setMessage m) :=
  (keeps_request s job).trans (keeps_of_eq rfl rfl)

theorem drops_cancel (s : State ssl) (cookie : Option Nat) :
    Drops s (s.cancel cookie) fun task => some task.1 = cookie where
  nextTask := le_rfl
  tasks task _ := by
    rw [State.cancel, List.mem_filter, decide_eq_true_eq]

-- The tasks of a message end together.
theorem drops_cancelAll (h : Inv loads strict s none) (hm : m ∈ s.messages) :
    Drops s (s.cancelAll m) fun task => task.2.message = some m.id := by
  have hof : ∀ task ∈ s.tasks, task ∈ s.tasksOf m.id ↔ task.2.message = some m.id :=
    fun task ht => by
      rw [State.tasksOf, List.mem_filter, decide_eq_true_eq]
      exact and_iff_right ht
  rcases h.working m hm (by simp) with hquiet | ⟨⟨t, job⟩, ht, hwaits⟩
  · rw [State.cancelAll_none s hquiet.1]
    refine Drops.congr (Keeps.refl s) fun task htask => ?_
    rw [← hof task htask, h.tasksOf_quiet hm hquiet]
    exact (iff_false_intro List.not_mem_nil).symm
  · rw [hwaits.cancelAll]
    refine (drops_cancel s (some t)).congr fun task htask => ?_
    rw [← hof task htask, h.tasksOf_eq hm ht hwaits, List.mem_singleton]
    constructor
    · intro heq
      exact h.task_eq htask ht (Option.some.inj heq)
    · rintro rfl
      rfl

/-! ## 2. Where a message goes next -/

theorem keeps_postMessage (env : Env ssl) (s : State ssl) (m : Message ssl) :
    Keeps s (s.postMessage env m) := by
  unfold State.postMessage
  split_ifs
  · exact keeps_of_eq rfl rfl
  · exact keeps_requestFor s _ _

theorem keeps_sendGetpubkeyRequest (env : Env ssl) (s : State ssl) (m : Message ssl) :
    Keeps s (s.sendGetpubkeyRequest env m) := by
  unfold State.sendGetpubkeyRequest
  split_ifs
  · exact keeps_of_eq rfl rfl
  · exact keeps_requestFor s _ _

theorem keeps_setTrying (s : State ssl) (m : Message ssl) (p : Nat) :
    Keeps s (s.setTrying m p).1 :=
  (keeps_of_core (State.core_unrefTrying s m)).trans (keeps_of_eq rfl rfl)

theorem keeps_tryPubkeyBlobForMessage (hs : s.tryPubkeyBlobForMessage env m p = some s') :
    Keeps s s' := by
  refine (keeps_setTrying s m p).trans ?_
  simp only [State.tryPubkeyBlobForMessage] at hs
  split at hs
  · cases hs
  · cases hs
    exact keeps_requestFor _ _ _
  · cases hs
    exact keeps_requestFor _ _ _

theorem keeps_tryGroup (env : Env ssl) (group : List Nat) (s : State ssl) (m : Message ssl) :
    Keeps s (s.tryGroup env group m) := by
  induction group generalizing s m with
  | nil => exact keeps_sendGetpubkeyRequest env s m
  | cons p group ih =>
    unfold State.tryGroup
    split
    next s' hs => exact keeps_tryPubkeyBlobForMessage hs
    next => exact (keeps_setTrying s m p).trans (ih _ _)

theorem keeps_loadOrPost (env : Env ssl) (s : State ssl) (m : Message ssl) :
    Keeps s (s.loadOrPost env m) := by
  unfold State.loadOrPost
  split
  · exact keeps_tryGroup env _ s m
  · exact keeps_postMessage env s m

theorem keeps_abandonPubkey (hs : s.abandonPubkey env m = some s') : Keeps s s' := by
  obtain ⟨p, -, hs⟩ := Option.bind_eq_some_iff.mp hs
  cases hs
  exact (keeps_of_core (State.core_removePubkeyBlob p)).trans (keeps_tryGroup env _ _ m)

theorem keeps_addPublicKey (s : State ssl) (key : PublicKey ssl) : Keeps s (s.addPublicKey key) := by
  unfold State.addPublicKey
  split_ifs
  · exact .refl s
  · exact keeps_of_eq rfl rfl

theorem keeps_handleGetpubkey (env : Env ssl) (s : State ssl) (blob : Blob) :
    Keeps s (s.handleGetpubkey env blob) := by
  rcases State.handleGetpubkey_cases (s := s) (e := env) blob with heq | ⟨i, key, heq⟩
  · rw [heq]
    exact .refl s
  · rw [heq]
    unfold State.maybePostKey
    split_ifs
    · exact .refl s
    · refine Keeps.trans ?_ (keeps_request _ _)
      exact keeps_of_eq rfl rfl

theorem keeps_addPublicKeyFromNetworkKeys (s : State ssl) (address : Address)
    (signingKey encryptionKey : List UInt8) (nonceTrialsPerByte extraBytes : Nat) :
    Keeps s (s.addPublicKeyFromNetworkKeys address signingKey encryptionKey nonceTrialsPerByte
      extraBytes) := by
  unfold State.addPublicKeyFromNetworkKeys
  split_ifs
  · exact .refl s
  · exact keeps_request s _

/-- What the keyring made for a message is handed to the network. -/
theorem keeps_addOwnBlob (env : Env ssl) (s : State ssl) (message : Option (Message ssl))
    {blob : Blob}
    (hown : blob.type = .getpubkey ∨ blob.type = .msg ∧ 27 + ackdataSize < blob.data.length) :
    Keeps s (s.addBlob env message blob) := by
  have hemit : Keeps s (s.emit [.addBlob message blob]) := keeps_emit s _
  refine hemit.trans ?_
  unfold State.addBlob State.announce
  split_ifs
  · rcases hown with htype | ⟨htype, hlong⟩
    · rw [State.newObjectCb, htype]
      exact keeps_handleGetpubkey env _ blob
    · rw [State.newObjectCb, htype]
      rcases handleMsg_of_long (s := s.emit [.addBlob message blob]) hlong with heq | ⟨time, heq⟩
      · rw [heq]
        exact .refl _
      · rw [heq]
        exact keeps_request _ _
  · exact .refl _

/-! ## 3. Objects of the network -/

/-- The object frees the message or gives it a pubkey to try. -/
inductive Redirects (s : State ssl) (blob : Blob) (m : Message ssl) : Prop where
  | acknowledged {nonce timestamp stream headerLength : Nat} (htype : blob.type = .msg)
    (hheader : (getCommand 0 (blob.data.length % 2 ^ 32) msgHeader).value (ofList blob.data) =
      .ok ([.num nonce, .num timestamp, .num stream], headerLength))
    (hm : s.acknowledgedMessage (blob.data.drop headerLength) = some m) : Redirects s blob m
  | sought {entry : PubkeyEntry} (htype : blob.type = .pubkey)
    (hentry : State.pubkeyEntry ssl blob = some entry) (hm : m ∈ s.messages)
    (hstate : m.state = .calculatingGetpubkeyPow ∨ m.state = .awaitingPubkey)
    (htag : m.ripeOrTag = entry.ripeOrTag) : Redirects s blob m

namespace State

/-- The messages with other numbers. -/
def others (s : State ssl) (id : Nat) : List (Message ssl) := s.messages.filter (·.id ≠ id)

theorem others_congr (h : s'.messages = s.messages) (id : Nat) : s'.others id = s.others id := by
  rw [others, others, h]

theorem others_setMessage (s : State ssl) (m : Message ssl) :
    (s.setMessage m).others m.id = s.others m.id := by
  unfold others setMessage
  dsimp only
  induction s.messages with
  | nil => rfl
  | cons old messages ih =>
    rw [List.map_cons, List.filter_cons, List.filter_cons, ih]
    by_cases hid : old.id = m.id
    · simp [hid]
    · simp [hid]

theorem others_setTrying (s : State ssl) (m : Message ssl) (p : Nat) :
    (s.setTrying m p).1.others m.id = s.others m.id :=
  (others_setMessage _ (s.setTrying m p).2).trans
    (others_congr (congrArg (·.1) (core_unrefTrying s m)) m.id)

theorem others_tryPubkeyBlobForMessage (hs : s.tryPubkeyBlobForMessage env m p = some s') :
    s'.others m.id = s.others m.id := by
  rw [← others_setTrying s m p]
  simp only [tryPubkeyBlobForMessage] at hs
  split at hs
  · cases hs
  · cases hs
    exact others_setMessage _ _
  · cases hs
    exact others_setMessage _ _

theorem others_cancelMessageTasks (s : State ssl) (m : Message ssl) :
    (s.cancelMessageTasks m).1.others m.id = s.others m.id :=
  (others_setMessage _ (s.cancelMessageTasks m).2).trans
    (others_congr (congrArg (·.1) (core_unrefTrying (s.cancelAll m) m)) m.id)

theorem ripeOrTagOf_setTrying (s : State ssl) (m : Message ssl) (p : Nat) :
    (s.setTrying m p).1.ripeOrTagOf = s.ripeOrTagOf := by
  have hunref : (s.unrefTrying m).ripeOrTagOf = s.ripeOrTagOf :=
    congrArg (·.2.2.2.2.2.1) (uncounted_unrefTrying (s := s) (m := m))
  rw [← hunref]
  exact congrArg (·.2.2.2.2.2.1) (uncounted_update (s.unrefTrying m) p _)

theorem ripeOrTagOf_tryPubkeyBlobForMessage (hs : s.tryPubkeyBlobForMessage env m p = some s') :
    s'.ripeOrTagOf = s.ripeOrTagOf := by
  rw [← ripeOrTagOf_setTrying s m p]
  simp only [tryPubkeyBlobForMessage] at hs
  split at hs <;> cases hs <;> rfl

theorem ripeOrTagOf_cancelMessageTasks (s : State ssl) (m : Message ssl) :
    (s.cancelMessageTasks m).1.ripeOrTagOf = s.ripeOrTagOf :=
  congrArg (·.2.2.2.2.2.1) (uncounted_unrefTrying (s := s.cancelAll m) (m := m))

/-- The message waits for a pubkey such as this one. -/
def Seeks (s : State ssl) (p : Nat) (m : Message ssl) : Prop :=
  (m.state = .calculatingGetpubkeyPow ∨ m.state = .awaitingPubkey) ∧ m.ripeOrTag = s.ripeOrTagOf p

end State

/-- One round of the loop: the message may lose its task, and the others are as they were. -/
theorem drops_checkPubkeyBlobWithMessage (h : Inv loads strict s none)
    (hfound : env.locate (s.hashOf p) ≠ .nowhere) (id : Nat) :
    Drops s (s.checkPubkeyBlobWithMessage env p id)
        (fun task => ∃ m ∈ s.messages, m.id = id ∧ s.Seeks p m ∧ task.2.message = some m.id) ∧
      (s.checkPubkeyBlobWithMessage env p id).others id = s.others id ∧
      (s.checkPubkeyBlobWithMessage env p id).ripeOrTagOf = s.ripeOrTagOf := by
  unfold State.checkPubkeyBlobWithMessage
  split
  next hnone =>
    refine ⟨Drops.congr (Keeps.refl s) fun task _ => ?_, rfl, rfl⟩
    refine (iff_false_intro ?_).symm
    rintro ⟨m, hm, hid, -⟩
    simpa [hid] using List.find?_eq_none.mp hnone m hm
  next m hfind =>
    have hm := List.mem_of_find?_eq_some hfind
    have hid := List.find?_some hfind
    obtain rfl : m.id = id := of_decide_eq_true hid
    have honly : ∀ task : Nat × Job ssl,
        (∃ m' ∈ s.messages, m'.id = m.id ∧ s.Seeks p m' ∧ task.2.message = some m'.id) ↔
          s.Seeks p m ∧ task.2.message = some m.id := by
      intro task
      constructor
      · rintro ⟨m', hm', hid, hrest⟩
        rwa [h.eq_of_id hm' hm hid] at hrest
      · exact fun hrest => ⟨m, hm, rfl, hrest⟩
    split_ifs with hseeks
    · have hcancel : Drops s (s.cancelMessageTasks m.interrupt).1
          fun task => task.2.message = some m.id :=
        (drops_cancelAll h hm).keeps
          ((keeps_of_core (State.core_unrefTrying (s.cancelAll m) m)).trans (keeps_of_eq rfl rfl))
      have hgone : ∀ task ∈ s.tasks, task.2.message = some m.id ↔
          ∃ m' ∈ s.messages, m'.id = m.id ∧ s.Seeks p m' ∧ task.2.message = some m'.id :=
        fun task _ => (and_iff_right hseeks).symm.trans (honly task).symm
      have hothers := State.others_cancelMessageTasks s m.interrupt
      have htags := State.ripeOrTagOf_cancelMessageTasks s m.interrupt
      dsimp only
      split
      next s' hs =>
        refine ⟨(hcancel.keeps (keeps_tryPubkeyBlobForMessage hs)).congr hgone, ?_, ?_⟩
        · exact (State.others_tryPubkeyBlobForMessage hs).trans hothers
        · exact (State.ripeOrTagOf_tryPubkeyBlobForMessage hs).trans htags
      next hs =>
        have hnowhere := State.tryPubkeyBlobForMessage_eq_none.mp hs
        rw [State.hashOf_cancelMessageTasks] at hnowhere
        exact absurd hnowhere hfound
    · refine ⟨Drops.congr (Keeps.refl s) fun task _ => ?_, rfl, rfl⟩
      exact (iff_false_intro fun hex => hseeks ((honly task).mp hex).1).symm

/-- The loop: each message is looked at once, as it was before the loop. -/
theorem drops_checkRounds {ids : List Nat} (h : Inv loads strict s none) (hids : ids.Nodup)
    (hfound : env.locate (s.hashOf p) ≠ .nowhere) :
    Drops s (ids.foldl (State.checkPubkeyBlobWithMessage env p) s)
      fun task => ∃ m ∈ s.messages, m.id ∈ ids ∧ s.Seeks p m ∧ task.2.message = some m.id := by
  induction ids generalizing s with
  | nil => exact Drops.congr (Keeps.refl s) fun task _ => by simp
  | cons id ids ih =>
    obtain ⟨hnew, hids⟩ := List.nodup_cons.mp hids
    obtain ⟨hinv, hhash⟩ := h.checkPubkeyBlobWithMessage hfound id
    obtain ⟨hround, hothers, htags⟩ := drops_checkPubkeyBlobWithMessage h hfound id
    refine (hround.trans (ih hinv hids (by rw [hhash]; exact hfound))).congr fun task _ => ?_
    -- the messages that come later have other numbers
    have hsame : ∀ m : Message ssl, m.id ∈ ids →
        (m ∈ (s.checkPubkeyBlobWithMessage env p id).messages ↔ m ∈ s.messages) := by
      intro m hm
      have hne : m.id ≠ id := fun heq => hnew (heq ▸ hm)
      have hmem := congrArg (m ∈ ·) hothers
      simpa [State.others, hne] using hmem
    constructor
    · rintro (⟨m, hm, hid, hrest⟩ | ⟨m, hm, hid, hseeks, hmsg⟩)
      · exact ⟨m, hm, hid ▸ List.mem_cons_self, hrest⟩
      · rw [State.Seeks, htags] at hseeks
        exact ⟨m, (hsame m hid).mp hm, List.mem_cons_of_mem id hid, hseeks, hmsg⟩
    · rintro ⟨m, hm, hid, hseeks, hmsg⟩
      rcases List.mem_cons.mp hid with hid | hid
      · exact Or.inl ⟨m, hm, hid, hseeks, hmsg⟩
      · refine Or.inr ⟨m, (hsame m hid).mpr hm, hid, ?_, hmsg⟩
        rw [State.Seeks, htags]
        exact hseeks

theorem ripeOrTagOf_insertPubkeyBlob (s : State ssl) (entry : PubkeyEntry) :
    (s.insertPubkeyBlob entry).2.ripeOrTagOf (s.insertPubkeyBlob entry).1 = entry.ripeOrTag := by
  simp only [State.insertPubkeyBlob]
  split <;> simp [State.ripeOrTagOf]

theorem hash_pubkeyEntry {blob : Blob} {entry : PubkeyEntry}
    (h : State.pubkeyEntry ssl blob = some entry) : entry.hash = doubleHash ssl blob.data := by
  simp only [State.pubkeyEntry] at h
  split at h
  · cases h
  · cases h
    rfl

theorem drops_handlePubkey {blob : Blob} (h : Inv loads strict s none) (htype : blob.type = .pubkey)
    (hfound : env.locate (doubleHash ssl blob.data) ≠ .nowhere) :
    Drops s (s.handlePubkey env blob)
      fun task => ∃ m, Redirects s blob m ∧ task.2.message = some m.id := by
  unfold State.handlePubkey
  split
  next hnone =>
    refine Drops.congr (Keeps.refl s) fun task _ => (iff_false_intro ?_).symm
    rintro ⟨m, hredirects, -⟩
    cases hredirects with
    | acknowledged hmsg => rw [htype] at hmsg; cases hmsg
    | sought _ hentry => rw [hnone] at hentry; cases hentry
  next entry hentry =>
    have hcore := State.core_insertPubkeyBlob (s := s) entry
    have hmessages : (s.insertPubkeyBlob entry).2.messages = s.messages := congrArg (·.1) hcore
    have htag := ripeOrTagOf_insertPubkeyBlob s entry
    have hhash := State.hashOf_insertPubkeyBlob (s := s) entry
    rw [← hash_pubkeyEntry hentry, ← hhash] at hfound
    have hinv := h.congr hcore
    have hrounds := drops_checkRounds hinv hinv.messageIds hfound
    refine ((keeps_of_core hcore).drops hrounds).congr fun task _ => ?_
    rw [hmessages]
    unfold State.Seeks
    rw [htag]
    constructor
    · rintro ⟨m, hm, -, ⟨hstate, htag⟩, hmsg⟩
      exact ⟨m, .sought htype hentry hm hstate htag, hmsg⟩
    · rintro ⟨m, hredirects, hmsg⟩
      cases hredirects with
      | acknowledged hmsg => rw [htype] at hmsg; cases hmsg
      | sought _ hentry' hm hstate htag =>
        obtain rfl := Option.some.inj (hentry.symm.trans hentry')
        exact ⟨m, hm, List.mem_map.mpr ⟨m, hm, rfl⟩, ⟨hstate, htag⟩, hmsg⟩

theorem drops_messageAcknowledged (h : Inv loads strict s none) (hm : m ∈ s.messages) :
    Drops s (s.messageAcknowledged m) fun task => task.2.message = some m.id := by
  refine (drops_cancelAll h hm).keeps ?_
  refine (keeps_of_core (State.core_unrefTrying (s.cancelAll m) m)).trans ?_
  unfold State.messageAcknowledged State.maybeDeleteMessageContent
  split_ifs
  · exact keeps_of_eq rfl rfl
  · exact keeps_of_eq rfl rfl

theorem drops_handleMsg {blob : Blob} (h : Inv loads strict s none) (htype : blob.type = .msg) :
    Drops s (s.handleMsg blob)
      fun task => ∃ m, Redirects s blob m ∧ task.2.message = some m.id := by
  have hnever : (∀ m, ¬ Redirects s blob m) → ∀ task ∈ s.tasks,
      False ↔ ∃ m, Redirects s blob m ∧ task.2.message = some m.id :=
    fun hno task _ => (iff_false_intro fun ⟨m, hm, _⟩ => hno m hm).symm
  unfold State.handleMsg
  split
  next nonce timestamp stream headerLength hheader =>
    split
    next m hfind =>
      refine (drops_messageAcknowledged h (mem_of_acknowledgedMessage hfind)).congr fun task _ => ?_
      constructor
      · exact fun hmsg => ⟨m, .acknowledged htype hheader hfind, hmsg⟩
      · rintro ⟨m', hredirects, hmsg⟩
        cases hredirects with
        | acknowledged _ hheader' hfind' =>
          cases hheader.symm.trans hheader'
          obtain rfl := Option.some.inj (hfind.symm.trans hfind')
          exact hmsg
        | sought hpubkey => rw [htype] at hpubkey; cases hpubkey
    next hnone =>
      refine Drops.congr (keeps_request s _) (hnever fun m hredirects => ?_)
      cases hredirects with
      | acknowledged _ hheader' hfind' =>
        cases hheader.symm.trans hheader'
        rw [hnone] at hfind'
        cases hfind'
      | sought hpubkey => rw [htype] at hpubkey; cases hpubkey
  next hother =>
    refine Drops.congr (Keeps.refl s) (hnever fun m hredirects => ?_)
    cases hredirects with
    | acknowledged _ hheader' _ => exact hother _ _ _ _ hheader'
    | sought hpubkey => rw [htype] at hpubkey; cases hpubkey

/-- An object takes the tasks of the messages that it redirects, and no others. -/
theorem drops_newObjectCb {blob : Blob} (h : Inv loads strict s none)
    (hann : env.announces blob = true) :
    Drops s (s.newObjectCb env blob)
      fun task => ∃ m, Redirects s blob m ∧ task.2.message = some m.id := by
  have hnever : blob.type ≠ .msg → blob.type ≠ .pubkey → ∀ task ∈ s.tasks,
      False ↔ ∃ m, Redirects s blob m ∧ task.2.message = some m.id := by
    intro hmsg hpubkey task _
    refine (iff_false_intro ?_).symm
    rintro ⟨m, hredirects, -⟩
    cases hredirects with
    | acknowledged htype => exact hmsg htype
    | sought htype => exact hpubkey htype
  unfold State.newObjectCb
  split
  next htype =>
    exact Drops.congr (keeps_handleGetpubkey env s blob) (hnever (by simp [htype]) (by simp [htype]))
  next htype => exact drops_handlePubkey h htype (env.announced blob hann htype)
  next htype => exact drops_handleMsg h htype
  next htype => exact Drops.congr (Keeps.refl s) (hnever (by simp [htype]) (by simp [htype]))

theorem drops_announce (env : Env ssl) (h : Inv loads strict s none) (blob : Blob) :
    Drops s (s.announce env blob) fun task =>
      env.announces blob = true ∧ ∃ m, Redirects s blob m ∧ task.2.message = some m.id := by
  unfold State.announce
  split_ifs with hann
  · exact (drops_newObjectCb h hann).congr fun _ _ => (and_iff_right hann).symm
  · exact Drops.congr (Keeps.refl s) fun _ _ => (iff_false_intro fun hno => hann hno.1).symm

theorem Redirects.congr {blob : Blob} (h : Redirects s blob m) (hmessages : s'.messages = s.messages) :
    Redirects s' blob m := by
  cases h with
  | acknowledged htype hheader hm =>
    refine .acknowledged htype hheader ?_
    unfold State.acknowledgedMessage at hm ⊢
    rwa [hmessages]
  | sought htype hentry hm hstate htag =>
    exact .sought htype hentry (hmessages ▸ hm) hstate htag

theorem redirects_congr {blob : Blob} (hmessages : s'.messages = s.messages) :
    Redirects s' blob m ↔ Redirects s blob m :=
  ⟨fun h => h.congr hmessages.symm, fun h => h.congr hmessages⟩

/-! ## 4. Callbacks -/

/-- The object in an acknowledgement, when `send_acknowledgement` takes it for one. -/
def ackObject (ack : List UInt8) : Option Blob :=
  if ack.length < headerSize ∨ !checkCommandString ((ack.drop 4).take 12) then none
  else
    ([InvType.getpubkey, .pubkey, .msg, .broadcast].find?
      (State.commandNameForType · = (ack.drop 4).take 12)).map
        fun type => { type, data := ack.drop headerSize }

theorem sendAcknowledgement_eq (env : Env ssl) (s : State ssl) (ack : List UInt8) :
    s.sendAcknowledgement env ack = match ackObject ack with
      | none => s
      | some blob => (s.emit [.addObjectFromData blob]).announce env blob := by
  unfold State.sendAcknowledgement ackObject
  dsimp only
  split_ifs
  · rfl
  · split
    next hfind => rw [hfind]; rfl
    next type hfind => rw [hfind]; rfl

/-- The call that a callback makes to the network with an object that messages may be redirected by,
and the object: the answer to a request for a pubkey, and the acknowledgement in a message. -/
inductive HandsOver : Job ssl → Result ssl → Effect ssl → Blob → Prop
  | pubkey (blob : Blob) (nonce : Nat) :
    HandsOver (.pubkeyPow blob) (.nonce nonce)
      (.addBlob none { blob with data := patch blob.data 0 (toBE 8 nonce) })
      { blob with data := patch blob.data 0 (toBE 8 nonce) }
  | acknowledgement {timestamp : Int} {object : Blob} {keys : List (KeyringKey ssl)}
    {key : KeyringKey ssl} {plaintext : List UInt8} {msg : DecryptedMsg} {blob : Blob}
    (haccepts : Accepts ssl key plaintext msg)
    (hack : ackObject (window (ofList plaintext) msg.ack msg.ackLength) = some blob) :
    HandsOver (.decryptMsg timestamp object keys) (.decrypted (some (key, plaintext)))
      (.addObjectFromData blob) blob

/-- What `decrypt_msg_cb` does about the sender of a message. -/
def State.noteSender (s : State ssl) (plaintext : List UInt8) (msg : DecryptedMsg) : State ssl :=
  s.addPublicKeyFromNetworkKeys (senderAddress ssl plaintext msg)
    (window (ofList plaintext) msg.senderSigningKey 64)
    (window (ofList plaintext) msg.senderEncryptionKey 64) msg.nonceTrialsPerByte msg.extraBytes

theorem core_noteSender (s : State ssl) (plaintext : List UInt8) (msg : DecryptedMsg) :
    (s.noteSender plaintext msg).messages = s.messages ∧
      (s.noteSender plaintext msg).log = s.log := by
  unfold State.noteSender State.addPublicKeyFromNetworkKeys
  split_ifs <;> exact ⟨rfl, rfl⟩

theorem decryptMsgCb_of_accepts {key : KeyringKey ssl} {plaintext : List UInt8} {msg : DecryptedMsg}
    (env : Env ssl) (s : State ssl) (timestamp : Int) (h : Accepts ssl key plaintext msg) :
    s.decryptMsgCb env timestamp key plaintext =
      ((s.noteSender plaintext msg).sendAcknowledgement env
        (window (ofList plaintext) msg.ack msg.ackLength)).emit
          [.saveMessage timestamp (senderAddress ssl plaintext msg) key plaintext] := by
  unfold State.decryptMsgCb
  dsimp only
  rw [h.parsed]
  dsimp only
  rw [if_neg, if_neg]
  · rfl
  · rw [not_not]
    exact h.destination.symm
  · rw [not_or, not_lt, not_lt]
    exact ⟨h.stream, h.version⟩

theorem decryptMsgCb_of_not {key : KeyringKey ssl} {plaintext : List UInt8}
    (env : Env ssl) (s : State ssl) (timestamp : Int)
    (h : ∀ msg, ¬ Accepts ssl key plaintext msg) :
    s.decryptMsgCb env timestamp key plaintext = s := by
  unfold State.decryptMsgCb
  dsimp only
  split
  next => rfl
  next msg hparsed =>
    split_ifs with hbytes hripe
    · rfl
    · rfl
    · rw [not_or, not_lt, not_lt] at hbytes
      exact absurd ⟨hparsed, hbytes.1, hbytes.2, (not_not.mp hripe).symm⟩ (h msg)

/-- The task is one of those that the callback takes from other messages. -/
def Loses (env : Env ssl) (s : State ssl) (job : Job ssl) (result : Result ssl)
    (task : Nat × Job ssl) : Prop :=
  ∃ e blob, HandsOver job result e blob ∧ env.announces blob = true ∧
    ∃ m, Redirects s blob m ∧ task.2.message = some m.id

section Objects

variable {job : Job ssl} {result : Result ssl}

-- A callback that hands nothing over, or only what the keyring made for a message.
theorem Keeps.loses (h : Keeps s s') (hnone : ∀ e blob, ¬ HandsOver job result e blob) :
    Drops s s' (Loses env s'' job result) :=
  Drops.congr h fun _ _ => (iff_false_intro fun ⟨e, blob, hover, _⟩ => hnone e blob hover).symm

theorem drops_pubkeyPow (env : Env ssl) (h : Inv loads strict s none) (blob : Blob) (nonce : Nat) :
    Drops s (s.addBlob env none { blob with data := patch blob.data 0 (toBE 8 nonce) })
      (Loses env s (.pubkeyPow blob) (.nonce nonce)) := by
  let object : Blob := { blob with data := patch blob.data 0 (toBE 8 nonce) }
  have hemit : Keeps s (s.emit [.addBlob none object]) := keeps_emit s _
  have hinv : Inv loads strict (s.emit [.addBlob none object]) none := h.emit (by simp)
  refine (hemit.drops (drops_announce env hinv object)).congr fun task _ => ?_
  simp only [redirects_congr (show (s.emit [.addBlob none object]).messages = s.messages from rfl)]
  constructor
  · rintro ⟨hann, hredirects⟩
    exact ⟨_, object, .pubkey blob nonce, hann, hredirects⟩
  · rintro ⟨e, object', hover, hrest⟩
    cases hover
    exact hrest

theorem drops_decryptMsgCb (env : Env ssl) (h : Inv loads strict s none) (timestamp : Int)
    (object : Blob) (keys : List (KeyringKey ssl)) (key : KeyringKey ssl) (plaintext : List UInt8) :
    Drops s (s.decryptMsgCb env timestamp key plaintext)
      (Loses env s (.decryptMsg timestamp object keys) (.decrypted (some (key, plaintext)))) := by
  by_cases haccepts : ∃ msg, Accepts ssl key plaintext msg
  · obtain ⟨msg, haccepts⟩ := haccepts
    rw [decryptMsgCb_of_accepts env s timestamp haccepts, sendAcknowledgement_eq]
    have hnoted : Keeps s (s.noteSender plaintext msg) :=
      keeps_addPublicKeyFromNetworkKeys s _ _ _ _ _
    have hinv : Inv loads strict (s.noteSender plaintext msg) none :=
      h.addPublicKeyFromNetworkKeys _ _ _ _ _
    have hmessages := (core_noteSender s plaintext msg).1
    cases hack : ackObject (window (ofList plaintext) msg.ack msg.ackLength) with
    | none =>
      refine (hnoted.trans (keeps_emit _ _)).loses fun e blob hover => ?_
      cases hover with
      | acknowledgement haccepts' hack' =>
        cases Except.ok.inj (haccepts.parsed.symm.trans haccepts'.parsed)
        rw [hack] at hack'
        cases hack'
    | some blob =>
      have hsent : Keeps s ((s.noteSender plaintext msg).emit [.addObjectFromData blob]) :=
        hnoted.trans (keeps_emit _ _)
      have hinv' : Inv loads strict ((s.noteSender plaintext msg).emit [.addObjectFromData blob])
          none := hinv.emit (by simp)
      have hdrops := drops_announce env hinv' blob
      refine ((hsent.drops hdrops).keeps (keeps_emit _ _)).congr fun task _ => ?_
      have hsame : ((s.noteSender plaintext msg).emit [.addObjectFromData blob]).messages =
          s.messages := hmessages
      simp only [redirects_congr hsame]
      constructor
      · rintro ⟨hann, hredirects⟩
        exact ⟨_, blob, .acknowledgement haccepts hack, hann, hredirects⟩
      · rintro ⟨e, blob', hover, hrest⟩
        cases hover with
        | acknowledgement haccepts' hack' =>
          cases Except.ok.inj (haccepts.parsed.symm.trans haccepts'.parsed)
          cases Option.some.inj (hack.symm.trans hack')
          exact hrest
  · rw [not_exists] at haccepts
    rw [decryptMsgCb_of_not env s timestamp haccepts]
    refine (Keeps.refl s).loses fun e blob hover => ?_
    cases hover with
    | acknowledgement haccepts' _ => exact haccepts _ haccepts'

end Objects

section Messages

variable {t : Nat}

-- The message is written before its callback goes on.
theorem keeps_written (m' : Message ssl) (h : Keeps (s.setMessage m') s') : Keeps s s' := by
  have hset : Keeps s (s.setMessage m') := keeps_of_eq rfl rfl
  exact hset.trans h

-- A message without tasks is freed.
theorem keeps_freeMessage (s : State ssl) (h : m.cookies = (none, none, none)) :
    Keeps s (s.freeMessage m) := by
  have hcancel : Keeps s (s.cancelAll m) := by
    rw [State.cancelAll_none s h]
    exact .refl s
  refine (hcancel.trans (keeps_of_core (State.core_unrefTrying (s.cancelAll m) m))).trans ?_
  exact keeps_of_eq rfl rfl

theorem keeps_checkPubkeyCb {key : Option (PublicKey ssl)}
    (hs : s.checkPubkeyCb env m key = some s') : Keeps s s' := by
  unfold State.checkPubkeyCb at hs
  dsimp only at hs
  split at hs
  next => exact keeps_written _ (keeps_abandonPubkey hs)
  next key =>
    cases hs
    exact keeps_written _ ((keeps_addPublicKey _ key).trans (keeps_postMessage env _ _))

theorem keeps_loadPubkeyFromStoreCb {blob : Option Blob}
    (hs : s.loadPubkeyFromStoreCb env m blob = some s') : Keeps s s' := by
  unfold State.loadPubkeyFromStoreCb at hs
  dsimp only at hs
  split at hs
  next => exact keeps_written _ (keeps_abandonPubkey hs)
  next blob =>
    cases hs
    exact keeps_written _ (keeps_requestFor _ _ _)

theorem keeps_getpubkeyPowCb {id nonce : Nat} {payload : List UInt8}
    (hwaits : Waits m t (.getpubkeyPow id payload))
    (hs : s.getpubkeyPowCb env m nonce = some s') : Keeps s s' := by
  cases hwaits with
  | getpubkeyPow _ _ _ hblob =>
    obtain ⟨hole, -, hblob⟩ := hblob
    obtain ⟨blob, hget, hs⟩ := Option.bind_eq_some_iff.mp hs
    obtain rfl := Option.some.inj (hblob.symm.trans hget)
    obtain ⟨-, -, hs⟩ := Option.bind_eq_some_iff.mp hs
    cases hs
    refine keeps_written { m with powCookie := none } (Keeps.trans
      (keeps_addOwnBlob env _ _ ?_) (keeps_of_eq rfl rfl))
    exact Or.inl rfl

theorem keeps_msgPowCb {id nonce : Nat} {payload : List UInt8} {extraBytes trialsPerByte : Int}
    (hwaits : Waits m t (.msgPow id payload extraBytes trialsPerByte))
    (hs : s.msgPowCb env m nonce = some s') : Keeps s s' := by
  cases hwaits with
  | msgPow env' toKey content _ _ _ _ _ hblob =>
    obtain ⟨hole, hlen, hblob⟩ := hblob
    obtain ⟨blob, hget, hs⟩ := Option.bind_eq_some_iff.mp hs
    obtain rfl := Option.some.inj (hblob.symm.trans hget)
    obtain ⟨-, -, hs⟩ := Option.bind_eq_some_iff.mp hs
    cases hs
    have hlong := length_msgFields env' m.lastMsgSendTime m.fromKey toKey content
    refine keeps_written { m with powCookie := none } (Keeps.trans
      (keeps_addOwnBlob env _ _ (Or.inr ⟨rfl, ?_⟩)) (keeps_of_eq rfl rfl))
    rw [patch_hole hlen, List.length_append, length_toBE]
    exact hlong

/-- A message whose content cannot be loaded has no other task. -/
theorem keeps_loadMessageContentCb {id contentId : Nat} {content : Option (List UInt8)}
    (hwaits : Waits m t (.loadContent id contentId))
    (hs : s.loadMessageContentCb env m content = some s') : Keeps s s' := by
  cases hwaits with
  | loadContent _ hcookies _ =>
    obtain ⟨hcrypto, hpow, -⟩ := Message.cookies_eq hcookies
    cases content with
    | none =>
      cases hs
      refine keeps_written { m with storeCookie := none } ?_
      refine Keeps.trans (keeps_freeMessage _ ?_) (keeps_emit _ _)
      simp [Message.cookies, hcrypto, hpow]
    | some content =>
      obtain ⟨built, -, hs⟩ := Option.bind_eq_some_iff.mp hs
      cases hs
      exact keeps_written _ (keeps_requestFor _ _ _)

theorem keeps_ackdataPowDone {nonce : Nat} (hs : s.ackdataPowDone env m nonce = some s') :
    Keeps s s' := by
  obtain ⟨blob, -, hs⟩ := Option.bind_eq_some_iff.mp hs
  obtain ⟨toKey, -, hs⟩ := Option.bind_eq_some_iff.mp hs
  cases hs
  exact keeps_requestFor _ _ _

theorem keeps_createMsgBlobCb {blob : Blob} (hs : s.createMsgBlobCb m blob = some s') :
    Keeps s s' := by
  obtain ⟨toKey, -, hs⟩ := Option.bind_eq_some_iff.mp hs
  cases hs
  exact keeps_requestFor _ _ _

theorem keeps_generateAckdataCb (env : Env ssl) (s : State ssl) (m : Message ssl)
    (ackdata : { bytes : List UInt8 // bytes.length = ackdataSize }) :
    Keeps s (s.generateAckdataCb env m ackdata) :=
  keeps_written _ ((keeps_loadOrPost env _ _).trans (keeps_emit _ _))

end Messages

/-- The tasks that a callback takes: those of the messages that the object it hands over redirects. -/
theorem drops_callback {t : Nat} {job : Job ssl} {result : Result ssl}
    (h : Inv loads strict s none) (ht : (t, job) ∈ s.tasks)
    (hs : callback env (s.cancel (some t)) job result = some s') :
    Drops (s.cancel (some t)) s' (Loses env (s.cancel (some t)) job result) := by
  have hfree : job.message = none → Inv loads strict (s.cancel (some t)) none := by
    intro hmsg
    have hout := h.take ht
    rwa [hmsg] at hout
  unfold callback at hs
  split at hs
  next id ackdata =>
    obtain ⟨m, hfind, hs⟩ := Option.bind_eq_some_iff.mp hs
    cases hs
    exact (keeps_generateAckdataCb env _ m ackdata).loses fun _ _ hover => nomatch hover
  next id address blob =>
    obtain ⟨m, hfind, hs⟩ := Option.bind_eq_some_iff.mp hs
    obtain ⟨key, -, hs⟩ := Option.bind_eq_some_iff.mp hs
    exact (keeps_checkPubkeyCb hs).loses fun _ _ hover => nomatch hover
  next id timestamp fromKey toKey content =>
    obtain ⟨m, -, hs⟩ := Option.bind_eq_some_iff.mp hs
    exact (keeps_createMsgBlobCb hs).loses fun _ _ hover => nomatch hover
  next id payload nonce =>
    obtain ⟨m, hfind, hs⟩ := Option.bind_eq_some_iff.mp hs
    obtain ⟨-, -, hwaits, -, -⟩ := h.taken ht rfl hfind
    exact (keeps_getpubkeyPowCb hwaits hs).loses fun _ _ hover => nomatch hover
  next id payload nonce =>
    obtain ⟨m, -, hs⟩ := Option.bind_eq_some_iff.mp hs
    exact (keeps_ackdataPowDone hs).loses fun _ _ hover => nomatch hover
  next id payload extraBytes trialsPerByte nonce =>
    obtain ⟨m, hfind, hs⟩ := Option.bind_eq_some_iff.mp hs
    obtain ⟨-, -, hwaits, -, -⟩ := h.taken ht rfl hfind
    exact (keeps_msgPowCb hwaits hs).loses fun _ _ hover => nomatch hover
  next id hash blob =>
    obtain ⟨m, -, hs⟩ := Option.bind_eq_some_iff.mp hs
    exact (keeps_loadPubkeyFromStoreCb hs).loses fun _ _ hover => nomatch hover
  next id contentId content =>
    obtain ⟨m, hfind, hs⟩ := Option.bind_eq_some_iff.mp hs
    obtain ⟨-, -, hwaits, -, -⟩ := h.taken ht rfl hfind
    exact (keeps_loadMessageContentCb hwaits hs).loses fun _ _ hover => nomatch hover
  next =>
    cases hs
    exact (keeps_request _ _).loses fun _ _ hover => nomatch hover
  next blob nonce =>
    cases hs
    exact drops_pubkeyPow env (hfree rfl) blob nonce
  next =>
    split at hs
    · cases hs
      exact (keeps_addPublicKey _ _).loses fun _ _ hover => nomatch hover
    · cases hs
  next timestamp object keys result =>
    split at hs
    next =>
      cases hs
      exact (Keeps.refl _).loses fun _ _ hover => nomatch hover
    next key plaintext =>
      cases hs
      exact drops_decryptMsgCb env (hfree rfl) timestamp object keys key plaintext
  next => cases hs

/-! ## 5. What the network is told first -/

theorem Move.log_prefix {allowed : Allowed ssl} (h : Move allowed s s') : s.log <+: s'.log := by
  cases h with
  | pubkeys h => exact (congrArg (·.2.2.2.2.2) h : s'.log = s.log) ▸ List.prefix_rfl
  | emit _ => exact List.prefix_append _ _
  | deleteContent _ => exact List.prefix_append _ _
  | saveContent content => exact List.prefix_append _ _
  | _ => exact List.prefix_rfl

theorem Moves.log_prefix {allowed : Allowed ssl} (h : Moves allowed s s') : s.log <+: s'.log := by
  induction h with
  | refl => exact List.prefix_rfl
  | tail _ hmove ih => exact ih.trans hmove.log_prefix

-- The call is followed by those that the object brings about.
theorem log_announce (env : Env ssl) (h : Lettered s) (e : Effect ssl) (blob : Blob) :
    ∃ rest, ((s.emit [e]).announce env blob).log = s.log ++ e :: rest := by
  have hemit : Lettered (s.emit [e]) := h.congr rfl rfl (List.Subset.refl _)
  have hmoves : Moves ⟨fun _ => True, fun _ => True⟩ (s.emit [e]) ((s.emit [e]).announce env blob) :=
    moves_announce hemit trivial blob
  obtain ⟨rest, hrest⟩ := hmoves.log_prefix
  refine ⟨rest, ?_⟩
  rw [← hrest, State.emit, List.append_assoc]
  rfl

/-- The object that a callback hands over is the first thing it calls the network or the store for. -/
theorem log_callback {job : Job ssl} {result : Result ssl} {e : Effect ssl} {blob : Blob}
    (h : Lettered s) (hover : HandsOver job result e blob)
    (hs : callback env s job result = some s') : ∃ rest, s'.log = s.log ++ e :: rest := by
  cases hover with
  | pubkey blob nonce =>
    cases hs
    exact log_announce env h _ _
  | @acknowledgement timestamp object keys key plaintext msg blob haccepts hack =>
    cases hs
    rw [decryptMsgCb_of_accepts env s timestamp haccepts, sendAcknowledgement_eq, hack]
    have hnoted : Lettered (s.noteSender plaintext msg) :=
      h.moves (moves_addPublicKeyFromNetworkKeys ⟨fun _ => True, fun _ => True⟩ s _ _ _ _ _).1
    obtain ⟨rest, hrest⟩ := log_announce env hnoted (.addObjectFromData blob) blob
    rw [(core_noteSender s plaintext msg).2] at hrest
    refine ⟨rest ++ [.saveMessage timestamp (senderAddress ssl plaintext msg) key plaintext], ?_⟩
    rw [State.emit, hrest, List.append_assoc]
    rfl

end Notbit.Keyring
