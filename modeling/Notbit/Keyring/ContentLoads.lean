import Notbit.Keyring.ContentSteps

/-!
# ContentLoads — which loads of contents are waited for

A load is requested for a message that is there, and from then on it can only be given up: no event
brings a request back.
-/

open Bytes Traced Notbit.Proto

namespace Notbit.Keyring

variable {ssl : OpenSSL} {env : Env ssl} {s s' : State ssl} {m : Message ssl} {loads strict : Prop}

/-! ## 1. Old requests -/

theorem keeps_foldl {α : Type} {f : State ssl → α → State ssl} (hf : ∀ s a, Keeps s (f s a))
    (s : State ssl) (l : List α) : Keeps s (l.foldl f s) := by
  induction l generalizing s with
  | nil => exact .refl s
  | cons a l ih => exact (hf s a).trans (ih (f s a))

theorem keeps_resendMessage (env : Env ssl) (s : State ssl) (id : Nat) :
    Keeps s (s.resendMessage env id) := by
  unfold State.resendMessage
  split
  · exact .refl s
  · split
    · exact keeps_sendGetpubkeyRequest env s _
    · exact keeps_postMessage env s _
    · exact .refl s

theorem keeps_gcTimeoutCb (s : State ssl) (now : Int) : Keeps s (s.gcTimeoutCb now) := by
  unfold State.gcTimeoutCb
  generalize s.pubkeyBlobList = l
  refine keeps_foldl (fun s p => ?_) s l
  split_ifs
  · exact keeps_of_core (State.core_removePubkeyBlob p)
  · exact .refl s

theorem keeps_createMessage (s : State ssl) (fromKey : Key ssl) (toAddress : Address)
    (contentEncoding : CInt) (contentId : Nat)
    (ackdata : { bytes : List UInt8 // bytes.length = ackdataSize }) :
    Keeps s (s.createMessage fromKey toAddress contentEncoding contentId ackdata).2 :=
  keeps_of_eq rfl rfl

theorem keeps_sendTo (fromKey : Key ssl) (contentEncoding : CInt) (contentId : Nat)
    (uninitialised : { bytes : List UInt8 // bytes.length = ackdataSize }) (s : State ssl)
    (toAddress : Address) :
    Keeps s (s.sendTo fromKey contentEncoding contentId uninitialised toAddress) :=
  (keeps_createMessage s fromKey toAddress contentEncoding contentId uninitialised).trans
    (keeps_requestFor _ _ _)

theorem keeps_sendMessage (s : State ssl) (fromAddress : Address) (toAddresses : List Address)
    (contentEncoding : CInt) (content : List UInt8)
    (uninitialised : { bytes : List UInt8 // bytes.length = ackdataSize }) :
    Keeps s (s.sendMessage fromAddress toAddresses contentEncoding content uninitialised) := by
  unfold State.sendMessage
  split
  · exact .refl s
  · split_ifs
    · exact .refl s
    · refine Keeps.trans ?_ (keeps_foldl (keeps_sendTo _ _ _ _) _ toAddresses)
      exact keeps_of_eq rfl rfl

/-- The numbers of the requests grow, and no event but a restart brings one back. -/
theorem old_tasks {e : Event ssl} (h : Inv loads strict s none)
    (hkeep : ∀ env keys pubkeys save, e ≠ .restart env keys pubkeys save)
    (hs : step s e = some s') :
    s.nextTask ≤ s'.nextTask ∧ ∀ task ∈ s'.tasks, task.1 < s.nextTask → task ∈ s.tasks := by
  suffices hdrops : ∃ gone, Drops s s' gone by
    obtain ⟨gone, hdrops⟩ := hdrops
    exact ⟨hdrops.nextTask, fun task ht hlt => ((hdrops.tasks task hlt).mp ht).1⟩
  cases e with
  | sendMessage fromAddress toAddresses contentEncoding content uninitialised =>
    cases hs
    exact ⟨_, keeps_sendMessage s _ _ _ _ _⟩
  | newObject env blob =>
    simp only [step] at hs
    split_ifs at hs with hann
    cases hs
    exact ⟨_, drops_newObjectCb h hann⟩
  | complete env t result =>
    obtain ⟨⟨t', job⟩, hfind, hs⟩ := Option.bind_eq_some_iff.mp hs
    have hid := List.find?_some hfind
    obtain rfl : t' = t := of_decide_eq_true hid
    have ht := List.mem_of_find?_eq_some hfind
    exact ⟨_, (drops_cancel s (some t')).trans (drops_callback h ht hs)⟩
  | resend env =>
    cases hs
    exact ⟨_, keeps_foldl (keeps_resendMessage env) s _⟩
  | gc now =>
    cases hs
    exact ⟨_, keeps_gcTimeoutCb s now⟩
  | addKey key =>
    cases hs
    exact ⟨_, keeps_of_eq rfl rfl⟩
  | save =>
    cases hs
    exact ⟨_, keeps_emit s _⟩
  | restart env keys pubkeys save => exact absurd rfl (hkeep env keys pubkeys save)

/-! ## 2. Loads -/

/-- The content that a request is for. -/
def contentLoad? : Nat × Job ssl → Option (Nat × Nat)
  | (t, .loadContent _ contentId) => some (t, contentId)
  | (_, .generateAckdata _) | (_, .checkPubkey _ _ _) | (_, .createMsgBlob _ _ _ _ _)
  | (_, .getpubkeyPow _ _) | (_, .ackdataPow _ _) | (_, .msgPow _ _ _ _) | (_, .loadPubkey _ _)
  | (_, .createPubkeyBlob _) | (_, .pubkeyPow _) | (_, .createPublicKey _ _ _ _ _)
  | (_, .decryptMsg _ _ _) => none

/-- The loads of contents among the requests from a number on. -/
def State.contentLoads (s : State ssl) (first : Nat) : List (Nat × Nat) :=
  (s.tasks.filter (first ≤ ·.1)).filterMap contentLoad?

theorem contentLoad?_eq_some {task : Nat × Job ssl} {t contentId : Nat} :
    contentLoad? task = some (t, contentId) ↔ ∃ id, task = (t, .loadContent id contentId) := by
  obtain ⟨t', job⟩ := task
  cases job <;> simp [contentLoad?]

theorem mem_contentLoads {first t contentId : Nat} :
    (t, contentId) ∈ s.contentLoads first ↔
      first ≤ t ∧ ∃ id, (t, .loadContent id contentId) ∈ s.tasks := by
  simp only [State.contentLoads, List.mem_filterMap, List.mem_filter, decide_eq_true_eq,
    contentLoad?_eq_some]
  constructor
  · rintro ⟨task, ⟨ht, hfirst⟩, id, rfl⟩
    exact ⟨hfirst, id, ht⟩
  · rintro ⟨hfirst, id, ht⟩
    exact ⟨_, ⟨ht, hfirst⟩, id, rfl⟩

/-- The message waits for the load of its content. -/
structure Loading (s : State ssl) (m : Message ssl) (t : Nat) : Prop where
  mem : m ∈ s.messages
  state : m.state = .loadingContent
  cookie : m.storeCookie = some t

theorem loading_of_task {t id contentId : Nat} (h : Inv loads strict s none)
    (ht : (t, .loadContent id contentId) ∈ s.tasks) :
    ∃ m, Loading s m t ∧ m.contentId = contentId := by
  obtain ⟨m, hm, -, hwaits⟩ := h.owner ht rfl
  dsimp only at hwaits
  cases hwaits with
  | loadContent hstate hcookies _ =>
    exact ⟨m, ⟨hm, hstate, congrArg (·.2.2) hcookies⟩, rfl⟩

theorem task_of_loading {t : Nat} (h : Inv loads strict s none) (hm : Loading s m t) :
    (t, .loadContent m.id m.contentId) ∈ s.tasks := by
  have hstate := hm.state
  rcases h.working m hm.mem (by simp) with ⟨-, hquiet | ⟨hquiet, -⟩⟩ | ⟨⟨t', job⟩, ht, hwaits⟩
  · rw [hstate] at hquiet
    cases hquiet
  · rw [hstate] at hquiet
    cases hquiet
  · dsimp only at hwaits
    cases hwaits with
    | loadContent _ hcookies _ =>
      have hcookie : m.storeCookie = some t' := congrArg (·.2.2) hcookies
      rwa [← Option.some.inj (hcookie.symm.trans hm.cookie)]
    | generateAckdata hother | loadPubkey _ hother | checkPubkey _ hother | getpubkeyPow hother
    | ackdataPow _ hother | createMsgBlob _ _ hother | msgPow _ _ _ _ _ hother =>
      rw [hstate] at hother
      cases hother

theorem Loading.uses {t : Nat} (h : Loading s m t) : s.contents.Uses m.contentId :=
  List.mem_map.mpr ⟨_, List.mem_map_of_mem h.mem, rfl⟩

-- A mail asks for the random numbers of its messages.
theorem tasks_sendToAll (fromKey : Key ssl) (contentEncoding : CInt) (contentId : Nat)
    (uninitialised : { bytes : List UInt8 // bytes.length = ackdataSize })
    (toAddresses : List Address) (s : State ssl) :
    ∀ task ∈ (toAddresses.foldl (State.sendTo fromKey contentEncoding contentId uninitialised)
      s).tasks, task ∈ s.tasks ∨ ∃ id, task.2 = .generateAckdata id := by
  induction toAddresses generalizing s with
  | nil => exact fun task ht => .inl ht
  | cons toAddress toAddresses ih =>
    intro task ht
    rcases ih _ task ht with hmem | hnew
    · rcases List.mem_append.mp hmem with hold | hfirst
      · exact .inl hold
      · rw [List.mem_singleton.mp hfirst]
        exact .inr ⟨_, rfl⟩
    · exact .inr hnew

theorem contentLoads_sendMessage (s : State ssl) (fromAddress : Address)
    (toAddresses : List Address) (contentEncoding : CInt) (content : List UInt8)
    (uninitialised : { bytes : List UInt8 // bytes.length = ackdataSize })
    (hbound : ∀ task ∈ s.tasks, task.1 < s.nextTask) :
    (s.sendMessage fromAddress toAddresses contentEncoding content uninitialised).contentLoads
      s.nextTask = [] := by
  have htasks : ∀ task ∈ (s.sendMessage fromAddress toAddresses contentEncoding content
      uninitialised).tasks, task ∈ s.tasks ∨ ∃ id, task.2 = .generateAckdata id := by
    unfold State.sendMessage
    split
    · exact fun task ht => .inl ht
    · split_ifs
      · exact fun task ht => .inl ht
      · exact tasks_sendToAll _ _ _ _ toAddresses _
  refine List.filterMap_eq_nil_iff.mpr fun task ht => ?_
  obtain ⟨hmem, hfirst⟩ := List.mem_filter.mp ht
  rcases htasks task hmem with hold | ⟨id, hjob⟩
  · exact absurd (hbound task hold) (Nat.not_lt.mpr (of_decide_eq_true hfirst))
  · obtain ⟨t, job⟩ := task
    cases hjob
    rfl

end Notbit.Keyring
