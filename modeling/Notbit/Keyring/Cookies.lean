import Notbit.Keyring.Reachable

/-!
# Cookies — every outgoing message holds the task that its state requires

Read off the invariant: a message in a working state has exactly one task in flight, the cookie of
that task is its only one, and the callback of the task finds what it needs.
-/

open Bytes Traced Notbit.Proto

namespace Notbit.Keyring

variable {ssl : OpenSSL} {loads strict : Prop} {env : Env ssl} {s : State ssl} {m : Message ssl}
  {t : Nat} {job : Job ssl} {result : Result ssl}

/-- The tasks in flight for a message. -/
def State.tasksOf (s : State ssl) (id : Nat) : List (Nat × Job ssl) :=
  s.tasks.filter (·.2.message = some id)

/-- What the service that works on a request of a message can call back with.  A failed assertion in
the check of a pubkey ends the program. -/
inductive Answers (env : Env ssl) : Job ssl → Result ssl → Prop where
  | ackdata (id : Nat) (bytes : { bytes : List UInt8 // bytes.length = ackdataSize }) :
      Answers env (.generateAckdata id) (.ackdata bytes)
  | checked (id : Nat) (address : Address) (blob : Blob) (key : Option (PublicKey ssl))
      (hkey : checkedKey env address blob = some key) :
      Answers env (.checkPubkey id address blob) .checked
  | created (id : Nat) (time : Int) (fromKey : Key ssl) (toKey : PublicKey ssl)
      (content : List UInt8) : Answers env (.createMsgBlob id time fromKey toKey content) .created
  | getpubkeyPow (id : Nat) (payload : List UInt8) (nonce : Nat) :
      Answers env (.getpubkeyPow id payload) (.nonce nonce)
  | ackdataPow (id : Nat) (payload : List UInt8) (nonce : Nat) :
      Answers env (.ackdataPow id payload) (.nonce nonce)
  | msgPow (id : Nat) (payload : List UInt8) (extraBytes trialsPerByte : Int) (nonce : Nat) :
      Answers env (.msgPow id payload extraBytes trialsPerByte) (.nonce nonce)
  | pubkey (id : Nat) (hash : Hash) (blob : Option Blob) :
      Answers env (.loadPubkey id hash) (.blob blob)
  | content (id contentId : Nat) (content : Option (List UInt8)) :
      Answers env (.loadContent id contentId) (.content content)

/-! ## 1. One task -/

namespace Inv

theorem tasksOf_eq (h : Inv loads strict s none) (hm : m ∈ s.messages) (ht : (t, job) ∈ s.tasks)
    (hwaits : Waits m t job) : s.tasksOf m.id = [(t, job)] := by
  have hnodup : (s.tasksOf m.id).Nodup := (List.Nodup.of_map _ h.taskIds).filter _
  rw [← List.perm_singleton, List.perm_ext_iff_of_nodup hnodup (List.nodup_singleton _)]
  intro task
  rw [State.tasksOf, List.mem_filter, decide_eq_true_eq, List.mem_singleton]
  constructor
  · rintro ⟨htask, hmsg⟩
    -- two tasks of one message have its one cookie
    obtain ⟨m', hm', hid, hwaits'⟩ := h.owner htask hmsg
    rw [h.eq_of_id hm' hm hid] at hwaits'
    exact h.task_eq htask ht (hwaits'.unique hwaits)
  · rintro rfl
    exact ⟨ht, hwaits.message⟩

theorem tasksOf_quiet (h : Inv loads strict s none) (hm : m ∈ s.messages) (hquiet : Quiet m) :
    s.tasksOf m.id = [] := by
  rw [State.tasksOf, List.filter_eq_nil_iff]
  intro task htask hmsg
  obtain ⟨m', hm', hid, hwaits⟩ := h.owner htask (of_decide_eq_true hmsg)
  rw [h.eq_of_id hm' hm hid] at hwaits
  exact hwaits.not_quiet hquiet

end Inv

/-! ## 3. Runs -/

end Notbit.Keyring
