import Notbit.Keyring.Moves
import Notbit.Keyring.PubkeyIndex

/-!
# PubkeyTrials — the references to the pubkey objects (`ntb-keyring.c`)

An entry is referenced by the list and by every message that tries it.  Whatever the keyring does to
entries is one of a few changes, and with each of them the counts stay exact, so that an entry is
freed with the last reference to it and not before.
-/

open Bytes Traced Notbit.Proto Relation Groups

namespace Notbit.Keyring

variable {ssl : OpenSSL}

/-! ## 1. Counting -/

/-- The number of messages whose `trying_pubkey_blob` is the entry. -/
def State.trials (s : State ssl) (p : Nat) : Nat :=
  s.messages.countP (·.tryingPubkeyBlob = some p)

/-- The list and the table belong together, and the count of every entry is the number of
references to it. -/
structure Referenced (s : State ssl) : Prop where
  indexes : Indexes s.ripeOrTagOf s.pubkeyBlobList s.pubkeyBlobTable
  inList : ∀ p, (s.pubkeyBlobs p).inList = true ↔ p ∈ s.pubkeyBlobList
  counted : ∀ p, (s.pubkeyBlobs p).refCount =
    ((if p ∈ s.pubkeyBlobList then 1 else 0) + s.trials p : Nat)
  bound : ∀ p ∈ s.pubkeyBlobList, p < s.nextPubkeyBlob
  tried : ∀ m ∈ s.messages, ∀ p, m.tryingPubkeyBlob = some p → p < s.nextPubkeyBlob
  ids : (s.messages.map (·.id)).Nodup
  known : ∀ m ∈ s.messages, m.id < s.nextMessage
  blobs : ∀ m ∈ s.messages, ∀ blob, m.blob = some blob → blob.type ≠ .pubkey

/-- The fields of `m` belong to the message with its number, which tries the same entry. -/
structure Tracked (s : State ssl) (m : Message ssl) : Prop where
  there : ∃ old ∈ s.messages, old.id = m.id ∧ old.tryingPubkeyBlob = m.tryingPubkeyBlob
  blob : ∀ blob, m.blob = some blob → blob.type ≠ .pubkey

/-- If `unref_pubkey_blob` frees the entry that the message tries, then nothing else refers to it. -/
def FreesUnused (s : State ssl) (m : Message ssl) : Prop :=
  ∀ p, m.tryingPubkeyBlob = some p → (s.pubkeyBlobs p).refCount ≤ 1 →
    p ∉ s.pubkeyBlobList ∧ ∀ other ∈ s.messages, other.tryingPubkeyBlob = some p → other.id = m.id

/-! ## 2. The changes -/

/-- What of a keyring has to do with references. -/
def State.index (s : State ssl) :=
  (s.pubkeyBlobs, s.nextPubkeyBlob, s.pubkeyBlobList, s.pubkeyBlobTable, s.messages, s.nextMessage)

/-- One change, and what is known when it is made: only entries of the list are tried, and none is
freed while something refers to it. -/
inductive Shift : State ssl → State ssl → Prop
  | other {s s' : State ssl} (h : s'.index = s.index) : Shift s s'
  | write {s : State ssl} {m : Message ssl} (h : Tracked s m) : Shift s (s.setMessage m)
  | insert {s : State ssl} {entry : PubkeyEntry} (hcount : entry.refCount = 1)
    (hin : entry.inList = true) : Shift s (s.insertPubkeyBlob entry).2
  | remove {s : State ssl} {p : Nat}
    (hfree : p ∈ s.pubkeyBlobList → (s.pubkeyBlobs p).refCount ≤ 1 →
      ∀ m ∈ s.messages, m.tryingPubkeyBlob ≠ some p) : Shift s (s.removePubkeyBlob p)
  | trial {s : State ssl} {m : Message ssl} {p : Nat} (h : Tracked s m) (hp : p ∈ s.pubkeyBlobList)
    (hfree : FreesUnused s m) : Shift s (s.setTrying m p).1
  | release {s : State ssl} {m : Message ssl} (h : Tracked s m) (hfree : FreesUnused s m) :
    Shift s (s.cancelMessageTasks m).1
  | create {s : State ssl} {m : Message ssl} (hid : m.id = s.nextMessage)
    (hnone : m.tryingPubkeyBlob = none) (hblob : m.blob = none) :
    Shift s { s with messages := s.messages ++ [m], nextMessage := s.nextMessage + 1 }
  | free {s : State ssl} {id : Nat}
    (hnone : ∀ m ∈ s.messages, m.id = id → m.tryingPubkeyBlob = none) :
    Shift s { s with messages := s.messages.filter (·.id ≠ id) }
  | restart (s : State ssl) (keys : List (KeyringKey ssl)) :
    Shift s { keys, nextTask := s.nextTask, nextMessage := s.nextMessage, log := s.log }

/-- Any number of changes. -/
def Shifts : State ssl → State ssl → Prop := ReflTransGen Shift

variable {env : Env ssl} {s s' s'' : State ssl} {m m' : Message ssl} {p q : Nat}

theorem Shift.shifts (h : Shift s s') : Shifts s s' := .single h

theorem Shifts.refl (s : State ssl) : Shifts s s := ReflTransGen.refl

theorem Shifts.trans (h : Shifts s s') (h' : Shifts s' s'') : Shifts s s'' :=
  ReflTransGen.trans h h'

theorem Shifts.tail (h : Shifts s s') (h' : Shift s' s'') : Shifts s s'' := ReflTransGen.tail h h'

/-! ## 3. What the operations do to the entries -/

namespace State

/-- All that a count has nothing to do with. -/
def uncounted (s : State ssl) :=
  (s.pubkeyBlobList, s.pubkeyBlobTable, s.nextPubkeyBlob, s.messages, s.nextMessage,
    s.ripeOrTagOf, fun p => (s.pubkeyBlobs p).inList)

-- A count is written.
theorem uncounted_update (s : State ssl) (p : Nat) (n : Int) :
    { s with
      pubkeyBlobs := Function.update s.pubkeyBlobs p
        { s.pubkeyBlobs p with refCount := n } }.uncounted = s.uncounted := by
  simp only [uncounted, Prod.mk.injEq, true_and]
  constructor
  · funext q
    by_cases hq : q = p
    · simp [ripeOrTagOf, hq]
    · simp [ripeOrTagOf, Function.update_of_ne hq]
  · funext q
    by_cases hq : q = p
    · simp [hq]
    · simp [Function.update_of_ne hq]

theorem uncounted_unrefTrying : (s.unrefTrying m).uncounted = s.uncounted := by
  unfold unrefTrying
  split
  · exact uncounted_update s _ _
  · rfl

theorem refCount_unrefPubkeyBlob :
    ((s.unrefPubkeyBlob q).pubkeyBlobs p).refCount =
      (s.pubkeyBlobs p).refCount - (if q = p then 1 else 0) := by
  unfold unrefPubkeyBlob
  by_cases hp : q = p
  · simp [hp]
  · simp [hp, Function.update_of_ne (Ne.symm hp)]

theorem refCount_unrefTrying :
    ((s.unrefTrying m).pubkeyBlobs p).refCount =
      (s.pubkeyBlobs p).refCount - (if m.tryingPubkeyBlob = some p then 1 else 0) := by
  unfold unrefTrying
  split
  next q hq => simp [refCount_unrefPubkeyBlob, hq]
  next hnone => simp [hnone]

/-- The trials of an entry when one message is written. -/
theorem trials_setMessage {old : Message ssl} (hids : (s.messages.map (·.id)).Nodup)
    (hold : old ∈ s.messages) (hid : old.id = m.id) (p : Nat) :
    (s.setMessage m).trials p + (if old.tryingPubkeyBlob = some p then 1 else 0) =
      s.trials p + (if m.tryingPubkeyBlob = some p then 1 else 0) := by
  unfold trials setMessage
  dsimp only
  generalize s.messages = l at hids hold
  induction l with
  | nil => cases hold
  | cons a l ih =>
    obtain ⟨hnew, hids⟩ := List.nodup_cons.mp hids
    simp only [List.map_cons, List.countP_cons, decide_eq_true_eq]
    rcases List.mem_cons.mp hold with rfl | hold
    · -- the others have other numbers
      have hrest : l.map (fun a => if a.id = m.id then m else a) = l := by
        refine (List.map_congr_left fun a ha => if_neg fun heq => hnew ?_).trans (List.map_id' l)
        exact List.mem_map.mpr ⟨a, ha, heq.trans hid.symm⟩
      rw [hrest, if_pos hid]
      omega
    · have hne : a.id ≠ m.id := fun heq =>
        hnew (List.mem_map.mpr ⟨old, hold, hid.trans heq.symm⟩)
      have hrest := ih hids hold
      rw [if_neg hne]
      omega

theorem trials_eq_zero : s.trials p = 0 ↔ ∀ m ∈ s.messages, m.tryingPubkeyBlob ≠ some p := by
  unfold trials
  rw [List.countP_eq_zero]
  simp

end State

theorem Tracked.congr (h : Tracked s m) (hmessages : s'.messages = s.messages) : Tracked s' m where
  there := hmessages ▸ h.there
  blob := h.blob

-- A message that was just written.
theorem Tracked.written (h : Tracked s m) (hid : m'.id = m.id)
    (hblob : m'.blob = none ∨ m'.blob = m.blob) :
    Tracked (s.setMessage m') m' := by
  obtain ⟨old, hold, holdid, -⟩ := h.there
  refine ⟨⟨m', Inv.mem_setMessage.mpr (Or.inl ⟨rfl, old, hold, ?_⟩), rfl, rfl⟩, fun blob hsome => ?_⟩
  · rw [holdid, hid]
  · rcases hblob with hnone | hsame
    · rw [hnone] at hsome
      cases hsome
    · exact h.blob blob (hsame ▸ hsome)

namespace Referenced

theorem tracked (h : Referenced s) (hm : m ∈ s.messages) : Tracked s m where
  there := ⟨m, hm, rfl, rfl⟩
  blob := h.blobs m hm

theorem tracked_find (h : Referenced s) {id : Nat} (hfind : s.findMessage id = some m) :
    Tracked s m := h.tracked (List.mem_of_find?_eq_some hfind)

/-! ## 4. Why nothing is freed too early -/

theorem freesUnused (h : Referenced s) (hm : Tracked s m) : FreesUnused s m := by
  obtain ⟨old, hold, hid, htrying⟩ := hm.there
  intro p hp hlast
  -- without the trial of the message there would be no reference
  have hwithout := State.trials_setMessage (m := { old with tryingPubkeyBlob := none }) h.ids hold
    rfl p
  rw [htrying, hp, if_pos rfl, if_neg nofun] at hwithout
  have hcount := h.counted p
  have hlist : p ∉ s.pubkeyBlobList := by
    intro hmem
    rw [if_pos hmem] at hcount
    omega
  rw [if_neg hlist] at hcount
  have hzero : (s.setMessage { old with tryingPubkeyBlob := none }).trials p = 0 := by omega
  have hnone := State.trials_eq_zero.mp hzero
  refine ⟨hlist, fun other hother htries => ?_⟩
  by_contra hne
  refine hnone other (Inv.mem_setMessage.mpr (Or.inr ⟨hother, fun heq => hne ?_⟩)) htries
  exact heq.trans hid

theorem removeUnused (h : Referenced s) (hp : p ∈ s.pubkeyBlobList)
    (hlast : (s.pubkeyBlobs p).refCount ≤ 1) : ∀ m ∈ s.messages, m.tryingPubkeyBlob ≠ some p := by
  have hcount := h.counted p
  rw [if_pos hp] at hcount
  exact State.trials_eq_zero.mp (by omega)

/-! ## 5. The changes keep the counts -/

theorem congr (h : Referenced s) (hindex : s'.index = s.index) : Referenced s' := by
  simp only [State.index, Prod.mk.injEq] at hindex
  obtain ⟨hblobs, hnext, hlist, htable, hmessages, hnextMessage⟩ := hindex
  have hkeys : s'.ripeOrTagOf = s.ripeOrTagOf := by
    unfold State.ripeOrTagOf
    rw [hblobs]
  constructor
  · rw [hkeys, hlist, htable]; exact h.indexes
  · rw [hblobs, hlist]; exact h.inList
  · unfold State.trials; rw [hblobs, hlist, hmessages]; exact h.counted
  · rw [hlist, hnext]; exact h.bound
  · rw [hmessages, hnext]; exact h.tried
  · rw [hmessages]; exact h.ids
  · rw [hmessages, hnextMessage]; exact h.known
  · rw [hmessages]; exact h.blobs

/-- A message is written and the counts with it. -/
theorem set (h : Referenced s) {old : Message ssl} (hsame : s'.uncounted = s.uncounted)
    (hold : old ∈ s.messages) (hid : old.id = m.id)
    (hblob : ∀ blob, m.blob = some blob → blob.type ≠ .pubkey)
    (htried : ∀ p, m.tryingPubkeyBlob = some p → p < s.nextPubkeyBlob)
    (hcount : ∀ p, (s'.pubkeyBlobs p).refCount = (s.pubkeyBlobs p).refCount -
      (if old.tryingPubkeyBlob = some p then 1 else 0) +
      (if m.tryingPubkeyBlob = some p then 1 else 0)) : Referenced (s'.setMessage m) := by
  simp only [State.uncounted, Prod.mk.injEq] at hsame
  obtain ⟨hlist, htable, hnext, hmessages, hnextMessage, hkeys, hin⟩ := hsame
  have hmem : ∀ m', m' ∈ (s'.setMessage m).messages → m' = m ∨ m' ∈ s.messages := by
    intro m' hm'
    rw [← hmessages]
    exact (Inv.mem_setMessage.mp hm').imp (·.1) (·.1)
  constructor
  · show Indexes s'.ripeOrTagOf s'.pubkeyBlobList s'.pubkeyBlobTable
    rw [hkeys, hlist, htable]
    exact h.indexes
  · intro p
    show (s'.pubkeyBlobs p).inList = true ↔ p ∈ s'.pubkeyBlobList
    rw [congrFun hin p, hlist]
    exact h.inList p
  · intro p
    have htrials := State.trials_setMessage (s := s') (hmessages ▸ h.ids) (hmessages ▸ hold) hid p
    have hsame : s'.trials p = s.trials p := congrArg (List.countP _) hmessages
    have hold := h.counted p
    have hnew := hcount p
    show (s'.pubkeyBlobs p).refCount = ((if p ∈ s'.pubkeyBlobList then 1 else 0) +
      (s'.setMessage m).trials p : Nat)
    rw [hlist]
    split_ifs at * <;> omega
  · intro p hp
    show p < s'.nextPubkeyBlob
    rw [hnext]
    exact h.bound p (hlist ▸ hp)
  · intro m' hm' p hp
    show p < s'.nextPubkeyBlob
    rw [hnext]
    rcases hmem m' hm' with rfl | hm'
    · exact htried p hp
    · exact h.tried m' hm' p hp
  · rw [Inv.map_id_setMessage, hmessages]
    exact h.ids
  · intro m' hm'
    show m'.id < s'.nextMessage
    rw [hnextMessage]
    rcases hmem m' hm' with rfl | hm'
    · exact hid ▸ h.known old hold
    · exact h.known m' hm'
  · intro m' hm'
    rcases hmem m' hm' with rfl | hm'
    · exact hblob
    · exact h.blobs m' hm'

theorem write (h : Referenced s) (hm : Tracked s m) : Referenced (s.setMessage m) := by
  obtain ⟨old, hold, hid, htrying⟩ := hm.there
  refine h.set rfl hold hid hm.blob (fun p hp => h.tried old hold p (htrying.trans hp)) fun p => ?_
  rw [htrying]
  omega

theorem setTrying (h : Referenced s) (hm : Tracked s m) (hp : p ∈ s.pubkeyBlobList) :
    Referenced (s.setTrying m p).1 := by
  obtain ⟨old, hold, hid, htrying⟩ := hm.there
  refine h.set (m := { m with tryingPubkeyBlob := some p }) ?_ hold hid hm.blob (fun q hq => ?_)
    fun q => ?_
  · exact (State.uncounted_update _ p _).trans State.uncounted_unrefTrying
  · rw [← Option.some.inj hq]
    exact h.bound p hp
  · have hunref := State.refCount_unrefTrying (s := s) (m := m) (p := q)
    rw [htrying, ← hunref]
    by_cases hq : q = p
    · simp [hq]
    · simp [Function.update_of_ne hq, Ne.symm hq]

theorem cancelMessageTasks (h : Referenced s) (hm : Tracked s m) :
    Referenced (s.cancelMessageTasks m).1 := by
  obtain ⟨old, hold, hid, htrying⟩ := hm.there
  refine h.set (m := (s.cancelMessageTasks m).2) ?_ hold hid nofun nofun fun q => ?_
  · exact State.uncounted_unrefTrying (s := s.cancelAll m)
  · have hunref := State.refCount_unrefTrying (s := s.cancelAll m) (m := m) (p := q)
    have hnone : ((s.cancelMessageTasks m).2.tryingPubkeyBlob = some q) ↔ False :=
      iff_of_false nofun id
    simp only [htrying, hnone, if_false, add_zero]
    exact hunref

/-- The list has the new entry, which no message tries yet. -/
theorem insertPubkeyBlob (h : Referenced s) {entry : PubkeyEntry} (hcount : entry.refCount = 1)
    (hin : entry.inList = true) : Referenced (s.insertPubkeyBlob entry).2 := by
  have hfresh : s.nextPubkeyBlob ∉ s.pubkeyBlobList := fun hmem => Nat.lt_irrefl _ (h.bound _ hmem)
  have htrials : s.trials s.nextPubkeyBlob = 0 := State.trials_eq_zero.mpr fun m hm htries =>
    Nat.lt_irrefl _ (h.tried m hm _ htries)
  -- what is known of any list with the one entry more
  have hrest : ∀ (l : List Nat) (t : HashTable Nat),
      (∀ p, p ∈ l ↔ p = s.nextPubkeyBlob ∨ p ∈ s.pubkeyBlobList) →
      Indexes (fun p => (Function.update s.pubkeyBlobs s.nextPubkeyBlob entry p).ripeOrTag) l t →
      Referenced { s with
        pubkeyBlobs := Function.update s.pubkeyBlobs s.nextPubkeyBlob entry
        nextPubkeyBlob := s.nextPubkeyBlob + 1, pubkeyBlobList := l, pubkeyBlobTable := t } := by
    intro l t hl hindexes
    refine ⟨hindexes, fun p => ?_, fun p => ?_, fun p hp => ?_, fun m hm p hp => ?_, h.ids, h.known,
      h.blobs⟩
    · by_cases hp : p = s.nextPubkeyBlob
      · simp [hp, hl, hin]
      · simp [hp, hl, h.inList]
    · show (Function.update s.pubkeyBlobs s.nextPubkeyBlob entry p).refCount =
        ((if p ∈ l then 1 else 0) + s.trials p : Nat)
      by_cases hp : p = s.nextPubkeyBlob
      · simp [hp, hl, hcount, htrials]
      · simp [hp, hl, h.counted]
    · rcases (hl p).mp hp with rfl | hp
      · exact Nat.lt_succ_self _
      · exact Nat.lt_succ_of_lt (h.bound p hp)
    · exact Nat.lt_succ_of_lt (h.tried m hm p hp)
  have hindexes : Indexes
      (fun p => (Function.update s.pubkeyBlobs s.nextPubkeyBlob entry p).ripeOrTag)
      s.pubkeyBlobList s.pubkeyBlobTable := by
    refine h.indexes.congr fun p hp => ?_
    have hne : p ≠ s.nextPubkeyBlob := fun heq => hfresh (heq ▸ hp)
    rw [Function.update_of_ne hne]
    rfl
  have hkey : (Function.update s.pubkeyBlobs s.nextPubkeyBlob entry s.nextPubkeyBlob).ripeOrTag =
      entry.ripeOrTag := by simp
  simp only [State.insertPubkeyBlob]
  split
  next hget =>
    refine hrest _ _ (fun p => List.mem_cons) (hindexes.insert_first ?_)
    rw [hkey]
    exact hget
  next q hget =>
    have hq : q ∈ s.pubkeyBlobList := by
      have hfind := (hindexes.get_eq _).symm.trans hget
      exact List.mem_of_find?_eq_some hfind
    obtain ⟨l₁, l₂, hsplit⟩ := List.append_of_mem hq
    have hout : q ∉ l₁ := (hsplit ▸ h.indexes).split.1
    refine hrest _ _ (fun p => ?_) (hindexes.insert_behind hfresh ?_)
    · rw [hsplit, takeWhile_ne hout, dropWhile_ne hout]
      simp only [List.mem_append, List.mem_cons, List.tail_cons]
      grind
    · rw [hkey]
      exact hget

/-- The list gives its reference up. -/
theorem removePubkeyBlob (h : Referenced s) (p : Nat) : Referenced (s.removePubkeyBlob p) := by
  unfold State.removePubkeyBlob
  split_ifs with hin
  · have hp := (h.inList p).mp hin
    obtain ⟨l₁, l₂, hsplit⟩ := List.append_of_mem hp
    have hindexes := h.indexes
    rw [hsplit] at hindexes
    obtain ⟨hl₁, hl₂⟩ := hindexes.split
    have hmem : ∀ q, q ∈ l₁ ++ l₂ ↔ q ∈ s.pubkeyBlobList ∧ q ≠ p := by
      intro q
      rw [hsplit]
      simp only [List.mem_append, List.mem_cons]
      grind
    -- what is known of the list without the entry, whatever the table is now
    have hrest : ∀ t : HashTable Nat, Indexes s.ripeOrTagOf (l₁ ++ l₂) t →
        Referenced ({ s with
          pubkeyBlobList := l₁ ++ l₂, pubkeyBlobTable := t
          pubkeyBlobs := Function.update s.pubkeyBlobs p
            { s.pubkeyBlobs p with inList := false } }.unrefPubkeyBlob p) := by
      intro t ht
      refine ⟨ht.congr fun q hq => ?_, fun q => ?_, fun q => ?_, fun q hq => ?_, h.tried, h.ids,
        h.known, h.blobs⟩
      · have hne : q ≠ p := ((hmem q).mp hq).2
        simp [State.ripeOrTagOf, State.unrefPubkeyBlob, Function.update_of_ne hne]
      · have hq := hmem q
        have hold := h.inList q
        by_cases hqp : q = p
        · simp only [State.unrefPubkeyBlob, hqp, Function.update_self, hmem]
          simp
        · simp only [State.unrefPubkeyBlob, Function.update_of_ne hqp, hmem]
          simp [hold, hqp]
      · have hold := h.counted q
        show (_ : Int) = ((if q ∈ l₁ ++ l₂ then 1 else 0) + s.trials q : Nat)
        by_cases hqp : q = p
        · rw [if_neg fun hq => ((hmem q).mp hq).2 hqp]
          rw [if_pos (hqp ▸ hp)] at hold
          simp only [State.unrefPubkeyBlob, hqp, Function.update_self] at hold ⊢
          omega
        · have hsame : q ∈ l₁ ++ l₂ ↔ q ∈ s.pubkeyBlobList := by
            rw [hmem]
            exact and_iff_left hqp
          simp only [State.unrefPubkeyBlob, Function.update_of_ne hqp, hsame]
          exact hold
      · exact h.bound q ((hmem q).mp hq).1
    have herase : (l₁ ++ p :: l₂).erase p = l₁ ++ l₂ := by
      rw [List.erase_append_right _ hl₁, List.erase_cons_head]
    simp only [hsplit, takeWhile_ne hl₁, dropWhile_ne hl₁, List.tail_cons, herase]
    apply hrest
    simp only [Option.any_eq_true]
    split_ifs with hprev hnext
    · obtain ⟨q, hlast, hkey⟩ := hprev
      exact hindexes.remove_member hlast (of_decide_eq_true hkey)
    · have hfront : ∀ q, l₁.getLast? = some q → s.ripeOrTagOf q ≠ s.ripeOrTagOf p :=
        fun q hlast hkey => hprev ⟨q, hlast, decide_eq_true hkey⟩
      obtain ⟨q, hhead, hkey⟩ := hnext
      rw [hhead]
      exact hindexes.remove_first hfront hhead (of_decide_eq_true hkey)
    · have hfront : ∀ q, l₁.getLast? = some q → s.ripeOrTagOf q ≠ s.ripeOrTagOf p :=
        fun q hlast hkey => hprev ⟨q, hlast, decide_eq_true hkey⟩
      have honly := hindexes.remove_only hfront fun q hhead hkey =>
        hnext ⟨q, hhead, decide_eq_true hkey⟩
      split
      · exact honly
      · exact honly
  · exact h

/-- A new message tries nothing. -/
theorem create (h : Referenced s) (hid : m.id = s.nextMessage) (hnone : m.tryingPubkeyBlob = none)
    (hblob : m.blob = none) :
    Referenced { s with messages := s.messages ++ [m], nextMessage := s.nextMessage + 1 } where
  indexes := h.indexes
  inList := h.inList
  counted p := by
    have hsame : (s.messages ++ [m]).countP (·.tryingPubkeyBlob = some p) = s.trials p := by
      simp [State.trials, hnone]
    show (_ : Int) = ((if p ∈ s.pubkeyBlobList then 1 else 0) +
      (s.messages ++ [m]).countP (·.tryingPubkeyBlob = some p) : Nat)
    rw [hsame]
    exact h.counted p
  bound := h.bound
  tried m' hm' p hp := by
    rcases List.mem_append.mp hm' with hold | hnew
    · exact h.tried m' hold p hp
    · rw [List.mem_singleton.mp hnew, hnone] at hp
      cases hp
  ids := by
    rw [List.map_append, List.map_singleton, List.nodup_append]
    refine ⟨h.ids, List.nodup_singleton _, ?_⟩
    intro a ha b hb hab
    obtain ⟨old, hold, rfl⟩ := List.mem_map.mp ha
    have hlt := h.known old hold
    rw [List.mem_singleton.mp hb, hid] at hab
    exact absurd hab hlt.ne
  known m' hm' := by
    rcases List.mem_append.mp hm' with hold | hnew
    · exact Nat.lt_succ_of_lt (h.known m' hold)
    · rw [List.mem_singleton.mp hnew, hid]
      exact Nat.lt_succ_self _
  blobs m' hm' := by
    rcases List.mem_append.mp hm' with hold | hnew
    · exact h.blobs m' hold
    · rw [List.mem_singleton.mp hnew, hblob]
      nofun

/-- A message that tries nothing is freed. -/
theorem free (h : Referenced s) {id : Nat}
    (hnone : ∀ m ∈ s.messages, m.id = id → m.tryingPubkeyBlob = none) :
    Referenced { s with messages := s.messages.filter (·.id ≠ id) } where
  indexes := h.indexes
  inList := h.inList
  counted p := by
    have hsame : (s.messages.filter (·.id ≠ id)).countP (·.tryingPubkeyBlob = some p) =
        s.trials p := by
      rw [List.countP_filter, State.trials]
      refine List.countP_congr fun m hm => ?_
      have hfreed := hnone m hm
      simp only [Bool.and_eq_true, decide_eq_true_eq, and_iff_left_iff_imp]
      intro htries hid
      rw [hfreed hid] at htries
      cases htries
    show (_ : Int) = ((if p ∈ s.pubkeyBlobList then 1 else 0) +
      (s.messages.filter (·.id ≠ id)).countP (·.tryingPubkeyBlob = some p) : Nat)
    rw [hsame]
    exact h.counted p
  bound := h.bound
  tried m hm := h.tried m (List.mem_of_mem_filter hm)
  ids := h.ids.sublist (List.filter_sublist.map _)
  known m hm := h.known m (List.mem_of_mem_filter hm)
  blobs m hm := h.blobs m (List.mem_of_mem_filter hm)

theorem empty (keys : List (KeyringKey ssl)) (nextTask nextMessage : Nat)
    (log : List (Effect ssl)) : Referenced { keys, nextTask, nextMessage, log } where
  indexes := Indexes.new _
  inList _ := iff_of_false nofun List.not_mem_nil
  counted _ := rfl
  bound _ hp := absurd hp List.not_mem_nil
  tried _ hm := absurd hm List.not_mem_nil
  ids := List.nodup_nil
  known _ hm := absurd hm List.not_mem_nil
  blobs _ hm := absurd hm List.not_mem_nil

theorem shift (h : Referenced s) (hs : Shift s s') : Referenced s' := by
  cases hs with
  | other hindex => exact h.congr hindex
  | write hm => exact h.write hm
  | insert hcount hin => exact h.insertPubkeyBlob hcount hin
  | remove _ => exact h.removePubkeyBlob _
  | trial hm hp _ => exact h.setTrying hm hp
  | release hm _ => exact h.cancelMessageTasks hm
  | create hid hnone hblob => exact h.create hid hnone hblob
  | free hnone => exact h.free hnone
  | restart keys => exact empty keys _ _ _

theorem shifts (h : Referenced s) (hs : Shifts s s') : Referenced s' := by
  induction hs with
  | refl => exact h
  | tail _ hshift ih => exact ih.shift hshift

end Referenced

end Notbit.Keyring
