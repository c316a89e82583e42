import Notbit.Keyring.Requests

/-!
# Records — whether the send times that are saved are those of objects that were sent

`add_outgoing` takes the send time back in the states in which the object is still on its way.  It
misses the state in which the msg object is being built, and the requests whose proof of work was
cancelled.
-/

open Bytes Traced Notbit.Proto

namespace Notbit.Keyring

variable {ssl : OpenSSL} {env : Env ssl} {s s' : State ssl} {m m' : Message ssl}

/-- The times of a record suppress sending only what was sent. -/
def RecordSent (log : List (Effect ssl)) (record : Record) : Prop :=
  ∀ now,
    (maxAgeForType .msg ≤ now → now - record.lastMsgSendTime < maxAgeForType .msg →
      MsgSent log record.lastMsgSendTime record.ackdata record.toAddress) ∧
    (maxAgeForType .getpubkey ≤ now →
      now - record.lastGetpubkeySendTime < maxAgeForType .getpubkey →
        GetpubkeySent log record.lastGetpubkeySendTime record.toAddress)

theorem RecordOk.recordSent {log : List (Effect ssl)} {record : Record}
    (h : RecordOk False log record) : RecordSent log record := by
  obtain ⟨hgetpubkey, hmsg⟩ := h not_false
  intro now
  constructor
  · intro hnow hrecent
    rcases hmsg with hzero | hsent
    · rw [hzero] at hrecent
      omega
    · exact hsent
  · intro hnow hrecent
    rcases hgetpubkey with hzero | hsent
    · rw [hzero] at hrecent
      omega
    · exact hsent

/-! ## 1. What a restart does with a message -/

/-- The message waits for the network only if its object was sent recently. -/
def Recent (env : Env ssl) (m : Message ssl) : Prop :=
  (m.state = .awaitingAcknowledgement →
    env.now - m.lastMsgSendTime < maxAgeForType .msg) ∧
  (m.state = .awaitingPubkey →
    env.now - m.lastGetpubkeySendTime < maxAgeForType .getpubkey ∧ m.getpubkeyInterrupted = false)

theorem recent_setMessage {id : Nat} (hm : m' ∈ (s.setMessage m).messages)
    (hrecent : Recent env m) (hid : m.id = id) :
    Recent env m' ∨ m' ∈ s.messages ∧ m'.id ≠ id := by
  rcases Inv.mem_setMessage.mp hm with ⟨rfl, -⟩ | hother
  · exact .inl hrecent
  · rw [← hid]
    exact .inr hother

theorem recent_postMessage (hm : m' ∈ (s.postMessage env m).messages) :
    Recent env m' ∨ m' ∈ s.messages ∧ m'.id ≠ m.id := by
  unfold State.postMessage at hm
  split_ifs at hm with hrecent
  · exact recent_setMessage hm ⟨fun _ => hrecent, nofun⟩ rfl
  · let m₁ : Message ssl := { m with state := .loadingContent, storeCookie := some s.nextTask }
    have hm₁ : m' ∈ ((s.request (.loadContent m.id m.contentId)).2.setMessage m₁).messages := hm
    exact recent_setMessage hm₁ ⟨nofun, nofun⟩ rfl

theorem recent_sendGetpubkeyRequest (hgoing : m.getpubkeyInterrupted = false)
    (hm : m' ∈ (s.sendGetpubkeyRequest env m).messages) :
    Recent env m' ∨ m' ∈ s.messages ∧ m'.id ≠ m.id := by
  unfold State.sendGetpubkeyRequest at hm
  split_ifs at hm with hrecent
  · exact recent_setMessage hm ⟨nofun, fun _ => ⟨hrecent, hgoing⟩⟩ rfl
  · rcases Inv.mem_setMessage.mp hm with ⟨rfl, -⟩ | hother
    · exact .inl ⟨by simp, by simp⟩
    · exact .inr hother

theorem mem_setTrying {p : Nat} (hm : m' ∈ (s.setTrying m p).1.messages) (hne : m'.id ≠ m.id) :
    m' ∈ s.messages := by
  have hmessages : (s.unrefTrying m).messages = s.messages :=
    congrArg (·.1) (State.core_unrefTrying s m)
  rcases Inv.mem_setMessage.mp hm with ⟨rfl, -⟩ | ⟨hold, -⟩
  · exact absurd rfl hne
  · rw [← hmessages]
    exact hold

theorem recent_tryPubkeyBlobForMessage {p : Nat}
    (hs : s.tryPubkeyBlobForMessage env m p = some s') (hm : m' ∈ s'.messages) :
    Recent env m' ∨ m' ∈ s.messages ∧ m'.id ≠ m.id := by
  simp only [State.tryPubkeyBlobForMessage] at hs
  split at hs
  · cases hs
  · cases hs
    rcases Inv.mem_setMessage.mp hm with ⟨rfl, -⟩ | ⟨hold, hne⟩
    · exact .inl ⟨by simp, by simp⟩
    · exact .inr ⟨mem_setTrying hold hne, hne⟩
  · cases hs
    rcases Inv.mem_setMessage.mp hm with ⟨rfl, -⟩ | ⟨hold, hne⟩
    · exact .inl ⟨by simp, by simp⟩
    · exact .inr ⟨mem_setTrying hold hne, hne⟩

theorem recent_tryGroup {group : List Nat} (hgoing : m.getpubkeyInterrupted = false)
    (hm : m' ∈ (s.tryGroup env group m).messages) :
    Recent env m' ∨ m' ∈ s.messages ∧ m'.id ≠ m.id := by
  induction group generalizing s m with
  | nil => exact recent_sendGetpubkeyRequest hgoing hm
  | cons p group ih =>
    unfold State.tryGroup at hm
    split at hm
    next s' hs => exact recent_tryPubkeyBlobForMessage hs hm
    next =>
      rcases ih (m := (s.setTrying m p).2) hgoing hm with hrecent | ⟨hold, hne⟩
      · exact .inl hrecent
      · exact .inr ⟨mem_setTrying hold hne, hne⟩

theorem recent_loadOrPost (hgoing : m.getpubkeyInterrupted = false)
    (hm : m' ∈ (s.loadOrPost env m).messages) :
    Recent env m' ∨ m' ∈ s.messages ∧ m'.id ≠ m.id := by
  unfold State.loadOrPost at hm
  split at hm
  · exact recent_tryGroup hgoing hm
  · exact recent_postMessage hm

theorem recent_forEachOutgoingCb {record : Record} (hall : ∀ m ∈ s.messages, Recent env m) :
    ∀ m ∈ (s.forEachOutgoingCb env record).messages, Recent env m := by
  unfold State.forEachOutgoingCb
  extract_lets s₁
  have hmessages : s₁.messages = s.messages := by
    unfold s₁
    split_ifs <;> rfl
  rw [← hmessages] at hall
  clear_value s₁
  split
  next => exact hall
  next fromKey _ =>
    intro m' hm'
    rcases recent_loadOrPost (m := (s₁.createLoaded fromKey record).1) rfl hm' with
      hrecent | ⟨hold, hne⟩
    · exact hrecent
    · -- the other messages were there before
      rcases Inv.mem_setMessage.mp hold with ⟨rfl, -⟩ | ⟨hold, -⟩
      · exact absurd rfl hne
      · rcases List.mem_append.mp hold with hold | hnew
        · exact hall m' hold
        · rw [List.mem_singleton.mp hnew] at hne
          exact absurd rfl hne

theorem recent_restart {keys : List (KeyringKey ssl)} {pubkeys : List Blob}
    {records : List Record} :
    ∀ m ∈ (s.restart env keys pubkeys records).messages, Recent env m := by
  let s₀ : State ssl :=
    { keys, nextTask := s.nextTask, nextMessage := s.nextMessage, log := s.log }
  have hempty : (pubkeys.foldl (State.handlePubkey env) s₀).messages = [] :=
    congrArg (·.1) (Inv.core_handlePubkeys (s := s₀) env pubkeys rfl)
  have hstart : ∀ m ∈ (pubkeys.foldl (State.handlePubkey env) s₀).messages, Recent env m := by
    rw [hempty]
    simp
  have hloop : ∀ s : State ssl, (∀ m ∈ s.messages, Recent env m) →
      ∀ m ∈ (records.foldl (State.forEachOutgoingCb env) s).messages, Recent env m := by
    induction records with
    | nil => exact fun s hs => hs
    | cons record records ih => exact fun s hs => ih _ (recent_forEachOutgoingCb hs)
  exact hloop _ hstart

/-! ## 2. Runs -/

/-- Every message that waits for the network has its object there. -/
def WaitsForSent (s : State ssl) : Prop :=
  ∀ m ∈ s.messages,
    (m.state = .awaitingAcknowledgement →
      MsgSent s.log m.lastMsgSendTime m.ackdata m.toAddress) ∧
    (m.state = .awaitingPubkey → GetpubkeySent s.log m.lastGetpubkeySendTime m.toAddress)

theorem Inv.waitsForSent (h : Inv False False s none) (hnow : maxAgeForType .msg ≤ env.now)
    (hrecent : ∀ m ∈ s.messages, Recent env m) : WaitsForSent s := by
  intro m hm
  have htimes := h.times m hm nofun
  constructor
  · intro hstate
    have hage := (hrecent m hm).1 hstate
    rcases htimes.msg (by rw [hstate]; decide) (by rw [hstate]; decide) with hzero | hsent | hfalse
    · rw [hzero] at hage
      omega
    · exact hsent
    · cases hfalse
  · intro hstate
    obtain ⟨hage, hgoing⟩ := (hrecent m hm).2 hstate
    rcases htimes.getpubkey (by rw [hstate]; decide) with hinterrupted | hzero | hsent | ⟨hfalse, -⟩
    · rw [hgoing] at hinterrupted
      cases hinterrupted
    · rw [hzero] at hage
      have hsame : maxAgeForType .msg = maxAgeForType .getpubkey := rfl
      omega
    · exact hsent
    · cases hfalse

/-- The record of a settled message has no send time of an object that was not sent, and a restart
from such records leaves no message waiting for an object that was not sent. -/
def SavedTimesSent (s : State ssl) : Prop :=
  (∀ m ∈ s.messages, Settled m → RecordSent s.log (addOutgoing m)) ∧
    ∀ env keys pubkeys save s', maxAgeForType .msg ≤ env.now →
      RestartsSettled s (.restart env keys pubkeys save) →
        step s (.restart env keys pubkeys save) = some s' → WaitsForSent s'

/-- In every run in which the restarts are from records of settled messages, the saved send times
are those of objects that were sent. -/
theorem saved_times_sent (keys : List (KeyringKey ssl)) (events : List (Event ssl))
    (hsettled : Runs.Along step RestartsSettled (State.new keys) events) :
    SavedTimesSent (Runs.run step (State.new keys) events) := by
  have h : Inv False False (Runs.run step (State.new keys) events) none :=
    Runs.invariant_along (P := fun s => Inv False False s none)
      (fun s e s' hs hok he => hs.step nofun (fun _ => hok) he) hsettled (inv_new keys)
  constructor
  · intro m hm hm'
    exact ((h.times m hm nofun).recordOk fun _ => hm').recordSent
  · intro env keys pubkeys save s' hnow hrestart hs
    refine (h.step nofun (fun _ => hrestart) hs).waitsForSent hnow ?_
    obtain ⟨records, -, rfl⟩ := Option.map_eq_some_iff.mp hs
    exact recent_restart

/-! ## 3. A record that is wrong -/

/-- The stranger is in the keyring. -/
def acquaintedKeys : List (KeyringKey .additive) :=
  sampleKeys ++ [.other
    { address := strangerAddress
      nonceTrialsPerByte := leastTrials
      payloadLengthExtraBytes := leastExtraBytes
      signingKey := (3 : Fin (2 ^ 256))
      encryptionKey := (4 : Fin (2 ^ 256)) }]

/-- Mail for the stranger, up to the building of the msg object. -/
def buildingMsg : List (Event .additive) :=
  askingForPubkey ++ [.complete sampleEnv 1 (.content (some [])), .complete sampleEnv 2 (.nonce 0)]

/-- The record of a message in state `CREATE_MSG_BLOB` says that it was sent. -/
theorem buildingMsg_not_sent :
    ¬ ∀ m ∈ (Runs.run step (State.new acquaintedKeys) buildingMsg).messages,
      m.state ≠ .generatingAckdata →
        RecordSent (Runs.run step (State.new acquaintedKeys) buildingMsg).log (addOutgoing m) := by
  have hlog : (Runs.run step (State.new acquaintedKeys) buildingMsg).log.all (!·.sends) = true := by
    decide +kernel
  have hbuilding : (Runs.run step (State.new acquaintedKeys) buildingMsg).messages.any (fun m =>
      m.state = .createMsgBlob ∧ m.lastMsgSendTime = 1400000000) = true := by
    decide +kernel
  intro hall
  obtain ⟨m, hm, hfields⟩ := List.any_eq_true.mp hbuilding
  obtain ⟨hstate, htime⟩ := of_decide_eq_true hfields
  have hrecord : (addOutgoing m).lastMsgSendTime = 1400000000 := by
    rw [← htime]
    simp [addOutgoing, hstate]
  obtain ⟨m', blob, hsent, -⟩ := (hall m hm (by rw [hstate]; decide) 1400000000).1 (by decide)
    (by rw [hrecord]; decide)
  simpa [Effect.sends] using List.all_eq_true.mp hlog _ hsent

instance (m : Message ssl) : Decidable (Settled m) := inferInstanceAs (Decidable (_ ∧ _))

def Effect.settled : Effect ssl → Bool
  | .saveOutgoings messages => messages.all (decide <| Settled ·)
  | _ => true

/-- The mail is saved before its content is loaded, and the program starts again from there. -/
def restartedMail : List (Event .additive) :=
  askingForPubkey ++ [.restart sampleEnv acquaintedKeys [] 1]

theorem restartedMail_sent :
    SavedTimesSent (Runs.run step (State.new acquaintedKeys) restartedMail) := by
  refine saved_times_sent acquaintedKeys restartedMail ⟨?_, ?_, ?_, trivial⟩
  · rintro - _ _ _ _ ⟨⟩
  · rintro - _ _ _ _ ⟨⟩
  · rintro - _ _ _ _ ⟨⟩ messages hsave m hm
    have hlog : (Runs.run step (State.new acquaintedKeys) askingForPubkey).log.all
        Effect.settled = true := by
      decide +kernel
    have hmessages := List.all_eq_true.mp hlog _ (List.mem_of_getElem? hsave)
    exact of_decide_eq_true (List.all_eq_true.mp hmessages m hm)

end Notbit.Keyring
