import Notbit.Keyring.Cancels
import Notbit.Keyring.Contents

/-!
# ContentSteps — what events do to the contents of messages (`ntb-keyring.c`)

An event leaves the users of the contents as they are, or it is a new mail, or it acknowledges one
message.
-/

open Bytes Traced Notbit.Proto

namespace Notbit.Keyring

variable {ssl : OpenSSL} {env : Env ssl} {s s' : State ssl} {m m' : Message ssl} {p : Nat}

/-! ## 1. The contents of a keyring -/

def Effect.contentCall? : Effect ssl → Option ContentCall
  | .saveMessageContent id content => some (.save id content)
  | .deleteMessageContent id => some (.delete id)
  | .addBlob _ _ | .addObjectFromData _ | .saveKeys _ | .saveOutgoings _ | .saveMessage _ _ _ _
  | .loadedOutgoing _ _ => none

def State.contents (s : State ssl) : Contents where
  users := s.messages.map fun m => (m.id, m.contentId)
  next := s.nextMessageContentId
  calls := s.log.filterMap Effect.contentCall?

/-- The message with the number of `m` has its content, if there is one. -/
def Carries (s : State ssl) (m : Message ssl) : Prop :=
  ∀ contentId, (m.id, contentId) ∈ s.contents.users → contentId = m.contentId

theorem Carries.of_subset (h : Carries s m) (hsub : s'.contents.users ⊆ s.contents.users)
    (hid : m'.id = m.id) (hcontent : m'.contentId = m.contentId) : Carries s' m' := by
  intro contentId hmem
  rw [hid] at hmem
  rw [hcontent]
  exact h contentId (hsub hmem)

-- With other fields it is the same message.
theorem Carries.again (h : Carries s m) (hc : s'.contents = s.contents) (hid : m'.id = m.id)
    (hcontent : m'.contentId = m.contentId) : Carries s' m' :=
  h.of_subset (by rw [hc]; exact List.Subset.refl _) hid hcontent

theorem Agrees.carries (h : Agrees s m) : Carries s m := by
  intro contentId hmem
  obtain ⟨old, hold, heq⟩ := List.mem_map.mp hmem
  obtain ⟨hid, rfl⟩ := Prod.mk.inj heq
  exact congrArg Prod.snd (h.letter old hold hid)

/-! ## 2. What leaves them as they are -/

theorem contents_of_letters (h : s'.letters = s.letters) : s'.contents = s.contents := by
  simp only [State.letters, Prod.mk.injEq] at h
  obtain ⟨-, hmessages, -, hnext, -, hlog⟩ := h
  rw [State.contents, State.contents, hmessages, hnext, hlog]

theorem contents_emit {effects : List (Effect ssl)} (h : ∀ e ∈ effects, e.contentCall? = none) :
    (s.emit effects).contents = s.contents := by
  have hnone : effects.filterMap Effect.contentCall? = [] := List.filterMap_eq_nil_iff.mpr h
  simp only [State.contents, State.emit, List.filterMap_append, hnone, List.append_nil]

theorem contents_saveMessages (s : State ssl) : s.saveMessages.contents = s.contents :=
  contents_emit (by simp [Effect.contentCall?])

theorem contents_saveKeyring (s : State ssl) : s.saveKeyring.contents = s.contents :=
  contents_emit (by simp [Effect.contentCall?])

theorem contents_setMessage (h : Carries s m) : (s.setMessage m).contents = s.contents := by
  have husers : (s.setMessage m).contents.users = s.contents.users := by
    simp only [State.contents, State.setMessage, List.map_map]
    apply List.map_congr_left
    intro old hold
    dsimp only [Function.comp_apply]
    split_ifs with hid
    · have hmem : (m.id, old.contentId) ∈ s.contents.users := by
        rw [← hid]
        exact List.mem_map_of_mem (f := fun m : Message ssl => (m.id, m.contentId)) hold
      rw [h _ hmem, hid]
    · rfl
  exact congrArg (fun users => { s.contents with users }) husers

-- A request and the message that waits for it.
theorem contents_requestFor (h : Carries s m) (job : Job ssl) (hid : m'.id = m.id)
    (hcontent : m'.contentId = m.contentId) :
    ((s.request job).2.setMessage m').contents = s.contents := by
  have hrequest : (s.request job).2.contents = s.contents := rfl
  exact (contents_setMessage (h.again hrequest hid hcontent)).trans hrequest

theorem contents_unrefTrying (s : State ssl) (m : Message ssl) :
    (s.unrefTrying m).contents = s.contents := by
  apply contents_of_letters
  unfold State.unrefTrying
  split <;> rfl

theorem contents_cancelMessageTasks (h : Carries s m) :
    (s.cancelMessageTasks m).1.contents = s.contents := by
  have hunref : ((s.cancelAll m).unrefTrying m).contents = s.contents :=
    contents_unrefTrying (s.cancelAll m) m
  have hthere : Carries ((s.cancelAll m).unrefTrying m) (s.cancelMessageTasks m).2 :=
    h.again hunref rfl rfl
  exact (contents_setMessage hthere).trans hunref

theorem contents_postMessage (h : Carries s m) : (s.postMessage env m).contents = s.contents := by
  unfold State.postMessage
  split_ifs
  · exact contents_setMessage (h.again rfl rfl rfl)
  · exact contents_requestFor h _ rfl rfl

theorem contents_sendGetpubkeyRequest (h : Carries s m) :
    (s.sendGetpubkeyRequest env m).contents = s.contents := by
  unfold State.sendGetpubkeyRequest
  split_ifs
  · exact contents_setMessage (h.again rfl rfl rfl)
  · exact contents_requestFor h _ rfl rfl

theorem contents_setTrying (h : Carries s m) (p : Nat) :
    (s.setTrying m p).1.contents = s.contents := by
  have hunref := contents_unrefTrying s m
  exact (contents_setMessage (m := (s.setTrying m p).2) (h.again hunref rfl rfl)).trans hunref

theorem contents_tryPubkeyBlobForMessage (h : Carries s m)
    (hs : s.tryPubkeyBlobForMessage env m p = some s') : s'.contents = s.contents := by
  have hset := contents_setTrying h p
  have hthere : Carries (s.setTrying m p).1 (s.setTrying m p).2 := h.again hset rfl rfl
  simp only [State.tryPubkeyBlobForMessage] at hs
  split at hs
  · cases hs
  · cases hs
    refine Eq.trans ?_ hset
    exact contents_requestFor hthere _ rfl rfl
  · cases hs
    refine Eq.trans ?_ hset
    exact contents_requestFor hthere _ rfl rfl

theorem contents_tryGroup (h : Carries s m) (group : List Nat) :
    (s.tryGroup env group m).contents = s.contents := by
  induction group generalizing s m with
  | nil => exact contents_sendGetpubkeyRequest h
  | cons p group ih =>
    unfold State.tryGroup
    split
    next s' hs => exact contents_tryPubkeyBlobForMessage h hs
    next =>
      have hset := contents_setTrying h p
      have hthere : Carries (s.setTrying m p).1 (s.setTrying m p).2 := h.again hset rfl rfl
      exact (ih hthere).trans hset

theorem contents_loadOrPost (h : Carries s m) : (s.loadOrPost env m).contents = s.contents := by
  unfold State.loadOrPost
  split
  · exact contents_tryGroup h _
  · exact contents_postMessage h

theorem contents_removePubkeyBlob (s : State ssl) (p : Nat) :
    (s.removePubkeyBlob p).contents = s.contents := by
  apply contents_of_letters
  unfold State.removePubkeyBlob
  split_ifs <;> rfl

theorem contents_abandonPubkey (h : Carries s m) (hs : s.abandonPubkey env m = some s') :
    s'.contents = s.contents := by
  obtain ⟨p, -, heq⟩ := Option.bind_eq_some_iff.mp hs
  cases heq
  have hremove := contents_removePubkeyBlob s p
  exact (contents_tryGroup (h.again hremove rfl rfl) _).trans hremove

theorem contents_addPublicKey (s : State ssl) (key : PublicKey ssl) :
    (s.addPublicKey key).contents = s.contents := by
  unfold State.addPublicKey
  split_ifs
  · rfl
  · exact contents_saveKeyring _

theorem contents_handleGetpubkey (s : State ssl) (blob : Blob) :
    (s.handleGetpubkey env blob).contents = s.contents := by
  rcases State.handleGetpubkey_cases (s := s) (e := env) blob with h | ⟨i, key, h⟩
  · rw [h]
  · rw [h, State.maybePostKey]
    split_ifs
    · rfl
    · exact contents_saveKeyring { s with keys := s.keys.set i _ }

theorem contents_addPublicKeyFromNetworkKeys (s : State ssl) (address : Address)
    (signingKey encryptionKey : List UInt8) (nonceTrialsPerByte extraBytes : Nat) :
    (s.addPublicKeyFromNetworkKeys address signingKey encryptionKey nonceTrialsPerByte
      extraBytes).contents = s.contents := by
  unfold State.addPublicKeyFromNetworkKeys
  split_ifs <;> rfl

-- A loop over the numbers of the messages.
theorem contents_foldl {α : Type} {f : State ssl → α → State ssl}
    (hf : ∀ s a, Lettered s → Lettered (f s a) ∧ (f s a).contents = s.contents) (h : Lettered s)
    (l : List α) : (l.foldl f s).contents = s.contents := by
  induction l generalizing s with
  | nil => rfl
  | cons a l ih => exact (ih (hf s a h).1).trans (hf s a h).2

/-- Nothing is allowed that needs permission. -/
def anything (ssl : OpenSSL) : Allowed ssl where
  mail _ := True
  keys _ := True

theorem contents_checkPubkeyBlobWithMessage (h : Lettered s) (p id : Nat) :
    (State.checkPubkeyBlobWithMessage env p s id).contents = s.contents := by
  unfold State.checkPubkeyBlobWithMessage
  split
  next => rfl
  next m hfind =>
    split_ifs
    · have hm : Carries s m.interrupt := ((h.agrees_find hfind).again rfl rfl rfl).carries
      have hcancel := contents_cancelMessageTasks hm
      have hthere : Carries (s.cancelMessageTasks m.interrupt).1
          (s.cancelMessageTasks m.interrupt).2 := hm.again hcancel rfl rfl
      dsimp only
      split
      next s' hs => exact (contents_tryPubkeyBlobForMessage hthere hs).trans hcancel
      next => exact (contents_setTrying hthere p).trans hcancel
    · rfl

theorem contents_checkPubkeyBlobWithMessages (env : Env ssl) (h : Lettered s) (p : Nat) :
    (s.checkPubkeyBlobWithMessages env p).contents = s.contents := by
  refine contents_foldl (fun s id hs => ⟨?_, contents_checkPubkeyBlobWithMessage hs p id⟩) h _
  have hmoves : Moves (anything ssl) s (s.checkPubkeyBlobWithMessage env p id) :=
    moves_checkPubkeyBlobWithMessage hs p id
  exact hs.moves hmoves

theorem contents_handlePubkey (env : Env ssl) (h : Lettered s) (blob : Blob) :
    (s.handlePubkey env blob).contents = s.contents := by
  unfold State.handlePubkey
  split
  next => rfl
  next entry _ =>
    have hletters : (s.insertPubkeyBlob entry).2.letters = s.letters := by
      simp only [State.insertPubkeyBlob]
      split <;> rfl
    have hinsert : Moves (anything ssl) s (s.insertPubkeyBlob entry).2 :=
      Move.moves (.pubkeys hletters)
    exact (contents_checkPubkeyBlobWithMessages env (h.moves hinsert) _).trans
      (contents_of_letters hletters)

/-! ## 3. Acknowledgements -/

theorem contents_maybeDeleteMessageContent (s : State ssl) (contentId : Nat) :
    (s.maybeDeleteMessageContent contentId).contents =
      { s.contents with calls := s.contents.calls ++ s.contents.deletion contentId } := by
  have huses : s.contents.Uses contentId ↔ s.messages.any (·.contentId = contentId) = true := by
    simp only [Contents.Uses, State.contents, List.map_map, List.mem_map, Function.comp_apply,
      List.any_eq_true, decide_eq_true_eq]
  unfold State.maybeDeleteMessageContent Contents.deletion
  rw [if_congr huses rfl rfl]
  split_ifs
  · rw [List.append_nil]
  · simp only [State.contents, State.emit, List.filterMap_append, List.filterMap_cons,
      List.filterMap_nil, Effect.contentCall?]

theorem contents_messageAcknowledged (h : Carries s m) :
    (s.messageAcknowledged m).contents = s.contents.acknowledge m.id m.contentId := by
  have hfree : (s.freeMessage m).contents =
      { s.contents with users := s.contents.users.filter (·.1 ≠ m.id) } := by
    rw [← contents_cancelMessageTasks h]
    simp only [State.contents, State.freeMessage, List.filter_map]
    rfl
  refine (contents_saveMessages _).trans ?_
  rw [contents_maybeDeleteMessageContent, hfree]
  rfl

theorem contents_handleMsg (h : Lettered s) (blob : Blob) :
    s.contents.Settles (s.handleMsg blob).contents := by
  unfold State.handleMsg
  split
  · split
    next m hfind =>
      have hm : m ∈ s.messages := mem_of_acknowledgedMessage hfind
      rw [contents_messageAcknowledged (h.agrees hm).carries]
      exact .acknowledged (List.mem_map.mpr ⟨m, hm, rfl⟩)
    next => exact .same
  · exact .same

theorem contents_newObjectCb (env : Env ssl) (h : Lettered s) (blob : Blob) :
    s.contents.Settles (s.newObjectCb env blob).contents := by
  unfold State.newObjectCb
  split
  · rw [contents_handleGetpubkey]
    exact .same
  · rw [contents_handlePubkey env h]
    exact .same
  · exact contents_handleMsg h blob
  · exact .same

theorem contents_announce (env : Env ssl) (h : Lettered s) (blob : Blob) :
    s.contents.Settles (s.announce env blob).contents := by
  unfold State.announce
  split_ifs
  · exact contents_newObjectCb env h blob
  · exact .same

theorem contents_addBlob (env : Env ssl) (h : Lettered s) (message : Option (Message ssl))
    (blob : Blob) : s.contents.Settles (s.addBlob env message blob).contents := by
  have hemit : (s.emit [.addBlob message blob]).contents = s.contents :=
    contents_emit (by simp [Effect.contentCall?])
  have hthere : Lettered (s.emit [.addBlob message blob]) :=
    h.congr rfl rfl (List.Subset.refl _)
  rw [← hemit]
  exact contents_announce env hthere blob

theorem contents_sendAcknowledgement (env : Env ssl) (h : Lettered s) (ack : List UInt8) :
    s.contents.Settles (s.sendAcknowledgement env ack).contents := by
  unfold State.sendAcknowledgement
  extract_lets name
  split_ifs
  · exact .same
  · split
    next => exact .same
    next type _ =>
      have hemit : (s.emit [.addObjectFromData { type, data := ack.drop headerSize }]).contents =
          s.contents := contents_emit (by simp [Effect.contentCall?])
      have hthere : Lettered (s.emit [.addObjectFromData { type, data := ack.drop headerSize }]) :=
        h.congr rfl rfl (List.Subset.refl _)
      rw [← hemit]
      exact contents_announce env hthere _

theorem contents_decryptMsgCb (env : Env ssl) (h : Lettered s) (timestamp : Int)
    (key : KeyringKey ssl) (plaintext : List UInt8) :
    s.contents.Settles (s.decryptMsgCb env timestamp key plaintext).contents := by
  unfold State.decryptMsgCb
  extract_lets mem
  split
  next => exact .same
  next msg _ =>
    split_ifs
    · exact .same
    · exact .same
    · rw [contents_emit (by simp [Effect.contentCall?])]
      obtain ⟨hkey, -⟩ := moves_addPublicKeyFromNetworkKeys (anything ssl) s
        (senderAddress ssl plaintext msg) (window mem msg.senderSigningKey 64)
        (window mem msg.senderEncryptionKey 64) msg.nonceTrialsPerByte msg.extraBytes
      have hack := contents_sendAcknowledgement env (h.moves hkey)
        (window mem msg.ack msg.ackLength)
      rwa [contents_addPublicKeyFromNetworkKeys] at hack

/-! ## 4. Events -/

-- A callback first clears its cookie.
theorem carries_cleared (m' : Message ssl) (h : Carries s m) (hid : m'.id = m.id)
    (hcontent : m'.contentId = m.contentId) :
    (s.setMessage m').contents = s.contents ∧ Carries (s.setMessage m') m' := by
  have hset := contents_setMessage (h.again rfl hid hcontent)
  exact ⟨hset, h.again hset hid hcontent⟩

-- The object of a message may acknowledge any message before the message is written again.
theorem contents_handOver {blob : Blob} (h : Lettered s) (hm : Carries s m)
    (hid : m'.id = m.id) (hcontent : m'.contentId = m.contentId) :
    s.contents.Settles ((s.addBlob env (some m) blob).setMessage m').saveMessages.contents := by
  have hsettles := contents_addBlob env h (some m) blob
  rw [contents_saveMessages, contents_setMessage (hm.of_subset hsettles.users_subset hid hcontent)]
  exact hsettles

theorem contents_generateAckdataCb (h : Carries s m)
    (ackdata : { bytes : List UInt8 // bytes.length = ackdataSize }) :
    (s.generateAckdataCb env m ackdata).contents = s.contents := by
  obtain ⟨hset, hthere⟩ := carries_cleared { m with ackdata, cryptoCookie := none } h rfl rfl
  exact ((contents_saveMessages _).trans (contents_loadOrPost hthere)).trans hset

theorem contents_checkPubkeyCb {key : Option (PublicKey ssl)} (h : Carries s m)
    (hs : s.checkPubkeyCb env m key = some s') : s'.contents = s.contents := by
  obtain ⟨hset, hthere⟩ := carries_cleared { m with cryptoCookie := none } h rfl rfl
  unfold State.checkPubkeyCb at hs
  cases key with
  | none => exact (contents_abandonPubkey hthere hs).trans hset
  | some key =>
    cases hs
    have hadd := contents_addPublicKey (s.setMessage { m with cryptoCookie := none }) key
    have hagain : Carries ((s.setMessage { m with cryptoCookie := none }).addPublicKey key)
        { m with cryptoCookie := none, toKey := some key } := hthere.again hadd rfl rfl
    refine Eq.trans ?_ (hadd.trans hset)
    exact contents_postMessage hagain

theorem contents_loadPubkeyFromStoreCb {blob : Option Blob} (h : Carries s m)
    (hs : s.loadPubkeyFromStoreCb env m blob = some s') : s'.contents = s.contents := by
  obtain ⟨hset, hthere⟩ := carries_cleared { m with storeCookie := none } h rfl rfl
  unfold State.loadPubkeyFromStoreCb at hs
  cases blob with
  | none => exact (contents_abandonPubkey hthere hs).trans hset
  | some blob =>
    cases hs
    refine Eq.trans ?_ hset
    exact contents_requestFor hthere _ rfl rfl

theorem contents_getpubkeyPowCb {nonce : Nat} (h : Lettered s) (hm : Agrees s m)
    (hs : s.getpubkeyPowCb env m nonce = some s') : s.contents.Settles s'.contents := by
  obtain ⟨blob, -, hs⟩ := Option.bind_eq_some_iff.mp hs
  obtain ⟨-, -, hs⟩ := Option.bind_eq_some_iff.mp hs
  cases hs
  obtain ⟨hset, hthere⟩ := carries_cleared { m with powCookie := none } hm.carries rfl rfl
  rw [← hset]
  exact contents_handOver (h.write (hm.again rfl rfl rfl)) hthere rfl rfl

theorem contents_msgPowCb {nonce : Nat} (h : Lettered s) (hm : Agrees s m)
    (hs : s.msgPowCb env m nonce = some s') : s.contents.Settles s'.contents := by
  obtain ⟨blob, -, hs⟩ := Option.bind_eq_some_iff.mp hs
  obtain ⟨-, -, hs⟩ := Option.bind_eq_some_iff.mp hs
  cases hs
  obtain ⟨hset, hthere⟩ := carries_cleared { m with powCookie := none } hm.carries rfl rfl
  rw [← hset]
  exact contents_handOver (h.write (hm.again rfl rfl rfl)) hthere rfl rfl

theorem contents_loadMessageContentCb {content : List UInt8} (h : Carries s m)
    (hs : s.loadMessageContentCb env m (some content) = some s') : s'.contents = s.contents := by
  obtain ⟨hset, hthere⟩ := carries_cleared { m with storeCookie := none } h rfl rfl
  obtain ⟨built, -, hs⟩ := Option.bind_eq_some_iff.mp hs
  cases hs
  refine Eq.trans ?_ hset
  exact contents_requestFor hthere _ rfl rfl

theorem contents_ackdataPowDone {nonce : Nat} (h : Carries s m)
    (hs : s.ackdataPowDone env m nonce = some s') : s'.contents = s.contents := by
  obtain ⟨blob, -, hs⟩ := Option.bind_eq_some_iff.mp hs
  obtain ⟨toKey, -, hs⟩ := Option.bind_eq_some_iff.mp hs
  cases hs
  exact contents_requestFor h _ rfl rfl

theorem contents_createMsgBlobCb {blob : Blob} (h : Carries s m)
    (hs : s.createMsgBlobCb m blob = some s') : s'.contents = s.contents := by
  obtain ⟨toKey, -, hs⟩ := Option.bind_eq_some_iff.mp hs
  cases hs
  exact contents_requestFor h _ rfl rfl

/-- A content that is loaded is there. -/
theorem contents_callback {job : Job ssl} {result : Result ssl} (h : Lettered s)
    (hfound : result ≠ .content none) (hs : callback env s job result = some s') :
    s.contents.Settles s'.contents := by
  unfold callback at hs
  split at hs
  next id ackdata =>
    obtain ⟨m, hfind, hs⟩ := Option.bind_eq_some_iff.mp hs
    cases hs
    rw [contents_generateAckdataCb (h.agrees_find hfind).carries]
    exact .same
  next id address blob =>
    obtain ⟨m, hfind, hs⟩ := Option.bind_eq_some_iff.mp hs
    obtain ⟨key, -, hs⟩ := Option.bind_eq_some_iff.mp hs
    rw [contents_checkPubkeyCb (h.agrees_find hfind).carries hs]
    exact .same
  next id timestamp fromKey toKey content =>
    obtain ⟨m, hfind, hs⟩ := Option.bind_eq_some_iff.mp hs
    rw [contents_createMsgBlobCb (h.agrees_find hfind).carries hs]
    exact .same
  next id payload nonce =>
    obtain ⟨m, hfind, hs⟩ := Option.bind_eq_some_iff.mp hs
    exact contents_getpubkeyPowCb h (h.agrees_find hfind) hs
  next id payload nonce =>
    obtain ⟨m, hfind, hs⟩ := Option.bind_eq_some_iff.mp hs
    rw [contents_ackdataPowDone (h.agrees_find hfind).carries hs]
    exact .same
  next id payload extraBytes trialsPerByte nonce =>
    obtain ⟨m, hfind, hs⟩ := Option.bind_eq_some_iff.mp hs
    exact contents_msgPowCb h (h.agrees_find hfind) hs
  next id hash blob =>
    obtain ⟨m, hfind, hs⟩ := Option.bind_eq_some_iff.mp hs
    rw [contents_loadPubkeyFromStoreCb (h.agrees_find hfind).carries hs]
    exact .same
  next id contentId content =>
    obtain ⟨m, hfind, hs⟩ := Option.bind_eq_some_iff.mp hs
    cases content with
    | none => exact absurd rfl hfound
    | some content =>
      rw [contents_loadMessageContentCb (h.agrees_find hfind).carries hs]
      exact .same
  next =>
    cases hs
    exact .same
  next =>
    cases hs
    exact contents_addBlob env h none _
  next =>
    split at hs
    · cases hs
      rw [contents_addPublicKey]
      exact .same
    · cases hs
  next timestamp blob keys result =>
    cases result with
    | none =>
      cases hs
      exact .same
    | some decrypted =>
      obtain ⟨key, plaintext⟩ := decrypted
      cases hs
      exact contents_decryptMsgCb env h timestamp key plaintext
  next => cases hs

theorem contents_resendMessage (h : Lettered s) (id : Nat) :
    (s.resendMessage env id).contents = s.contents := by
  unfold State.resendMessage
  split
  next => rfl
  next m hfind =>
    have hm := (h.agrees_find hfind).carries
    split
    · exact contents_sendGetpubkeyRequest hm
    · exact contents_postMessage hm
    · rfl

theorem contents_resendTimeoutCb (env : Env ssl) (h : Lettered s) :
    (s.resendTimeoutCb env).contents = s.contents := by
  refine contents_foldl (fun s id hs => ⟨?_, contents_resendMessage hs id⟩) h _
  have hmoves : Moves (anything ssl) s (s.resendMessage env id) := moves_resendMessage hs id
  exact hs.moves hmoves

theorem contents_gcTimeoutCb (s : State ssl) (now : Int) :
    (s.gcTimeoutCb now).contents = s.contents := by
  unfold State.gcTimeoutCb
  generalize s.pubkeyBlobList = l
  induction l generalizing s with
  | nil => rfl
  | cons p l ih =>
    rw [List.foldl_cons]
    split_ifs
    · exact (ih _).trans (contents_removePubkeyBlob s p)
    · exact ih s

-- A message is created with its content id.
theorem contents_createMessage (s : State ssl) (fromKey : Key ssl) (toAddress : Address)
    (contentEncoding : CInt) (contentId : Nat)
    (ackdata : { bytes : List UInt8 // bytes.length = ackdataSize }) :
    (s.createMessage fromKey toAddress contentEncoding contentId ackdata).2.contents =
      { s.contents with users := s.contents.users ++ [(s.nextMessage, contentId)] } := by
  simp only [State.contents, State.createMessage, List.map_append, List.map_cons, List.map_nil]

theorem contents_sendTo {fromKey : Key ssl} {contentEncoding : CInt} {contentId : Nat}
    {uninitialised : { bytes : List UInt8 // bytes.length = ackdataSize }} (h : Lettered s)
    (hcontent : contentId < s.nextMessageContentId) (toAddress : Address) :
    (s.sendTo fromKey contentEncoding contentId uninitialised toAddress).contents =
      { s.contents with users := s.contents.users ++ [(s.nextMessage, contentId)] } := by
  obtain ⟨-, hagrees⟩ := moves_createMessage (anything ssl) fromKey toAddress contentEncoding
    uninitialised hcontent
  rw [← contents_createMessage s fromKey toAddress contentEncoding contentId uninitialised]
  exact contents_requestFor (hagrees h).carries _ rfl rfl

theorem contents_sendToAll {fromKey : Key ssl} {contentEncoding : CInt} {contentId : Nat}
    {uninitialised : { bytes : List UInt8 // bytes.length = ackdataSize }} (h : Lettered s)
    (hcontent : contentId < s.nextMessageContentId) (toAddresses : List Address) :
    ∃ ids : List Nat, ids.length = toAddresses.length ∧
      (toAddresses.foldl (State.sendTo fromKey contentEncoding contentId uninitialised) s).contents =
        { s.contents with
          users := s.contents.users ++ ids.map fun id => (id, contentId) } := by
  induction toAddresses generalizing s with
  | nil => exact ⟨[], rfl, by rw [List.map_nil, List.append_nil]; rfl⟩
  | cons toAddress toAddresses ih =>
    have hsend : Moves (anything ssl) s
        (s.sendTo fromKey contentEncoding contentId uninitialised toAddress) :=
      moves_sendTo h hcontent toAddress
    obtain ⟨ids, hlength, hids⟩ := ih (h.moves hsend) hcontent
    refine ⟨s.nextMessage :: ids, by rw [List.length_cons, List.length_cons, hlength], ?_⟩
    rw [List.foldl_cons, hids, contents_sendTo h hcontent]
    simp only [List.map_cons, List.append_assoc, List.singleton_append]

theorem contents_sendMessage (h : Lettered s) (fromAddress : Address) (toAddresses : List Address)
    (contentEncoding : CInt) (content : List UInt8)
    (uninitialised : { bytes : List UInt8 // bytes.length = ackdataSize }) :
    s.contents.Step
      (s.sendMessage fromAddress toAddresses contentEncoding content uninitialised).contents := by
  unfold State.sendMessage
  split
  next => exact .settles .same
  next fromKey _ =>
    split_ifs with hne
    · exact .settles .same
    · have hsave : Moves (anything ssl) s
          ({ s with nextMessageContentId := s.nextMessageContentId + 1 }.emit
            [.saveMessageContent s.nextMessageContentId content]) :=
        Move.moves (.saveContent s content)
      obtain ⟨ids, hlength, hids⟩ := @contents_sendToAll _ _ fromKey contentEncoding
        s.nextMessageContentId uninitialised (h.moves hsave) (Nat.lt_succ_self _) toAddresses
      have hsubmit : (State.contents ({ s with
          nextMessageContentId := s.nextMessageContentId + 1 }.emit
            [.saveMessageContent s.nextMessageContentId content])) =
          { s.contents with
            next := s.contents.next + 1
            calls := s.contents.calls ++ [.save s.contents.next content] } := by
        simp only [State.contents, State.emit, List.filterMap_append, List.filterMap_cons,
          List.filterMap_nil, Effect.contentCall?]
      rw [hsubmit] at hids
      dsimp only
      rw [hids]
      refine .submitted (fun hnil => hne ?_) content
      rw [hnil] at hlength
      exact List.length_eq_zero_iff.mp hlength.symm

/-- No other event than a mail uses a new content. -/
theorem contents_settles {e : Event ssl} (h : Lettered s)
    (hkeep : ∀ env keys pubkeys save, e ≠ .restart env keys pubkeys save)
    (hsend : ∀ fromAddress toAddresses contentEncoding content uninitialised,
      e ≠ .sendMessage fromAddress toAddresses contentEncoding content uninitialised)
    (hfound : ∀ env t, e ≠ .complete env t (.content none)) (hs : step s e = some s') :
    s.contents.Settles s'.contents := by
  cases e with
  | sendMessage fromAddress toAddresses contentEncoding content uninitialised =>
    exact absurd rfl (hsend fromAddress toAddresses contentEncoding content uninitialised)
  | newObject env blob =>
    simp only [step] at hs
    split_ifs at hs
    cases hs
    exact contents_newObjectCb env h blob
  | complete env t result =>
    obtain ⟨⟨t', job⟩, -, hs⟩ := Option.bind_eq_some_iff.mp hs
    have hthere : Lettered (s.cancel (some t)) :=
      h.congr rfl rfl fun _ ht => List.mem_of_mem_filter ht
    have hresult : result ≠ .content none := by
      rintro rfl
      exact hfound env t rfl
    have hsettles := contents_callback hthere hresult hs
    exact hsettles
  | resend env =>
    cases hs
    rw [contents_resendTimeoutCb env h]
    exact .same
  | gc now =>
    cases hs
    rw [contents_gcTimeoutCb]
    exact .same
  | addKey key =>
    cases hs
    rw [contents_saveKeyring]
    exact .same
  | save =>
    cases hs
    rw [contents_saveMessages]
    exact .same
  | restart env keys pubkeys save => exact absurd rfl (hkeep env keys pubkeys save)

/-! ## 5. Restarts -/

theorem contents_createLoaded (h : Lettered s) (fromKey : Key ssl) {record : Record}
    (hcontent : record.contentId < s.nextMessageContentId) :
    (s.createLoaded fromKey record).2.contents =
      { s.contents with users := s.contents.users ++ [(s.nextMessage, record.contentId)] } := by
  obtain ⟨-, hagrees⟩ := moves_createMessage (anything ssl) fromKey record.toAddress
    record.contentEncoding record.ackdata hcontent
  rw [← contents_createMessage s fromKey record.toAddress record.contentEncoding record.contentId
    record.ackdata]
  refine (contents_emit (by simp [Effect.contentCall?])).trans ?_
  exact contents_setMessage ((hagrees h).again rfl rfl rfl).carries

/-- A record is skipped or becomes a message; either way its content id is passed over. -/
theorem contents_forEachOutgoingCb (h : Lettered s) (record : Record) :
    ∃ users : List (Nat × Nat), (∀ user ∈ users, user.2 = record.contentId) ∧
      (s.forEachOutgoingCb env record).contents =
        { users := s.contents.users ++ users
          next := max s.contents.next (record.contentId + 1)
          calls := s.contents.calls } := by
  unfold State.forEachOutgoingCb
  extract_lets s₁
  have hskip : Moves (anything ssl) s s₁ ∧
      s₁.contents = { s.contents with next := max s.contents.next (record.contentId + 1) } := by
    unfold s₁
    split_ifs with hge
    · refine ⟨Move.moves (.skipContents (Nat.le_succ_of_le hge)), ?_⟩
      rw [show s.contents.next = s.nextMessageContentId from rfl,
        Nat.max_eq_right (Nat.le_succ_of_le hge)]
      rfl
    · refine ⟨.refl s, ?_⟩
      rw [show s.contents.next = s.nextMessageContentId from rfl, Nat.max_eq_left (by omega)]
      rfl
  clear_value s₁
  obtain ⟨hmoves, hcontents⟩ := hskip
  have hnext : record.contentId < s₁.nextMessageContentId := by
    rw [show s₁.nextMessageContentId = s₁.contents.next from rfl, hcontents]
    exact Nat.lt_of_lt_of_le (Nat.lt_succ_self _) (Nat.le_max_right _ _)
  split
  next => exact ⟨[], by simp, by rw [hcontents, List.append_nil]⟩
  next fromKey _ =>
    obtain ⟨-, hagrees⟩ := moves_createLoaded (anything ssl) (h.moves hmoves) fromKey hnext
    refine ⟨[(s₁.nextMessage, record.contentId)], by simp, ?_⟩
    dsimp only
    rw [contents_loadOrPost hagrees.carries, contents_createLoaded (h.moves hmoves) fromKey hnext,
      hcontents]

theorem contents_loadRecords (h : Lettered s) (records : List Record) :
    ∃ users : List (Nat × Nat), (∀ user ∈ users, ∃ record ∈ records, user.2 = record.contentId) ∧
      (records.foldl (State.forEachOutgoingCb env) s).contents =
        { users := s.contents.users ++ users
          next := records.foldl (fun n record => max n (record.contentId + 1)) s.contents.next
          calls := s.contents.calls } := by
  induction records generalizing s with
  | nil => exact ⟨[], by simp, by rw [List.append_nil]; rfl⟩
  | cons record records ih =>
    have hmoves : Moves (anything ssl) s (s.forEachOutgoingCb env record) :=
      moves_forEachOutgoingCb h record
    obtain ⟨first, hfirst, hcontents⟩ := @contents_forEachOutgoingCb _ env _ h record
    obtain ⟨rest, hrest, hall⟩ := ih (h.moves hmoves)
    refine ⟨first ++ rest, fun user huser => ?_, ?_⟩
    · rcases List.mem_append.mp huser with hmem | hmem
      · exact ⟨record, List.mem_cons_self, hfirst user hmem⟩
      · obtain ⟨other, hother, heq⟩ := hrest user hmem
        exact ⟨other, List.mem_cons_of_mem record hother, heq⟩
    · rw [List.foldl_cons, hall, hcontents, List.foldl_cons, List.append_assoc]

theorem le_foldl_max (records : List Record) (n : Nat) :
    n ≤ records.foldl (fun n record => max n (record.contentId + 1)) n ∧
      ∀ record ∈ records,
        record.contentId < records.foldl (fun n record => max n (record.contentId + 1)) n := by
  induction records generalizing n with
  | nil => exact ⟨le_rfl, by simp⟩
  | cons record records ih =>
    obtain ⟨hle, hall⟩ := ih (max n (record.contentId + 1))
    rw [List.foldl_cons]
    refine ⟨(le_max_left _ _).trans hle, fun other hother => ?_⟩
    rcases List.mem_cons.mp hother with rfl | hrest
    · exact (Nat.lt_of_succ_le (le_max_right _ _)).trans_le hle
    · exact hall other hrest

/-- After a restart the contents in use are those of some records, and the next id is above the ids of
all of them. -/
theorem contents_restart (h : Lettered s) (keys : List (KeyringKey ssl)) (pubkeys : List Blob)
    (records : List Record) :
    (∀ contentId, (s.restart env keys pubkeys records).contents.Uses contentId →
        ∃ record ∈ records, contentId = record.contentId) ∧
      (∀ record ∈ records,
        record.contentId < (s.restart env keys pubkeys records).contents.next) ∧
      (s.restart env keys pubkeys records).contents.calls = s.contents.calls := by
  let s₀ : State ssl :=
    { keys, nextTask := s.nextTask, nextMessage := s.nextMessage, log := s.log }
  have hrestart : Move (anything ssl) s s₀ := .restart s keys
  have hstart : Lettered s₀ := h.move hrestart
  have hpubkeys : Moves (anything ssl) s₀ (pubkeys.foldl (State.handlePubkey env) s₀) :=
    moves_foldl (fun s blob hs => moves_handlePubkey env hs blob) hstart pubkeys
  have hsame : (pubkeys.foldl (State.handlePubkey env) s₀).contents = s₀.contents := by
    refine contents_foldl (fun s blob hs => ⟨?_, contents_handlePubkey env hs blob⟩) hstart pubkeys
    have hmoves : Moves (anything ssl) s (s.handlePubkey env blob) := moves_handlePubkey env hs blob
    exact hs.moves hmoves
  obtain ⟨users, husers, hcontents⟩ :=
    @contents_loadRecords _ env _ (hstart.moves hpubkeys) records
  rw [hsame] at hcontents
  have hrestart : (s.restart env keys pubkeys records).contents = _ := hcontents
  rw [hrestart]
  refine ⟨fun contentId huses => ?_, (le_foldl_max records _).2, rfl⟩
  obtain ⟨user, huser, rfl⟩ := List.mem_map.mp huses
  exact husers user huser

end Notbit.Keyring
