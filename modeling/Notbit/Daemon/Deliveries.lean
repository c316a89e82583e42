import Notbit.Daemon.Mailings
import Notbit.Keyring.Drafts

/-!
# Deliveries — mail from its submission to its acknowledgement

A mail is submitted to one program and read out of another.  In between are the store of the sender,
which keeps the content until it is needed, the drafts of its keyring, the crypto threads of both,
and the callbacks of the recipient, which send the acknowledgement back.
-/

open Bytes Relation Runs Stdio Notbit.Proto Notbit.Store

namespace Notbit.Daemon

open Keyring (Authored PostedBy WrittenBy Letter KeyringKey)

variable {ssl : OpenSSL} {paths : Paths} {p p' : Mailing ssl} {e : Keyring.Event ssl}
  {new : List MailTask}

/-! ## 1. What the sender writes -/

/-- The drafts are of what was saved for their messages, and what was loaded and has not been called
back yet is what was saved. -/
structure Mailing.Written (p : Mailing ssl) : Prop where
  authored : Authored p.saved p.keyring
  known : ∀ result ∈ p.loaded, result.1 < p.keyring.nextTask
  loaded : ∀ cookie content, (cookie, content) ∈ p.loaded → ∀ id contentId,
    (cookie, .loadContent id contentId) ∈ p.keyring.tasks → p.saved contentId = content

/-- A content in use stays what it is. -/
theorem Mailing.Invariant.saved_eq (h : p.Invariant paths) (hd : Handled p p') {contentId : Nat}
    (huses : p.keyring.contents.Uses contentId) : p'.saved contentId = p.saved contentId := by
  have hstep := hd.step
  unfold Mailing.saved
  generalize p'.keyring.contents = c at hstep
  cases hstep with
  | settles hsettles => exact hsettles.saved contentId
  | submitted hids content =>
    refine Keyring.Contents.saved_submit fun heq => ?_
    exact (h.kept.below contentId huses).ne heq

theorem uses_contentId {s : Keyring.State ssl} {m : Keyring.Message ssl} (hm : m ∈ s.messages) :
    s.contents.Uses m.contentId :=
  List.mem_map_of_mem (f := (·.2)) (List.mem_map_of_mem (f := fun m => (m.id, m.contentId)) hm)

-- A content that is waited for is in use.
theorem uses_of_loadContent {s : Keyring.State ssl} (h : Keyring.Inv True False s none)
    {cookie id contentId : Nat} (ht : (cookie, .loadContent id contentId) ∈ s.tasks) :
    s.contents.Uses contentId := by
  obtain ⟨m, hloading, rfl⟩ := Keyring.loading_of_task h ht
  exact hloading.uses

/-- The contents that are saved change only with a new mail, which has no drafts yet. -/
theorem Mailing.Invariant.authored (hi : p.Invariant paths) (hh : Handles e new p p')
    (h : Authored p.saved p.keyring) (hstep : Authored p.saved p'.keyring) :
    Authored p'.saved p'.keyring := by
  have hd := hi.handled hh
  by_cases hsend : ∃ fromAddress toAddresses contentEncoding content uninitialised,
      e = .sendMessage fromAddress toAddresses contentEncoding content uninitialised
  · obtain ⟨fromAddress, toAddresses, contentEncoding, content, uninitialised, rfl⟩ := hsend
    have hrests : Keyring.Rests p.keyring p'.keyring := by
      rw [← Option.some.inj hh.step]
      exact Keyring.rests_sendMessage _ _ _ _ _ _
    exact h.kept hrests.messages hrests.tasks hd.waits fun m hm =>
      hi.saved_eq hd (uses_contentId hm)
  · simp only [not_exists] at hsend
    have hfound : ∀ env t, e ≠ .complete env t (.content none) := by
      intro env t heq
      exact hi.results _ (hh.results env t none heq) rfl
    have hsettles := Keyring.contents_settles hi.lettered hh.running hsend hfound hh.step
    have hsaved : p'.saved = p.saved := funext hsettles.saved
    rw [hsaved]
    exact hstep

/-- An event keeps what is written, and posts letters of the messages that are there. -/
theorem Mailing.Written.keyring (h : p.Written) (hi : p.Invariant paths) (hh : Handles e new p p') :
    p'.Written ∧ ∃ rest, p'.keyring.log = p.keyring.log ++ rest ∧
      ∀ effect ∈ rest, PostedBy p.saved effect := by
  have hd := hi.handled hh
  obtain ⟨hauthored, hlog⟩ := h.authored.step hi.lettered hi.waits hd.waits hh.running
    (fun env t id contentId content heq ht => h.loaded t _ (hh.results env t _ heq) id contentId ht)
    hh.step
  refine ⟨⟨hi.authored hh h.authored hauthored, fun result hresult => ?_,
    fun cookie content hresult id contentId ht => ?_⟩, hlog⟩
  · rw [hh.loaded] at hresult
    exact (h.known result hresult).trans_le hd.nextTask
  · rw [hh.loaded] at hresult
    have hold := hd.tasks _ ht (h.known _ hresult)
    rw [hi.saved_eq hd (uses_of_loadContent hi.waits hold)]
    exact h.loaded cookie content hresult id contentId hold

/-- What the thread loads was saved for the message that waits for it. -/
theorem Mailing.Written.thread (h : p.Written) (hi : p.Invariant paths) (hw : Works paths p p') :
    p'.Written := by
  cases hw with
  | task => exact ⟨h.authored, h.known, h.loaded⟩
  | pass => exact ⟨h.authored, h.known, h.loaded⟩
  | @load cookie id rest hqueue hawaited =>
    obtain ⟨m, content, hloading, rfl, hsaved, hfound⟩ := hi.head_load hqueue hawaited
    have hmem : .loadMessageContent cookie (UInt64.ofNat m.contentId) ∈ p.queue := by
      rw [hqueue]
      exact List.mem_cons_self
    refine ⟨h.authored, fun result hresult => ?_, fun cookie' content' hresult id contentId ht => ?_⟩
    · rcases List.mem_append.mp hresult with hold | hnew
      · exact h.known result hold
      · rw [List.mem_singleton.mp hnew]
        exact (hi.tickets cookie _ hmem).1
    · rcases List.mem_append.mp hresult with hold | hnew
      · exact h.loaded cookie' content' hold id contentId ht
      · cases List.mem_singleton.mp hnew
        -- the request of the task is that of the message
        have hrequest := Keyring.task_of_loading hi.waits hloading
        have hjob : Keyring.Job.loadContent id contentId = .loadContent m.id m.contentId :=
          congrArg Prod.snd (hi.waits.task_eq ht hrequest rfl)
        cases hjob
        rw [hfound]
        exact hsaved

theorem Mailing.Written.restart {start : Startup ssl} (hi : p.Invariant paths)
    (hstart : Starts paths start new (p.stopped paths) p') : p'.Written := by
  obtain ⟨-, hwaits, -⟩ := hi.restarted hstart
  have hauthored : Authored p'.saved p'.keyring := by
    rw [hstart.keyring] at hwaits ⊢
    exact (Keyring.authored_restart hwaits).1
  refine ⟨hauthored, fun result hresult => ?_, fun cookie content hresult => ?_⟩
  · rw [hstart.loaded] at hresult
    exact absurd hresult List.not_mem_nil
  · rw [hstart.loaded] at hresult
    exact absurd hresult List.not_mem_nil

theorem Mailing.Written.of_reach {keys : List (KeyringKey ssl)} {files : Files}
    (h : ReflTransGen (Mailing.Step paths) (Mailing.first keys files) p) : p.Written := by
  induction h with
  | refl =>
    refine ⟨⟨?_, ?_⟩, ?_, ?_⟩
    · exact fun _ hm => absurd hm List.not_mem_nil
    · exact fun _ _ _ _ _ _ ht => absurd ht List.not_mem_nil
    · exact fun _ hresult => absurd hresult List.not_mem_nil
    · exact fun _ _ hresult => absurd hresult List.not_mem_nil
  | tail hreach hstep ih =>
    have hi := Mailing.Invariant.of_reach hreach
    cases hstep with
    | keyring h => exact (ih.keyring hi h).1
    | thread h => exact ih.thread hi h
    | restart h => exact .restart hi h

/-! ## 2. What the recipient reads -/

/-- The crypto thread's answers are answers. -/
theorem inv_runWithCrypto (keys : List (KeyringKey ssl)) (events : List (Keyring.Event ssl)) :
    Keyring.Inv True False (run Keyring.stepWithCrypto (Keyring.State.new keys) events) none := by
  refine Runs.invariant (P := fun s => Keyring.Inv True False s none) (fun s e s' h hs => ?_)
    (Keyring.inv_new keys) events
  obtain ⟨e', he'⟩ : ∃ e', Keyring.step s e' = some s' := by
    unfold Keyring.stepWithCrypto at hs
    split at hs
    · split at hs
      · obtain ⟨result, -, hs⟩ := Option.bind_eq_some_iff.mp hs
        exact ⟨_, hs⟩
      · cases hs
    · exact ⟨e, hs⟩
  exact h.step (fun hstrict => hstrict.elim) (fun hloads => absurd trivial hloads) he'

/-- Whatever a program with the private key has done so far: the object is not mistaken for an
acknowledgement, and when the crypto thread comes to it the mail is delivered, if no other key of the
program opens it. -/
structure Reaches (l : Letter ssl) (key : Key ssl) : Prop where
  asked : ∀ s : Keyring.State ssl,
    s.handleMsg l.object = (s.request (.decryptMsg l.time l.object s.keys)).2
  delivered : ∀ keys events env t timestamp held,
    (t, .decryptMsg timestamp l.object held) ∈
      (run Keyring.stepWithCrypto (Keyring.State.new keys) events).tasks →
    Keyring.OpensWith (overlay l.object.data env.behind)
      { pos := Keyring.msgHeaderLength l.toKey.address.stream
        len := l.object.data.length - Keyring.msgHeaderLength l.toKey.address.stream } held key →
    ∃ s', Keyring.stepWithCrypto (run Keyring.stepWithCrypto (Keyring.State.new keys) events)
        (.complete env t (.decrypted none)) = some s' ∧
      l.DeliveredBy key timestamp (run Keyring.stepWithCrypto (Keyring.State.new keys) events) s'

/-- The acknowledgement of the letter ends a message with its data, if there is one. -/
def Acknowledges (l : Letter ssl) (ackdata : List UInt8) : Prop :=
  ∀ (s : Keyring.State ssl), ∀ m ∈ s.messages, m.state ≠ .generatingAckdata →
    m.ackdata.val = ackdata → ∃ m' ∈ s.messages, m'.ackdata = m.ackdata ∧
      s.handleMsg l.ackObject = s.messageAcknowledged m'

theorem reaches (hssl : ssl.Lawful) (hstream : ssl.Streams) {l : Letter ssl} (h : l.Sendable)
    {key : Key ssl} (hkey : ssl.publicKey key.encryptionKey = l.toKey.encryptionKey)
    (hripe : key.address.ripe = l.outgoing.toAddress.ripe) : Reaches l key where
  asked s := h.handleMsg hssl hstream s
  delivered keys events env t timestamp held ht hopens := by
    have hwaits := inv_runWithCrypto keys events
    have hlettered := Keyring.lettered_runWithCrypto keys events
    generalize run Keyring.stepWithCrypto (Keyring.State.new keys) events = s at ht hwaits hlettered
    have hfind : s.tasks.find? (·.1 = t) = some (t, .decryptMsg timestamp l.object held) := by
      cases hfound : s.tasks.find? (·.1 = t) with
      | none => exact absurd rfl (of_decide_eq_false
          (Bool.eq_false_iff.mpr (List.find?_eq_none.mp hfound _ ht)))
      | some task =>
        have hmatch := List.find?_some hfound
        have hid : task.1 = t := of_decide_eq_true hmatch
        rw [hwaits.task_eq (List.mem_of_find?_eq_some hfound) ht hid]
    have hanswer : Keyring.decryptedMsg env held l.object = some (some (.own key, l.text)) := by
      unfold Keyring.decryptedMsg
      rw [h.opened hssl hstream hkey hopens]
    have hthere : Keyring.Lettered (s.cancel (some t)) :=
      hlettered.congr rfl rfl fun _ hmem => List.mem_of_mem_filter hmem
    refine ⟨(s.cancel (some t)).decryptMsgCb env timestamp (.own key) l.text, ?_, ?_⟩
    · unfold Keyring.stepWithCrypto
      dsimp only
      rw [hfind]
      dsimp only
      rw [hanswer]
      simp only [Option.bind_eq_bind, Option.bind_some, Keyring.step, hfind]
      rfl
    · obtain ⟨hfields, hlog⟩ := h.delivered hssl hripe env hthere timestamp
      exact ⟨hfields, hlog⟩

/-! ## 3. Whole runs -/

/-- In every run of the sender, a msg object that is handed to the network for a message is a letter
with the fields of the message and the content that was saved for it, encrypted for a key with the
address of its recipient.  If the fields of the letter can be told, every program with that key
delivers it to its store with these fields and acknowledges it to the network, and the
acknowledgement ends a message of the sender that has the same data. -/
theorem mail_delivered (hssl : ssl.Lawful) (hstream : ssl.Streams) (paths : Paths)
    (keys : List (KeyringKey ssl)) (files : Files)
    (h : ReflTransGen (Mailing.Step paths) (Mailing.first keys files) p) (hh : Handles e new p p')
    {m : Keyring.Message ssl} {blob : Blob}
    (hposted : .addBlob (some m) blob ∈ p'.keyring.log.drop p.keyring.log.length)
    (htype : blob.type = .msg) :
    (∃ l : Letter ssl, blob = l.object ∧ WrittenBy p.saved m l.outgoing ∧
      l.toKey.address.equal m.toAddress = true) ∧
    ∀ l : Letter ssl, blob = l.object → WrittenBy p.saved m l.outgoing → l.Sendable →
      (∀ key : Key ssl, ssl.publicKey key.encryptionKey = l.toKey.encryptionKey →
        key.address.ripe = m.toAddress.ripe → Reaches l key) ∧
      Acknowledges l m.ackdata.val := by
  have hwritten : p.Written := .of_reach h
  obtain ⟨-, rest, hlog, hposts⟩ := hwritten.keyring (.of_reach h) hh
  rw [hlog, List.drop_left] at hposted
  refine ⟨hposts _ hposted m blob rfl htype, fun l _ hl hsendable => ⟨fun key hkey hripe => ?_, ?_⟩⟩
  · refine reaches hssl hstream hsendable hkey ?_
    rw [hl.toAddress]
    exact hripe
  · intro s m' hm' hstate hack
    exact hsendable.acknowledged hm' hstate (hack.trans hl.ackdata.symm)

/-- The keyring of `mailing` when the content is loaded, when the acknowledgement has its nonce, and
when the object is made. -/
def loadedKeyring : Keyring.State .additive :=
  next Keyring.step mailing.keyring
    (.complete Keyring.sampleEnv 1 (.content (some (ascii "hello"))))

def noncedKeyring : Keyring.State .additive :=
  next Keyring.step loadedKeyring (.complete Keyring.sampleEnv 2 (.nonce 5))

def draftedKeyring : Keyring.State .additive :=
  next Keyring.step noncedKeyring (.complete Keyring.sampleEnv 3 .created)

-- The program of the sample, whatever else it has to do.
theorem mailing_drafted (paths : Paths) {p : Mailing .additive} (hp : p.keyring = mailing.keyring)
    (hloaded : (1, some (ascii "hello")) ∈ p.loaded) :
    ∃ q, ReflTransGen (Mailing.Step paths) p q ∧ q.keyring = draftedKeyring := by
  obtain ⟨new₁, h₁, hk₁⟩ := Mailing.step_next (e := .complete Keyring.sampleEnv 1
    (.content (some (ascii "hello")))) hp (by simp)
    (fun env cookie content heq => by cases heq; exact hloaded)
    (by decide +kernel) (by decide +kernel)
  obtain ⟨new₂, h₂, hk₂⟩ := Mailing.step_next (s := loadedKeyring)
    (e := .complete Keyring.sampleEnv 2 (.nonce 5)) hk₁ (by simp) (by simp)
    (by decide +kernel) (by decide +kernel)
  obtain ⟨new₃, h₃, hk₃⟩ := Mailing.step_next (s := noncedKeyring)
    (e := .complete Keyring.sampleEnv 3 .created) hk₂ (by simp) (by simp)
    (by decide +kernel) (by decide +kernel)
  exact ⟨_, ((ReflTransGen.single (.keyring h₁)).tail (.keyring h₂)).tail (.keyring h₃), hk₃⟩

/-- The letter that the program posts, and the key it is for. -/
def sampleLetter : Letter .additive where
  outgoing :=
    { fromKey := (Crypto.sampleKey 4 Address.four_lt).toKey
      toAddress := Keyring.strangerAddress
      contentEncoding := CInt.one
      content := ascii "hello"
      ackdata := Keyring.sampleAckdata.val
      length_ackdata := Keyring.sampleAckdata.property
      ackTime := 1400000000 }
  toKey :=
    { address := Keyring.strangerAddress
      nonceTrialsPerByte := leastTrials
      payloadLengthExtraBytes := leastExtraBytes
      signingKey := (3 : Fin (2 ^ 256))
      encryptionKey := (4 : Fin (2 ^ 256)) }
  ackNonce := 5
  env := Keyring.sampleEnv
  time := 1400000000
  nonce := 7

def strangerKey : Key .additive where
  address := Keyring.strangerAddress
  nonceTrialsPerByte := leastTrials
  payloadLengthExtraBytes := leastExtraBytes
  lastPubkeySendTime := 0
  signingKey := (3 : Fin (2 ^ 256))
  encryptionKey := (4 : Fin (2 ^ 256))

/-- The number of a key of the sample. -/
def keyNumber (key : OpenSSL.additive.Key) : Fin (2 ^ 256) := key

/-- The key is that of the sender. -/
def isSampleKey (key : Key .additive) : Bool :=
  let sender := sampleLetter.outgoing.fromKey
  decide (key.address = sender.address ∧
    key.nonceTrialsPerByte.val = sender.nonceTrialsPerByte.val ∧
    key.payloadLengthExtraBytes.val = sender.payloadLengthExtraBytes.val ∧
    key.lastPubkeySendTime = sender.lastPubkeySendTime ∧
    keyNumber key.signingKey = keyNumber sender.signingKey ∧
    keyNumber key.encryptionKey = keyNumber sender.encryptionKey)

theorem eq_of_isSampleKey {key : Key .additive} (h : isSampleKey key = true) :
    key = sampleLetter.outgoing.fromKey := by
  obtain ⟨haddress, htrials, hextra, htime, hsigning, hencryption⟩ := of_decide_eq_true h
  obtain ⟨address, ⟨trials, _, _⟩, ⟨extra, _, _⟩, time, signing, encryption⟩ := key
  cases haddress
  cases htrials
  cases hextra
  cases htime
  unfold keyNumber at hsigning hencryption
  cases hsigning
  cases hencryption
  rfl

/-- The object is handed to the network for a message with the fields of the letter. -/
def postsSample : Keyring.Effect .additive → Bool
  | .addBlob (some m) blob => isSampleKey m.fromKey &&
      decide (blob = sampleLetter.object ∧ m.contentId = 0 ∧
        m.toAddress = Keyring.strangerAddress ∧ m.contentEncoding.val = 1 ∧
        m.ackdata = Keyring.sampleAckdata)
  | _ => false

/-- A run in which the letter is posted. -/
theorem mail_posted :
    ∃ (p p' : Mailing .additive) (e : Keyring.Event .additive) (new : List MailTask),
      ReflTransGen (Mailing.Step samplePaths)
        (Mailing.first Keyring.acquaintedKeys fun _ => none) p ∧
      Handles e new p p' ∧ ∃ m : Keyring.Message .additive,
        .addBlob (some m) sampleLetter.object ∈ p'.keyring.log.drop p.keyring.log.length ∧
        Reaches sampleLetter strangerKey ∧ Acknowledges sampleLetter m.ackdata.val := by
  obtain ⟨p, cookie, id, hreach, hkeyring, hqueue, hloaded, hawaited⟩ := mailing_ready samplePaths
  obtain ⟨m, content, hloading, rfl, hsaved, hfound⟩ :=
    (Mailing.Invariant.of_reach hreach).head_load hqueue hawaited
  have hload := Keyring.task_of_loading (Mailing.Invariant.of_reach hreach).waits hloading
  have hloads : (cookie, m.contentId) ∈ mailing.keyring.contentLoads 0 := by
    rw [← hkeyring]
    exact Keyring.mem_contentLoads.mpr ⟨Nat.zero_le _, m.id, hload⟩
  have honly : mailing.keyring.contentLoads 0 = [(1, 0)] := by decide +kernel
  rw [honly, List.mem_singleton] at hloads
  obtain ⟨rfl, hid⟩ := Prod.mk.inj hloads
  have hhello : mailing.saved 0 = some (ascii "hello") := by decide +kernel
  have hcontent : content = ascii "hello" := by
    rw [hid, Mailing.saved, hkeyring] at hsaved
    exact Option.some.inj (hsaved.symm.trans hhello)
  have hstep : Mailing.Step samplePaths p _ := .thread (.load hqueue hawaited)
  rw [hfound, hcontent] at hstep
  obtain ⟨q, hq, hdrafted⟩ := mailing_drafted samplePaths (p := { p with
    queue := [], loaded := p.loaded ++ [(1, some (ascii "hello"))] }) hkeyring
      (List.mem_append_right _ List.mem_cons_self)
  have hall := (hreach.tail hstep).trans hq
  obtain ⟨new, hlast, hposted⟩ := Mailing.step_next
    (e := .complete Keyring.sampleEnv 4 (.nonce 7)) hdrafted (by simp) (by simp)
    (by decide +kernel) (by decide +kernel)
  have hposts : (((q.next (.complete Keyring.sampleEnv 4 (.nonce 7))).keyring.log.drop
      q.keyring.log.length).any postsSample) = true := by
    rw [hposted, hdrafted]
    decide +kernel
  have hkept : q.saved 0 = some (ascii "hello") := by
    rw [Mailing.saved, hdrafted]
    decide +kernel
  obtain ⟨effect, hmem, heffect⟩ := List.any_eq_true.mp hposts
  cases effect with
  | addBlob message blob =>
    cases message with
    | none => cases heffect
    | some m' =>
      obtain ⟨hkey, hfields⟩ := (Bool.and_eq_true _ _).mp heffect
      obtain ⟨rfl, hcontentId, htoAddress, hencoding, hack⟩ := of_decide_eq_true hfields
      have hwritten : WrittenBy q.saved m' sampleLetter.outgoing := by
        refine ⟨(eq_of_isSampleKey hkey).symm, htoAddress.symm, ?_, ?_, ?_⟩
        · show CInt.one = m'.contentEncoding
          generalize m'.contentEncoding = encoding at hencoding
          obtain ⟨value, _, _⟩ := encoding
          obtain rfl : value = 1 := hencoding
          rfl
        · rw [hack]
          rfl
        · rw [hcontentId]
          exact hkept
      have hsendable : sampleLetter.Sendable :=
        ⟨rfl, by decide, by decide, by decide, by decide, by decide⟩
      obtain ⟨-, hall'⟩ := mail_delivered OpenSSL.additive_lawful OpenSSL.additive_streams
        samplePaths _ _ hall hlast hmem rfl
      obtain ⟨hreaches, hacknowledges⟩ := hall' sampleLetter rfl hwritten hsendable
      refine ⟨_, _, _, new, hall, hlast, m', hmem, hreaches strangerKey rfl ?_, hacknowledges⟩
      rw [htoAddress]
      rfl
  | addObjectFromData | saveKeys | saveOutgoings | saveMessageContent | deleteMessageContent
  | saveMessage | loadedOutgoing => cases heffect

end Notbit.Daemon
