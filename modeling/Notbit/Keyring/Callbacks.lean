import Notbit.Keyring.Transitions

/-!
# Callbacks — the invariant through the callbacks of the tasks and through whole runs

A message object that the keyring hands to the network comes back to it at once.  It is longer than
an acknowledgement can be, so that the message it was made for is still there when the callback goes
on.
-/

open Bytes Traced Notbit.Proto

namespace Notbit.Keyring

variable {ssl : OpenSSL} {loads strict : Prop} {env : Env ssl} {s s' : State ssl}
  {m m' : Message ssl} {out : Option Nat} {t : Nat}

/-! ## 1. Objects of its own -/

theorem length_encryptEnd (ssl : OpenSSL) (e : Ecc.Encryption) :
    e.out.length + macLength ≤ (Ecc.encryptEnd ssl e).length := by
  simp only [Ecc.encryptEnd, List.length_append, ssl.length_hmac]
  omega

theorem length_encryptUpdate (ssl : OpenSSL) (e : Ecc.Encryption) (data : List UInt8) :
    e.out.length ≤ (Ecc.encryptUpdate ssl e data).out.length := by
  simp only [Ecc.encryptUpdate, List.length_append]
  omega

theorem length_msgFields (env : Env ssl) (time : Int) (fromKey : Key ssl) (toKey : PublicKey ssl)
    (content : List UInt8) :
    27 + ackdataSize < 8 + (State.msgFields env time fromKey toKey content).length := by
  have hstream := length_addVarInt_pos toKey.address.stream
  -- an IV and the empty key before the ciphertext, and a MAC behind it
  have hbegun : 22 ≤
      (Ecc.encryptWithPointBegin ssl env.ephemeral env.iv toKey.encryptionKey).out.length := by
    simp only [Ecc.encryptWithPointBegin, Ecc.encodePubkey, Ecc.encodeBignumber, add16,
      List.length_append, length_toBE, env.length_iv, ivLength]
    omega
  simp only [State.msgFields, add64, List.length_append, length_toBE, ackdataSize]
  have hend := length_encryptEnd ssl (Ecc.encryptUpdate ssl (Ecc.encryptUpdate ssl
    (Ecc.encryptWithPointBegin ssl env.ephemeral env.iv toKey.encryptionKey) content)
    (appendSignature ssl fromKey.signingKey content))
  have hfed := (length_encryptUpdate ssl
    (Ecc.encryptWithPointBegin ssl env.ephemeral env.iv toKey.encryptionKey) content).trans
    (length_encryptUpdate ssl _ (appendSignature ssl fromKey.signingKey content))
  unfold macLength at hend
  omega

-- The time of a message object stands behind its nonce.
theorem time_msgFields (nonce : Nat) (env : Env ssl) (time : Int) (fromKey : Key ssl)
    (toKey : PublicKey ssl) (content : List UInt8) :
    ((toBE 8 nonce ++ State.msgFields env time fromKey toKey content).drop 8).take 8 =
      add64 (toUInt64 time) := by
  rw [List.drop_left' (length_toBE 8 nonce), State.msgFields, List.append_assoc]
  exact List.take_left' (length_toBE 8 _)

-- What is left of a message object behind its header is longer than the data of an acknowledgement.
theorem handleMsg_of_long {blob : Blob} (hlong : 27 + ackdataSize < blob.data.length) :
    s.handleMsg blob = s ∨ ∃ timestamp, s.handleMsg blob =
      (s.request (.decryptMsg timestamp blob s.keys)).2 := by
  unfold State.handleMsg
  split
  next nonce timestamp stream headerLength hheader =>
    have hle := getCommand_length_le (by decide) hheader
    have hnone : s.acknowledgedMessage (blob.data.drop headerLength) = none := by
      unfold State.acknowledgedMessage
      rw [if_pos]
      simp only [msgHeader, List.length_cons, List.length_nil] at hle
      rw [List.length_drop]
      omega
    rw [hnone]
    exact .inr ⟨timestamp, rfl⟩
  next => exact .inl rfl

-- The blob of a message that its proof of work has a nonce for.
theorem patch_hole {hole : List UInt8} (hlen : hole.length = 8) (body : Buffer) (nonce : Nat) :
    patch (hole ++ body) 0 (toBE 8 nonce) = toBE 8 nonce ++ body :=
  @patch_append 0 [] hole (toBE 8 nonce) body rfl (by rw [hlen, length_toBE])

/-! ## 2. A request that nobody sent -/

namespace State

theorem removePubkeyBlob_setMessage (p : Nat) :
    (s.setMessage m).removePubkeyBlob p = (s.removePubkeyBlob p).setMessage m := by
  unfold removePubkeyBlob
  by_cases hin : (s.pubkeyBlobs p).inList
  · rw [if_pos hin, if_pos (show ((s.setMessage m).pubkeyBlobs p).inList from hin)]
    rfl
  · rw [if_neg hin, if_neg (show ¬ ((s.setMessage m).pubkeyBlobs p).inList from hin)]

theorem removePubkeyBlob_cancel (c : Option Nat) (p : Nat) :
    (s.cancel c).removePubkeyBlob p = (s.removePubkeyBlob p).cancel c := by
  unfold removePubkeyBlob
  by_cases hin : (s.pubkeyBlobs p).inList
  · rw [if_pos hin, if_pos (show ((s.cancel c).pubkeyBlobs p).inList from hin)]
    rfl
  · rw [if_neg hin, if_neg (show ¬ ((s.cancel c).pubkeyBlobs p).inList from hin)]

end State

/-- A message whose pubkey fails now would wait for the answer to a request that was not sent: its
proof of work was cancelled, its time is recent, and there is no other pubkey to try. -/
def RequestLost (env : Env ssl) (s : State ssl) (m : Message ssl) : Prop :=
  m.getpubkeyInterrupted ∧
    env.now - m.lastGetpubkeySendTime < maxAgeForType .getpubkey ∧
      ∀ p, m.tryingPubkeyBlob = some p → ∀ q ∈ (s.removePubkeyBlob p).pubkeyGroup m.ripeOrTag,
        env.locate ((s.removePubkeyBlob p).hashOf q) = .nowhere

theorem requestLost_setMessage :
    RequestLost env (s.setMessage m') m ↔ RequestLost env s m := by
  simp only [RequestLost, State.removePubkeyBlob_setMessage, State.hashOf_setMessage]
  exact Iff.rfl

theorem requestLost_cancel {c : Option Nat} :
    RequestLost env (s.cancel c) m ↔ RequestLost env s m := by
  simp only [RequestLost, State.removePubkeyBlob_cancel, State.hashOf_cancel]
  exact Iff.rfl

namespace Inv

-- An object the keyring made for a message: whatever it starts, the message is not touched.
theorem addOwnBlob (h : Inv loads strict s out) (env : Env ssl) (message : Option (Message ssl))
    (blob : Blob)
    (hown : blob.type = .getpubkey ∨ blob.type = .msg ∧ 27 + ackdataSize < blob.data.length) :
    Inv loads strict (s.addBlob env message blob) out ∧
      s.log ++ [.addBlob message blob] ⊆ (s.addBlob env message blob).log := by
  have hemit : Inv loads strict (s.emit [.addBlob message blob]) out := h.emit (by simp)
  unfold State.addBlob State.announce
  split_ifs
  · rcases hown with htype | ⟨htype, hlong⟩
    · rw [State.newObjectCb, htype]
      have hlog := State.log_handleGetpubkey (s := s.emit [.addBlob message blob]) (e := env) blob
      exact ⟨hemit.handleGetpubkey blob, hlog⟩
    · rw [State.newObjectCb, htype]
      rcases handleMsg_of_long (s := s.emit [.addBlob message blob]) hlong with heq | ⟨time, heq⟩
      · rw [heq]
        exact ⟨hemit, List.Subset.refl _⟩
      · rw [heq]
        exact ⟨hemit.request rfl, List.Subset.refl _⟩
  · exact ⟨hemit, List.Subset.refl _⟩

/-! ## 3. The callbacks of a message -/

theorem generateAckdataCb {id : Nat} (h : Inv loads strict s (some m.id))
    (hwaits : Waits m t (.generateAckdata id)) (htimes : TimesOk loads strict s.log m)
    (ackdata : { bytes : List UInt8 // bytes.length = ackdataSize }) :
    Inv loads strict (s.generateAckdataCb env m ackdata) none := by
  cases hwaits with
  | generateAckdata hstate hcookies =>
    obtain ⟨-, hpow, hstore⟩ := Message.cookies_eq hcookies
    obtain ⟨htime, hgoing⟩ := htimes.fresh hstate
    have hready : Ready loads s.log { m with ackdata, cryptoCookie := none } := by
      refine ⟨?_, (htimes.accounted (by rw [hstate]; rfl)).1, .inl htime⟩
      simp [Message.cookies, hpow, hstore]
    have hout : Inv loads strict (s.setMessage { m with ackdata, cryptoCookie := none })
        (some m.id) := h.write rfl
    apply Inv.saveMessages
    exact Inv.loadOrPost (m := { m with ackdata, cryptoCookie := none }) hout hready hgoing

-- The pubkey that was being tried is given up.
theorem abandonPubkey (h : Inv loads strict s (some m.id)) (hready : Ready loads s.log m)
    (hlost : strict → ¬ RequestLost env s m) (hs : s.abandonPubkey env m = some s') :
    Inv loads strict s' none := by
  obtain ⟨p, hp, hs⟩ := Option.bind_eq_some_iff.mp hs
  cases hs
  have hcore := State.core_removePubkeyBlob (s := s) p
  have hlog : (s.removePubkeyBlob p).log = s.log := congrArg (·.2.2.2.2) hcore
  refine (h.congr hcore).loadPublicKeyForMessage (by rw [hlog]; exact hready) ?_
  intro hstrict hinterrupted
  by_contra hnone
  rw [not_or, not_le] at hnone
  refine hlost hstrict ⟨hinterrupted, hnone.1, ?_⟩
  intro p' hp' q hq
  cases hp.symm.trans hp'
  by_contra hfound
  exact hnone.2 ⟨q, hq, hfound⟩

theorem getpubkeyPowCb {id nonce : Nat} {payload : List UInt8}
    (h : Inv loads strict s (some m.id)) (hwaits : Waits m t (.getpubkeyPow id payload))
    (htimes : TimesOk loads strict s.log m) (hs : s.getpubkeyPowCb env m nonce = some s') :
    Inv loads strict s' none := by
  cases hwaits with
  | getpubkeyPow hstate hcookies hgoing hblob =>
    obtain ⟨hcrypto, -, hstore⟩ := Message.cookies_eq hcookies
    obtain ⟨hole, hlen, hblob⟩ := hblob
    obtain ⟨blob, hget, hs⟩ := Option.bind_eq_some_iff.mp hs
    obtain rfl := Option.some.inj (hblob.symm.trans hget)
    obtain ⟨-, -, hs⟩ := Option.bind_eq_some_iff.mp hs
    cases hs
    rw [patch_hole hlen]
    have hwrite : Inv loads strict (s.setMessage { m with powCookie := none }) (some m.id) :=
      h.write rfl
    obtain ⟨hout, hlog⟩ := hwrite.addOwnBlob env (some { m with powCookie := none })
      { type := .getpubkey
        data := toBE 8 nonce ++ State.getpubkeyFields ssl m.lastGetpubkeySendTime m.toAddress }
      (.inl rfl)
    apply Inv.saveMessages
    refine Inv.settle (m := { m with powCookie := none, blob := none, state := .awaitingPubkey })
      hout rfl ⟨?_, .inl rfl⟩ ⟨fun _ => ?_, fun _ _ => ?_, nofun, fun _ _ => hgoing⟩
    · simp [Message.cookies, hcrypto, hstore]
    · exact .inr (.inr (.inl ⟨_, nonce, hlog (List.mem_append_right _ List.mem_cons_self)⟩))
    · have hmsg := htimes.msg (by rw [hstate]; decide) (by rw [hstate]; decide)
      exact hmsg.mono (List.Subset.trans (List.subset_append_left _ _) hlog)

/-- A failed check of an interrupted message has to find another pubkey or an old request. -/
theorem checkPubkeyCb {id : Nat} {address : Address} {blob : Blob} {key : Option (PublicKey ssl)}
    (h : Inv loads strict s (some m.id)) (hwaits : Waits m t (.checkPubkey id address blob))
    (htimes : TimesOk loads strict s.log m)
    (hlost : key = none → strict → ¬ RequestLost env s m)
    (hs : s.checkPubkeyCb env m key = some s') : Inv loads strict s' none := by
  cases hwaits with
  | checkPubkey _ hstate hcookies htrying =>
    obtain ⟨-, hpow, hstore⟩ := Message.cookies_eq hcookies
    have hcookies' : { m with cryptoCookie := none }.cookies = (none, none, none) := by
      simp [Message.cookies, hpow, hstore]
    obtain ⟨hgetpubkey, hmsg⟩ := htimes.accounted (by rw [hstate]; rfl)
    have hout : Inv loads strict (s.setMessage { m with cryptoCookie := none }) (some m.id) :=
      h.write rfl
    cases key with
    | none =>
      refine Inv.abandonPubkey (m := { m with cryptoCookie := none }) hout
        ⟨hcookies', hgetpubkey, hmsg⟩ (fun hstrict => ?_) hs
      rw [requestLost_setMessage]
      exact hlost rfl hstrict
    | some key =>
      cases hs
      have hlog : s.log ⊆ ((s.setMessage { m with cryptoCookie := none }).addPublicKey key).log := by
        unfold State.addPublicKey
        split_ifs
        · exact List.Subset.refl _
        · exact List.subset_append_left _ _
      exact Inv.postMessage (m := { m with cryptoCookie := none, toKey := some key })
        (hout.addPublicKey key) ⟨hcookies', hgetpubkey.mono hlog, hmsg.mono hlog⟩ rfl

theorem loadPubkeyFromStoreCb {id : Nat} {hash : Hash} {blob : Option Blob}
    (h : Inv loads strict s (some m.id)) (hwaits : Waits m t (.loadPubkey id hash))
    (htimes : TimesOk loads strict s.log m)
    (hlost : blob = none → strict → ¬ RequestLost env s m)
    (hs : s.loadPubkeyFromStoreCb env m blob = some s') : Inv loads strict s' none := by
  cases hwaits with
  | loadPubkey _ hstate hcookies htrying =>
    obtain ⟨hcrypto, hpow, -⟩ := Message.cookies_eq hcookies
    obtain ⟨hgetpubkey, hmsg⟩ := htimes.accounted (by rw [hstate]; rfl)
    have hready : Ready loads s.log { m with storeCookie := none } := by
      refine ⟨?_, hgetpubkey, hmsg⟩
      simp [Message.cookies, hcrypto, hpow]
    have hout : Inv loads strict (s.setMessage { m with storeCookie := none }) (some m.id) :=
      h.write rfl
    cases blob with
    | none =>
      refine Inv.abandonPubkey (m := { m with storeCookie := none }) hout hready
        (fun hstrict => ?_) hs
      rw [requestLost_setMessage]
      exact hlost rfl hstrict
    | some blob =>
      cases hs
      exact Inv.tryBlobForMessage (m := { m with storeCookie := none }) hout hready htrying blob

theorem loadMessageContentCb {id contentId : Nat} {content : Option (List UInt8)}
    (h : Inv loads strict s (some m.id)) (hwaits : Waits m t (.loadContent id contentId))
    (htimes : TimesOk loads strict s.log m) (hs : s.loadMessageContentCb env m content = some s') :
    Inv loads strict s' none := by
  cases hwaits with
  | loadContent hstate hcookies hkey =>
    obtain ⟨hcrypto, hpow, -⟩ := Message.cookies_eq hcookies
    have hout : Inv loads strict (s.setMessage { m with storeCookie := none }) (some m.id) :=
      h.write rfl
    cases content with
    | none =>
      cases hs
      apply Inv.saveMessages
      refine Inv.freeMessage (m := { m with storeCookie := none }) ?_
      rw [State.cancelAll_none _ (by simp [Message.cookies, hcrypto, hpow])]
      exact hout
    | some content =>
      obtain ⟨built, -, hs⟩ := Option.bind_eq_some_iff.mp hs
      cases hs
      obtain ⟨hgetpubkey, hmsg⟩ := htimes.accounted (by rw [hstate]; rfl)
      refine Inv.start hout rfl (.ackdataPow _ rfl ?_ hkey rfl)
        ⟨fun _ => hgetpubkey, fun _ _ => hmsg, by simp, by simp⟩
      simp [Message.cookies, hcrypto]

-- From here on the time of the message is that of an object on its way.
theorem ackdataPowDone {id nonce : Nat} {payload : List UInt8}
    (h : Inv loads strict s (some m.id)) (hwaits : Waits m t (.ackdataPow id payload))
    (htimes : TimesOk loads strict s.log m) (hs : s.ackdataPowDone env m nonce = some s') :
    Inv loads strict s' none := by
  cases hwaits with
  | ackdataPow _ hstate hcookies hkey hblob =>
    obtain ⟨-, -, hstore⟩ := Message.cookies_eq hcookies
    obtain ⟨blob, -, hs⟩ := Option.bind_eq_some_iff.mp hs
    obtain ⟨toKey, hkey, hs⟩ := Option.bind_eq_some_iff.mp hs
    cases hs
    obtain ⟨hgetpubkey, -⟩ := htimes.accounted (by rw [hstate]; rfl)
    refine Inv.start h rfl (.createMsgBlob toKey _ rfl ?_ hkey)
      ⟨fun _ => hgetpubkey, fun hne => absurd rfl hne, nofun, nofun⟩
    simp [Message.cookies, hstore]

theorem createMsgBlobCb {id : Nat} {timestamp : Int} {fromKey : Key ssl} {toKey : PublicKey ssl}
    {content : List UInt8} (h : Inv loads strict s (some m.id))
    (hwaits : Waits m t (.createMsgBlob id timestamp fromKey toKey content))
    (htimes : TimesOk loads strict s.log m)
    (hs : s.createMsgBlobCb m
      { type := .msg
        data := window env.fill env.header.length 8 ++
          State.msgFields env timestamp fromKey toKey content } = some s') :
    Inv loads strict s' none := by
  cases hwaits with
  | createMsgBlob _ _ hstate hcookies hkey =>
    obtain ⟨-, hpow, hstore⟩ := Message.cookies_eq hcookies
    obtain ⟨key, hkey', hs⟩ := Option.bind_eq_some_iff.mp hs
    obtain rfl := Option.some.inj (hkey.symm.trans hkey')
    cases hs
    rw [List.drop_left' (length_window _ _ _)]
    refine Inv.start h rfl (.msgPow env toKey content _ _ rfl ?_ hkey
        ⟨_, length_window _ _ _, rfl⟩)
      ⟨fun _ => htimes.getpubkey (by rw [hstate]; decide), fun _ hne => absurd rfl hne, nofun, nofun⟩
    simp [Message.cookies, hstore]

theorem msgPowCb {id nonce : Nat} {payload : List UInt8} {extraBytes trialsPerByte : Int}
    (h : Inv loads strict s (some m.id))
    (hwaits : Waits m t (.msgPow id payload extraBytes trialsPerByte))
    (htimes : TimesOk loads strict s.log m) (hs : s.msgPowCb env m nonce = some s') :
    Inv loads strict s' none := by
  cases hwaits with
  | msgPow env' toKey content _ _ hstate hcookies hkey hblob =>
    obtain ⟨hcrypto, -, hstore⟩ := Message.cookies_eq hcookies
    obtain ⟨hole, hlen, hblob⟩ := hblob
    obtain ⟨blob, hget, hs⟩ := Option.bind_eq_some_iff.mp hs
    obtain rfl := Option.some.inj (hblob.symm.trans hget)
    obtain ⟨-, -, hs⟩ := Option.bind_eq_some_iff.mp hs
    cases hs
    rw [patch_hole hlen]
    have hwrite : Inv loads strict (s.setMessage { m with powCookie := none }) (some m.id) :=
      h.write rfl
    have hlong := length_msgFields env' m.lastMsgSendTime m.fromKey toKey content
    obtain ⟨hout, hlog⟩ := hwrite.addOwnBlob env (some { m with powCookie := none })
      { type := .msg
        data := toBE 8 nonce ++ State.msgFields env' m.lastMsgSendTime m.fromKey toKey content }
      (.inr ⟨rfl, by rw [List.length_append, length_toBE]; exact hlong⟩)
    apply Inv.saveMessages
    refine Inv.settle
      (m := { m with powCookie := none, blob := none, state := .awaitingAcknowledgement })
      hout rfl ⟨?_, .inr ⟨rfl, by rw [hkey]; rfl⟩⟩ ⟨fun _ => ?_, fun _ _ => ?_, nofun, nofun⟩
    · simp [Message.cookies, hcrypto, hstore]
    · have hgetpubkey := htimes.getpubkey (by rw [hstate]; decide)
      exact hgetpubkey.mono (List.Subset.trans (List.subset_append_left _ _) hlog)
    · exact .inr (.inl ⟨_, _, hlog (List.mem_append_right _ List.mem_cons_self), rfl, rfl, rfl,
        time_msgFields nonce env' m.lastMsgSendTime m.fromKey toKey content⟩)

end Inv

end Notbit.Keyring
