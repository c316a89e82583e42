import Notbit.Address
import Notbit.Crypto.Handlers
import Notbit.Keyring.Moves

/-!
# Mail — the messages that are delivered (`ntb-crypto.c`, `ntb-keyring.c`)

`handle_decrypt_msg` looks for a key of the keyring that decrypts an object and checks the signature
of what it finds; `decrypt_msg_cb` parses the same bytes again.  What is handed to the store, and
the acknowledgement that is sent for it, comes of a message that has passed both.
-/

open Bytes Traced Transfers Transfers.Handler Notbit.Proto Notbit.Crypto Runs

namespace Notbit.Keyring

variable {ssl : OpenSSL}

/-! ## 1. The answer of the crypto thread -/

/-- The loop of `handle_decrypt_msg`, with the keys of the keyring. -/
def tryKeys (ssl : OpenSSL) (mem behind : Memory) (c : Cursor) :
    List (KeyringKey ssl) → Except Stop (KeyringKey ssl × List UInt8)
  | [] => .error .reject
  | .other _ :: keys => tryKeys ssl mem behind c keys
  | .own key :: keys =>
    match (Ecc.decrypt ssl key.encryptionKey c).value mem with
    | .ok result => do
      (checkSignatureInDecryptedMsg ssl behind result).value
      return (.own key, result)
    | .error .reject => tryKeys ssl mem behind c keys
    | .error .abort => .error .abort

/-- `handle_decrypt_msg` -/
def decryptMsg (ssl : OpenSSL) (behind : Memory) (keys : List (KeyringKey ssl))
    (data : List UInt8) : Except Stop (KeyringKey ssl × List UInt8) :=
  let mem := overlay data behind
  match (getCommand 0 (data.length % 2 ^ 32) msgHeader).value mem with
  | .ok (_, headerSize) =>
    tryKeys ssl mem behind { pos := headerSize, len := data.length - headerSize } keys
  | .error _ => .error .abort

/-- What `handle_decrypt_msg` looks at of a key of the keyring. -/
def msgKey : KeyringKey ssl → MsgKey ssl
  | .own key => { hasPrivate := true, encryptionKey := key.encryptionKey }
  | .other _ => { hasPrivate := false, encryptionKey := ssl.keyOfPrivate [] }

/-- The loop is that of the detailed handler. -/
theorem value_tryKeys (o : Object) (behind : Memory) (c : Cursor) (keys : List (KeyringKey ssl)) :
    (Crypto.tryKeys ssl o behind c (keys.map msgKey)).value =
      (tryKeys ssl o.mem behind c keys).map fun p => (msgKey p.1, p.2) := by
  induction keys with
  | nil => rfl
  | cons key keys ih =>
    cases key with
    | other key => exact ih
    | own key =>
      rw [List.map_cons, Crypto.tryKeys, if_neg (by simp [msgKey]), value_bind, tryKeys]
      simp only [msgKey]
      cases hdecrypt : (Ecc.decrypt ssl key.encryptionKey c).value o.mem with
      | ok result =>
        rw [value_attempt_of_ok (by rw [value_readAll, hdecrypt])]
        show (checkSignatureInDecryptedMsg ssl behind result >>= _).value = _
        rw [value_bind]
        dsimp only
        cases (checkSignatureInDecryptedMsg ssl behind result).value <;> rfl
      | error e =>
        cases e with
        | reject =>
          rw [value_attempt_of_reject (by rw [value_readAll, hdecrypt])]
          exact ih
        | abort =>
          have habort : (attempt (readAll o.block o.mem
              (Ecc.decrypt ssl key.encryptionKey c))).value = .error .abort := by
            unfold attempt value
            have hvalue : (readAll o.block o.mem (Ecc.decrypt ssl key.encryptionKey c)).1 =
              .error .abort := hdecrypt
            rw [hvalue]
          rw [habort]
          rfl

-- What the keyring is answered is what the detailed handler delivers.
theorem value_handleDecryptMsg (o : Object) (data : List UInt8) (behind : Memory)
    (hmem : o.mem = overlay data behind) (hbase : o.base = 0) (hsize : o.size = data.length)
    (keys : List (KeyringKey ssl)) :
    (handleDecryptMsg ssl o behind (keys.map msgKey)).value =
      (decryptMsg ssl behind keys data).map fun p => (msgKey p.1, p.2) := by
  have hsmall := o.small
  unfold handleDecryptMsg decryptMsg
  rw [hbase, hsize, hmem, Nat.mod_eq_of_lt (by omega)]
  dsimp only
  cases (getCommand 0 data.length msgHeader).value (overlay data behind) with
  | error e => rfl
  | ok p =>
    obtain ⟨vs, headerSize⟩ := p
    dsimp only
    rw [value_tryKeys, hmem, Nat.zero_add]

/-! ## 2. Genuine messages -/

/-- The signature that is checked is that of the message that is parsed. -/
theorem checkSignatureInDecryptedMsg_ok {behind : Memory} {result : List UInt8} :
    (checkSignatureInDecryptedMsg ssl behind result).value = .ok () ↔
      ∃ msg, (getDecryptedMsg 0 (result.length % 2 ^ 32)).value (overlay result behind) = .ok msg ∧
        checkSignatureForData ssl (window (overlay result behind) msg.senderSigningKey 64)
          (window (overlay result behind) 0 msg.signedDataLength)
          (window (overlay result behind) msg.sig msg.sigLength) = .ok true := by
  unfold checkSignatureInDecryptedMsg
  dsimp only
  rw [value_bind, value_lift, bind_eq_ok]
  refine exists_congr fun msg => and_congr_right fun _ => ?_
  have hcheck : (signatureForData ssl { lo := 0, hi := result.length } (overlay result behind)
      msg.senderSigningKey 0 msg.signedDataLength msg.sig msg.sigLength).value =
    checkSignatureForData ssl (window (overlay result behind) msg.senderSigningKey 64)
      (window (overlay result behind) 0 msg.signedDataLength)
      (window (overlay result behind) msg.sig msg.sigLength) := by
    unfold signatureForData checkSignatureForData
    rw [value_bind_of_ok (value_give _ _ _ _), value_bind_of_ok (value_copy _ _ _ _ _), value_bind,
      value_lift]
    rfl
  rw [value_bind, hcheck]
  cases checkSignatureForData ssl (window (overlay result behind) msg.senderSigningKey 64)
      (window (overlay result behind) 0 msg.signedDataLength)
      (window (overlay result behind) msg.sig msg.sigLength) with
  | error e => exact iff_of_false nofun nofun
  | ok verified =>
    cases verified with
    | false => exact iff_of_false nofun nofun
    | true => exact iff_of_true rfl rfl

/-- The key that is chosen is the first own one that decrypts the object. -/
theorem tryKeys_ok {mem behind : Memory} {c : Cursor} {keys : List (KeyringKey ssl)}
    {key : KeyringKey ssl} {result : List UInt8}
    (h : tryKeys ssl mem behind c keys = .ok (key, result)) :
    ∃ own, key = .own own ∧ key ∈ keys ∧
      (Ecc.decrypt ssl own.encryptionKey c).value mem = .ok result ∧
      (checkSignatureInDecryptedMsg ssl behind result).value = .ok () := by
  induction keys with
  | nil => cases h
  | cons first keys ih =>
    have hlater (hkeys : tryKeys ssl mem behind c keys = .ok (key, result)) :
        ∃ own, key = .own own ∧ key ∈ first :: keys ∧
          (Ecc.decrypt ssl own.encryptionKey c).value mem = .ok result ∧
          (checkSignatureInDecryptedMsg ssl behind result).value = .ok () := by
      obtain ⟨own, hown, hmem, hrest⟩ := ih hkeys
      exact ⟨own, hown, List.mem_cons_of_mem first hmem, hrest⟩
    cases first with
    | other other => exact hlater h
    | own own =>
      rw [tryKeys] at h
      split at h
      next result' hdecrypt =>
        obtain ⟨u, hcheck, h⟩ := bind_eq_ok.mp h
        cases h
        exact ⟨own, rfl, List.mem_cons_self, hdecrypt, hcheck⟩
      next => exact hlater h
      next => cases h

/-- What the crypto thread and `decrypt_msg_cb` have found of a msg object: it was decrypted with a
private key of the keyring, the plaintext is a message up to its last byte, the sender's signing key
has signed everything in front of the length of the signature, and the message is for the owner of
the key. -/
structure Genuine (ssl : OpenSSL) (behind : Memory) (keys : List (KeyringKey ssl)) (blob : Blob)
    (key : KeyringKey ssl) (plaintext : List UInt8) (msg : DecryptedMsg) : Prop where
  decrypts : ∃ own headerValues headerSize, key = .own own ∧ key ∈ keys ∧
    (getCommand 0 (blob.data.length % 2 ^ 32) msgHeader).value (overlay blob.data behind) =
      .ok (headerValues, headerSize) ∧
    (Ecc.decrypt ssl own.encryptionKey
      { pos := headerSize, len := blob.data.length - headerSize }).value
      (overlay blob.data behind) = .ok plaintext
  parsed : (getDecryptedMsg 0 (plaintext.length % 2 ^ 32)).value (ofList plaintext) = .ok msg
  whole : msg.sig + msg.sigLength = plaintext.length % 2 ^ 32
  signedPrefix : (getVarInt { pos := msg.signedDataLength
                              len := plaintext.length % 2 ^ 32 - msg.signedDataLength }).value
    (ofList plaintext) = .ok (msg.sigLength, { pos := msg.sig, len := msg.sigLength })
  verified : ∃ point,
    ssl.octToPoint (4 :: window (ofList plaintext) msg.senderSigningKey 64) = some point ∧
      ssl.ecdsaVerify point (ssl.sha1 (plaintext.take msg.signedDataLength))
        (window (ofList plaintext) msg.sig msg.sigLength) = true
  stream : msg.senderStreamNumber ≤ 255
  version : msg.senderAddressVersion ≤ 255
  destination : window (ofList plaintext) msg.destinationRipe 20 = key.address.ripe

-- The end of the signed part and the signature, which ends the message.
theorem getDecryptedMsg_signature {len : Nat} {mem : Memory} {msg : DecryptedMsg}
    (hlen : len < 2 ^ 32) (h : (getDecryptedMsg 0 len).value mem = .ok msg) :
    msg.sig + msg.sigLength = len ∧
      (getVarInt { pos := msg.signedDataLength, len := len - msg.signedDataLength }).value mem =
        .ok (msg.sigLength, { pos := msg.sig, len := msg.sigLength }) := by
  obtain ⟨⟨body, c₁⟩, hbody, h⟩ := Parser.value_bind_eq_ok.mp h
  have hconsumed := (getMessageBody_within hlen hbody).1
  obtain ⟨⟨sigLength, c₂⟩, hsig, h⟩ := Parser.value_bind_eq_ok.mp h
  have hsigConsumed := getVarInt_consumed hsig
  obtain ⟨pos₁, len₁⟩ := c₁
  obtain ⟨pos₂, len₂⟩ := c₂
  dsimp only at h
  split at h
  next => cases h
  next hend =>
    cases h
    unfold Consumed at hconsumed hsigConsumed
    simp only at hconsumed hsigConsumed
    obtain rfl := not_not.mp hend
    refine ⟨by show pos₂ + len₂ = len; omega, ?_⟩
    show (getVarInt { pos := pos₁ - 0, len := len - (pos₁ - 0) }).value mem = _
    rw [Nat.sub_zero, show len - pos₁ = len₁ by omega]
    exact hsig

/-- What the crypto thread answers and the callback accepts is genuine. -/
theorem genuine_of_decryptMsg {behind : Memory} {keys : List (KeyringKey ssl)} {blob : Blob}
    {key : KeyringKey ssl} {plaintext : List UInt8} {msg : DecryptedMsg}
    (h : decryptMsg ssl behind keys blob.data = .ok (key, plaintext))
    (haccepts : Accepts ssl key plaintext msg) : Genuine ssl behind keys blob key plaintext msg := by
  have hlen := Nat.mod_lt plaintext.length (show 0 < 2 ^ 32 by decide)
  have hle := Nat.mod_le plaintext.length (2 ^ 32)
  unfold decryptMsg at h
  dsimp only at h
  split at h
  next headerValues headerSize hheader =>
    obtain ⟨own, hown, hmem, hdecrypt, hcheck⟩ := tryKeys_ok h
    -- the callback parses the bytes that the thread has parsed
    obtain ⟨msg', hmsg', hverify⟩ := checkSignatureInDecryptedMsg_ok.mp hcheck
    have hsame : ∀ i, 0 ≤ i → i < 0 + plaintext.length →
        overlay plaintext behind i = ofList plaintext i := by
      intro i _ hi
      rw [Nat.zero_add] at hi
      simp [overlay, ofList, List.getD_eq_getElem?_getD, List.getElem?_eq_getElem hi]
    have hparse := local_getDecryptedMsg (p := 0) hlen (overlay plaintext behind)
      (ofList plaintext) fun i hlo hhi => hsame i hlo (by omega)
    obtain rfl : msg' = msg := by
      rw [hparse, haccepts.parsed] at hmsg'
      exact (Except.ok.inj hmsg').symm
    obtain ⟨hkey, hsigned, -, hsig⟩ := getDecryptedMsg_within hlen haccepts.parsed
    obtain ⟨hwhole, hprefix⟩ := getDecryptedMsg_signature hlen haccepts.parsed
    have hwindow : ∀ pos n, pos + n ≤ plaintext.length →
        window (overlay plaintext behind) pos n = window (ofList plaintext) pos n := by
      intro pos n hn
      refine List.map_congr_left fun i hi => hsame _ (Nat.zero_le _) ?_
      have := List.mem_range.mp hi
      omega
    have htake : window (ofList plaintext) 0 msg'.signedDataLength =
        plaintext.take msg'.signedDataLength := by
      rw [← take_window 0 (show msg'.signedDataLength ≤ plaintext.length by omega)]
      exact congrArg (List.take msg'.signedDataLength) (holds_ofList plaintext)
    rw [hwindow _ _ (by omega), hwindow _ _ (by omega), hwindow _ _ (by omega), htake] at hverify
    obtain ⟨point, hpoint, hverify⟩ := bind_eq_ok.mp hverify
    refine ⟨⟨own, headerValues, headerSize, hown, hmem, hheader, hdecrypt⟩, haccepts.parsed, hwhole,
      hprefix, ⟨point, pointOfNetworkKey_ok.mp hpoint, Except.ok.inj hverify⟩, haccepts.stream,
      haccepts.version, haccepts.destination⟩
  next => cases h

/-! ## 3. Runs -/

/-- What `ntb_crypto_decrypt_msg` calls back with; `none` on a failed assertion. -/
def decryptedMsg (env : Env ssl) (keys : List (KeyringKey ssl)) (blob : Blob) :
    Option (Option (KeyringKey ssl × List UInt8)) :=
  match decryptMsg ssl env.behind keys blob.data with
  | .ok result => some (some result)
  | .error .reject => some none
  | .error .abort => none

/-- `step` with the crypto thread's own answer to a request to decrypt a message. -/
def stepWithCrypto (s : State ssl) : Event ssl → Option (State ssl)
  | .complete env task (.decrypted _) =>
    match s.tasks.find? (·.1 = task) with
    | some (_, .decryptMsg _ blob keys) => do
      let result ← decryptedMsg env keys blob
      step s (.complete env task (.decrypted result))
    | _ => none
  | e => step s e

/-- The calls that hand on a mail or an acknowledgement. -/
def Effect.isMail : Effect ssl → Bool
  | .addObjectFromData _ | .saveMessage _ _ _ _ => true
  | .addBlob _ _ | .saveKeys _ | .saveOutgoings _ | .saveMessageContent _ _
  | .deleteMessageContent _ | .loadedOutgoing _ _ => false

theorem Effect.routine_of_isMail {e : Effect ssl} (h : e.isMail = true) : e.routine = false := by
  cases e with
  | addObjectFromData | saveMessage => rfl
  | _ => cases h

section Moves

variable {allowed : Allowed ssl} {s s' : State ssl}

theorem Moves.mail (h : Moves allowed s s') {e : Effect ssl} (hmail : e.isMail = true)
    (he : e ∈ s'.log) : e ∈ s.log ∨ allowed.mail e := by
  induction h with
  | refl => exact .inl he
  | @tail s₁ s₂ _ hmove ih =>
    cases hmove with
    | pubkeys heq =>
      simp only [State.letters, Prod.mk.injEq] at heq
      exact ih (heq.2.2.2.2.2 ▸ he)
    | emit heffects =>
      rcases List.mem_append.mp he with hold | hnew
      · exact ih hold
      · rcases heffects e hnew with hroutine | hallowed
        · rw [Effect.routine_of_isMail hmail] at hroutine
          cases hroutine
        · exact .inr hallowed
    | deleteContent | saveContent =>
      rcases List.mem_append.mp he with hold | hnew
      · exact ih hold
      · rw [List.mem_singleton.mp hnew] at hmail
        cases hmail
    | keys | request | cancel | write | free | create | skipContents | restart => exact ih he

theorem Moves.decrypts (h : Moves allowed s s') {t : Nat} {timestamp : Int} {blob : Blob}
    {keys : List (KeyringKey ssl)} (ht : (t, .decryptMsg timestamp blob keys) ∈ s'.tasks) :
    (t, .decryptMsg timestamp blob keys) ∈ s.tasks ∨ allowed.keys keys := by
  induction h with
  | refl => exact .inl ht
  | tail _ hmove ih =>
    cases hmove with
    | pubkeys heq =>
      simp only [State.letters, Prod.mk.injEq] at heq
      exact ih (heq.2.2.2.2.1 ▸ ht)
    | request hjob =>
      rcases List.mem_append.mp ht with hold | hnew
      · exact ih hold
      · cases List.mem_singleton.mp hnew
        exact .inr hjob
    | cancel => exact ih (List.mem_of_mem_filter ht)
    | restart => cases ht
    | keys | write | free | create | skipContents | emit | deleteContent | saveContent =>
      exact ih ht

/-- The effect is of a message that the crypto thread answers a request with. -/
def Answered (s : State ssl) (effect : Effect ssl) : Prop :=
  ∃ t timestamp blob keys behind key plaintext, (t, .decryptMsg timestamp blob keys) ∈ s.tasks ∧
    decryptMsg ssl behind keys blob.data = .ok (key, plaintext) ∧
    MailOf timestamp key plaintext effect

theorem stepWithCrypto_moves (h : Lettered s) {e : Event ssl} (hs : stepWithCrypto s e = some s') :
    Moves { mail := Answered s, keys := fun keys => keys = s.keys } s s' := by
  unfold stepWithCrypto at hs
  split at hs
  next env task _ =>
    split at hs
    next t' timestamp blob keys hfind =>
      obtain ⟨result, hresult, hs⟩ := Option.bind_eq_some_iff.mp hs
      refine Moves.mono ?_ ?_ (step_moves h hs)
      case refine_2 => exact fun _ hkeys => hkeys
      rintro effect ⟨env', t, timestamp', blob', keys', key, plaintext, hevent, hfind', hmail⟩
      cases hevent
      cases hfind.symm.trans hfind'
      unfold decryptedMsg at hresult
      split at hresult
      next answer hanswer =>
        cases hresult
        exact ⟨_, timestamp, blob, keys, env.behind, key, plaintext,
          List.mem_of_find?_eq_some hfind, hanswer, hmail⟩
      next => cases hresult
      next => cases hresult
    next => cases hs
  next hother =>
    refine Moves.mono ?_ ?_ (step_moves h hs)
    case refine_2 => exact fun _ hkeys => hkeys
    rintro effect ⟨env', t, timestamp, blob, keys, key, plaintext, hevent, -⟩
    exact absurd hevent (hother env' t (some (key, plaintext)))

end Moves

theorem lettered_runWithCrypto (keys : List (KeyringKey ssl)) (events : List (Event ssl)) :
    Lettered (run stepWithCrypto (State.new keys) events) :=
  invariant (fun _ _ _ h hs => h.moves (stepWithCrypto_moves h hs)) (lettered_new keys) events

/-- The object came when the keyring had the keys it is decrypted with, and what was decrypted of it
is genuine. -/
def FromObject (keys : List (KeyringKey ssl)) (events : List (Event ssl)) (timestamp : Int)
    (key : KeyringKey ssl) (plaintext : List UInt8) (msg : DecryptedMsg) : Prop :=
  ∃ came waits t blob behind, came <+: waits ∧ waits <+: events ∧
    (t, .decryptMsg timestamp blob (run stepWithCrypto (State.new keys) came).keys) ∈
      (run stepWithCrypto (State.new keys) waits).tasks ∧
    Genuine ssl behind (run stepWithCrypto (State.new keys) came).keys blob key plaintext msg

theorem FromObject.mono {keys : List (KeyringKey ssl)} {events events' : List (Event ssl)}
    {timestamp : Int} {key : KeyringKey ssl} {plaintext : List UInt8} {msg : DecryptedMsg}
    (h : FromObject keys events timestamp key plaintext msg) (hevents : events <+: events') :
    FromObject keys events' timestamp key plaintext msg := by
  obtain ⟨came, waits, t, blob, behind, hcame, hwaits, hrest⟩ := h
  exact ⟨came, waits, t, blob, behind, hcame, hwaits.trans hevents, hrest⟩

/-- What is known after some events: the requests are made with keys the keyring has had, and the
mails come from genuine messages. -/
structure Sourced (keys : List (KeyringKey ssl)) (events : List (Event ssl)) : Prop where
  decrypts : ∀ t timestamp blob held, (t, .decryptMsg timestamp blob held) ∈
      (run stepWithCrypto (State.new keys) events).tasks →
    ∃ came, came <+: events ∧ held = (run stepWithCrypto (State.new keys) came).keys
  mails : ∀ effect ∈ (run stepWithCrypto (State.new keys) events).log, effect.isMail = true →
    ∃ timestamp key plaintext msg, FromObject keys events timestamp key plaintext msg ∧
      Accepts ssl key plaintext msg ∧ ((∃ blob, effect = .addObjectFromData blob) ∨
        effect = .saveMessage timestamp (senderAddress ssl plaintext msg) key plaintext)

theorem sourced_run (keys : List (KeyringKey ssl)) (events : List (Event ssl)) :
    Sourced keys events := by
  induction events using List.reverseRecOn with
  | nil =>
    exact ⟨fun _ _ _ _ ht => absurd ht List.not_mem_nil,
      fun _ he => absurd he List.not_mem_nil⟩
  | append_singleton events e ih =>
    have hprefix : events <+: events ++ [e] := List.prefix_append events [e]
    have hrun : run stepWithCrypto (State.new keys) (events ++ [e]) =
        next stepWithCrypto (run stepWithCrypto (State.new keys) events) e := run_append events [e]
    have hold : ∀ t timestamp blob held, (t, .decryptMsg timestamp blob held) ∈
        (run stepWithCrypto (State.new keys) events).tasks →
        ∃ came, came <+: events ++ [e] ∧
          held = (run stepWithCrypto (State.new keys) came).keys := by
      intro t timestamp blob held ht
      obtain ⟨came, hcame, hheld⟩ := ih.decrypts t timestamp blob held ht
      exact ⟨came, hcame.trans hprefix, hheld⟩
    have holdMails : ∀ effect ∈ (run stepWithCrypto (State.new keys) events).log,
        effect.isMail = true → ∃ timestamp key plaintext msg,
          FromObject keys (events ++ [e]) timestamp key plaintext msg ∧
          Accepts ssl key plaintext msg ∧ ((∃ blob, effect = .addObjectFromData blob) ∨
            effect = .saveMessage timestamp (senderAddress ssl plaintext msg) key plaintext) := by
      intro effect heffect hmail
      obtain ⟨timestamp, key, plaintext, msg, hfrom, hrest⟩ := ih.mails effect heffect hmail
      exact ⟨timestamp, key, plaintext, msg, hfrom.mono hprefix, hrest⟩
    constructor
    · rw [hrun]
      cases hs : stepWithCrypto (run stepWithCrypto (State.new keys) events) e with
      | none =>
        rw [next_of_none hs]
        exact hold
      | some s' =>
        rw [next_of_some hs]
        have hmoves := stepWithCrypto_moves (lettered_runWithCrypto keys events) hs
        intro t timestamp blob held ht
        rcases hmoves.decrypts ht with hbefore | hheld
        · exact hold t timestamp blob held hbefore
        · exact ⟨events, hprefix, hheld⟩
    · rw [hrun]
      cases hs : stepWithCrypto (run stepWithCrypto (State.new keys) events) e with
      | none =>
        rw [next_of_none hs]
        exact holdMails
      | some s' =>
        rw [next_of_some hs]
        have hmoves := stepWithCrypto_moves (lettered_runWithCrypto keys events) hs
        intro effect heffect hmail
        rcases hmoves.mail hmail heffect with hbefore | hanswered
        · exact holdMails effect hbefore hmail
        · obtain ⟨t, timestamp, blob, held, behind, key, plaintext, ht, hanswer, msg, haccepts,
            hcall⟩ := hanswered
          -- the object of the request came earlier, and its answer is genuine
          obtain ⟨came, hcame, rfl⟩ := ih.decrypts t timestamp blob held ht
          exact ⟨timestamp, key, plaintext, msg, ⟨came, events, t, blob, behind, hcame, hprefix, ht,
            genuine_of_decryptMsg hanswer haccepts⟩, haccepts, hcall⟩

/-- The address of the sender's version, stream and keys. -/
structure OfSender (ssl : OpenSSL) (plaintext : List UInt8) (msg : DecryptedMsg)
    (a : Address) : Prop where
  version : a.version = msg.senderAddressVersion
  stream : a.stream = msg.senderStreamNumber
  ripe : a.ripe = ssl.ripemd160 (ssl.sha512 ([4] ++
    window (ofList plaintext) msg.senderSigningKey 64 ++ [4] ++
      window (ofList plaintext) msg.senderEncryptionKey 64))

/-- A mail that is handed to the store comes from a genuine message, with the sender's address; an
acknowledgement is sent for a genuine message only. -/
structure DeliversGenuine (keys : List (KeyringKey ssl)) (events : List (Event ssl)) : Prop where
  mail : ∀ timestamp sender key plaintext, .saveMessage timestamp sender key plaintext ∈
      (run stepWithCrypto (State.new keys) events).log →
    ∃ msg, FromObject keys events timestamp key plaintext msg ∧
      OfSender ssl plaintext msg sender
  acknowledgement : ∀ blob, .addObjectFromData blob ∈
      (run stepWithCrypto (State.new keys) events).log →
    ∃ timestamp key plaintext msg, FromObject keys events timestamp key plaintext msg

/-- After any events, with the crypto thread's own answers, whatever was delivered is genuine. -/
theorem delivers_genuine (keys : List (KeyringKey ssl)) (events : List (Event ssl)) :
    DeliversGenuine keys events where
  mail timestamp sender key plaintext hsaved := by
    obtain ⟨timestamp', key', plaintext', msg, hfrom, haccepts, ⟨blob, hack⟩ | hmail⟩ :=
      (sourced_run keys events).mails _ hsaved rfl
    · cases hack
    · cases hmail
      have hversion := haccepts.version
      have hstream := haccepts.stream
      exact ⟨msg, hfrom, Nat.mod_eq_of_lt (by omega), Nat.mod_eq_of_lt (by omega), rfl⟩
  acknowledgement blob hadded := by
    obtain ⟨timestamp, key, plaintext, msg, hfrom, -⟩ :=
      (sourced_run keys events).mails _ hadded rfl
    exact ⟨timestamp, key, plaintext, msg, hfrom⟩

/-! ## 4. What the callback writes

The keys of a message that is accepted are hashed and, if they are new, copied; neither array has
room for it. -/

/-- `add_public_key_from_network_keys`, with the two copies it makes of the keys at `signingKey` and
`encryptionKey`. -/
def addPublicKeyFromNetworkKeysCall (s : State ssl) (address : Address) (block : Block)
    (mem : Memory) (signingKey encryptionKey nonceTrialsPerByte extraBytes : Nat) :
    Handler (State ssl) :=
  if s.keys.any (address.equal ·.address) then return s
  else do
    let fullSigningKey ← copyNetworkKey block mem signingKey
    let fullEncryptionKey ← copyNetworkKey block mem encryptionKey
    return (s.request (.createPublicKey address fullSigningKey fullEncryptionKey nonceTrialsPerByte
      extraBytes)).2

/-- A key is added as `addPublicKeyFromNetworkKeys` does it, and cleanly exactly if it is not new. -/
theorem addPublicKeyFromNetworkKeysCall_spec (s : State ssl) (address : Address) (block : Block)
    (mem : Memory) (signingKey encryptionKey nonceTrialsPerByte extraBytes : Nat) :
    (addPublicKeyFromNetworkKeysCall s address block mem signingKey encryptionKey
        nonceTrialsPerByte extraBytes).value =
        .ok (s.addPublicKeyFromNetworkKeys address (window mem signingKey 64)
          (window mem encryptionKey 64) nonceTrialsPerByte extraBytes) ∧
      (Clean (addPublicKeyFromNetworkKeysCall s address block mem signingKey encryptionKey
          nonceTrialsPerByte extraBytes) ↔
        s.keys.any (address.equal ·.address) = true) := by
  unfold addPublicKeyFromNetworkKeysCall State.addPublicKeyFromNetworkKeys
  split_ifs with hknown
  · exact ⟨rfl, iff_of_true (clean_pure s) hknown⟩
  · constructor
    · rw [value_bind_of_ok (copyNetworkKey_spec _ _ _).1,
        value_bind_of_ok (copyNetworkKey_spec _ _ _).1, Handler.value_pure]
    · exact iff_of_false (fun h => (copyNetworkKey_spec _ _ _).2 (clean_bind_iff.mp h).1) hknown

/-- `decrypt_msg_cb`, with what it writes to the arrays of the functions that it calls. -/
def decryptMsgCbCall (env : Env ssl) (s : State ssl) (timestamp : Int) (key : KeyringKey ssl)
    (plaintext : List UInt8) : Handler (State ssl) :=
  let mem := ofList plaintext
  let block : Block := { lo := 0, hi := plaintext.length }
  match (getDecryptedMsg 0 (plaintext.length % 2 ^ 32)).value mem with
  | .error _ => return s
  | .ok msg =>
    if msg.senderStreamNumber > 255 ∨ msg.senderAddressVersion > 255 then return s
    else if key.address.ripe ≠ window mem msg.destinationRipe 20 then return s
    else do
      let sender ← addressFromNetworkKeysCall ssl msg.senderAddressVersion msg.senderStreamNumber
        (window mem msg.senderSigningKey 64) (window mem msg.senderEncryptionKey 64)
      let s ← addPublicKeyFromNetworkKeysCall s sender block mem msg.senderSigningKey
        msg.senderEncryptionKey msg.nonceTrialsPerByte msg.extraBytes
      let s := s.sendAcknowledgement env (window mem msg.ack msg.ackLength)
      return s.emit [.saveMessage timestamp sender key plaintext]

/-- The callback leaves the keyring as `decryptMsgCb` does, and it is clean exactly if it accepts no
message. -/
theorem decryptMsgCbCall_spec (env : Env ssl) (s : State ssl) (timestamp : Int)
    (key : KeyringKey ssl) (plaintext : List UInt8) :
    (decryptMsgCbCall env s timestamp key plaintext).value =
        .ok (s.decryptMsgCb env timestamp key plaintext) ∧
      (Clean (decryptMsgCbCall env s timestamp key plaintext) ↔
        ¬ ∃ msg, Accepts ssl key plaintext msg) := by
  unfold decryptMsgCbCall State.decryptMsgCb
  dsimp only
  cases hparsed : (getDecryptedMsg 0 (plaintext.length % 2 ^ 32)).value (ofList plaintext) with
  | error e =>
    refine ⟨rfl, iff_of_true (clean_pure s) ?_⟩
    rintro ⟨msg, haccepts⟩
    rw [haccepts.parsed] at hparsed
    cases hparsed
  | ok msg =>
    have hmsg : ∀ msg', Accepts ssl key plaintext msg' → msg' = msg := fun msg' h =>
      Except.ok.inj (h.parsed.symm.trans hparsed)
    dsimp only
    split_ifs with hbytes hripe
    · refine ⟨rfl, iff_of_true (clean_pure s) ?_⟩
      rintro ⟨msg', haccepts⟩
      have hstream := haccepts.stream
      have hversion := haccepts.version
      rw [hmsg msg' haccepts] at hstream hversion
      omega
    · refine ⟨rfl, iff_of_true (clean_pure s) ?_⟩
      rintro ⟨msg', haccepts⟩
      have hdestination := haccepts.destination
      rw [hmsg msg' haccepts] at hdestination
      exact hripe hdestination.symm
    · rw [not_or, not_lt, not_lt] at hbytes
      constructor
      · rw [value_bind_of_ok (addressFromNetworkKeysCall_spec ssl _ _ _ _).1,
          value_bind_of_ok (addPublicKeyFromNetworkKeysCall_spec s _ _ _ _ _ _ _).1,
          Handler.value_pure]
      · exact iff_of_false
          (fun h => (addressFromNetworkKeysCall_spec ssl _ _ _ _).2 (clean_bind_iff.mp h).1)
          (not_not.mpr ⟨msg, hparsed, hbytes.1, hbytes.2, (not_not.mp hripe).symm⟩)

end Notbit.Keyring
