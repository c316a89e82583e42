import Notbit.Ecc.Stream
import Notbit.Keyring.Cancels
import Notbit.Keyring.Mail

/-!
# Letters — a msg object from its sender to its recipient and its acknowledgement back

A letter is all that goes into a msg object.  The recipient's crypto thread opens it with the key it
is encrypted for, `decrypt_msg_cb` finds in it what the sender put in and sends the acknowledgement,
and `check_msg_acknowledgement` of the sender finds the message again by it.
-/

open Bytes Traced Traced.Parser Notbit.Proto Notbit.Crypto

namespace Notbit.Keyring

variable {ssl : OpenSSL}

/-! ## 1. The objects of a letter -/

/-- What goes into a msg object: the message, the key it is encrypted for, the nonces, the time and
the random numbers of the crypto thread. -/
structure Letter (ssl : OpenSSL) where
  outgoing : Outgoing ssl
  toKey : PublicKey ssl
  ackNonce : Nat
  env : Env ssl
  time : Int
  nonce : Nat

namespace Letter

/-- The bytes that are signed. -/
def signed (l : Letter ssl) : Buffer := signedPart l.outgoing l.ackNonce

/-- The bytes that are encrypted. -/
def text (l : Letter ssl) : Buffer := plaintext l.outgoing l.signed

def object (l : Letter ssl) : Blob where
  type := .msg
  data := toBE 8 l.nonce ++ State.msgFields l.env l.time l.outgoing.fromKey l.toKey l.signed

/-- The object inside the acknowledgement. -/
def ackObject (l : Letter ssl) : Blob where
  type := .msg
  data := ackPayload l.outgoing l.ackNonce

/-- The object behind its header. -/
def sealed (l : Letter ssl) : Buffer :=
  Ecc.encryptWithPoint ssl l.env.ephemeral l.env.iv l.toKey.encryptionKey l.text

/-- What the fields of the objects can tell: the sender has a private key, whose difficulty is not
negative, the times fit 32 bits, and the content is not of the size of an `int`. -/
structure Sendable (l : Letter ssl) : Prop where
  ripe : l.outgoing.fromKey.address.ripe =
    generateRipe ssl l.outgoing.fromKey.signingKey l.outgoing.fromKey.encryptionKey
  trials : 0 ≤ l.outgoing.fromKey.nonceTrialsPerByte.val
  extraBytes : 0 ≤ l.outgoing.fromKey.payloadLengthExtraBytes.val
  ackTime : 0 ≤ l.outgoing.ackTime ∧ l.outgoing.ackTime < 2 ^ 32
  time : 0 ≤ l.time ∧ l.time < 2 ^ 32
  size : l.outgoing.content.length + 1024 ≤ 2 ^ 31

end Letter

variable {l : Letter ssl}

-- The signed part is fed in before the signature is computed.
theorem msgFields_eq (hstream : ssl.Streams) (env : Env ssl) (time : Int) (fromKey : Key ssl)
    (toKey : PublicKey ssl) (content : List UInt8) :
    State.msgFields env time fromKey toKey content =
      add64 (toUInt64 time) ++ addVarInt toKey.address.stream ++
        Ecc.encryptWithPoint ssl env.ephemeral env.iv toKey.encryptionKey
          (content ++ appendSignature ssl fromKey.signingKey content) := by
  have hpieces := Ecc.encryptUpdates_eq hstream
    (Ecc.encryptWithPointBegin ssl env.ephemeral env.iv toKey.encryptionKey)
    [content, appendSignature ssl fromKey.signingKey content]
  rw [List.flatten_cons, List.flatten_cons, List.flatten_nil, List.append_nil] at hpieces
  rw [Ecc.encryptWithPoint, ← hpieces]
  rfl

theorem Letter.object_data (hstream : ssl.Streams) (l : Letter ssl) :
    l.object.data = toBE 8 l.nonce ++ add64 (toUInt64 l.time) ++
      addVarInt l.toKey.address.stream ++ l.sealed := by
  have hfields := msgFields_eq hstream l.env l.time l.outgoing.fromKey l.toKey l.signed
  rw [Letter.object, hfields]
  simp only [List.append_assoc]
  rfl

/-! ## 2. Sizes -/

theorem length_contentFields_le (m : Outgoing ssl) :
    (contentFields m).length ≤ m.content.length + 224 := by
  have h₁ := length_addVarInt_le 1
  have h₂ := length_addVarInt_le m.fromKey.address.version
  have h₃ := length_addVarInt_le m.fromKey.address.stream
  have h₄ := length_addVarInt_le (toUInt64 m.fromKey.nonceTrialsPerByte.val)
  have h₅ := length_addVarInt_le (toUInt64 m.fromKey.payloadLengthExtraBytes.val)
  have h₆ := length_addVarInt_le (toUInt64 m.contentEncoding.val)
  have h₇ := length_addVarInt_le m.content.length
  unfold contentFields
  split_ifs <;> simp only [List.length_append, List.length_nil, add32, length_toBE,
    length_addPublicKey, m.toAddress.length_ripe] <;> omega

theorem length_text_le (hssl : ssl.Lawful) (l : Letter ssl) :
    l.text.length ≤ l.outgoing.content.length + 560 := by
  have hfields := length_contentFields_le l.outgoing
  have hack := length_ack_lt l.outgoing l.ackNonce
  have hsig := hssl.length_ecdsaSign l.outgoing.fromKey.signingKey (ssl.sha1 l.signed)
  have hvar := length_addVarInt_le
    (ssl.ecdsaSign l.outgoing.fromKey.signingKey (ssl.sha1 l.signed)).length
  simp only [Letter.text, plaintext, appendSignature, List.length_append]
  have hsigned : l.signed.length ≤ l.outgoing.content.length + 224 + 1 + 252 := by
    simp only [Letter.signed, signedPart, List.length_append, List.length_singleton]
    omega
  omega

theorem length_sealed_le (hssl : ssl.Lawful) (l : Letter ssl) :
    l.sealed.length ≤ l.text.length + 134 := by
  have hsealed := Ecc.encryptWithPoint_eq l.env.ephemeral l.env.iv l.toKey.encryptionKey l.text
  dsimp only at hsealed
  have hkey := Ecc.length_encodePubkey_le hssl (ssl.publicKey l.env.ephemeral)
  have hcipher := hssl.length_ciphertext
    ((ssl.ecdh l.toKey.encryptionKey l.env.ephemeral).take 32) l.env.iv l.text
  have hiv := l.env.length_iv
  unfold ivLength at hiv
  unfold Letter.sealed
  rw [hsealed]
  simp only [List.length_append, ssl.length_hmac, macLength] at hcipher ⊢
  omega

theorem Letter.Sendable.length_text (h : l.Sendable) (hssl : ssl.Lawful) :
    l.text.length < 2 ^ 31 := by
  have htext := length_text_le hssl l
  have hsize := h.size
  omega

theorem Letter.Sendable.length_object (h : l.Sendable) (hssl : ssl.Lawful)
    (hstream : ssl.Streams) : l.object.data.length < 2 ^ 31 := by
  have htext := length_text_le hssl l
  have hsealed := length_sealed_le hssl l
  have hvar := length_addVarInt_le l.toKey.address.stream
  have hsize := h.size
  rw [l.object_data hstream]
  simp only [List.length_append, add64, length_toBE]
  omega

/-! ## 3. Headers -/

/-- The length of the header of a msg object. -/
def msgHeaderLength (stream : Nat) : Nat := 16 + (addVarInt stream).length

/-- The header that `handle_msg` and the crypto thread read. -/
theorem getCommand_msgHeader {mem : Memory} {nonce stream len : Nat} {time : Int}
    {rest : List UInt8} (htime : 0 ≤ time ∧ time < 2 ^ 32) (hstream : stream < 2 ^ 64)
    (hmem : Holds mem 0 (toBE 8 nonce ++ add64 (toUInt64 time) ++ addVarInt stream ++ rest))
    (hlen : (toBE 8 nonce ++ add64 (toUInt64 time) ++ addVarInt stream ++ rest).length = len)
    (hlimit : len < 2 ^ 31) :
    (getCommand 0 len msgHeader).value mem = .ok
      ([.num (nonce % 2 ^ 64), .num time.toNat, .num stream], msgHeaderLength stream) := by
  have htoNat : toUInt64 time = time.toNat := by
    unfold toUInt64
    omega
  let header := add64 nonce ++ (add64 time.toNat ++ (addVarInt stream ++ []))
  have hheader : toBE 8 nonce ++ add64 (toUInt64 time) ++ addVarInt stream = header := by
    simp only [header, add64, htoNat, List.append_assoc, List.append_nil]
  have hlength : header.length = msgHeaderLength stream := by
    simp only [header, add64, List.length_append, length_toBE, List.length_nil, msgHeaderLength]
    omega
  have hencodes : Encodes msgHeader [.num (nonce % 2 ^ 64), .num time.toNat, .num stream] header :=
    .cons (reads_u64 nonce) (.cons (reads_timestamp (by omega))
      (.cons (reads_varInt hstream) .nil))
  rw [hheader] at hmem hlen
  clear_value header
  have hle : header.length ≤ len := by
    rw [← hlen, List.length_append]
    exact Nat.le_add_right _ _
  have hread := getCommand_value hencodes ((holds_append _ _ _ _).mp hmem).1 hle hlimit
  rwa [hlength] at hread

theorem drop_msgHeader (nonce stream : Nat) (time : Int) (rest : List UInt8) :
    (toBE 8 nonce ++ add64 (toUInt64 time) ++ addVarInt stream ++ rest).drop
      (msgHeaderLength stream) = rest := by
  apply List.drop_left'
  simp only [List.length_append, add64, length_toBE, msgHeaderLength]

/-! ## 4. Opening a letter -/

/-- The first own key of the keyring that can decrypt the object is `key`. -/
def OpensWith (mem : Memory) (c : Cursor) (keys : List (KeyringKey ssl)) (key : Key ssl) : Prop :=
  ∃ before after, keys = before ++ .own key :: after ∧
    ∀ other, .own other ∈ before →
      (Ecc.decrypt ssl other.encryptionKey c).value mem = .error .reject

theorem tryKeys_of_opensWith {mem behind : Memory} {c : Cursor} {keys : List (KeyringKey ssl)}
    {key : Key ssl} {result : List UInt8} (h : OpensWith mem c keys key)
    (hdecrypt : (Ecc.decrypt ssl key.encryptionKey c).value mem = .ok result)
    (hcheck : (checkSignatureInDecryptedMsg ssl behind result).value = .ok ()) :
    tryKeys ssl mem behind c keys = .ok (.own key, result) := by
  obtain ⟨before, after, rfl, hreject⟩ := h
  induction before with
  | nil =>
    rw [List.nil_append, tryKeys, hdecrypt]
    dsimp only
    rw [hcheck]
    rfl
  | cons first before ih =>
    have hrest := ih fun other hother => hreject other (List.mem_cons_of_mem first hother)
    cases first with
    | other other => exact hrest
    | own other =>
      rw [List.cons_append, tryKeys, hreject other List.mem_cons_self]
      exact hrest

/-- What a receiver finds in the plaintext: the fields of the message, the signed bytes with their
signature, and the acknowledgement. -/
structure Letter.Found (l : Letter ssl) (mem : Memory) (msg : DecryptedMsg) : Prop where
  fields : MatchesSender mem msg l.outgoing
  signed : window mem 0 msg.signedDataLength = l.signed
  signature : window mem msg.sig msg.sigLength =
    ssl.ecdsaSign l.outgoing.fromKey.signingKey (ssl.sha1 l.signed)
  ack : window mem msg.ack msg.ackLength = Keyring.ack l.outgoing l.ackNonce

-- The plaintext is parsed to what the sender put in.
theorem Letter.Sendable.found (h : l.Sendable) (hssl : ssl.Lawful) {mem : Memory}
    (hmem : Holds mem 0 l.text) :
    ∃ msg, (getDecryptedMsg 0 (l.text.length % 2 ^ 32)).value mem = .ok msg ∧ l.Found mem msg := by
  have hlength := h.length_text hssl
  have hcontent : l.outgoing.content.length < 2 ^ 64 := by
    have hsize := h.size
    omega
  have hfit : (l.outgoing.fields l.ackNonce).Fit := Outgoing.fields_fit hcontent
  have hencode : (l.outgoing.fields l.ackNonce).encode = l.signed := l.outgoing.fields_encode _
  let sig := ssl.ecdsaSign l.outgoing.fromKey.signingKey (ssl.sha1 l.signed)
  have hwhole : (l.outgoing.fields l.ackNonce).encode ++ (addVarInt sig.length ++ sig) =
      l.text := by
    rw [hencode]
    rfl
  have hvalue := getDecryptedMsg_value hfit (hwhole ▸ hmem) (congrArg List.length hwhole) hlength
  have hsplit := hmem
  rw [← hwhole, holds_append, holds_append] at hsplit
  refine ⟨_, by rw [Nat.mod_eq_of_lt (by omega)]; exact hvalue, ?_, ?_, ?_, ?_⟩
  · exact Outgoing.matchesSender h.trials h.extraBytes hcontent hsplit.1
  · rw [← hencode]
    exact hsplit.1.window_eq rfl
  · exact hsplit.2.2.window_eq rfl
  · exact (hfit.windows hsplit.1).2.2.2.2

-- The signature is checked against the key in the plaintext.
theorem Letter.Sendable.checked (h : l.Sendable) (hssl : ssl.Lawful) (behind : Memory) :
    (checkSignatureInDecryptedMsg ssl behind l.text).value = .ok () := by
  obtain ⟨msg, hparsed, hfound⟩ := h.found hssl (holds_overlay l.text behind)
  refine checkSignatureInDecryptedMsg_ok.mpr ⟨msg, hparsed, ?_⟩
  rw [hfound.fields.signingKey, hfound.signed, hfound.signature, checkSignatureForData,
    pointOfNetworkKey_value hssl]
  exact congrArg Except.ok (hssl.ecdsaVerify_sign _ _)

/-- The header of the object is read as it was written. -/
theorem Letter.Sendable.header (h : l.Sendable) (hssl : ssl.Lawful) (hstream : ssl.Streams)
    {mem : Memory} (hmem : Holds mem 0 l.object.data) :
    (getCommand 0 (l.object.data.length % 2 ^ 32) msgHeader).value mem =
      .ok ([.num (l.nonce % 2 ^ 64), .num l.time.toNat, .num l.toKey.address.stream],
        msgHeaderLength l.toKey.address.stream) := by
  have hlength := h.length_object hssl hstream
  have hdata := l.object_data hstream
  have hbyte : l.toKey.address.stream < 2 ^ 64 := l.toKey.address.stream_lt.trans (by norm_num)
  rw [Nat.mod_eq_of_lt (by omega)]
  rw [hdata] at hmem hlength ⊢
  exact getCommand_msgHeader h.time hbyte hmem rfl hlength

/-- The recipient's keyring opens the letter with the key it is encrypted for. -/
theorem Letter.Sendable.opened (h : l.Sendable) (hssl : ssl.Lawful) (hstream : ssl.Streams)
    {key : Key ssl} (hkey : ssl.publicKey key.encryptionKey = l.toKey.encryptionKey)
    {behind : Memory} {keys : List (KeyringKey ssl)}
    (hopens : OpensWith (overlay l.object.data behind)
      { pos := msgHeaderLength l.toKey.address.stream
        len := l.object.data.length - msgHeaderLength l.toKey.address.stream } keys key) :
    decryptMsg ssl behind keys l.object.data = .ok (.own key, l.text) := by
  have hlength := h.length_object hssl hstream
  have hdata := l.object_data hstream
  have hmem := holds_overlay l.object.data behind
  have hheader := h.header hssl hstream hmem
  have hsealed : Holds (overlay l.object.data behind) (msgHeaderLength l.toKey.address.stream)
      l.sealed := by
    have hholds := hmem
    rw [hdata, holds_append] at hholds
    have hat : (toBE 8 l.nonce ++ add64 (toUInt64 l.time) ++
        addVarInt l.toKey.address.stream).length = msgHeaderLength l.toKey.address.stream := by
      simp only [List.length_append, add64, length_toBE, msgHeaderLength]
    have hrest := hholds.2
    rwa [hat, Nat.zero_add, ← hdata] at hrest
  have hrest : l.sealed.length =
      l.object.data.length - msgHeaderLength l.toKey.address.stream := by
    rw [← List.length_drop, hdata, drop_msgHeader]
  have hwhole : msgHeaderLength l.toKey.address.stream +
      (l.object.data.length - msgHeaderLength l.toKey.address.stream) < 2 ^ 64 := by
    have hvar := length_addVarInt_le l.toKey.address.stream
    unfold msgHeaderLength
    omega
  unfold Letter.sealed at hsealed hrest
  rw [← hkey] at hsealed hrest
  have hdecrypt := Ecc.decrypt_encryptWithPoint hssl l.env.length_iv hsealed hrest hwhole
  unfold decryptMsg
  dsimp only
  rw [hheader]
  exact tryKeys_of_opensWith hopens hdecrypt (h.checked hssl behind)

/-! ## 5. Delivery and acknowledgement -/

/-- The address in the mail is that of the sender. -/
theorem Letter.Sendable.accepts (h : l.Sendable) (hssl : ssl.Lawful) {key : Key ssl}
    (hripe : key.address.ripe = l.outgoing.toAddress.ripe) :
    ∃ msg, Accepts ssl (.own key) l.text msg ∧ l.Found (ofList l.text) msg ∧
      senderAddress ssl l.text msg = l.outgoing.fromKey.address := by
  obtain ⟨msg, hparsed, hfound⟩ := h.found hssl (holds_ofList l.text)
  have hversion : msg.senderAddressVersion = l.outgoing.fromKey.address.version :=
    hfound.fields.version
  have hstream : msg.senderStreamNumber = l.outgoing.fromKey.address.stream :=
    hfound.fields.stream
  have hbytes := l.outgoing.fromKey.address.version_lt
  have hbytes' := l.outgoing.fromKey.address.stream_lt
  refine ⟨msg, ⟨hparsed, by omega, by omega, ?_⟩, hfound, ?_⟩
  · rw [hfound.fields.ripe]
    exact hripe.symm
  · unfold senderAddress addressFromNetworkKeys
    have hripe' : ssl.ripemd160 (ssl.sha512 ([4] ++
        window (ofList l.text) msg.senderSigningKey 64 ++ [4] ++
          window (ofList l.text) msg.senderEncryptionKey 64)) =
        l.outgoing.fromKey.address.ripe := by
      rw [hfound.fields.signingKey, hfound.fields.encryptionKey, h.ripe, generateRipe,
        ← cons_addPublicKey hssl, ← cons_addPublicKey hssl]
      simp only [List.cons_append, List.nil_append, List.append_assoc]
    cases haddress : l.outgoing.fromKey.address with
    | mk version stream ripe version_lt stream_lt length_ripe =>
      rw [haddress] at hversion hstream hbytes hbytes' hripe'
      dsimp only at hversion hstream hbytes hbytes' hripe'
      simp only [Address.mk.injEq]
      refine ⟨?_, ?_, hripe'⟩
      · rw [hversion, Nat.mod_eq_of_lt (by omega)]
      · rw [hstream, Nat.mod_eq_of_lt (by omega)]

-- The acknowledgement is taken for an object of type msg.
theorem ackObject_ack (l : Letter ssl) :
    ackObject (Keyring.ack l.outgoing l.ackNonce) = some l.ackObject := by
  have hlength := length_ack l.outgoing l.ackNonce
  have hsum := length_checksum ssl (ackPayload l.outgoing l.ackNonce)
  have hname : ((Keyring.ack l.outgoing l.ackNonce).drop 4).take 12 = msgCommandName := by
    simp only [Keyring.ack, command, List.append_assoc]
    have hmagic : magic.length = 4 := rfl
    have hcommand : msgCommandName.length = 12 := rfl
    rw [List.drop_left' hmagic, List.take_left' hcommand]
  have hdrop : (Keyring.ack l.outgoing l.ackNonce).drop headerSize =
      ackPayload l.outgoing l.ackNonce := by
    unfold Keyring.ack command
    apply List.drop_left'
    simp only [List.length_append, hsum, add32, length_toBE]
    rfl
  unfold Keyring.ackObject
  rw [hname, if_neg, hdrop]
  · rfl
  · rw [not_or]
    refine ⟨?_, by decide⟩
    unfold headerSize
    omega

/-- What a keyring does with the plaintext of a letter: the acknowledgement goes to the network and
then the mail to the store, from the address of the sender and with the fields of the message. -/
structure Letter.DeliveredBy (l : Letter ssl) (key : Key ssl) (timestamp : Int)
    (s s' : State ssl) : Prop where
  fields : ∃ msg, (getDecryptedMsg 0 (l.text.length % 2 ^ 32)).value (ofList l.text) = .ok msg ∧
    MatchesSender (ofList l.text) msg l.outgoing
  log : ∃ rest, s'.log = s.log ++ .addObjectFromData l.ackObject :: rest ++
    [.saveMessage timestamp l.outgoing.fromKey.address (.own key) l.text]

theorem Letter.Sendable.delivered (h : l.Sendable) (hssl : ssl.Lawful) {key : Key ssl}
    (hripe : key.address.ripe = l.outgoing.toAddress.ripe) (env : Env ssl) {s : State ssl}
    (hs : Lettered s) (timestamp : Int) :
    l.DeliveredBy key timestamp s (s.decryptMsgCb env timestamp (.own key) l.text) := by
  obtain ⟨msg, haccepts, hfound, hsender⟩ := h.accepts hssl hripe
  refine ⟨⟨msg, haccepts.parsed, hfound.fields⟩, ?_⟩
  have hnoted : Lettered (s.noteSender l.text msg) :=
    hs.moves (moves_addPublicKeyFromNetworkKeys ⟨fun _ => True, fun _ => True⟩ s _ _ _ _ _).1
  obtain ⟨rest, hrest⟩ := log_announce env hnoted (.addObjectFromData l.ackObject) l.ackObject
  refine ⟨rest, ?_⟩
  rw [decryptMsgCb_of_accepts env s timestamp haccepts, sendAcknowledgement_eq, hfound.ack,
    ackObject_ack, hsender]
  dsimp only
  rw [State.emit, hrest, (core_noteSender s l.text msg).2]

/-- A letter is no acknowledgement: a keyring that can read its header asks for it to be decrypted.
-/
theorem Letter.Sendable.handleMsg (h : l.Sendable) (hssl : ssl.Lawful) (hstream : ssl.Streams)
    (s : State ssl) :
    s.handleMsg l.object = (s.request (.decryptMsg l.time l.object s.keys)).2 := by
  have hheader := h.header hssl hstream (holds_ofList l.object.data)
  have htime : ((l.time.toNat : Nat) : Int) = l.time := Int.toNat_of_nonneg h.time.1
  have hlong : s.acknowledgedMessage
      (l.object.data.drop (msgHeaderLength l.toKey.address.stream)) = none := by
    have hfields := length_msgFields l.env l.time l.outgoing.fromKey l.toKey l.signed
    have hvar := length_addVarInt_le l.toKey.address.stream
    unfold State.acknowledgedMessage
    rw [if_pos]
    rw [List.length_drop, Letter.object, List.length_append, length_toBE]
    unfold msgHeaderLength
    omega
  unfold State.handleMsg
  rw [hheader]
  dsimp only
  rw [hlong, htime]

/-- The sender finds a message with the data of the acknowledgement. -/
theorem Letter.Sendable.acknowledged (h : l.Sendable) {s : State ssl} {m : Message ssl}
    (hm : m ∈ s.messages) (hstate : m.state ≠ .generatingAckdata)
    (hack : m.ackdata.val = l.outgoing.ackdata) :
    ∃ m' ∈ s.messages, m'.ackdata = m.ackdata ∧
      s.handleMsg l.ackObject = s.messageAcknowledged m' := by
  have hmem := holds_ofList l.ackObject.data
  have hlength : l.ackObject.data.length < 2 ^ 31 := by
    have hpayload := length_ackPayload l.outgoing l.ackNonce
    have hvar := length_addVarInt_le l.outgoing.fromKey.address.stream
    show (ackPayload l.outgoing l.ackNonce).length < 2 ^ 31
    omega
  have hheader : (getCommand 0 (l.ackObject.data.length % 2 ^ 32) msgHeader).value
      (ofList l.ackObject.data) = .ok ([.num (l.ackNonce % 2 ^ 64),
        .num l.outgoing.ackTime.toNat, .num l.outgoing.fromKey.address.stream],
          msgHeaderLength l.outgoing.fromKey.address.stream) := by
    have hbyte : l.outgoing.fromKey.address.stream < 2 ^ 64 :=
      l.outgoing.fromKey.address.stream_lt.trans (by norm_num)
    rw [Nat.mod_eq_of_lt (by omega)]
    exact getCommand_msgHeader h.ackTime hbyte hmem rfl hlength
  have hdata : l.ackObject.data.drop (msgHeaderLength l.outgoing.fromKey.address.stream) =
      l.outgoing.ackdata := drop_msgHeader _ _ _ _
  obtain ⟨m', hfind⟩ : ∃ m', s.acknowledgedMessage l.outgoing.ackdata = some m' := by
    unfold State.acknowledgedMessage
    rw [if_neg (not_not.mpr l.outgoing.length_ackdata), ← Option.isSome_iff_exists,
      List.find?_isSome]
    exact ⟨m, hm, by simp [hstate, hack]⟩
  have hfound := hfind
  unfold State.acknowledgedMessage at hfound
  rw [if_neg (not_not.mpr l.outgoing.length_ackdata)] at hfound
  refine ⟨m', List.mem_of_find?_eq_some hfound, ?_, ?_⟩
  · have hmatch := List.find?_some hfound
    have hsame : m'.ackdata.val = l.outgoing.ackdata := (of_decide_eq_true hmatch).2
    exact Subtype.ext (hsame.trans hack.symm)
  · unfold State.handleMsg
    rw [hheader]
    dsimp only
    rw [hdata, hfind]

end Notbit.Keyring
