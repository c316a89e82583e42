import Notbit.Keyring.State
import Notbit.Lib.Runs
import Notbit.Pow.Target

/-!
# Events — the life of an outgoing message (`ntb-keyring.c`)

One function for each function of the source, and `step`, which dispatches what can happen: mail to
send, an object of the network, the completion of a task, the two timers, and the end of the program
with a restart from the records it saved.  `none` stands for a crash.
-/

open Bytes Traced Notbit.Proto

namespace Notbit.Keyring

variable {ssl : OpenSSL}

namespace State

/-! ## 1. Messages -/

/-- The reference to the entry that is being tried is given up. -/
def unrefTrying (s : State ssl) (m : Message ssl) : State ssl :=
  match m.tryingPubkeyBlob with
  | some p => s.unrefPubkeyBlob p
  | none => s

/-- `cancel_message_tasks` -/
def cancelMessageTasks (s : State ssl) (m : Message ssl) : State ssl × Message ssl :=
  let s := ((s.cancel m.cryptoCookie).cancel m.powCookie).cancel m.storeCookie
  let s := s.unrefTrying m
  let m := { m with
    cryptoCookie := none, powCookie := none, storeCookie := none, blob := none
    tryingPubkeyBlob := none }
  (s.setMessage m, m)

/-- `free_message` -/
def freeMessage (s : State ssl) (m : Message ssl) : State ssl :=
  let s := (s.cancelMessageTasks m).1
  { s with messages := s.messages.filter (·.id ≠ m.id) }

/-- `maybe_delete_message_content` -/
def maybeDeleteMessageContent (s : State ssl) (contentId : Nat) : State ssl :=
  if s.messages.any (·.contentId = contentId) then s else s.emit [.deleteMessageContent contentId]

/-- `post_message` -/
def postMessage (env : Env ssl) (s : State ssl) (m : Message ssl) : State ssl :=
  if env.now - m.lastMsgSendTime < maxAgeForType .msg then
    s.setMessage { m with state := .awaitingAcknowledgement }
  else
    let (cookie, s) := s.request (.loadContent m.id m.contentId)
    s.setMessage { m with state := .loadingContent, storeCookie := some cookie }

/-- The getpubkey object behind its nonce. -/
def getpubkeyFields (ssl : OpenSSL) (time : Int) (address : Address) : Buffer :=
  add64 (toUInt64 time) ++ addVarInt address.version ++ addVarInt address.stream ++
    if address.version < 4 then address.ripe else address.tag ssl

/-- `send_getpubkey_request` -/
def sendGetpubkeyRequest (env : Env ssl) (s : State ssl) (m : Message ssl) : State ssl :=
  if env.now - m.lastGetpubkeySendTime < maxAgeForType .getpubkey then
    s.setMessage { m with state := .awaitingPubkey }
  else
    let time := env.now + env.jitter m.id
    let fields := getpubkeyFields ssl time m.toAddress
    let (cookie, s) := s.request (.getpubkeyPow m.id fields)
    s.setMessage { m with
      lastGetpubkeySendTime := time
      -- the nonce is not known yet
      blob := some { type := .getpubkey, data := window env.fill env.header.length 8 ++ fields }
      state := .calculatingGetpubkeyPow
      powCookie := some cookie
      getpubkeyInterrupted := false }

/-- `try_blob_for_message` -/
def tryBlobForMessage (s : State ssl) (m : Message ssl) (blob : Blob) : State ssl :=
  let (cookie, s) := s.request (.checkPubkey m.id m.toAddress blob)
  s.setMessage { m with state := .tryingBlob, cryptoCookie := some cookie }

/-- `load_pubkey_from_store` -/
def loadPubkeyFromStore (s : State ssl) (m : Message ssl) (hash : Hash) : State ssl :=
  let (cookie, s) := s.request (.loadPubkey m.id hash)
  s.setMessage { m with state := .loadingPubkeyFromStore, storeCookie := some cookie }

/-- The first lines of `try_pubkey_blob_for_message`: the entry is referenced. -/
def setTrying (s : State ssl) (m : Message ssl) (p : Nat) : State ssl × Message ssl :=
  let s := s.unrefTrying m
  let entry := s.pubkeyBlobs p
  let s := { s with
    pubkeyBlobs := Function.update s.pubkeyBlobs p { entry with refCount := entry.refCount + 1 } }
  let m := { m with tryingPubkeyBlob := some p }
  (s.setMessage m, m)

/-- `try_pubkey_blob_for_message`: `none` when the object is nowhere. -/
def tryPubkeyBlobForMessage (env : Env ssl) (s : State ssl) (m : Message ssl) (p : Nat) :
    Option (State ssl) :=
  let (s, m) := s.setTrying m p
  match env.locate (s.pubkeyBlobs p).hash with
  | .nowhere => none
  | .store => some (s.loadPubkeyFromStore m (s.pubkeyBlobs p).hash)
  | .memory blob => some (s.tryBlobForMessage m blob)

/-- The loop of `load_public_key_for_message` over a group of entries. -/
def tryGroup (env : Env ssl) : List Nat → State ssl → Message ssl → State ssl
  | [], s, m => s.sendGetpubkeyRequest env m
  | p :: ps, s, m =>
    match s.tryPubkeyBlobForMessage env m p with
    | some s' => s'
    | none =>
      let (s, m) := s.setTrying m p
      tryGroup env ps s m

/-- The entries that `load_public_key_for_message` goes through: from the one the table has to the
end of its group. -/
def pubkeyGroup (s : State ssl) (ripeOrTag : Hash) : List Nat :=
  match s.pubkeyBlobTable.get s.ripeOrTagOf ripeOrTag with
  | none => []
  | some start =>
    (s.pubkeyBlobList.dropWhile (· ≠ start)).takeWhile (s.ripeOrTagOf · = ripeOrTag)

/-- `load_public_key_for_message` -/
def loadPublicKeyForMessage (env : Env ssl) (s : State ssl) (m : Message ssl) : State ssl :=
  tryGroup env (s.pubkeyGroup m.ripeOrTag) s m

/-- The end of `generate_ackdata_cb` and of `for_each_outgoing_cb`. -/
def loadOrPost (env : Env ssl) (s : State ssl) (m : Message ssl) : State ssl :=
  match m.toKey with
  | none => s.loadPublicKeyForMessage env m
  | some _ => s.postMessage env m

/-- `remove_pubkey_blob` -/
def removePubkeyBlob (s : State ssl) (p : Nat) : State ssl :=
  if (s.pubkeyBlobs p).inList then
    let prev := (s.pubkeyBlobList.takeWhile (· ≠ p)).getLast?
    let next := (s.pubkeyBlobList.dropWhile (· ≠ p)).tail.head?
    let inGroup := fun neighbour : Option Nat =>
      neighbour.any fun q => s.ripeOrTagOf q = s.ripeOrTagOf p
    let table :=
      -- the first of its group hands the table on to the next one
      if inGroup prev then s.pubkeyBlobTable
      else match next with
        | some q =>
          if inGroup next then (s.pubkeyBlobTable.set s.ripeOrTagOf q).2
          else (s.pubkeyBlobTable.remove p (s.ripeOrTagOf p)).2
        | none => (s.pubkeyBlobTable.remove p (s.ripeOrTagOf p)).2
    let s := { s with
      pubkeyBlobList := s.pubkeyBlobList.erase p
      pubkeyBlobTable := table
      pubkeyBlobs := Function.update s.pubkeyBlobs p { s.pubkeyBlobs p with inList := false } }
    s.unrefPubkeyBlob p
  else s

/-! ## 2. Keys -/

/-- `get_private_key_for_address` -/
def getPrivateKeyForAddress (s : State ssl) (address : Address) : Option (Key ssl) :=
  s.keys.findSome? fun
    | .own key => if key.address.equal address then some key else none
    | .other _ => none

/-- `get_any_key_for_address` -/
def getAnyKeyForAddress (s : State ssl) (address : Address) : Option (PublicKey ssl) :=
  (s.keys.find? (·.address.equal address)).map (·.publicKey)

/-- `save_keyring` -/
def saveKeyring (s : State ssl) : State ssl := s.emit [.saveKeys s.keys]

/-- `add_public_key` -/
def addPublicKey (s : State ssl) (key : PublicKey ssl) : State ssl :=
  if s.keys.any (key.address.equal ·.address) then s
  else { s with keys := s.keys ++ [KeyringKey.other key] }.saveKeyring

/-- `maybe_post_key` -/
def maybePostKey (env : Env ssl) (s : State ssl) (i : Nat) (key : Key ssl) : State ssl :=
  if env.now - key.lastPubkeySendTime < maxAgeForType .pubkey then s
  else
    -- `rand` is drawn once here, as for a message
    let key := { key with lastPubkeySendTime := env.now + env.jitter i }
    let s := { s with keys := s.keys.set i (KeyringKey.own key) }.saveKeyring
    (s.request (.createPubkeyBlob key)).2

/-- `handle_getpubkey_with_ripe` and `handle_getpubkey_with_tag`: only the first key that fits is
looked at. -/
def handleGetpubkeyWith (env : Env ssl) (s : State ssl) (version stream : Nat)
    (fits : Key ssl → Bool) : State ssl :=
  let fitting := s.keys.findIdx? fun
    | .own key => fits key
    | .other _ => false
  match fitting with
  | none => s
  | some i => match s.keys[i]? with
    | some (.own key) =>
      if key.address.version ≠ version ∨ key.address.stream ≠ stream then s
      else s.maybePostKey env i key
    | _ => s

/-- `handle_getpubkey` -/
def handleGetpubkey (env : Env ssl) (s : State ssl) (blob : Blob) : State ssl :=
  match (getCommand 0 (blob.data.length % 2 ^ 32) pubkeyHeader).value (ofList blob.data) with
  | .ok ([.num _, .num _, .num version, .num stream], headerLength) =>
    let rest := blob.data.drop headerLength
    if version < 2 ∨ version > 4 then s
    else if version < 4 then
      if rest.length < 20 then s
      else s.handleGetpubkeyWith env version stream (·.address.ripe = rest.take 20)
    else
      if rest.length < 32 then s
      else s.handleGetpubkeyWith env version stream (·.address.tag ssl = rest.take 32)
  | _ => s

/-! ## 3. Objects of the network -/

/-- A ripe or tag, filled up to the length of a hash. -/
def hashOfBytes (bytes : List UInt8) : Hash := ⟨fitTo 32 bytes, length_fitTo 32 bytes⟩

/-- The field `ripe_or_tag` of a message. -/
def ripeOrTagOfAddress (ssl : OpenSSL) (address : Address) : Hash :=
  hashOfBytes (if address.version < 4 then address.ripe else address.tag ssl)

/-- One round of the loop in `check_pubkey_blob_with_messages`.  The result of
`try_pubkey_blob_for_message` is not looked at. -/
def checkPubkeyBlobWithMessage (env : Env ssl) (p : Nat) (s : State ssl) (id : Nat) : State ssl :=
  match s.findMessage id with
  | none => s
  | some m =>
    if (m.state = .calculatingGetpubkeyPow ∨ m.state = .awaitingPubkey) ∧
        m.ripeOrTag = s.ripeOrTagOf p then
      let m := { m with
        getpubkeyInterrupted := m.getpubkeyInterrupted || m.state == .calculatingGetpubkeyPow }
      let (s, m) := s.cancelMessageTasks m
      match s.tryPubkeyBlobForMessage env m p with
      | some s' => s'
      | none => (s.setTrying m p).1
    else s

/-- `check_pubkey_blob_with_messages` -/
def checkPubkeyBlobWithMessages (env : Env ssl) (s : State ssl) (p : Nat) : State ssl :=
  (s.messages.map (·.id)).foldl (checkPubkeyBlobWithMessage env p) s

/-- The entry that `handle_pubkey` makes of an object. -/
def pubkeyEntry (ssl : OpenSSL) (blob : Blob) : Option PubkeyEntry :=
  let mem := ofList blob.data
  match (getPubkey false 0 (blob.data.length % 2 ^ 32)).value mem with
  | .error _ => none
  | .ok pubkey =>
    let ripeOrTag := match pubkey.encryptedData with
      | some _ => window mem pubkey.tag 32
      | none => (addressFromNetworkKeys ssl pubkey.version pubkey.stream
          (window mem pubkey.publicSigningKey 64) (window mem pubkey.publicEncryptionKey 64)).ripe
    some { timestamp := pubkey.timestamp, ripeOrTag := hashOfBytes ripeOrTag
           hash := doubleHash ssl blob.data, refCount := 1, inList := true }

/-- The part of `handle_pubkey` that enters an object into the list and the table: the new entry
becomes the first of a new group or the second of the one that is there. -/
def insertPubkeyBlob (s : State ssl) (entry : PubkeyEntry) : Nat × State ssl :=
  let p := s.nextPubkeyBlob
  let s := { s with
    pubkeyBlobs := Function.update s.pubkeyBlobs p entry, nextPubkeyBlob := p + 1 }
  match s.pubkeyBlobTable.get s.ripeOrTagOf entry.ripeOrTag with
  | none => (p, { s with
      pubkeyBlobList := p :: s.pubkeyBlobList
      pubkeyBlobTable := (s.pubkeyBlobTable.set s.ripeOrTagOf p).2 })
  | some q => (p, { s with
      pubkeyBlobList := s.pubkeyBlobList.takeWhile (· ≠ q) ++ q :: p ::
        (s.pubkeyBlobList.dropWhile (· ≠ q)).tail })

/-- `handle_pubkey` -/
def handlePubkey (env : Env ssl) (s : State ssl) (blob : Blob) : State ssl :=
  match pubkeyEntry ssl blob with
  | none => s
  | some entry =>
    let (p, s) := s.insertPubkeyBlob entry
    s.checkPubkeyBlobWithMessages env p

/-- `message_acknowledged` -/
def messageAcknowledged (s : State ssl) (m : Message ssl) : State ssl :=
  ((s.freeMessage m).maybeDeleteMessageContent m.contentId).saveMessages

/-- The search of `check_msg_acknowledgement`. -/
def acknowledgedMessage (s : State ssl) (content : List UInt8) : Option (Message ssl) :=
  if content.length ≠ ackdataSize then none
  else s.messages.find? fun m => m.state ≠ .generatingAckdata ∧ m.ackdata.val = content

/-- `handle_msg` -/
def handleMsg (s : State ssl) (blob : Blob) : State ssl :=
  match (getCommand 0 (blob.data.length % 2 ^ 32) msgHeader).value (ofList blob.data) with
  | .ok ([.num _, .num timestamp, .num _], headerLength) =>
    match s.acknowledgedMessage (blob.data.drop headerLength) with
    | some m => s.messageAcknowledged m
    | none => (s.request (.decryptMsg timestamp blob s.keys)).2
  | _ => s

/-- `new_object_cb` -/
def newObjectCb (env : Env ssl) (s : State ssl) (blob : Blob) : State ssl :=
  match blob.type with
  | .getpubkey => s.handleGetpubkey env blob
  | .pubkey => s.handlePubkey env blob
  | .msg => s.handleMsg blob
  | .broadcast => s

/-- What the network does with an object: a new one comes back at once. -/
def announce (env : Env ssl) (s : State ssl) (blob : Blob) : State ssl :=
  if env.announces blob then s.newObjectCb env blob else s

/-- `ntb_network_add_blob` -/
def addBlob (env : Env ssl) (s : State ssl) (message : Option (Message ssl)) (blob : Blob) :
    State ssl :=
  (s.emit [.addBlob message blob]).announce env blob

/-- `ntb_proto_get_command_name_for_type`, as the 12 bytes of a command. -/
def commandNameForType : InvType → List UInt8
  | .getpubkey => commandField [0x67, 0x65, 0x74, 0x70, 0x75, 0x62, 0x6b, 0x65, 0x79]
  | .pubkey => commandField [0x70, 0x75, 0x62, 0x6b, 0x65, 0x79]
  | .msg => commandField [0x6d, 0x73, 0x67]
  | .broadcast => commandField [0x62, 0x72, 0x6f, 0x61, 0x64, 0x63, 0x61, 0x73, 0x74]

/-- `send_acknowledgement` -/
def sendAcknowledgement (env : Env ssl) (s : State ssl) (ack : List UInt8) : State ssl :=
  let name := (ack.drop 4).take 12
  if ack.length < headerSize ∨ !checkCommandString name then s
  else
    match [InvType.getpubkey, .pubkey, .msg, .broadcast].find? (commandNameForType · = name) with
    | none => s
    | some type =>
      let blob : Blob := { type, data := ack.drop headerSize }
      (s.emit [.addObjectFromData blob]).announce env blob

/-- `add_public_key_from_network_keys` -/
def addPublicKeyFromNetworkKeys (s : State ssl) (address : Address)
    (signingKey encryptionKey : List UInt8) (nonceTrialsPerByte extraBytes : Nat) : State ssl :=
  if s.keys.any (address.equal ·.address) then s
  else (s.request
    (.createPublicKey address signingKey encryptionKey nonceTrialsPerByte extraBytes)).2

/-- `decrypt_msg_cb` with the key that could decrypt the message. -/
def decryptMsgCb (env : Env ssl) (s : State ssl) (timestamp : Int) (key : KeyringKey ssl)
    (plaintext : List UInt8) : State ssl :=
  let mem := ofList plaintext
  match (getDecryptedMsg 0 (plaintext.length % 2 ^ 32)).value mem with
  | .error _ => s
  | .ok msg =>
    if msg.senderStreamNumber > 255 ∨ msg.senderAddressVersion > 255 then s
    else if key.address.ripe ≠ window mem msg.destinationRipe 20 then s
    else
      let signingKey := window mem msg.senderSigningKey 64
      let encryptionKey := window mem msg.senderEncryptionKey 64
      let sender := addressFromNetworkKeys ssl msg.senderAddressVersion msg.senderStreamNumber
        signingKey encryptionKey
      let s := s.addPublicKeyFromNetworkKeys sender signingKey encryptionKey
        msg.nonceTrialsPerByte msg.extraBytes
      let s := s.sendAcknowledgement env (window mem msg.ack msg.ackLength)
      s.emit [.saveMessage timestamp sender key plaintext]

/-! ## 4. The callbacks of a message -/

/-- `generate_ackdata_cb` -/
def generateAckdataCb (env : Env ssl) (s : State ssl) (m : Message ssl)
    (ackdata : { bytes : List UInt8 // bytes.length = ackdataSize }) : State ssl :=
  let m := { m with ackdata, cryptoCookie := none }
  ((s.setMessage m).loadOrPost env m).saveMessages

/-- The pubkey that is being tried is given up: `remove_pubkey_blob` and a new start. -/
def abandonPubkey (env : Env ssl) (s : State ssl) (m : Message ssl) : Option (State ssl) := do
  let p ← m.tryingPubkeyBlob
  return (s.removePubkeyBlob p).loadPublicKeyForMessage env m

/-- `check_pubkey_cb` -/
def checkPubkeyCb (env : Env ssl) (s : State ssl) (m : Message ssl)
    (key : Option (PublicKey ssl)) : Option (State ssl) :=
  let m := { m with cryptoCookie := none }
  let s := s.setMessage m
  match key with
  | none => s.abandonPubkey env m
  | some key => some ((s.addPublicKey key).postMessage env { m with toKey := some key })

/-- `load_pubkey_from_store_cb` -/
def loadPubkeyFromStoreCb (env : Env ssl) (s : State ssl) (m : Message ssl) (blob : Option Blob) :
    Option (State ssl) :=
  let m := { m with storeCookie := none }
  let s := s.setMessage m
  match blob with
  | none => s.abandonPubkey env m
  | some blob => some (s.tryBlobForMessage m blob)

/-- `getpubkey_pow_cb` -/
def getpubkeyPowCb (env : Env ssl) (s : State ssl) (m : Message ssl) (nonce : Nat) :
    Option (State ssl) := do
  let m := { m with powCookie := none }
  let blob ← m.blob
  let s := (s.setMessage m).addBlob env (some m) { blob with data := patch blob.data 0 (toBE 8 nonce) }
  -- the message is written to again, so it has to be there still
  let _ ← s.findMessage m.id
  return (s.setMessage { m with blob := none, state := .awaitingPubkey }).saveMessages

/-- `load_message_content_cb` -/
def loadMessageContentCb (env : Env ssl) (s : State ssl) (m : Message ssl)
    (content : Option (List UInt8)) : Option (State ssl) :=
  let m := { m with storeCookie := none }
  let s := s.setMessage m
  match content with
  | none => some (s.freeMessage m).saveMessages
  | some content => do
    let built ← loadMessageContent env.fill env.header
      { fromKey := m.fromKey, toAddress := m.toAddress, contentEncoding := m.contentEncoding
        content, ackdata := m.ackdata.val, length_ackdata := m.ackdata.property
        ackTime := env.now + env.jitter m.id }
    let payload := (built.data.drop (built.ackdataOffset + headerSize + 8)).take
      (built.ackdataLength - headerSize - 8)
    let (cookie, s) := s.request (.ackdataPow m.id payload)
    return s.setMessage { m with
      blob := some { type := .msg, data := built.data }
      blobAckdataOffset := built.ackdataOffset
      blobAckdataLength := built.ackdataLength
      state := .calculatingAckdataPow
      powCookie := some cookie }

/-- `ackdata_pow_cb`; the name `ackdataPowCb` is that of its work on the bytes. -/
def ackdataPowDone (env : Env ssl) (s : State ssl) (m : Message ssl) (nonce : Nat) :
    Option (State ssl) := do
  let m := { m with powCookie := none }
  let blob ← m.blob
  let toKey ← m.toKey
  let built := ackdataPowCb ssl nonce
    { data := blob.data, ackdataOffset := m.blobAckdataOffset
      ackdataLength := m.blobAckdataLength }
  let time := env.now + env.jitter m.id
  let (cookie, s) := s.request (.createMsgBlob m.id time m.fromKey toKey built.data)
  return s.setMessage { m with
    blob := some { blob with data := built.data }
    lastMsgSendTime := time
    state := .createMsgBlob
    cryptoCookie := some cookie }

/-- The object of `handle_create_msg_blob` behind its nonce. -/
def msgFields (env : Env ssl) (timestamp : Int) (fromKey : Key ssl) (toKey : PublicKey ssl)
    (content : List UInt8) : Buffer :=
  let begun := Ecc.encryptWithPointBegin ssl env.ephemeral env.iv toKey.encryptionKey
  let fed := Ecc.encryptUpdate ssl (Ecc.encryptUpdate ssl begun content)
    (appendSignature ssl fromKey.signingKey content)
  add64 (toUInt64 timestamp) ++ addVarInt toKey.address.stream ++ Ecc.encryptEnd ssl fed

/-- `create_msg_blob_cb` -/
def createMsgBlobCb (s : State ssl) (m : Message ssl) (blob : Blob) : Option (State ssl) := do
  let toKey ← m.toKey
  let difficulty := Pow.Difficulty.forKey toKey.payloadLengthExtraBytes toKey.nonceTrialsPerByte
  let (cookie, s) := s.request (.msgPow m.id (blob.data.drop 8) difficulty.extraBytes
    difficulty.trialsPerByte)
  return s.setMessage { m with
    cryptoCookie := none
    blob := some blob
    state := .calculatingMsgPow
    powCookie := some cookie }

/-- `msg_pow_cb` -/
def msgPowCb (env : Env ssl) (s : State ssl) (m : Message ssl) (nonce : Nat) :
    Option (State ssl) := do
  let m := { m with powCookie := none }
  let blob ← m.blob
  let s := (s.setMessage m).addBlob env (some m) { blob with data := patch blob.data 0 (toBE 8 nonce) }
  let _ ← s.findMessage m.id
  return (s.setMessage { m with blob := none, state := .awaitingAcknowledgement }).saveMessages

/-! ## 5. Timers, new mail and loading -/

/-- `gc_timeout_cb` -/
def gcTimeoutCb (s : State ssl) (now : Int) : State ssl :=
  s.pubkeyBlobList.foldl (fun s p =>
    if now - (s.pubkeyBlobs p).timestamp ≥ maxAgeForType .pubkey then s.removePubkeyBlob p else s) s

/-- `resend_timeout_cb`, one message. -/
def resendMessage (env : Env ssl) (s : State ssl) (id : Nat) : State ssl :=
  match s.findMessage id with
  | none => s
  | some m => match m.state with
    | .awaitingPubkey => s.sendGetpubkeyRequest env m
    | .awaitingAcknowledgement => s.postMessage env m
    | _ => s

/-- `resend_timeout_cb` -/
def resendTimeoutCb (env : Env ssl) (s : State ssl) : State ssl :=
  (s.messages.map (·.id)).foldl (resendMessage env) s

/-- `create_message`; the state is set by the callers. -/
def createMessage (s : State ssl) (fromKey : Key ssl) (toAddress : Address)
    (contentEncoding : CInt) (contentId : Nat)
    (ackdata : { bytes : List UInt8 // bytes.length = ackdataSize }) :
    Message ssl × State ssl :=
  let m : Message ssl :=
    { id := s.nextMessage, state := .generatingAckdata, fromKey, toAddress
      ripeOrTag := ripeOrTagOfAddress ssl toAddress
      toKey := s.getAnyKeyForAddress toAddress
      contentId, contentEncoding, ackdata }
  (m, { s with messages := s.messages ++ [m], nextMessage := s.nextMessage + 1 })

/-- The loop of `ntb_keyring_send_message`, one recipient.  The ackdata is not set yet. -/
def sendTo (fromKey : Key ssl) (contentEncoding : CInt) (contentId : Nat)
    (uninitialised : { bytes : List UInt8 // bytes.length = ackdataSize }) (s : State ssl)
    (toAddress : Address) : State ssl :=
  let (m, s) := s.createMessage fromKey toAddress contentEncoding contentId uninitialised
  let (cookie, s) := s.request (.generateAckdata m.id)
  s.setMessage { m with cryptoCookie := some cookie }

/-- `ntb_keyring_send_message`; nothing happens without a private key or a recipient. -/
def sendMessage (s : State ssl) (fromAddress : Address) (toAddresses : List Address)
    (contentEncoding : CInt) (content : List UInt8)
    (uninitialised : { bytes : List UInt8 // bytes.length = ackdataSize }) : State ssl :=
  match s.getPrivateKeyForAddress fromAddress with
  | none => s
  | some fromKey =>
    if toAddresses = [] then s
    else
      let contentId := s.nextMessageContentId
      let s := { s with nextMessageContentId := contentId + 1 }.emit
        [.saveMessageContent contentId content]
      toAddresses.foldl (sendTo fromKey contentEncoding contentId uninitialised) s

/-- The message that `for_each_outgoing_cb` makes of a record. -/
def createLoaded (s : State ssl) (fromKey : Key ssl) (record : Record) :
    Message ssl × State ssl :=
  let (m, s) := s.createMessage fromKey record.toAddress record.contentEncoding record.contentId
    record.ackdata
  let m := { m with
    lastGetpubkeySendTime := record.lastGetpubkeySendTime
    lastMsgSendTime := record.lastMsgSendTime }
  (m, (s.setMessage m).emit [.loadedOutgoing m.id record])

/-- `for_each_outgoing_cb` -/
def forEachOutgoingCb (env : Env ssl) (s : State ssl) (record : Record) : State ssl :=
  let s := if record.contentId ≥ s.nextMessageContentId then
      { s with nextMessageContentId := record.contentId + 1 }
    else s
  match s.getPrivateKeyForAddress record.fromAddress with
  | none => s
  | some fromKey =>
    let (m, s) := s.createLoaded fromKey record
    s.loadOrPost env m

/-- The end of the program at any moment and a new start: `ntb_keyring_new` and
`ntb_keyring_load_store` with the keys, the pubkey objects and the outgoing records found in the
store.  What was in memory is lost; the numbers of messages and tasks go on so that they stay
different. -/
def restart (env : Env ssl) (s : State ssl) (keys : List (KeyringKey ssl)) (pubkeys : List Blob)
    (records : List Record) : State ssl :=
  let s : State ssl :=
    { keys, nextTask := s.nextTask, nextMessage := s.nextMessage, log := s.log }
  let s := pubkeys.foldl (handlePubkey env) s
  records.foldl (forEachOutgoingCb env) s

end State

/-! ## 6. Runs -/

/-- What a task can call back with.  What the crypto thread computes from the request is computed
here too. -/
inductive Result (ssl : OpenSSL) where
  | ackdata (bytes : { bytes : List UInt8 // bytes.length = ackdataSize })
  | checked
  | created
  | nonce (nonce : Nat)
  | blob (blob : Option Blob)
  | content (content : Option (List UInt8))
  | decrypted (result : Option (KeyringKey ssl × List UInt8))

/-- Everything that can happen. -/
inductive Event (ssl : OpenSSL) where
  | sendMessage (fromAddress : Address) (toAddresses : List Address) (contentEncoding : CInt)
      (content : List UInt8) (uninitialised : { bytes : List UInt8 // bytes.length = ackdataSize })
  | newObject (env : Env ssl) (blob : Blob)
  | complete (env : Env ssl) (task : Nat) (result : Result ssl)
  | resend (env : Env ssl)
  | gc (now : Int)
  | addKey (key : KeyringKey ssl)
  | save
  | restart (env : Env ssl) (keys : List (KeyringKey ssl)) (pubkeys : List Blob) (save : Nat)

/-- The key `ntb_crypto_check_pubkey` calls back with; `none` on a failed assertion. -/
def checkedKey (env : Env ssl) (address : Address) (blob : Blob) :
    Option (Option (PublicKey ssl)) :=
  match Crypto.checkPubkey ssl (ofList blob.data) env.behind address 0 blob.data.length with
  | .ok key => some (some (.ofChecked key))
  | .error .reject => some none
  | .error .abort => none

/-- The callback of a task that is no longer in flight. -/
def callback (env : Env ssl) (s : State ssl) : Job ssl → Result ssl → Option (State ssl)
  | .generateAckdata id, .ackdata ackdata => do
    let m ← s.findMessage id
    return s.generateAckdataCb env m ackdata
  | .checkPubkey id address blob, .checked => do
    let m ← s.findMessage id
    let key ← checkedKey env address blob
    s.checkPubkeyCb env m key
  | .createMsgBlob id timestamp fromKey toKey content, .created => do
    let m ← s.findMessage id
    s.createMsgBlobCb m
      { type := .msg
        data := window env.fill env.header.length 8 ++
          State.msgFields env timestamp fromKey toKey content }
  | .getpubkeyPow id _, .nonce nonce => do
    let m ← s.findMessage id
    s.getpubkeyPowCb env m nonce
  | .ackdataPow id _, .nonce nonce => do
    let m ← s.findMessage id
    s.ackdataPowDone env m nonce
  | .msgPow id _ _ _, .nonce nonce => do
    let m ← s.findMessage id
    s.msgPowCb env m nonce
  | .loadPubkey id _, .blob blob => do
    let m ← s.findMessage id
    s.loadPubkeyFromStoreCb env m blob
  | .loadContent id _, .content content => do
    let m ← s.findMessage id
    s.loadMessageContentCb env m content
  | .createPubkeyBlob key, .created =>
    some (s.request (.pubkeyPow
      { type := .pubkey, data := (Crypto.createPubkeyBlob env.toEnvironment key).data })).2
  | .pubkeyPow blob, .nonce nonce =>
    some (s.addBlob env none { blob with data := patch blob.data 0 (toBE 8 nonce) })
  | .createPublicKey address signingKey encryptionKey nonceTrialsPerByte extraBytes, .created =>
    match Crypto.pointOfNetworkKey ssl signingKey, Crypto.pointOfNetworkKey ssl encryptionKey with
    | .ok signing, .ok encryption => some (s.addPublicKey
        { address, nonceTrialsPerByte := intOfNat nonceTrialsPerByte
          payloadLengthExtraBytes := intOfNat extraBytes
          signingKey := signing, encryptionKey := encryption })
    | _, _ => none
  | .decryptMsg timestamp _ _, .decrypted result => match result with
    | none => some s
    | some (key, plaintext) => some (s.decryptMsgCb env timestamp key plaintext)
  | _, _ => none

/-- The records of a save that was queued. -/
def savedRecords (s : State ssl) (save : Nat) : Option (List Record) :=
  match s.log[save]? with
  | some (.saveOutgoings messages) => some (messages.map addOutgoing)
  | _ => none

def step (s : State ssl) : Event ssl → Option (State ssl)
  | .sendMessage fromAddress toAddresses contentEncoding content uninitialised =>
    some (s.sendMessage fromAddress toAddresses contentEncoding content uninitialised)
  | .newObject env blob => if env.announces blob then some (s.newObjectCb env blob) else none
  | .complete env task result => do
    let (_, job) ← s.tasks.find? (·.1 = task)
    callback env (s.cancel (some task)) job result
  | .resend env => some (s.resendTimeoutCb env)
  | .gc now => some (s.gcTimeoutCb now)
  | .addKey key => some { s with keys := s.keys ++ [key] }.saveKeyring
  | .save => some s.saveMessages
  | .restart env keys pubkeys save => (savedRecords s save).map (s.restart env keys pubkeys)

/-- `ntb_keyring_new` without saved messages. -/
def State.new (keys : List (KeyringKey ssl)) : State ssl := { keys }

end Notbit.Keyring
