import Notbit.Blob
import Notbit.Crypto.Pubkey
import Notbit.Keyring.Plaintext

/-!
# State — keys, outgoing messages and the tasks that work for them (`ntb-keyring.c`)

A message owns at most one task at a time: a request to the crypto thread, to the proof-of-work
threads or to the store, whose callback takes the message to its next state.  The tasks that were
requested and have neither called back nor been cancelled are in `tasks`; a cookie is the number of
one.
-/

open Bytes Traced Notbit.Proto

namespace Notbit.Keyring

/-! ## 1. Keys -/

/-- What of a `struct ntb_key` is needed to send to it. -/
structure PublicKey (ssl : OpenSSL) where
  address : Address
  nonceTrialsPerByte : CInt
  payloadLengthExtraBytes : CInt
  signingKey : ssl.Point
  encryptionKey : ssl.Point

/-- An entry of `keys`: with its private halves or without. -/
inductive KeyringKey (ssl : OpenSSL) where
  | own (key : Key ssl)
  | other (key : PublicKey ssl)

/-- The conversion of a number of the network to the `int` of a key. -/
def intOfNat (n : Nat) : CInt where
  val := if n % 2 ^ 32 < 2 ^ 31 then (n % 2 ^ 32 : Nat) else (n % 2 ^ 32 : Nat) - 2 ^ 32
  lower := by split <;> omega
  upper := by split <;> omega

variable {ssl : OpenSSL}

def KeyringKey.address : KeyringKey ssl → Address
  | .own key => key.address
  | .other key => key.address

/-- The public half of a key. -/
def KeyringKey.publicKey : KeyringKey ssl → PublicKey ssl
  | .own key =>
    { address := key.address
      nonceTrialsPerByte := key.nonceTrialsPerByte
      payloadLengthExtraBytes := key.payloadLengthExtraBytes
      signingKey := ssl.publicKey key.signingKey
      encryptionKey := ssl.publicKey key.encryptionKey }
  | .other key => key

/-- The key that `handle_check_unencrypted_pubkey` makes of a checked object. -/
def PublicKey.ofChecked (key : Crypto.CheckedKey ssl) : PublicKey ssl where
  address := key.address
  nonceTrialsPerByte := intOfNat key.nonceTrialsPerByte
  payloadLengthExtraBytes := intOfNat key.extraBytes
  signingKey := key.signingKey
  encryptionKey := key.encryptionKey

/-! ## 2. Messages -/

/-- `enum ntb_keyring_message_state` -/
inductive MessageState where
  | generatingAckdata | loadingPubkeyFromStore | tryingBlob | calculatingGetpubkeyPow
  | awaitingPubkey | loadingContent | calculatingAckdataPow | createMsgBlob | calculatingMsgPow
  | awaitingAcknowledgement
  deriving DecidableEq, Repr

/-- `struct ntb_keyring_message`; `id` stands for the pointer to it. -/
structure Message (ssl : OpenSSL) where
  id : Nat
  state : MessageState
  fromKey : Key ssl
  toAddress : Address
  ripeOrTag : Hash
  toKey : Option (PublicKey ssl)
  contentId : Nat
  contentEncoding : CInt
  ackdata : { bytes : List UInt8 // bytes.length = ackdataSize }
  cryptoCookie : Option Nat := none
  powCookie : Option Nat := none
  storeCookie : Option Nat := none
  blob : Option Blob := none
  blobAckdataOffset : Nat := 0
  blobAckdataLength : Nat := 0
  lastGetpubkeySendTime : Int := 0
  lastMsgSendTime : Int := 0
  tryingPubkeyBlob : Option Nat := none
  /-- Not in the program: the proof of work of the getpubkey request with the current send time was
  cancelled. -/
  getpubkeyInterrupted : Bool := false

/-- `struct ntb_store_outgoing` -/
structure Record where
  fromAddress : Address
  toAddress : Address
  ackdata : { bytes : List UInt8 // bytes.length = ackdataSize }
  contentId : Nat
  contentEncoding : CInt
  lastGetpubkeySendTime : Int
  lastMsgSendTime : Int

/-- `add_outgoing` -/
def addOutgoing (m : Message ssl) : Record where
  fromAddress := m.fromKey.address
  toAddress := m.toAddress
  ackdata := m.ackdata
  contentId := m.contentId
  contentEncoding := m.contentEncoding
  lastGetpubkeySendTime := match m.state with
    | .calculatingGetpubkeyPow => 0
    | _ => m.lastGetpubkeySendTime
  lastMsgSendTime := match m.state with
    | .calculatingAckdataPow | .calculatingMsgPow => 0
    | _ => m.lastMsgSendTime

/-! ## 3. The keyring -/

/-- `struct ntb_keyring_pubkey_blob` -/
structure PubkeyEntry where
  timestamp : Int
  ripeOrTag : Hash
  hash : Hash
  refCount : Int
  inList : Bool

/-- The requests the keyring makes, with the callback that goes with them: those of a message, and
those of a `struct ntb_keyring_task`. -/
inductive Job (ssl : OpenSSL) where
  | generateAckdata (message : Nat)
  | checkPubkey (message : Nat) (address : Address) (blob : Blob)
  | createMsgBlob (message : Nat) (timestamp : Int) (fromKey : Key ssl) (toKey : PublicKey ssl)
      (content : List UInt8)
  | getpubkeyPow (message : Nat) (payload : List UInt8)
  | ackdataPow (message : Nat) (payload : List UInt8)
  | msgPow (message : Nat) (payload : List UInt8) (extraBytes trialsPerByte : Int)
  | loadPubkey (message : Nat) (hash : Hash)
  | loadContent (message : Nat) (contentId : Nat)
  | createPubkeyBlob (key : Key ssl)
  | pubkeyPow (blob : Blob)
  | createPublicKey (address : Address) (signingKey encryptionKey : List UInt8)
      (nonceTrialsPerByte extraBytes : Nat)
  | decryptMsg (timestamp : Int) (blob : Blob) (keys : List (KeyringKey ssl))

/-- The message a request is made for. -/
def Job.message : Job ssl → Option Nat
  | .generateAckdata m | .checkPubkey m _ _ | .createMsgBlob m _ _ _ _ | .getpubkeyPow m _
  | .ackdataPow m _ | .msgPow m _ _ _ | .loadPubkey m _ | .loadContent m _ => some m
  | .createPubkeyBlob _ | .pubkeyPow _ | .createPublicKey _ _ _ _ _ | .decryptMsg _ _ _ => none

/-- The calls the keyring makes to the network and to the store.  A call that is made for a message
has the message with it. -/
inductive Effect (ssl : OpenSSL) where
  | addBlob (message : Option (Message ssl)) (blob : Blob)
  | addObjectFromData (blob : Blob)
  | saveKeys (keys : List (KeyringKey ssl))
  | saveOutgoings (messages : List (Message ssl))
  | saveMessageContent (id : Nat) (content : List UInt8)
  | deleteMessageContent (id : Nat)
  | saveMessage (timestamp : Int) (senderAddress : Address) (key : KeyringKey ssl)
      (plaintext : List UInt8)
  | loadedOutgoing (message : Nat) (record : Record)

/-- `struct ntb_keyring`, with the requests in flight and the calls it has made. -/
structure State (ssl : OpenSSL) where
  keys : List (KeyringKey ssl)
  tasks : List (Nat × Job ssl) := []
  nextTask : Nat := 0
  pubkeyBlobs : Nat → PubkeyEntry := fun _ =>
    { timestamp := 0, ripeOrTag := zeroHash, hash := zeroHash, refCount := 0, inList := false }
  nextPubkeyBlob : Nat := 0
  pubkeyBlobList : List Nat := []
  pubkeyBlobTable : HashTable Nat := HashTable.new
  messages : List (Message ssl) := []
  nextMessage : Nat := 0
  nextMessageContentId : Nat := 0
  log : List (Effect ssl) := []

namespace State

def emit (s : State ssl) (effects : List (Effect ssl)) : State ssl :=
  { s with log := s.log ++ effects }

/-- A request: its cookie, and the keyring that waits for it. -/
def request (s : State ssl) (job : Job ssl) : Nat × State ssl :=
  (s.nextTask, { s with tasks := s.tasks ++ [(s.nextTask, job)], nextTask := s.nextTask + 1 })

/-- `ntb_crypto_cancel_task`, `ntb_pow_cancel` and `ntb_store_cancel_task`. -/
def cancel (s : State ssl) (cookie : Option Nat) : State ssl :=
  { s with tasks := s.tasks.filter fun task => some task.1 ≠ cookie }

def findMessage (s : State ssl) (id : Nat) : Option (Message ssl) := s.messages.find? (·.id = id)

/-- The fields of a message are written. -/
def setMessage (s : State ssl) (m : Message ssl) : State ssl :=
  { s with messages := s.messages.map fun old => if old.id = m.id then m else old }

/-- `unref_pubkey_blob` -/
def unrefPubkeyBlob (s : State ssl) (p : Nat) : State ssl :=
  let entry := s.pubkeyBlobs p
  { s with pubkeyBlobs := Function.update s.pubkeyBlobs p { entry with refCount := entry.refCount - 1 } }

/-- The key under which the table of pubkey objects finds an entry. -/
def ripeOrTagOf (s : State ssl) (p : Nat) : Hash := (s.pubkeyBlobs p).ripeOrTag

/-- `save_messages` -/
def saveMessages (s : State ssl) : State ssl :=
  s.emit [.saveOutgoings (s.messages.filter (·.state ≠ .generatingAckdata))]

end State

/-! ## 4. The environment -/

/-- `enum ntb_network_object_location`, with the blob that is passed back. -/
inductive Location where
  | nowhere
  | store
  | memory (blob : Blob)

/-- What the keyring asks of the rest of the world while it handles one event: the wall clock,
`rand` (for each message), the memory and the random numbers of the crypto thread, whether an object
that is handed to the network is new there and so comes back through `new_object_signal`, and where
the network finds an object.  `add_object` makes the inventory an accepted one before it emits the
signal. -/
structure Env (ssl : OpenSSL) extends Crypto.Environment ssl where
  now : Int
  rand : Nat → Nat
  behind : Memory
  announces : Blob → Bool
  locate : Hash → Location
  announced : ∀ blob, announces blob → blob.type = .pubkey →
    locate (doubleHash ssl blob.data) ≠ .nowhere

/-- `rand () % 600 - 300` -/
def Env.jitter (env : Env ssl) (message : Nat) : Int := (env.rand message % 600 : Nat) - 300

end Notbit.Keyring
