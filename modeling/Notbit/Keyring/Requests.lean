import Notbit.Keyring.Reachable

/-!
# Requests — whether the getpubkey request that a message counts on was sent

`send_getpubkey_request` notes the send time before the proof of work is done.  A pubkey that
arrives meanwhile cancels the work, and when it turns out to be none for the message, the time makes
the request look sent.
-/

open Bytes Traced Notbit.Proto

namespace Notbit.Keyring

variable {ssl : OpenSSL}

/-- Every message that waits for a pubkey, with a send time at which `send_getpubkey_request` would
not send again, waits for the answer to an object that was handed to the network, or was loaded with
that time.  In the first hours of 1970 a time of zero would be recent too. -/
def RequestsSent (s : State ssl) : Prop :=
  ∀ m ∈ s.messages, m.state = .awaitingPubkey →
    ∀ now, maxAgeForType .getpubkey ≤ now →
      now - m.lastGetpubkeySendTime < maxAgeForType .getpubkey →
        GetpubkeySent s.log m.lastGetpubkeySendTime m.toAddress ∨ GetpubkeyTimeLoaded s.log m

theorem Inv.requestsSent {s : State ssl} (h : Inv True True s none) : RequestsSent s := by
  intro m hm hstate now hnow hrecent
  have htimes := h.times m hm nofun
  rcases htimes.getpubkey (by rw [hstate]; decide) with hinterrupted | hzero | hsent | ⟨-, hloaded⟩
  · rw [htimes.waiting trivial hstate] at hinterrupted
    cases hinterrupted
  · rw [hzero] at hrecent
    omega
  · exact .inl hsent
  · exact .inr hloaded

/-- In every run in which no pubkey fails its check while its message counts on an interrupted
request, the requests were sent. -/
theorem requests_sent (keys : List (KeyringKey ssl)) (events : List (Event ssl))
    (hlost : Runs.Along step NoRequestLost (State.new keys) events) :
    RequestsSent (Runs.run step (State.new keys) events) := by
  apply Inv.requestsSent
  exact Runs.invariant_along (P := fun s => Inv True True s none)
    (fun s e s' hs hok he => hs.step (fun _ => hok) (fun hloads => absurd trivial hloads) he)
    hlost (inv_new keys)

/-! ## 1. A run that loses a request -/

/-- An address of which nothing is known. -/
def strangerAddress : Address :=
  ⟨4, 1, List.replicate 20 9, Address.four_lt, Address.one_lt, List.length_replicate⟩

/-- A pubkey object with the tag of that address and nothing behind it. -/
def emptyPubkey : Blob where
  type := .pubkey
  data := List.replicate 8 0 ++ add64 1400000000 ++ [4, 1] ++ strangerAddress.tag .additive

/-- A moment at which the network has the object in memory. -/
def sampleEnv : Env .additive where
  toEnvironment := Crypto.sampleEnvironment
  now := 1400000000
  rand _ := 300
  behind _ := 0
  announces _ := true
  locate _ := .memory emptyPubkey
  announced _ _ _ := nofun

def sampleKeys : List (KeyringKey .additive) := [.own (Crypto.sampleKey 4 Address.four_lt).toKey]

def sampleAckdata : { bytes : List UInt8 // bytes.length = ackdataSize } :=
  ⟨List.replicate 32 7, rfl⟩

/-- Mail for the stranger, up to the proof of work for the getpubkey request. -/
def askingForPubkey : List (Event .additive) :=
  [.sendMessage (Crypto.sampleKey 4 Address.four_lt).address [strangerAddress]
      CInt.one [] sampleAckdata,
    .complete sampleEnv 0 (.ackdata sampleAckdata)]

def lostRequest : List (Event .additive) :=
  askingForPubkey ++ [.newObject sampleEnv emptyPubkey, .complete sampleEnv 2 .checked]

/-- The calls that account for a send time. -/
def Effect.sends : Effect ssl → Bool
  | .addBlob _ _ | .loadedOutgoing _ _ => true
  | _ => false

/-- The pubkey fails its check, and the message waits for the answer to a request whose proof of
work was cancelled. -/
theorem lostRequest_not_sent :
    ¬ RequestsSent (Runs.run step (State.new sampleKeys) lostRequest) := by
  have hlog : (Runs.run step (State.new sampleKeys) lostRequest).log.all (!·.sends) = true := by
    decide +kernel
  have hwaiting : (Runs.run step (State.new sampleKeys) lostRequest).messages.any (fun m =>
      m.state = .awaitingPubkey ∧ m.lastGetpubkeySendTime = 1400000000) = true := by
    decide +kernel
  intro hall
  obtain ⟨m, hm, hfields⟩ := List.any_eq_true.mp hwaiting
  obtain ⟨hstate, htime⟩ := of_decide_eq_true hfields
  rcases hall m hm hstate 1400000000 (by decide) (by rw [htime]; decide) with
    ⟨message, nonce, hsent⟩ | ⟨record, hloaded, -⟩
  · simpa [Effect.sends] using List.all_eq_true.mp hlog _ hsent
  · simpa [Effect.sends] using List.all_eq_true.mp hlog _ hloaded

theorem noRequestLost_of_going {s : State ssl} (h : s.messages.all (!·.getpubkeyInterrupted) = true)
    (e : Event ssl) : NoRequestLost s e := by
  rintro env t result - job - - m hm - ⟨hinterrupted, -⟩
  have hgoing := List.all_eq_true.mp h m hm
  rw [hinterrupted] at hgoing
  cases hgoing

/-- The same pubkey comes when the request is already out. -/
def sentRequest : List (Event .additive) :=
  askingForPubkey ++ [.complete sampleEnv 1 (.nonce 0), .newObject sampleEnv emptyPubkey,
    .complete sampleEnv 2 .checked]

theorem sentRequest_sent : RequestsSent (Runs.run step (State.new sampleKeys) sentRequest) :=
  requests_sent sampleKeys sentRequest
    ⟨fun _ => noRequestLost_of_going (by decide +kernel) _,
      fun _ => noRequestLost_of_going (by decide +kernel) _,
      fun _ => noRequestLost_of_going (by decide +kernel) _,
      fun _ => noRequestLost_of_going (by decide +kernel) _,
      fun _ => noRequestLost_of_going (by decide +kernel) _, trivial⟩

end Notbit.Keyring
