import Notbit.Keyring.Moves

/-!
# Recipients — the keys that messages are encrypted with

Whatever way the key of a recipient comes into the keyring, it has the address of the recipient.  An
object whose stream does not fit a byte is taken for one of the stream that is left of it.
-/

open Bytes Notbit.Proto Notbit.Crypto Runs

namespace Notbit.Keyring

variable {ssl : OpenSSL}

theorem address_eq_of_equal {a b : Address} (h : a.equal b = true) : a = b := by
  obtain ⟨_, _, _, _, _, _⟩ := a
  obtain ⟨_, _, _, _, _, _⟩ := b
  simp only [Address.equal, Bool.and_eq_true, beq_iff_eq] at h
  obtain ⟨⟨rfl, rfl⟩, rfl⟩ := h
  rfl

theorem lettered_run (keys : List (KeyringKey ssl)) (events : List (Event ssl)) :
    Lettered (run step (State.new keys) events) :=
  invariant (fun _ _ _ h hs => h.step hs) (lettered_new keys) events

/-- Every recipient's key has the address of the recipient. -/
def RecipientsMatched (s : State ssl) : Prop :=
  ∀ m ∈ s.messages, ∀ key, m.toKey = some key → key.address = m.toAddress

/-- After any events of the keyring the keys of the recipients have their addresses; and a pubkey
object is delivered as a key only if it is authentic, exactly if it is not one whose stream was cut
down to that of the requested address. -/
theorem recipientKeys_authentic_iff (keys : List (KeyringKey ssl)) (events : List (Event ssl))
    (mem behind : Memory) (expected : Address) (data size : Nat) :
    RecipientsMatched (run step (State.new keys) events) ∧
        DeliversAuthentic ssl mem behind expected data size ↔
      ∀ mem' start len pubkey, Opened ssl mem behind expected data size mem' start len pubkey →
        ¬ StreamCut ssl mem' expected pubkey := by
  rw [deliversAuthentic_iff]
  refine and_iff_right fun m hm key hkey => ?_
  exact address_eq_of_equal ((lettered_run keys events).matched m hm key hkey)

/-- A key of version 2 on stream 1. -/
def streamKey : PrivateKey OpenSSL.additive := sampleKey 2 Address.two_lt

/-- An object of stream 257 with the keys of this key is delivered for its address. -/
theorem streamKey_not_authentic :
    ¬ (RecipientsMatched (run step (State.new ([] : List (KeyringKey OpenSSL.additive))) []) ∧
      DeliversAuthentic OpenSSL.additive (ofList (v2Object streamKey.toKey 257 0)) (fun _ => 0)
        streamKey.address 0 (v2Object streamKey.toKey 257 0).length) := by
  rintro ⟨-, hdelivers⟩
  have hmem := holds_ofList (v2Object streamKey.toKey 257 0)
  have hlimit : (v2Object streamKey.toKey 257 0).length < 2 ^ 31 := by
    have h₁ := length_headerOf_le (toUInt64 streamKey.lastPubkeySendTime) 2 257
    have h₂ := length_keyBytes streamKey.toKey
    simp only [v2Object, List.length_append, add64, length_toBE]
    omega
  have hparse := getPubkey_v2 (by decide) (by norm_num) hmem hlimit
  refine deliversAuthentic_iff.mp hdelivers _ _ _ _ (.clear ?_ rfl)
    (v2Object_streamCut OpenSSL.additive_lawful streamKey (by norm_num) hmem rfl rfl rfl)
  rw [Nat.mod_eq_of_lt (by omega)]
  exact hparse

end Notbit.Keyring
