import Notbit.Proto.Layout

/-!
# Overreads — which bytes the parsers look at (`ntb-proto.c`)

`ntb_proto_get_var_int` looks at the tag before it checks that there is one.  Everything else is
checked first, so a parser reads the byte behind its input exactly when the fields that it accepts
end where a var_int would begin.
-/

open Bytes Traced Traced.Parser

namespace Notbit.Proto

/-- The parsers that are called from elsewhere. -/
inductive EntryPoint where
  | varInt | timestamp | varStr | varIntList
  | command (args : List Argument)
  | decryptedMsg
  | pubkey (decrypted : Bool)

variable {mem : Memory} {p len : Nat}

/-- No byte outside `[p, p + len)` is read when the parser is given `len` bytes at `p`. -/
def EntryPoint.StaysInside (mem : Memory) (p len : Nat) : EntryPoint → Prop
  | .varInt => (getVarInt { pos := p, len }).ReadsInside p (p + len) mem
  | .timestamp => (getTimestamp { pos := p, len }).ReadsInside p (p + len) mem
  | .varStr => (getVarStr { pos := p, len }).ReadsInside p (p + len) mem
  | .varIntList => (getVarIntList { pos := p, len }).ReadsInside p (p + len) mem
  | .command args => (getCommand p len args).ReadsInside p (p + len) mem
  | .decryptedMsg => (getDecryptedMsg p len).ReadsInside p (p + len) mem
  | .pubkey decrypted => (getPubkey decrypted p len).ReadsInside p (p + len) mem

/-- The fields up to some var_int take the input to its last byte. -/
def EntryPoint.EndsAtVarInt (mem : Memory) (p len : Nat) : EntryPoint → Prop
  | .varInt | .varStr => len = 0
  | .timestamp => False
  | .varIntList => varIntListFormat.EndsAtTag varIntTagging mem { pos := p, len }
  | .command args => (commandFormat args).EndsAtTag varIntTagging mem { pos := p, len }
  | .decryptedMsg => decryptedMsgFormat.EndsAtTag varIntTagging mem { pos := p, len }
  | .pubkey decrypted => (pubkeyFormat decrypted).EndsAtTag varIntTagging mem { pos := p, len }

theorem endsAtTag_varIntFormat (c : Cursor) :
    varIntFormat.EndsAtTag varIntTagging mem c ↔ c.len = 0 := by
  simp only [varIntFormat, Format.EndsAtTag, and_false, or_false]

theorem endsAtTag_varStrFormat (c : Cursor) :
    varStrFormat.EndsAtTag varIntTagging mem c ↔ c.len = 0 := by
  rw [varStrFormat, Format.endsAtTag_bind, endsAtTag_varIntFormat]
  simp [Format.EndsAtTag]

theorem endsAtTag_timestampFormat (c : Cursor) :
    ¬ timestampFormat.EndsAtTag varIntTagging mem c := by
  have hnumber : ∀ n c, ¬ (numberFormat n).EndsAtTag varIntTagging mem c := by
    intro n c
    simp [numberFormat, Format.EndsAtTag]
  rw [timestampFormat, Format.endsAtTag_bind]
  rintro (hfirst | ⟨⟨t, c'⟩, -, hsecond⟩)
  · exact hnumber 4 c hfirst
  · dsimp only at hsecond
    split_ifs at hsecond
    · exact hnumber 4 c' hsecond
    · exact hsecond

/-- A byte behind the input is read exactly when the input ends where a var_int is looked for. -/
theorem staysInside_iff (hlen : len < 2 ^ 32) (e : EntryPoint) :
    e.StaysInside mem p len ↔ ¬ e.EndsAtVarInt mem p len := by
  cases e with
  | varInt =>
    have hreads := (follows_getVarInt { pos := p, len }).reads mem p (le_refl p)
    rwa [endsAtTag_varIntFormat] at hreads
  | timestamp =>
    have hreads := (follows_getTimestamp (c := { pos := p, len }) hlen).reads mem p (le_refl p)
    rw [iff_true_right (endsAtTag_timestampFormat _)] at hreads
    exact iff_of_true hreads not_false
  | varStr =>
    have hreads := (follows_getVarStr (c := { pos := p, len }) hlen).reads mem p (le_refl p)
    rwa [endsAtTag_varStrFormat] at hreads
  | varIntList => exact (follows_getVarIntList { pos := p, len }).reads mem p (le_refl p)
  | command args =>
    exact (follows_getCommand args (c := { pos := p, len }) hlen).reads mem p (le_refl p)
  | decryptedMsg => exact (follows_getDecryptedMsg hlen).reads mem p (le_refl p)
  | pubkey decrypted => exact (follows_getPubkey decrypted hlen).reads mem p (le_refl p)

theorem staysInside_iff_sample :
    (EntryPoint.command [.u8, .varInt]).StaysInside (ofList [7, 1]) 0 2 ↔
      ¬ (EntryPoint.command [.u8, .varInt]).EndsAtVarInt (ofList [7, 1]) 0 2 :=
  staysInside_iff (by decide) _

-- With nothing left, the tag is the byte behind the input.
theorem exists_overread :
    ¬ ∀ (mem : Memory) (p len : Nat) (e : EntryPoint), len < 2 ^ 32 → e.StaysInside mem p len := by
  intro h
  have hinside := h (ofList []) 0 0 .varInt (by decide) 0 (List.mem_singleton_self _)
  omega

end Notbit.Proto
