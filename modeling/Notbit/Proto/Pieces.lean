import Notbit.Proto.Layout

/-!
# Pieces — what an accepted input is cut into (`ntb-proto.c`)

The fields of a command add up to the result of `getCommand`.  The fields of a message or of a
pubkey lie behind each other, and what is signed, the length of the signature and the signature
reach to the end of the input.
-/

open Bytes Traced Traced.Parser

namespace Notbit.Proto

/-! ## 1. The sizes of the fields -/

/-- The bytes that an argument takes at an address. -/
def argumentSize (mem : Memory) (p : Nat) : Argument → Nat
  | .u8 | .bool => 1
  | .u16 => 2
  | .u32 => 4
  | .u64 => 8
  | .varInt => varIntSize mem p
  | .timestamp => if ofBE (window mem p 4) = 0 then 8 else 4
  | .netaddress => 18
  | .varStr => varIntSize mem p + varIntAt mem p
  | .varIntList =>
    varIntSize mem p + varIntsSize mem (varIntAt mem p) (p + varIntSize mem p)

/-- The sizes of arguments that stand one behind the other. -/
def argumentSizes (mem : Memory) : List Argument → Nat → List Nat
  | [], _ => []
  | a :: args, p => argumentSize mem p a :: argumentSizes mem args (p + argumentSize mem p a)

/-- The bytes that a value points to are between `lo` and `hi`. -/
def ArgValue.Inside (mem : Memory) (lo hi : Nat) : ArgValue → Prop
  | .varStr s => lo ≤ s.data ∧ s.data + s.length ≤ hi
  | .varIntList l => lo ≤ l.values ∧ l.values + varIntsSize mem l.nInts l.values ≤ hi
  | .num _ | .bool _ | .netaddress _ => True

theorem ArgValue.Inside.mono {mem : Memory} {lo hi lo' hi' : Nat} {v : ArgValue}
    (h : v.Inside mem lo hi) (hlo : lo' ≤ lo) (hhi : hi ≤ hi') : v.Inside mem lo' hi' := by
  cases v with
  | varStr s => exact ⟨hlo.trans h.1, h.2.trans hhi⟩
  | varIntList l => exact ⟨hlo.trans h.1, h.2.trans hhi⟩
  | _ => trivial

section Sizes

variable {mem : Memory} {c c' : Cursor}

theorem run_varIntFormat {v : Nat} (h : varIntFormat.run varIntTagging mem c = some (v, c')) :
    varIntSize mem c.pos ≤ c.len ∧ v = varIntAt mem c.pos ∧ c' = c.skip (varIntSize mem c.pos) := by
  simp only [varIntFormat, Format.run] at h
  split_ifs at h with hfits
  cases h
  exact ⟨hfits.2, rfl, rfl⟩

theorem run_pointerFormat {n start : Nat}
    (h : (pointerFormat n).run varIntTagging mem c = some (start, c')) :
    n ≤ c.len ∧ start = c.pos ∧ c' = c.skip n := by
  simp only [pointerFormat, Format.run] at h
  split_ifs at h with hfits
  cases h
  exact ⟨hfits, rfl, rfl⟩

theorem run_numberFormat {n v : Nat}
    (h : (numberFormat n).run varIntTagging mem c = some (v, c')) :
    n ≤ c.len ∧ v = ofBE (window mem c.pos n) ∧ c' = c.skip n := by
  simp only [numberFormat, Format.run] at h
  split_ifs at h with hfits
  cases h
  exact ⟨hfits, rfl, rfl⟩

theorem run_timestampFormat {v : Nat}
    (h : timestampFormat.run varIntTagging mem c = some (v, c')) :
    argumentSize mem c.pos .timestamp ≤ c.len ∧
      c' = c.skip (argumentSize mem c.pos .timestamp) := by
  rw [timestampFormat, Format.run_bind, Option.bind_eq_some_iff] at h
  obtain ⟨⟨t, c₁⟩, hfirst, hsecond⟩ := h
  obtain ⟨hfits, rfl, rfl⟩ := run_numberFormat hfirst
  simp only [argumentSize]
  dsimp only at hsecond
  split_ifs at hsecond ⊢ with hzero
  · obtain ⟨hfits', -, rfl⟩ := run_numberFormat hsecond
    rw [Cursor.skip_len] at hfits'
    exact ⟨by omega, Cursor.skip_skip c 4 4⟩
  · cases hsecond
    exact ⟨hfits, rfl⟩

theorem run_skipFormat {n : Nat} {u : Unit}
    (h : (skipFormat n).run varIntTagging mem c = some (u, c')) :
    varIntsSize mem n c.pos ≤ c.len ∧ c' = c.skip (varIntsSize mem n c.pos) := by
  induction n generalizing c with
  | zero =>
    cases h
    exact ⟨Nat.zero_le _, rfl⟩
  | succ n ih =>
    rw [skipFormat, Format.run_bind, Option.bind_eq_some_iff] at h
    obtain ⟨⟨v, c₁⟩, hfirst, hrest⟩ := h
    obtain ⟨hfits, -, rfl⟩ := run_varIntFormat hfirst
    obtain ⟨hfits', rfl⟩ := ih hrest
    simp only [Cursor.skip_pos, Cursor.skip_len] at hfits'
    rw [varIntsSize]
    exact ⟨by omega, Cursor.skip_skip c _ _⟩

/-- An argument takes its size, and what it points to is within that. -/
theorem run_argumentFormat {a : Argument} {v : ArgValue}
    (h : (argumentFormat a).run varIntTagging mem c = some (v, c')) :
    argumentSize mem c.pos a ≤ c.len ∧ c' = c.skip (argumentSize mem c.pos a) ∧
      v.Inside mem c.pos c'.pos := by
  have hparts : ∀ {β : Type} {f : Format β} {g : β → ArgValue},
      (f.bind fun b => .done (g b)).run varIntTagging mem c = some (v, c') →
        ∃ b, f.run varIntTagging mem c = some (b, c') ∧ g b = v := by
    intro β f g hrun
    rw [Format.run_bind, Option.bind_eq_some_iff] at hrun
    obtain ⟨⟨b, c₁⟩, hfirst, hdone⟩ := hrun
    cases hdone
    exact ⟨b, hfirst, rfl⟩
  cases a with
  | u8 | u16 | u32 | u64 | bool =>
    obtain ⟨n, hn, rfl⟩ := hparts h
    obtain ⟨hfits, -, rfl⟩ := run_numberFormat hn
    exact ⟨hfits, rfl, trivial⟩
  | varInt =>
    obtain ⟨n, hn, rfl⟩ := hparts h
    obtain ⟨hfits, -, rfl⟩ := run_varIntFormat hn
    exact ⟨hfits, rfl, trivial⟩
  | timestamp =>
    obtain ⟨n, hn, rfl⟩ := hparts h
    obtain ⟨hfits, rfl⟩ := run_timestampFormat hn
    exact ⟨hfits, rfl, trivial⟩
  | netaddress =>
    obtain ⟨address, haddress, rfl⟩ := hparts h
    simp only [netaddressFormat, Format.run] at haddress
    split_ifs at haddress with hfits
    cases haddress
    exact ⟨hfits, rfl, trivial⟩
  | varStr =>
    obtain ⟨s, hs, rfl⟩ := hparts h
    rw [varStrFormat, Format.run_bind, Option.bind_eq_some_iff] at hs
    obtain ⟨⟨length, c₁⟩, hlength, hdata⟩ := hs
    obtain ⟨hfits, rfl, rfl⟩ := run_varIntFormat hlength
    simp only [Format.run] at hdata
    split_ifs at hdata with hfits'
    cases hdata
    rw [Cursor.skip_len] at hfits'
    simp only [argumentSize, ArgValue.Inside, Cursor.skip_skip, Cursor.skip_pos, true_and]
    omega
  | varIntList =>
    obtain ⟨l, hl, rfl⟩ := hparts h
    rw [varIntListFormat, Format.run_bind, Option.bind_eq_some_iff] at hl
    obtain ⟨⟨nInts, c₁⟩, hn, hvalues⟩ := hl
    obtain ⟨hfits, rfl, rfl⟩ := run_varIntFormat hn
    rw [Format.run_here, Format.run_bind, Option.bind_eq_some_iff] at hvalues
    obtain ⟨⟨u, c₂⟩, hskip, hdone⟩ := hvalues
    obtain ⟨hfits', rfl⟩ := run_skipFormat hskip
    cases hdone
    simp only [Cursor.skip_pos, Cursor.skip_len] at hfits'
    simp only [argumentSize, ArgValue.Inside, Cursor.skip_skip, Cursor.skip_pos, true_and]
    omega

theorem run_commandFormat {args : List Argument} {vs : List ArgValue}
    (h : (commandFormat args).run varIntTagging mem c = some (vs, c')) :
    (argumentSizes mem args c.pos).sum ≤ c.len ∧
      c' = c.skip (argumentSizes mem args c.pos).sum ∧ ∀ v ∈ vs, v.Inside mem c.pos c'.pos := by
  induction args generalizing c vs with
  | nil =>
    cases h
    exact ⟨Nat.zero_le _, rfl, nofun⟩
  | cons a args ih =>
    rw [commandFormat, Format.run_bind, Option.bind_eq_some_iff] at h
    obtain ⟨⟨v, c₁⟩, hfirst, hrest⟩ := h
    obtain ⟨hfits, rfl, hinside⟩ := run_argumentFormat hfirst
    rw [Format.run_bind, Option.bind_eq_some_iff] at hrest
    obtain ⟨⟨vs', c₂⟩, hothers, hdone⟩ := hrest
    cases hdone
    obtain ⟨hfits', rfl, hinside'⟩ := ih hothers
    simp only [Cursor.skip_pos, Cursor.skip_len] at hfits' hinside'
    simp only [argumentSizes, List.sum_cons, Cursor.skip_skip, Cursor.skip_pos]
    refine ⟨by omega, trivial, ?_⟩
    rw [List.forall_mem_cons]
    simp only [Cursor.skip_pos] at hinside
    constructor
    · exact hinside.mono (le_refl _) (by omega)
    · exact fun v' hv' => (hinside' v' hv').mono (by omega) (by omega)

end Sizes

/-! ## 2. The loop over a list of var_ints -/

section Steps

variable {mem : Memory} {c : Cursor}

/-- The passes that the loop makes over `n` var_ints, with the one that fails. -/
def skipSteps (mem : Memory) : Nat → Cursor → Nat
  | 0, _ => 0
  | n + 1, c =>
    match (getVarInt c).value mem with
    | .ok (_, c') => 1 + skipSteps mem n c'
    | .error _ => 1

/-- Every pass but the last takes a byte. -/
theorem skipSteps_le (n : Nat) : skipSteps mem n c ≤ c.len + 1 := by
  induction n generalizing c with
  | zero => exact Nat.zero_le _
  | succ n ih =>
    rw [skipSteps]
    split
    next v c' hv =>
      obtain ⟨-, hshort, m, hm, -, hfits, rfl⟩ := getVarInt_ok hv
      have hrest := ih (c := c.advance 32 m)
      rw [Cursor.advance_of_le hfits (by omega), Cursor.skip_len] at hrest
      rw [Cursor.advance_of_le hfits (by omega)]
      omega
    next => omega

/-- What is announced beyond the last pass changes nothing. -/
theorem skipVarInts_steps (n : Nat) :
    (skipVarInts n c).value mem = (skipVarInts (skipSteps mem n c) c).value mem := by
  induction n generalizing c with
  | zero => rfl
  | succ n ih =>
    rw [skipSteps]
    split
    next v c' hv =>
      rw [Nat.add_comm 1, skipVarInts, skipVarInts, value_bind_of_ok hv, value_bind_of_ok hv]
      exact ih
    next e he =>
      simp only [skipVarInts, value_bind, he, Except.bind]

-- The count of the list takes a byte as well.
theorem skipSteps_le_len {nInts : Nat} {c' : Cursor}
    (h : (getVarInt c).value mem = .ok (nInts, c')) : skipSteps mem nInts c' ≤ c.len := by
  obtain ⟨-, hshort, m, hm, -, hfits, rfl⟩ := getVarInt_ok h
  have hsteps := @skipSteps_le mem (c.advance 32 m) nInts
  rw [Cursor.advance_of_le hfits (by omega), Cursor.skip_len] at hsteps
  rw [Cursor.advance_of_le hfits (by omega)]
  omega

end Steps

/-! ## 3. Messages -/

section Messages

variable {mem : Memory} {p len : Nat}

/-- The fields of a message that stands at `p`, each with its size. -/
def DecryptedMsg.pieces (mem : Memory) (p : Nat) (msg : DecryptedMsg) : List (Nat × Nat) :=
  let difficulty := msg.senderEncryptionKey + 64
  let contentHeader := msg.destinationRipe + 20
  let ackHeader := msg.message + msg.messageLength
  let signedEnd := p + msg.signedDataLength
  [(p, (argumentSizes mem [.varInt, .varInt, .varInt, .u32] p).sum),
    (msg.senderSigningKey, 64),
    (msg.senderEncryptionKey, 64),
    (difficulty, if msg.senderAddressVersion ≥ 3 then
      (argumentSizes mem [.varInt, .varInt] difficulty).sum else 0),
    (msg.destinationRipe, 20),
    (contentHeader, (argumentSizes mem [.varInt, .varInt] contentHeader).sum),
    (msg.message, msg.messageLength),
    (ackHeader, varIntSize mem ackHeader),
    (msg.ack, msg.ackLength),
    (signedEnd, varIntSize mem signedEnd),
    (msg.sig, msg.sigLength)]

/-- What is signed, the length of the signature and the signature. -/
def DecryptedMsg.signedPieces (mem : Memory) (p : Nat) (msg : DecryptedMsg) : List (Nat × Nat) :=
  let signedEnd := p + msg.signedDataLength
  [(p, msg.signedDataLength), (signedEnd, varIntSize mem signedEnd), (msg.sig, msg.sigLength)]

theorem run_difficultyFormat {version : Nat} {difficulty : Nat × Nat} {c c' : Cursor}
    (h : (difficultyFormat version).run varIntTagging mem c = some (difficulty, c')) :
    ∃ n, n = (if version ≥ 3 then (argumentSizes mem [.varInt, .varInt] c.pos).sum else 0) ∧
      n ≤ c.len ∧ c' = c.skip n := by
  refine ⟨_, rfl, ?_⟩
  unfold difficultyFormat at h
  split_ifs at h ⊢
  · rw [Format.run_bind, Option.bind_eq_some_iff] at h
    obtain ⟨⟨vs, c₁⟩, hvs, hrest⟩ := h
    obtain ⟨hfits, rfl, -⟩ := run_commandFormat hvs
    dsimp only at hrest
    split at hrest
    next =>
      cases hrest
      exact ⟨hfits, rfl⟩
    next => cases hrest
  · cases h
    exact ⟨Nat.zero_le _, rfl⟩

/-- The fields of a message up to its signature. -/
theorem run_messageBodyFormat {body : MessageBody} {c c' : Cursor}
    (h : messageBodyFormat.run varIntTagging mem c = some (body, c')) :
    Tiles c.pos [(c.pos, (argumentSizes mem [.varInt, .varInt, .varInt, .u32] c.pos).sum),
      (body.senderSigningKey, 64),
      (body.senderEncryptionKey, 64),
      (body.senderEncryptionKey + 64, if body.senderAddressVersion ≥ 3 then
        (argumentSizes mem [.varInt, .varInt] (body.senderEncryptionKey + 64)).sum else 0),
      (body.destinationRipe, 20),
      (body.destinationRipe + 20,
        (argumentSizes mem [.varInt, .varInt] (body.destinationRipe + 20)).sum),
      (body.message, body.messageLength),
      (body.message + body.messageLength, varIntSize mem (body.message + body.messageLength)),
      (body.ack, body.ackLength)] c'.pos := by
  rw [messageBodyFormat, Format.run_bind, Option.bind_eq_some_iff] at h
  obtain ⟨⟨header, c₁⟩, hheader, h⟩ := h
  obtain ⟨-, rfl, -⟩ := run_commandFormat hheader
  dsimp only at h
  split at h
  next =>
    rw [Format.run_bind, Option.bind_eq_some_iff] at h
    obtain ⟨⟨keys, c₂⟩, hkeys, h⟩ := h
    obtain ⟨-, rfl, rfl⟩ := run_pointerFormat hkeys
    rw [Format.run_bind, Option.bind_eq_some_iff] at h
    obtain ⟨⟨difficulty, c₃⟩, hdifficulty, h⟩ := h
    obtain ⟨n, hn, -, rfl⟩ := run_difficultyFormat hdifficulty
    rw [Format.run_bind, Option.bind_eq_some_iff] at h
    obtain ⟨⟨ripe, c₄⟩, hripe, h⟩ := h
    obtain ⟨-, rfl, rfl⟩ := run_pointerFormat hripe
    rw [Format.run_bind, Option.bind_eq_some_iff] at h
    obtain ⟨⟨content, c₅⟩, hcontent, h⟩ := h
    obtain ⟨-, rfl, -⟩ := run_commandFormat hcontent
    dsimp only at h
    split at h
    next =>
      rw [Format.run_bind, Option.bind_eq_some_iff] at h
      obtain ⟨⟨message, c₆⟩, hmessage, h⟩ := h
      obtain ⟨-, rfl, rfl⟩ := run_pointerFormat hmessage
      rw [Format.run_bind, Option.bind_eq_some_iff] at h
      obtain ⟨⟨ackLength, c₇⟩, hackLength, h⟩ := h
      obtain ⟨-, rfl, rfl⟩ := run_varIntFormat hackLength
      rw [Format.run_bind, Option.bind_eq_some_iff] at h
      obtain ⟨⟨ack, c₈⟩, hack, h⟩ := h
      obtain ⟨-, rfl, rfl⟩ := run_pointerFormat hack
      cases h
      have hboth : ∀ q : Nat, q + 64 * 2 = q + 64 + 64 := fun q => by omega
      simp only [Cursor.skip_pos, hboth] at hn ⊢
      simp only [Tiles, hn, and_self]
    next => cases h
  next => cases h

-- A signature has to end where the input does.
theorem run_rest_end {α : Type} {n : Nat} {g : Nat → α} {a : α} {c c' : Cursor}
    (h : (Format.rest fun start left => if left ≠ n then .fail else .done (g start)).run
      varIntTagging mem c = some (a, c')) : c.len = n ∧ a = g c.pos := by
  simp only [Format.run] at h
  split at h
  next => cases h
  next hend =>
    cases h
    exact ⟨not_not.mp hend, rfl⟩

theorem getDecryptedMsg_pieces {msg : DecryptedMsg} (hlen : len < 2 ^ 32)
    (h : (getDecryptedMsg p len).value mem = .ok msg) :
    Tiles p (msg.pieces mem p) (p + len) ∧ Tiles p (msg.signedPieces mem p) (p + len) := by
  obtain ⟨⟨msg', c'⟩, hrun, rfl⟩ := ((follows_getDecryptedMsg hlen).value mem msg).mp h
  rw [decryptedMsgFormat, Format.run_here, Format.run_bind, Option.bind_eq_some_iff] at hrun
  obtain ⟨⟨body, c₁⟩, hbody, hrun⟩ := hrun
  have hpieces := run_messageBodyFormat hbody
  obtain ⟨hpos, hleft⟩ := Format.run_consumed hbody
  rw [Format.run_here, Format.run_bind, Option.bind_eq_some_iff] at hrun
  obtain ⟨⟨sigLength, c₂⟩, hsigLength, hrun⟩ := hrun
  obtain ⟨hfits, rfl, rfl⟩ := run_varIntFormat hsigLength
  obtain ⟨hend, hmsg⟩ := run_rest_end (g := fun sig =>
    ({ body with signedDataLength := c₁.pos - p, sig
                 sigLength := varIntAt mem c₁.pos } : DecryptedMsg)) hrun
  dsimp only at hpos hleft hpieces hfits hmsg
  simp only [Cursor.skip_len] at hend
  subst hmsg
  have hsigned : p + (c₁.pos - p) = c₁.pos := by omega
  have hsignature : Tiles c₁.pos [(c₁.pos, varIntSize mem c₁.pos),
      (c₁.pos + varIntSize mem c₁.pos, varIntAt mem c₁.pos)] (p + len) := by
    simp only [Tiles, true_and]
    omega
  constructor
  · have hall := hpieces.append hsignature
    simp only [DecryptedMsg.pieces, hsigned]
    exact hall
  · simp only [DecryptedMsg.signedPieces, hsigned]
    exact ⟨rfl, hsigned.symm ▸ hsignature⟩

end Messages

/-! ## 4. Pubkeys -/

section Pubkeys

variable {mem : Memory} {p len : Nat}

/-- The behaviours and the keys. -/
def Pubkey.keyPieces (pubkey : Pubkey) : List (Nat × Nat) :=
  [(pubkey.publicSigningKey - 4, 4), (pubkey.publicSigningKey, 64),
    (pubkey.publicEncryptionKey, 64)]

/-- The difficulty, the length of the signature and the signature. -/
def Pubkey.endPieces (mem : Memory) (signature : Nat) (pubkey : Pubkey) : List (Nat × Nat) :=
  let difficulty := pubkey.publicEncryptionKey + 64
  let signedEnd := pubkey.signedData + pubkey.signedDataLength
  [(difficulty, (argumentSizes mem [.varInt, .varInt] difficulty).sum),
    (signedEnd, varIntSize mem signedEnd), (signature, pubkey.signatureLength)]

/-- The fields of a pubkey that stands at `p`, each with its size. -/
def Pubkey.pieces (mem : Memory) (p : Nat) (pubkey : Pubkey) : List (Nat × Nat) :=
  (p, (argumentSizes mem pubkeyHeader p).sum) ::
    match pubkey.encryptedData, pubkey.signature with
    | some encryptedData, _ => [(pubkey.tag, 32), (encryptedData, pubkey.encryptedDataLength)]
    | none, none => pubkey.keyPieces
    | none, some signature => pubkey.keyPieces ++ pubkey.endPieces mem signature

/-- What is signed, the length of the signature and the signature. -/
def Pubkey.signedPieces (mem : Memory) (signature : Nat) (pubkey : Pubkey) : List (Nat × Nat) :=
  let signedEnd := pubkey.signedData + pubkey.signedDataLength
  [(pubkey.signedData, pubkey.signedDataLength), (signedEnd, varIntSize mem signedEnd),
    (signature, pubkey.signatureLength)]

/-- A pubkey comes without a signature when it is too old for one or still encrypted. -/
def isUnsigned (decrypted : Bool) (version : Nat) : Bool :=
  version == 2 || version == 4 && !decrypted

theorem run_v3PubkeyFormat {pubkey pubkey' : Pubkey} {c c' : Cursor}
    (hsigned : pubkey.signedData ≤ c.pos)
    (h : (v3PubkeyFormat pubkey).run varIntTagging mem c = some (pubkey', c')) :
    ∃ signature, pubkey'.signature = some signature ∧
      pubkey'.encryptedData = pubkey.encryptedData ∧ pubkey'.version = pubkey.version ∧
      Tiles c.pos (pubkey'.keyPieces ++ pubkey'.endPieces mem signature) (c.pos + c.len) ∧
      Tiles pubkey.signedData (pubkey'.signedPieces mem signature) (c.pos + c.len) := by
  rw [v3PubkeyFormat, Format.run_bind, Option.bind_eq_some_iff] at h
  obtain ⟨⟨pubkey₁, c₁⟩, hparts, h⟩ := h
  obtain ⟨hpos, hleft⟩ := Format.run_consumed hparts
  simp only [v3PartsFormat, Format.run] at hparts
  split_ifs at hparts with hfits
  rw [Format.run_bind, Option.bind_eq_some_iff] at hparts
  obtain ⟨⟨difficulty, c₂⟩, hdifficulty, hparts⟩ := hparts
  obtain ⟨hfits₂, rfl, -⟩ := run_commandFormat hdifficulty
  rw [Format.run_here, Format.run_bind, Option.bind_eq_some_iff] at h
  obtain ⟨⟨signatureLength, c₃⟩, hlength, h⟩ := h
  obtain ⟨hfits₃, rfl, rfl⟩ := run_varIntFormat hlength
  obtain ⟨hend, hpubkey⟩ := run_rest_end (g := fun signature =>
    { pubkey₁ with
      signedDataLength := c₁.pos - pubkey₁.signedData
      signatureLength := varIntAt mem c₁.pos
      signature := some signature }) h
  dsimp only at hparts hfits₃
  split at hparts
  next =>
    cases hparts
    subst hpubkey
    have hsize : 4 + 64 * 2 = 132 := rfl
    have hends : c.pos + 4 + 64 + 64 = c.pos + 132 := by omega
    have hsignedEnd : ∀ n, pubkey.signedData + (c.pos + 132 + n - pubkey.signedData) =
        c.pos + 132 + n := fun n => by omega
    simp only [Cursor.skip_pos, Cursor.skip_len, hsize] at hfits hfits₂ hfits₃ hend
    refine ⟨_, rfl, rfl, rfl, ?_, ?_⟩
    · simp only [Pubkey.keyPieces, Pubkey.endPieces, Pubkey.withKeys, List.cons_append,
        List.nil_append, Tiles, Cursor.skip_pos, hsize, hends, hsignedEnd, true_and]
      omega
    · simp only [Pubkey.signedPieces, Pubkey.withKeys, Tiles, Cursor.skip_pos, hsize, hsignedEnd,
        true_and]
      omega
  next => cases hparts

/-- The parts of a pubkey are tiled up to the end of the input, except behind a version 2 pubkey. -/
theorem getPubkey_pieces {decrypted : Bool} {pubkey : Pubkey} (hlen : len < 2 ^ 32)
    (h : (getPubkey decrypted p len).value mem = .ok pubkey) :
    (∃ hi ≤ p + len, Tiles p (pubkey.pieces mem p) hi ∧ (pubkey.version ≠ 2 → hi = p + len)) ∧
      (pubkey.signature = none ↔ isUnsigned decrypted pubkey.version = true) ∧
      ∀ signature, pubkey.signature = some signature →
        Tiles (p + 8) (pubkey.signedPieces mem signature) (p + len) := by
  obtain ⟨⟨pubkey', c'⟩, hrun, rfl⟩ := ((follows_getPubkey decrypted hlen).value mem pubkey).mp h
  rw [pubkeyFormat, Format.run_here, Format.run_bind, Option.bind_eq_some_iff] at hrun
  obtain ⟨⟨header, c₁⟩, hheader, hrun⟩ := hrun
  obtain ⟨hpos, hleft⟩ := Format.run_consumed hheader
  obtain ⟨hfits, hc₁, -⟩ := run_commandFormat hheader
  have hstart : c₁.pos = p + (argumentSizes mem pubkeyHeader p).sum := by
    rw [hc₁, Cursor.skip_pos]
  have hnonce : 8 ≤ (argumentSizes mem pubkeyHeader p).sum := by
    simp only [pubkeyHeader, argumentSizes, argumentSize, List.sum_cons]
    omega
  clear hc₁ hheader
  dsimp only at hrun hpos hleft
  split at hrun
  next nonce timestamp version stream =>
    split_ifs at hrun with hversion2 hencrypted hversion3
    · simp only [v2PartsFormat, Format.run] at hrun
      split_ifs at hrun with hfits'
      cases hrun
      refine ⟨⟨c₁.pos + 132, by omega, ?_, fun hne => absurd hversion2 hne⟩, ?_,
        by simp [Pubkey.withKeys]⟩
      · refine ⟨rfl, ?_⟩
        simp only [Pubkey.withKeys, Pubkey.keyPieces, Tiles, and_true, hstart]
        omega
      · simp [Pubkey.withKeys, isUnsigned, hversion2]
    · rw [v4PubkeyFormat, Format.run_bind, Option.bind_eq_some_iff] at hrun
      obtain ⟨⟨tag, c₂⟩, htag, hrun⟩ := hrun
      obtain ⟨hfits', rfl, rfl⟩ := run_pointerFormat htag
      cases hrun
      refine ⟨⟨p + len, le_refl _, ?_, fun _ => rfl⟩, ?_, by simp⟩
      · refine ⟨rfl, ?_⟩
        simp only [Tiles, Cursor.skip_pos, Cursor.skip_len, hstart, true_and]
        omega
      · simp [isUnsigned, hencrypted]
    · obtain ⟨signature, hsignature, hnone, hversion, htiles, hsigned⟩ :=
        run_v3PubkeyFormat (by simp only; omega) hrun
      simp only at hnone hversion hsigned
      refine ⟨⟨p + len, le_refl _, ?_, fun _ => rfl⟩, ?_, ?_⟩
      · rw [Pubkey.pieces, hnone, hsignature, ← hleft]
        exact ⟨rfl, hstart ▸ htiles⟩
      · have hnot : isUnsigned decrypted version = false := by
          unfold isUnsigned
          simp only [Bool.or_eq_false_iff, beq_eq_false_iff_ne, Bool.and_eq_false_iff]
          grind
        simp [hsignature, hversion, hnot]
      · intro signature' hsome
        rw [hsignature, Option.some.injEq] at hsome
        rw [← hsome, ← hleft]
        exact hsigned
    · cases hrun
  next => cases hrun

end Pubkeys

/-! ## 5. Everything that is accepted -/

section Accepted

variable {mem : Memory} {p len : Nat}

theorem getCommand_pieces {args : List Argument} {vs : List ArgValue} {n : Nat}
    (hlen : len < 2 ^ 32) (h : (getCommand p len args).value mem = .ok (vs, n)) :
    n = (argumentSizes mem args p).sum ∧ n ≤ len ∧ ∀ v ∈ vs, v.Inside mem p (p + n) := by
  obtain ⟨⟨vs', c'⟩, hrun, hout⟩ :=
    ((follows_getCommand args (c := { pos := p, len }) hlen).value mem (vs, n)).mp h
  obtain ⟨hfits, rfl, hinside⟩ := run_commandFormat hrun
  simp only [Cursor.skip_pos, Nat.add_sub_cancel_left, Prod.mk.injEq] at hout
  obtain ⟨rfl, rfl⟩ := hout
  exact ⟨rfl, hfits, hinside⟩

/-- The pieces lie in `[lo, hi)`, do not overlap and follow each other without a gap. -/
def Consecutive (lo hi : Nat) (pieces : List (Nat × Nat)) : Prop :=
  (∀ piece ∈ pieces, lo ≤ piece.1 ∧ piece.1 + piece.2 ≤ hi) ∧
    pieces.Pairwise (fun first second => first.1 + first.2 ≤ second.1) ∧ Tiles lo pieces hi

theorem consecutive_of_tiles {lo hi : Nat} {pieces : List (Nat × Nat)} (h : Tiles lo pieces hi) :
    Consecutive lo hi pieces :=
  ⟨h.within, h.disjoint, h⟩

/-- The loop over the list that begins at the cursor makes at most `steps` passes, whatever is
announced, and these decide its result. -/
def StopsWithin (mem : Memory) (c : Cursor) (steps : Nat) : Prop :=
  ∀ nInts c', (getVarInt c).value mem = .ok (nInts, c') →
    skipSteps mem nInts c' ≤ steps ∧
      (skipVarInts nInts c').value mem = (skipVarInts (skipSteps mem nInts c') c').value mem

/-- The result of a command is the sum of its fields, whose ranges are inside; a list ends with the
input; and the fields of messages and pubkeys follow each other, the signed part, the length of the
signature and the signature up to the end. -/
theorem accepted_pieces (hlen : len < 2 ^ 31) :
    (∀ args vs n, (getCommand p len args).value mem = .ok (vs, n) →
      n = (argumentSizes mem args p).sum ∧ n ≤ len ∧ ∀ v ∈ vs, v.Inside mem p (p + n)) ∧
    (∀ args vs c, (getArguments args { pos := p, len }).value mem = .ok (vs, c) →
      StopsWithin mem c len) ∧
    (∀ msg, (getDecryptedMsg p len).value mem = .ok msg →
      Consecutive p (p + len) (msg.pieces mem p) ∧
        Consecutive p (p + len) (msg.signedPieces mem p)) ∧
    ∀ decrypted pubkey, (getPubkey decrypted p len).value mem = .ok pubkey →
      (∃ hi ≤ p + len, Consecutive p hi (pubkey.pieces mem p) ∧
        (pubkey.version ≠ 2 → hi = p + len)) ∧
      (pubkey.signature = none ↔ isUnsigned decrypted pubkey.version = true) ∧
      ∀ signature, pubkey.signature = some signature →
        Consecutive (p + 8) (p + len) (pubkey.signedPieces mem signature) := by
  have hroom : len < 2 ^ 32 := by omega
  refine ⟨fun args vs n h => getCommand_pieces hroom h, ?_, ?_, ?_⟩
  · intro args vs c hargs nInts c' hn
    have hconsumed := (getArguments_consumed hroom hargs).len_le
    exact ⟨(skipSteps_le_len hn).trans hconsumed, skipVarInts_steps nInts⟩
  · intro msg hmsg
    obtain ⟨hpieces, hsigned⟩ := getDecryptedMsg_pieces hroom hmsg
    exact ⟨consecutive_of_tiles hpieces, consecutive_of_tiles hsigned⟩
  · intro decrypted pubkey hpubkey
    obtain ⟨⟨hi, hhi, hpieces, hend⟩, hunsigned, hsigned⟩ := getPubkey_pieces hroom hpubkey
    exact ⟨⟨hi, hhi, consecutive_of_tiles hpieces, hend⟩, hunsigned,
      fun signature h => consecutive_of_tiles (hsigned signature h)⟩

-- A byte, a string of one byte, and two bytes that nobody asked for.
theorem accepted_pieces_sample :
    3 = (argumentSizes (ofList [7, 1, 65, 0, 0]) [.u8, .varStr] 0).sum ∧ 3 ≤ 5 ∧
      ∀ v ∈ [ArgValue.num 7, .varStr { length := 1, data := 2 }],
        v.Inside (ofList [7, 1, 65, 0, 0]) 0 (0 + 3) :=
  (@accepted_pieces _ 0 5 (by decide)).1 [.u8, .varStr] _ 3 rfl

end Accepted

end Notbit.Proto
