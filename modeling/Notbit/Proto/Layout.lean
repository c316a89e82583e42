import Notbit.Lib.Formats
import Notbit.Proto.Objects

/-!
# Layout — the fields of commands, messages and pubkeys over the bytes (`ntb-proto.c`)

Each parser follows a format, so what it accepts is exactly an input that the fields of that format
lie in one after the other.
-/

open Bytes Traced Traced.Parser

namespace Notbit.Proto

/-! ## 1. The formats -/

/-- A var_int: the tag says how many bytes follow it. -/
def varIntTagging : Tagging where
  width tag :=
    if tag.toNat < 0xfd then 1 else if tag.toNat = 0xfd then 3 else if tag.toNat = 0xfe then 5
    else 9
  value bytes := if bytes.length = 1 then ofBE bytes else ofBE bytes.tail
  limit := 2 ^ 31

/-- The bytes that the var_int at an address takes. -/
def varIntSize (mem : Memory) (p : Nat) : Nat := varIntTagging.width (mem p)

def varIntAt (mem : Memory) (p : Nat) : Nat := varIntTagging.valueAt mem p

/-- The bytes of the `n` var_ints that stand at an address. -/
def varIntsSize (mem : Memory) : Nat → Nat → Nat
  | 0, _ => 0
  | n + 1, p => varIntSize mem p + varIntsSize mem n (p + varIntSize mem p)

def numberFormat (n : Nat) : Format Nat := .take n fun _ bytes => .done (ofBE bytes)

def varIntFormat : Format Nat := .tagged .done

def timestampFormat : Format Nat :=
  (numberFormat 4).bind fun t => if t = 0 then numberFormat 4 else .done t

def varStrFormat : Format VarStr :=
  varIntFormat.bind fun length => .take length fun data _ => .done { length, data }

def skipFormat : Nat → Format Unit
  | 0 => .done ()
  | n + 1 => varIntFormat.bind fun _ => skipFormat n

def varIntListFormat : Format VarIntList :=
  varIntFormat.bind fun nInts => .take 0 fun values _ =>
    (skipFormat nInts).bind fun _ => .done { nInts, values }

def netaddressFormat : Format Netaddress :=
  .take 18 fun _ bytes => .done { host := bytes.take 16, port := ofBE (bytes.drop 16) }

def argumentFormat : Argument → Format ArgValue
  | .u8 => (numberFormat 1).bind fun v => .done (.num v)
  | .u16 => (numberFormat 2).bind fun v => .done (.num v)
  | .u32 => (numberFormat 4).bind fun v => .done (.num v)
  | .u64 => (numberFormat 8).bind fun v => .done (.num v)
  | .bool => (numberFormat 1).bind fun v => .done (.bool (v != 0))
  | .varInt => varIntFormat.bind fun v => .done (.num v)
  | .timestamp => timestampFormat.bind fun v => .done (.num v)
  | .netaddress => netaddressFormat.bind fun a => .done (.netaddress a)
  | .varStr => varStrFormat.bind fun s => .done (.varStr s)
  | .varIntList => varIntListFormat.bind fun l => .done (.varIntList l)

def commandFormat : List Argument → Format (List ArgValue)
  | [] => .done []
  | a :: args => (argumentFormat a).bind fun v => (commandFormat args).bind fun vs => .done (v :: vs)

/-- The next `n` bytes, of which only the address is kept. -/
def pointerFormat (n : Nat) : Format Nat := .take n fun start _ => .done start

def difficultyFormat (senderAddressVersion : Nat) : Format (Nat × Nat) :=
  if senderAddressVersion ≥ 3 then
    (commandFormat [.varInt, .varInt]).bind fun vs =>
      match vs with
      | [.num nonceTrialsPerByte, .num extraBytes] => .done (nonceTrialsPerByte, extraBytes)
      | _ => .fail
  else .done (minNonceTrialsPerByte, minExtraBytes)

def messageBodyFormat : Format MessageBody :=
  (commandFormat [.varInt, .varInt, .varInt, .u32]).bind fun header =>
    match header with
    | [.num messageVersion, .num senderAddressVersion, .num senderStreamNumber,
        .num senderBehaviors] =>
      (pointerFormat (64 * 2)).bind fun keys =>
      (difficultyFormat senderAddressVersion).bind fun difficulty =>
      (pointerFormat 20).bind fun destinationRipe =>
      (commandFormat [.varInt, .varInt]).bind fun content =>
        match content with
        | [.num encoding, .num messageLength] =>
          (pointerFormat messageLength).bind fun message =>
          varIntFormat.bind fun ackLength =>
          (pointerFormat ackLength).bind fun ack =>
            .done { messageVersion, senderAddressVersion, senderStreamNumber, senderBehaviors
                    senderSigningKey := keys
                    senderEncryptionKey := keys + 64
                    nonceTrialsPerByte := difficulty.1
                    extraBytes := difficulty.2
                    destinationRipe, encoding, message, messageLength, ack, ackLength }
        | _ => .fail
    | _ => .fail

/-- A message, and a signature that ends where the input does. -/
def decryptedMsgFormat : Format DecryptedMsg :=
  .take 0 fun data _ => messageBodyFormat.bind fun body =>
  .take 0 fun signedEnd _ => varIntFormat.bind fun sigLength =>
  .rest fun sig left =>
    if left ≠ sigLength then .fail
    else .done { body with signedDataLength := signedEnd - data, sig, sigLength }

def v2PartsFormat (pubkey : Pubkey) : Format Pubkey :=
  .take (64 * 2 + 4) fun parts bytes =>
    .done { pubkey.withKeys (ofBE (bytes.take 4)) parts with
      nonceTrialsPerByte := minNonceTrialsPerByte, extraBytes := minExtraBytes }

def v3PartsFormat (pubkey : Pubkey) : Format Pubkey :=
  .take (4 + 64 * 2) fun parts bytes =>
    (commandFormat [.varInt, .varInt]).bind fun difficulty =>
      match difficulty with
      | [.num nonceTrialsPerByte, .num extraBytes] =>
        .done { pubkey.withKeys (ofBE (bytes.take 4)) parts with nonceTrialsPerByte, extraBytes }
      | _ => .fail

def v3PubkeyFormat (pubkey : Pubkey) : Format Pubkey :=
  (v3PartsFormat pubkey).bind fun pubkey =>
  .take 0 fun signedEnd _ => varIntFormat.bind fun signatureLength =>
  .rest fun signature left =>
    if left ≠ signatureLength then .fail
    else .done { pubkey with
      signedDataLength := signedEnd - pubkey.signedData, signatureLength
      signature := some signature }

def v4PubkeyFormat (pubkey : Pubkey) : Format Pubkey :=
  (pointerFormat 32).bind fun tag => .rest fun encryptedData left =>
    .done { pubkey with tag, encryptedData := some encryptedData, encryptedDataLength := left }

def pubkeyFormat (decrypted : Bool) : Format Pubkey :=
  .take 0 fun dataStart _ => (commandFormat pubkeyHeader).bind fun header =>
    match header with
    | [.num nonce, .num timestamp, .num version, .num stream] =>
      let pubkey : Pubkey := { nonce, timestamp, version, stream }
      if version = 2 then v2PartsFormat pubkey
      else if version = 4 ∧ ¬ decrypted then v4PubkeyFormat pubkey
      else if version = 4 ∨ version = 3 then
        v3PubkeyFormat { pubkey with signedData := dataStart + 8 }
      else .fail
    | _ => .fail

/-! ## 2. The parsers follow them -/

section Fields

variable {α : Type} {c : Cursor}

theorem readsInside_pure {lo hi : Nat} {mem : Memory} (a : α) :
    (pure a : Parser α).ReadsInside lo hi mem := by
  simp [ReadsInside]

-- A field of a fixed size is read only when it fits.
theorem readsInside_sizedField {lo hi n : Nat} {get : Parser α} {mem : Memory}
    (hreads : n ≤ c.len → get.ReadsInside lo hi mem) :
    (sizedField c n get).ReadsInside lo hi mem := by
  unfold sizedField
  split
  next => simp [ReadsInside]
  next hn =>
    rw [readsInside_bind_iff]
    exact ⟨hreads (by omega), fun v _ => by simp [ReadsInside, mem_log_bind]⟩

theorem follows_sizedField {n : Nat} {get : Parser α} {g : Nat → List UInt8 → α}
    (hc : c.len < 2 ^ 32) (hvalue : ∀ mem, get.value mem = .ok (g c.pos (window mem c.pos n)))
    (hreads : ∀ mem lo hi, lo ≤ c.pos → c.pos + n ≤ hi → get.ReadsInside lo hi mem) :
    Format.Follows varIntTagging c (sizedField c n get)
      (.take n fun start bytes => .done (g start bytes)) id where
  value mem b := by
    unfold sizedField
    by_cases hn : n ≤ c.len
    · rw [if_neg (by omega), value_bind_of_ok (hvalue mem), value_bind_of_ok (value_moveTo _ _),
        Cursor.advance_of_le hn hc]
      simp [Format.run, hn]
    · rw [if_pos (by omega)]
      simp [Format.run, hn]
  reads mem lo hlo := by
    simp only [Format.EndsAtTag, and_false, not_false_iff, iff_true]
    exact readsInside_sizedField fun hn => hreads mem lo _ hlo (by omega)

theorem readsInside_ofBE {lo hi p n : Nat} {mem : Memory} (hlo : lo ≤ p) (hhi : p + n ≤ hi) :
    (readBytes p n >>= fun bs => pure (ofBE bs) : Parser Nat).ReadsInside lo hi mem := by
  rw [readsInside_bind_iff]
  exact ⟨(readsInside_readBytes p n).mpr (Or.inr ⟨hlo, hhi⟩), fun _ _ => readsInside_pure _⟩

theorem window_one (mem : Memory) (p : Nat) : window mem p 1 = [mem p] := rfl

theorem readsInside_get8 {lo hi p : Nat} {mem : Memory} (hlo : lo ≤ p) (hhi : p + 1 ≤ hi) :
    (get8 p).ReadsInside lo hi mem := by
  rw [get8, readsInside_bind_iff]
  refine ⟨?_, fun _ _ => readsInside_pure _⟩
  intro addr haddr
  cases List.mem_singleton.mp haddr
  omega

theorem get8_value (mem : Memory) (p : Nat) : (get8 p).value mem = .ok (ofBE (window mem p 1)) := by
  rw [get8, value_bind_of_ok (value_readByte _ _), value_pure, window_one]
  simp [ofBE]

theorem follows_get8 (hc : c.len < 2 ^ 32) :
    Format.Follows varIntTagging c (sizedField c 1 (get8 c.pos)) (numberFormat 1) id :=
  follows_sizedField (g := fun _ bytes => ofBE bytes) hc (fun mem => get8_value mem c.pos)
    fun _ _ _ => readsInside_get8

theorem follows_get16 (hc : c.len < 2 ^ 32) :
    Format.Follows varIntTagging c (sizedField c 2 (get16 c.pos)) (numberFormat 2) id :=
  follows_sizedField (g := fun _ bytes => ofBE bytes) hc (fun _ => get16_value c.pos)
    fun _ _ _ => readsInside_ofBE

theorem follows_get32 (hc : c.len < 2 ^ 32) :
    Format.Follows varIntTagging c (sizedField c 4 (get32 c.pos)) (numberFormat 4) id :=
  follows_sizedField (g := fun _ bytes => ofBE bytes) hc (fun _ => get32_value c.pos)
    fun _ _ _ => readsInside_ofBE

theorem follows_get64 (hc : c.len < 2 ^ 32) :
    Format.Follows varIntTagging c (sizedField c 8 (get64 c.pos)) (numberFormat 8) id :=
  follows_sizedField (g := fun _ bytes => ofBE bytes) hc (fun _ => get64_value c.pos)
    fun _ _ _ => readsInside_ofBE

/-- What is read of a var_int once its tag is known. -/
def getBehindTag (tag : UInt8) (p : Nat) : Parser Nat :=
  if tag.toNat < 0xfd then get8 p
  else if tag.toNat = 0xfd then get16 (p + 1)
  else if tag.toNat = 0xfe then get32 (p + 1)
  else get64 (p + 1)

theorem getVarInt_eq (hc : c.len < 2 ^ 31) :
    getVarInt c = readByte c.pos >>= fun tag =>
      sizedField c (varIntTagging.width tag) (getBehindTag tag c.pos) := by
  rw [getVarInt, if_neg (by omega)]
  congr 1
  funext tag
  simp only [varIntTagging, getBehindTag]
  split_ifs <;> rfl

theorem window_tail (mem : Memory) (p n : Nat) :
    (window mem p (n + 1)).tail = window mem (p + 1) n := by
  rw [window_succ, List.tail_cons]

-- A var_int of more than one byte is the number behind its tag.
theorem varIntAt_wide {mem : Memory} {p n : Nat} (hn : n ≠ 0) (hwidth : varIntSize mem p = n + 1) :
    varIntAt mem p = ofBE (window mem (p + 1) n) := by
  have hlength : (window mem p (n + 1)).length ≠ 1 := by
    rw [length_window]
    omega
  rw [varIntAt, Tagging.valueAt, show varIntTagging.width (mem p) = n + 1 from hwidth]
  simp only [varIntTagging]
  rw [if_neg hlength, window_tail]

theorem getBehindTag_value (mem : Memory) (p : Nat) :
    (getBehindTag (mem p) p).value mem = .ok (varIntAt mem p) := by
  unfold getBehindTag
  split_ifs with hbyte h16 h32
  · have hwidth : varIntTagging.width (mem p) = 1 := if_pos hbyte
    rw [get8_value, varIntAt, Tagging.valueAt, hwidth]
    rfl
  · rw [get16_value, varIntAt_wide (n := 2) (by omega) (by simp [varIntSize, varIntTagging, h16])]
  · rw [get32_value, varIntAt_wide (n := 4) (by omega) (by simp [varIntSize, varIntTagging, h32])]
  · rw [get64_value, varIntAt_wide (n := 8) (by omega)
      (by simp [varIntSize, varIntTagging, hbyte, h16, h32])]

theorem readsInside_getBehindTag {lo hi p : Nat} {tag : UInt8} {mem : Memory} (hlo : lo ≤ p)
    (hhi : p + varIntTagging.width tag ≤ hi) : (getBehindTag tag p).ReadsInside lo hi mem := by
  unfold getBehindTag
  simp only [varIntTagging] at hhi
  split_ifs at hhi ⊢
  · exact readsInside_get8 hlo hhi
  all_goals exact readsInside_ofBE (by omega) (by omega)

/-- The tag is looked at as soon as the length is small enough, also when no byte is left. -/
theorem follows_getVarInt (c : Cursor) :
    Format.Follows varIntTagging c (getVarInt c) varIntFormat id where
  value mem b := by
    by_cases hc : c.len < 2 ^ 31
    · rw [getVarInt_eq hc, value_bind_of_ok (value_readByte _ _)]
      unfold sizedField
      by_cases hn : varIntTagging.width (mem c.pos) ≤ c.len
      · rw [if_neg (by omega), value_bind_of_ok (getBehindTag_value mem c.pos),
          value_bind_of_ok (value_moveTo _ _), Cursor.advance_of_le hn (by omega)]
        simp [Format.run, varIntFormat, hn, varIntAt, show c.len < varIntTagging.limit from hc]
      · rw [if_pos (by omega)]
        simp [Format.run, varIntFormat, hn]
    · rw [getVarInt, if_pos (by omega)]
      simp [Format.run, varIntFormat, show ¬ c.len < varIntTagging.limit from hc]
  reads mem lo hlo := by
    by_cases hc : c.len < 2 ^ 31
    · rw [getVarInt_eq hc, readsInside_bind_iff]
      simp only [Format.EndsAtTag, varIntFormat, and_false, or_false]
      constructor
      · rintro ⟨htag, -⟩ hempty
        have hinside := htag c.pos (List.mem_singleton_self _)
        omega
      · intro hleft
        constructor
        · intro addr haddr
          cases List.mem_singleton.mp haddr
          omega
        · intro tag _
          exact readsInside_sizedField fun hn => readsInside_getBehindTag hlo (by omega)
    · rw [getVarInt, if_pos (by omega)]
      simp only [Format.EndsAtTag, varIntFormat, and_false, or_false]
      constructor
      · intro _
        omega
      · intro _
        simp [ReadsInside]

theorem follows_getTimestamp (hc : c.len < 2 ^ 32) :
    Format.Follows varIntTagging c (getTimestamp c) timestampFormat id := by
  apply (follows_get32 hc).bind
  intro t c' hpos hleft
  simp only [id]
  split_ifs
  · exact follows_get32 (by omega)
  · exact Format.follows_pure rfl

-- A block is stepped over when it fits, whatever its size.
theorem follows_block {n : Nat} {g : Nat → α} (hc : c.len < 2 ^ 32) :
    Format.Follows varIntTagging c
      (if c.len < n then reject else do
        let c' ← moveTo (c.advance 32 n)
        return (g c.pos, c'))
      (.take n fun start _ => .done (g start)) id where
  value mem b := by
    by_cases hn : n ≤ c.len
    · rw [if_neg (by omega), value_bind_of_ok (value_moveTo _ _), Cursor.advance_of_le hn hc]
      simp [Format.run, hn]
    · rw [if_pos (by omega)]
      simp [Format.run, hn]
  reads mem lo hlo := by
    simp only [Format.EndsAtTag, and_false, not_false_iff, iff_true]
    split_ifs
    · simp [ReadsInside]
    · simp [ReadsInside, mem_log_bind]

theorem follows_getVarStr (hc : c.len < 2 ^ 32) :
    Format.Follows varIntTagging c (getVarStr c) varStrFormat id := by
  apply (follows_getVarInt c).bind
  intro length c' hpos hleft
  exact follows_block (g := fun data => ({ length, data } : VarStr)) (by omega)

theorem follows_skipVarInts (n : Nat) (c : Cursor) :
    Format.Follows varIntTagging c (skipVarInts n c) (skipFormat n) Prod.snd := by
  induction n generalizing c with
  | zero => exact Format.follows_pure rfl
  | succ n ih =>
    apply (follows_getVarInt c).bind
    intro _ c' _ _
    exact ih c'

theorem follows_getVarIntList (c : Cursor) :
    Format.Follows varIntTagging c (getVarIntList c) varIntListFormat id := by
  apply (follows_getVarInt c).bind
  intro nInts c' _ _
  apply Format.Follows.here
  apply (follows_skipVarInts nInts c').bind
  intro _ c'' _ _
  exact Format.follows_pure rfl

theorem readsInside_getNetaddress {lo hi p : Nat} {mem : Memory} (hlo : lo ≤ p)
    (hhi : p + 18 ≤ hi) : (getNetaddress p).ReadsInside lo hi mem := by
  rw [getNetaddress, readsInside_bind_iff]
  refine ⟨(readsInside_readBytes p 16).mpr (Or.inr ⟨hlo, by omega⟩), fun host _ => ?_⟩
  rw [readsInside_bind_iff]
  exact ⟨readsInside_ofBE (by omega) (by omega), fun _ _ => readsInside_pure _⟩

theorem getNetaddress_value (mem : Memory) (p : Nat) :
    (getNetaddress p).value mem = .ok { host := (window mem p 18).take 16
                                        port := ofBE ((window mem p 18).drop 16) } := by
  have hsplit : window mem p 18 = window mem p 16 ++ window mem (p + 16) 2 := window_add mem p 16 2
  have hlength : (window mem p 16).length = 16 := length_window mem p 16
  rw [hsplit, List.take_left' hlength, List.drop_left' hlength]
  rfl

theorem follows_getNetaddress (hc : c.len < 2 ^ 32) :
    Format.Follows varIntTagging c (sizedField c 18 (getNetaddress c.pos)) netaddressFormat id :=
  follows_sizedField (g := fun _ bytes => ({ host := bytes.take 16
                                             port := ofBE (bytes.drop 16) } : Netaddress))
    hc (fun mem => getNetaddress_value mem c.pos) fun _ _ _ => readsInside_getNetaddress

theorem follows_getArgument (a : Argument) (hc : c.len < 2 ^ 32) :
    Format.Follows varIntTagging c (getArgument a c) (argumentFormat a) id := by
  have hdone : ∀ {β : Type} (v : β) (c' : Cursor),
      Format.Follows varIntTagging c' (pure (v, c')) (.done v) id :=
    fun v c' => Format.follows_pure rfl
  cases a with
  | u8 => exact (follows_get8 hc).bind fun v c' _ _ => hdone _ c'
  | u16 => exact (follows_get16 hc).bind fun v c' _ _ => hdone _ c'
  | u32 => exact (follows_get32 hc).bind fun v c' _ _ => hdone _ c'
  | u64 => exact (follows_get64 hc).bind fun v c' _ _ => hdone _ c'
  | bool => exact (follows_get8 hc).bind fun v c' _ _ => hdone _ c'
  | varInt => exact (follows_getVarInt c).bind fun v c' _ _ => hdone _ c'
  | timestamp => exact (follows_getTimestamp hc).bind fun v c' _ _ => hdone _ c'
  | netaddress => exact (follows_getNetaddress hc).bind fun v c' _ _ => hdone _ c'
  | varStr => exact (follows_getVarStr hc).bind fun v c' _ _ => hdone _ c'
  | varIntList => exact (follows_getVarIntList c).bind fun v c' _ _ => hdone _ c'

theorem follows_getArguments (args : List Argument) (hc : c.len < 2 ^ 32) :
    Format.Follows varIntTagging c (getArguments args c) (commandFormat args) id := by
  induction args generalizing c with
  | nil => exact Format.follows_pure rfl
  | cons a args ih =>
    apply (follows_getArgument a hc).bind
    intro v c' hpos hleft
    apply (ih (by omega)).bind
    intro vs c'' _ _
    exact Format.follows_pure rfl

theorem follows_getCommand (args : List Argument) (hc : c.len < 2 ^ 32) :
    Format.Follows varIntTagging c (getCommand c.pos c.len args) (commandFormat args)
      (fun r => (r.1, r.2.pos - c.pos)) :=
  (follows_getArguments args hc).map fun _ _ _ _ => Format.follows_pure rfl

theorem follows_getNumbers (args : List Argument) (hc : c.len < 2 ^ 32) :
    Format.Follows varIntTagging c (getNumbers args c) (commandFormat args) id := by
  apply (follows_getCommand args hc).map
  intro vs c' hpos hleft
  have hmove : c.advance 32 (c'.pos - c.pos) = c' := by
    rw [Cursor.advance_of_le (by omega) hc]
    cases c'
    simp only [Cursor.skip, Cursor.mk.injEq] at *
    omega
  simp only [hmove]
  constructor
  · intro mem b
    rw [value_bind_of_ok (value_moveTo _ _), value_pure]
    simp [Format.run]
  · intro mem lo _
    simp [ReadsInside, mem_log_bind, Format.EndsAtTag]

end Fields

section Objects

variable {c : Cursor}

theorem follows_getPointer (n : Nat) (hc : c.len < 2 ^ 32) :
    Format.Follows varIntTagging c (getPointer n c) (pointerFormat n) id :=
  follows_block (g := fun start => start) hc

-- A list of two numbers, or of four, that both sides ask for.
theorem follows_two {α β : Type} {vs : List ArgValue} {p : Nat → Nat → Parser β}
    {f : Nat → Nat → Format α} {out : α × Cursor → β}
    (h : ∀ n m, Format.Follows varIntTagging c (p n m) (f n m) out) :
    Format.Follows varIntTagging c
      (match vs with
        | [.num n, .num m] => p n m
        | _ => stop .abort)
      (match vs with
        | [.num n, .num m] => f n m
        | _ => .fail) out := by
  split
  next => exact h _ _
  next => exact Format.follows_stop _ _

theorem follows_four {α β : Type} {vs : List ArgValue} {p : Nat → Nat → Nat → Nat → Parser β}
    {f : Nat → Nat → Nat → Nat → Format α} {out : α × Cursor → β}
    (h : ∀ n m n' m', Format.Follows varIntTagging c (p n m n' m') (f n m n' m') out) :
    Format.Follows varIntTagging c
      (match vs with
        | [.num n, .num m, .num n', .num m'] => p n m n' m'
        | _ => stop .abort)
      (match vs with
        | [.num n, .num m, .num n', .num m'] => f n m n' m'
        | _ => .fail) out := by
  split
  next => exact h _ _ _ _
  next => exact Format.follows_stop _ _

theorem follows_getDifficulty (version : Nat) (hc : c.len < 2 ^ 32) :
    Format.Follows varIntTagging c (getDifficulty version c) (difficultyFormat version) id := by
  unfold getDifficulty difficultyFormat
  split_ifs
  · apply (follows_getNumbers _ hc).bind
    intro vs c' _ _
    exact follows_two fun _ _ => Format.follows_pure rfl
  · exact Format.follows_pure rfl

theorem follows_getMessageBody (hc : c.len < 2 ^ 32) :
    Format.Follows varIntTagging c (getMessageBody c) messageBodyFormat id := by
  apply (follows_getNumbers _ hc).bind
  intro header c₁ hpos₁ h₁
  apply follows_four
  intro messageVersion senderAddressVersion senderStreamNumber senderBehaviors
  apply (follows_getPointer _ (by omega)).bind
  intro keys c₂ hpos₂ h₂
  apply (follows_getDifficulty _ (by omega)).bind
  intro difficulty c₃ hpos₃ h₃
  apply (follows_getPointer _ (by omega)).bind
  intro destinationRipe c₄ hpos₄ h₄
  apply (follows_getNumbers _ (by omega)).bind
  intro content c₅ hpos₅ h₅
  apply follows_two
  intro encoding messageLength
  apply (follows_getPointer _ (by omega)).bind
  intro message c₆ hpos₆ h₆
  apply (follows_getVarInt _).bind
  intro ackLength c₇ hpos₇ h₇
  apply (follows_getPointer _ (by omega)).bind
  intro ack c₈ _ _
  exact Format.follows_pure rfl

theorem follows_getDecryptedMsg {data dataLength : Nat} (hlen : dataLength < 2 ^ 32) :
    Format.Follows varIntTagging { pos := data, len := dataLength }
      (getDecryptedMsg data dataLength) decryptedMsgFormat Prod.fst := by
  apply Format.Follows.here
  apply (follows_getMessageBody (c := { pos := data, len := dataLength }) hlen).bind
  intro body c₁ _ _
  apply Format.Follows.here
  apply (follows_getVarInt c₁).bind
  intro sigLength c₂ _ _
  simp only [id]
  split_ifs with hend
  · exact Format.follows_stop_rest (if_pos hend)
  · exact Format.follows_pure_rest (if_neg hend) fun _ => rfl

/-- The behaviours are read from a block that was stepped over. -/
theorem follows_parts {α β : Type} {n : Nat} {k : Nat → Nat × Cursor → Parser β}
    {g : Nat → Nat → Format α} {out : α × Cursor → β} (hn : 4 ≤ n) (hc : c.len < 2 ^ 32)
    (hk : ∀ behaviours c', c.pos ≤ c'.pos → c'.pos + c'.len = c.pos + c.len →
      Format.Follows varIntTagging c' (k behaviours (c.pos, c')) (g behaviours c.pos) out) :
    Format.Follows varIntTagging c
      (getPointer n c >>= fun r => get32 r.1 >>= fun behaviours => k behaviours r)
      (.take n fun parts bytes => g (ofBE (bytes.take 4)) parts) out := by
  have hfirst : ∀ mem, window mem c.pos 4 = (window mem c.pos n).take 4 := by
    intro mem
    have hsplit : window mem c.pos n = window mem c.pos 4 ++ window mem (c.pos + 4) (n - 4) := by
      rw [← window_add, show 4 + (n - 4) = n by omega]
    rw [hsplit, List.take_left' (length_window mem c.pos 4)]
  unfold getPointer
  by_cases hfits : n ≤ c.len
  · rw [if_neg (by omega)]
    have hpos : c.pos ≤ (c.skip n).pos := by rw [Cursor.skip_pos]; omega
    have hleft : (c.skip n).pos + (c.skip n).len = c.pos + c.len := by
      rw [Cursor.skip_pos, Cursor.skip_len]
      omega
    have hmove : ∀ mem, (moveTo (c.advance 32 n) >>= fun c' => pure (c.pos, c') :
        Parser (Nat × Cursor)).value mem = .ok (c.pos, c.skip n) := by
      intro mem
      rw [value_bind_of_ok (value_moveTo _ _), Cursor.advance_of_le hfits hc, value_pure]
    constructor
    · intro mem b
      rw [value_bind_of_ok (hmove mem), value_bind_of_ok (get32_value _), Format.run,
        if_pos hfits, ← hfirst]
      exact (hk _ _ hpos hleft).value mem b
    · intro mem lo hlo
      rw [readsInside_bind_iff, readsInside_bind_iff, Format.EndsAtTag, and_iff_right hfits,
        ← hfirst]
      have hreads := (hk (ofBE (window mem c.pos 4)) _ hpos hleft).reads mem lo (by omega)
      rw [hleft] at hreads
      rw [← hreads]
      constructor
      · rintro ⟨-, hrest⟩
        have hsecond := hrest _ (hmove mem)
        rw [readsInside_bind_iff] at hsecond
        exact hsecond.2 _ (get32_value _)
      · intro hinside
        refine ⟨?_, ?_⟩
        · simp [ReadsInside]
        · rintro r hr
          rw [hmove mem] at hr
          cases hr
          rw [readsInside_bind_iff]
          refine ⟨readsInside_ofBE hlo (by omega), fun v hv => ?_⟩
          rw [get32_value] at hv
          cases hv
          exact hinside
  · rw [if_pos (by omega)]
    constructor
    · intro mem b
      simp [value_bind, Except.bind, Format.run, hfits]
    · intro mem lo _
      rw [readsInside_bind_iff]
      simp [ReadsInside, Format.EndsAtTag, hfits]

theorem follows_processV2PubkeyParts (pubkey : Pubkey) (hc : c.len < 2 ^ 32) :
    Format.Follows varIntTagging c (processV2PubkeyParts pubkey c) (v2PartsFormat pubkey)
      Prod.fst := by
  have hfollows := @follows_parts c Pubkey Pubkey (64 * 2 + 4)
    (fun behaviours r => pure { pubkey.withKeys behaviours r.1 with
      nonceTrialsPerByte := minNonceTrialsPerByte, extraBytes := minExtraBytes })
    (fun behaviours parts => .done { pubkey.withKeys behaviours parts with
      nonceTrialsPerByte := minNonceTrialsPerByte, extraBytes := minExtraBytes }) Prod.fst
    (by omega) hc fun _ _ _ _ => Format.follows_pure rfl
  exact hfollows

theorem follows_getV3Parts (pubkey : Pubkey) (hc : c.len < 2 ^ 32) :
    Format.Follows varIntTagging c (getV3Parts pubkey c) (v3PartsFormat pubkey) id := by
  refine @follows_parts c _ _ (4 + 64 * 2)
    (fun behaviours r => getNumbers [.varInt, .varInt] r.2 >>= fun r' =>
      match r'.1 with
      | [.num nonceTrialsPerByte, .num extraBytes] =>
        return ({ pubkey.withKeys behaviours r.1 with nonceTrialsPerByte, extraBytes }, r'.2)
      | _ => stop .abort)
    (fun behaviours parts => (commandFormat [.varInt, .varInt]).bind fun difficulty =>
      match difficulty with
      | [.num nonceTrialsPerByte, .num extraBytes] =>
        .done { pubkey.withKeys behaviours parts with nonceTrialsPerByte, extraBytes }
      | _ => .fail) id (by omega) hc ?_
  intro behaviours c₁ hpos₁ h₁
  apply (follows_getNumbers _ (by omega)).bind
  intro difficulty c₂ _ _
  exact follows_two fun _ _ => Format.follows_pure rfl

theorem follows_processV3PubkeyParts (pubkey : Pubkey) (hc : c.len < 2 ^ 32) :
    Format.Follows varIntTagging c (processV3PubkeyParts pubkey c) (v3PubkeyFormat pubkey)
      Prod.fst := by
  apply (follows_getV3Parts pubkey hc).bind
  intro pubkey c₁ _ _
  apply Format.Follows.here
  apply (follows_getVarInt c₁).bind
  intro signatureLength c₂ _ _
  simp only [id]
  split_ifs with hend
  · exact Format.follows_stop_rest (if_pos hend)
  · exact Format.follows_pure_rest (if_neg hend) fun _ => rfl

theorem follows_processV4PubkeyParts (pubkey : Pubkey) (hc : c.len < 2 ^ 32) :
    Format.Follows varIntTagging c (processV4PubkeyParts pubkey c) (v4PubkeyFormat pubkey)
      Prod.fst := by
  apply (follows_getPointer _ hc).bind
  intro tag c' _ _
  exact Format.follows_pure_rest rfl fun _ => rfl

theorem follows_getPubkey (decrypted : Bool) {dataStart messageLength : Nat}
    (hlen : messageLength < 2 ^ 32) :
    Format.Follows varIntTagging { pos := dataStart, len := messageLength }
      (getPubkey decrypted dataStart messageLength) (pubkeyFormat decrypted) Prod.fst := by
  apply Format.Follows.here
  apply (follows_getNumbers _ (c := { pos := dataStart, len := messageLength }) hlen).bind
  intro header c' hpos h'
  simp only at hpos h'
  have hc' : c'.len < 2 ^ 32 := by omega
  apply follows_four
  intro nonce timestamp version stream
  dsimp only
  split_ifs
  · exact follows_processV2PubkeyParts _ hc'
  · exact follows_processV4PubkeyParts _ hc'
  · exact follows_processV3PubkeyParts _ hc'
  · exact Format.follows_stop _ _

end Objects

end Notbit.Proto
