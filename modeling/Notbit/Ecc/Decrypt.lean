import Notbit.Ecc.OpenSSL

/-!
# Decrypt — reading an encrypted payload (`ntb_ecc_decrypt`)

The input is an IV, an ephemeral public key with two length-prefixed coordinates, the ciphertext
and a MAC.  `decodeBigNumber` checks that its length field is there, but not that the bytes the
field announces are.  `decrypt_inBounds_iff` says on exactly which inputs everything the function
does stays inside the input.
-/

open Bytes Traced Traced.Parser Notbit.Proto

namespace Notbit.Ecc

/-- A block of memory: it ends inside the 64-bit address space. -/
structure Region where
  base : Nat
  size : Nat
  fits : base + size < 2 ^ 64

def Region.cursor (r : Region) : Cursor := { pos := r.base, len := r.size }

variable (ssl : OpenSSL)

/-- `decode_big_number`.  The remaining length is a `size_t`. -/
def decodeBigNumber (c : Cursor) : Parser (Nat × Cursor) :=
  if c.len < 2 then reject
  else do
    let numBytes ← get16 c.pos
    let bn ← readBytes (c.pos + 2) numBytes
    let c' ← moveTo (c.advance 64 (2 + numBytes))
    return (ofBE bn, c')

/-- `decode_pub_key`.  A point that is not on the curve fails the assertion. -/
def decodePubKey (c : Cursor) : Parser (ssl.Point × Cursor) :=
  if c.len < 2 * 3 then reject
  else do
    let curve ← get16 c.pos
    if curve ≠ nidSecp256k1 then reject
    else
      let c ← moveTo (c.advance 64 2)
      let (x, c) ← decodeBigNumber c
      let (y, c) ← decodeBigNumber c
      match ssl.setAffineCoordinates x y with
      | none => stop .abort
      | some point => return (point, c)

/-- The part of `ntb_ecc_decrypt` after the ephemeral key: `iv` is the address of the IV and `c`
the rest of the input. -/
def decryptBody (key : ssl.Key) (iv : Nat) (point : ssl.Point) (c : Cursor) :
    Parser (List UInt8) := do
  let ecdhKey := ssl.ecdh point key
  assert (ecdhKey.length == ecdhKeyLength)
  if c.len < macLength then reject
  else
    let cipherLength := c.len - macLength
    -- `HMAC` runs over the whole ciphertext before the MAC is compared
    let hashed ← readBytes c.pos cipherLength
    let computed := ssl.hmac (ecdhKey.drop 32) hashed
    assert (computed.length == macLength)
    let mac ← readBytes ((c.pos + c.len - macLength) % 2 ^ 64) macLength
    if computed ≠ mac then reject
    else
      let ivBytes ← readBytes iv ivLength
      let ciphertext ← readBytes c.pos cipherLength
      match ssl.decryptUpdate (ecdhKey.take 32) ivBytes ciphertext with
      | none => reject
      | some out =>
        match ssl.decryptFinal (ecdhKey.take 32) ivBytes ciphertext with
        | none => reject
        | some last => return out ++ last

/-- `ntb_ecc_decrypt`: the bytes it appends to the output buffer when it returns `true`.  The
callers drop the output otherwise. -/
def decrypt (key : ssl.Key) (c : Cursor) : Parser (List UInt8) :=
  if c.len < ivLength then reject
  else do
    let c' ← moveTo (c.advance 64 ivLength)
    let (point, c'') ← decodePubKey ssl c'
    decryptBody ssl key c.pos point c''

/-! ## 1. The two length fields -/

/-- The 16-bit number at an address. -/
def u16At (mem : Memory) (p : Nat) : Nat := ofBE (window mem p 2)

theorem get16_u16At (mem : Memory) (p : Nat) : (get16 p).value mem = .ok (u16At mem p) :=
  get16_value p

theorem u16At_lt (mem : Memory) (p : Nat) : u16At mem p < 2 ^ 16 := by
  have h := ofBE_window_lt mem p 2
  unfold u16At
  omega

/-- The coordinate that is announced is there. -/
def BigNumberFits (mem : Memory) (c : Cursor) : Prop := 2 + u16At mem c.pos ≤ c.len

variable {ssl} {mem : Memory} {lo hi : Nat} {c c' : Cursor}

theorem decodeBigNumber_ok {x : Nat} (h : (decodeBigNumber c).value mem = .ok (x, c')) :
    2 ≤ c.len ∧ x = ofBE (window mem (c.pos + 2) (u16At mem c.pos)) ∧
      c' = c.advance 64 (2 + u16At mem c.pos) := by
  unfold decodeBigNumber at h
  split at h
  next => simp at h
  next hlen =>
    rw [value_bind_of_ok (get16_value _), value_bind_of_ok (value_readBytes _ _ _),
      value_bind_of_ok (value_moveTo _ _), value_pure, Except.ok.injEq, Prod.mk.injEq] at h
    exact ⟨by omega, h.1.symm, h.2.symm⟩

-- A number that is read in full moves the cursor without wrapping it.
theorem decodeBigNumber_consumed {x : Nat} (hc : c.len < 2 ^ 64) (hfit : BigNumberFits mem c)
    (h : (decodeBigNumber c).value mem = .ok (x, c')) : c' = c.skip (2 + u16At mem c.pos) := by
  obtain ⟨-, -, rfl⟩ := decodeBigNumber_ok h
  exact Cursor.advance_of_le hfit hc

/-- The reads of `decode_big_number` and its cursor stay inside exactly when there is no length
field or the coordinate fits. -/
theorem decodeBigNumber_safe (hlo : lo ≤ c.pos) (hhi : c.pos + c.len = hi)
    (hc : c.len < 2 ^ 64) :
    (decodeBigNumber c).Safe lo hi mem ↔ c.len < 2 ∨ BigNumberFits mem c := by
  unfold decodeBigNumber BigNumberFits
  split
  next hshort => simp [hshort]
  next hlen =>
    have hn := u16At_lt mem c.pos
    have hread : (get16 c.pos).Safe lo hi mem := by
      unfold get16
      refine safe_bind_iff.mpr ⟨(safe_readBytes _ _).mpr (Or.inr ⟨hlo, by omega⟩), ?_⟩
      intro bs _
      exact safe_pure _
    rw [safe_bind_iff]
    constructor
    · rintro ⟨-, hrest⟩
      have h := safe_bind_iff.mp (hrest _ (get16_value _))
      have hmove := (safe_bind_iff.mp (h.2 _ (value_readBytes _ _ _))).1
      rw [safe_moveTo] at hmove
      -- a cursor that wrapped would end 2^64 past the input
      by_contra hbad
      have hwrap := Cursor.advance_of_lt (w := 64) (c := c) (n := 2 + u16At mem c.pos)
        (by omega) (by omega)
      unfold u16At at hwrap
      omega
    · rintro (hshort | hfit)
      · omega
      · refine ⟨hread, fun n hn' => ?_⟩
        rw [get16_value, Except.ok.injEq] at hn'
        subst hn'
        refine safe_bind_iff.mpr ⟨(safe_readBytes _ _).mpr (Or.inr ⟨by omega, ?_⟩), fun _ _ => ?_⟩
        · unfold u16At at hfit
          omega
        · refine safe_bind_iff.mpr ⟨(safe_moveTo _).mpr ?_, fun _ _ => safe_pure _⟩
          unfold u16At at hfit
          rw [Cursor.advance_of_le hfit hc]
          simp only [Cursor.skip]
          omega

/-- The key is cut off before its first number, is on another curve, or the numbers that are read
of it are there: the first one, and the second one unless its length field is missing. -/
def PubKeyFits (mem : Memory) (c : Cursor) : Prop :=
  c.len < 2 * 3 ∨ u16At mem c.pos ≠ nidSecp256k1 ∨
    BigNumberFits mem (c.skip 2) ∧
      ((c.skip (4 + u16At mem (c.pos + 2))).len < 2 ∨
        BigNumberFits mem (c.skip (4 + u16At mem (c.pos + 2))))

-- The first number of a key, and the cursor behind it.
theorem decodeBigNumber_first {x : Nat} (hc : c.len < 2 ^ 64)
    (hfit : BigNumberFits mem (c.skip 2))
    (h : (decodeBigNumber (c.skip 2)).value mem = .ok (x, c')) :
    c' = c.skip (4 + u16At mem (c.pos + 2)) := by
  rw [decodeBigNumber_consumed (by rw [Cursor.skip_len]; omega) hfit h, Cursor.skip_skip,
    Cursor.skip_pos]
  congr 1
  omega

variable (mem) in
theorem decodeBigNumber_value (hlen : 2 ≤ c.len) : (decodeBigNumber c).value mem =
    .ok (ofBE (window mem (c.pos + 2) (u16At mem c.pos)), c.advance 64 (2 + u16At mem c.pos)) := by
  rw [decodeBigNumber, if_neg (by omega), value_bind_of_ok (get16_value _),
    value_bind_of_ok (value_readBytes _ _ _), value_bind_of_ok (value_moveTo _ _), value_pure]
  rfl

-- The first number of a key that is long enough, when it is there.
theorem decodeBigNumber_first_value (hlen : 2 * 3 ≤ c.len) (hc : c.len < 2 ^ 64)
    (hfit : BigNumberFits mem (c.skip 2)) : (decodeBigNumber (c.skip 2)).value mem =
      .ok (ofBE (window mem (c.pos + 4) (u16At mem (c.pos + 2))),
        c.skip (4 + u16At mem (c.pos + 2))) := by
  have hskip : 2 ≤ (c.skip 2).len := by
    rw [Cursor.skip_len]
    omega
  have hvalue := decodeBigNumber_value mem hskip
  rw [decodeBigNumber_first hc hfit hvalue] at hvalue
  exact hvalue

theorem decodePubKey_safe (hlo : lo ≤ c.pos) (hhi : c.pos + c.len = hi) (hc : c.len < 2 ^ 64) :
    (decodePubKey ssl c).Safe lo hi mem ↔ PubKeyFits mem c := by
  unfold decodePubKey PubKeyFits
  split
  next hshort => simp [hshort]
  next hlen =>
    have hcurve : (get16 c.pos).Safe lo hi mem := by
      unfold get16
      exact safe_bind_iff.mpr
        ⟨(safe_readBytes _ _).mpr (Or.inr ⟨hlo, by omega⟩), fun _ _ => safe_pure _⟩
    have hmove : c.advance 64 2 = c.skip 2 := Cursor.advance_of_le (by omega) hc
    have hfirst : (decodeBigNumber (c.skip 2)).Safe lo hi mem ↔
        (c.skip 2).len < 2 ∨ BigNumberFits mem (c.skip 2) :=
      decodeBigNumber_safe (by rw [Cursor.skip_pos]; omega) (by simp only [Cursor.skip]; omega)
        (by rw [Cursor.skip_len]; omega)
    have hlong : ¬ (c.skip 2).len < 2 := by rw [Cursor.skip_len]; omega
    rw [safe_bind_iff]
    by_cases hnid : u16At mem c.pos = nidSecp256k1
    · constructor
      · rintro ⟨-, hrest⟩
        refine Or.inr (Or.inr ?_)
        have h := hrest _ (get16_u16At mem _)
        rw [if_neg (not_not.mpr hnid), hmove] at h
        have h := (safe_bind_iff.mp h).2 _ (value_moveTo _ _)
        obtain ⟨hsafe₁, hrest₁⟩ := safe_bind_iff.mp h
        have hfit₁ : BigNumberFits mem (c.skip 2) := (hfirst.mp hsafe₁).resolve_left hlong
        refine ⟨hfit₁, ?_⟩
        -- the first number was there, so it is returned and the second one is looked at
        have hx := decodeBigNumber_first_value (by omega) hc hfit₁
        have hsafe₂ := (safe_bind_iff.mp (hrest₁ _ hx)).1
        refine (decodeBigNumber_safe ?_ ?_ ?_).mp hsafe₂
        · rw [Cursor.skip_pos]; omega
        · unfold BigNumberFits at hfit₁
          simp only [Cursor.skip] at hfit₁ ⊢
          omega
        · rw [Cursor.skip_len]; omega
      · rintro (h | h | ⟨hfit₁, hfit₂⟩)
        · omega
        · exact absurd hnid h
        refine ⟨hcurve, fun n hn => ?_⟩
        rw [get16_u16At, Except.ok.injEq] at hn
        subst hn
        rw [if_neg (not_not.mpr hnid), hmove]
        refine safe_bind_iff.mpr ⟨(safe_moveTo _).mpr ?_, fun c₁ hc₁ => ?_⟩
        · simp only [Cursor.skip]; omega
        rw [value_moveTo, Except.ok.injEq] at hc₁
        subst hc₁
        refine safe_bind_iff.mpr ⟨hfirst.mpr (Or.inr hfit₁), fun r hr => ?_⟩
        obtain ⟨x, c₁⟩ := r
        have hc₁ := decodeBigNumber_first hc hfit₁ hr
        subst hc₁
        have hbound : 4 + u16At mem (c.pos + 2) ≤ c.len := by
          unfold BigNumberFits at hfit₁
          simp only [Cursor.skip] at hfit₁
          omega
        refine safe_bind_iff.mpr ⟨(decodeBigNumber_safe ?_ ?_ ?_).mpr hfit₂, fun r _ => ?_⟩
        · rw [Cursor.skip_pos]; omega
        · simp only [Cursor.skip]; omega
        · rw [Cursor.skip_len]; omega
        · dsimp only
          split
          next => exact safe_stop _
          next => exact safe_pure _
    · constructor
      · exact fun _ => Or.inr (Or.inl hnid)
      · refine fun _ => ⟨hcurve, fun n hn => ?_⟩
        rw [get16_u16At, Except.ok.injEq] at hn
        subst hn
        rw [if_pos hnid]
        exact safe_reject

/-- A key that fits and is returned leaves a cursor that accounts for every byte. -/
theorem decodePubKey_consumed {point : ssl.Point} (hc : c.len < 2 ^ 64)
    (hfit : PubKeyFits mem c) (h : (decodePubKey ssl c).value mem = .ok (point, c')) :
    Consumed c c' := by
  unfold decodePubKey at h
  split at h
  next => simp at h
  next hlen =>
    rw [value_bind_of_ok (get16_u16At mem _)] at h
    split at h
    next => simp at h
    next hnid =>
      have hnid : u16At mem c.pos = nidSecp256k1 := not_not.mp hnid
      rw [Cursor.advance_of_le (by omega) hc, value_bind_of_ok (value_moveTo _ _)] at h
      obtain ⟨⟨x, c₁⟩, hx, h⟩ := value_bind_eq_ok.mp h
      obtain ⟨⟨y, c₂⟩, hy, h⟩ := value_bind_eq_ok.mp h
      obtain ⟨hfit₁, hfit₂⟩ : BigNumberFits mem (c.skip 2) ∧
          ((c.skip (4 + u16At mem (c.pos + 2))).len < 2 ∨
            BigNumberFits mem (c.skip (4 + u16At mem (c.pos + 2)))) := by
        rcases hfit with h | h | h
        · omega
        · exact absurd hnid h
        · exact h
      have hc₁ := decodeBigNumber_first hc hfit₁ hx
      subst hc₁
      have hfit₂ := hfit₂.resolve_left (by
        have h₂ := (decodeBigNumber_ok hy).1
        omega)
      have hc₂ := decodeBigNumber_consumed (by rw [Cursor.skip_len]; omega) hfit₂ hy
      subst hc₂
      have hc' : c' = (c.skip (4 + u16At mem (c.pos + 2))).skip
          (2 + u16At mem (c.skip (4 + u16At mem (c.pos + 2))).pos) := by
        simp only at h
        cases hpt : ssl.setAffineCoordinates x y with
        | none => rw [hpt] at h; simp at h
        | some q =>
          rw [hpt, value_pure, Except.ok.injEq, Prod.mk.injEq] at h
          exact h.2.symm
      unfold BigNumberFits at hfit₁ hfit₂
      subst hc'
      simp only [Cursor.skip] at hfit₁ hfit₂
      constructor
      · simp only [Cursor.skip]; omega
      · simp only [Cursor.skip]; omega

/-! ## 2. The whole function -/

/-- Behind a key whose cursor adds up, the MAC, the IV and the ciphertext lie inside the input. -/
theorem decryptBody_safe {key : ssl.Key} {iv : Nat} {point : ssl.Point} (hiv : lo ≤ iv)
    (hiv' : iv + ivLength ≤ hi) (hlo : lo ≤ c.pos) (hhi : c.pos + c.len = hi)
    (hfits : hi < 2 ^ 64) : (decryptBody ssl key iv point c).Safe lo hi mem := by
  unfold decryptBody
  refine safe_bind_iff.mpr ⟨safe_assert _, fun _ _ => ?_⟩
  split
  next => exact safe_reject
  next hlen =>
    unfold macLength at *
    have hcipher : (readBytes c.pos (c.len - 32)).Safe lo hi mem :=
      (safe_readBytes _ _).mpr (Or.inr ⟨hlo, by omega⟩)
    refine safe_bind_iff.mpr ⟨hcipher, fun hashed _ => ?_⟩
    refine safe_bind_iff.mpr ⟨safe_assert _, fun _ _ => ?_⟩
    refine safe_bind_iff.mpr ⟨(safe_readBytes _ _).mpr (Or.inr ?_), fun mac _ => ?_⟩
    · rw [Nat.mod_eq_of_lt (by omega)]
      omega
    split
    next => exact safe_reject
    next =>
      refine safe_bind_iff.mpr
        ⟨(safe_readBytes _ _).mpr (Or.inr ⟨hiv, hiv'⟩), fun ivBytes _ => ?_⟩
      refine safe_bind_iff.mpr ⟨hcipher, fun ciphertext _ => ?_⟩
      split
      next => exact safe_reject
      next out _ =>
        split
        next => exact safe_reject
        next => exact safe_pure _

/-- Every read lies inside the input; at every point where the pointer or the remaining length
changes, consumed and remaining bytes add up to the input (so the length has not wrapped); and the
key parser in particular accounts for every byte when it succeeds. -/
def InBounds (ssl : OpenSSL) (key : ssl.Key) (mem : Memory) (r : Region) : Prop :=
  (decrypt ssl key r.cursor).Safe r.base (r.base + r.size) mem ∧
    ∀ point c', ivLength ≤ r.size →
      (decodePubKey ssl (r.cursor.skip ivLength)).value mem = .ok (point, c') →
        Consumed (r.cursor.skip ivLength) c'

/-- The input is too short for an IV, or the coordinates its key announces are there. -/
def AnnouncedLengthsFit (mem : Memory) (r : Region) : Prop :=
  r.size < ivLength ∨ PubKeyFits mem (r.cursor.skip ivLength)

/-- With an IV there, decryption is its key parser followed by the rest. -/
theorem decrypt_safe_iff {key : ssl.Key} {r : Region} (hlong : ivLength ≤ r.size) :
    (decrypt ssl key r.cursor).Safe r.base (r.base + r.size) mem ↔
      PubKeyFits mem (r.cursor.skip ivLength) ∧
        ∀ q, (decodePubKey ssl (r.cursor.skip ivLength)).value mem = .ok q →
          (decryptBody ssl key r.base q.1 q.2).Safe r.base (r.base + r.size) mem := by
  have hfits := r.fits
  have hsize : r.cursor.len = r.size := rfl
  have hbase : r.cursor.pos = r.base := rfl
  have hsafe : (decodePubKey ssl (r.cursor.skip ivLength)).Safe r.base (r.base + r.size) mem ↔
      PubKeyFits mem (r.cursor.skip ivLength) :=
    decodePubKey_safe (by rw [Cursor.skip_pos]; omega) (by simp only [Cursor.skip]; omega)
      (by rw [Cursor.skip_len]; omega)
  rw [decrypt, if_neg (by omega), Cursor.advance_of_le (by omega) (by omega), safe_bind_iff,
    safe_moveTo]
  simp only [value_moveTo, Except.ok.injEq, forall_eq', safe_bind_iff, hsafe]
  simp only [Cursor.skip, hbase]
  constructor
  · exact fun h => h.2
  · exact fun h => ⟨by omega, h⟩

theorem announcedLengthsFit_of_inBounds {key : ssl.Key} {r : Region}
    (h : InBounds ssl key mem r) : AnnouncedLengthsFit mem r := by
  by_cases hshort : r.size < ivLength
  · exact Or.inl hshort
  · exact Or.inr ((decrypt_safe_iff (by omega)).mp h.1).1

theorem inBounds_of_announcedLengthsFit {key : ssl.Key} {r : Region}
    (h : AnnouncedLengthsFit mem r) : InBounds ssl key mem r := by
  have hfits := r.fits
  have hsize : r.cursor.len = r.size := rfl
  have hbase : r.cursor.pos = r.base := rfl
  by_cases hshort : r.size < ivLength
  · have hdec : decrypt ssl key r.cursor = reject := by
      rw [decrypt, if_pos (by rw [hsize]; exact hshort)]
    refine ⟨?_, fun point c' hle => by omega⟩
    rw [hdec]
    exact safe_reject
  · have hfit : PubKeyFits mem (r.cursor.skip ivLength) := h.resolve_left hshort
    have hcons : ∀ point c', (decodePubKey ssl (r.cursor.skip ivLength)).value mem
        = .ok (point, c') → Consumed (r.cursor.skip ivLength) c' := fun point c' h =>
      decodePubKey_consumed (by rw [Cursor.skip_len]; omega) hfit h
    refine ⟨(decrypt_safe_iff (by omega)).mpr ⟨hfit, fun q hq => ?_⟩,
      fun point c' _ h => hcons point c' h⟩
    obtain ⟨hpos, hsum⟩ := hcons q.1 q.2 hq
    simp only [Cursor.skip] at hpos hsum
    unfold ivLength at *
    exact decryptBody_safe (by omega) (by unfold ivLength; omega) (by omega) (by omega) (by omega)

/-- Decryption stays inside its input exactly when the announced coordinate lengths fit, whatever
OpenSSL returns. -/
theorem decrypt_inBounds_iff (ssl : OpenSSL) (key : ssl.Key) (mem : Memory) (r : Region) :
    InBounds ssl key mem r ↔ AnnouncedLengthsFit mem r :=
  ⟨announcedLengthsFit_of_inBounds, inBounds_of_announcedLengthsFit⟩

/-- A 16-byte IV and a key on the right curve whose first coordinate announces 65535 bytes, of
which none are there. -/
def truncatedKey : List UInt8 := List.replicate 16 0 ++ [0x02, 0xca, 0xff, 0xff, 0, 0]

theorem truncatedKey_fits : 0 + 22 < 2 ^ 64 := by decide

theorem truncatedKey_leaves_input : ¬ ∃ (ssl : OpenSSL) (key : ssl.Key),
    InBounds ssl key (ofList truncatedKey) ⟨0, 22, truncatedKey_fits⟩ := by
  rintro ⟨ssl, key, hin⟩
  have hfit := announcedLengthsFit_of_inBounds hin
  unfold AnnouncedLengthsFit PubKeyFits BigNumberFits u16At at hfit
  revert hfit
  decide

/-! ## 3. Its reads alone, and its assertions -/

/-- The coordinates of the key, when both are read, are those of a point of the curve. -/
def KeyOnCurve (ssl : OpenSSL) (mem : Memory) (c : Cursor) : Prop :=
  let second := c.skip (4 + u16At mem (c.pos + 2))
  2 * 3 ≤ c.len → u16At mem c.pos = nidSecp256k1 → 2 ≤ second.len →
    (ssl.setAffineCoordinates (ofBE (window mem (c.pos + 4) (u16At mem (c.pos + 2))))
      (ofBE (window mem (second.pos + 2) (u16At mem second.pos)))).isSome = true

/-- The input is too short for an IV, or the coordinates of its key are there and on the curve. -/
structure Usable (ssl : OpenSSL) (mem : Memory) (r : Region) : Prop where
  fits : AnnouncedLengthsFit mem r
  onCurve : ivLength ≤ r.size → KeyOnCurve ssl mem (r.cursor.skip ivLength)

-- The bytes that a length field announces are read before anything is checked.
theorem decodeBigNumber_readsInside (hhi : c.pos + c.len = hi)
    (h : (decodeBigNumber c).ReadsInside lo hi mem) : c.len < 2 ∨ BigNumberFits mem c := by
  unfold decodeBigNumber at h
  unfold BigNumberFits
  split at h
  next hshort => exact Or.inl hshort
  next hlen =>
    have hrest := (readsInside_bind_iff.mp h).2 _ (get16_u16At mem _)
    have hread := (readsInside_readBytes _ _).mp (readsInside_bind_iff.mp hrest).1
    omega

theorem decodePubKey_readsInside (hhi : c.pos + c.len = hi) (hc : c.len < 2 ^ 64)
    (h : (decodePubKey ssl c).ReadsInside lo hi mem) : PubKeyFits mem c := by
  unfold decodePubKey at h
  unfold PubKeyFits
  split at h
  next hshort => exact Or.inl hshort
  next hlen =>
    have h := (readsInside_bind_iff.mp h).2 _ (get16_u16At mem _)
    split at h
    next hnid => exact Or.inr (Or.inl hnid)
    next hnid =>
      rw [Cursor.advance_of_le (by omega) hc] at h
      have h := (readsInside_bind_iff.mp h).2 _ (value_moveTo _ _)
      obtain ⟨hfirst, h⟩ := readsInside_bind_iff.mp h
      have hlong : 2 ≤ (c.skip 2).len := by rw [Cursor.skip_len]; omega
      have hfit : BigNumberFits mem (c.skip 2) :=
        (decodeBigNumber_readsInside (by simp only [Cursor.skip]; omega) hfirst).resolve_left
          (by omega)
      refine Or.inr (Or.inr ⟨hfit, ?_⟩)
      have hvalue := decodeBigNumber_first_value (by omega) hc hfit
      refine decodeBigNumber_readsInside ?_ (readsInside_bind_iff.mp (h _ hvalue)).1
      unfold BigNumberFits at hfit
      simp only [Cursor.skip] at hfit ⊢
      omega

/-- The assertion about the point is the only one that the key can fail. -/
theorem decodePubKey_abort_iff (hc : c.len < 2 ^ 64) (hfit : PubKeyFits mem c) :
    (decodePubKey ssl c).value mem ≠ .error .abort ↔ KeyOnCurve ssl mem c := by
  unfold decodePubKey KeyOnCurve
  split
  next hshort => simp [hshort]
  next hlen =>
    rw [value_bind_of_ok (get16_u16At mem _)]
    split
    next hnid => simp [hnid]
    next hnid =>
      have hnid : u16At mem c.pos = nidSecp256k1 := not_not.mp hnid
      obtain ⟨hfit₁, -⟩ := (hfit.resolve_left (by omega)).resolve_left (not_not.mpr hnid)
      rw [Cursor.advance_of_le (by omega) hc, value_bind_of_ok (value_moveTo _ _),
        value_bind_of_ok (decodeBigNumber_first_value (by omega) hc hfit₁)]
      by_cases hsecond : (c.skip (4 + u16At mem (c.pos + 2))).len < 2
      · simp only [decodeBigNumber, if_pos hsecond]
        constructor
        · intro _ _ _ hle
          omega
        · intro _ habort
          cases habort
      · rw [value_bind_of_ok (decodeBigNumber_value _ (by omega))]
        dsimp only
        generalize ssl.setAffineCoordinates _ _ = point
        cases point with
        | none =>
          refine iff_of_false (fun h => h rfl) fun h => ?_
          have hsome := h (by omega) hnid (by omega)
          cases hsome
        | some point => exact iff_of_true nofun fun _ _ _ => rfl

-- Behind the key the assertions are about the sizes of what OpenSSL returns.
theorem decryptBody_noAbort (hecdh : ∀ point key, (ssl.ecdh point key).length = ecdhKeyLength)
    (key : ssl.Key) (iv : Nat) (point : ssl.Point) (c : Cursor) :
    (decryptBody ssl key iv point c).value mem ≠ .error .abort := by
  unfold decryptBody
  rw [value_bind_of_ok (value_assert (by rw [hecdh]; rfl) _)]
  split
  next => nofun
  next =>
    rw [value_bind_of_ok (value_readBytes _ _ _),
      value_bind_of_ok (value_assert (by rw [ssl.length_hmac]; rfl) _),
      value_bind_of_ok (value_readBytes _ _ _)]
    split
    next => nofun
    next =>
      rw [value_bind_of_ok (value_readBytes _ _ _), value_bind_of_ok (value_readBytes _ _ _)]
      split
      next => nofun
      next =>
        split
        next => nofun
        next => nofun

/-- Decryption reads nothing outside its input, or the block that its input is the end of, and fails
no assertion exactly when the key of the input is usable. -/
theorem decrypt_usable_iff (hecdh : ∀ point key, (ssl.ecdh point key).length = ecdhKeyLength)
    (key : ssl.Key) (mem : Memory) {r : Region} (hlo : lo ≤ r.base) :
    ((decrypt ssl key r.cursor).value mem ≠ .error .abort ∧
        (decrypt ssl key r.cursor).ReadsInside lo (r.base + r.size) mem) ↔
      Usable ssl mem r := by
  have hfits := r.fits
  have hsize : r.cursor.len = r.size := rfl
  have hbase : r.cursor.pos = r.base := rfl
  by_cases hshort : r.size < ivLength
  · have hdec : decrypt ssl key r.cursor = reject := by
      rw [decrypt, if_pos (by rw [hsize]; exact hshort)]
    rw [hdec]
    exact iff_of_true ⟨by simp, safe_reject.readsInside⟩ ⟨Or.inl hshort, fun hle => by omega⟩
  · have hlen : (r.cursor.skip ivLength).len < 2 ^ 64 := by rw [Cursor.skip_len]; omega
    have hdec : decrypt ssl key r.cursor = moveTo (r.cursor.skip ivLength) >>= fun c' =>
        decodePubKey ssl c' >>= fun q => decryptBody ssl key r.base q.1 q.2 := by
      rw [decrypt, if_neg (by omega), Cursor.advance_of_le (by omega) (by omega)]
      rfl
    constructor
    · rintro ⟨hvalue, hreads⟩
      rw [hdec] at hvalue hreads
      have hreads := (readsInside_bind_iff.mp hreads).2 _ (value_moveTo _ _)
      have hfit : PubKeyFits mem (r.cursor.skip ivLength) :=
        decodePubKey_readsInside (by simp only [Cursor.skip]; omega) hlen
          (readsInside_bind_iff.mp hreads).1
      refine ⟨Or.inr hfit, fun _ => (decodePubKey_abort_iff hlen hfit).mp fun habort => ?_⟩
      rw [value_bind_of_ok (value_moveTo _ _), value_bind, habort] at hvalue
      exact hvalue rfl
    · rintro ⟨hfit, honcurve⟩
      refine ⟨?_, fun addr haddr => ?_⟩
      swap
      · have hin := (inBounds_of_announcedLengthsFit hfit).1.readsInside addr haddr
        omega
      have hpoint := (decodePubKey_abort_iff hlen (hfit.resolve_left hshort)).mpr
        (honcurve (by omega))
      rw [hdec, value_bind_of_ok (value_moveTo _ _), value_bind]
      cases hq : (decodePubKey ssl (r.cursor.skip ivLength)).value mem with
      | error e =>
        rw [hq] at hpoint
        cases e with
        | reject => simp [Except.bind]
        | abort => exact absurd rfl hpoint
      | ok q => exact decryptBody_noAbort hecdh key r.base q.1 q.2

end Notbit.Ecc
