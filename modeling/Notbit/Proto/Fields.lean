import Notbit.Lib.Traced

/-!
# Fields — the integers, var_ints and strings of the wire format (`ntb-proto.c`, `ntb-proto.h`)

The readers move a cursor whose remaining length is a `uint32_t`; the writers append to a buffer.
A reader that succeeds has consumed at most what was left (`getVarInt_ok` and its siblings), and it
reads back what the matching writer wrote (`getVarInt_addVarInt` and its siblings).
-/

open Bytes Traced Traced.Parser

namespace Notbit.Proto

/-! ## 1. Readers -/

def get8 (p : Nat) : Parser Nat := do
  return (← readByte p).toNat

def get16 (p : Nat) : Parser Nat := do
  return ofBE (← readBytes p 2)

def get32 (p : Nat) : Parser Nat := do
  return ofBE (← readBytes p 4)

def get64 (p : Nat) : Parser Nat := do
  return ofBE (← readBytes p 8)

/-- A field of `size` bytes: refused when it does not fit, otherwise read and stepped over. -/
def sizedField {α : Type} (c : Cursor) (size : Nat) (get : Parser α) : Parser (α × Cursor) :=
  if c.len < size then reject
  else do
    let v ← get
    let c' ← moveTo (c.advance 32 size)
    return (v, c')

/-- `ntb_proto_get_var_int`. -/
def getVarInt (c : Cursor) : Parser (Nat × Cursor) :=
  -- the length is copied to an `int`, which is negative from 2^31 on
  if 2 ^ 31 ≤ c.len then reject
  else do
    -- the tag is looked at before any check that there is a byte to look at
    let tag ← readByte c.pos
    if tag.toNat < 0xfd then sizedField c 1 (get8 c.pos)
    else if tag.toNat = 0xfd then sizedField c 3 (get16 (c.pos + 1))
    else if tag.toNat = 0xfe then sizedField c 5 (get32 (c.pos + 1))
    else sizedField c 9 (get64 (c.pos + 1))

/-- `ntb_proto_get_timestamp`: 32 bits, or 64 bits when the first 32 are zero. -/
def getTimestamp (c : Cursor) : Parser (Nat × Cursor) := do
  let (t, c') ← sizedField c 4 (get32 c.pos)
  if t = 0 then sizedField c' 4 (get32 c'.pos)
  else return (t, c')

structure VarStr where
  length : Nat
  data : Nat
  deriving DecidableEq, Repr

/-- `ntb_proto_get_var_str`. -/
def getVarStr (c : Cursor) : Parser (VarStr × Cursor) := do
  let (length, c') ← getVarInt c
  if c'.len < length then reject
  else
    let c'' ← moveTo (c'.advance 32 length)
    return ({ length, data := c'.pos }, c'')

structure VarIntList where
  nInts : Nat
  values : Nat
  deriving DecidableEq, Repr

/-- The loop of `ntb_proto_get_var_int_list`: `n` var_ints are stepped over. -/
def skipVarInts : Nat → Cursor → Parser Cursor
  | 0, c => pure c
  | n + 1, c => do
    let (_, c') ← getVarInt c
    skipVarInts n c'

/-- `ntb_proto_get_var_int_list`. -/
def getVarIntList (c : Cursor) : Parser (VarIntList × Cursor) := do
  let (nInts, c') ← getVarInt c
  let c'' ← skipVarInts nInts c'
  return ({ nInts, values := c'.pos }, c'')

structure Netaddress where
  host : List UInt8
  port : Nat
  deriving DecidableEq, Repr

def getNetaddress (p : Nat) : Parser Netaddress := do
  let host ← readBytes p 16
  let port ← get16 (p + 16)
  return { host, port }

/-! ## 2. Writers

A buffer is the byte string `data[0 .. length)`; what a writer appends is the function below. -/

abbrev Buffer := List UInt8

def add8 (value : Nat) : Buffer := toBE 1 value

def add16 (value : Nat) : Buffer := toBE 2 value

def add32 (value : Nat) : Buffer := toBE 4 value

def add64 (value : Nat) : Buffer := toBE 8 value

/-- `ntb_buffer_set_length` on a buffer that grows: what the new bytes are is up to the memory the
buffer lives in. -/
def setLength (fill : Memory) (buffer : Buffer) (length : Nat) : Buffer :=
  buffer ++ window fill buffer.length (length - buffer.length)

/-- A value of the C type `int`. -/
structure CInt where
  val : Int
  lower : -(2 ^ 31) ≤ val
  upper : val < 2 ^ 31

def CInt.one : CInt := ⟨1, by decide, by decide⟩

/-- The value an `int` or `int64_t` takes when it is passed as a `uint64_t`. -/
def toUInt64 (value : Int) : Nat := (value % 2 ^ 64).toNat

theorem toUInt64_lt (value : Int) : toUInt64 value < 2 ^ 64 := by
  unfold toUInt64
  omega

/-- `ntb_proto_add_var_int`. -/
def addVarInt (value : Nat) : Buffer :=
  if value < 0xfd then add8 value
  else if value ≤ 0xffff then add8 0xfd ++ add16 value
  else if value ≤ 0xffffffff then add8 0xfe ++ add32 value
  else add8 0xff ++ add64 value

def addNetaddress (address : Netaddress) : Buffer :=
  address.host ++ add16 address.port

/-! ## 3. What a successful reader has consumed -/

/-- `c'` is `c` after some of the bytes that were left. -/
def Consumed (c c' : Cursor) : Prop :=
  c.pos ≤ c'.pos ∧ c'.pos + c'.len = c.pos + c.len

section Consumption

variable {α : Type} {mem : Memory} {c c' : Cursor}

theorem consumed_advance {n : Nat} (hn : n ≤ c.len) (hc : c.len < 2 ^ 32) :
    Consumed c (c.advance 32 n) := by
  rw [Cursor.advance_of_le hn hc]
  exact ⟨Nat.le_add_right _ _, by simp only [Cursor.skip]; omega⟩

theorem sizedField_ok {size : Nat} {get : Parser α} {v : α}
    (h : (sizedField c size get).value mem = .ok (v, c')) :
    size ≤ c.len ∧ get.value mem = .ok v ∧ c' = c.advance 32 size := by
  unfold sizedField at h
  split at h
  next => simp at h
  next hlen =>
    obtain ⟨v', hv, h⟩ := value_bind_eq_ok.mp h
    simp only [value_bind_of_ok (value_moveTo _ _), value_pure, Except.ok.injEq,
      Prod.mk.injEq] at h
    exact ⟨by omega, by rw [hv, h.1], h.2.symm⟩

theorem get8_ok {p v : Nat} (h : (get8 p).value mem = .ok v) : v = (mem p).toNat := by
  simpa [get8, value_bind, Except.bind, eq_comm] using h

theorem get16_value (p : Nat) : (get16 p).value mem = .ok (ofBE (window mem p 2)) := rfl

theorem get32_value (p : Nat) : (get32 p).value mem = .ok (ofBE (window mem p 4)) := rfl

theorem get64_value (p : Nat) : (get64 p).value mem = .ok (ofBE (window mem p 8)) := rfl

theorem ofBE_window_lt (mem : Memory) (p n : Nat) : ofBE (window mem p n) < 256 ^ n := by
  simpa using ofBE_lt (window mem p n)

/-- A var_int that is read fits 64 bits and takes at least one and at most nine of the bytes that
were left. -/
theorem getVarInt_ok {v : Nat} (h : (getVarInt c).value mem = .ok (v, c')) :
    v < 2 ^ 64 ∧ c.len < 2 ^ 31 ∧ ∃ n, 1 ≤ n ∧ n ≤ 9 ∧ n ≤ c.len ∧ c' = c.advance 32 n := by
  unfold getVarInt at h
  split at h
  next => simp at h
  next hlen =>
    have hshort : c.len < 2 ^ 31 := Nat.lt_of_not_le hlen
    rw [value_bind_of_ok (value_readByte _ _)] at h
    split at h
    next =>
      obtain ⟨hn, hv, hc⟩ := sizedField_ok h
      have hb := (mem c.pos).toNat_lt
      rw [get8_ok hv]
      exact ⟨by omega, hshort, 1, by omega, by omega, hn, hc⟩
    next =>
      split at h
      next =>
        obtain ⟨hn, hv, hc⟩ := sizedField_ok h
        rw [get16_value, Except.ok.injEq] at hv
        have hlt := ofBE_window_lt mem (c.pos + 1) 2
        exact ⟨by omega, hshort, 3, by omega, by omega, hn, hc⟩
      next =>
        split at h
        next =>
          obtain ⟨hn, hv, hc⟩ := sizedField_ok h
          rw [get32_value, Except.ok.injEq] at hv
          have hlt := ofBE_window_lt mem (c.pos + 1) 4
          exact ⟨by omega, hshort, 5, by omega, by omega, hn, hc⟩
        next =>
          obtain ⟨hn, hv, hc⟩ := sizedField_ok h
          rw [get64_value, Except.ok.injEq] at hv
          have hlt := ofBE_window_lt mem (c.pos + 1) 8
          exact ⟨by omega, hshort, 9, by omega, by omega, hn, hc⟩

theorem getVarInt_consumed {v : Nat} (h : (getVarInt c).value mem = .ok (v, c')) :
    Consumed c c' := by
  obtain ⟨-, hshort, n, -, -, hn, rfl⟩ := getVarInt_ok h
  exact consumed_advance hn (by omega)

end Consumption

/-! ## 4. Reading back what was written -/

theorem length_addVarInt_pos (v : Nat) : 1 ≤ (addVarInt v).length := by
  unfold addVarInt add8
  split_ifs <;> simp

theorem length_addVarInt_le (v : Nat) : (addVarInt v).length ≤ 9 := by
  unfold addVarInt add8 add16 add32 add64
  split_ifs <;> simp

-- A value below 0xfd takes one byte.
theorem addVarInt_of_lt {v : Nat} (hv : v < 0xfd) : addVarInt v = [UInt8.ofNat v] := by
  simp [addVarInt, hv, add8, toBE]

section RoundTrip

variable {α : Type} {mem : Memory} {c : Cursor} {v : Nat}

theorem sizedField_value {size : Nat} {get : Parser α} {a : α} (hsize : size ≤ c.len)
    (hc : c.len < 2 ^ 32) (hget : get.value mem = .ok a) :
    (sizedField c size get).value mem = .ok (a, c.skip size) := by
  rw [sizedField, if_neg (by omega), value_bind_of_ok hget,
    value_bind_of_ok (value_moveTo _ _), Cursor.advance_of_le hsize hc, value_pure]

-- A sized field is read back when its bytes determine what `get` returns.
theorem reads_sizedField {get : Nat → Parser α} {bs : List UInt8} {a : α}
    (hget : ∀ mem p, Holds mem p bs → (get p).value mem = .ok a) :
    Reads (2 ^ 32) (fun c => sizedField c bs.length (get c.pos)) bs a := by
  intro mem c hmem hlen hc
  exact sizedField_value hlen hc (hget mem c.pos hmem)

-- A fixed-width number that is stored is read as itself.
theorem ofBE_window_toBE {p w : Nat} (h : Holds mem p (toBE w v)) (hv : v < 256 ^ w) :
    ofBE (window mem p w) = v := by
  rw [h.window_eq (length_toBE w v), ofBE_toBE_of_lt hv]

theorem reads_get32 (hv : v < 2 ^ 32) :
    Reads (2 ^ 32) (fun c => sizedField c 4 (get32 c.pos)) (add32 v) v := by
  have hget : ∀ mem p, Holds mem p (add32 v) → (get32 p).value mem = .ok v := by
    intro mem p hmem
    rw [get32_value, ofBE_window_toBE hmem (by omega)]
  simpa [add32] using reads_sizedField hget

-- Eight bytes hold a number modulo 2^64.
theorem reads_get64 (v : Nat) :
    Reads (2 ^ 32) (fun c => sizedField c 8 (get64 c.pos)) (add64 v) (v % 2 ^ 64) := by
  have hget : ∀ mem p, Holds mem p (add64 v) → (get64 p).value mem = .ok (v % 2 ^ 64) := by
    intro mem p hmem
    rw [get64_value, hmem.window_eq (length_toBE 8 v), add64, ofBE_toBE,
      show 256 ^ 8 = 2 ^ 64 by norm_num]
  simpa [add64] using reads_sizedField hget

-- The branch `getVarInt` takes for a tag of 0xfd or more.
theorem getVarInt_tagged {tag : UInt8} {w : Nat} (hlen : w + 1 ≤ c.len) (hc : c.len < 2 ^ 31)
    (htag : tag.toNat = 0xfd ∧ w = 2 ∨ tag.toNat = 0xfe ∧ w = 4 ∨ tag.toNat = 0xff ∧ w = 8)
    (h : Holds mem c.pos (tag :: toBE w v)) (hv : v < 256 ^ w) :
    (getVarInt c).value mem = .ok (v, c.skip (w + 1)) := by
  obtain ⟨hfirst, hrest⟩ := (holds_cons _ _ _ _).mp h
  have hnum := ofBE_window_toBE hrest hv
  rw [getVarInt, if_neg (by omega), value_bind_of_ok (value_readByte _ _), hfirst]
  rcases htag with ⟨ht, rfl⟩ | ⟨ht, rfl⟩ | ⟨ht, rfl⟩
  · rw [if_neg (by omega), if_pos ht]
    exact sizedField_value hlen (by omega) (by rw [get16_value, hnum])
  · rw [if_neg (by omega), if_neg (by omega), if_pos ht]
    exact sizedField_value hlen (by omega) (by rw [get32_value, hnum])
  · rw [if_neg (by omega), if_neg (by omega), if_neg (by omega)]
    exact sizedField_value hlen (by omega) (by rw [get64_value, hnum])

-- A value of 0xfd or more is written as a tag and a number wide enough for it.
theorem addVarInt_tagged (hbig : ¬ v < 0xfd) (hv : v < 2 ^ 64) :
    ∃ tag w, addVarInt v = tag :: toBE w v ∧ v < 256 ^ w ∧
      (tag.toNat = 0xfd ∧ w = 2 ∨ tag.toNat = 0xfe ∧ w = 4 ∨ tag.toNat = 0xff ∧ w = 8) := by
  unfold addVarInt add8 add16 add32 add64
  rw [if_neg hbig]
  split_ifs
  · exact ⟨0xfd, 2, by simp [toBE], by omega, by decide⟩
  · exact ⟨0xfe, 4, by simp [toBE], by omega, by decide⟩
  · exact ⟨0xff, 8, by simp [toBE], by omega, by decide⟩

-- Every 64-bit value is read back from its var_int, and exactly its bytes are consumed.
theorem reads_getVarInt (hv : v < 2 ^ 64) : Reads (2 ^ 31) getVarInt (addVarInt v) v := by
  intro mem c h hlen hc
  by_cases hsmall : v < 0xfd
  · rw [addVarInt_of_lt hsmall] at h hlen ⊢
    have hfirst : mem c.pos = UInt8.ofNat v := ((holds_cons _ _ _ _).mp h).1
    have hbyte : (mem c.pos).toNat = v := by
      rw [hfirst]
      simp only [UInt8.toNat_ofNat']
      omega
    rw [getVarInt, if_neg (by omega), value_bind_of_ok (value_readByte _ _),
      if_pos (by omega)]
    exact sizedField_value hlen (by omega)
      (by rw [get8, value_bind_of_ok (value_readByte _ _), value_pure, hbyte])
  · obtain ⟨tag, w, heq, hw, htag⟩ := addVarInt_tagged hsmall hv
    rw [heq] at h hlen ⊢
    simp only [List.length_cons, length_toBE] at hlen ⊢
    exact getVarInt_tagged hlen hc htag h hw

-- A 64-bit timestamp whose high half is zero is read back in full.
theorem reads_getTimestamp (hv : v < 2 ^ 32) : Reads (2 ^ 32) getTimestamp (add64 v) v := by
  have hsplit : add64 v = add32 0 ++ add32 v := by
    rw [add64, toBE_add 4 4 v, Nat.div_eq_of_lt (by omega)]
    rfl
  rw [hsplit]
  exact Reads.bind (reads_get32 (by omega)) (reads_get32 hv)

-- Thirty-two bits that are not zero are a timestamp of their own.
theorem reads_getTimestamp_short (hpos : v ≠ 0) (hv : v < 2 ^ 32) :
    Reads (2 ^ 32) getTimestamp (add32 v) v := by
  intro mem c hmem hlen hc
  rw [getTimestamp, value_bind_of_ok (reads_get32 hv mem c hmem hlen hc)]
  dsimp only
  rw [if_neg hpos, value_pure]

end RoundTrip

/-! ## 5. Nothing behind the input matters

The tag of a var_int is looked at even when no byte is left, but then every width is too long. -/

section Locality

variable {α : Type} {mem : Memory} {c c' : Cursor}

theorem Consumed.trans {c'' : Cursor} (h : Consumed c c') (h' : Consumed c' c'') :
    Consumed c c'' := by
  unfold Consumed at *
  omega

theorem Consumed.len_le (h : Consumed c c') : c'.len ≤ c.len := by
  unfold Consumed at h
  omega

theorem Consumed.local {x : Parser α} (h : Consumed c c')
    (hx : Local c'.pos (c'.pos + c'.len) x) : Local c.pos (c.pos + c.len) x := by
  unfold Consumed at h
  exact hx.mono (by omega) (by omega)

theorem sizedField_consumed {size : Nat} {get : Parser α} {v : α} (hc : c.len < 2 ^ 32)
    (h : (sizedField c size get).value mem = .ok (v, c')) : Consumed c c' := by
  obtain ⟨hsize, -, rfl⟩ := sizedField_ok h
  exact consumed_advance hsize hc

theorem local_sizedField {lo hi size : Nat} {get : Parser α}
    (hget : size ≤ c.len → Local lo hi get) : Local lo hi (sizedField c size get) := by
  unfold sizedField
  split
  next => exact local_reject
  next hlen =>
    apply (hget (by omega)).bind
    intro mem v _
    exact (local_moveTo _).bind fun _ _ _ => local_pure _

theorem local_get8 {lo hi p : Nat} (hlo : lo ≤ p) (hhi : p < hi) : Local lo hi (get8 p) :=
  (local_readByte hlo hhi).bind fun _ _ _ => local_pure _

-- A number made of the bytes at an address.
theorem local_ofBE {lo hi p n : Nat} (hlo : lo ≤ p) (hhi : p + n ≤ hi) :
    Local lo hi (readBytes p n >>= fun bs => pure (ofBE bs)) :=
  (local_readBytes hlo hhi).bind fun _ _ _ => local_pure _

theorem local_getVarInt (c : Cursor) : Local c.pos (c.pos + c.len) (getVarInt c) := by
  unfold getVarInt
  split
  next => exact local_reject
  next hlen =>
    by_cases hempty : c.len = 0
    · -- nothing is left: whatever the tag is, the field does not fit
      intro mem mem' _
      have hreject : ∀ mem : Memory, (readByte c.pos >>= fun tag =>
          if tag.toNat < 0xfd then sizedField c 1 (get8 c.pos)
          else if tag.toNat = 0xfd then sizedField c 3 (get16 (c.pos + 1))
          else if tag.toNat = 0xfe then sizedField c 5 (get32 (c.pos + 1))
          else sizedField c 9 (get64 (c.pos + 1))).value mem = .error .reject := by
        intro mem
        rw [value_bind_of_ok (value_readByte _ _)]
        unfold sizedField
        rw [if_pos (show c.len < 1 by omega), if_pos (show c.len < 3 by omega),
          if_pos (show c.len < 5 by omega), if_pos (show c.len < 9 by omega)]
        split_ifs <;> rfl
      rw [hreject mem, hreject mem']
    · apply (local_readByte (le_refl _) (by omega)).bind
      intro mem tag _
      split_ifs
      · exact local_sizedField fun _ => local_get8 (le_refl _) (by omega)
      · exact local_sizedField fun _ => local_ofBE (by omega) (by omega)
      · exact local_sizedField fun _ => local_ofBE (by omega) (by omega)
      · exact local_sizedField fun _ => local_ofBE (by omega) (by omega)

theorem getTimestamp_consumed {t : Nat} (hc : c.len < 2 ^ 32)
    (h : (getTimestamp c).value mem = .ok (t, c')) : Consumed c c' := by
  obtain ⟨⟨high, c₁⟩, hhigh, hrest⟩ := value_bind_eq_ok.mp h
  have hfirst := sizedField_consumed hc hhigh
  have hlen := hfirst.len_le
  simp only at hrest
  split at hrest
  · exact hfirst.trans (sizedField_consumed (by omega) hrest)
  · cases hrest
    exact hfirst

theorem local_getTimestamp (hc : c.len < 2 ^ 32) :
    Local c.pos (c.pos + c.len) (getTimestamp c) := by
  have hfield : ∀ c : Cursor, Local c.pos (c.pos + c.len) (sizedField c 4 (get32 c.pos)) :=
    fun c => local_sizedField fun _ => local_ofBE (le_refl _) (by omega)
  apply (hfield c).bind
  rintro mem ⟨high, c₁⟩ hhigh
  dsimp only
  split_ifs
  · exact (sizedField_consumed hc hhigh).local (hfield c₁)
  · exact local_pure _

theorem getVarStr_consumed {s : VarStr} (h : (getVarStr c).value mem = .ok (s, c')) :
    Consumed c c' := by
  obtain ⟨⟨length, c₁⟩, hlength, hrest⟩ := value_bind_eq_ok.mp h
  have hfirst := getVarInt_consumed hlength
  have hlen := hfirst.len_le
  obtain ⟨-, hshort, -⟩ := getVarInt_ok hlength
  simp only at hrest
  split at hrest
  next => cases hrest
  next hfits =>
    cases hrest
    exact hfirst.trans (consumed_advance (by omega) (by omega))

theorem local_getVarStr (c : Cursor) : Local c.pos (c.pos + c.len) (getVarStr c) := by
  apply (local_getVarInt c).bind
  rintro mem ⟨length, c₁⟩ _
  dsimp only
  split_ifs
  · exact local_reject
  · exact (local_moveTo _).bind fun _ _ _ => local_pure _

theorem skipVarInts_consumed {n : Nat} (h : (skipVarInts n c).value mem = .ok c') :
    Consumed c c' := by
  induction n generalizing c with
  | zero =>
    cases h
    exact ⟨le_refl _, rfl⟩
  | succ n ih =>
    obtain ⟨⟨v, c₁⟩, hv, hrest⟩ := value_bind_eq_ok.mp h
    exact (getVarInt_consumed hv).trans (ih hrest)

theorem local_skipVarInts (n : Nat) (c : Cursor) :
    Local c.pos (c.pos + c.len) (skipVarInts n c) := by
  induction n generalizing c with
  | zero => exact local_pure _
  | succ n ih =>
    apply (local_getVarInt c).bind
    rintro mem ⟨v, c₁⟩ hv
    exact (getVarInt_consumed hv).local (ih c₁)

theorem getVarIntList_consumed {l : VarIntList} (h : (getVarIntList c).value mem = .ok (l, c')) :
    Consumed c c' := by
  obtain ⟨⟨n, c₁⟩, hn, hrest⟩ := value_bind_eq_ok.mp h
  obtain ⟨c₂, hskip, heq⟩ := value_bind_eq_ok.mp hrest
  cases heq
  exact (getVarInt_consumed hn).trans (skipVarInts_consumed hskip)

theorem local_getVarIntList (c : Cursor) : Local c.pos (c.pos + c.len) (getVarIntList c) := by
  apply (local_getVarInt c).bind
  rintro mem ⟨n, c₁⟩ hn
  apply ((getVarInt_consumed hn).local (local_skipVarInts n c₁)).bind
  intro _ _ _
  exact local_pure _

theorem local_getNetaddress {lo hi p : Nat} (hlo : lo ≤ p) (hhi : p + 18 ≤ hi) :
    Local lo hi (getNetaddress p) := by
  apply (local_readBytes hlo (by omega)).bind
  intro _ host _
  apply (local_ofBE (by omega) (by omega)).bind
  intro _ _ _
  exact local_pure _

end Locality

section NoAbort

variable {α : Type} {mem : Memory}

theorem noAbort_sizedField {size : Nat} {get : Parser α} (c : Cursor) (hget : get.NoAbort mem) :
    (sizedField c size get).NoAbort mem := by
  unfold sizedField
  split
  next => exact noAbort_reject
  next => exact hget.bind fun _ _ => (noAbort_moveTo _).bind fun _ _ => noAbort_pure _

theorem noAbort_get8 (p : Nat) : (get8 p).NoAbort mem :=
  (noAbort_readByte p).bind fun _ _ => noAbort_pure _

theorem noAbort_ofBE (p n : Nat) :
    (readBytes p n >>= fun bs => pure (ofBE bs) : Parser Nat).NoAbort mem :=
  (noAbort_readBytes p n).bind fun _ _ => noAbort_pure _

theorem noAbort_getVarInt (c : Cursor) : (getVarInt c).NoAbort mem := by
  unfold getVarInt
  split
  next => exact noAbort_reject
  next =>
    refine (noAbort_readByte _).bind fun tag _ => ?_
    split_ifs
    · exact noAbort_sizedField c (noAbort_get8 _)
    · exact noAbort_sizedField c (noAbort_ofBE _ _)
    · exact noAbort_sizedField c (noAbort_ofBE _ _)
    · exact noAbort_sizedField c (noAbort_ofBE _ _)

theorem noAbort_getTimestamp (c : Cursor) : (getTimestamp c).NoAbort mem := by
  refine (noAbort_sizedField c (noAbort_ofBE _ _)).bind fun r _ => ?_
  dsimp only
  split_ifs
  · exact noAbort_sizedField _ (noAbort_ofBE _ _)
  · exact noAbort_pure _

end NoAbort

end Notbit.Proto
