import Notbit.Buffer
import Notbit.Ecc.Encrypt

/-!
# Stream — encryption into a growing buffer and back (`ntb-ecc.c`)

The ciphertext is written piece by piece behind what the buffer holds, and the MAC covers what
stands behind the offset that was noted at the beginning.  `Follows` relates the buffer to the
byte string of `Encryption`.  The lengths of the calls to the cipher are of type `int`, on both
sides: that is the only limit of the round trip.
-/

open Bytes Traced Traced.Parser Notbit.Proto

namespace Notbit

/-- What the documentation of the cipher calls promises of their pieces: a plaintext can be fed in
any pieces, and every call writes at most a block more than it was given. -/
structure OpenSSL.Streams (ssl : OpenSSL) : Prop where
  encryptUpdate_append : ∀ key iv fed new more, ssl.encryptUpdate key iv fed (new ++ more) =
    ssl.encryptUpdate key iv fed new ++ ssl.encryptUpdate key iv (fed ++ new) more
  length_encryptUpdate : ∀ key iv fed new,
    (ssl.encryptUpdate key iv fed new).length ≤ new.length + 16
  length_encryptFinal : ∀ key iv fed, (ssl.encryptFinal key iv fed).length ≤ 16
  length_decryptUpdate : ∀ key iv ciphertext out,
    ssl.decryptUpdate key iv ciphertext = some out → out.length ≤ ciphertext.length + 16
  length_decryptFinal : ∀ key iv ciphertext last,
    ssl.decryptFinal key iv ciphertext = some last → last.length ≤ 16

theorem OpenSSL.additive_streams : OpenSSL.additive.Streams where
  encryptUpdate_append _ _ _ _ _ := rfl
  length_encryptUpdate _ _ _ _ := Nat.le_add_right _ _
  length_encryptFinal _ _ _ := Nat.zero_le _
  length_decryptUpdate _ _ _ _ h := by
    cases h
    exact Nat.le_add_right _ _
  length_decryptFinal _ _ _ _ h := by
    cases h
    exact Nat.zero_le _

namespace Ecc

/-- `EVP_CIPHER_block_size (EVP_aes_256_cbc ())` -/
def blockSize : Nat := 16

/-- The value a `size_t` takes as an `int`. -/
def toInt (n : Nat) : Int := ((n : Int) + 2 ^ 31) % 2 ^ 32 - 2 ^ 31

theorem toInt_of_lt {n : Nat} (h : n < 2 ^ 31) : toInt n = n := by
  rw [toInt, Int.emod_eq_of_lt (by omega) (by omega)]
  omega

/-! ## 1. Encryption -/

/-- The fields of `struct ntb_ecc` that are used between `begin` and `end`, with the state of its
cipher context: the IV and what was fed in. -/
structure Context where
  ecdhKeybuffer : List UInt8
  iv : List UInt8
  fed : List UInt8
  ciphertextOffset : Nat

variable (ssl : OpenSSL) (fill : Memory)

/-- `encode_bignumber` -/
def encodeBignumberInto (bn : Nat) (dataOut : ByteBuffer) : Option ByteBuffer := do
  let dataOut ← dataOut.append fill (add16 (numBytes bn))
  let dataOut ← dataOut.ensureSize fill (dataOut.length + numBytes bn)
  dataOut.write (toBE (numBytes bn) bn)

/-- `encode_pubkey` -/
def encodePubkeyInto (publicKey : ssl.Point) (dataOut : ByteBuffer) : Option ByteBuffer := do
  let xy := ssl.affineCoordinates publicKey
  let dataOut ← dataOut.append fill (add16 nidSecp256k1)
  let dataOut ← encodeBignumberInto fill xy.1 dataOut
  encodeBignumberInto fill xy.2 dataOut

/-- `ntb_ecc_encrypt_with_point_begin`; the ephemeral key and the IV are random.  The cipher gets
the IV from the buffer, after the key was written. -/
def encryptWithPointBeginInto (ephemeral : ssl.Key) (iv : List UInt8) (publicKey : ssl.Point)
    (dataOut : ByteBuffer) : Option (Context × ByteBuffer) := do
  let ivOffset := dataOut.length
  let dataOut ← dataOut.ensureSize fill (ivOffset + ivLength)
  let dataOut ← dataOut.write iv
  let dataOut ← encodePubkeyInto ssl fill (ssl.publicKey ephemeral) dataOut
  return (
    { ecdhKeybuffer := ssl.ecdh publicKey ephemeral
      iv := (dataOut.data.drop ivOffset).take ivLength
      fed := []
      ciphertextOffset := dataOut.length }, dataOut)

/-- `ntb_ecc_encrypt_update`.  The reserved length and the length the cipher gets are `int`s; the
cipher refuses a negative one, which fails the assertion. -/
def encryptUpdateInto (s : Context × ByteBuffer) (data : List UInt8) :
    Option (Context × ByteBuffer) := do
  let outLength := toInt (data.length + blockSize)
  let dataOut ← s.2.ensureSize fill (toUInt64 (s.2.length + outLength))
  let inLength := toInt data.length
  if inLength < 0 then none
  else
    let data := data.take inLength.toNat
    let dataOut ← dataOut.write
      (ssl.encryptUpdate (s.1.ecdhKeybuffer.take 32) s.1.iv s.1.fed data)
    return ({ s.1 with fed := s.1.fed ++ data }, dataOut)

/-- `ntb_ecc_encrypt_end` -/
def encryptEndInto (s : Context × ByteBuffer) : Option ByteBuffer := do
  let dataOut ← s.2.ensureSize fill (s.2.length + blockSize)
  let dataOut ← dataOut.write (ssl.encryptFinal (s.1.ecdhKeybuffer.take 32) s.1.iv s.1.fed)
  let dataOut ← dataOut.ensureSize fill (dataOut.length + macLength)
  let authenticated := dataOut.used.drop s.1.ciphertextOffset
  dataOut.write (ssl.hmac (s.1.ecdhKeybuffer.drop 32) authenticated)

/-- A plaintext in pieces: `begin`, an update for each piece and `end`. -/
def encryptInto (ephemeral : ssl.Key) (iv : List UInt8) (publicKey : ssl.Point)
    (pieces : List (List UInt8)) (dataOut : ByteBuffer) : Option ByteBuffer := do
  let s ← encryptWithPointBeginInto ssl fill ephemeral iv publicKey dataOut
  let s ← pieces.foldlM (encryptUpdateInto ssl fill) s
  encryptEndInto ssl fill s

/-! ## 2. Decryption -/

/-- A step that does not return, or that writes outside the buffer. -/
def orAbort {α : Type} : Option α → Parser α
  | some a => pure a
  | none => stop .abort

theorem value_orAbort {α : Type} (a : α) (mem : Memory) : (orAbort (some a)).value mem = .ok a :=
  rfl

/-- The part of `ntb_ecc_decrypt` after the MAC was checked: `ecdhKey` is the derived key, and the
ciphertext has `cipherLength` bytes at `p`. -/
def decipherInto (ecdhKey : List UInt8) (iv p cipherLength : Nat) (dataOut : ByteBuffer) :
    Parser ByteBuffer := do
  let ivBytes ← readBytes iv ivLength
  let outLength := toInt (cipherLength + blockSize)
  let dataOut ← orAbort (dataOut.ensureSize fill (toUInt64 (dataOut.length + outLength)))
  let inLength := toInt cipherLength
  if inLength < 0 then reject
  else
    let ciphertext ← readBytes p inLength.toNat
    match ssl.decryptUpdate (ecdhKey.take 32) ivBytes ciphertext with
    | none => reject
    | some out =>
      let dataOut ← orAbort (dataOut.write out)
      let dataOut ← orAbort (dataOut.ensureSize fill (dataOut.length + blockSize))
      match ssl.decryptFinal (ecdhKey.take 32) ivBytes ciphertext with
      | none => reject
      | some last => orAbort (dataOut.write last)

/-- The part of `ntb_ecc_decrypt` after the ephemeral key. -/
def decryptBodyInto (key : ssl.Key) (iv : Nat) (point : ssl.Point) (c : Cursor)
    (dataOut : ByteBuffer) : Parser ByteBuffer := do
  let ecdhKey := ssl.ecdh point key
  assert (ecdhKey.length == ecdhKeyLength)
  if c.len < macLength then reject
  else
    let cipherLength := c.len - macLength
    let hashed ← readBytes c.pos cipherLength
    let computed := ssl.hmac (ecdhKey.drop 32) hashed
    assert (computed.length == macLength)
    let mac ← readBytes ((c.pos + c.len - macLength) % 2 ^ 64) macLength
    if computed ≠ mac then reject
    else decipherInto ssl fill ecdhKey iv c.pos cipherLength dataOut

/-- `ntb_ecc_decrypt`: the output buffer when it returns `true`. -/
def decryptInto (key : ssl.Key) (c : Cursor) (dataOut : ByteBuffer) : Parser ByteBuffer :=
  if c.len < ivLength then reject
  else do
    let c' ← moveTo (c.advance 64 ivLength)
    let (point, c'') ← decodePubKey ssl c'
    decryptBodyInto ssl fill key c.pos point c'' dataOut

/-! ## 3. The buffer follows the byte string -/

variable {ssl} {fill}

open ByteBuffer in
theorem appends_encodeBignumber {bn : Nat} (limit : Nat) (hbn : bn < 256 ^ 32)
    (hlimit : limit + 34 ≤ 2 ^ 63) :
    Appends limit (encodeBignumberInto fill bn) (encodeBignumber bn) := by
  have hbytes := numBytes_le hbn
  have hnumber : Appends (limit + 2)
      (fun b => b.ensureSize fill (b.length + numBytes bn) >>= (·.write (toBE (numBytes bn) bn)))
      (toBE (numBytes bn) bn) := by
    refine appends_write fill fun b hb => ?_
    rw [length_toBE]
    exact ⟨le_rfl, by omega⟩
  refine (appends_append fill ?_).bind hnumber ?_
  · rw [add16, length_toBE]
    omega
  · rw [add16, length_toBE]

theorem length_encodeBignumber_le {bn : Nat} (hbn : bn < 256 ^ 32) :
    (encodeBignumber bn).length ≤ 34 := by
  have hbytes := numBytes_le hbn
  rw [encodeBignumber, List.length_append, add16, length_toBE, length_toBE]
  omega

theorem length_encodePubkey_le (hssl : ssl.Lawful) (p : ssl.Point) :
    (encodePubkey ssl p).length ≤ 70 := by
  obtain ⟨hx, hy⟩ := hssl.coordinates_lt p
  have h₁ := length_encodeBignumber_le hx
  have h₂ := length_encodeBignumber_le hy
  simp only [encodePubkey, List.length_append, add16, length_toBE]
  omega

open ByteBuffer in
theorem appends_encodePubkey (hssl : ssl.Lawful) (fill : Memory) (p : ssl.Point) (limit : Nat)
    (hlimit : limit + 70 ≤ 2 ^ 63) :
    Appends limit (encodePubkeyInto ssl fill p) (encodePubkey ssl p) := by
  obtain ⟨hx, hy⟩ := hssl.coordinates_lt p
  have hlen := length_encodeBignumber_le hx
  have hcurve : (add16 nidSecp256k1).length = 2 := length_toBE 2 _
  rw [encodePubkey, List.append_assoc]
  refine (appends_append fill (by omega)).bind
    ((appends_encodeBignumber (limit + 2) hx (by omega)).bind
      (appends_encodeBignumber (limit + 36) hy (by omega)) (by omega)) (by omega)

/-- The buffer holds `base` and then what the encryption has written, and the rest of the state is
the same but for the offset. -/
structure Follows (base : List UInt8) (e : Encryption) (s : Context × ByteBuffer) : Prop where
  used : s.2.used = base ++ e.out
  ecdhKeybuffer : s.1.ecdhKeybuffer = e.ecdhKeybuffer
  iv : s.1.iv = e.iv
  fed : s.1.fed = e.fed
  ciphertextOffset : s.1.ciphertextOffset = base.length + e.ciphertextOffset

variable {base : List UInt8} {e : Encryption} {s : Context × ByteBuffer}

theorem Follows.length (h : Follows base e s) : s.2.length = base.length + e.out.length := by
  rw [← ByteBuffer.length_used, h.used, List.length_append]

-- Bytes in use are read from the block.
theorem block_window {b : ByteBuffer} {n k : Nat} (h : n + k ≤ b.length) :
    (b.data.drop n).take k = (b.used.drop n).take k := by
  rw [ByteBuffer.used, List.drop_take, List.take_take, Nat.min_eq_left (by omega)]

theorem encryptWithPointBeginInto_follows (hssl : ssl.Lawful) (fill : Memory) (ephemeral : ssl.Key)
    {iv : List UInt8} (hiv : iv.length = ivLength) (publicKey : ssl.Point) {dataOut : ByteBuffer}
    (hout : dataOut.length ≤ 2 ^ 62) :
    ∃ s, encryptWithPointBeginInto ssl fill ephemeral iv publicKey dataOut = some s ∧
      Follows dataOut.used (encryptWithPointBegin ssl ephemeral iv publicKey) s := by
  have hwrite : ByteBuffer.Appends (2 ^ 62)
      (fun b => b.ensureSize fill (b.length + ivLength) >>= (·.write iv)) iv :=
    ByteBuffer.appends_write fill fun b hb => ⟨by rw [hiv], by unfold ivLength; omega⟩
  obtain ⟨b₁, hb₁, hused₁⟩ := hwrite dataOut hout
  have hlen₁ := hwrite.length hout hb₁
  rw [hiv] at hlen₁
  obtain ⟨b₀, hb₀, hb₁⟩ := Option.bind_eq_some_iff.mp hb₁
  obtain ⟨b₂, hb₂, hused₂⟩ := appends_encodePubkey hssl fill (ssl.publicKey ephemeral)
    (2 ^ 62 + 16) (by norm_num) b₁ (by unfold ivLength at hlen₁; omega)
  have hlen₂ : b₂.length = b₁.length + (encodePubkey ssl (ssl.publicKey ephemeral)).length := by
    rw [← ByteBuffer.length_used, hused₂, List.length_append, ByteBuffer.length_used]
  simp only [encryptWithPointBeginInto, hb₀, hb₁, hb₂, Option.bind_eq_bind, Option.bind_some,
    Option.pure_def, Option.some.injEq]
  refine ⟨_, rfl, ?_, rfl, ?_, rfl, ?_⟩
  · simp only [encryptWithPointBegin]
    rw [hused₂, hused₁, List.append_assoc]
  · show (b₂.data.drop dataOut.length).take ivLength = iv
    rw [block_window (by omega), hused₂, hused₁, List.append_assoc, ← ByteBuffer.length_used,
      List.drop_left, ← hiv, List.take_left]
  · simp only [encryptWithPointBegin, List.length_append]
    rw [hlen₂, hlen₁, hiv, ByteBuffer.length_used, Nat.add_assoc]

-- The reserved length of an update is enough.
theorem reserved_eq (n : Nat) {m : Nat} (hm : m + blockSize < 2 ^ 31) (hn : n ≤ 2 ^ 63) :
    toUInt64 (n + toInt (m + blockSize)) = n + m + blockSize := by
  rw [toInt_of_lt hm, toUInt64]
  omega

theorem Follows.encryptUpdate (hstream : ssl.Streams) (h : Follows base e s) (fill : Memory)
    {data : List UInt8}     (hdata : data.length + blockSize < 2 ^ 31)
    (hroom : base.length + e.out.length + data.length + blockSize ≤ 2 ^ 63) :
    ∃ s', encryptUpdateInto ssl fill s data = some s' ∧
      Follows base (encryptUpdate ssl e data) s' := by
  have hlen := h.length
  have hbytes := hstream.length_encryptUpdate (s.1.ecdhKeybuffer.take 32) s.1.iv s.1.fed data
  have hin : toInt data.length = data.length := toInt_of_lt (by omega)
  have hsize := reserved_eq s.2.length hdata (by omega)
  obtain ⟨b₁, hb₁, hused₁, hlen₁, hblock⟩ := ByteBuffer.used_ensureSize s.2 fill
    (show s.2.length + data.length + blockSize ≤ 2 ^ 63 by omega)
  obtain ⟨b₂, hb₂, hused₂⟩ := ByteBuffer.used_write b₁
    (ssl.encryptUpdate (s.1.ecdhKeybuffer.take 32) s.1.iv s.1.fed data)
    (by unfold blockSize at hblock; omega)
  have hnonneg : ¬ (data.length : Int) < 0 := by omega
  simp only [encryptUpdateInto, hsize, hb₁, hin, if_neg hnonneg, Int.toNat_natCast,
    List.take_length, hb₂, Option.bind_eq_bind, Option.bind_some, Option.pure_def,
    Option.some.injEq]
  refine ⟨_, rfl, ?_, h.ecdhKeybuffer, h.iv, ?_, h.ciphertextOffset⟩
  · show b₂.used = base ++ (Ecc.encryptUpdate ssl e data).out
    rw [hused₂, hused₁, h.used, Ecc.encryptUpdate, h.ecdhKeybuffer, h.iv, h.fed, List.append_assoc]
  · show s.1.fed ++ data = e.fed ++ data
    rw [h.fed]

theorem Follows.encryptEnd (hstream : ssl.Streams) (h : Follows base e s) (fill : Memory)
    (hroom : base.length + e.out.length + 64 ≤ 2 ^ 63) :
    ∃ dataOut, encryptEndInto ssl fill s = some dataOut ∧
      dataOut.used = base ++ Ecc.encryptEnd ssl e := by
  have hlen := h.length
  have hfinal := hstream.length_encryptFinal (s.1.ecdhKeybuffer.take 32) s.1.iv s.1.fed
  obtain ⟨b₁, hb₁, hused₁, hlen₁, hblock₁⟩ := ByteBuffer.used_ensureSize s.2 fill
    (show s.2.length + blockSize ≤ 2 ^ 63 by unfold blockSize; omega)
  obtain ⟨b₂, hb₂, hused₂⟩ := ByteBuffer.used_write b₁
    (ssl.encryptFinal (s.1.ecdhKeybuffer.take 32) s.1.iv s.1.fed)
    (by unfold blockSize at hblock₁; omega)
  have hlen₂ : b₂.length = b₁.length +
      (ssl.encryptFinal (s.1.ecdhKeybuffer.take 32) s.1.iv s.1.fed).length := by
    rw [← ByteBuffer.length_used, hused₂, List.length_append, ByteBuffer.length_used]
  obtain ⟨b₃, hb₃, hused₃, hlen₃, hblock₃⟩ := ByteBuffer.used_ensureSize b₂ fill
    (show b₂.length + macLength ≤ 2 ^ 63 by unfold macLength; omega)
  have hciphertext : b₃.used.drop s.1.ciphertextOffset =
      (e.out ++ ssl.encryptFinal (e.ecdhKeybuffer.take 32) e.iv e.fed).drop e.ciphertextOffset := by
    rw [hused₃, hused₂, hused₁, h.used, h.ecdhKeybuffer, h.iv, h.fed, h.ciphertextOffset,
      List.append_assoc, ← List.drop_drop, List.drop_left]
  obtain ⟨b₄, hb₄, hused₄⟩ := ByteBuffer.used_write b₃
    (ssl.hmac (s.1.ecdhKeybuffer.drop 32) (b₃.used.drop s.1.ciphertextOffset))
    (by rw [ssl.length_hmac]; omega)
  simp only [encryptEndInto, hb₁, hb₂, hb₃, hb₄, Option.bind_eq_bind, Option.bind_some]
  refine ⟨b₄, rfl, ?_⟩
  rw [hused₄, hciphertext, hused₃, hused₂, hused₁, h.used, h.ecdhKeybuffer, h.iv, h.fed]
  simp only [Ecc.encryptEnd, List.append_assoc]

/-! ## 4. Whole runs -/

/-- What a run of updates makes of the byte string. -/
def encryptUpdates (ssl : OpenSSL) (e : Encryption) (pieces : List (List UInt8)) : Encryption :=
  pieces.foldl (Ecc.encryptUpdate ssl) e

-- Feeding in nothing writes nothing.
theorem encryptUpdate_nil (hstream : ssl.Streams) (key iv fed : List UInt8) :
    ssl.encryptUpdate key iv fed [] = [] := by
  have h := hstream.encryptUpdate_append key iv fed [] []
  rw [List.append_nil, List.append_nil] at h
  exact List.self_eq_append_left.mp h

-- The pieces a plaintext is fed in do not matter.
theorem encryptUpdates_eq (hstream : ssl.Streams) (e : Encryption) (pieces : List (List UInt8)) :
    encryptUpdates ssl e pieces = Ecc.encryptUpdate ssl e pieces.flatten := by
  induction pieces generalizing e with
  | nil =>
    simp only [encryptUpdates, Ecc.encryptUpdate, List.foldl_nil, List.flatten_nil,
      encryptUpdate_nil hstream, List.append_nil]
  | cons piece pieces ih =>
    rw [encryptUpdates, List.foldl_cons, ← encryptUpdates, ih]
    simp only [Ecc.encryptUpdate, List.flatten_cons, hstream.encryptUpdate_append,
      List.append_assoc]

/-- Everything behind the header is the ciphertext of what was fed in. -/
def Streaming (ssl : OpenSSL) (header : List UInt8) (e : Encryption) : Prop :=
  e.out = header ++ ssl.encryptUpdate (e.ecdhKeybuffer.take 32) e.iv [] e.fed

theorem Streaming.encryptUpdate (hstream : ssl.Streams) {header : List UInt8}
    (h : Streaming ssl header e) (data : List UInt8) :
    Streaming ssl header (Ecc.encryptUpdate ssl e data) := by
  rw [Streaming] at h ⊢
  simp only [Ecc.encryptUpdate, hstream.encryptUpdate_append, List.nil_append, h,
    List.append_assoc]

theorem Streaming.length_le (hstream : ssl.Streams) {header : List UInt8}
    (h : Streaming ssl header e) : e.out.length ≤ header.length + e.fed.length + 16 := by
  have hlen := hstream.length_encryptUpdate (e.ecdhKeybuffer.take 32) e.iv [] e.fed
  rw [h, List.length_append]
  omega

theorem Follows.encryptUpdates (hstream : ssl.Streams) (fill : Memory) {header : List UInt8}
    {pieces : List (List UInt8)} (h : Follows base e s) (hout : Streaming ssl header e)
    (hpieces : pieces.flatten.length + blockSize < 2 ^ 31)
    (hroom : base.length + header.length + e.fed.length + pieces.flatten.length + 32 ≤ 2 ^ 63) :
    ∃ s', pieces.foldlM (encryptUpdateInto ssl fill) s = some s' ∧
      Follows base (encryptUpdates ssl e pieces) s' := by
  induction pieces generalizing e s with
  | nil => exact ⟨s, rfl, h⟩
  | cons piece pieces ih =>
    rw [List.flatten_cons, List.length_append] at hpieces hroom
    have hlen := hout.length_le hstream
    obtain ⟨s₁, hs₁, h₁⟩ := @Follows.encryptUpdate _ _ _ _ hstream h fill piece (by omega)
      (by unfold blockSize; omega)
    have hfed : (Ecc.encryptUpdate ssl e piece).fed.length = e.fed.length + piece.length :=
      List.length_append
    obtain ⟨s₂, hs₂, h₂⟩ := ih h₁ (hout.encryptUpdate hstream piece) (by omega) (by omega)
    refine ⟨s₂, ?_, h₂⟩
    simp only [List.foldlM_cons, hs₁, Option.bind_eq_bind, Option.bind_some, hs₂]

/-- The pieces are encrypted behind what the buffer holds. -/
theorem encryptInto_used (hssl : ssl.Lawful) (hstream : ssl.Streams) (fill : Memory)
    (ephemeral : ssl.Key) {iv : List UInt8} (hiv : iv.length = ivLength) (publicKey : ssl.Point)
    {pieces : List (List UInt8)} {dataOut : ByteBuffer} (hout : dataOut.length ≤ 2 ^ 62)
    (hpieces : pieces.flatten.length + blockSize < 2 ^ 31) :
    ∃ dataOut', encryptInto ssl fill ephemeral iv publicKey pieces dataOut = some dataOut' ∧
      dataOut'.used = dataOut.used ++
        encryptWithPoint ssl ephemeral iv publicKey pieces.flatten := by
  have hkey := length_encodePubkey_le hssl (ssl.publicKey ephemeral)
  have hbase := ByteBuffer.length_used dataOut
  have hlimit : (2 : Nat) ^ 62 + 2 ^ 32 < 2 ^ 63 := by norm_num
  obtain ⟨s₁, hs₁, h₁⟩ := encryptWithPointBeginInto_follows hssl fill ephemeral hiv
    publicKey hout
  let header := iv ++ encodePubkey ssl (ssl.publicKey ephemeral)
  have hheader : header.length ≤ 86 := by
    rw [List.length_append, hiv]
    unfold ivLength
    omega
  have hbegin : Streaming ssl header (encryptWithPointBegin ssl ephemeral iv publicKey) := by
    simp only [Streaming, encryptWithPointBegin, encryptUpdate_nil hstream, List.append_nil, header]
  obtain ⟨s₂, hs₂, h₂⟩ := h₁.encryptUpdates hstream fill hbegin hpieces
    (by simp only [encryptWithPointBegin, List.length_nil]; omega)
  rw [encryptUpdates_eq hstream] at h₂
  have hlen := (hbegin.encryptUpdate hstream pieces.flatten).length_le hstream
  simp only [Ecc.encryptUpdate, encryptWithPointBegin, List.nil_append] at hlen
  obtain ⟨b, hb, hused⟩ := h₂.encryptEnd hstream fill (by
    simp only [Ecc.encryptUpdate, encryptWithPointBegin]
    omega)
  refine ⟨b, ?_, hused⟩
  simp only [encryptInto, hs₁, hs₂, hb, Option.bind_eq_bind, Option.bind_some]

variable {mem : Memory}

theorem decipherInto_used (hstream : ssl.Streams) {ecdhKey out last : List UInt8} {iv p n : Nat}
    {dataOut : ByteBuffer}
    (hupdate : ssl.decryptUpdate (ecdhKey.take 32) (window mem iv ivLength) (window mem p n) =
      some out)
    (hfinal : ssl.decryptFinal (ecdhKey.take 32) (window mem iv ivLength) (window mem p n) =
      some last)
    (hlen : n + blockSize < 2 ^ 31) (hout : dataOut.length ≤ 2 ^ 62) :
    ∃ dataOut', (decipherInto ssl fill ecdhKey iv p n dataOut).value mem = .ok dataOut' ∧
      dataOut'.used = dataOut.used ++ (out ++ last) := by
  have hlimit : (2 : Nat) ^ 62 + 2 ^ 32 < 2 ^ 63 := by norm_num
  have hin : toInt n = n := toInt_of_lt (by omega)
  have hnonneg : ¬ (n : Int) < 0 := by omega
  have houtlen := hstream.length_decryptUpdate _ _ _ _ hupdate
  rw [length_window] at houtlen
  have hlastlen := hstream.length_decryptFinal _ _ _ _ hfinal
  -- room for the first part, the first part, room for a block and the rest
  obtain ⟨b₁, hb₁, hused₁, hlen₁, hblock₁⟩ := ByteBuffer.used_ensureSize dataOut fill
    (show dataOut.length + n + blockSize ≤ 2 ^ 63 by omega)
  unfold blockSize at hblock₁
  obtain ⟨b₂, hb₂, hused₂⟩ := ByteBuffer.used_write b₁ out (by omega)
  have hlen₂ : b₂.length = b₁.length + out.length := by
    rw [← ByteBuffer.length_used, hused₂, List.length_append, ByteBuffer.length_used]
  obtain ⟨b₃, hb₃, hused₃, hlen₃, hblock₃⟩ := ByteBuffer.used_ensureSize b₂ fill
    (show b₂.length + blockSize ≤ 2 ^ 63 by unfold blockSize at hlen ⊢; omega)
  unfold blockSize at hblock₃
  obtain ⟨b₄, hb₄, hused₄⟩ := ByteBuffer.used_write b₃ last (by omega)
  refine ⟨b₄, ?_, by rw [hused₄, hused₃, hused₂, hused₁, List.append_assoc]⟩
  rw [decipherInto, value_bind_of_ok (value_readBytes _ _ _)]
  dsimp only
  rw [reserved_eq dataOut.length hlen (by omega), hb₁, value_bind_of_ok (value_orAbort _ _), hin,
    if_neg hnonneg, Int.toNat_natCast, value_bind_of_ok (value_readBytes _ _ _), hupdate]
  dsimp only
  rw [hb₂, value_bind_of_ok (value_orAbort _ _), hb₃, value_bind_of_ok (value_orAbort _ _), hfinal]
  dsimp only
  rw [hb₄, value_orAbort]

/-- The buffer of a successful decryption holds what `decrypt` returns, behind what was there. -/
theorem decryptBodyInto_used (hstream : ssl.Streams) {key : ssl.Key} {iv : Nat}
    {point : ssl.Point} {c : Cursor} {plaintext : List UInt8} {dataOut : ByteBuffer}
    (h : (decryptBody ssl key iv point c).value mem = .ok plaintext)
    (hlen : c.len - macLength + blockSize < 2 ^ 31) (hout : dataOut.length ≤ 2 ^ 62) :
    ∃ dataOut', (decryptBodyInto ssl fill key iv point c dataOut).value mem = .ok dataOut' ∧
      dataOut'.used = dataOut.used ++ plaintext := by
  unfold decryptBody at h
  unfold decryptBodyInto
  obtain ⟨⟨⟩, hassert, h⟩ := value_bind_eq_ok.mp h
  rw [value_bind_of_ok hassert]
  split at h
  next => cases h
  next hlong =>
    rw [if_neg hlong]
    rw [value_bind_of_ok (value_readBytes _ _ _)] at h ⊢
    obtain ⟨⟨⟩, hassert', h⟩ := value_bind_eq_ok.mp h
    rw [value_bind_of_ok hassert', value_bind_of_ok (value_readBytes _ _ _)]
    rw [value_bind_of_ok (value_readBytes _ _ _)] at h
    split at h
    next => cases h
    next hmac =>
      rw [if_neg hmac]
      rw [value_bind_of_ok (value_readBytes _ _ _), value_bind_of_ok (value_readBytes _ _ _)] at h
      split at h
      next => cases h
      next out hupdate =>
        split at h
        next => cases h
        next last hfinal =>
          cases h
          exact decipherInto_used hstream hupdate hfinal hlen hout

/-- What was encrypted in any pieces behind anything is decrypted with the private key behind
anything, wherever it is stored. -/
def RoundTrips (ssl : OpenSSL) (fill : Memory) (key ephemeral : ssl.Key) (iv : List UInt8)
    (pieces : List (List UInt8)) (dataOut plainOut : ByteBuffer) : Prop :=
  ∃ dataOut' bytes,
    encryptInto ssl fill ephemeral iv (ssl.publicKey key) pieces dataOut = some dataOut' ∧
    dataOut'.used = dataOut.used ++ bytes ∧
    ∀ (mem : Memory) (r : Region), Holds mem r.base bytes → bytes.length = r.size →
      ∃ plainOut', (decryptInto ssl fill key r.cursor plainOut).value mem = .ok plainOut' ∧
        plainOut'.used = plainOut.used ++ pieces.flatten

theorem encryptInto_roundTrips (hssl : ssl.Lawful) (hstream : ssl.Streams) (fill : Memory)
    (key ephemeral : ssl.Key) {iv : List UInt8} (hiv : iv.length = ivLength)
    {pieces : List (List UInt8)} {dataOut plainOut : ByteBuffer}
    (hpieces : pieces.flatten.length + 2 * blockSize < 2 ^ 31) (hout : dataOut.length ≤ 2 ^ 62)
    (hplain : plainOut.length ≤ 2 ^ 62) :
    RoundTrips ssl fill key ephemeral iv pieces dataOut plainOut := by
  obtain ⟨dataOut', hencrypt, hused⟩ := encryptInto_used hssl hstream fill ephemeral hiv
    (ssl.publicKey key) hout (show pieces.flatten.length + blockSize < 2 ^ 31 by omega)
  refine ⟨dataOut', _, hencrypt, hused, fun mem r hmem hsize => ?_⟩
  have hfits := r.fits
  have hdecrypt := decrypt_encryptWithPoint hssl hiv hmem hsize hfits
  have hkey := decodePubKey_encryptWithPoint hssl hiv hmem hsize hfits
  -- the ciphertext is at most a block longer than the plaintext
  have hcipher := hssl.length_ciphertext ((ssl.ecdh (ssl.publicKey key) ephemeral).take 32) iv
    pieces.flatten
  have hmac := ssl.length_hmac ((ssl.ecdh (ssl.publicKey key) ephemeral).drop 32)
    (ssl.encryptUpdate ((ssl.ecdh (ssl.publicKey key) ephemeral).take 32) iv [] pieces.flatten ++
      ssl.encryptFinal ((ssl.ecdh (ssl.publicKey key) ephemeral).take 32) iv pieces.flatten)
  have hlen := hsize
  rw [encryptWithPoint_eq] at hlen
  simp only [List.length_append] at hlen hcipher hmac
  rw [hmac, hiv] at hlen
  have hlong : ¬ r.cursor.len < ivLength := by
    show ¬ r.size < ivLength
    omega
  have hmove : r.cursor.advance 64 ivLength = r.cursor.skip ivLength :=
    Cursor.advance_of_le (Nat.not_lt.mp hlong) (show r.size < 2 ^ 64 by omega)
  change (decodePubKey ssl (r.cursor.skip ivLength)).value mem = .ok (ssl.publicKey ephemeral,
    r.cursor.skip (ivLength + (encodePubkey ssl (ssl.publicKey ephemeral)).length)) at hkey
  change (decrypt ssl key r.cursor).value mem = .ok pieces.flatten at hdecrypt
  rw [decrypt, if_neg hlong, hmove, value_bind_of_ok (value_moveTo _ _),
    value_bind_of_ok hkey] at hdecrypt
  rw [decryptInto, if_neg hlong, hmove, value_bind_of_ok (value_moveTo _ _),
    value_bind_of_ok hkey]
  refine decryptBodyInto_used hstream hdecrypt ?_ hplain
  show r.size - (ivLength + (encodePubkey ssl (ssl.publicKey ephemeral)).length) - macLength +
    blockSize < 2 ^ 31
  unfold blockSize at hpieces ⊢
  omega

/-- Two bytes in a buffer of four, and one in a buffer of one. -/
def twoOfFour : ByteBuffer where
  data := [1, 2, 0, 0]
  length := 2
  length_le := by decide
  size_lt := by decide

def oneOfOne : ByteBuffer where
  data := [9]
  length := 1
  length_le := by decide
  size_lt := by decide

/-- Three pieces, one of them empty, behind different contents. -/
theorem greeting_roundTrips :
    RoundTrips OpenSSL.additive (fun _ => 7) (3 : Fin (2 ^ 256)) (5 : Fin (2 ^ 256))
      (List.replicate 16 0) [[72], [], [105, 33]] twoOfFour oneOfOne :=
  encryptInto_roundTrips OpenSSL.additive_lawful OpenSSL.additive_streams (fun _ => 7)
    (3 : Fin (2 ^ 256)) (5 : Fin (2 ^ 256)) rfl (by decide) (by decide) (by decide)

-- The length that would be reserved for 2^31 - 16 bytes is negative, and no doubling of a power of
-- two gets as far as the size it makes.
theorem encryptUpdateInto_stuck {s : Context × ByteBuffer} {data : List UInt8} {k : Nat}
    (hdata : data.length = 2 ^ 31 - 16) (hlen : s.2.length < 2 ^ 31)
    (hblock : s.2.data.length = 2 ^ k) : encryptUpdateInto ssl fill s data = none := by
  have hsize : toUInt64 (s.2.length + toInt (data.length + blockSize)) =
      2 ^ 64 - 2 ^ 31 + s.2.length := by
    have hneg : toInt (data.length + blockSize) = -(2 ^ 31) := by
      rw [hdata, toInt, blockSize]
      norm_num
    rw [hneg, toUInt64]
    omega
  have hstuck : s.2.ensureSize fill (2 ^ 64 - 2 ^ 31 + s.2.length) = none := by
    refine ByteBuffer.ensureSize_eq_none fill fun i _ => ?_
    rw [hblock, Nat.max_eq_left (Nat.two_pow_pos k), ← Nat.pow_add]
    have hpow : 2 ^ (k + i) % 2 ^ 64 ≤ 2 ^ 63 := by
      rcases Nat.lt_or_ge (k + i) 64 with hlt | hge
      · exact (Nat.mod_le _ _).trans (Nat.pow_le_pow_right (by decide) (by omega))
      · rw [Nat.mod_eq_zero_of_dvd (Nat.pow_dvd_pow 2 hge)]
        exact Nat.zero_le _
    omega
  simp only [encryptUpdateInto, hsize, hstuck, Option.bind_eq_bind, Option.bind_none]

theorem not_roundTrips_of_stuck {key ephemeral : ssl.Key} {iv data : List UInt8}
    {dataOut plainOut : ByteBuffer} {s : Context × ByteBuffer}
    (hs : encryptWithPointBeginInto ssl fill ephemeral iv (ssl.publicKey key) dataOut = some s)
    (hstuck : encryptUpdateInto ssl fill s data = none) :
    ¬ RoundTrips ssl fill key ephemeral iv [data] dataOut plainOut := by
  have hnone : encryptInto ssl fill ephemeral iv (ssl.publicKey key) [data] dataOut = none := by
    unfold encryptInto
    rw [hs, Option.bind_eq_bind, Option.bind_some, List.foldlM_cons, hstuck]
    rfl
  rintro ⟨dataOut', bytes, hencrypt, -⟩
  rw [hnone] at hencrypt
  cases hencrypt

/-- With a piece of 2^31 - 16 bytes the reserved length overflows, and making room for it does not
end. -/
theorem huge_not_roundTrips :
    ¬ RoundTrips OpenSSL.additive (fun _ => 0) (3 : Fin (2 ^ 256)) (5 : Fin (2 ^ 256))
      (List.replicate 16 0) [List.replicate (2 ^ 31 - 16) 0] ByteBuffer.init ByteBuffer.init := by
  have hbegin : (encryptWithPointBeginInto OpenSSL.additive (fun _ => 0) (5 : Fin (2 ^ 256))
      (List.replicate 16 0) (OpenSSL.additive.publicKey (3 : Fin (2 ^ 256))) ByteBuffer.init).map
        (fun s => (s.2.length, s.2.data.length)) = some (24, 2 ^ 5) := by decide +kernel
  obtain ⟨s, hs, hblock⟩ := Option.map_eq_some_iff.mp hbegin
  obtain ⟨hlen, hblock⟩ := Prod.mk.inj hblock
  have hshort : s.2.length < 2 ^ 31 := by
    rw [hlen]
    norm_num
  have hstuck := @encryptUpdateInto_stuck OpenSSL.additive (fun _ => 0) s
    (List.replicate (2 ^ 31 - 16) 0) 5 List.length_replicate hshort hblock
  exact not_roundTrips_of_stuck hs hstuck

end Ecc

end Notbit
