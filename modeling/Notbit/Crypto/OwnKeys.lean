import Notbit.Crypto.Authentic
import Notbit.Proto.Pieces

/-!
# OwnKeys — which pubkey objects of this program are accepted by itself (`ntb-crypto.c`)

A version 3 object is signed over more bytes than are verified of it.  A version 4 object is accepted
if its header reads back.  A header with a long time may be read to another end than its own, and
then the tag and the keys are looked for at the wrong place.
-/

open Bytes Traced Traced.Parser Notbit.Proto

namespace Notbit.Crypto

variable {ssl : OpenSSL} {mem : Memory} {p len n : Nat} {header : ObjectHeader}

/-! ## 1. Where a header ends -/

theorem varIntSize_cases (mem : Memory) (p : Nat) :
    varIntSize mem p = 1 ∧ (mem p).toNat < 0xfd ∨ varIntSize mem p = 3 ∧ (mem p).toNat = 0xfd ∨
      varIntSize mem p = 5 ∧ (mem p).toNat = 0xfe ∨ varIntSize mem p = 9 := by
  simp only [varIntSize, varIntTagging]
  split_ifs <;> simp_all

theorem varIntAt_byte (hbyte : (mem p).toNat < 0xfd) : varIntAt mem p = (mem p).toNat := by
  have hwidth : varIntTagging.width (mem p) = 1 := if_pos hbyte
  rw [varIntAt, Tagging.valueAt, hwidth]
  simp [varIntTagging, window, ofBE]

theorem run_command_cons {a : Argument} {args : List Argument} {v : ArgValue} {vs : List ArgValue}
    {c c' : Cursor}
    (h : (commandFormat (a :: args)).run varIntTagging mem c = some (v :: vs, c')) :
    ∃ c₁, (argumentFormat a).run varIntTagging mem c = some (v, c₁) ∧
      (commandFormat args).run varIntTagging mem c₁ = some (vs, c') := by
  rw [commandFormat, Format.run_bind, Option.bind_eq_some_iff] at h
  obtain ⟨⟨v', c₁⟩, hfirst, h⟩ := h
  rw [Format.run_bind, Option.bind_eq_some_iff] at h
  obtain ⟨⟨vs', c₂⟩, hothers, h⟩ := h
  cases h
  exact ⟨c₁, hfirst, hothers⟩

theorem run_argument_varInt {v : Nat} {c c' : Cursor}
    (h : (argumentFormat .varInt).run varIntTagging mem c = some (.num v, c')) :
    v = varIntAt mem c.pos ∧ c' = c.skip (varIntSize mem c.pos) := by
  rw [argumentFormat, Format.run_bind, Option.bind_eq_some_iff] at h
  obtain ⟨⟨v', c₁⟩, hfirst, h⟩ := h
  obtain ⟨-, rfl, rfl⟩ := run_varIntFormat hfirst
  cases h
  exact ⟨rfl, rfl⟩

/-- The version stands behind the time, which takes four bytes or eight, and the header ends behind
the two var_ints there. -/
theorem ReadsHeader.fields (hlen : len < 2 ^ 32) (h : ReadsHeader mem p len header n) :
    let q := p + 8 + argumentSize mem (p + 8) .timestamp
    header.version = varIntAt mem q ∧
      p + n = q + varIntSize mem q + varIntSize mem (q + varIntSize mem q) := by
  obtain ⟨⟨vs, c⟩, hrun, hout⟩ := ((follows_getNumbers pubkeyHeader hlen).value _ _).mp h
  cases hout
  obtain ⟨c₁, hnonce, hrun⟩ := run_command_cons hrun
  obtain ⟨c₂, htime, hrun⟩ := run_command_cons hrun
  obtain ⟨c₃, hversion, hrun⟩ := run_command_cons hrun
  obtain ⟨c₄, hstream, hrun⟩ := run_command_cons hrun
  obtain ⟨-, rfl, -⟩ := run_argumentFormat hnonce
  obtain ⟨-, rfl, -⟩ := run_argumentFormat htime
  obtain ⟨hv, rfl⟩ := run_argument_varInt hversion
  obtain ⟨-, rfl⟩ := run_argument_varInt hstream
  have hend := congrArg Cursor.pos (Prod.mk.inj (Option.some.inj hrun)).2
  simp only [Cursor.skip_pos] at hv hend
  exact ⟨hv, hend.symm⟩

/-! ## 2. A header that ends where it should -/

/-- The four bytes of a number. -/
theorem holds_add32 {v : Nat} (hv : v < 2 ^ 32) (h : Holds mem p (add32 v)) :
    (mem p).toNat = v / 2 ^ 24 ∧ (mem (p + 1)).toNat = v / 2 ^ 16 % 2 ^ 8 ∧
      (mem (p + 2)).toNat = v / 2 ^ 8 % 2 ^ 8 ∧ (mem (p + 3)).toNat = v % 2 ^ 8 := by
  simp only [add32, toBE, List.nil_append, List.cons_append, holds_cons, Nat.add_assoc,
    Nat.reduceAdd] at h
  obtain ⟨h₀, h₁, h₂, h₃, -⟩ := h
  simp only [h₀, h₁, h₂, h₃, UInt8.toNat_ofNat', and_true]
  omega

theorem length_addVarInt_byte {stream : Nat} (hstream : stream < 256) :
    (addVarInt stream).length = if stream < 0xfd then 1 else 3 := by
  split_ifs with hsmall
  · rw [addVarInt_of_lt hsmall]
    rfl
  · rw [addVarInt_wide hsmall hstream]
    rfl

theorem window_two (mem : Memory) (p : Nat) : window mem p 2 = [mem p, mem (p + 1)] := rfl

theorem window_four (mem : Memory) (p : Nat) :
    window mem p 4 = [mem p, mem (p + 1), mem (p + 2), mem (p + 3)] := rfl

/-- If two var_ints take a low half, the byte 4 behind it and the var_int of a stream, and the first
is a 4, then the low half is one of those that are taken for a version. -/
theorem lowHalf_of_varInts {low stream : Nat} (hlow : low < 2 ^ 32) (hstream : stream < 256)
    (hmem : Holds mem p (add32 low)) (hfour : mem (p + 4) = 4) (hversion : varIntAt mem p = 4)
    (hend : varIntSize mem p + varIntSize mem (p + varIntSize mem p) =
      5 + (addVarInt stream).length) :
    low = 0xfe000000 ∨ if stream < 0xfd then low = 0xfd0004fd ∨ low / 2 ^ 16 = 0x04fe
      else low = 0xfd0004fe := by
  obtain ⟨h₀, h₁, h₂, h₃⟩ := holds_add32 hlow hmem
  have h₄ : (mem (p + 4)).toNat = 4 := by rw [hfour]; rfl
  rw [length_addVarInt_byte hstream] at hend
  rcases varIntSize_cases mem p with ⟨hsize, hbyte⟩ | ⟨hsize, htag⟩ | ⟨hsize, htag⟩ | hsize
  · -- the version is the first byte, so the stream takes five
    rw [varIntAt_byte hbyte] at hversion
    rw [hsize] at hend
    have hnext := varIntSize_cases mem (p + 1)
    split_ifs at hend ⊢ <;> omega
  · -- the version takes three bytes
    rw [varIntAt_wide (n := 2) (by omega) hsize] at hversion
    simp only [window_two, ofBE, List.foldl, Nat.add_assoc, Nat.reduceAdd] at hversion
    rw [hsize] at hend
    have hnext := varIntSize_cases mem (p + 3)
    split_ifs at hend ⊢ <;> omega
  · -- the version takes five bytes
    rw [varIntAt_wide (n := 4) (by omega) hsize] at hversion
    simp only [window_four, ofBE, List.foldl, Nat.add_assoc, Nat.reduceAdd] at hversion
    omega
  · split_ifs at hend <;> omega

/-- A header whose version is read as 4 and that ends where it should has a time that reads back. -/
theorem timeReadsBack_of_aligned {key : Key ssl} {nonce : Nat} (hkey : key.address.version = 4)
    (hmem : Holds mem p (add64 nonce ++ headerBytes key)) (hlen : len < 2 ^ 32)
    (hread : ReadsHeader mem p len header (8 + (headerBytes key).length))
    (hversion : header.version = 4) : TimeReadsBack key := by
  have hlt := toUInt64_lt key.lastPubkeySendTime
  have hstream := key.address.stream_lt
  unfold TimeReadsBack
  unfold headerBytes headerOf at hmem hread
  rw [hkey] at hmem hread
  generalize toUInt64 key.lastPubkeySendTime = time at *
  generalize key.address.stream = stream at *
  obtain ⟨hat, hend⟩ := hread.fields hlen
  rw [hversion] at hat
  rcases Nat.lt_or_ge time (2 ^ 32) with hshort | hlong
  · exact .inl hshort
  have hsplit : add64 time = add32 (time / 2 ^ 32) ++ add32 (time % 2 ^ 32) := by
    rw [show add32 (time % 2 ^ 32) = toBE 4 time from toBE_mod 4 time]
    exact toBE_add 4 4 time
  rw [hsplit] at hmem
  simp only [holds_append, add64, add32, List.length_append, length_toBE] at hmem
  obtain ⟨-, ⟨hhigh, hlow⟩, hfour, -⟩ := hmem
  have htime : argumentSize mem (p + 8) .timestamp = 4 := by
    have hvalue := ofBE_window_toBE hhigh (by omega)
    rw [argumentSize, if_neg (by omega)]
  rw [htime] at hat hend
  simp only [List.length_append, add64, length_toBE, List.length_nil, addVarInt_four,
    List.length_singleton] at hend
  refine .inr (lowHalf_of_varInts (by omega) hstream hlow ?_ hat.symm (by omega))
  exact ((holds_cons _ _ _ _).mp hfour).1

/-! ## 3. What a reader finds behind the header -/

/-- The header that is read decides where the tag or the keys are taken from. -/
structure Parsed (mem : Memory) (p len : Nat) (pubkey : Pubkey) (header : ObjectHeader) (n : Nat) :
    Prop where
  reads : ReadsHeader mem p len header n
  version : pubkey.version = header.version
  clear : pubkey.encryptedData = none → header.version ≠ 4 ∧
    pubkey.publicSigningKey = p + n + 4 ∧ pubkey.publicEncryptionKey = p + n + 4 + 64
  encrypted : pubkey.encryptedData ≠ none → header.version = 4 ∧ pubkey.tag = p + n

theorem processV3PubkeyParts_ok {pubkey pubkey' : Pubkey} {c : Cursor} (hc : c.len < 2 ^ 32)
    (h : (processV3PubkeyParts pubkey c).value mem = .ok pubkey') :
    pubkey'.version = pubkey.version ∧ pubkey'.encryptedData = pubkey.encryptedData ∧
      pubkey'.publicSigningKey = c.pos + 4 ∧ pubkey'.publicEncryptionKey = c.pos + 4 + 64 := by
  obtain ⟨⟨pubkey₁, c₂⟩, hparts, h⟩ := value_bind_eq_ok.mp h
  obtain ⟨⟨sigLength, c₃⟩, -, h⟩ := value_bind_eq_ok.mp h
  obtain ⟨⟨parts, c₄⟩, hpointer, hparts⟩ := value_bind_eq_ok.mp hparts
  obtain ⟨rfl, -, -⟩ := getPointer_ok hc hpointer
  rw [value_bind_of_ok (get32_value _)] at hparts
  obtain ⟨⟨difficulty, c₅⟩, -, hparts⟩ := value_bind_eq_ok.mp hparts
  dsimp only at hparts h
  split at hparts
  next =>
    cases hparts
    split at h
    next => cases h
    next =>
      cases h
      exact ⟨rfl, rfl, rfl, rfl⟩
  next => cases hparts

theorem getPubkey_parsed {pubkey : Pubkey} (hlen : len < 2 ^ 32)
    (h : (getPubkey false p len).value mem = .ok pubkey) :
    ∃ header n, Parsed mem p len pubkey header n := by
  obtain ⟨⟨vs, c⟩, hheader, h⟩ := value_bind_eq_ok.mp h
  have hconsumed := getNumbers_consumed (c := { pos := p, len }) hlen hheader
  unfold Consumed at hconsumed
  dsimp only at h hconsumed
  have hskip : c = Cursor.skip { pos := p, len } (c.pos - p) := by
    cases c
    simp only [Cursor.skip, Cursor.mk.injEq] at *
    omega
  have hpos : p + (c.pos - p) = c.pos := by omega
  have hc : c.len < 2 ^ 32 := by omega
  split at h
  next nonce timestamp version stream =>
    have hparsed : pubkey.version = version ∧ (pubkey.encryptedData = none → version ≠ 4 ∧
          pubkey.publicSigningKey = c.pos + 4 ∧ pubkey.publicEncryptionKey = c.pos + 4 + 64) ∧
        (pubkey.encryptedData ≠ none → version = 4 ∧ pubkey.tag = c.pos) := by
      split_ifs at h with h2 h4 h34
      · obtain ⟨⟨parts, c₂⟩, hpointer, h⟩ := value_bind_eq_ok.mp h
        obtain ⟨rfl, -, -⟩ := getPointer_ok hc hpointer
        rw [value_bind_of_ok (get32_value _)] at h
        cases h
        exact ⟨rfl, fun _ => ⟨by omega, rfl, rfl⟩, fun hsome => absurd rfl hsome⟩
      · obtain ⟨⟨tag, c₂⟩, hpointer, h⟩ := value_bind_eq_ok.mp h
        obtain ⟨rfl, -, -⟩ := getPointer_ok hc hpointer
        cases h
        exact ⟨rfl, fun hnone => absurd hnone (Option.some_ne_none _), fun _ => ⟨h4.1, rfl⟩⟩
      · obtain ⟨hv, henc, hsigning, hencryption⟩ := processV3PubkeyParts_ok hc h
        have hne : version ≠ 4 := fun heq => h4 ⟨heq, not_false⟩
        exact ⟨hv, fun _ => ⟨hne, hsigning, hencryption⟩, fun hsome => absurd henc hsome⟩
      · cases h
    obtain ⟨hversion, hclear, hencrypted⟩ := hparsed
    rw [← hpos] at hclear hencrypted
    rw [hskip] at hheader
    exact ⟨⟨nonce, timestamp, version, stream⟩, c.pos - p, hheader, hversion, hclear, hencrypted⟩
  next => cases h

/-! ## 4. The objects that are accepted -/

/-- What a reader takes for the tag or for the keys of the key's object is not that, and passes all
the same: the header is read as one of another version or to another end, and the 32 bytes behind it
are the tag of the address, or the two keys behind it have its ripe. -/
def Misplaced (env : Environment ssl) (key : Key ssl) : Prop :=
  let object := (createPubkeyBlob env key).finished 0
  let mem := ofList object
  ∃ header n, ReadsHeader mem 0 object.length header n ∧
    ¬ (header.version = key.address.version ∧ n = 8 + (headerBytes key).length) ∧
    (header.version = 4 ∧ window mem n 32 = key.address.tag ssl ∨
      header.version = 3 ∧ ssl.ripemd160 (ssl.sha512 ([4] ++ window mem (n + 4) 64 ++ [4] ++
        window mem (n + 4 + 64) 64)) = key.address.ripe)

/-- What is known of an object that its owner accepts: it was taken for an encrypted one with the tag
of the address, or for one in the clear with the version and the ripe of the address. -/
theorem VerifiesOwnPubkey.passes {env : Environment ssl} {key : Key ssl}
    (h : VerifiesOwnPubkey env key)
    (hsize : ((createPubkeyBlob env key).finished 0).length < 2 ^ 31) :
    let object := (createPubkeyBlob env key).finished 0
    let mem := ofList object
    ∃ header n pubkey, Parsed mem 0 object.length pubkey header n ∧
      (getPubkey false 0 object.length).value mem = .ok pubkey ∧
      (header.version = 4 ∧ window mem n 32 = key.address.tag ssl ∨
        header.version ≠ 4 ∧ header.version = key.address.version ∧
          ssl.ripemd160 (ssl.sha512 ([4] ++ window mem (n + 4) 64 ++ [4] ++
            window mem (n + 4 + 64) 64)) = key.address.ripe ∧
          (createPubkeyBlob env key).signed =
            some (window mem pubkey.signedData pubkey.signedDataLength)) := by
  have hat := holds_ofList ((createPubkeyBlob env key).finished 0)
  obtain ⟨mem', pubkey, hopen, hsigned, checked, hchecked⟩ := h 0 _ (fun _ => 0) 0 hat (by omega)
  generalize (createPubkeyBlob env key).finished 0 = object at *
  have hmod : object.length % 2 ^ 32 = object.length := Nat.mod_eq_of_lt (by omega)
  obtain ⟨start, len, hopened⟩ := openPubkey_ok.mp hopen
  rw [checkPubkey_of_open hopen] at hchecked
  obtain ⟨-, haddress, -⟩ := checkUnencryptedPubkey_ok.mp ⟨checked, hchecked⟩
  obtain ⟨hversion, -, hripe⟩ := (ofAddress_iff hopened.version_lt).mp haddress
  dsimp only
  cases hopened with
  | clear hparse hclear =>
    rw [hmod] at hparse
    obtain ⟨header, n, hparsed⟩ := getPubkey_parsed (by omega) hparse
    obtain ⟨hne, hsigning, hencryption⟩ := hparsed.clear hclear
    rw [Nat.zero_add] at hsigning hencryption
    rw [hsigning, hencryption] at hripe
    rw [hparsed.version] at hversion
    exact ⟨header, n, pubkey, hparsed, hparse, .inr ⟨hne, hversion, hripe, hsigned⟩⟩
  | decrypted houter hencrypted htag hdecrypt hparse =>
    rw [hmod] at houter
    obtain ⟨header, n, hparsed⟩ := getPubkey_parsed (by omega) houter
    obtain ⟨hfour, htagAt⟩ := hparsed.encrypted (by rw [hencrypted]; exact nofun)
    rw [htagAt, Nat.zero_add] at htag
    exact ⟨header, n, _, hparsed, houter, .inl ⟨hfour, htag⟩⟩

/-- A version 4 object that is accepted has a time that reads back, or something misplaced in it
passes. -/
theorem v4_readsBack (hssl : ssl.Lawful) {env : Environment ssl} {key : Key ssl}
    (hversion : key.address.version = 4) (h : VerifiesOwnPubkey env key) :
    TimeReadsBack key ∨ Misplaced env key := by
  have hsize := length_finished_v4 hssl env hversion 0
  obtain ⟨header, n, pubkey, hparsed, -, hpasses⟩ := h.passes hsize
  rcases hpasses with ⟨hfour, htag⟩ | ⟨hne, heq, -⟩
  · by_cases hend : n = 8 + (headerBytes key).length
    · subst hend
      have hat := holds_ofList ((createPubkeyBlob env key).finished 0)
      have hreads := hparsed.reads
      rw [finished_v4 env hversion] at hat hreads
      exact .inl (timeReadsBack_of_aligned hversion ((holds_append _ _ _ _).mp hat).1
        (by rw [← finished_v4 env hversion]; omega) hreads hfour)
    · exact .inr ⟨header, n, hparsed.reads, fun haligned => hend haligned.2, .inl ⟨hfour, htag⟩⟩
  · exact absurd (heq.trans hversion) hne

/-- The finished object of a version 3 key, and what was signed for it: more than the object behind
its nonce, by the size of the fields that stand before the data of a blob. -/
theorem finished_v3 (hssl : ssl.Lawful) (env : Environment ssl) {key : Key ssl}
    (hversion : key.address.version = 3) (nonce : Nat) :
    ∃ signed sig, (createPubkeyBlob env key).signed = some signed ∧
      (headerBytes key).length + (keyBytes key).length + (difficultyBytes key).length <
        signed.length ∧
      (createPubkeyBlob env key).finished nonce = (add64 nonce ++ headerBytes key) ++
        ((keyBytes key ++ difficultyBytes key) ++ (addVarInt sig.length ++ sig)) ∧
      ((createPubkeyBlob env key).finished nonce).length < 2 ^ 31 := by
  let hole := window env.fill env.header.length 8
  let signed := (env.header ++ (hole ++ (headerBytes key ++ (keyBytes key ++
    difficultyBytes key)))).drop 8
  let sig := ssl.ecdsaSign key.signingKey (ssl.sha1 signed)
  have hblob : createPubkeyBlob env key = createV3Key env key := by
    rw [createPubkeyBlob, if_neg (by omega), if_pos hversion]
  have hfinished : (createPubkeyBlob env key).finished nonce = (add64 nonce ++ headerBytes key) ++
      ((keyBytes key ++ difficultyBytes key) ++ (addVarInt sig.length ++ sig)) := by
    rw [hblob, createV3Key_eq, finished_eq (length_window _ _ _) rfl]
    simp only [sig, signed, hole, appendSignature, List.append_assoc]
  refine ⟨signed, sig, ?_, ?_, hfinished, ?_⟩
  · rw [hblob, createV3Key_eq]
  · have hpos := env.header_pos
    simp only [signed, hole, List.length_drop, List.length_append, length_window]
    omega
  · have h₁ := length_headerBytes_le key
    have h₂ := length_keyBytes key
    have h₃ := length_difficultyBytes_le key
    have h₄ : (addVarInt sig.length ++ sig).length ≤ 81 :=
      length_appendSignature_le hssl key.signingKey signed
    rw [hfinished]
    simp only [List.length_append, add64, length_toBE] at h₄ ⊢
    omega

/-- If the header of a version 3 object is read to its end, less is verified than was signed. -/
theorem v3_not_verified (hssl : ssl.Lawful) {env : Environment ssl} {key : Key ssl}
    (hversion : key.address.version = 3) {header : ObjectHeader} {pubkey : Pubkey}
    (hread : ReadsHeader (ofList ((createPubkeyBlob env key).finished 0)) 0
      ((createPubkeyBlob env key).finished 0).length header (8 + (headerBytes key).length))
    (hheader : header.version = 3)
    (hparse : (getPubkey false 0 ((createPubkeyBlob env key).finished 0).length).value
      (ofList ((createPubkeyBlob env key).finished 0)) = .ok pubkey) :
    (createPubkeyBlob env key).signed ≠ some (window
      (ofList ((createPubkeyBlob env key).finished 0)) pubkey.signedData
        pubkey.signedDataLength) := by
  obtain ⟨signed, sig, hsigned, hlonger, hfinished, hsize⟩ := finished_v3 hssl env hversion 0
  have hat := holds_ofList ((createPubkeyBlob env key).finished 0)
  rw [hsigned]
  rw [hfinished] at hat hread hparse hsize
  have hfields := getPubkey_signed false hread (.inl hheader) hat rfl hsize
  rw [hfields, Except.ok.injEq] at hparse
  intro hsame
  have hlengths := congrArg List.length (Option.some.inj hsame)
  rw [length_window, ← hparse] at hlengths
  simp only [signedFields] at hlengths
  omega

/-- A version 3 object that is accepted has something misplaced in it. -/
theorem v3_misplaced (hssl : ssl.Lawful) {env : Environment ssl} {key : Key ssl}
    (hversion : key.address.version = 3) (h : VerifiesOwnPubkey env key) : Misplaced env key := by
  obtain ⟨-, -, -, -, -, hsize⟩ := finished_v3 hssl env hversion 0
  obtain ⟨header, n, pubkey, hparsed, hparse, hpasses⟩ := h.passes hsize
  rcases hpasses with ⟨hfour, htag⟩ | ⟨-, heq, hripe, hsigned⟩
  · exact ⟨header, n, hparsed.reads, fun haligned => by omega, .inl ⟨hfour, htag⟩⟩
  · rw [hversion] at heq
    by_cases hend : n = 8 + (headerBytes key).length
    · subst hend
      exact absurd hsigned (v3_not_verified hssl hversion hparsed.reads heq hparse)
    · exact ⟨header, n, hparsed.reads, fun haligned => hend haligned.2, .inr ⟨heq, hripe⟩⟩

/-- With a short time nothing is misplaced: the header is read as it was written. -/
theorem not_misplaced (hssl : ssl.Lawful) (env : Environment ssl) {key : Key ssl}
    (hversion : key.address.version = 3 ∨ key.address.version = 4)
    (htime : toUInt64 key.lastPubkeySendTime < 2 ^ 32) : ¬ Misplaced env key := by
  rintro ⟨header, n, hreads, hnot, -⟩
  have hobject : ∃ rest, (createPubkeyBlob env key).finished 0 =
      (add64 0 ++ headerBytes key) ++ rest ∧
        ((createPubkeyBlob env key).finished 0).length < 2 ^ 31 := by
    rcases hversion with h3 | h4
    · obtain ⟨-, sig, -, -, hfinished, hsize⟩ := finished_v3 hssl env h3 0
      exact ⟨_, hfinished, hsize⟩
    · exact ⟨_, finished_v4 env h4 0, length_finished_v4 hssl env h4 0⟩
  obtain ⟨rest, hfinished, hsize⟩ := hobject
  have hat := holds_ofList ((createPubkeyBlob env key).finished 0)
  rw [hfinished] at hreads hat hsize
  have hown := readsHeader_of_encodes
    (headerOf_encodes htime (key.address.version_lt.trans (by norm_num))
      (key.address.stream_lt.trans (by norm_num)) 0)
    ((holds_append _ _ _ _).mp hat).1 (by simp only [List.length_append]; omega) hsize
  obtain ⟨hvalues, hcursor⟩ := Prod.mk.inj (Except.ok.inj (hreads.symm.trans hown))
  have hpos := congrArg Cursor.pos hcursor
  simp only [Cursor.skip_pos, Nat.zero_add] at hpos
  simp only [ObjectHeader.values, List.cons.injEq, ArgValue.num.injEq] at hvalues
  exact hnot ⟨hvalues.2.2.1, hpos⟩

/-- Of the keys of version 3 and 4, the owner verifies the objects of those of version 4 whose time
reads back; and of no others if the time is short, nor with a long time unless something misplaced
passes for the tag or for the keys. -/
theorem ownPubkey_verifies_iff (hssl : ssl.Lawful) (env : Environment ssl) (key : PrivateKey ssl)
    (hversion : key.address.version = 3 ∨ key.address.version = 4) :
    (key.address.version = 4 ∧ TimeReadsBack key.toKey → VerifiesOwnPubkey env key.toKey) ∧
      (toUInt64 key.lastPubkeySendTime < 2 ^ 32 ∨ ¬ Misplaced env key.toKey →
        (VerifiesOwnPubkey env key.toKey ↔
          key.address.version = 4 ∧ TimeReadsBack key.toKey)) := by
  have henough : key.address.version = 4 ∧ TimeReadsBack key.toKey →
      VerifiesOwnPubkey env key.toKey := fun h => v4_verifies hssl key h.1 h.2
  refine ⟨henough, fun hplaced => ⟨fun h => ?_, henough⟩⟩
  have hnot := hplaced.elim (not_misplaced hssl env hversion) id
  rcases hversion with h3 | h4
  · exact absurd (v3_misplaced hssl h3 h) hnot
  · exact ⟨h4, (v4_readsBack hssl h4 h).resolve_right hnot⟩

/-- A version 4 key whose time is taken for its high half. -/
def lateKey : PrivateKey OpenSSL.additive :=
  { sampleKey 4 Address.four_lt with lastPubkeySendTime := 0x1fe000000 }

/-- The objects of version 4 keys are verified, the one with the long time too. -/
theorem sampleKey_v4_verifies :
    VerifiesOwnPubkey sampleEnvironment (sampleKey 4 Address.four_lt).toKey ∧
      VerifiesOwnPubkey sampleEnvironment lateKey.toKey :=
  ⟨((ownPubkey_verifies_iff OpenSSL.additive_lawful _ _ (.inr rfl)).2 (.inl (by decide))).mpr
    (by decide), (ownPubkey_verifies_iff OpenSSL.additive_lawful _ _ (.inr rfl)).1 (by decide)⟩

/-- The object of a version 3 key is not verified. -/
theorem sampleKey_v3_not_verified :
    ¬ VerifiesOwnPubkey sampleEnvironment (sampleKey 3 Address.three_lt).toKey := fun h =>
  not_misplaced OpenSSL.additive_lawful sampleEnvironment (.inl rfl) (by decide)
    (v3_misplaced OpenSSL.additive_lawful rfl h)

end Notbit.Crypto
