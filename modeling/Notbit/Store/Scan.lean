import Notbit.Blob
import Notbit.Proto.Frames

/-!
# Scan — the files of the objects directory at startup (`ntb-store.c`)

Both startup scans go through the directory with the same function and differ in their callback.
What is read from a file decides whether it is deleted or passed on, and a type that is none of the
four ends the program: a scan is safe exactly when no file that looks like an object has such a
type.
-/

open Bytes Traced Traced.Parser Notbit.Proto

namespace Notbit

/-- The number of an object type in a file and in a message. -/
def InvType.toNat : InvType → Nat
  | .getpubkey => 0
  | .pubkey => 1
  | .msg => 2
  | .broadcast => 3

/-- The cases of a `switch` over the types; there is none for other numbers. -/
def InvType.ofNat? : Nat → Option InvType
  | 0 => some .getpubkey
  | 1 => some .pubkey
  | 2 => some .msg
  | 3 => some .broadcast
  | _ => none

namespace InvType

@[simp] theorem ofNat?_toNat (type : InvType) : ofNat? type.toNat = some type := by
  cases type <;> rfl

theorem toNat_of_ofNat? {n : Nat} {type : InvType} (h : ofNat? n = some type) :
    type.toNat = n := by
  unfold ofNat? at h
  split at h <;> cases h <;> rfl

theorem ofNat?_isSome : ∀ {n : Nat}, (ofNat? n).isSome ↔ n < 4
  | 0 | 1 | 2 | 3 => by decide
  | n + 4 => by simp [ofNat?]

end InvType

namespace Store

/-! ## 1. File names -/

/-- `is_hex_digit` -/
def isHexDigit (ch : UInt8) : Bool :=
  (97 ≤ ch.toNat && ch.toNat ≤ 102) || (65 ≤ ch.toNat && ch.toNat ≤ 70) ||
    (48 ≤ ch.toNat && ch.toNat ≤ 57)

/-- `hex_digit_value` -/
def hexDigitValue (ch : UInt8) : Nat :=
  if ch.toNat ≥ 97 then ch.toNat - 97 + 10
  else if ch.toNat ≥ 65 then ch.toNat - 65 + 10
  else ch.toNat - 48

/-- The loop at the start of `process_file`: `n` bytes of a hash and what is behind them in the
name, unless something is not a digit.  The end of the name is no digit either. -/
def readHash : Nat → List UInt8 → Option (List UInt8 × List UInt8)
  | 0, p => some ([], p)
  | n + 1, a :: b :: p =>
    if !isHexDigit a || !isHexDigit b then none
    else (readHash n p).map fun (hash, p) =>
      (UInt8.ofNat ((hexDigitValue a <<< 4) ||| hexDigitValue b) :: hash, p)
  | _ + 1, _ => none

/-- A digit of `%02x`. -/
def hexDigit (n : Nat) : UInt8 := UInt8.ofNat (if n < 10 then 48 + n else 87 + n)

def hexBytes (bytes : List UInt8) : List UInt8 :=
  bytes.flatMap fun b => [hexDigit (b.toNat / 16), hexDigit (b.toNat % 16)]

/-- `append_hash` -/
def hashName (hash : Hash) : List UInt8 := hexBytes hash.val

theorem readHash_length {n : Nat} {name hash rest : List UInt8}
    (h : readHash n name = some (hash, rest)) : hash.length = n := by
  induction n generalizing name hash rest with
  | zero =>
    cases h
    rfl
  | succ n ih =>
    match name, h with
    | a :: b :: p, h =>
      rw [readHash] at h
      split at h
      · cases h
      · obtain ⟨⟨hash', rest'⟩, hp, heq⟩ := Option.map_eq_some_iff.mp h
        cases heq
        rw [List.length_cons, ih hp]

-- What comes in front of the rest of the name is digits, two for each byte.
theorem readHash_digits {n : Nat} {name hash rest : List UInt8}
    (h : readHash n name = some (hash, rest)) :
    ∃ digits, name = digits ++ rest ∧ digits.length = 2 * n ∧ ∀ ch ∈ digits, isHexDigit ch := by
  induction n generalizing name hash rest with
  | zero =>
    cases h
    exact ⟨[], rfl, rfl, by simp⟩
  | succ n ih =>
    match name, h with
    | a :: b :: p, h =>
      rw [readHash] at h
      split at h
      · cases h
      · rename_i hdigits
        obtain ⟨⟨hash', rest'⟩, hp, heq⟩ := Option.map_eq_some_iff.mp h
        cases heq
        obtain ⟨digits, hname, hlength, hall⟩ := ih hp
        refine ⟨a :: b :: digits, by rw [hname]; rfl, by simp only [List.length_cons]; omega, ?_⟩
        simp only [Bool.or_eq_true, Bool.not_eq_true', not_or, Bool.not_eq_false] at hdigits
        simpa only [List.mem_cons, forall_eq_or_imp] using ⟨hdigits.1, hdigits.2, hall⟩

theorem readHash_of_digits {n : Nat} {digits : List UInt8} (rest : List UInt8)
    (hlength : digits.length = 2 * n) (hall : ∀ ch ∈ digits, isHexDigit ch) :
    ∃ hash, readHash n (digits ++ rest) = some (hash, rest) := by
  induction n generalizing digits with
  | zero =>
    rw [List.eq_nil_of_length_eq_zero hlength]
    exact ⟨[], rfl⟩
  | succ n ih =>
    match digits, hlength, hall with
    | a :: b :: digits, hlength, hall =>
      simp only [List.mem_cons, forall_eq_or_imp] at hall
      obtain ⟨ha, hb, hall⟩ := hall
      obtain ⟨hash, hrest⟩ := ih (by simpa [Nat.mul_succ] using hlength) hall
      refine ⟨UInt8.ofNat ((hexDigitValue a <<< 4) ||| hexDigitValue b) :: hash, ?_⟩
      simp [readHash, ha, hb, hrest]

/-- The two digits of a byte are read back as the byte. -/
theorem hexDigit_spec : ∀ b : UInt8,
    isHexDigit (hexDigit (b.toNat / 16)) ∧ isHexDigit (hexDigit (b.toNat % 16)) ∧
      UInt8.ofNat ((hexDigitValue (hexDigit (b.toNat / 16)) <<< 4) |||
        hexDigitValue (hexDigit (b.toNat % 16))) = b := by
  have hall : ∀ n < 256, isHexDigit (hexDigit (n / 16)) ∧ isHexDigit (hexDigit (n % 16)) ∧
      (hexDigitValue (hexDigit (n / 16)) <<< 4) ||| hexDigitValue (hexDigit (n % 16)) = n := by
    decide +kernel
  intro b
  obtain ⟨hhigh, hlow, hvalue⟩ := hall b.toNat (UInt8.toNat_lt b)
  exact ⟨hhigh, hlow, by rw [hvalue, UInt8.ofNat_toNat]⟩

-- The name an object is saved under gives its hash back.
theorem readHash_hashName (hash : Hash) (rest : List UInt8) :
    readHash 32 (hashName hash ++ rest) = some (hash.val, rest) := by
  obtain ⟨bytes, hlength⟩ := hash
  have hread : ∀ bytes : List UInt8,
      readHash bytes.length (hexBytes bytes ++ rest) = some (bytes, rest) := by
    intro bytes
    induction bytes with
    | nil => rfl
    | cons b bytes ih =>
      obtain ⟨hhigh, hlow, hvalue⟩ := hexDigit_spec b
      rw [hexBytes, List.flatMap_cons, List.append_assoc]
      rw [hexBytes] at ih
      simp only [List.length_cons, List.cons_append, List.nil_append, readHash, hhigh, hlow,
        Bool.not_true, Bool.or_false, Bool.false_eq_true, if_false, ih, Option.map_some, hvalue]
  simpa only [hashName, hlength] using hread bytes

theorem hashName_injective : Function.Injective hashName := by
  intro hash hash' h
  have hread := readHash_hashName hash []
  rw [h, readHash_hashName hash' []] at hread
  exact Subtype.ext (Prod.ext_iff.mp (Option.some.inj hread)).1.symm

/-! ## 2. One file -/

/-- An entry of the directory.  There is no content when the file cannot be opened or read, and
`rereads` says whether `fseek`, `fstat` and reading the whole file then succeed. -/
structure DirEntry where
  name : List UInt8
  content : Option (List UInt8)
  rereads : Bool
  deriving DecidableEq, Repr

/-- What `process_file` passes on about a file. -/
structure Found where
  type : Nat
  hash : Hash
  timestamp : Int
  file : List UInt8
  rereads : Bool
  deriving DecidableEq, Repr

/-- What becomes of a file.  An error of `unlink` is only logged. -/
inductive Outcome (ρ : Type) where
  | skipped
  | deleted
  | reported (report : ρ)
  | assertionFailure
  deriving DecidableEq, Repr

/-- `ntb_proto_get_max_age_for_type` for any number, whose assertion fails for those of no type. -/
def maxAge? (type : Nat) : Option Int := (InvType.ofNat? type).map maxAgeForType

/-- `buf` in `process_file`: the type, the nonce and a time stamp of at most 64 bits. -/
def headerSize : Nat := 20

/-- The call of `ntb_proto_get_timestamp` on the end of `buf`, whose result is not looked at. -/
def fileTimestamp (buf : List UInt8) : Int :=
  match (getTimestamp { pos := 12, len := 8 }).value (ofList buf) with
  | .ok (timestamp, _) => timestamp
  | .error _ => 0

/-- `process_file`, with the callback's part left to `Outcome.reported`. -/
def processFile (now : Int) (entry : DirEntry) : Outcome Found :=
  match h : readHash 32 entry.name with
  | none => .skipped
  | some (hash, p) =>
    if p = ascii ".tmp" then .deleted
    else if p ≠ [] then .skipped
    else match entry.content with
      | none => .skipped
      | some file =>
        if file.length < headerSize then .skipped
        else
          let buf := file.take headerSize
          let type := ofBE (buf.take 4)
          let timestamp := fileTimestamp buf
          match maxAge? type with
          | none => .assertionFailure
          | some maxAge =>
            if now - timestamp ≥ maxAge + extraAge then .deleted
            else .reported
              { type, hash := ⟨hash, readHash_length h⟩, timestamp, file, rereads := entry.rereads }

/-- A name that consists of the 64 digits of a hash and an ending. -/
def HashNamed (name ending : List UInt8) : Prop :=
  ∃ digits, name = digits ++ ending ∧ digits.length = 64 ∧ ∀ ch ∈ digits, isHexDigit ch

/-- A file with the name of an object and a whole header has one of the four types in it. -/
def DirEntry.Typed (entry : DirEntry) : Prop :=
  HashNamed entry.name [] → ∀ file, entry.content = some file → headerSize ≤ file.length →
    ofBE (file.take 4) < 4

/-- The time stamp of 32 bits, or that of 64 bits whose first half is zero. -/
def stampAt (mem : Memory) (p : Nat) : Nat :=
  if ofBE (window mem p 4) = 0 then ofBE (window mem (p + 4) 4) else ofBE (window mem p 4)

-- Where 64 bits are left, the second half is there whenever the first one is zero.
theorem getTimestamp_value {mem : Memory} {c : Cursor} (hlen : 8 ≤ c.len) (hc : c.len < 2 ^ 32) :
    ∃ c', (getTimestamp c).value mem = .ok (stampAt mem c.pos, c') := by
  have hfirst := @sizedField_value _ mem c 4 _ _ (by omega) hc (get32_value c.pos)
  have hsecond := @sizedField_value _ mem (c.skip 4) 4 _ _ (by rw [Cursor.skip_len]; omega)
    (by rw [Cursor.skip_len]; omega) (get32_value (c.skip 4).pos)
  rw [getTimestamp, value_bind_of_ok hfirst, stampAt]
  dsimp only
  split_ifs
  · exact ⟨_, hsecond⟩
  · exact ⟨_, rfl⟩

theorem fileTimestamp_eq (buf : List UInt8) : fileTimestamp buf = stampAt (ofList buf) 12 := by
  obtain ⟨c, hvalue⟩ := @getTimestamp_value (ofList buf) { pos := 12, len := 8 } (by decide)
    (by decide)
  rw [fileTimestamp, hvalue]

theorem HashNamed.readHash_eq {name ending : List UInt8} (h : HashNamed name ending) :
    ∃ hash, readHash 32 name = some (hash, ending) := by
  obtain ⟨digits, rfl, hlength, hall⟩ := h
  exact readHash_of_digits ending hlength hall

theorem HashNamed.of_readHash {name ending hash : List UInt8}
    (h : readHash 32 name = some (hash, ending)) : HashNamed name ending :=
  readHash_digits h

/-- What `process_file` does with a file that has the name of an object and a whole header. -/
def processObject (now : Int) (entry : DirEntry) (hash : Hash) (file : List UInt8) :
    Outcome Found :=
  match maxAge? (ofBE (file.take 4)) with
  | none => .assertionFailure
  | some maxAge =>
    if now - stampAt (ofList (file.take headerSize)) 12 ≥ maxAge + extraAge then .deleted
    else .reported
      { type := ofBE (file.take 4), hash
        timestamp := stampAt (ofList (file.take headerSize)) 12
        file, rereads := entry.rereads }

/-- The ways through `process_file`. -/
theorem processFile_cases (now : Int) (entry : DirEntry) :
    processFile now entry = .skipped ∧
        ¬ (HashNamed entry.name [] ∧ ∃ file, entry.content = some file ∧
          headerSize ≤ file.length) ∨
      HashNamed entry.name (ascii ".tmp") ∧ processFile now entry = .deleted ∨
      ∃ (hash : Hash) (file : List UInt8), readHash 32 entry.name = some (hash.val, []) ∧
        entry.content = some file ∧ headerSize ≤ file.length ∧
        processFile now entry = processObject now entry hash file := by
  unfold processFile
  split
  next hnone =>
    refine .inl ⟨rfl, ?_⟩
    rintro ⟨hname, -⟩
    obtain ⟨hash, hsome⟩ := hname.readHash_eq
    rw [hnone] at hsome
    cases hsome
  next hash p hread =>
    have hother : p ≠ [] → ¬ HashNamed entry.name [] := by
      rintro hp hname
      obtain ⟨hash', hread'⟩ := hname.readHash_eq
      rw [hread] at hread'
      exact hp (Prod.ext_iff.mp (Option.some.inj hread')).2
    split_ifs with htmp hempty
    · rw [htmp] at hread
      exact .inr (.inl ⟨HashNamed.of_readHash hread, rfl⟩)
    · exact .inl ⟨rfl, fun h => hother hempty h.1⟩
    · have hp : p = [] := not_not.mp hempty
      subst hp
      split
      next hcontent =>
        refine .inl ⟨rfl, ?_⟩
        rintro ⟨-, file, hfile, -⟩
        rw [hcontent] at hfile
        cases hfile
      next file hcontent =>
        split_ifs with hshort
        · refine .inl ⟨rfl, ?_⟩
          rintro ⟨-, file', hfile', hlength⟩
          rw [hcontent] at hfile'
          cases hfile'
          omega
        · refine .inr (.inr ⟨⟨hash, readHash_length hread⟩, file, hread, hcontent, by omega, ?_⟩)
          have htake : (file.take headerSize).take 4 = file.take 4 := by
            rw [List.take_take]
            rfl
          dsimp only
          rw [processObject, fileTimestamp_eq, htake]

theorem processObject_assertionFailure {now : Int} {entry : DirEntry} {hash : Hash}
    {file : List UInt8} :
    processObject now entry hash file = .assertionFailure ↔ ¬ ofBE (file.take 4) < 4 := by
  rw [← InvType.ofNat?_isSome, processObject, maxAge?]
  cases InvType.ofNat? (ofBE (file.take 4)) with
  | none => simp
  | some type =>
    simp only [Option.map_some, Option.isSome_some, not_true_eq_false, iff_false]
    split_ifs <;> exact nofun

-- The assertion fails exactly at a file with the name and the size of an object and another type.
theorem processFile_assertionFailure {now : Int} {entry : DirEntry} :
    processFile now entry = .assertionFailure ↔ ¬ entry.Typed := by
  unfold DirEntry.Typed
  rcases processFile_cases now entry with ⟨hskip, hnot⟩ | ⟨htmp, hdeleted⟩ |
    ⟨hash, file, hread, hcontent, hlength, hobject⟩
  · rw [hskip]
    refine ⟨nofun, fun h => absurd (fun hname file hcontent hlength => ?_) h⟩
    exact absurd ⟨hname, file, hcontent, hlength⟩ hnot
  · rw [hdeleted]
    refine ⟨nofun, fun h => absurd (fun hname => ?_) h⟩
    obtain ⟨_, hread⟩ := htmp.readHash_eq
    obtain ⟨_, hread'⟩ := hname.readHash_eq
    rw [hread] at hread'
    have hending : ascii ".tmp" = [] := (Prod.ext_iff.mp (Option.some.inj hread')).2
    exact absurd hending (by decide)
  · rw [hobject, processObject_assertionFailure, not_iff_not]
    constructor
    · rintro htype - file' hcontent' -
      rw [hcontent] at hcontent'
      cases hcontent'
      exact htype
    · exact fun h => h (HashNamed.of_readHash hread) file hcontent hlength

theorem processFile_deleted {now : Int} {entry : DirEntry} (h : processFile now entry = .deleted) :
    HashNamed entry.name [] ∨ HashNamed entry.name (ascii ".tmp") := by
  rcases processFile_cases now entry with ⟨hskip, -⟩ | ⟨htmp, -⟩ | ⟨hash, file, hread, -⟩
  · rw [hskip] at h
    cases h
  · exact .inr htmp
  · exact .inl (HashNamed.of_readHash hread)

theorem processFile_reported {now : Int} {entry : DirEntry} {found : Found}
    (h : processFile now entry = .reported found) : ∃ type : InvType, type.toNat = found.type := by
  rcases processFile_cases now entry with ⟨hskip, -⟩ | ⟨-, hdeleted⟩ |
    ⟨hash, file, -, -, -, hobject⟩
  · rw [hskip] at h
    cases h
  · rw [hdeleted] at h
    cases h
  · rw [hobject, processObject, maxAge?] at h
    cases htype : InvType.ofNat? (ofBE (file.take 4)) with
    | none =>
      rw [htype] at h
      cases h
    | some type =>
      rw [htype] at h
      dsimp only [Option.map_some] at h
      split_ifs at h
      cases h
      exact ⟨type, InvType.toNat_of_ofNat? htype⟩

/-! ## 3. The scans -/

/-- What a scan did with the files it came to, and whether it came to the end. -/
structure Scan (ρ : Type) where
  outcomes : List (Outcome ρ)
  completed : Bool
  deriving DecidableEq, Repr

section Scans

variable {ρ : Type}

/-- A callback looks at the file once more and reports it, or does nothing. -/
def Outcome.passTo (func : Found → Option ρ) : Outcome Found → Outcome ρ
  | .skipped => .skipped
  | .deleted => .deleted
  | .reported found =>
    match func found with
    | some report => .reported report
    | none => .skipped
  | .assertionFailure => .assertionFailure

/-- `for_each_blob_internal`; a directory that cannot be listed is like an empty one. -/
def forEachBlobInternal (now : Int) (func : Found → Option ρ) : List DirEntry → Scan ρ
  | [] => { outcomes := [], completed := true }
  | entry :: entries =>
    match (processFile now entry).passTo func with
    | .assertionFailure => { outcomes := [.assertionFailure], completed := false }
    | outcome =>
      let rest := forEachBlobInternal now func entries
      { rest with outcomes := outcome :: rest.outcomes }

/-- What `ntb_store_for_each_blob_func` is called with. -/
structure BlobReport where
  type : Nat
  hash : Hash
  timestamp : Int
  deriving DecidableEq, Repr

/-- `for_each_blob_cb` -/
def forEachBlobCb (found : Found) : Option BlobReport :=
  some { type := found.type, hash := found.hash, timestamp := found.timestamp }

/-- `ntb_store_for_each_blob` -/
def forEachBlob (now : Int) (dir : List DirEntry) : Scan BlobReport :=
  forEachBlobInternal now forEachBlobCb dir

/-- What `ntb_store_for_each_pubkey_blob_func` is called with. -/
structure PubkeyReport where
  hash : Hash
  timestamp : Int
  blob : Blob
  deriving DecidableEq, Repr

/-- `for_each_pubkey_blob_cb` -/
def forEachPubkeyBlobCb (found : Found) : Option PubkeyReport :=
  if found.type ≠ InvType.pubkey.toNat then none
  else if !found.rereads then none
  else some
    { hash := found.hash, timestamp := found.timestamp
      blob := { type := .pubkey, data := found.file.drop 4 } }

/-- `ntb_store_for_each_pubkey_blob` -/
def forEachPubkeyBlob (now : Int) (dir : List DirEntry) : Scan PubkeyReport :=
  forEachBlobInternal now forEachPubkeyBlobCb dir

/-- A file is skipped, deleted or reported with one of the four types, and only the names of objects
and of their temporary files are deleted. -/
def Outcome.Safe (typeOf : ρ → Nat) (entry : DirEntry) (outcome : Outcome ρ) : Prop :=
  (outcome = .skipped ∨ outcome = .deleted ∨
    ∃ report, outcome = .reported report ∧ ∃ type : InvType, type.toNat = typeOf report) ∧
  (outcome = .deleted → HashNamed entry.name [] ∨ HashNamed entry.name (ascii ".tmp"))

/-- The scan comes to its end and treats every file of the directory as it should. -/
def Scan.Safe (typeOf : ρ → Nat) (dir : List DirEntry) (s : Scan ρ) : Prop :=
  s.completed ∧ List.Forall₂ (Outcome.Safe typeOf) dir s.outcomes

theorem Outcome.passTo_assertionFailure {func : Found → Option ρ} {outcome : Outcome Found} :
    outcome.passTo func = .assertionFailure ↔ outcome = .assertionFailure := by
  unfold Outcome.passTo
  split
  next => simp
  next => simp
  next => split <;> simp
  next => simp

theorem Outcome.passTo_deleted {func : Found → Option ρ} {outcome : Outcome Found} :
    outcome.passTo func = .deleted ↔ outcome = .deleted := by
  unfold Outcome.passTo
  split
  next => simp
  next => simp
  next => split <;> simp
  next => simp

-- One file: the callback reports the types it is given, or fewer.
theorem processFile_safe {now : Int} {func : Found → Option ρ} {typeOf : ρ → Nat}
    (hfunc : ∀ found report, func found = some report → typeOf report = found.type)
    {entry : DirEntry} (h : entry.Typed) :
    ((processFile now entry).passTo func).Safe typeOf entry := by
  refine ⟨?_, fun hdeleted => processFile_deleted (Outcome.passTo_deleted.mp hdeleted)⟩
  cases houtcome : processFile now entry with
  | skipped => exact .inl rfl
  | deleted => exact .inr (.inl rfl)
  | assertionFailure => exact absurd h (processFile_assertionFailure.mp houtcome)
  | reported found =>
    rw [Outcome.passTo]
    split
    next report hreport =>
      obtain ⟨type, htype⟩ := processFile_reported houtcome
      exact .inr (.inr ⟨report, rfl, type, by rw [htype, hfunc found report hreport]⟩)
    next => exact .inl rfl

theorem forEachBlobInternal_cons {now : Int} {func : Found → Option ρ} {entry : DirEntry}
    {entries : List DirEntry} (h : entry.Typed) :
    forEachBlobInternal now func (entry :: entries) =
      { outcomes := (processFile now entry).passTo func ::
          (forEachBlobInternal now func entries).outcomes
        completed := (forEachBlobInternal now func entries).completed } := by
  have hok : (processFile now entry).passTo func ≠ .assertionFailure := fun hfails =>
    processFile_assertionFailure.mp (Outcome.passTo_assertionFailure.mp hfails) h
  rw [forEachBlobInternal]
  split
  next heq => exact absurd heq hok
  next => rfl

/-- The induction is on the files in the order of the directory: the first one that is not typed
ends the scan. -/
theorem forEachBlobInternal_safe_iff {now : Int} {func : Found → Option ρ} {typeOf : ρ → Nat}
    (hfunc : ∀ found report, func found = some report → typeOf report = found.type)
    (dir : List DirEntry) :
    (forEachBlobInternal now func dir).Safe typeOf dir ↔ ∀ entry ∈ dir, entry.Typed := by
  induction dir with
  | nil => exact ⟨fun _ => by simp, fun _ => ⟨rfl, List.Forall₂.nil⟩⟩
  | cons entry entries ih =>
    by_cases h : entry.Typed
    · rw [forEachBlobInternal_cons h, List.forall_mem_cons, ← ih, Scan.Safe, List.forall₂_cons]
      constructor
      · rintro ⟨hcompleted, -, hrest⟩
        exact ⟨h, hcompleted, hrest⟩
      · rintro ⟨-, hcompleted, hrest⟩
        exact ⟨hcompleted, processFile_safe hfunc h, hrest⟩
    · have hfails := (@processFile_assertionFailure now entry).mpr h
      have hscan : forEachBlobInternal now func (entry :: entries) =
          { outcomes := [.assertionFailure], completed := false } := by
        rw [forEachBlobInternal, hfails]
        rfl
      rw [hscan]
      refine ⟨fun hsafe => absurd hsafe.1 Bool.false_ne_true, fun hall => ?_⟩
      exact absurd (hall entry List.mem_cons_self) h

end Scans

/-- Both startup scans come to their end without a failed assertion, skip, delete or report every
file with one of the four types, and delete no other names than those of objects and their temporary
files, exactly when every file that looks like an object has one of the four types in it. -/
theorem scans_safe_iff (now now' : Int) (dir : List DirEntry) :
    (forEachBlob now dir).Safe BlobReport.type dir ∧
        (forEachPubkeyBlob now' dir).Safe (fun report => report.blob.type.toNat) dir ↔
      ∀ entry ∈ dir, entry.Typed := by
  have hblob : ∀ found report, forEachBlobCb found = some report → report.type = found.type := by
    rintro found report ⟨⟩
    rfl
  have hpubkey : ∀ found report, forEachPubkeyBlobCb found = some report →
      report.blob.type.toNat = found.type := by
    intro found report h
    unfold forEachPubkeyBlobCb at h
    split_ifs at h with htype
    cases h
    exact (not_not.mp htype).symm
  rw [forEachBlob, forEachPubkeyBlob, forEachBlobInternal_safe_iff hblob,
    forEachBlobInternal_safe_iff hpubkey, and_self]

/-- A file with the name of an object and a type of which there is none. -/
def untypedFile : DirEntry where
  name := List.replicate 64 48
  content := some ([0, 0, 0, 4] ++ List.replicate 16 0)
  rereads := true

theorem untypedFile_not_safe :
    forEachBlob 0 [untypedFile] = { outcomes := [.assertionFailure], completed := false } ∧
    ¬ ((forEachBlob 0 [untypedFile]).Safe BlobReport.type [untypedFile] ∧
      (forEachPubkeyBlob 0 [untypedFile]).Safe (fun report => report.blob.type.toNat)
        [untypedFile]) := by
  have hscan : forEachBlob 0 [untypedFile] =
      { outcomes := [.assertionFailure], completed := false } := by decide +kernel
  refine ⟨hscan, fun ⟨hsafe, _⟩ => ?_⟩
  rw [hscan] at hsafe
  exact absurd hsafe.1 (by decide)

end Store

end Notbit
