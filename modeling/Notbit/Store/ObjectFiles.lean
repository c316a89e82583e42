import Notbit.Store.Saves

/-!
# ObjectFiles — the files of the objects directory, written and scanned (`ntb-store.c`)

An object is saved whole.  At startup only a fixed number of bytes is read of its file, of which the
time stamp takes four or eight: a shorter file is passed over.
-/

open Bytes Stdio Traced Traced.Parser Notbit.Proto

namespace Notbit.Store

variable {ssl : OpenSSL} {curve : Curve} {paths : Paths} {files : Files} {now : Int}

/-! ## 1. Saving and deleting -/

/-- `handle_delete_object`; an error is only logged. -/
def handleDeleteObject (paths : Paths) (o : Outcomes) (hash : Hash) : Files → Files :=
  unlink o (hashFilename paths hash)

/-- What the file of an object holds. -/
def objectFile (blob : Blob) : List UInt8 := toBE 4 blob.type.toNat ++ blob.data

/-- Without errors the temporary file is gone. -/
theorem handleSaveBlob_success (hash : Hash) (blob : Blob) :
    handleSaveBlob paths .success hash blob files =
      Function.update (Function.update files (hashFilename paths hash ++ ascii ".tmp") none)
        (hashFilename paths hash) (some (objectFile blob)) := by
  let target := hashFilename paths hash
  let pieces := [toBE 4 blob.type.toNat, blob.data]
  have hne := target_ne_tmp target
  have hnotLost : ¬ Lost .success 0 pieces := by
    rintro ⟨i, bytes, -, -, hwrite⟩
    cases hwrite
  have hreplaces := saveChecked_replaces .success target pieces files
  have hcontent : pieces.flatten = objectFile blob := by simp [pieces, objectFile]
  -- the file under the other name has been renamed
  have htmp : saveChecked .success (target ++ ascii ".tmp") pieces files (target ++ ascii ".tmp") =
      none := by
    obtain ⟨file, hopen⟩ : ∃ file, fopen .success (target ++ ascii ".tmp") files = some file :=
      ⟨_, rfl⟩
    obtain ⟨-, hpath, hcalls, hempty, -⟩ := fopen_eq_some hopen
    obtain ⟨-, -, hdone, -⟩ := @Stream.writesChecked_spec .success _ _ pieces hempty
    rw [hcalls] at hdone
    have hok := hdone.mpr hnotLost
    unfold saveChecked
    rw [hopen]
    simp only
    cases hwrites : file.writesChecked .success pieces with
    | mk ok file' =>
      rw [hwrites] at hok
      cases hok
      show renameTmpFile .success (target ++ ascii ".tmp") file'.files (target ++ ascii ".tmp") = none
      rw [renameTmpFile, take_append_tmp]
      exact Function.update_self ..
  funext path
  show saveChecked .success (target ++ ascii ".tmp") pieces files path = _
  by_cases htarget : path = target
  · rw [htarget, Function.update_self, hreplaces.new ⟨rfl, hnotLost, rfl, rfl⟩, hcontent]
  · rw [Function.update_of_ne htarget]
    by_cases hpath : path = target ++ ascii ".tmp"
    · rw [hpath, Function.update_self, htmp]
    · rw [Function.update_of_ne hpath]
      exact hreplaces.others path hpath htarget

theorem handleDeleteObject_success (hash : Hash) :
    handleDeleteObject paths .success hash files =
      Function.update files (hashFilename paths hash) none := rfl

/-! ## 2. Time stamps -/

theorem stampAt_of_getTimestamp {mem : Memory} {c c' : Cursor} {t : Nat} (hc : c.len < 2 ^ 32)
    (h : (getTimestamp c).value mem = .ok (t, c')) : t = stampAt mem c.pos := by
  obtain ⟨⟨first, c₁⟩, hfirst, hsecond⟩ := value_bind_eq_ok.mp h
  obtain ⟨hlen, hget, rfl⟩ := sizedField_ok hfirst
  cases hget
  rw [Cursor.advance_of_le hlen hc] at hsecond
  simp only [Cursor.skip_pos] at hsecond
  rw [stampAt]
  split_ifs at hsecond ⊢ with hzero
  · obtain ⟨-, hget', -⟩ := sizedField_ok hsecond
    cases hget'
    rfl
  · cases hsecond
    rfl

/-- The whole object has its time stamp behind the nonce. -/
theorem objectTimestamp_eq_stampAt {data : List UInt8} {timestamp : Int}
    (h : objectTimestamp data = some timestamp) : timestamp = stampAt (ofList data) 8 := by
  unfold objectTimestamp at h
  split at h
  next nonce t n hvalue =>
    cases h
    obtain ⟨⟨vs, c⟩, hargs, hvs⟩ := value_bind_eq_ok.mp hvalue
    cases hvs
    obtain ⟨⟨v, c₁⟩, hnonce, hargs⟩ := value_bind_eq_ok.mp hargs
    obtain ⟨⟨vs, c₂⟩, hrest, heq⟩ := value_bind_eq_ok.mp hargs
    cases heq
    obtain ⟨⟨v, c₂⟩, hstamp, hnil⟩ := value_bind_eq_ok.mp hrest
    obtain ⟨⟨vs, c₃⟩, hempty, heq⟩ := value_bind_eq_ok.mp hnil
    cases hempty
    cases heq
    obtain ⟨⟨n, c₁'⟩, hfield, heq⟩ := value_bind_eq_ok.mp hnonce
    cases heq
    obtain ⟨⟨t', c₂'⟩, htime, heq⟩ := value_bind_eq_ok.mp hstamp
    cases heq
    obtain ⟨hlen, -, rfl⟩ := sizedField_ok hfield
    have hmod : data.length % 2 ^ 32 < 2 ^ 32 := Nat.mod_lt _ (by norm_num)
    rw [Cursor.advance_of_le hlen hmod] at htime
    rw [stampAt_of_getTimestamp ((Nat.sub_le _ 8).trans_lt hmod) htime, Cursor.skip_pos,
      Nat.zero_add]
  next => cases h

/-- The first bytes of the file have it behind the type and the nonce. -/
theorem stampAt_objectFile (blob : Blob) :
    stampAt (ofList ((objectFile blob).take headerSize)) 12 = stampAt (ofList blob.data) 8 := by
  have hbyte : ∀ i < 8, ofList ((objectFile blob).take headerSize) (12 + i) =
      ofList blob.data (8 + i) := by
    intro i hi
    have hlt : 12 + i < headerSize := by
      show 12 + i < 20
      omega
    have hskip : (objectFile blob)[12 + i]? = blob.data[8 + i]? := by
      rw [objectFile, List.getElem?_append_right (by rw [length_toBE]; omega), length_toBE]
      congr 1
      omega
    show ((objectFile blob).take headerSize).getD (12 + i) 0 = blob.data.getD (8 + i) 0
    rw [List.getD_eq_getElem?_getD, List.getElem?_take_of_lt hlt, hskip,
      List.getD_eq_getElem?_getD]
  have hwindow : ∀ k ≤ 4, window (ofList ((objectFile blob).take headerSize)) (12 + k) 4 =
      window (ofList blob.data) (8 + k) 4 := by
    intro k hk
    apply List.map_congr_left
    intro i hi
    rw [Nat.add_assoc, Nat.add_assoc]
    exact hbyte (k + i) (by have := List.mem_range.mp hi; omega)
  have hfirst := hwindow 0 (by omega)
  have hsecond := hwindow 4 (by omega)
  rw [Nat.add_zero, Nat.add_zero] at hfirst
  rw [stampAt, stampAt, hfirst, hsecond]

theorem type_objectFile (blob : Blob) : ofBE ((objectFile blob).take 4) = blob.type.toNat := by
  have htake : (objectFile blob).take 4 = toBE 4 blob.type.toNat := by
    rw [objectFile, List.take_append_of_le_length (by rw [length_toBE]), List.take_of_length_le]
    rw [length_toBE]
  rw [htake, ofBE_toBE_of_lt]
  cases blob.type <;> decide

theorem length_objectFile (blob : Blob) : (objectFile blob).length = 4 + blob.data.length := by
  rw [objectFile, List.length_append, length_toBE]

/-! ## 3. The directory -/

/-- The path of a name in the objects directory. -/
def objectPath (paths : Paths) (name : List UInt8) : Path :=
  paths.directory ++ ascii "objects/" ++ name

/-- The two names that every directory has. -/
def dots : List (List UInt8) := [ascii ".", ascii ".."]

/-- What `readdir` gives for the objects directory, in any order. -/
structure Lists (paths : Paths) (files : Files) (dir : List DirEntry) : Prop where
  nodup : (dir.map (·.name)).Nodup
  listed : ∀ name, name ∈ dir.map (·.name) ↔ name ∈ dots ∨ files (objectPath paths name) ≠ none
  content : ∀ entry ∈ dir, entry.name ∉ dots → entry.content = files (objectPath paths entry.name)

/-- The files that a scan leaves. -/
def leftFiles (paths : Paths) (now : Int) (dir : List DirEntry) (files : Files) : Files :=
  dir.foldl (fun files entry =>
    if processFile now entry = .deleted then unlink .success (objectPath paths entry.name) files
    else files) files

/-- What the callback of a scan reports. -/
def Outcome.report? {ρ : Type} : Outcome ρ → Option ρ
  | .reported report => some report
  | .skipped | .deleted | .assertionFailure => none

/-- All that is reported in a scan, in the order of the directory. -/
def Scan.reports {ρ : Type} (s : Scan ρ) : List ρ := s.outcomes.filterMap Outcome.report?

theorem objectPath_injective : Function.Injective (objectPath paths) := fun _ _ h =>
  List.append_cancel_left h

theorem leftFiles_eq (dir : List DirEntry) (path : Path) :
    leftFiles paths now dir files path =
      if ∃ entry ∈ dir, processFile now entry = .deleted ∧ path = objectPath paths entry.name then
        none
      else files path := by
  induction dir generalizing files with
  | nil => simp [leftFiles]
  | cons entry dir ih =>
    have hcons : leftFiles paths now (entry :: dir) files =
        leftFiles paths now dir (if processFile now entry = .deleted then
          unlink .success (objectPath paths entry.name) files else files) := rfl
    rw [hcons, ih]
    by_cases hlater :
        ∃ entry ∈ dir, processFile now entry = .deleted ∧ path = objectPath paths entry.name
    · obtain ⟨entry', hmem, hentry'⟩ := hlater
      rw [if_pos ⟨entry', hmem, hentry'⟩, if_pos ⟨entry', List.mem_cons_of_mem _ hmem, hentry'⟩]
    · rw [if_neg hlater]
      simp only [List.mem_cons, or_and_right, exists_or, exists_eq_left, hlater, or_false]
      by_cases hdeleted : processFile now entry = .deleted
      · by_cases hpath : path = objectPath paths entry.name
        · rw [if_pos hdeleted, if_pos ⟨hdeleted, hpath⟩, hpath]
          exact Function.update_self ..
        · rw [if_pos hdeleted, if_neg (fun h => hpath h.2)]
          exact Function.update_of_ne hpath _ _
      · rw [if_neg hdeleted, if_neg (fun h => hdeleted h.1)]

end Notbit.Store
