import Notbit.Lib.Stdio
import Notbit.Mail.SaveMessage
import Notbit.Store.Keys
import Notbit.Store.Outgoings
import Notbit.Store.Scan

/-!
# Saves — the files the store thread writes (`ntb-store.c`)

Every file is written under another name and renamed when it is closed.  The handlers differ in what
they look at before that: those that do not look at their writes may rename a file with a hole in it.
-/

open Bytes Stdio Notbit.Proto Notbit.Mail

namespace Notbit.Store

/-! ## 1. What is written -/

/-- `struct ntb_store_addr` -/
structure StoreAddr where
  timestamp : CInt64
  stream : UInt32
  services : UInt64
  address : Netaddress

/-- `ntb_netaddress_to_string`; `inetNtop` is `inet_ntop` for the 4 or 16 bytes of a host. -/
def netaddressToString (inetNtop : List UInt8 → List UInt8) (address : Netaddress) : List UInt8 :=
  let ipv4Magic : List UInt8 := [0, 0, 0, 0, 0, 0, 0, 0, 0, 0, 0xff, 0xff]
  (if address.host.take 12 ≠ ipv4Magic then ascii "[" ++ inetNtop address.host ++ ascii "]"
    else inetNtop (address.host.drop 12)) ++ ascii ":" ++ printUnsigned address.port

/-- A line of the file that `handle_save_addr_list` writes. -/
def addrLine (inetNtop : List UInt8 → List UInt8) (addr : StoreAddr) : List UInt8 :=
  printSigned addr.timestamp.val ++ ascii "," ++ printUnsigned addr.stream.toNat ++ ascii "," ++
    printUnsigned addr.services.toNat ++ ascii "," ++ netaddressToString inetNtop addr.address ++
    ascii "\n"

section Writers

variable {ssl : OpenSSL} {curve : Curve}

/-- The calls on the stream in `write_key`. -/
def keyWrites (key : StoredKey ssl curve) : List (List UInt8) :=
  let lines := key.properties.map fun p => propertyLine p.1 p.2
  [headerLine (key.address.encode ssl) ++ (lines.take 3).flatten, (lines.drop 3).flatten, [newline]]

theorem flatten_keyWrites (key : StoredKey ssl curve) : (keyWrites key).flatten = writeKey key := by
  have hlines : ((key.properties.map fun p => propertyLine p.1 p.2).take 3).flatten ++
      ((key.properties.map fun p => propertyLine p.1 p.2).drop 3).flatten =
      key.properties.flatMap fun p => propertyLine p.1 p.2 := by
    rw [← List.flatten_append, List.take_append_drop, List.flatMap_def]
  rw [keyWrites, writeKey, sectionText, ← hlines]
  simp only [List.flatten_cons, List.flatten_nil, List.append_nil, List.append_assoc]

end Writers

/-! ## 2. The handlers -/

/-- The directories of `struct ntb_store`, each with a slash at its end. -/
structure Paths where
  directory : Path
  maildir : Path

/-- `rename_tmp_file` -/
def renameTmpFile (o : Outcomes) (filename : Path) (files : Files) : Files :=
  match rename o filename (filename.take (filename.length - 4)) files with
  | (true, files) => files
  | (false, files) => unlink o filename files

/-- `handle_save_blob` and `handle_save_message_content`: the writes are checked, and the temporary
file is removed when something fails. -/
def saveChecked (o : Outcomes) (filename : Path) (pieces : List (List UInt8)) (files : Files) :
    Files :=
  match fopen o filename files with
  | none => files
  | some file =>
    match file.writesChecked o pieces with
    | (false, file) => unlink o filename (file.fclose o).2
    | (true, file) =>
      match file.fclose o with
      | (false, files) => unlink o filename files
      | (true, files) => renameTmpFile o filename files

/-- `handle_save_addr_list`, `handle_save_keys` and `handle_save_outgoings`: only `fclose` is
checked. -/
def saveUnchecked (o : Outcomes) (filename : Path) (pieces : List (List UInt8)) (files : Files) :
    Files :=
  match fopen o filename files with
  | none => files
  | some out =>
    match (out.writes o pieces).fclose o with
    | (false, files) => files
    | (true, files) => renameTmpFile o filename files

section Handlers

variable {ssl : OpenSSL} {curve : Curve} (inetNtop : List UInt8 → List UInt8) (paths : Paths)
  (o : Outcomes)

/-- `set_hash_filename` -/
def hashFilename (hash : Hash) : Path := paths.directory ++ ascii "objects/" ++ hashName hash

/-- `set_message_content_filename` -/
def messageContentFilename (id : UInt64) : Path :=
  paths.directory ++ ascii "outgoing/" ++ hexBytes (toBE 8 id.toNat)

/-- `handle_save_blob` -/
def handleSaveBlob (hash : Hash) (blob : Blob) : Files → Files :=
  saveChecked o (hashFilename paths hash ++ ascii ".tmp") [toBE 4 blob.type.toNat, blob.data]

/-- `handle_save_message_content` -/
def handleSaveMessageContent (id : UInt64) (content : List UInt8) : Files → Files :=
  saveChecked o (messageContentFilename paths id ++ ascii ".tmp") [content]

/-- `handle_save_addr_list` -/
def handleSaveAddrList (addrs : List StoreAddr) : Files → Files :=
  saveUnchecked o (paths.directory ++ ascii "addr-list.txt.tmp") (addrs.map (addrLine inetNtop))

/-- `handle_save_keys` -/
def handleSaveKeys (keys : List (StoredKey ssl curve)) : Files → Files :=
  saveUnchecked o (paths.directory ++ ascii "keys.dat.tmp") (keys.flatMap keyWrites)

/-- `handle_save_outgoings` -/
def handleSaveOutgoings (ssl : OpenSSL) (outgoings : List Outgoing) : Files → Files :=
  saveUnchecked o (paths.directory ++ ascii "outgoing-messages.dat.tmp")
    (outgoings.map (writeOutgoing ssl))

/-- `handle_save_message`; `name` is what `generate_maildir_name` appends. -/
def handleSaveMessage (ssl : OpenSSL) (name : List UInt8) (mail : Delivery) (files : Files) :
    Files :=
  let filename := paths.maildir ++ ascii "tmp/" ++ name
  match fopen o filename files with
  | none => files
  | some out =>
    match (out.writes o (saveMessage ssl mail)).fclose o with
    | (false, files) => files
    | (true, files) =>
      let target := paths.maildir ++ ascii "new" ++ filename.drop (paths.maildir.length + 3)
      -- the error is only logged
      (rename o filename target files).2

end Handlers

/-! ## 3. What the handlers do to the files -/

section Specs

variable {o : Outcomes} {filename : Path}

theorem take_append_tmp (target : Path) :
    (target ++ ascii ".tmp").take ((target ++ ascii ".tmp").length - 4) = target := by
  have hlength : (ascii ".tmp").length = 4 := by decide
  rw [List.length_append, hlength, Nat.add_sub_cancel, List.take_left]

theorem target_ne_tmp (target : Path) : target ≠ target ++ ascii ".tmp" := by
  intro h
  have hlength := congrArg List.length h
  rw [List.length_append] at hlength
  have hpos : 0 < (ascii ".tmp").length := by decide
  omega

-- Outside the temporary file it makes no difference that the file is removed when the rename fails.
theorem renameTmpFile_of_ne (target : Path) (files : Files) {path : Path}
    (h : path ≠ target ++ ascii ".tmp") :
    renameTmpFile o (target ++ ascii ".tmp") files path =
      (rename o (target ++ ascii ".tmp") target files).2 path := by
  rw [renameTmpFile, take_append_tmp, rename]
  split_ifs
  · rfl
  · exact unlink_of_ne files h

-- The stream of a file that has just been opened.
theorem fopen_eq_some {files : Files} {file : Stream} (h : fopen o filename files = some file) :
    o.fopen ∧ file.path = filename ∧ file.calls = 0 ∧ file.files file.path = some [] ∧
      ∀ path, path ≠ filename → file.files path = files path := by
  unfold fopen at h
  split_ifs at h with hopen
  cases h
  exact ⟨hopen, rfl, rfl, Function.update_self .., fun path hne => Function.update_of_ne hne _ _⟩

theorem fopen_eq_none {files : Files} : fopen o filename files = none ↔ ¬ o.fopen := by
  unfold fopen
  split_ifs with h <;> simp [h]

-- What is in the file after writes that are not looked at.
theorem writes_of_fopen {files : Files} {out : Stream} (h : fopen o filename files = some out)
    (pieces : List (List UInt8)) :
    o.fopen ∧ (out.writes o pieces).path = filename ∧
      (out.writes o pieces).files filename = some (kept o 0 pieces) ∧
      ∀ path, path ≠ filename → (out.writes o pieces).files path = files path := by
  obtain ⟨hopened, rfl, hcalls, hempty, hothers⟩ := fopen_eq_some h
  rw [Stream.writes_eq pieces hempty, hcalls, List.nil_append]
  refine ⟨hopened, rfl, Function.update_self .., fun path hne => ?_⟩
  dsimp only
  rw [Function.update_of_ne hne, hothers path hne]

theorem saveChecked_replaces (o : Outcomes) (target : Path) (pieces : List (List UInt8))
    (files : Files) :
    Replaces (o.fopen ∧ ¬ Lost o 0 pieces ∧ o.fclose ∧ o.rename) (target ++ ascii ".tmp") target
      pieces.flatten files (saveChecked o (target ++ ascii ".tmp") pieces files) := by
  have hne := target_ne_tmp target
  unfold saveChecked
  split
  next hopen => exact Replaces.nothing (fun h => fopen_eq_none.mp hopen h.1) hne fun _ _ => rfl
  next file hopen =>
    obtain ⟨hopened, hpath, hcalls, hempty, hothers⟩ := fopen_eq_some hopen
    obtain ⟨hpath', hothers', hdone, hcontent⟩ := @Stream.writesChecked_spec o _ _ pieces hempty
    have hkept : ∀ path, path ≠ target ++ ascii ".tmp" →
        (file.writesChecked o pieces).2.files path = files path := fun path h => by
      rw [hothers' path (hpath ▸ h), hothers path h]
    rw [hcalls] at hdone
    rw [hpath] at hpath' hcontent
    split
    next file' hfails =>
      rw [hfails] at hpath' hdone hkept
      refine Replaces.nothing (fun h => Bool.false_ne_true (hdone.mpr h.2.1)) hne fun path h => ?_
      rw [unlink_of_ne _ h, Stream.fclose_of_ne (hpath' ▸ h)]
      exact hkept path h
    next file' hok =>
      rw [hok] at hpath' hdone hkept hcontent
      have hclosed := Replaces.close hne hpath' (hcontent rfl) hkept
        (fun files _ h => unlink_of_ne (o := o) files h)
        (fun files _ h => renameTmpFile_of_ne (o := o) target files h)
      exact hclosed.congr (by simp only [hopened, hdone.mp rfl, not_false_eq_true, true_and])

-- What is renamed is what got through.
theorem saveUnchecked_replaces (o : Outcomes) (target : Path) (pieces : List (List UInt8))
    (files : Files) :
    Replaces (o.fopen ∧ o.fclose ∧ o.rename) (target ++ ascii ".tmp") target (kept o 0 pieces) files
      (saveUnchecked o (target ++ ascii ".tmp") pieces files) := by
  have hne := target_ne_tmp target
  unfold saveUnchecked
  split
  next hopen => exact Replaces.nothing (fun h => fopen_eq_none.mp hopen h.1) hne fun _ _ => rfl
  next out hopen =>
    obtain ⟨hopened, hpath, hcontent, hothers⟩ := writes_of_fopen hopen pieces
    have hclosed := Replaces.close hne hpath hcontent hothers (fun _ _ _ => rfl)
      (fun files _ h => renameTmpFile_of_ne (o := o) target files h)
    exact hclosed.congr (by rw [and_iff_right hopened])

theorem handleSaveMessage_replaces (paths : Paths) (o : Outcomes) (ssl : OpenSSL)
    (name : List UInt8) (mail : Delivery) (files : Files) :
    Replaces (o.fopen ∧ o.fclose ∧ o.rename) (paths.maildir ++ ascii "tmp/" ++ name)
      (paths.maildir ++ ascii "new/" ++ name) (kept o 0 (saveMessage ssl mail)) files
      (handleSaveMessage paths o ssl name mail files) := by
  have hne : paths.maildir ++ ascii "new/" ++ name ≠ paths.maildir ++ ascii "tmp/" ++ name := by
    intro h
    rw [List.append_left_inj, List.append_right_inj] at h
    exact absurd h (by decide)
  have htarget : paths.maildir ++ ascii "new" ++
      (paths.maildir ++ ascii "tmp/" ++ name).drop (paths.maildir.length + 3) =
      paths.maildir ++ ascii "new/" ++ name := by
    rw [List.append_assoc, List.append_assoc, List.append_assoc, List.drop_append,
      Nat.add_sub_cancel_left, List.drop_of_length_le (Nat.le_add_right _ _), List.nil_append]
    rfl
  unfold handleSaveMessage
  dsimp only
  rw [htarget]
  split
  next hopen => exact Replaces.nothing (fun h => fopen_eq_none.mp hopen h.1) hne fun _ _ => rfl
  next out hopen =>
    obtain ⟨hopened, hpath, hcontent, hothers⟩ := writes_of_fopen hopen (saveMessage ssl mail)
    have hclosed := Replaces.close (o := o) hne hpath hcontent hothers (fun _ _ _ => rfl)
      (fun _ _ _ => rfl)
    exact hclosed.congr (by rw [and_iff_right hopened])

end Specs

/-! ## 4. All the writers -/

/-- The tasks of the store thread that write a file. -/
inductive SaveTask (ssl : OpenSSL) (curve : Curve) where
  | saveBlob (hash : Hash) (blob : Blob)
  | saveAddrList (addrs : List StoreAddr)
  | saveKeys (keys : List (StoredKey ssl curve))
  | saveOutgoings (outgoings : List Outgoing)
  | saveMessage (name : List UInt8) (mail : Delivery)
  | saveMessageContent (id : UInt64) (content : List UInt8)

namespace SaveTask

variable {ssl : OpenSSL} {curve : Curve} (inetNtop : List UInt8 → List UInt8) (paths : Paths)

/-- The cases of `store_thread_func` for these tasks. -/
def handle (o : Outcomes) : SaveTask ssl curve → Files → Files
  | saveBlob hash blob => handleSaveBlob paths o hash blob
  | saveAddrList addrs => handleSaveAddrList inetNtop paths o addrs
  | saveKeys keys => handleSaveKeys paths o keys
  | saveOutgoings outgoings => handleSaveOutgoings paths o ssl outgoings
  | saveMessage name mail => handleSaveMessage paths o ssl name mail
  | saveMessageContent id content => handleSaveMessageContent paths o id content

/-- The file that is to be written. -/
def target : SaveTask ssl curve → Path
  | saveBlob hash _ => hashFilename paths hash
  | saveAddrList _ => paths.directory ++ ascii "addr-list.txt"
  | saveKeys _ => paths.directory ++ ascii "keys.dat"
  | saveOutgoings _ => paths.directory ++ ascii "outgoing-messages.dat"
  | saveMessage name _ => paths.maildir ++ ascii "new/" ++ name
  | saveMessageContent id _ => messageContentFilename paths id

/-- The file that is written first. -/
def tmp (task : SaveTask ssl curve) : Path :=
  match task with
  | saveMessage name _ => paths.maildir ++ ascii "tmp/" ++ name
  | saveBlob _ _ | saveAddrList _ | saveKeys _ | saveOutgoings _ | saveMessageContent _ _ =>
    task.target paths ++ ascii ".tmp"

/-- What the file is to hold. -/
def content : SaveTask ssl curve → List UInt8
  | saveBlob _ blob => toBE 4 blob.type.toNat ++ blob.data
  | saveAddrList addrs => addrs.flatMap (addrLine inetNtop)
  | saveKeys keys => keys.flatMap writeKey
  | saveOutgoings outgoings => outgoings.flatMap (writeOutgoing ssl)
  | saveMessage _ mail => (Mail.saveMessage ssl mail).flatten
  | saveMessageContent _ content => content

/-- The writes it takes. -/
def writes : SaveTask ssl curve → List (List UInt8)
  | saveBlob _ blob => [toBE 4 blob.type.toNat, blob.data]
  | saveAddrList addrs => addrs.map (addrLine inetNtop)
  | saveKeys keys => keys.flatMap keyWrites
  | saveOutgoings outgoings => outgoings.map (writeOutgoing ssl)
  | saveMessage _ mail => Mail.saveMessage ssl mail
  | saveMessageContent _ content => [content]

/-- The handler looks at the results of its writes. -/
def checksWrites : SaveTask ssl curve → Bool
  | saveBlob _ _ | saveMessageContent _ _ => true
  | saveAddrList _ | saveKeys _ | saveOutgoings _ | saveMessage _ _ => false

/-- Something of the file is lost, and no call that the handler looks at fails. -/
def LosesSilently (o : Outcomes) (task : SaveTask ssl curve) : Prop :=
  task.checksWrites = false ∧ o.fopen ∧ Lost o 0 (task.writes inetNtop) ∧ o.fclose ∧ o.rename

/-- The target holds what it held before or all of the new content, and nothing else has changed but
the temporary file. -/
def Intact (task : SaveTask ssl curve) (files files' : Files) : Prop :=
  (files' (task.target paths) = files (task.target paths) ∨
    files' (task.target paths) = some (task.content inetNtop)) ∧
  ∀ path, path ≠ task.tmp paths → path ≠ task.target paths → files' path = files path

theorem flatten_writes (task : SaveTask ssl curve) :
    (task.writes inetNtop).flatten = task.content inetNtop := by
  cases task with
  | saveBlob hash blob => simp [writes, content]
  | saveAddrList addrs => rw [writes, content, List.flatMap_def]
  | saveKeys keys =>
    rw [writes, content]
    induction keys with
    | nil => rfl
    | cons key keys ih =>
      rw [List.flatMap_cons, List.flatten_append, List.flatMap_cons, flatten_keyWrites, ih]
  | saveOutgoings outgoings => rw [writes, content, List.flatMap_def]
  | saveMessage name mail => rfl
  | saveMessageContent id content => simp [writes, SaveTask.content]

/-- One case for each handler: what is renamed is what got through, and those that look at their
writes rename nothing else than the whole. -/
theorem handle_replaces (o : Outcomes) (task : SaveTask ssl curve) (files : Files) :
    Replaces (o.fopen ∧ (task.checksWrites → ¬ Lost o 0 (task.writes inetNtop)) ∧ o.fclose ∧
        o.rename) (task.tmp paths) (task.target paths) (kept o 0 (task.writes inetNtop)) files
      (task.handle inetNtop paths o files) := by
  have hchecked : ∀ (target : Path) (pieces : List (List UInt8)),
      Replaces (o.fopen ∧ (true → ¬ Lost o 0 pieces) ∧ o.fclose ∧ o.rename)
        (target ++ ascii ".tmp") target (kept o 0 pieces) files
        (saveChecked o (target ++ ascii ".tmp") pieces files) := fun target pieces => by
    have h := saveChecked_replaces o target pieces files
    simp only [forall_const]
    exact ⟨fun hyes => by rw [h.new hyes, kept_of_not_lost hyes.2.1], h.old, h.others⟩
  have hunchecked : ∀ (name nameTmp : List UInt8) (pieces : List (List UInt8)),
      nameTmp = name ++ ascii ".tmp" →
      Replaces (o.fopen ∧ (false → ¬ Lost o 0 pieces) ∧ o.fclose ∧ o.rename)
        (paths.directory ++ name ++ ascii ".tmp") (paths.directory ++ name) (kept o 0 pieces) files
        (saveUnchecked o (paths.directory ++ nameTmp) pieces files) := by
    rintro name nameTmp pieces rfl
    rw [← List.append_assoc]
    exact (saveUnchecked_replaces o (paths.directory ++ name) pieces files).congr (by simp)
  cases task with
  | saveBlob hash blob => exact hchecked (hashFilename paths hash) _
  | saveMessageContent id content => exact hchecked (messageContentFilename paths id) _
  | saveAddrList addrs => exact hunchecked (ascii "addr-list.txt") _ _ (by decide)
  | saveKeys keys => exact hunchecked (ascii "keys.dat") _ _ (by decide)
  | saveOutgoings outgoings => exact hunchecked (ascii "outgoing-messages.dat") _ _ (by decide)
  | saveMessage name mail =>
    exact (handleSaveMessage_replaces paths o ssl name mail files).congr
      (by simp [checksWrites])

/-- Whatever the files were, the target of a save holds its previous or its complete new content
exactly when the save does not lose a write that nobody looks at. -/
theorem save_intact_iff (o : Outcomes) (task : SaveTask ssl curve) :
    (∀ files, task.Intact inetNtop paths files (task.handle inetNtop paths o files)) ↔
      ¬ task.LosesSilently inetNtop o := by
  constructor
  · rintro hintact ⟨hunchecked, hopen, hlost, hclose, hrename⟩
    -- where there was no file there is one that is too short
    have hreplaces := task.handle_replaces inetNtop paths o fun _ => none
    have hnew := hreplaces.new ⟨hopen, by simp [hunchecked], hclose, hrename⟩
    rcases (hintact fun _ => none).1 with hold | hcomplete
    · rw [hnew] at hold
      cases hold
    · have hshort := length_kept_of_lost hlost
      rw [hnew, ← flatten_writes, Option.some.injEq] at hcomplete
      rw [hcomplete] at hshort
      exact lt_irrefl _ hshort
  · intro hsilent files
    have hreplaces := task.handle_replaces inetNtop paths o files
    refine ⟨?_, hreplaces.others⟩
    by_cases hcondition : o.fopen ∧ (task.checksWrites → ¬ Lost o 0 (task.writes inetNtop)) ∧
        o.fclose ∧ o.rename
    · obtain ⟨hopen, hchecked, hclose, hrename⟩ := hcondition
      have hwhole : ¬ Lost o 0 (task.writes inetNtop) := fun hlost => by
        cases hchecks : task.checksWrites with
        | true => exact hchecked hchecks hlost
        | false => exact hsilent ⟨hchecks, hopen, hlost, hclose, hrename⟩
      rw [hreplaces.new ⟨hopen, hchecked, hclose, hrename⟩, kept_of_not_lost hwhole, flatten_writes]
      exact .inr rfl
    · exact .inl (hreplaces.old hcondition)

/-- A disk that is full while the file is written. -/
def fullDisk : Outcomes where
  fopen := true
  write _ := false
  fclose := true
  flushed := 0
  rename := true
  unlink := true

/-- A list of one address. -/
def oneAddr : SaveTask OpenSSL.additive Curve.additive :=
  saveAddrList [{ timestamp := CInt64.zero, stream := 1, services := 1
                  address := { host := List.replicate 16 0, port := 8444 } }]

/-- The file of the addresses as it was before. -/
def goodAddrs (path : Path) : Option (List UInt8) :=
  if path = ascii "addr-list.txt" then some (ascii "0,1,1,[::]:8444\n") else none

theorem fullDisk_empties_addrs :
    let paths : Paths := { directory := [], maildir := [] }
    oneAddr.handle (fun _ => ascii "::") paths fullDisk goodAddrs (ascii "addr-list.txt") =
      some [] ∧
    ¬ oneAddr.Intact (fun _ => ascii "::") paths goodAddrs
      (oneAddr.handle (fun _ => ascii "::") paths fullDisk goodAddrs) := by
  intro paths
  have hempty : oneAddr.handle (fun _ => ascii "::") paths fullDisk goodAddrs
      (ascii "addr-list.txt") = some [] := by decide +kernel
  refine ⟨hempty, fun hintact => ?_⟩
  rcases hintact.1 with hold | hcomplete
  · rw [show oneAddr.target paths = ascii "addr-list.txt" from rfl, hempty] at hold
    exact absurd hold (by decide +kernel)
  · rw [show oneAddr.target paths = ascii "addr-list.txt" from rfl, hempty] at hcomplete
    exact absurd hcomplete (by decide +kernel)

end SaveTask

end Notbit.Store
