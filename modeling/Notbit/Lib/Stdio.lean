import Mathlib.Data.List.Basic
import Mathlib.Tactic

/-!
# Stdio — output streams whose calls may fail, and input by lines

A write that fails loses its bytes and nothing else.  Closing a stream reports only whether its own
flush failed: a writer that looks at nothing else does not learn of a lost write.  A line that is
read is cut where the buffer for it is full.
-/

namespace Stdio

abbrev Path := List UInt8

/-- What the paths of a file system hold. -/
abbrev Files := Path → Option (List UInt8)

/-- How the calls of one writer end: `write i` is that of its write with number `i`, and `flushed` is
how many bytes of the file are on the disk if `fclose` fails. -/
structure Outcomes where
  fopen : Bool
  write : Nat → Bool
  fclose : Bool
  flushed : Nat
  rename : Bool
  unlink : Bool

/-- Calls that all succeed. -/
def Outcomes.success : Outcomes where
  fopen := true
  write _ := true
  fclose := true
  flushed := 0
  rename := true
  unlink := true

/-- A file that is open for writing, and the number of writes so far. -/
structure Stream where
  path : Path
  files : Files
  calls : Nat

/-- `fopen` for writing: the file is there and empty. -/
def fopen (o : Outcomes) (path : Path) (files : Files) : Option Stream :=
  if o.fopen then some { path, files := Function.update files path (some []), calls := 0 } else none

/-- `unlink` -/
def unlink (o : Outcomes) (path : Path) (files : Files) : Files :=
  if o.unlink then Function.update files path none else files

/-- `rename` -/
def rename (o : Outcomes) (path target : Path) (files : Files) : Bool × Files :=
  if o.rename then (true, Function.update (Function.update files target (files path)) path none)
  else (false, files)

namespace Stream

/-- `fwrite`, `fprintf`, `fputs` or `fputc`; writing nothing cannot fail. -/
def write (o : Outcomes) (s : Stream) (bytes : List UInt8) : Bool × Stream :=
  if bytes = [] ∨ o.write s.calls then
    (true, { s with
      files := Function.update s.files s.path ((s.files s.path).map (· ++ bytes))
      calls := s.calls + 1 })
  else (false, { s with calls := s.calls + 1 })

/-- Writes whose results are not looked at. -/
def writes (o : Outcomes) (s : Stream) (pieces : List (List UInt8)) : Stream :=
  pieces.foldl (fun s bytes => (s.write o bytes).2) s

/-- Writes up to the first that fails. -/
def writesChecked (o : Outcomes) (s : Stream) : List (List UInt8) → Bool × Stream
  | [] => (true, s)
  | bytes :: pieces =>
    match s.write o bytes with
    | (true, s) => s.writesChecked o pieces
    | (false, s) => (false, s)

/-- `fclose` -/
def fclose (o : Outcomes) (s : Stream) : Bool × Files :=
  if o.fclose then (true, s.files)
  else (false, Function.update s.files s.path ((s.files s.path).map (·.take o.flushed)))

end Stream

/-- A write of something fails, from the write with number `n` on. -/
def Lost (o : Outcomes) (n : Nat) (pieces : List (List UInt8)) : Prop :=
  ∃ i bytes, pieces[i]? = some bytes ∧ bytes ≠ [] ∧ o.write (n + i) = false

/-- What gets through of some writes. -/
def kept (o : Outcomes) : Nat → List (List UInt8) → List UInt8
  | _, [] => []
  | n, bytes :: pieces => (if bytes = [] ∨ o.write n then bytes else []) ++ kept o (n + 1) pieces

section Writes

variable {o : Outcomes} {n : Nat} {bytes : List UInt8} {pieces : List (List UInt8)}

theorem lost_cons :
    Lost o n (bytes :: pieces) ↔ (bytes ≠ [] ∧ o.write n = false) ∨ Lost o (n + 1) pieces := by
  constructor
  · rintro ⟨i, lost, hi, hne, hwrite⟩
    cases i with
    | zero =>
      cases hi
      exact .inl ⟨hne, hwrite⟩
    | succ i => exact .inr ⟨i, lost, hi, hne, by rwa [show n + 1 + i = n + (i + 1) by omega]⟩
  · rintro (⟨hne, hwrite⟩ | ⟨i, lost, hi, hne, hwrite⟩)
    · exact ⟨0, bytes, rfl, hne, hwrite⟩
    · exact ⟨i + 1, lost, hi, hne, by rwa [show n + (i + 1) = n + 1 + i by omega]⟩

theorem length_kept_le (o : Outcomes) (n : Nat) (pieces : List (List UInt8)) :
    (kept o n pieces).length ≤ pieces.flatten.length := by
  induction pieces generalizing n with
  | nil => exact le_refl _
  | cons bytes pieces ih =>
    rw [kept, List.flatten_cons, List.length_append, List.length_append]
    have hrest := ih (n + 1)
    split_ifs
    · omega
    · rw [List.length_nil]
      omega

theorem kept_of_not_lost (h : ¬ Lost o n pieces) : kept o n pieces = pieces.flatten := by
  induction pieces generalizing n with
  | nil => rfl
  | cons bytes pieces ih =>
    rw [lost_cons, not_or] at h
    obtain ⟨hfirst, hrest⟩ := h
    have hwritten : bytes = [] ∨ o.write n := by
      by_contra hnot
      rw [not_or, Bool.not_eq_true] at hnot
      exact hfirst hnot
    rw [kept, if_pos hwritten, ih hrest, List.flatten_cons]

-- The loss shows in the length.
theorem length_kept_of_lost (h : Lost o n pieces) :
    (kept o n pieces).length < pieces.flatten.length := by
  induction pieces generalizing n with
  | nil =>
    obtain ⟨i, bytes, hi, -⟩ := h
    cases hi
  | cons bytes pieces ih =>
    rw [kept, List.flatten_cons, List.length_append, List.length_append]
    have hrest := length_kept_le o (n + 1) pieces
    rcases lost_cons.mp h with ⟨hne, hwrite⟩ | hlost
    · have hpos := List.length_pos_iff.mpr hne
      rw [if_neg (by simp [hne, hwrite]), List.length_nil]
      omega
    · have hlater := ih hlost
      split_ifs
      · omega
      · rw [List.length_nil]
        omega

end Writes

namespace Stream

variable {o : Outcomes} {s : Stream} {content : List UInt8}

theorem write_eq (bytes : List UInt8) (h : s.files s.path = some content) :
    s.write o bytes = (decide (bytes = [] ∨ o.write s.calls),
      { s with
        files := Function.update s.files s.path
          (some (content ++ if bytes = [] ∨ o.write s.calls then bytes else []))
        calls := s.calls + 1 }) := by
  unfold write
  split_ifs with hwrite
  · rw [h]
    simp [hwrite]
  · rw [List.append_nil, ← h, Function.update_eq_self]
    simp [hwrite]

-- What is in the file after a row of writes.
theorem writes_eq (pieces : List (List UInt8)) (h : s.files s.path = some content) :
    s.writes o pieces = { s with
      files := Function.update s.files s.path (some (content ++ kept o s.calls pieces))
      calls := s.calls + pieces.length } := by
  induction pieces generalizing s content with
  | nil =>
    rw [kept, List.append_nil, ← h, Function.update_eq_self]
    rfl
  | cons bytes pieces ih =>
    change (s.write o bytes).2.writes o pieces = _
    rw [write_eq bytes h]
    dsimp only
    rw [ih (Function.update_self ..)]
    simp only [Function.update_idem, kept, List.append_assoc, List.length_cons, Nat.add_assoc,
      Nat.add_comm 1]

/-- Writes that are checked all succeed, or say that something is lost; no other file is touched. -/
theorem writesChecked_spec (pieces : List (List UInt8)) (h : s.files s.path = some content) :
    (s.writesChecked o pieces).2.path = s.path ∧
    (∀ path, path ≠ s.path → (s.writesChecked o pieces).2.files path = s.files path) ∧
    ((s.writesChecked o pieces).1 = true ↔ ¬ Lost o s.calls pieces) ∧
    ((s.writesChecked o pieces).1 = true →
      (s.writesChecked o pieces).2.files s.path = some (content ++ pieces.flatten)) := by
  induction pieces generalizing s content with
  | nil =>
    refine ⟨rfl, fun _ _ => rfl, ⟨fun _ => ?_, fun _ => rfl⟩, fun _ => ?_⟩
    · rintro ⟨i, bytes, hi, -⟩
      cases hi
    · rw [List.flatten_nil, List.append_nil]
      exact h
  | cons bytes pieces ih =>
    rw [writesChecked, write_eq bytes h, lost_cons, List.flatten_cons]
    by_cases hwrite : bytes = [] ∨ o.write s.calls
    · rw [decide_eq_true hwrite, if_pos hwrite]
      dsimp only
      obtain ⟨hpath, hother, hdone, hcontent⟩ := ih (s := { s with
        files := Function.update s.files s.path (some (content ++ bytes)), calls := s.calls + 1 })
        (Function.update_self ..)
      refine ⟨hpath, fun path hne => ?_, ?_, fun hok => ?_⟩
      · rw [hother path hne]
        exact Function.update_of_ne hne _ _
      · rw [hdone]
        have hfirst : ¬ (bytes ≠ [] ∧ o.write s.calls = false) := by
          rintro ⟨hne, hfails⟩
          rcases hwrite with hempty | hok
          · exact hne hempty
          · rw [hfails] at hok
            cases hok
        simp only [hfirst, false_or]
      · rw [hcontent hok, List.append_assoc]
    · rw [decide_eq_false hwrite, if_neg hwrite]
      dsimp only
      rw [List.append_nil, ← h, Function.update_eq_self]
      rw [not_or, Bool.not_eq_true] at hwrite
      refine ⟨rfl, fun _ _ => rfl, ⟨nofun, fun hnot => ?_⟩, nofun⟩
      exact absurd (.inl hwrite) hnot

theorem fclose_of_ne {path : Path} (h : path ≠ s.path) : (s.fclose o).2 path = s.files path := by
  unfold fclose
  split_ifs
  · rfl
  · exact Function.update_of_ne h _ _

end Stream

theorem unlink_of_ne {o : Outcomes} {path other : Path} (files : Files) (h : other ≠ path) :
    unlink o path files other = files other := by
  unfold unlink
  split_ifs
  · exact Function.update_of_ne h _ _
  · rfl

/-- What a writer has done to the files: where the condition holds the target has a new content, and
it has the old one otherwise.  The temporary file may be anything. -/
structure Replaces (condition : Prop) (tmp target : Path) (content : List UInt8)
    (files files' : Files) : Prop where
  new : condition → files' target = some content
  old : ¬ condition → files' target = files target
  others : ∀ path, path ≠ tmp → path ≠ target → files' path = files path

section Replaces

variable {condition condition' : Prop} {o : Outcomes} {tmp target : Path} {content : List UInt8}
  {files files' : Files}

theorem Replaces.congr (h : Replaces condition tmp target content files files')
    (hiff : condition ↔ condition') : Replaces condition' tmp target content files files' where
  new h' := h.new (hiff.mpr h')
  old h' := h.old fun hyes => h' (hiff.mp hyes)
  others := h.others

theorem Replaces.nothing (hcondition : ¬ condition) (htarget : target ≠ tmp)
    (h : ∀ path, path ≠ tmp → files' path = files path) :
    Replaces condition tmp target content files files' where
  new hyes := absurd hyes hcondition
  old _ := h target htarget
  others path htmp _ := h path htmp

-- A complete file is renamed.
theorem Replaces.rename {closed : Files} (htarget : target ≠ tmp)
    (hclosed : closed tmp = some content) (hothers : ∀ path, path ≠ tmp → closed path = files path)
    (hrenamed : ∀ path, path ≠ tmp → files' path = (Stdio.rename o tmp target closed).2 path) :
    Replaces o.rename tmp target content files files' where
  new hyes := by
    rw [hrenamed target htarget, Stdio.rename, if_pos hyes]
    dsimp only
    rw [Function.update_of_ne htarget, Function.update_self, hclosed]
  old hno := by
    rw [hrenamed target htarget, Stdio.rename, if_neg hno]
    exact hothers target htarget
  others path htmp hne := by
    rw [hrenamed path htmp, Stdio.rename]
    split_ifs
    · dsimp only
      rw [Function.update_of_ne htmp, Function.update_of_ne hne]
      exact hothers path htmp
    · exact hothers path htmp

-- A file is closed and renamed, whatever else is done to the temporary file.
theorem Replaces.close {s : Stream} {failed closed : Files → Files} (htarget : target ≠ tmp)
    (hpath : s.path = tmp) (hcontent : s.files tmp = some content)
    (hothers : ∀ path, path ≠ tmp → s.files path = files path)
    (hfailed : ∀ files path, path ≠ tmp → failed files path = files path)
    (hclosed : ∀ files path, path ≠ tmp →
      closed files path = (Stdio.rename o tmp target files).2 path) :
    Replaces (o.fclose ∧ o.rename) tmp target content files
      (match s.fclose o with
        | (false, files) => failed files
        | (true, files) => closed files) := by
  by_cases hclose : o.fclose
  · rw [Stream.fclose, if_pos hclose]
    have hrenamed := Replaces.rename htarget hcontent hothers (hclosed s.files)
    exact hrenamed.congr (by rw [and_iff_right hclose])
  · have hkept := fun path => @Stream.fclose_of_ne o s path
    rw [Stream.fclose, if_neg hclose] at hkept ⊢
    refine Replaces.nothing (fun h => hclose h.1) htarget fun path htmp => ?_
    calc failed _ path = _ := hfailed _ path htmp
      _ = s.files path := hkept path (hpath ▸ htmp)
      _ = files path := hothers path htmp

end Replaces

/-! ## Input by lines -/

/-- `fgets` with room for so many characters: what is read, and what is left of the file. -/
def fgets : Nat → List UInt8 → List UInt8 × List UInt8
  | 0, file => ([], file)
  | _ + 1, [] => ([], [])
  | room + 1, ch :: file =>
    if ch = 10 then ([ch], file)
    else
      let (line, file) := fgets room file
      (ch :: line, file)

/-- The lines that are read up to the end of the file, at most the given number of them. -/
def fgetsLines (room : Nat) : Nat → List UInt8 → List (List UInt8)
  | 0, _ => []
  | _, [] => []
  | n + 1, file =>
    let (line, file) := fgets room file
    line :: fgetsLines room n file

/-- The loop over all lines of a file.  Each of them has at least one character. -/
def readLines (room : Nat) (file : List UInt8) : List (List UInt8) :=
  fgetsLines room file.length file

theorem fgets_line {room : Nat} {text : List UInt8} (htext : ∀ ch ∈ text, ch ≠ 10)
    (hroom : text.length < room) (rest : List UInt8) :
    fgets room (text ++ 10 :: rest) = (text ++ [10], rest) := by
  induction text generalizing room with
  | nil =>
    obtain ⟨room, rfl⟩ : ∃ n, room = n + 1 := ⟨room - 1, by omega⟩
    rfl
  | cons ch text ih =>
    obtain ⟨hch, htext⟩ := List.forall_mem_cons.mp htext
    rw [List.length_cons] at hroom
    obtain ⟨room, rfl⟩ : ∃ n, room = n + 1 := ⟨room - 1, by omega⟩
    rw [List.cons_append, fgets, if_neg hch, ih htext (by omega)]
    rfl

/-- Lines that fit into the buffer are read as they were written. -/
theorem readLines_flatMap {room : Nat} {texts : List (List UInt8)}
    (htexts : ∀ text ∈ texts, (∀ ch ∈ text, ch ≠ 10) ∧ text.length < room) :
    readLines room (texts.flatMap (· ++ [10])) = texts.map (· ++ [10]) := by
  have hcount : ∀ n, texts.length ≤ n →
      fgetsLines room n (texts.flatMap (· ++ [10])) = texts.map (· ++ [10]) := by
    induction texts with
    | nil =>
      intro n _
      cases n <;> rfl
    | cons text texts ih =>
      intro n hn
      obtain ⟨⟨hchars, hroom⟩, hrest⟩ := List.forall_mem_cons.mp htexts
      rw [List.length_cons] at hn
      obtain ⟨n, rfl⟩ : ∃ m, n = m + 1 := ⟨n - 1, by omega⟩
      have hline := fgets_line hchars hroom (texts.flatMap (· ++ [10]))
      rw [List.flatMap_cons, List.append_assoc, List.singleton_append]
      have hstep : fgetsLines room (n + 1) (text ++ 10 :: texts.flatMap (· ++ [10])) =
          (fgets room (text ++ 10 :: texts.flatMap (· ++ [10]))).1 ::
            fgetsLines room n (fgets room (text ++ 10 :: texts.flatMap (· ++ [10]))).2 := by
        cases text <;> rfl
      rw [hstep, hline, ih hrest n (by omega), List.map_cons]
  apply hcount
  rw [List.length_flatMap]
  have hsum := List.length_le_sum_of_one_le (texts.map fun text => (text ++ [10]).length) (by simp)
  rwa [List.length_map] at hsum

end Stdio
