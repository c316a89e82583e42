import Notbit.Buffer
import Notbit.Store.Outgoings
import Notbit.Store.Scan

/-!
# Cleanup — contents that no outgoing message uses (`ntb-store.c`)

While the outgoing messages are loaded their content ids are collected in a buffer, which is then
searched for the number in the name of each file.  The search goes through the whole block of the
buffer, and the block ends with the ids only when it is full.
-/

open Bytes Digits Notbit.Proto

namespace Notbit.Store

/-! ## 1. Numbers in file names -/

/-- A sign, and what is behind it. -/
def readSign : List UInt8 → Bool × List UInt8
  | 45 :: text => (true, text)
  | 43 :: text => (false, text)
  | text => (false, text)

/-- `0x` is passed over when a digit is behind it. -/
def skipHexPrefix : List UInt8 → List UInt8
  | 48 :: x :: ch :: text =>
    if (x = 120 ∨ x = 88) ∧ isHexDigit ch then ch :: text else 48 :: x :: ch :: text
  | text => text

def hexValue (digits : List UInt8) : Nat := value 16 (digits.map hexDigitValue)

/-- `strtoll` in base sixteen. -/
def strtollHex (text : List UInt8) : Strtoll :=
  let sign := readSign (text.dropWhile isSpace)
  let body := skipHexPrefix sign.2
  let digits := body.takeWhile isHexDigit
  let tail := body.dropWhile isHexDigit
  let number : Int := if sign.1 then -(hexValue digits : Int) else hexValue digits
  if digits = [] then { value := 0, errno := false, tail := text }
  else if number < -2 ^ 63 then { value := -2 ^ 63, errno := true, tail }
  else if 2 ^ 63 ≤ number then { value := 2 ^ 63 - 1, errno := true, tail }
  else { value := number, errno := false, tail }

/-- A hexadecimal number as `strtoll` knows it: blanks, a sign and `0x` may be in front of the
digits.  It is not negative, and there is no bound. -/
inductive HexNumber : List UInt8 → Nat → Prop where
  | mk {spaces sign mark digits : List UInt8} (hspaces : ∀ ch ∈ spaces, isSpace ch)
      (hsign : sign = [] ∨ sign = [43] ∨ sign = [45] ∧ hexValue digits = 0)
      (hmark : mark = [] ∨ mark = [48, 120] ∨ mark = [48, 88]) (hne : digits ≠ [])
      (hdigits : ∀ ch ∈ digits, isHexDigit ch) :
      HexNumber (spaces ++ (sign ++ (mark ++ digits))) (hexValue digits)

-- A digit is none of the other characters of a number.
theorem hexDigit_ne {ch : UInt8} (h : isHexDigit ch) :
    isSpace ch = false ∧ ch ≠ 43 ∧ ch ≠ 45 ∧ ch ≠ 46 ∧ ch ≠ 88 ∧ ch ≠ 120 := by
  simp only [isHexDigit, Bool.or_eq_true, Bool.and_eq_true, decide_eq_true_eq] at h
  have hspace : isSpace ch = false := by
    rw [isSpace, decide_eq_false_iff_not]
    rintro (rfl | hblank)
    · revert h
      decide
    · omega
  refine ⟨hspace, ?_, ?_, ?_, ?_, ?_⟩ <;> rintro rfl <;> revert h <;> decide

-- Where the characters of a kind end.
theorem span_append {p : UInt8 → Bool} {front rest : List UInt8} (hfront : ∀ ch ∈ front, p ch)
    (hrest : ∀ ch, rest.head? = some ch → p ch = false) :
    (front ++ rest).takeWhile p = front ∧ (front ++ rest).dropWhile p = rest := by
  rw [List.takeWhile_append_of_pos hfront, List.dropWhile_append_of_pos hfront]
  cases rest with
  | nil => simp
  | cons ch rest => simp [hrest ch rfl]

section Reading

variable {body digits rest : List UInt8}

theorem readSign_append {sign : List UInt8} (hsign : sign = [] ∨ sign = [43] ∨ sign = [45])
    (hbody : ∀ ch, body.head? = some ch → isHexDigit ch) :
    readSign (sign ++ body) = (decide (sign = [45]), body) := by
  rcases hsign with rfl | rfl | rfl
  · cases body with
    | nil => rfl
    | cons ch body =>
      obtain ⟨-, hplus, hminus, -⟩ := hexDigit_ne (hbody ch rfl)
      unfold readSign
      split
      · next h => exact absurd (List.cons.inj h).1 hminus
      · next h => exact absurd (List.cons.inj h).1 hplus
      · rfl
  · rfl
  · rfl

theorem skipHexPrefix_append {mark : List UInt8}
    (hmark : mark = [] ∨ mark = [48, 120] ∨ mark = [48, 88]) (hne : digits ≠ [])
    (hdigits : ∀ ch ∈ digits, isHexDigit ch)
    (hrest : ∀ ch, rest.head? = some ch → ch = 46) :
    skipHexPrefix (mark ++ (digits ++ rest)) = digits ++ rest := by
  obtain ⟨d, ds, rfl⟩ := List.exists_cons_of_ne_nil hne
  have hd : isHexDigit d := hdigits d List.mem_cons_self
  rcases hmark with rfl | rfl | rfl
  · -- what is behind a zero in front is no `x`
    rw [List.nil_append]
    unfold skipHexPrefix
    split
    · next x ch text heq =>
      have hx : x ≠ 120 ∧ x ≠ 88 := by
        cases ds with
        | cons e es =>
          have hex : e = x := (List.cons.inj (List.cons.inj heq).2).1
          obtain ⟨-, -, -, -, hupper, hlower⟩ :=
            hexDigit_ne (hdigits e (List.mem_cons_of_mem _ List.mem_cons_self))
          exact hex ▸ ⟨hlower, hupper⟩
        | nil =>
          have hhead : rest.head? = some x := by
            rw [List.cons_append, List.nil_append] at heq
            rw [(List.cons.inj heq).2]
            rfl
          rw [hrest x hhead]
          decide
      rw [if_neg (by simp [hx.1, hx.2]), heq]
    · rfl
  · simp [skipHexPrefix, hd]
  · simp [skipHexPrefix, hd]

/-- A number that ends with its name or before a dot is read as a whole. -/
theorem strtollHex_append {text : List UInt8} {v : Nat} (h : HexNumber text v) (rest : List UInt8)
    (hrest : ∀ ch, rest.head? = some ch → ch = 46) :
    strtollHex (text ++ rest) =
      if v < 2 ^ 63 then { value := v, errno := false, tail := rest }
      else { value := 2 ^ 63 - 1, errno := true, tail := rest } := by
  obtain @⟨spaces, sign, mark, digits, hspaces, hsign, hmark, hne, hdigits⟩ := h
  have hsign' : sign = [] ∨ sign = [43] ∨ sign = [45] := by
    rcases hsign with h | h | h
    · exact Or.inl h
    · exact Or.inr (Or.inl h)
    · exact Or.inr (Or.inr h.1)
  have hhead : ∀ ch, (mark ++ (digits ++ rest)).head? = some ch → isHexDigit ch := by
    obtain ⟨d, ds, rfl⟩ := List.exists_cons_of_ne_nil hne
    rcases hmark with rfl | rfl | rfl
    · rintro ch ⟨⟩
      exact hdigits d List.mem_cons_self
    · rintro ch ⟨⟩
      decide
    · rintro ch ⟨⟩
      decide
  have hskip : (spaces ++ (sign ++ (mark ++ (digits ++ rest)))).dropWhile isSpace =
      sign ++ (mark ++ (digits ++ rest)) := by
    refine (span_append hspaces fun ch hch => ?_).2
    rcases hsign' with rfl | rfl | rfl
    · exact (hexDigit_ne (hhead ch hch)).1
    · obtain rfl : 43 = ch := Option.some.inj hch
      decide
    · obtain rfl : 45 = ch := Option.some.inj hch
      decide
  have hend := span_append hdigits fun ch hch => by rw [hrest ch hch]; decide
  have hnumber : (if decide (sign = [45]) then -(hexValue digits : Int) else hexValue digits) =
      (hexValue digits : Int) := by
    split
    · next hminus =>
      rcases hsign with rfl | rfl | ⟨-, hzero⟩
      · simp at hminus
      · simp at hminus
      · rw [hzero]
        rfl
    · rfl
  unfold strtollHex
  simp only [List.append_assoc, hskip, readSign_append hsign' hhead,
    skipHexPrefix_append hmark hne hdigits hrest, hend, hnumber, if_neg hne]
  rw [if_neg (by omega)]
  by_cases hsmall : hexValue digits < 2 ^ 63
  · rw [if_neg (by omega), if_pos hsmall]
  · rw [if_pos (by omega), if_neg hsmall]

theorem readSign_spec (text : List UInt8) :
    ∃ sign, text = sign ++ (readSign text).2 ∧
      (sign = [45] ∧ (readSign text).1 = true ∨
        (sign = [] ∨ sign = [43]) ∧ (readSign text).1 = false) := by
  unfold readSign
  split
  · exact ⟨[45], rfl, Or.inl ⟨rfl, rfl⟩⟩
  · exact ⟨[43], rfl, Or.inr ⟨Or.inr rfl, rfl⟩⟩
  · exact ⟨[], rfl, Or.inr ⟨Or.inl rfl, rfl⟩⟩

theorem skipHexPrefix_spec (text : List UInt8) :
    ∃ mark, text = mark ++ skipHexPrefix text ∧
      (mark = [] ∨ mark = [48, 120] ∨ mark = [48, 88]) := by
  unfold skipHexPrefix
  split
  · next x ch text =>
    split
    · next h =>
      rcases h.1 with rfl | rfl
      · exact ⟨[48, 120], rfl, Or.inr (Or.inl rfl)⟩
      · exact ⟨[48, 88], rfl, Or.inr (Or.inr rfl)⟩
    · exact ⟨[], rfl, Or.inl rfl⟩
  · exact ⟨[], rfl, Or.inl rfl⟩

/-- What `strtoll` takes for a number is one. -/
theorem hexNumber_of_strtollHex {text : List UInt8} (herrno : (strtollHex text).errno = false)
    (htail : (strtollHex text).tail ≠ text) (hvalue : 0 ≤ (strtollHex text).value) :
    ∃ front, text = front ++ (strtollHex text).tail ∧
      HexNumber front (strtollHex text).value.toNat := by
  obtain ⟨sign, hsigned, hsign⟩ := readSign_spec (text.dropWhile isSpace)
  obtain ⟨mark, hmarked, hmark⟩ := skipHexPrefix_spec (readSign (text.dropWhile isSpace)).2
  generalize hbody : skipHexPrefix (readSign (text.dropWhile isSpace)).2 = body at hmarked
  have hspaces : ∀ ch ∈ text.takeWhile isSpace, isSpace ch := fun ch hch =>
    List.mem_takeWhile_imp hch
  have hdigits : ∀ ch ∈ body.takeWhile isHexDigit, isHexDigit ch := fun ch hch =>
    List.mem_takeWhile_imp hch
  have htext : text = text.takeWhile isSpace ++ (sign ++ (mark ++
      (body.takeWhile isHexDigit ++ body.dropWhile isHexDigit))) := by
    rw [List.takeWhile_append_dropWhile, ← hmarked, ← hsigned, List.takeWhile_append_dropWhile]
  unfold strtollHex at herrno htail hvalue ⊢
  simp only [hbody] at herrno htail hvalue ⊢
  generalize hz : (if (readSign (text.dropWhile isSpace)).1 = true then
    -(hexValue (body.takeWhile isHexDigit) : Int) else hexValue (body.takeWhile isHexDigit)) = z
    at herrno htail hvalue ⊢
  by_cases hne : body.takeWhile isHexDigit = []
  · rw [if_pos hne] at htail
    exact absurd rfl htail
  · rw [if_neg hne] at herrno hvalue ⊢
    by_cases hlow : z < -2 ^ 63
    · rw [if_pos hlow] at herrno
      cases herrno
    · rw [if_neg hlow] at herrno hvalue ⊢
      by_cases hhigh : 2 ^ 63 ≤ z
      · rw [if_pos hhigh] at herrno
        cases herrno
      · rw [if_neg hhigh] at hvalue ⊢
        -- a number with a minus is zero
        have hcases : z.toNat = hexValue (body.takeWhile isHexDigit) ∧
            (sign = [] ∨ sign = [43] ∨
              sign = [45] ∧ hexValue (body.takeWhile isHexDigit) = 0) := by
          dsimp only at hvalue
          rcases hsign with ⟨rfl, hminus⟩ | ⟨hplain, hplus⟩
          · rw [if_pos hminus] at hz
            exact ⟨by omega, Or.inr (Or.inr ⟨rfl, by omega⟩)⟩
          · rw [if_neg (by rw [hplus]; exact Bool.false_ne_true)] at hz
            exact ⟨by omega, hplain.imp_right Or.inl⟩
        refine ⟨text.takeWhile isSpace ++ (sign ++ (mark ++ body.takeWhile isHexDigit)), ?_, ?_⟩
        · simpa only [List.append_assoc] using htext
        · rw [hcases.1]
          exact .mk hspaces hcases.2 hmark hne hdigits

theorem HexNumber.ne_nil {text : List UInt8} {v : Nat} (h : HexNumber text v) : text ≠ [] := by
  obtain ⟨-, -, -, hne, -⟩ := h
  simp [hne]

end Reading

/-! ## 2. The ids in use -/

/-- `used_content_ids`: the size of its block in bytes, and the ids. -/
structure UsedContentIds where
  size : Nat := 0
  ids : List UInt64 := []

namespace UsedContentIds

/-- `ntb_buffer_append` in `for_each_outgoing_cb`. -/
def append (used : UsedContentIds) (contentId : UInt64) : UsedContentIds where
  size := doubledSize ((used.ids.length + 1) * 8) ((used.ids.length + 1) * 8) (max used.size 1)
  ids := used.ids ++ [contentId]

/-- The numbers in the whole block; `unused` is what stands behind the ids. -/
def block (unused : Nat → UInt64) (used : UsedContentIds) : List UInt64 :=
  used.ids ++ (List.range (used.size / 8 - used.ids.length)).map unused

/-- A block that was doubled until it was large enough. -/
def Sized (used : UsedContentIds) : Prop :=
  used.size = 0 ∧ used.ids = [] ∨
    ∃ k, used.size = 8 * 2 ^ k ∧ used.ids.length ≤ 2 ^ k ∧ 2 ^ k < 2 * used.ids.length

theorem doubledSize_of_le {size rounds newSize : Nat} (h : size ≤ newSize) :
    doubledSize size rounds newSize = newSize := by
  cases rounds with
  | zero => rfl
  | succ rounds => rw [doubledSize, if_neg (by omega)]

theorem Sized.append {used : UsedContentIds} (h : used.Sized) (contentId : UInt64) :
    (used.append contentId).Sized := by
  unfold Sized UsedContentIds.append
  rw [List.length_append, List.length_singleton]
  rcases h with ⟨hsize, hids⟩ | ⟨k, hsize, hle, hlt⟩
  · -- the first id: from one byte to eight
    rw [hsize, hids]
    have height : doubledSize ((([] : List UInt64).length + 1) * 8)
        ((([] : List UInt64).length + 1) * 8) (max 0 1) = 8 := by decide
    exact Or.inr ⟨0, height, by decide, by decide⟩
  · right
    have hpos : 0 < 2 ^ k := Nat.two_pow_pos k
    rw [hsize, Nat.max_eq_left (by omega)]
    by_cases hroom : used.ids.length + 1 ≤ 2 ^ k
    · exact ⟨k, doubledSize_of_le (by omega), hroom, by omega⟩
    · -- the block is full and is doubled once
      have hpow : 2 ^ (k + 1) = 2 * 2 ^ k := by rw [pow_succ, Nat.mul_comm]
      refine ⟨k + 1, ?_, by omega, by omega⟩
      obtain ⟨rounds, hrounds⟩ : ∃ rounds, (used.ids.length + 1) * 8 = rounds + 1 :=
        ⟨(used.ids.length + 1) * 8 - 1, by omega⟩
      show doubledSize ((used.ids.length + 1) * 8) ((used.ids.length + 1) * 8) (8 * 2 ^ k) = _
      rw [hrounds, doubledSize, if_pos (by omega), doubledSize_of_le (by omega), hpow]
      omega

/-- Nothing stands behind the ids exactly if their number is a power of two, or there are none. -/
theorem Sized.block_full_iff {used : UsedContentIds} (h : used.Sized) :
    used.size / 8 - used.ids.length = 0 ↔ used.ids = [] ∨ ∃ k, used.ids.length = 2 ^ k := by
  rcases h with ⟨hsize, hids⟩ | ⟨k, hsize, hle, hlt⟩
  · simp [hsize, hids]
  · have hfull : used.size / 8 - used.ids.length = 0 ↔ used.ids.length = 2 ^ k := by omega
    rw [hfull]
    constructor
    · exact fun heq => Or.inr ⟨k, heq⟩
    · rintro (hnil | ⟨j, hj⟩)
      · rw [hnil, List.length_nil] at hlt
        omega
      · -- the powers of two are too far apart for another one
        rw [hj, ← pow_succ'] at hlt
        rw [hj] at hle
        have hjk : j ≤ k := (Nat.pow_le_pow_iff_right (by norm_num)).mp hle
        have hkj : k < j + 1 := (Nat.pow_lt_pow_iff_right (by norm_num)).mp hlt
        rw [hj, show j = k by omega]

/-- The buffer after the messages were loaded. -/
def collect (contentIds : List UInt64) : UsedContentIds := contentIds.foldl append {}

theorem collect_concat (contentIds : List UInt64) (contentId : UInt64) :
    collect (contentIds ++ [contentId]) = (collect contentIds).append contentId :=
  List.foldl_concat ..

theorem collect_ids (contentIds : List UInt64) : (collect contentIds).ids = contentIds := by
  induction contentIds using List.reverseRecOn with
  | nil => rfl
  | append_singleton contentIds contentId ih => rw [collect_concat, append, ih]

theorem collect_sized (contentIds : List UInt64) : (collect contentIds).Sized := by
  induction contentIds using List.reverseRecOn with
  | nil => exact Or.inl ⟨rfl, rfl⟩
  | append_singleton contentIds contentId ih =>
    rw [collect_concat]
    exact ih.append contentId

end UsedContentIds

/-! ## 3. The files -/

/-- `maybe_delete_outgoing`: whether the file is unlinked. -/
def maybeDeleteOutgoing (directory filename : List UInt8) (usedContentIds : List UInt64) : Bool :=
  let bn := filename.drop (directory.length + 9)
  let number := strtollHex bn
  if number.errno ∨ number.tail = bn ∨ number.value < 0 then false
  else if number.tail ≠ [] then number.tail = ascii ".tmp"
  else UInt64.ofNat number.value.toNat ∉ usedContentIds

/-- The path of a file of the outgoing directory. -/
def outgoingPath (directory : List UInt8) (name : List UInt8) : List UInt8 :=
  directory ++ ascii "outgoing" ++ ascii "/" ++ name

/-- `delete_unused_outgoings`: the paths that are unlinked.  `names` is what `readdir` finds in the
outgoing directory, if it can be opened. -/
def deleteUnusedOutgoings (directory : List UInt8) (names : Option (List (List UInt8)))
    (usedContentIds : List UInt64) : List (List UInt8) :=
  match names with
  | none => []
  | some names =>
    (names.map (outgoingPath directory)).filter fun filename =>
      maybeDeleteOutgoing directory filename usedContentIds

/-- `ntb_store_for_each_outgoing`: the messages that are reported and the paths that are unlinked.
Without a file of messages nothing is cleaned up. -/
def forEachOutgoing (ssl : OpenSSL) (uninitialised : Outgoing) (unused : Nat → UInt64)
    (directory : List UInt8) (file : Option (List UInt8)) (names : Option (List (List UInt8))) :
    List Outgoing × List (List UInt8) :=
  match file with
  | none => ([], [])
  | some file =>
    let outgoings := loadOutgoings ssl uninitialised file
    let used := UsedContentIds.collect (outgoings.map (·.contentId))
    (outgoings, deleteUnusedOutgoings directory names (used.block unused))

/-- A file that the cleanup is there for: a number that is no content id of the loaded messages, or
what a save of a content that was interrupted has left. -/
def Leftover (contentIds : List UInt64) (name : List UInt8) : Prop :=
  (∃ v, HexNumber name v ∧ ∀ id ∈ contentIds, id.toNat ≠ v) ∨
    ∃ front v, name = front ++ ascii ".tmp" ∧ HexNumber front v

/-- Whatever the memory holds, the leftover files are deleted and no others. -/
def CleansUp (ssl : OpenSSL) (uninitialised : Outgoing) (directory file : List UInt8)
    (names : List (List UInt8)) : Prop :=
  ∀ unused path,
    path ∈ (forEachOutgoing ssl uninitialised unused directory (some file) (some names)).2 ↔
    ∃ name ∈ names, path = outgoingPath directory name ∧
      Leftover ((loadOutgoings ssl uninitialised file).map (·.contentId)) name

/-! ## 4. When the cleanup is right -/

section Right

variable {directory name : List UInt8} {used : List UInt64} {v : Nat}

theorem drop_outgoingPath (directory name : List UInt8) :
    (outgoingPath directory name).drop (directory.length + 9) = name := by
  unfold outgoingPath
  apply List.drop_left'
  rw [List.length_append, List.length_append]
  rfl

theorem outgoingPath_inj {name' : List UInt8}
    (h : outgoingPath directory name = outgoingPath directory name') : name = name' := by
  rw [← drop_outgoingPath directory name, h, drop_outgoingPath]

theorem maybeDelete_number (h : HexNumber name v) :
    maybeDeleteOutgoing directory (outgoingPath directory name) used = true ↔
      v < 2 ^ 63 ∧ UInt64.ofNat v ∉ used := by
  have hread := strtollHex_append h [] nofun
  rw [List.append_nil] at hread
  unfold maybeDeleteOutgoing
  dsimp only
  rw [drop_outgoingPath, hread]
  by_cases hsmall : v < 2 ^ 63
  · rw [if_pos hsmall, and_iff_right hsmall]
    simp [h.ne_nil.symm]
  · rw [if_neg hsmall]
    exact iff_of_false (by simp) fun hdeleted => hsmall hdeleted.1

theorem maybeDelete_temporary {front : List UInt8} (hname : name = front ++ ascii ".tmp")
    (h : HexNumber front v) :
    maybeDeleteOutgoing directory (outgoingPath directory name) used = true ↔ v < 2 ^ 63 := by
  have hread := strtollHex_append h (ascii ".tmp") (by rintro ch ⟨⟩; rfl)
  have htail : ascii ".tmp" ≠ front ++ ascii ".tmp" := by
    intro heq
    have hlen := congrArg List.length heq
    rw [List.length_append] at hlen
    exact h.ne_nil (List.length_eq_zero_iff.mp (by omega))
  unfold maybeDeleteOutgoing
  dsimp only
  rw [drop_outgoingPath, hname, hread]
  by_cases hsmall : v < 2 ^ 63
  · have hne : ascii ".tmp" ≠ [] := by decide
    rw [if_pos hsmall]
    exact iff_of_true (by simp [htail, hne]) hsmall
  · rw [if_neg hsmall]
    exact iff_of_false (by simp) hsmall

theorem form_of_maybeDelete
    (h : maybeDeleteOutgoing directory (outgoingPath directory name) used = true) :
    (∃ v, HexNumber name v) ∨ ∃ front v, name = front ++ ascii ".tmp" ∧ HexNumber front v := by
  unfold maybeDeleteOutgoing at h
  rw [drop_outgoingPath] at h
  dsimp only at h
  split at h
  · cases h
  · next hnumber =>
    push Not at hnumber
    obtain ⟨herrno, htail, hvalue⟩ := hnumber
    obtain ⟨front, hname, hhex⟩ :=
      hexNumber_of_strtollHex (by simpa using herrno) htail hvalue
    split at h
    · next hrest =>
      rw [of_decide_eq_true h] at hname
      exact Or.inr ⟨front, _, hname, hhex⟩
    · next hrest =>
      rw [not_not.mp hrest, List.append_nil] at hname
      rw [← hname] at hhex
      exact Or.inl ⟨_, hhex⟩

/-- A file that the code treats as it should: a number that no message uses is below 2^63 and is not
compared with anything but the ids, and so is the number of a temporary file below 2^63. -/
def Settled (contentIds : List UInt64) (name : List UInt8) : Prop :=
  (∀ v, HexNumber name v → (∀ id ∈ contentIds, id.toNat ≠ v) →
    v < 2 ^ 63 ∧ (contentIds = [] ∨ ∃ k, contentIds.length = 2 ^ k)) ∧
  ∀ front v, name = front ++ ascii ".tmp" → HexNumber front v → v < 2 ^ 63

theorem not_mem_of_toNat_ne {ids : List UInt64} (hv : v < 2 ^ 63) :
    UInt64.ofNat v ∉ ids ↔ ∀ id ∈ ids, id.toNat ≠ v := by
  have hnat : (UInt64.ofNat v).toNat = v := UInt64.toNat_ofNat_of_lt' (by
    rw [UInt64.size]
    omega)
  constructor
  · rintro hmem id hid rfl
    rw [UInt64.ofNat_toNat] at hmem
    exact hmem hid
  · exact fun hall hmem => hall _ hmem hnat

variable {contentIds : List UInt64}

theorem mem_block {unused : Nat → UInt64} {id : UInt64} (hid : id ∉ contentIds)
    (h : id ∈ (UsedContentIds.collect contentIds).block unused) :
    (UsedContentIds.collect contentIds).size / 8 - contentIds.length ≠ 0 := by
  rw [UsedContentIds.block, UsedContentIds.collect_ids] at h
  rcases List.mem_append.mp h with h | h
  · exact absurd h hid
  · obtain ⟨i, hi, -⟩ := List.mem_map.mp h
    rw [List.mem_range] at hi
    omega

theorem subset_block (unused : Nat → UInt64) {id : UInt64} (hid : id ∈ contentIds) :
    id ∈ (UsedContentIds.collect contentIds).block unused := by
  rw [UsedContentIds.block, UsedContentIds.collect_ids]
  exact List.mem_append_left _ hid

-- A number behind the ids is taken for an id.
theorem mem_block_of_room {id : UInt64}
    (hroom : (UsedContentIds.collect contentIds).size / 8 - contentIds.length ≠ 0) :
    id ∈ (UsedContentIds.collect contentIds).block fun _ => id := by
  rw [UsedContentIds.block, UsedContentIds.collect_ids]
  apply List.mem_append_right
  exact List.mem_map.mpr ⟨0, List.mem_range.mpr (by omega), rfl⟩

theorem settled_iff (directory : List UInt8) (contentIds : List UInt64) (name : List UInt8) :
    (∀ unused, maybeDeleteOutgoing directory (outgoingPath directory name)
        ((UsedContentIds.collect contentIds).block unused) = true ↔ Leftover contentIds name) ↔
      Settled contentIds name := by
  have hfull := (UsedContentIds.collect_sized contentIds).block_full_iff
  rw [UsedContentIds.collect_ids] at hfull
  constructor
  · intro hall
    refine ⟨fun v hv hfree => ?_, fun front v hname hv => ?_⟩
    · have hdeleted := fun unused =>
        (maybeDelete_number hv).mp ((hall unused).mpr (Or.inl ⟨v, hv, hfree⟩))
      refine ⟨(hdeleted fun _ => 0).1, hfull.mp ?_⟩
      by_contra hroom
      exact (hdeleted fun _ => UInt64.ofNat v).2 (mem_block_of_room hroom)
    · exact (maybeDelete_temporary hname hv).mp
        ((hall fun _ => 0).mpr (Or.inr ⟨front, v, hname, hv⟩))
  · rintro ⟨hnumber, htemporary⟩ unused
    constructor
    · intro hdelete
      rcases form_of_maybeDelete hdelete with ⟨v, hv⟩ | htmp
      · obtain ⟨hsmall, hfree⟩ := (maybeDelete_number hv).mp hdelete
        refine Or.inl ⟨v, hv, (not_mem_of_toNat_ne hsmall).mp fun hmem => ?_⟩
        exact hfree (subset_block unused hmem)
      · exact Or.inr htmp
    · rintro (⟨v, hv, hfree⟩ | ⟨front, v, hname, hv⟩)
      · obtain ⟨hsmall, hids⟩ := hnumber v hv hfree
        refine (maybeDelete_number hv).mpr ⟨hsmall, fun hmem => ?_⟩
        exact mem_block ((not_mem_of_toNat_ne hsmall).mpr hfree) hmem (hfull.mpr hids)
      · exact (maybeDelete_temporary hname hv).mpr (htemporary front v hname hv)

/-- The cleanup is right exactly if each file of the directory is settled: where a number belongs to
no message, the number of messages is zero or a power of two. -/
theorem cleansUp_iff (ssl : OpenSSL) (uninitialised : Outgoing) (directory file : List UInt8)
    (names : List (List UInt8)) :
    CleansUp ssl uninitialised directory file names ↔ ∀ name ∈ names,
      Settled ((loadOutgoings ssl uninitialised file).map (·.contentId)) name := by
  unfold CleansUp forEachOutgoing deleteUnusedOutgoings
  dsimp only
  generalize (loadOutgoings ssl uninitialised file).map (·.contentId) = contentIds
  constructor
  · intro hall name hname
    rw [← settled_iff directory]
    intro unused
    have hpath := hall unused (outgoingPath directory name)
    constructor
    · intro hdelete
      obtain ⟨other, -, heq, hleft⟩ := hpath.mp
        (List.mem_filter.mpr ⟨List.mem_map_of_mem hname, hdelete⟩)
      rwa [outgoingPath_inj heq]
    · intro hleft
      exact (List.mem_filter.mp (hpath.mpr ⟨name, hname, rfl, hleft⟩)).2
  · intro hall unused path
    rw [List.mem_filter, List.mem_map]
    constructor
    · rintro ⟨⟨name, hname, rfl⟩, hdelete⟩
      have hsettled := (settled_iff directory contentIds name).mpr (hall name hname) unused
      exact ⟨name, hname, rfl, hsettled.mp hdelete⟩
    · rintro ⟨name, hname, rfl, hleft⟩
      have hsettled := (settled_iff directory contentIds name).mpr (hall name hname) unused
      exact ⟨⟨name, hname, rfl⟩, hsettled.mpr hleft⟩

end Right

/-- A file with three messages. -/
def threeMessages : List UInt8 :=
  [sampleOutgoing, sampleOutgoing, sampleOutgoing].flatMap (writeOutgoing OpenSSL.additive)

/-- With three messages the fourth number of the block is whatever the memory holds, and if that is
five, the unused file `5` is kept. -/
theorem threeMessages_not_cleansUp :
    (forEachOutgoing OpenSSL.additive sampleOutgoing (fun _ => 5) (ascii "/tmp/")
        (some threeMessages) (some [ascii "5"])).2 = [] ∧
      ¬ CleansUp OpenSSL.additive sampleOutgoing (ascii "/tmp/") threeMessages [ascii "5"] := by
  have hsavable : sampleOutgoing.Savable := ⟨by decide, by decide, by decide⟩
  have hload := (loadOutgoings_flatMap OpenSSL.additive sampleOutgoing
    [sampleOutgoing, sampleOutgoing, sampleOutgoing] (by simp [hsavable])).1
  have hkept : (forEachOutgoing OpenSSL.additive sampleOutgoing (fun _ => 5) (ascii "/tmp/")
      (some threeMessages) (some [ascii "5"])).2 = [] := by
    unfold forEachOutgoing threeMessages
    dsimp only
    rw [hload]
    decide
  refine ⟨hkept, fun hall => ?_⟩
  have hfive : HexNumber (ascii "5") 5 :=
    @HexNumber.mk [] [] [] (ascii "5") nofun (Or.inl rfl) (Or.inl rfl) (by decide)
      (List.all_eq_true.mp rfl)
  have hleft : Leftover ((loadOutgoings OpenSSL.additive sampleOutgoing threeMessages).map
      (·.contentId)) (ascii "5") := by
    refine Or.inl ⟨5, hfive, ?_⟩
    unfold threeMessages
    rw [hload]
    intro id hid
    have heq : id = 2147483647 := by simpa [sampleOutgoing] using hid
    rw [heq]
    decide
  have hmem := (hall (fun _ => 5) _).mpr ⟨_, List.mem_singleton_self _, rfl, hleft⟩
  rw [hkept] at hmem
  cases hmem

end Notbit.Store
