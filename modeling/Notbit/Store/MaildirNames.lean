import Notbit.Store.KeyValue

/-!
# MaildirNames — the names of the files in the maildir (`generate_maildir_name`)

A name is made of the time, the number of messages saved so far and the name of the host, which is
asked for with more and more room.  The characters that may not stand in a file name are replaced by
themselves, because the octal escapes in the source are those of these characters.
-/

open Bytes Notbit.Proto

namespace Notbit.Store

/-! ## 1. Making a name -/

/-- Bytes that are written from an address on. -/
def writeAt (mem : Memory) (p : Nat) (bs : List UInt8) : Memory := fun i =>
  if p ≤ i ∧ i < p + bs.length then bs.getD (i - p) 0 else mem i

/-- `struct ntb_buffer` with as much memory as is asked for: what stands behind the bytes in use is
what the memory will hold when the block is made larger. -/
structure PathBuffer where
  data : Memory
  length : Nat

/-- What a call of `gethostname` does: it returns a name, or it fails with `ENAMETOOLONG` and leaves
some bytes in the buffer, or it fails with another error. -/
inductive HostResult where
  | name (host : List UInt8)
  | tooLong (left : List UInt8)
  | error

/-- The loop that asks for the name. -/
structure HostLoop where
  buffer : PathBuffer
  hostnameLength : Nat

/-- What one round of the loop leads to: another round, the name behind the buffer, or something that
is not defined in C. -/
inductive HostRound where
  | again (loop : HostLoop)
  | found (loop : HostLoop)
  | undefined

/-- One round of the loop.  A name that does not fit is cut off, if this is no error. -/
def HostLoop.round (loop : HostLoop) : HostResult → HostRound
  | .name host =>
    let written := host.take (loop.hostnameLength - 1) ++ [0]
    .found { loop with buffer :=
      { loop.buffer with data := writeAt loop.buffer.data loop.buffer.length written } }
  | .tooLong left =>
    let written := left.take loop.hostnameLength
    -- the length is an `int`
    if loop.hostnameLength * 2 < 2 ^ 31 then
      .again
        { buffer :=
            { loop.buffer with data := writeAt loop.buffer.data loop.buffer.length written }
          hostnameLength := loop.hostnameLength * 2 }
    else .undefined
  | .error =>
    -- behind an empty buffer the next address is in front of the block
    if loop.buffer.length = 0 then .undefined
    else
      .again { loop with buffer :=
        { data := writeAt loop.buffer.data loop.buffer.length [0]
          length := loop.buffer.length - 1 } }

/-- What is written for a character of the name: `'\057'` is the slash and `'\072'` the colon. -/
def escape (ch : UInt8) : UInt8 :=
  if ch = 47 then 0o57 else if ch = 58 then 0o72 else ch

/-- The loop over the characters of the name, which ends at a null character. -/
def escapeLoop : Nat → PathBuffer → Option PathBuffer
  | 0, _ => none
  | rounds + 1, buffer =>
    if buffer.data buffer.length = 0 then some buffer
    else
      escapeLoop rounds
        { data := writeAt buffer.data buffer.length [escape (buffer.data buffer.length)]
          length := buffer.length + 1 }

/-- How far `generate_maildir_name` gets with some results of `gethostname`. -/
inductive Generated where
  | running
  | done (buffer : PathBuffer)
  | undefined

/-- The two loops. -/
def HostLoop.run (loop : HostLoop) : List HostResult → Generated
  | [] => .running
  | result :: results =>
    match loop.round result with
    | .again loop => loop.run results
    | .found loop =>
      match escapeLoop loop.hostnameLength loop.buffer with
      | some buffer => .done buffer
      | none => .running
    | .undefined => .undefined

/-- `struct timeval` -/
structure Timeval where
  sec : CInt64
  usec : CInt64

/-- The format string of `generate_maildir_name`. -/
def maildirPrefix (tv : Timeval) (numStoredMessages : UInt32) : List UInt8 :=
  printSigned tv.sec.val ++ ascii ".M" ++ printSigned tv.usec.val ++ ascii "Q" ++
    printUnsigned numStoredMessages.toNat ++ ascii "."

/-- `generate_maildir_name` with the results of `gethostname` so far. -/
def generateMaildirName (tv : Timeval) (numStoredMessages : UInt32) (results : List HostResult)
    (buffer : PathBuffer) : Generated :=
  let text := maildirPrefix tv numStoredMessages
  let buffer : PathBuffer :=
    { data := writeAt buffer.data buffer.length (text ++ [0])
      length := buffer.length + text.length }
  HostLoop.run { buffer, hostnameLength := 2 } results

/-- A call of `generate_maildir_name` and what `gethostname` would do again and again. -/
structure NameCall where
  tv : Timeval
  buffer : PathBuffer
  results : Nat → HostResult

/-- The call ends with a buffer. -/
def NameCall.Ends (call : NameCall) (numStoredMessages : UInt32) (buffer : PathBuffer) : Prop :=
  ∃ n, generateMaildirName call.tv numStoredMessages ((List.range n).map call.results)
    call.buffer = .done buffer

/-- What has been appended to the buffer of a call. -/
def NameCall.appended (call : NameCall) (buffer : PathBuffer) : List UInt8 :=
  window buffer.data call.buffer.length (buffer.length - call.buffer.length)

/-! ## 2. Memory -/

section Memory

variable {mem : Memory} {p i : Nat} {bs : List UInt8}

theorem writeAt_before (h : i < p) : writeAt mem p bs i = mem i := by
  rw [writeAt, if_neg (by omega)]

theorem holds_writeAt (mem : Memory) (p : Nat) (bs : List UInt8) : Holds (writeAt mem p bs) p bs := by
  unfold Holds
  apply List.ext_getElem
  · rw [length_window]
  · intro i h₁ h₂
    rw [getElem_window, writeAt, if_pos ⟨by omega, by omega⟩, Nat.add_sub_cancel_left,
      List.getD_eq_getElem?_getD, List.getElem?_eq_getElem h₂, Option.getD_some]

theorem writeAt_same (mem : Memory) (p : Nat) : writeAt mem p [mem p] = mem := by
  funext i
  unfold writeAt
  split
  · rename_i h
    rw [List.length_singleton] at h
    obtain rfl : i = p := by omega
    rw [Nat.sub_self]
    rfl
  · rfl

theorem holds_of_before {mem' : Memory} (h : ∀ i < p + bs.length, mem' i = mem i)
    (hbs : Holds mem p bs) : Holds mem' p bs := by
  have hsame : window mem' p bs.length = window mem p bs.length := by
    apply List.map_congr_left
    intro i hi
    have hlt := List.mem_range.mp hi
    exact h (p + i) (by omega)
  rw [Holds, hsame]
  exact hbs

end Memory

theorem escape_eq (ch : UInt8) : escape ch = ch := by
  unfold escape
  split_ifs with hslash hcolon
  · rw [hslash]
  · rw [hcolon]
  · rfl

/-- The loop leaves the characters as they are. -/
theorem escapeLoop_eq {name : List UInt8} {buffer : PathBuffer} {rounds : Nat}
    (hname : Holds buffer.data buffer.length (name ++ [0])) (hzero : ∀ ch ∈ name, ch ≠ 0)
    (hrounds : name.length < rounds) :
    escapeLoop rounds buffer = some { buffer with length := buffer.length + name.length } := by
  induction name generalizing buffer rounds with
  | nil =>
    obtain ⟨rounds, rfl⟩ := Nat.exists_eq_add_of_lt hrounds
    rw [escapeLoop, if_pos ((holds_cons ..).mp hname).1]
    rfl
  | cons ch name ih =>
    obtain ⟨rounds, rfl⟩ : ∃ n, rounds = n + 1 := ⟨rounds - 1, by omega⟩
    rw [List.cons_append, holds_cons] at hname
    obtain ⟨hhead, hrest⟩ := hname
    have hne : buffer.data buffer.length ≠ 0 := hhead ▸ hzero ch List.mem_cons_self
    rw [escapeLoop, if_neg hne, escape_eq, writeAt_same]
    rw [List.length_cons] at hrounds
    rw [ih hrest (fun c hc => hzero c (List.mem_cons_of_mem ch hc)) (by omega), List.length_cons]
    simp only [Nat.add_assoc, Nat.add_comm 1]

/-! ## 3. One call -/

/-- The name of the host as it stands in the buffer after some rounds that made more room. -/
def givenName (rounds : Nat) (host : List UInt8) : List UInt8 :=
  cString (host.take (2 ^ (rounds + 1) - 1))

theorem cString_append_zero (bytes : List UInt8) :
    ∃ rest, bytes ++ [0] = cString bytes ++ [0] ++ rest := by
  induction bytes with
  | nil => exact ⟨[], rfl⟩
  | cons ch bytes ih =>
    obtain ⟨rest, hrest⟩ := ih
    by_cases hch : ch = 0
    · subst ch
      exact ⟨bytes ++ [0], rfl⟩
    · have hcons : cString (ch :: bytes) = ch :: cString bytes :=
        List.takeWhile_cons_of_pos (decide_eq_true hch)
      exact ⟨rest, by rw [List.cons_append, hrest, hcons]; rfl⟩

theorem ne_zero_of_mem_cString {bytes : List UInt8} {ch : UInt8} (h : ch ∈ cString bytes) :
    ch ≠ 0 := by
  have hdecide := List.mem_takeWhile_imp h
  exact of_decide_eq_true hdecide

namespace HostLoop

variable {loop : HostLoop}

/-- A loop that has ended does not look at further results. -/
theorem run_append {buffer : PathBuffer} {results : List HostResult}
    (h : loop.run results = .done buffer) (more : List HostResult) :
    loop.run (results ++ more) = .done buffer := by
  induction results generalizing loop with
  | nil => exact absurd h nofun
  | cons result results ih =>
    rw [List.cons_append, run]
    rw [run] at h
    cases hround : loop.round result with
    | again next =>
      rw [hround] at h
      exact ih h
    | found next =>
      rw [hround] at h
      exact h
    | undefined =>
      rw [hround] at h
      exact absurd h nofun

/-- The name that is found stands behind the bytes in use, which are left alone. -/
theorem run_name (loop : HostLoop) (host : List UInt8) (hlength : 1 ≤ loop.hostnameLength) :
    let given := cString (host.take (loop.hostnameLength - 1))
    ∃ buffer, loop.run [.name host] = .done buffer ∧
      (∀ i < loop.buffer.length, buffer.data i = loop.buffer.data i) ∧
      buffer.length = loop.buffer.length + given.length ∧
      Holds buffer.data loop.buffer.length given := by
  dsimp only
  generalize hcut : host.take (loop.hostnameLength - 1) = cut
  have hcutlen : cut.length ≤ loop.hostnameLength - 1 := by
    rw [← hcut]
    exact List.length_take_le _ _
  have hgiven : (cString cut).length ≤ cut.length := (List.takeWhile_prefix _).length_le
  obtain ⟨rest, hrest⟩ := cString_append_zero cut
  have hholds := holds_writeAt loop.buffer.data loop.buffer.length (cut ++ [0])
  have hname : Holds (writeAt loop.buffer.data loop.buffer.length (cut ++ [0])) loop.buffer.length
      (cString cut ++ [0]) := by
    rw [hrest] at hholds ⊢
    exact ((holds_append ..).mp hholds).1
  have hloop : escapeLoop loop.hostnameLength
      ⟨writeAt loop.buffer.data loop.buffer.length (cut ++ [0]), loop.buffer.length⟩ = _ :=
    escapeLoop_eq hname (fun ch => ne_zero_of_mem_cString) (by omega)
  refine ⟨⟨writeAt loop.buffer.data loop.buffer.length (cut ++ [0]),
    loop.buffer.length + (cString cut).length⟩, ?_, fun i hi => writeAt_before hi, rfl,
    ((holds_append ..).mp hname).1⟩
  simp only [run, round, hcut, hloop]

theorem run_tooLong {rounds : Nat} (results : Nat → HostResult) (host : List UInt8)
    (hresults : ∀ i < rounds, ∃ left, results i = .tooLong left)
    (hname : results rounds = .name host) {m : Nat} (hlength : loop.hostnameLength = 2 ^ (m + 1))
    (hm : m + rounds < 30) :
    ∃ buffer, loop.run ((List.range (rounds + 1)).map results) = .done buffer ∧
      (∀ i < loop.buffer.length, buffer.data i = loop.buffer.data i) ∧
      buffer.length = loop.buffer.length + (givenName (m + rounds) host).length ∧
      Holds buffer.data loop.buffer.length (givenName (m + rounds) host) := by
  induction rounds generalizing loop m results with
  | zero =>
    have hone : (List.range (0 + 1)).map results = [.name host] := by simp [hname]
    have hpos : 1 ≤ loop.hostnameLength := hlength ▸ Nat.one_le_two_pow
    rw [hone, Nat.add_zero, givenName, ← hlength]
    exact loop.run_name host hpos
  | succ rounds ih =>
    obtain ⟨left, hleft⟩ := hresults 0 (by omega)
    have hpow : 2 ^ (m + 1) * 2 = 2 ^ (m + 1 + 1) := (pow_succ 2 (m + 1)).symm
    have hsmall : 2 ^ (m + 1 + 1) < 2 ^ 31 := Nat.pow_lt_pow_right (by decide) (by omega)
    have hround : loop.round (results 0) = .again
        { buffer := { loop.buffer with
            data := writeAt loop.buffer.data loop.buffer.length (left.take loop.hostnameLength) }
          hostnameLength := 2 ^ (m + 1 + 1) } := by
      rw [hleft, round]
      dsimp only
      rw [if_pos (by rw [hlength, hpow]; exact hsmall)]
      simp only [hlength, hpow]
    obtain ⟨buffer, hrun, hframe, hlen, hholds⟩ := @ih
      { buffer := { loop.buffer with
          data := writeAt loop.buffer.data loop.buffer.length (left.take loop.hostnameLength) }
        hostnameLength := 2 ^ (m + 1 + 1) }
      (fun i => results (i + 1)) (fun i hi => hresults (i + 1) (by omega)) hname _ rfl (by omega)
    rw [show m + 1 + rounds = m + (rounds + 1) by omega] at hlen hholds
    refine ⟨buffer, ?_, fun i hi => (hframe i hi).trans (writeAt_before hi), hlen, hholds⟩
    rw [List.range_succ_eq_map, List.map_cons, List.map_map, run, hround]
    exact hrun

/-- Another error never leads out of the loop. -/
theorem run_error {buffer : PathBuffer} {results : List HostResult}
    (hresults : ∀ result ∈ results, result = .error) : loop.run results ≠ .done buffer := by
  induction results generalizing loop with
  | nil => exact nofun
  | cons result results ih =>
    obtain ⟨rfl, hrest⟩ := List.forall_mem_cons.mp hresults
    rw [run, round]
    by_cases hzero : loop.buffer.length = 0
    · rw [if_pos hzero]
      exact nofun
    · rw [if_neg hzero]
      exact ih hrest

end HostLoop

/-! ## 4. Different names -/

-- What stands in front of the first occurrence of a separator.
theorem append_separator_inj {sep : UInt8} {as as' bs bs' : List UInt8} (h : sep ∉ as)
    (h' : sep ∉ as') (heq : as ++ sep :: bs = as' ++ sep :: bs') : as = as' ∧ bs = bs' := by
  induction as generalizing as' with
  | nil =>
    cases as' with
    | nil => exact ⟨rfl, (List.cons.inj heq).2⟩
    | cons a as' =>
      obtain rfl := (List.cons.inj heq).1
      exact absurd List.mem_cons_self h'
  | cons a as ih =>
    cases as' with
    | nil =>
      obtain rfl := (List.cons.inj heq).1
      exact absurd List.mem_cons_self h
    | cons a' as' =>
      obtain ⟨rfl, hrest⟩ := List.cons.inj heq
      obtain ⟨rfl, hbs⟩ := ih (fun hmem => h (List.mem_cons_of_mem a hmem))
        (fun hmem => h' (List.mem_cons_of_mem a hmem)) hrest
      exact ⟨rfl, hbs⟩

theorem not_mem_printUnsigned {ch : UInt8} (hch : isDigit ch = false) (n : Nat) :
    ch ∉ printUnsigned n := by
  intro hmem
  rw [isDigit_of_mem hmem] at hch
  exact absurd hch.symm Bool.false_ne_true

theorem not_mem_printSigned {ch : UInt8} (hch : isDigit ch = false) (hminus : ch ≠ 45) (z : Int) :
    ch ∉ printSigned z := by
  unfold printSigned
  split
  · exact List.not_mem_cons_of_ne_of_not_mem hminus (not_mem_printUnsigned hch _)
  · exact not_mem_printUnsigned hch _

theorem printSigned_inj {a b : CInt64} (h : printSigned a.val = printSigned b.val) :
    a.val = b.val := by
  have ha := strtoll_printSigned a.lower a.upper
  rw [h, strtoll_printSigned b.lower b.upper] at ha
  exact (congrArg Strtoll.value ha).symm

theorem printUnsigned_inj {m n : Nat} (h : printUnsigned m = printUnsigned n) : m = n := by
  rw [← value_printUnsigned m, h, value_printUnsigned n]

-- In the same second the names tell the microseconds and the number.
theorem maildirPrefix_inj {tv tv' : Timeval} {num num' : UInt32} {host host' : List UInt8}
    (hsec : tv.sec.val = tv'.sec.val)
    (h : maildirPrefix tv num ++ host = maildirPrefix tv' num' ++ host') :
    tv.usec.val = tv'.usec.val ∧ num = num' := by
  have hM : ascii ".M" = [46, 77] := by decide
  have hQ : ascii "Q" = [81] := by decide
  have hdot : ascii "." = [46] := by decide
  simp only [maildirPrefix, hsec, hM, hQ, hdot, List.append_assoc, List.append_cancel_left_eq,
    List.cons_append, List.nil_append, List.cons.injEq, true_and] at h
  obtain ⟨husec, hrest⟩ := append_separator_inj (not_mem_printSigned rfl (by decide) _)
    (not_mem_printSigned rfl (by decide) _) h
  obtain ⟨hnum, -⟩ := append_separator_inj (not_mem_printUnsigned rfl _)
    (not_mem_printUnsigned rfl _) hrest
  exact ⟨printSigned_inj husec, UInt32.toNat_inj.mp (printUnsigned_inj hnum)⟩

namespace NameCall

/-- `gethostname` returns a name before the length of the buffer leaves the range of an `int`, fails
with no other error before that, and the name can stand in the name of a file. -/
def Regular (call : NameCall) : Prop :=
  ∃ rounds host, rounds < 30 ∧ (∀ i < rounds, ∃ left, call.results i = .tooLong left) ∧
    call.results rounds = .name host ∧ ∀ ch ∈ givenName rounds host, ch ≠ 47 ∧ ch ≠ 58

variable {call call' : NameCall} {num num' : UInt32} {buffer buffer' : PathBuffer}

theorem Ends.unique (h : call.Ends num buffer) (h' : call.Ends num buffer') : buffer = buffer' := by
  obtain ⟨n, hn⟩ := h
  obtain ⟨m, hm⟩ := h'
  have hmore : ∀ k b, generateMaildirName call.tv num ((List.range k).map call.results)
      call.buffer = .done b → ∀ j, generateMaildirName call.tv num
        ((List.range (k + j)).map call.results) call.buffer = .done b := by
    intro k b hk j
    rw [List.range_add, List.map_append]
    exact HostLoop.run_append hk _
  have hfirst := hmore n buffer hn m
  rw [Nat.add_comm, hmore m buffer' hm n] at hfirst
  exact (Generated.done.inj hfirst).symm

/-- The call ends, the bytes in front of the name are as they were, and the name has neither a slash
nor a colon. -/
structure Names (call : NameCall) (num : UInt32) (buffer : PathBuffer) : Prop where
  ends : call.Ends num buffer
  unchanged : ∀ i < call.buffer.length, buffer.data i = call.buffer.data i
  length_le : call.buffer.length ≤ buffer.length
  clean : ∀ ch ∈ call.appended buffer, ch ≠ 47 ∧ ch ≠ 58

theorem clean_maildirPrefix (tv : Timeval) (num : UInt32) :
    ∀ ch ∈ maildirPrefix tv num, ch ≠ 47 ∧ ch ≠ 58 := by
  have hparts : ∀ c : UInt8, isDigit c = false → c ≠ 45 → c ∉ ascii ".MQ" →
      c ∉ maildirPrefix tv num := by
    intro c hdigit hminus hletters hmem
    simp only [maildirPrefix, List.mem_append, not_mem_printSigned hdigit hminus,
      not_mem_printUnsigned hdigit, false_or, or_false] at hmem
    apply hletters
    have hM : ascii ".M" ⊆ ascii ".MQ" := by decide
    have hQ : ascii "Q" ⊆ ascii ".MQ" := by decide
    have hdot : ascii "." ⊆ ascii ".MQ" := by decide
    rcases hmem with (h | h) | h
    · exact hM h
    · exact hQ h
    · exact hdot h
  intro ch hch
  constructor
  · rintro rfl
    exact hparts 47 rfl (by decide) (by decide) hch
  · rintro rfl
    exact hparts 58 rfl (by decide) (by decide) hch

-- A name that `gethostname` returns in time is appended to the printed part.
theorem appended_of_results {rounds : Nat} {host : List UInt8} (hrounds : rounds < 30)
    (hresults : ∀ i < rounds, ∃ left, call.results i = .tooLong left)
    (hname : call.results rounds = .name host) (num : UInt32) :
    ∃ buffer, call.Ends num buffer ∧
      (∀ i < call.buffer.length, buffer.data i = call.buffer.data i) ∧
      call.buffer.length ≤ buffer.length ∧
      call.appended buffer = maildirPrefix call.tv num ++ givenName rounds host := by
  obtain ⟨buffer, hrun, hframe, hlen, hhost⟩ := @HostLoop.run_tooLong
    { buffer := {
        data := writeAt call.buffer.data call.buffer.length (maildirPrefix call.tv num ++ [0])
        length := call.buffer.length + (maildirPrefix call.tv num).length }
      hostnameLength := 2 } _ call.results host hresults hname 0 rfl (by omega)
  rw [Nat.zero_add] at hlen hhost
  dsimp only at hframe hlen hhost
  have hwritten := ((holds_append ..).mp
    (holds_writeAt call.buffer.data call.buffer.length (maildirPrefix call.tv num ++ [0]))).1
  have hholds := (holds_append ..).mpr ⟨holds_of_before hframe hwritten, hhost⟩
  refine ⟨buffer, ⟨rounds + 1, hrun⟩, ?_, by omega, ?_⟩
  · intro i hi
    exact (hframe i (by omega)).trans (writeAt_before hi)
  · apply hholds.window_eq
    rw [List.length_append, hlen]
    omega

theorem Regular.names (h : call.Regular) (num : UInt32) :
    ∃ buffer host, call.Names num buffer ∧
      call.appended buffer = maildirPrefix call.tv num ++ host := by
  obtain ⟨rounds, host, hrounds, hresults, hname, hclean⟩ := h
  obtain ⟨buffer, hends, hunchanged, hle, happended⟩ :=
    appended_of_results hrounds hresults hname num
  refine ⟨buffer, givenName rounds host, ⟨hends, hunchanged, hle, ?_⟩, happended⟩
  rw [happended]
  exact List.forall_mem_append.mpr ⟨clean_maildirPrefix call.tv num, hclean⟩

end NameCall

/-! ## 5. Runs -/

/-- The calls of a run with the numbers they find in `num_stored_messages`, which each of them
increments. -/
def numbered (num : UInt32) : List NameCall → List (UInt32 × NameCall)
  | [] => []
  | call :: calls => (num, call) :: numbered (num + 1) calls

theorem mem_of_mem_numbered {num : UInt32} {calls : List NameCall} {p : UInt32 × NameCall}
    (h : p ∈ numbered num calls) : p.2 ∈ calls := by
  induction calls generalizing num with
  | nil => exact absurd h List.not_mem_nil
  | cons call calls ih =>
    rcases List.mem_cons.mp h with rfl | hrest
    · exact List.mem_cons_self
    · exact List.mem_cons_of_mem call (ih hrest)

theorem number_of_mem_numbered {num : UInt32} {calls : List NameCall} {p : UInt32 × NameCall}
    (h : p ∈ numbered num calls) : ∃ i < calls.length, p.1 = num + UInt32.ofNat i := by
  induction calls generalizing num with
  | nil => exact absurd h List.not_mem_nil
  | cons call calls ih =>
    rcases List.mem_cons.mp h with rfl | hrest
    · exact ⟨0, Nat.zero_lt_succ _, (UInt32.add_zero num).symm⟩
    · obtain ⟨i, hi, hnum⟩ := ih hrest
      refine ⟨i + 1, Nat.succ_lt_succ hi, ?_⟩
      rw [hnum, UInt32.ofNat_add, UInt32.add_assoc, UInt32.add_comm 1]
      rfl

/-- Up to 2^32 calls find different numbers. -/
theorem numbers_distinct (num : UInt32) {calls : List NameCall} (h : calls.length ≤ 2 ^ 32) :
    (numbered num calls).Pairwise fun p q =>
      p.2.tv.sec.val = q.2.tv.sec.val → p.2.tv.usec.val = q.2.tv.usec.val → p.1 ≠ q.1 := by
  induction calls generalizing num with
  | nil => exact List.Pairwise.nil
  | cons call calls ih =>
    rw [List.length_cons] at h
    refine List.pairwise_cons.mpr ⟨fun q hq _ _ heq => ?_, ih (num + 1) (by omega)⟩
    obtain ⟨i, hi, hnum⟩ := number_of_mem_numbered hq
    -- the number comes around only after 2^32 steps
    have hstep : num.toNat = (num.toNat + 1 + i) % 2 ^ 32 := by
      have hnat := congrArg UInt32.toNat (heq.trans hnum)
      simpa using hnat
    have hlt := num.toNat_lt
    omega

/-- In a run in which every call is regular and no two calls in the same microsecond find the same
number, every call ends, leaves the buffer in front of its name alone, and makes a name that can
stand in a path and that no other call makes in the same second. -/
theorem generated_names (num : UInt32) (calls : List NameCall)
    (hregular : ∀ call ∈ calls, call.Regular)
    (hnumbers : (numbered num calls).Pairwise fun p q =>
      p.2.tv.sec.val = q.2.tv.sec.val → p.2.tv.usec.val = q.2.tv.usec.val → p.1 ≠ q.1) :
    (∀ p ∈ numbered num calls, ∃ buffer, p.2.Names p.1 buffer) ∧
      (numbered num calls).Pairwise fun p q => p.2.tv.sec.val = q.2.tv.sec.val →
        ∀ buffer buffer', p.2.Ends p.1 buffer → q.2.Ends q.1 buffer' →
          p.2.appended buffer ≠ q.2.appended buffer' := by
  have hnames : ∀ p ∈ numbered num calls, ∃ buffer host, p.2.Names p.1 buffer ∧
      p.2.appended buffer = maildirPrefix p.2.tv p.1 ++ host := fun p hp =>
    (hregular p.2 (mem_of_mem_numbered hp)).names p.1
  constructor
  · intro p hp
    obtain ⟨buffer, -, hbuffer, -⟩ := hnames p hp
    exact ⟨buffer, hbuffer⟩
  · apply hnumbers.imp_of_mem
    intro p q hp hq hdistinct hsec buffer buffer' hends hends' heq
    obtain ⟨b, host, hb, happended⟩ := hnames p hp
    obtain ⟨b', host', hb', happended'⟩ := hnames q hq
    obtain rfl := hends.unique hb.ends
    obtain rfl := hends'.unique hb'.ends
    rw [happended, happended'] at heq
    obtain ⟨husec, hnum⟩ := maildirPrefix_inj hsec heq
    exact hdistinct hsec husec hnum

/-- A call in which the name fits on the second try. -/
def twoTries (host : List UInt8) : NameCall where
  tv :=
    { sec := CInt64.may2014
      usec := ⟨250000, by decide, by decide⟩ }
  buffer := { data := ofList (ascii "/mail/tmp/"), length := 10 }
  results i := if i = 0 then .tooLong (host.take 2) else .name host

theorem generated_names_twoTries :
    (∀ call ∈ [twoTries (ascii "h.g"), twoTries (ascii "h.g")], call.Regular) ∧
      (numbered 7 [twoTries (ascii "h.g"), twoTries (ascii "h.g")]).Pairwise fun p q =>
        p.2.tv.sec.val = q.2.tv.sec.val → ∀ buffer buffer', p.2.Ends p.1 buffer →
          q.2.Ends q.1 buffer' → p.2.appended buffer ≠ q.2.appended buffer' := by
  have hregular : (twoTries (ascii "h.g")).Regular :=
    ⟨1, ascii "h.g", by decide, fun i hi => ⟨(ascii "h.g").take 2, if_pos (by omega)⟩, rfl,
      by decide +kernel⟩
  have hall : ∀ call ∈ [twoTries (ascii "h.g"), twoTries (ascii "h.g")], call.Regular := by
    simp only [List.forall_mem_cons]
    exact ⟨hregular, hregular, by simp⟩
  exact ⟨hall, (generated_names 7 _ hall (numbers_distinct 7 (by decide))).2⟩

-- A colon in the name of the host stays in the name of the file, and nothing ends the loop when
-- every call fails.
theorem colon_kept :
    (∃ buffer, (twoTries (ascii "a:b")).Ends 0 buffer ∧
      58 ∈ (twoTries (ascii "a:b")).appended buffer) ∧
    ∀ buffer, ¬ NameCall.Ends { twoTries [] with results := fun _ => .error } 0 buffer := by
  constructor
  · have htries : ∀ i < 1, ∃ left, (twoTries (ascii "a:b")).results i = .tooLong left :=
      fun i hi => ⟨(ascii "a:b").take 2, if_pos (by omega)⟩
    have hname : (twoTries (ascii "a:b")).results 1 = .name (ascii "a:b") := rfl
    obtain ⟨buffer, hends, -, -, happended⟩ :=
      NameCall.appended_of_results (by decide) htries hname 0
    have hcolon : (58 : UInt8) ∈ givenName 1 (ascii "a:b") := by decide
    refine ⟨buffer, hends, ?_⟩
    rw [happended]
    exact List.mem_append_right _ hcolon
  · rintro buffer ⟨n, hn⟩
    apply HostLoop.run_error _ hn
    intro result hresult
    obtain ⟨i, -, rfl⟩ := List.mem_map.mp hresult
    rfl

end Notbit.Store
