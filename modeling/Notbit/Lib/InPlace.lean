import Notbit.Lib.Bytes

/-!
# InPlace — a text that is rewritten in the block it stands in

A reader and a writer share a block, and the writer is never ahead of the reader.  What is still to
be read is untouched then, and so is the byte before it: the writer only reaches that one when
everything has been copied to where it was.
-/

open Bytes

namespace InPlace

variable {text block new : List UInt8} {out input input' : Nat}

/-- The block up to `out` has been written, while the text has been read up to `input`. -/
structure Behind (text block : List UInt8) (out input : Nat) : Prop where
  length_eq : block.length = text.length
  out_le : out ≤ input
  input_le : input ≤ text.length
  ahead : block.drop (input - 1) = text.drop (input - 1)
  unchanged : out = input → block = text

theorem Behind.start (text : List UInt8) : Behind text text 0 0 :=
  ⟨rfl, le_refl 0, Nat.zero_le _, rfl, fun _ => rfl⟩

theorem Behind.drop_eq (h : Behind text block out input) {n : Nat} (hn : input - 1 ≤ n) :
    block.drop n = text.drop n := by
  obtain ⟨k, rfl⟩ := Nat.exists_eq_add_of_le hn
  rw [← List.drop_drop, h.ahead, List.drop_drop]

theorem Behind.getElem?_eq (h : Behind text block out input) {n : Nat} (hn : input - 1 ≤ n) :
    block[n]? = text[n]? := by
  have hdrop := congrArg (·[0]?) (h.drop_eq hn)
  simpa only [List.getElem?_drop, Nat.add_zero] using hdrop

-- The reader goes on.
theorem Behind.read (h : Behind text block out input) (hle : input ≤ input')
    (hlength : input' ≤ text.length) : Behind text block out input' where
  length_eq := h.length_eq
  out_le := h.out_le.trans hle
  input_le := hlength
  ahead := h.drop_eq (by omega)
  unchanged hsame := h.unchanged (by have := h.out_le; omega)

theorem patch_same (bs : List UInt8) (i n : Nat) (h : i + n ≤ bs.length) :
    patch bs i ((bs.drop i).take n) = bs := by
  have hlength : ((bs.drop i).take n).length = n := by
    rw [List.length_take, List.length_drop]
    omega
  rw [patch, hlength, List.append_assoc, ← List.drop_drop, List.take_append_drop,
    List.take_append_drop]

-- The writer goes on.  If it reaches the reader it has written what was there.
theorem Behind.write (h : Behind text block out input) (hle : out + new.length ≤ input)
    (hsame : out + new.length = input → block = text ∧ new = (text.drop out).take new.length) :
    Behind text (patch block out new) (out + new.length) input := by
  have hlength : out + new.length ≤ block.length := by
    rw [h.length_eq]
    exact hle.trans h.input_le
  have hpatch : out + new.length = input → patch block out new = text := by
    intro hreach
    obtain ⟨rfl, hnew⟩ := hsame hreach
    rw [hnew]
    exact patch_same block out _ hlength
  refine ⟨(length_patch hlength).trans h.length_eq, hle, h.input_le, ?_, hpatch⟩
  by_cases hreach : out + new.length = input
  · rw [hpatch hreach]
  · rw [drop_patch (by omega) (by rw [h.length_eq]; have := h.input_le; omega)]
    exact h.ahead

theorem Behind.take_write (h : Behind text block out input) (new : List UInt8) :
    (patch block out new).take (out + new.length) = block.take out ++ new :=
  take_patch (by rw [h.length_eq]; exact h.out_le.trans h.input_le)

end InPlace
