import Notbit.Lib.Links
import Notbit.Lib.Pools
import Mathlib.Data.Nat.Bitwise

/-!
# Slabs — memory that is handed out from blocks of two kilobytes (`ntb-slab.c`)

A slab starts with a pointer to the slab before it, and the rest of it is handed out piece by piece.
Addresses are numbers, with 0 for the null pointer; what is of type `size_t` has 64 bits and what is
of type `int` has 32.
-/

open Bytes Links Pools

namespace Notbit

/-! ## 1. The allocator -/

/-- The memory, and the blocks that `ntb_alloc` has returned for it, the newest one first. -/
structure Heap where
  memory : Memory
  blocks : List Nat

/-- `struct ntb_slab_allocator` -/
structure SlabAllocator where
  slabs : Nat
  slabUsed : BitVec 64

/-- `NTB_SLAB_SIZE` -/
def slabSize : Nat := 2048

/-- `sizeof (struct ntb_slab)`: a slab starts with the pointer to the next one. -/
def slabHeader : Nat := pointerSize

/-- `ntb_slab_init` -/
def slabInit : SlabAllocator := { slabs := 0, slabUsed := BitVec.ofNat 64 slabSize }

/-- `ntb_slab_align` -/
def slabAlign (base : BitVec 64) (alignment : BitVec 32) : BitVec 64 :=
  (base + alignment.signExtend 64 - 1) &&& (~~~(alignment - 1)).signExtend 64

/-- `ntb_alloc (NTB_SLAB_SIZE)`, where `malloc` is what `malloc` returns.  Without memory the program
ends. -/
def Heap.alloc (h : Heap) (malloc : Nat) : Option Heap :=
  if malloc = 0 then none else some { h with blocks := malloc :: h.blocks }

/-- `ntb_slab_allocate` -/
def slabAllocate (h : Heap) (allocator : SlabAllocator) (size : BitVec 64)
    (alignment : BitVec 32) (malloc : Nat) : Option (Heap × SlabAllocator × Nat) :=
  let offset := slabAlign allocator.slabUsed alignment
  if size + offset > BitVec.ofNat 64 slabSize then
    -- start a new slab
    (h.alloc malloc).map fun h =>
      let h := { h with memory := store h.memory malloc allocator.slabs }
      let offset := slabAlign (BitVec.ofNat 64 slabHeader) alignment
      (h, { slabs := malloc, slabUsed := offset + size }, malloc + offset.toNat)
  else some (h, { allocator with slabUsed := offset + size }, allocator.slabs + offset.toNat)

/-! ## 2. Rounding up -/

-- A mask of high bits takes the low bits of a number away.
theorem and_highMask {n k x : Nat} (hk : k ≤ n) (hx : x < 2 ^ n) :
    x &&& (2 ^ n - 2 ^ k) = x / 2 ^ k * 2 ^ k := by
  have hmask : 2 ^ n - 2 ^ k = (2 ^ (n - k) - 1) <<< k := by
    rw [Nat.shiftLeft_eq, Nat.sub_mul, Nat.one_mul, ← pow_add, Nat.sub_add_cancel hk]
  have hhigh : x / 2 ^ k * 2 ^ k = (x >>> k) <<< k := by
    rw [Nat.shiftLeft_eq, Nat.shiftRight_eq_div_pow]
  rw [hmask, hhigh]
  apply Nat.eq_of_testBit_eq
  intro i
  rw [Nat.testBit_and, Nat.testBit_shiftLeft, Nat.testBit_shiftLeft, Nat.testBit_shiftRight,
    Nat.testBit_two_pow_sub_one]
  by_cases hi : k ≤ i
  · by_cases hin : i < n
    · simp [hi, show i - k < n - k by omega]
    · have hzero : x.testBit i = false :=
        Nat.testBit_lt_two_pow (lt_of_lt_of_le hx (Nat.pow_le_pow_right (by norm_num) (by omega)))
      simp [hi, hzero]
  · simp [hi]

-- The conversions of `int` to `size_t` for the alignments up to the size of a slab.
theorem signExtend_alignment : ∀ k < 12,
    ((BitVec.ofNat 32 (2 ^ k)).signExtend 64).toNat = 2 ^ k ∧
      ((~~~(BitVec.ofNat 32 (2 ^ k) - 1)).signExtend 64).toNat = 2 ^ 64 - 2 ^ k := by
  decide

theorem slabAlign_toNat {base : BitVec 64} {k : Nat} (hbase : base.toNat ≤ slabSize)
    (hk : k < 12) :
    (slabAlign base (BitVec.ofNat 32 (2 ^ k))).toNat = roundUp base.toNat (2 ^ k) := by
  obtain ⟨hvalue, hmask⟩ := signExtend_alignment k hk
  have hpos : 0 < 2 ^ k := Nat.two_pow_pos k
  have hle : 2 ^ k ≤ 2 ^ 11 := Nat.pow_le_pow_right (by norm_num) (by omega)
  unfold slabSize at hbase
  have hsum : (base + (BitVec.ofNat 32 (2 ^ k)).signExtend 64 - 1).toNat =
      base.toNat + 2 ^ k - 1 := by
    rw [BitVec.toNat_sub, BitVec.toNat_add, hvalue]
    show (2 ^ 64 - 1 + (base.toNat + 2 ^ k) % 2 ^ 64) % 2 ^ 64 = _
    omega
  rw [slabAlign, BitVec.toNat_and, hsum, hmask, and_highMask (by omega) (by omega)]
  rfl

/-! ## 3. What is handed out -/

/-- A size and an alignment of pieces of which one fits into a slab behind its aligned header.  The
alignments of C are powers of two. -/
structure Layout where
  size : Nat
  alignment : Nat
  sized : 0 < size
  power : ∃ k, alignment = 2 ^ k
  fits : roundUp slabHeader alignment + size ≤ slabSize

def Layout.shape (l : Layout) : Shape where
  blockSize := slabSize
  header := slabHeader
  size := l.size
  alignment := l.alignment
  sized := l.sized

/-- What `malloc` promises about a block of the size of a slab that it returns while others are in
use: it is aligned for every type that has no alignment above `mallocAlignment`. -/
structure Malloced (mallocAlignment : Nat) (blocks : List Nat) (base : Nat) : Prop where
  ne_null : base ≠ 0
  aligned : mallocAlignment ∣ base
  bounded : base + slabSize ≤ 2 ^ 64
  apart : ∀ b ∈ blocks, Disjoint (region base slabSize) (region b slabSize)

/-- The allocator, the list of its slabs in memory and the pieces it has handed out. -/
structure SlabKept (l : Layout) (mallocAlignment : Nat) (h : Heap) (allocator : SlabAllocator)
    (pieces : List Nat) : Prop where
  carved : Carved l.shape h.blocks allocator.slabUsed.toNat pieces
  header_le : slabHeader ≤ allocator.slabUsed.toNat
  used_le : allocator.slabUsed.toNat ≤ slabSize
  full : h.blocks = [] → allocator.slabUsed.toNat = slabSize
  linked : Linked h.memory allocator.slabs h.blocks
  aligned : ∀ b ∈ h.blocks, mallocAlignment ∣ b
  bounded : ∀ b ∈ h.blocks, b + slabSize ≤ 2 ^ 64

section Pieces

variable {l : Layout} {mallocAlignment malloc piece : Nat} {h h' : Heap}
  {allocator allocator' : SlabAllocator} {pieces : List Nat}

theorem Layout.alignment_pos (l : Layout) : 0 < l.alignment := by
  obtain ⟨k, hk⟩ := l.power
  rw [hk]
  exact Nat.two_pow_pos k

-- An alignment that leaves room for a piece is one that both conversions keep.
theorem Layout.exists_exponent (l : Layout) : ∃ k < 12, l.alignment = 2 ^ k := by
  obtain ⟨k, hk⟩ := l.power
  refine ⟨k, ?_, hk⟩
  have hfits := l.fits
  have hdvd : 2 ^ k ∣ roundUp slabHeader l.alignment := hk ▸ dvd_roundUp slabHeader l.alignment
  have hpos : 0 < roundUp slabHeader l.alignment :=
    lt_of_lt_of_le (by decide) (le_roundUp slabHeader l.alignment_pos)
  have hle : 2 ^ k ≤ roundUp slabHeader l.alignment := Nat.le_of_dvd hpos hdvd
  unfold slabSize at hfits
  by_contra hlarge
  have hpow : 2 ^ 12 ≤ 2 ^ k := Nat.pow_le_pow_right (by norm_num) (by omega)
  omega

theorem Layout.slabAlign_toNat (l : Layout) {base : BitVec 64} (hbase : base.toNat ≤ slabSize) :
    (slabAlign base (BitVec.ofNat 32 l.alignment)).toNat = roundUp base.toNat l.alignment := by
  obtain ⟨k, hk, heq⟩ := l.exists_exponent
  rw [heq]
  exact Notbit.slabAlign_toNat hbase hk

-- A sum below the size of two slabs and a piece does not wrap.
theorem Layout.toNat_add_size (l : Layout) {offset : BitVec 64}
    (hoffset : offset.toNat < 2 * slabSize) :
    (offset + BitVec.ofNat 64 l.size).toNat = offset.toNat + l.size := by
  have hfits := l.fits
  unfold slabSize at hfits hoffset
  rw [BitVec.toNat_add, BitVec.toNat_ofNat]
  omega

theorem slabKept_init (l : Layout) (mallocAlignment : Nat) (memory : Memory) :
    SlabKept l mallocAlignment { memory, blocks := [] } slabInit [] where
  carved := carved_nil l.shape _
  header_le := by decide
  used_le := by decide
  full _ := rfl
  linked := rfl
  aligned _ hb := nomatch hb
  bounded _ hb := nomatch hb

/-- The first piece of a new slab, which is linked in front of the others. -/
theorem SlabKept.fresh (hk : SlabKept l mallocAlignment h allocator pieces)
    (hmalloc : Malloced mallocAlignment h.blocks malloc) :
    let offset := slabAlign (BitVec.ofNat 64 slabHeader) (BitVec.ofNat 32 l.alignment)
    SlabKept l mallocAlignment
      { memory := store h.memory malloc allocator.slabs, blocks := malloc :: h.blocks }
      { slabs := malloc, slabUsed := offset + BitVec.ofNat 64 l.size }
      ((malloc + offset.toNat) :: pieces) := by
  intro offset
  have hsized := l.sized
  have hfits := l.fits
  have hoffset : offset.toNat = roundUp (BitVec.ofNat 64 slabHeader).toNat l.alignment :=
    l.slabAlign_toNat (by decide)
  change offset.toNat = roundUp slabHeader l.alignment at hoffset
  have hheader : slabHeader ≤ offset.toNat := by
    rw [hoffset]
    exact le_roundUp slabHeader l.alignment_pos
  have hused : (offset + BitVec.ofNat 64 l.size).toNat = offset.toNat + l.size :=
    l.toNat_add_size (by omega)
  have hapart : ∀ b ∈ h.blocks, malloc + slabSize ≤ b ∨ b + slabSize ≤ malloc := fun b hb =>
    (disjoint_region_iff (by decide) (by decide)).mp (hmalloc.apart b hb)
  have hslabs : allocator.slabs < 2 ^ 64 := by
    cases hblocks : h.blocks with
    | nil =>
      have hlinked := hk.linked
      rw [hblocks] at hlinked
      rw [hlinked]
      norm_num
    | cons b rest =>
      have hlinked := hk.linked
      rw [hblocks] at hlinked
      have hbounded := hk.bounded b (by rw [hblocks]; exact List.mem_cons_self)
      rw [hlinked.head_eq]
      unfold slabSize at hbounded
      omega
  constructor
  · rw [hused]
    apply hk.carved.fresh hmalloc.apart hheader
    · show offset.toNat + l.size ≤ slabSize
      omega
    · show l.alignment ∣ offset.toNat
      rw [hoffset]
      exact dvd_roundUp slabHeader l.alignment
  · rw [hused]
    omega
  · rw [hused]
    omega
  · exact fun hnone => nomatch hnone
  · apply hk.linked.push hmalloc.ne_null hslabs
    intro b hb
    have hb' := hapart b hb
    unfold slabSize at hb'
    unfold pointerSize
    omega
  · intro b hb
    rcases List.mem_cons.mp hb with rfl | hold
    · exact hmalloc.aligned
    · exact hk.aligned b hold
  · intro b hb
    rcases List.mem_cons.mp hb with rfl | hold
    · exact hmalloc.bounded
    · exact hk.bounded b hold

/-- The next piece of the slab in use. -/
theorem SlabKept.bump (hk : SlabKept l mallocAlignment h allocator pieces)
    (hroom : ¬ BitVec.ofNat 64 l.size +
      slabAlign allocator.slabUsed (BitVec.ofNat 32 l.alignment) > BitVec.ofNat 64 slabSize) :
    let offset := slabAlign allocator.slabUsed (BitVec.ofNat 32 l.alignment)
    SlabKept l mallocAlignment h { allocator with slabUsed := offset + BitVec.ofNat 64 l.size }
      ((allocator.slabs + offset.toNat) :: pieces) := by
  intro offset
  have hoffset : offset.toNat = roundUp allocator.slabUsed.toNat l.alignment :=
    l.slabAlign_toNat hk.used_le
  have hle : allocator.slabUsed.toNat ≤ offset.toNat := by
    rw [hoffset]
    exact le_roundUp _ l.alignment_pos
  have hlt : offset.toNat < 2 * slabSize := by
    have hround := roundUp_lt allocator.slabUsed.toNat l.alignment_pos
    have hused := hk.used_le
    have hfits := l.fits
    have halign : l.alignment ≤ roundUp slabHeader l.alignment := by
      apply Nat.le_of_dvd _ (dvd_roundUp slabHeader l.alignment)
      exact lt_of_lt_of_le (by decide) (le_roundUp slabHeader l.alignment_pos)
    omega
  have hused : (offset + BitVec.ofNat 64 l.size).toNat = offset.toNat + l.size :=
    l.toNat_add_size hlt
  have hfits : offset.toNat + l.size ≤ slabSize := by
    rw [← hused, BitVec.add_comm]
    exact BitVec.not_lt.mp hroom
  have hheader := hk.header_le
  cases hblocks : h.blocks with
  | nil =>
    -- without a slab there is no room
    have hfull := hk.full hblocks
    have hsized := l.sized
    omega
  | cons b rest =>
    have hcarved := hk.carved
    have hlinked := hk.linked
    rw [hblocks] at hcarved hlinked
    have hslabs : allocator.slabs = b := hlinked.head_eq
    constructor
    · rw [hused, hblocks, hslabs]
      apply hcarved.bump hle
      · show slabHeader ≤ offset.toNat
        omega
      · exact hfits
      · show l.alignment ∣ offset.toNat
        rw [hoffset]
        exact dvd_roundUp _ l.alignment
    · rw [hused]
      omega
    · rw [hused]
      exact hfits
    · intro hnone
      rw [hblocks] at hnone
      cases hnone
    · exact hk.linked
    · exact hk.aligned
    · exact hk.bounded

/-- What an allocation does: the piece is carved out of the slab in use, or out of a new one. -/
theorem SlabKept.allocate (hk : SlabKept l mallocAlignment h allocator pieces)
    (hmalloc : malloc = 0 ∨ Malloced mallocAlignment h.blocks malloc)
    (hs : slabAllocate h allocator (BitVec.ofNat 64 l.size) (BitVec.ofNat 32 l.alignment) malloc =
      some (h', allocator', piece)) :
    SlabKept l mallocAlignment h' allocator' (piece :: pieces) := by
  unfold slabAllocate Heap.alloc at hs
  dsimp only at hs
  split_ifs at hs with hfull hnull
  · cases hs
  · cases hs
    exact hk.fresh (hmalloc.resolve_left hnull)
  · cases hs
    exact hk.bump hfull

-- Only a program without memory gets nothing.
theorem isSome_slabAllocate (h : Heap) (allocator : SlabAllocator) (size : BitVec 64)
    (alignment : BitVec 32) (hnull : malloc ≠ 0) :
    (slabAllocate h allocator size alignment malloc).isSome := by
  unfold slabAllocate Heap.alloc
  dsimp only
  rw [if_neg hnull]
  split_ifs <;> rfl

-- Writing to memory outside the headers leaves the slabs as they are.
theorem SlabKept.congr {pieces' : List Nat} (hk : SlabKept l mallocAlignment h allocator pieces)
    (hblocks : h'.blocks = h.blocks) (hsame : ∀ b ∈ h.blocks, load h'.memory b = load h.memory b)
    (hperm : pieces.Perm pieces') : SlabKept l mallocAlignment h' allocator pieces' where
  carved := by
    rw [hblocks]
    exact hk.carved.perm hperm
  header_le := hk.header_le
  used_le := hk.used_le
  full := by
    rw [hblocks]
    exact hk.full
  linked := by
    rw [hblocks]
    exact hk.linked.congr hsame
  aligned := by
    rw [hblocks]
    exact hk.aligned
  bounded := by
    rw [hblocks]
    exact hk.bounded

theorem SlabKept.header_apart {b : Nat} (hk : SlabKept l mallocAlignment h allocator pieces)
    (hpiece : piece ∈ pieces) (hb : b ∈ h.blocks) :
    b + slabHeader ≤ piece ∨ piece + l.size ≤ b :=
  hk.carved.header_apart hpiece hb

-- A piece lies in one of the slabs, behind its header.
theorem SlabKept.inside (hk : SlabKept l mallocAlignment h allocator pieces)
    (hpiece : piece ∈ pieces) :
    ∃ b ∈ h.blocks, b + slabHeader ≤ piece ∧ piece + l.size ≤ b + slabSize ∧
      l.alignment ∣ piece - b := by
  obtain ⟨b, hb, hinside⟩ := hk.carved.inside piece hpiece
  exact ⟨b, hb, hinside.header, hinside.fits, hinside.aligned⟩

end Pieces

end Notbit
