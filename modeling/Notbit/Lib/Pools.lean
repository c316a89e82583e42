import Mathlib

/-!
# Pools — elements of one size that are carved out of larger blocks

Blocks have a header, and elements are carved out of the newest of them from the header on, each at
the next multiple of the alignment.  What was carved stays where it is, so elements that are handed
back can be handed out again.
-/

namespace Pools

/-! ## 1. Regions -/

/-- The addresses of a region that starts at `a` and has `n` bytes. -/
def region (a n : Nat) : Set Nat := Set.Ico a (a + n)

theorem disjoint_region_iff {a m b n : Nat} (hm : 0 < m) (hn : 0 < n) :
    Disjoint (region a m) (region b n) ↔ a + m ≤ b ∨ b + n ≤ a := by
  rw [region, region, Set.Ico_disjoint_Ico]
  omega

/-- The least multiple of `a` that is not below `x`. -/
def roundUp (x a : Nat) : Nat := x ⌈/⌉ a * a

theorem le_roundUp (x : Nat) {a : Nat} (ha : 0 < a) : x ≤ roundUp x a := by
  rw [roundUp, Nat.mul_comm]
  exact le_smul_ceilDiv ha

theorem dvd_roundUp (x a : Nat) : a ∣ roundUp x a := Nat.dvd_mul_left a _

theorem roundUp_lt (x : Nat) {a : Nat} (ha : 0 < a) : roundUp x a < x + a := by
  have hle : (x + a - 1) / a * a ≤ x + a - 1 := Nat.div_mul_le_self _ a
  show (x + a - 1) / a * a < x + a
  omega

/-! ## 2. Carved elements -/

/-- The size of the blocks and of their headers, and the size and the alignment of the elements. -/
structure Shape where
  blockSize : Nat
  header : Nat
  size : Nat
  alignment : Nat
  sized : 0 < size

variable {S : Shape} {blocks elements elements' : List Nat} {used b e offset : Nat}

/-- The element lies in the block behind its header, at a multiple of the alignment. -/
structure Shape.Inside (S : Shape) (b e : Nat) : Prop where
  header : b + S.header ≤ e
  fits : e + S.size ≤ b + S.blockSize
  aligned : S.alignment ∣ e - b

/-- Two elements share no byte. -/
def Shape.Apart (S : Shape) (e e' : Nat) : Prop := Disjoint (region e S.size) (region e' S.size)

/-- Two blocks share no byte. -/
def Shape.BlocksApart (S : Shape) (b b' : Nat) : Prop :=
  Disjoint (region b S.blockSize) (region b' S.blockSize)

/-- The elements were carved out of the blocks, of the first of which `used` bytes are in use. -/
structure Carved (S : Shape) (blocks : List Nat) (used : Nat) (elements : List Nat) : Prop where
  blocksApart : blocks.Pairwise S.BlocksApart
  apart : elements.Pairwise S.Apart
  inside : ∀ e ∈ elements, ∃ b ∈ blocks, S.Inside b e
  below : ∀ b ∈ blocks.head?, ∀ e ∈ elements, S.Inside b e → e + S.size ≤ b + used

theorem Shape.apart_iff {e' : Nat} : S.Apart e e' ↔ e + S.size ≤ e' ∨ e' + S.size ≤ e :=
  disjoint_region_iff S.sized S.sized

-- Elements of blocks that lie apart lie apart.
theorem Shape.BlocksApart.apart {b' e' : Nat} (h : S.BlocksApart b b') (he : S.Inside b e)
    (he' : S.Inside b' e') : S.Apart e e' := by
  have hsized := S.sized
  have hfits := he.fits
  have hheader := he.header
  have hfits' := he'.fits
  have hheader' := he'.header
  rw [BlocksApart, disjoint_region_iff (by omega) (by omega)] at h
  rw [Shape.apart_iff]
  omega

theorem Shape.Apart.symm {e' : Nat} (h : S.Apart e e') : S.Apart e' e := Disjoint.symm h

instance : Std.Symm S.Apart := ⟨fun _ _ h => Disjoint.symm h⟩

instance : Std.Symm S.BlocksApart := ⟨fun _ _ h => Disjoint.symm h⟩

theorem carved_nil (S : Shape) (used : Nat) : Carved S [] used [] where
  blocksApart := List.Pairwise.nil
  apart := List.Pairwise.nil
  inside _ he := nomatch he
  below _ hb := nomatch hb

theorem Carved.perm (h : Carved S blocks used elements) (hperm : elements.Perm elements') :
    Carved S blocks used elements' where
  blocksApart := h.blocksApart
  apart := (hperm.pairwise_iff Shape.Apart.symm).mp h.apart
  inside e he := h.inside e (hperm.mem_iff.mpr he)
  below b hb e he := h.below b hb e (hperm.mem_iff.mpr he)

/-- The next element of the newest block. -/
theorem Carved.bump (h : Carved S (b :: blocks) used elements) (hused : used ≤ offset)
    (hheader : S.header ≤ offset) (hfits : offset + S.size ≤ S.blockSize)
    (haligned : S.alignment ∣ offset) :
    Carved S (b :: blocks) (offset + S.size) ((b + offset) :: elements) := by
  have hnew : S.Inside b (b + offset) :=
    ⟨by omega, by omega, by rw [Nat.add_sub_cancel_left]; exact haligned⟩
  refine ⟨h.blocksApart, List.pairwise_cons.mpr ⟨fun e he => ?_, h.apart⟩, ?_, ?_⟩
  · obtain ⟨b', hb', hinside⟩ := h.inside e he
    rcases List.mem_cons.mp hb' with rfl | hrest
    · -- what was carved out of this block before ends where the rest of it begins
      have hbelow := h.below b' rfl e he hinside
      rw [Shape.apart_iff]
      omega
    · exact ((List.pairwise_cons.mp h.blocksApart).1 b' hrest).apart hnew hinside
  · intro e he
    rcases List.mem_cons.mp he with rfl | hold
    · exact ⟨b, List.mem_cons_self, hnew⟩
    · exact h.inside e hold
  · intro b' hb' e he hinside
    obtain rfl : b = b' := Option.some.inj hb'
    rcases List.mem_cons.mp he with rfl | hold
    · omega
    · have hbelow := h.below b rfl e hold hinside
      omega

-- The first element of a new block.
theorem Carved.fresh (h : Carved S blocks used elements) (hb : ∀ b' ∈ blocks, S.BlocksApart b b')
    (hheader : S.header ≤ offset) (hfits : offset + S.size ≤ S.blockSize)
    (haligned : S.alignment ∣ offset) :
    Carved S (b :: blocks) (offset + S.size) ((b + offset) :: elements) := by
  have hcarved : Carved S (b :: blocks) 0 elements := by
    refine ⟨List.pairwise_cons.mpr ⟨hb, h.blocksApart⟩, h.apart, ?_, ?_⟩
    · intro e he
      obtain ⟨b', hb', hinside⟩ := h.inside e he
      exact ⟨b', List.mem_cons_of_mem b hb', hinside⟩
    · -- nothing was carved out of the new block yet
      intro b₀ hb₀ e he hinside
      obtain rfl : b = b₀ := Option.some.inj hb₀
      obtain ⟨b', hb', hinside'⟩ := h.inside e he
      have hself := (hb b' hb').apart hinside hinside'
      have hsized := S.sized
      rw [Shape.apart_iff] at hself
      omega
  exact hcarved.bump (Nat.zero_le offset) hheader hfits haligned

-- No element reaches into the header of a block.
theorem Carved.header_apart (h : Carved S blocks used elements) (he : e ∈ elements)
    (hb : b ∈ blocks) : b + S.header ≤ e ∨ e + S.size ≤ b := by
  obtain ⟨b', hb', hinside⟩ := h.inside e he
  have hheader := hinside.header
  have hfits := hinside.fits
  have hsized := S.sized
  by_cases heq : b = b'
  · subst heq
    exact Or.inl hheader
  · have hapart : S.BlocksApart b b' := h.blocksApart.forall hb hb' heq
    rw [Shape.BlocksApart, disjoint_region_iff (by omega) (by omega)] at hapart
    omega

end Pools
