import Notbit.Lib.Runs
import Notbit.Slab

/-!
# Slices — elements of one size that are used again (`ntb-slice.c`)

An element that is freed is linked into the magazine by a pointer in its own first bytes, and the
next allocation takes it from there.  New elements come from the slabs.  Between the calls those who
hold an element write to it as they like.
-/

open Bytes Links Pools Runs

namespace Notbit.Slice

/-! ## 1. The allocator -/

/-- `struct ntb_slice_allocator` -/
structure SliceAllocator where
  elementSize : BitVec 64
  elementAlignment : BitVec 64
  magazine : Nat
  slab : SlabAllocator

/-- `sizeof (struct ntb_slice)`: a free element starts with the pointer to the next one. -/
def sliceSize : Nat := pointerSize

/-- `ntb_slice_allocator_init` and `NTB_SLICE_ALLOCATOR` -/
def sliceAllocatorInit (size alignment : BitVec 64) : SliceAllocator :=
  { elementSize :=
      if size > BitVec.ofNat 64 sliceSize then size else BitVec.ofNat 64 sliceSize
    elementAlignment := alignment
    magazine := 0
    slab := slabInit }

/-- `ntb_slice_alloc`; the alignment is passed on as an `int`. -/
def sliceAlloc (h : Heap) (allocator : SliceAllocator) (malloc : Nat) :
    Option (Heap × SliceAllocator × Nat) :=
  if allocator.magazine ≠ 0 then
    some (h, { allocator with magazine := load h.memory allocator.magazine }, allocator.magazine)
  else
    (slabAllocate h allocator.slab allocator.elementSize
      (allocator.elementAlignment.setWidth 32) malloc).map
        fun (h, slab, ret) => (h, { allocator with slab }, ret)

/-- `ntb_slice_free` -/
def sliceFree (h : Heap) (allocator : SliceAllocator) (ptr : Nat) : Heap × SliceAllocator :=
  ({ h with memory := store h.memory ptr allocator.magazine },
    { allocator with magazine := ptr })

/-! ## 2. Runs -/

/-- The elements of an allocator: their type's size and alignment, of which one fits into a slab
behind the aligned header. -/
structure Element where
  size : Nat
  alignment : Nat
  power : ∃ k, alignment = 2 ^ k
  fits : roundUp slabHeader alignment + max size sliceSize ≤ slabSize

/-- What the elements take up in the slabs. -/
def Element.layout (t : Element) : Layout where
  size := max t.size sliceSize
  alignment := t.alignment
  sized := lt_of_lt_of_le (by decide) (le_max_right t.size sliceSize)
  power := t.power
  fits := t.fits

/-- The memory with an allocator, the elements that callers hold, and those that were freed and were
not allocated again. -/
structure State where
  heap : Heap
  allocator : SliceAllocator
  live : List Nat
  freed : List Nat

def State.init (t : Element) (memory : Memory) : State :=
  { heap := { memory, blocks := [] }
    allocator := sliceAllocatorInit (BitVec.ofNat 64 t.size) (BitVec.ofNat 64 t.alignment)
    live := []
    freed := [] }

inductive Event where
  /-- `malloc` is what `malloc` returns if it is called. -/
  | alloc (malloc : Nat)
  | free (ptr : Nat)
  | write (address : Nat) (byte : UInt8)

/-- The program writes to the elements it holds and outside the slabs. -/
def State.Writable (s : State) (address : Nat) : Prop :=
  (∃ e ∈ s.live, e ≤ address ∧ address < e + s.allocator.elementSize.toNat) ∨
    ∀ b ∈ s.heap.blocks, address < b ∨ b + slabSize ≤ address

instance (s : State) (address : Nat) : Decidable (s.Writable address) :=
  inferInstanceAs (Decidable (_ ∨ _))

def step (s : State) : Event → Option State
  | .alloc malloc =>
    (sliceAlloc s.heap s.allocator malloc).map fun (heap, allocator, ptr) =>
      { heap, allocator, live := ptr :: s.live, freed := s.freed.erase ptr }
  | .free ptr =>
    -- an element is freed once, by a caller that holds it
    if ptr ∈ s.live then
      let (heap, allocator) := sliceFree s.heap s.allocator ptr
      some { heap, allocator, live := s.live.erase ptr, freed := ptr :: s.freed }
    else none
  | .write address byte =>
    if s.Writable address then
      some { s with heap :=
        { s.heap with memory := Function.update s.heap.memory address byte } }
    else none

/-- `malloc` keeps its promise, or there is no memory left. -/
def MallocKept (mallocAlignment : Nat) (s : State) : Event → Prop
  | .alloc malloc => malloc = 0 ∨ Malloced mallocAlignment s.heap.blocks malloc
  | _ => True

/-! ## 3. The invariant -/

/-- Live and freed elements together are what was carved out of the slabs, and the freed ones are
linked by the pointers in them. -/
structure Inv (t : Element) (mallocAlignment : Nat) (s : State) : Prop where
  size : s.allocator.elementSize = BitVec.ofNat 64 t.layout.size
  alignment : s.allocator.elementAlignment = BitVec.ofNat 64 t.alignment
  kept : SlabKept t.layout mallocAlignment s.heap s.allocator.slab (s.freed ++ s.live)
  magazine : Linked s.heap.memory s.allocator.magazine s.freed

section Step

variable {t : Element} {mallocAlignment : Nat} {s s' : State}

theorem Element.size_le (t : Element) : t.layout.size ≤ slabSize := by
  have hfits := t.layout.fits
  omega

theorem Inv.toNat_size (hi : Inv t mallocAlignment s) :
    s.allocator.elementSize.toNat = t.layout.size := by
  have hle := t.size_le
  unfold slabSize at hle
  rw [hi.size, BitVec.toNat_ofNat]
  omega

-- The alignment is the same as an `int`.
theorem Inv.setWidth_alignment (hi : Inv t mallocAlignment s) :
    s.allocator.elementAlignment.setWidth 32 = BitVec.ofNat 32 t.layout.alignment := by
  rw [hi.alignment]
  apply BitVec.eq_of_toNat_eq
  show (BitVec.setWidth 32 (BitVec.ofNat 64 t.alignment)).toNat = _
  rw [BitVec.toNat_setWidth, BitVec.toNat_ofNat, BitVec.toNat_ofNat]
  show t.alignment % 2 ^ 64 % 2 ^ 32 = t.alignment % 2 ^ 32
  omega

theorem inv_init (t : Element) (mallocAlignment : Nat) (memory : Memory) :
    Inv t mallocAlignment (State.init t memory) where
  size := by
    have hle := t.size_le
    have hmax : t.layout.size = max t.size sliceSize := rfl
    unfold slabSize at hle
    show (if BitVec.ofNat 64 t.size > BitVec.ofNat 64 sliceSize then BitVec.ofNat 64 t.size
      else BitVec.ofNat 64 sliceSize) = BitVec.ofNat 64 t.layout.size
    have hsize : (BitVec.ofNat 64 t.size).toNat = t.size := by
      rw [BitVec.toNat_ofNat]
      omega
    have hlt : BitVec.ofNat 64 t.size > BitVec.ofNat 64 sliceSize ↔ sliceSize < t.size := by
      rw [gt_iff_lt, BitVec.lt_def, hsize]
      rfl
    rw [hmax]
    by_cases hlarge : sliceSize < t.size
    · rw [if_pos (hlt.mpr hlarge), max_eq_left (by omega)]
    · rw [if_neg (fun h => hlarge (hlt.mp h)), max_eq_right (by omega)]
  alignment := rfl
  kept := slabKept_init t.layout mallocAlignment memory
  magazine := rfl

/-! ### Writing to memory -/

theorem sliceSize_le (t : Element) : pointerSize ≤ t.layout.size := le_max_right t.size sliceSize

-- A freed element and a live one share no byte.
theorem Inv.apart {f e : Nat} (hi : Inv t mallocAlignment s) (hf : f ∈ s.freed)
    (he : e ∈ s.live) : f + t.layout.size ≤ e ∨ e + t.layout.size ≤ f := by
  have hapart := (List.pairwise_append.mp hi.kept.carved.apart).2.2 f hf e he
  exact Shape.apart_iff.mp hapart

/-- What is written into live elements or outside the slabs leaves every link as it is. -/
theorem Inv.write (hi : Inv t mallocAlignment s) {address : Nat} (byte : UInt8)
    (hwritable : s.Writable address) :
    Inv t mallocAlignment { s with heap :=
      { s.heap with memory := Function.update s.heap.memory address byte } } := by
  have hload : ∀ a, (address < a ∨ a + pointerSize ≤ address) →
      load (Function.update s.heap.memory address byte) a = load s.heap.memory a := by
    intro a ha
    apply load_congr
    intro i hlow hhigh
    apply Function.update_of_ne
    omega
  have hsize := sliceSize_le t
  refine ⟨hi.size, hi.alignment, hi.kept.congr rfl (fun b hb => hload b ?_) (List.Perm.refl _),
    hi.magazine.congr fun f hf => hload f ?_⟩
  · rcases hwritable with ⟨e, he, hlow, hhigh⟩ | houtside
    · have hapart := hi.kept.header_apart (List.mem_append_right s.freed he) hb
      rw [hi.toNat_size] at hhigh
      unfold slabHeader at hapart
      omega
    · have hout := houtside b hb
      unfold slabSize at hout
      unfold pointerSize
      omega
  · rcases hwritable with ⟨e, he, hlow, hhigh⟩ | houtside
    · have hapart := hi.apart hf he
      rw [hi.toNat_size] at hhigh
      omega
    · obtain ⟨b, hb, hheader, hfits, -⟩ := hi.kept.inside (List.mem_append_left s.live hf)
      have hout := houtside b hb
      omega

/-! ### Freeing and allocating -/

/-- The element becomes the first of the magazine. -/
theorem Inv.free (hi : Inv t mallocAlignment s) {ptr : Nat} (hptr : ptr ∈ s.live) :
    Inv t mallocAlignment
      { heap := (sliceFree s.heap s.allocator ptr).1
        allocator := (sliceFree s.heap s.allocator ptr).2
        live := s.live.erase ptr
        freed := ptr :: s.freed } := by
  have hsize := sliceSize_le t
  obtain ⟨b₀, -, hheader, -, -⟩ := hi.kept.inside (List.mem_append_right s.freed hptr)
  have hne : ptr ≠ 0 := by
    unfold slabHeader pointerSize at hheader
    omega
  have hmagazine : s.allocator.magazine < 2 ^ 64 := by
    by_cases hnull : s.allocator.magazine = 0
    · rw [hnull]
      norm_num
    · obtain ⟨rest, hfreed, -⟩ := hi.magazine.exists_cons hnull
      have hmem : s.allocator.magazine ∈ s.freed ++ s.live := by
        rw [hfreed]
        exact List.mem_cons_self
      obtain ⟨b, hb, -, hfits, -⟩ := hi.kept.inside hmem
      have hbounded := hi.kept.bounded b hb
      have hsized := t.layout.sized
      omega
  refine ⟨hi.size, hi.alignment, hi.kept.congr rfl (fun b hb => ?_) ?_,
    hi.magazine.push hne hmagazine fun f hf => ?_⟩
  · apply load_store_of_apart
    have hapart := hi.kept.header_apart (List.mem_append_right s.freed hptr) hb
    unfold slabHeader at hapart
    omega
  · have hsplit : (s.freed ++ s.live).Perm (s.freed ++ ptr :: s.live.erase ptr) :=
      (List.perm_cons_erase hptr).append_left s.freed
    exact hsplit.trans List.perm_middle
  · have hapart := hi.apart hf hptr
    omega

-- A freed element is taken out of the magazine, the last one first.
theorem Inv.reuse (hi : Inv t mallocAlignment s) (hmagazine : s.allocator.magazine ≠ 0) :
    ∃ rest, s.freed = s.allocator.magazine :: rest ∧ Inv t mallocAlignment
      { heap := s.heap
        allocator :=
          { s.allocator with magazine := load s.heap.memory s.allocator.magazine }
        live := s.allocator.magazine :: s.live
        freed := rest } := by
  obtain ⟨rest, hfreed, hlinked⟩ := hi.magazine.exists_cons hmagazine
  refine ⟨rest, hfreed, hi.size, hi.alignment, hi.kept.congr rfl (fun _ _ => rfl) ?_, hlinked⟩
  rw [hfreed]
  exact List.perm_middle.symm

theorem Inv.alloc (hi : Inv t mallocAlignment s) {malloc : Nat}
    (hmalloc : malloc = 0 ∨ Malloced mallocAlignment s.heap.blocks malloc)
    (hs : step s (.alloc malloc) = some s') : Inv t mallocAlignment s' := by
  obtain ⟨⟨heap, allocator, ptr⟩, halloc, rfl⟩ := Option.map_eq_some_iff.mp hs
  unfold sliceAlloc at halloc
  split_ifs at halloc with hmagazine
  · obtain ⟨rest, hfreed, hinv⟩ := hi.reuse hmagazine
    cases halloc
    show Inv t mallocAlignment { freed := s.freed.erase s.allocator.magazine, .. }
    rw [hfreed, List.erase_cons_head]
    exact hinv
  · rw [not_not] at hmagazine
    have hempty := hi.magazine
    rw [hmagazine] at hempty
    have hfreed := hempty.eq_nil
    have hkept := hi.kept
    rw [hfreed, List.nil_append] at hkept
    obtain ⟨⟨heap', slab, ret⟩, hslab, heq⟩ := Option.map_eq_some_iff.mp halloc
    cases heq
    rw [hi.size, hi.setWidth_alignment] at hslab
    refine ⟨hi.size, hi.alignment, ?_, ?_⟩
    · show SlabKept t.layout mallocAlignment heap slab (s.freed.erase ptr ++ ptr :: s.live)
      rw [hfreed]
      exact hkept.allocate hmalloc hslab
    · show Linked heap.memory s.allocator.magazine (s.freed.erase ptr)
      rw [hfreed, hmagazine]
      rfl

theorem Inv.step {e : Event} (hi : Inv t mallocAlignment s) (hok : MallocKept mallocAlignment s e)
    (hs : step s e = some s') : Inv t mallocAlignment s' := by
  cases e with
  | alloc malloc => exact hi.alloc hok hs
  | free ptr =>
    simp only [Slice.step] at hs
    split_ifs at hs with hptr
    cases hs
    exact hi.free hptr
  | write address byte =>
    simp only [Slice.step] at hs
    split_ifs at hs with hwritable
    cases hs
    exact hi.write byte hwritable

end Step

/-! ## 4. Every run -/

/-- What callers can rely on. -/
structure Sound (t : Element) (mallocAlignment : Nat) (s : State) : Prop where
  apart : s.live.Pairwise fun e e' =>
    Disjoint (region e t.layout.size) (region e' t.layout.size)
  /-- An element lies in a slab, behind its header and at a multiple of the alignment from its start. -/
  inside : ∀ e ∈ s.live, ∃ b ∈ s.heap.blocks,
    b + slabHeader ≤ e ∧ e + t.layout.size ≤ b + slabSize ∧ t.alignment ∣ e - b
  aligned : t.alignment ∣ mallocAlignment → ∀ e ∈ s.live, t.alignment ∣ e
  /-- While there is a freed element an allocation takes one of them, and nothing from the slabs. -/
  reused : s.freed ≠ [] → ∀ malloc s', step s (.alloc malloc) = some s' →
    s'.heap = s.heap ∧ s'.allocator.slab = s.allocator.slab ∧
      ∃ e ∈ s.freed, s'.live = e :: s.live ∧ s'.freed = s.freed.erase e
  /-- An allocation fails only if it needs memory and there is none. -/
  allocated : ∀ malloc, s.freed ≠ [] ∨ malloc ≠ 0 → (step s (.alloc malloc)).isSome

section Runs

variable {t : Element} {mallocAlignment : Nat} {s : State}

theorem Inv.magazine_ne_null (hi : Inv t mallocAlignment s) (hfreed : s.freed ≠ []) :
    s.allocator.magazine ≠ 0 := by
  intro hnull
  have hlinked := hi.magazine
  rw [hnull] at hlinked
  exact hfreed hlinked.eq_nil

theorem Inv.reused (hi : Inv t mallocAlignment s) (hfreed : s.freed ≠ []) {malloc : Nat}
    {s' : State} (hs : Slice.step s (.alloc malloc) = some s') :
    s'.heap = s.heap ∧ s'.allocator.slab = s.allocator.slab ∧
      ∃ e ∈ s.freed, s'.live = e :: s.live ∧ s'.freed = s.freed.erase e := by
  have hmagazine := hi.magazine_ne_null hfreed
  obtain ⟨⟨heap, allocator, ptr⟩, halloc, rfl⟩ := Option.map_eq_some_iff.mp hs
  rw [sliceAlloc, if_pos hmagazine] at halloc
  cases halloc
  obtain ⟨rest, hrest, -⟩ := hi.magazine.exists_cons hmagazine
  refine ⟨rfl, rfl, s.allocator.magazine, ?_, rfl, rfl⟩
  rw [hrest]
  exact List.mem_cons_self

theorem Inv.allocated (hi : Inv t mallocAlignment s) {malloc : Nat}
    (hroom : s.freed ≠ [] ∨ malloc ≠ 0) : (Slice.step s (.alloc malloc)).isSome := by
  show ((sliceAlloc s.heap s.allocator malloc).map _).isSome
  rw [Option.isSome_map]
  unfold sliceAlloc
  split_ifs with hmagazine
  · rfl
  · rcases hroom with hfreed | hnull
    · exact absurd (hi.magazine_ne_null hfreed) hmagazine
    · rw [Option.isSome_map]
      exact isSome_slabAllocate _ _ _ _ hnull

theorem Inv.sound (hi : Inv t mallocAlignment s) : Sound t mallocAlignment s := by
  have hinside : ∀ e ∈ s.live, ∃ b ∈ s.heap.blocks, b + slabHeader ≤ e ∧
      e + t.layout.size ≤ b + slabSize ∧ t.alignment ∣ e - b :=
    fun e he => hi.kept.inside (List.mem_append_right s.freed he)
  refine ⟨(List.pairwise_append.mp hi.kept.carved.apart).2.1, hinside, ?_, ?_, ?_⟩
  · intro hdvd e he
    -- the start of the slab is a multiple of what `malloc` promises
    obtain ⟨b, hb, hheader, -, haligned⟩ := hinside e he
    have hsum : e = (e - b) + b := by omega
    rw [hsum]
    exact haligned.add (hdvd.trans (hi.kept.aligned b hb))
  · exact fun hfreed malloc s' hs => hi.reused hfreed hs
  · exact fun malloc hroom => hi.allocated hroom

/-- For every size and alignment of which an element fits into a slab, in every run in which callers
free what they hold and write to what they hold, and `malloc` keeps its promise, the live elements
lie apart in the slabs behind the headers, are aligned as far as the slabs are, and freed elements are
allocated again before anything is taken from the slabs. -/
theorem elements_sound (t : Element) (mallocAlignment : Nat) (memory : Memory)
    (events : List Event)
    (hmalloc : Along step (MallocKept mallocAlignment) (State.init t memory) events) :
    Sound t mallocAlignment (run step (State.init t memory) events) := by
  have hinv : Inv t mallocAlignment (run step (State.init t memory) events) :=
    invariant_along (fun _ _ _ hi hok hs => hi.step hok hs) hmalloc
      (inv_init t mallocAlignment memory)
  exact hinv.sound

end Runs

/-- Elements of three pointers. -/
def threePointers : Element where
  size := 24
  alignment := 8
  power := ⟨3, rfl⟩
  fits := by decide

/-- Two elements are allocated, the first is written to and freed, and one more is allocated. -/
def freedAndReused : List Event :=
  [.alloc 4112, .alloc 0, .write 4123 7, .free 4120, .alloc 0]

theorem freedAndReused_sound :
    let s := run step (State.init threePointers fun _ => 0) freedAndReused
    s.live = [4120, 4144] ∧ s.heap.blocks = [4112] ∧ Sound threePointers 16 s := by
  have hmalloced : Malloced 16 [] 4112 :=
    ⟨by decide, by decide, by decide, fun _ hb => absurd hb List.not_mem_nil⟩
  exact ⟨by decide +kernel, by decide +kernel, elements_sound _ _ _ _ ⟨fun _ => Or.inr hmalloced,
    fun _ => Or.inl rfl, fun _ => trivial, fun _ => trivial, fun _ => Or.inl rfl, trivial⟩⟩

/-- Elements with an alignment above what `malloc` promises. -/
def overAligned : Element where
  size := 32
  alignment := 32
  power := ⟨5, rfl⟩
  fits := by decide

-- A slab at a multiple of 16 is all that is promised; the element in it is not at a multiple of 32.
theorem overAligned_not_aligned :
    Along step (MallocKept 16) (State.init overAligned fun _ => 0) [.alloc 4112] ∧
      (run step (State.init overAligned fun _ => 0) [.alloc 4112]).live = [4144] ∧
      ¬ overAligned.alignment ∣ 4144 := by
  have hmalloced : Malloced 16 [] 4112 :=
    ⟨by decide, by decide, by decide, fun _ hb => absurd hb List.not_mem_nil⟩
  exact ⟨⟨fun _ => Or.inr hmalloced, trivial⟩, by decide +kernel, by decide⟩

end Notbit.Slice
