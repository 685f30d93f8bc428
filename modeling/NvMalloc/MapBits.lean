/-
# The page map of a chunk

The header of a chunk has one word for each page.  The word packs a number (the size of the run, or
the place of the page in the run), the bin of a small run and four flags, and is read and written
with masks.  The functions here have the names of the accessors in `arena.h`; they work on the word
that `arena_mapbitsp_get` finds for the page, and an assertion that fails makes them undefined.

`MapWord` is the word taken apart.  Every 64-bit word is the packed form of one `MapWord`, and the
masks compute what the accessors mean in terms of its fields, over every run of them
(`mapbits_packed`).
-/
import NvMalloc.Runs
import NvMalloc.SizeClasses

open Function

namespace Jemalloc

/-! ## The accessors -/

/-- `BININD_INVALID`. -/
def binindInvalid : BitVec 64 := 0xff

/-- `CHUNK_MAP_BININD_MASK`, which is `CHUNK_MAP_BININD_INVALID` too. -/
def chunkMapBinindMask : BitVec 64 := 0xff0

/-- `CHUNK_MAP_BININD_SHIFT`. -/
def chunkMapBinindShift : ℕ := 4

/-- `CHUNK_MAP_FLAGS_MASK`. -/
def chunkMapFlagsMask : BitVec 64 := 0xc

/-- `CHUNK_MAP_DIRTY`. -/
def chunkMapDirty : BitVec 64 := 0x8

/-- `CHUNK_MAP_UNZEROED`. -/
def chunkMapUnzeroed : BitVec 64 := 0x4

/-- `CHUNK_MAP_LARGE`. -/
def chunkMapLarge : BitVec 64 := 0x2

/-- `CHUNK_MAP_ALLOCATED`. -/
def chunkMapAllocated : BitVec 64 := 0x1

/-- `PAGE_MASK`. -/
def pageMask : BitVec 64 := 0x1fff

/-- `arena_mapp_get`, `arena_mapbitsp_get`: the index of the word of a page. -/
def arenaMapbitspGet (c : Config) (pageind : BitVec 64) : Option ℕ := do
  guard (c.mapBias ≤ pageind.toNat)
  guard (pageind.toNat < c.chunkNpages)
  return pageind.toNat - c.mapBias

/-- `arena_mapbits_unallocated_size_get`. -/
def arenaMapbitsUnallocatedSizeGet (mapbits : BitVec 64) : Option (BitVec 64) := do
  guard (mapbits &&& (chunkMapLarge ||| chunkMapAllocated) = 0)
  return mapbits &&& ~~~pageMask

/-- `arena_mapbits_large_size_get`. -/
def arenaMapbitsLargeSizeGet (mapbits : BitVec 64) : Option (BitVec 64) := do
  guard (mapbits &&& (chunkMapLarge ||| chunkMapAllocated) = chunkMapLarge ||| chunkMapAllocated)
  return mapbits &&& ~~~pageMask

/-- `arena_mapbits_small_runind_get`. -/
def arenaMapbitsSmallRunindGet (mapbits : BitVec 64) : Option (BitVec 64) := do
  guard (mapbits &&& (chunkMapLarge ||| chunkMapAllocated) = chunkMapAllocated)
  return mapbits >>> lgPage

/-- `arena_mapbits_binind_get`. -/
def arenaMapbitsBinindGet (mapbits : BitVec 64) : Option (BitVec 64) := do
  let binind := (mapbits &&& chunkMapBinindMask) >>> chunkMapBinindShift
  guard (binind.toNat < nbins ∨ binind = binindInvalid)
  return binind

/-- `arena_mapbits_dirty_get`. -/
def arenaMapbitsDirtyGet (mapbits : BitVec 64) : BitVec 64 := mapbits &&& chunkMapDirty

/-- `arena_mapbits_unzeroed_get`. -/
def arenaMapbitsUnzeroedGet (mapbits : BitVec 64) : BitVec 64 := mapbits &&& chunkMapUnzeroed

/-- `arena_mapbits_large_get`. -/
def arenaMapbitsLargeGet (mapbits : BitVec 64) : BitVec 64 := mapbits &&& chunkMapLarge

/-- `arena_mapbits_allocated_get`. -/
def arenaMapbitsAllocatedGet (mapbits : BitVec 64) : BitVec 64 := mapbits &&& chunkMapAllocated

/-- `arena_mapbits_unallocated_set`. -/
def arenaMapbitsUnallocatedSet (size flags : BitVec 64) : Option (BitVec 64) := do
  guard (size &&& pageMask = 0)
  guard (flags &&& ~~~chunkMapFlagsMask = 0)
  guard (flags &&& (chunkMapDirty ||| chunkMapUnzeroed) = flags)
  return size ||| chunkMapBinindMask ||| flags

/-- `arena_mapbits_unallocated_size_set`. -/
def arenaMapbitsUnallocatedSizeSet (mapbits size : BitVec 64) : Option (BitVec 64) := do
  guard (size &&& pageMask = 0)
  guard (mapbits &&& (chunkMapLarge ||| chunkMapAllocated) = 0)
  return size ||| (mapbits &&& pageMask)

/-- `arena_mapbits_large_set`. -/
def arenaMapbitsLargeSet (mapbits size flags : BitVec 64) : Option (BitVec 64) := do
  guard (size &&& pageMask = 0)
  guard (flags &&& chunkMapDirty = flags)
  -- the flag `unzeroed` is preserved
  let unzeroed := mapbits &&& chunkMapUnzeroed
  return size ||| chunkMapBinindMask ||| flags ||| unzeroed ||| chunkMapLarge ||| chunkMapAllocated

/-- `arena_mapbits_large_binind_set`. -/
def arenaMapbitsLargeBinindSet (mapbits binind : BitVec 64) : Option (BitVec 64) := do
  guard (binind ≤ binindInvalid)
  guard (arenaMapbitsLargeSizeGet mapbits = some (BitVec.ofNat 64 page))
  return (mapbits &&& ~~~chunkMapBinindMask) ||| (binind <<< chunkMapBinindShift)

/-- `arena_mapbits_small_set`.  The subtraction is one of `size_t`. -/
def arenaMapbitsSmallSet (c : Config) (pageind mapbits runind binind flags : BitVec 64) :
    Option (BitVec 64) := do
  guard (binind < binindInvalid)
  guard (c.mapBias ≤ (pageind - runind).toNat)
  guard (flags &&& chunkMapDirty = flags)
  -- the flag `unzeroed` is preserved
  let unzeroed := mapbits &&& chunkMapUnzeroed
  return (runind <<< lgPage) ||| (binind <<< chunkMapBinindShift) ||| flags ||| unzeroed |||
    chunkMapAllocated

/-- `arena_mapbits_unzeroed_set`. -/
def arenaMapbitsUnzeroedSet (mapbits unzeroed : BitVec 64) : BitVec 64 :=
  (mapbits &&& ~~~chunkMapUnzeroed) ||| unzeroed

/-! ## The word taken apart -/

/-- `arena_chunk_map_t.bits`: `upper` are the bits above `PAGE_MASK`, and `unused` is the one below
that no accessor reads. -/
@[ext] structure MapWord where
  upper : BitVec 51
  unused : Bool
  binind : BitVec 8
  dirty : Bool
  unzeroed : Bool
  large : Bool
  allocated : Bool
deriving DecidableEq, Repr

/-- The fields of a word. -/
def unpack (x : BitVec 64) : MapWord where
  upper := x.extractLsb' 13 51
  unused := x.getLsbD 12
  binind := x.extractLsb' 4 8
  dirty := x.getLsbD 3
  unzeroed := x.getLsbD 2
  large := x.getLsbD 1
  allocated := x.getLsbD 0

namespace MapWord

/-- The word in memory. -/
def pack (w : MapWord) : BitVec 64 :=
  w.upper ++ BitVec.ofBool w.unused ++ w.binind ++ BitVec.ofBool w.dirty ++
    BitVec.ofBool w.unzeroed ++ BitVec.ofBool w.large ++ BitVec.ofBool w.allocated

/-- The size in bytes of a run of as many pages as `upper` says. -/
def size (w : MapWord) : BitVec 64 := w.upper.setWidth 64 <<< lgPage

/-- The number in `binind`. -/
def bin (w : MapWord) : BitVec 64 := w.binind.setWidth 64

end MapWord

/-- A flag or 0. -/
def flagBits (flag : BitVec 64) (b : Bool) : BitVec 64 := if b then flag else 0

/-! ## Runs of accessors -/

/-- The functions that read a word. -/
inductive MapGet where
  | bits
  | unallocatedSize
  | largeSize
  | smallRunind
  | binind
  | dirty
  | unzeroed
  | large
  | allocated

/-- The functions that write a word.  The callers of `arena_mapbits_unzeroed_set` pass
`CHUNK_MAP_UNZEROED` or 0. -/
inductive MapSet where
  | unallocated (size flags : BitVec 64)
  | unallocatedSize (size : BitVec 64)
  | large (size flags : BitVec 64)
  | largeBinind (binind : BitVec 64)
  | small (runind binind flags : BitVec 64)
  | unzeroed (b : Bool)

/-- A call, for the page `pageind`. -/
inductive MapOp where
  | get (pageind : BitVec 64) (f : MapGet)
  | set (pageind : BitVec 64) (f : MapSet)

/-- What the code reads from a word. -/
def MapGet.ofBits (mapbits : BitVec 64) : MapGet → Option (BitVec 64)
  | .bits => some mapbits
  | .unallocatedSize => arenaMapbitsUnallocatedSizeGet mapbits
  | .largeSize => arenaMapbitsLargeSizeGet mapbits
  | .smallRunind => arenaMapbitsSmallRunindGet mapbits
  | .binind => arenaMapbitsBinindGet mapbits
  | .dirty => some (arenaMapbitsDirtyGet mapbits)
  | .unzeroed => some (arenaMapbitsUnzeroedGet mapbits)
  | .large => some (arenaMapbitsLargeGet mapbits)
  | .allocated => some (arenaMapbitsAllocatedGet mapbits)

/-- The word that the code writes. -/
def MapSet.ofBits (c : Config) (pageind mapbits : BitVec 64) : MapSet → Option (BitVec 64)
  | .unallocated size flags => arenaMapbitsUnallocatedSet size flags
  | .unallocatedSize size => arenaMapbitsUnallocatedSizeSet mapbits size
  | .large size flags => arenaMapbitsLargeSet mapbits size flags
  | .largeBinind binind => arenaMapbitsLargeBinindSet mapbits binind
  | .small runind binind flags => arenaMapbitsSmallSet c pageind mapbits runind binind flags
  | .unzeroed b => some (arenaMapbitsUnzeroedSet mapbits (flagBits chunkMapUnzeroed b))

/-- What is read, in terms of the fields: the size of a free or a large run, the place of a page in
a small run, the bin of a page, or a flag. -/
def MapGet.ofWord (w : MapWord) : MapGet → Option (BitVec 64)
  | .bits => some w.pack
  | .unallocatedSize => if !w.large && !w.allocated then some w.size else none
  | .largeSize => if w.large && w.allocated then some w.size else none
  | .smallRunind => if !w.large && w.allocated then some (w.upper.setWidth 64) else none
  | .binind => if w.binind.toNat < nbins ∨ w.binind = 0xff then some w.bin else none
  | .dirty => some (flagBits chunkMapDirty w.dirty)
  | .unzeroed => some (flagBits chunkMapUnzeroed w.unzeroed)
  | .large => some (flagBits chunkMapLarge w.large)
  | .allocated => some (flagBits chunkMapAllocated w.allocated)

/-- The bytes are a number of whole pages. -/
def WholePages (size : BitVec 64) : Prop := size &&& pageMask = 0

/-- Only the given flags are set. -/
def OnlyFlags (mask flags : BitVec 64) : Prop := flags &&& mask = flags

instance (size : BitVec 64) : Decidable (WholePages size) := inferInstanceAs (Decidable (_ = _))

instance (mask flags : BitVec 64) : Decidable (OnlyFlags mask flags) :=
  inferInstanceAs (Decidable (_ = _))

/-- What is written, in terms of the fields: a free run, its size, a large run, the bin that a large
run of one page stands for, a page of a small run, and the flag `unzeroed`, which the others
keep. -/
def MapSet.ofWord (c : Config) (pageind : BitVec 64) (w : MapWord) : MapSet → Option MapWord
  | .unallocated size flags =>
    if WholePages size ∧ OnlyFlags chunkMapFlagsMask flags then
      some ⟨size.extractLsb' 13 51, false, 0xff, flags.getLsbD 3, flags.getLsbD 2, false, false⟩
    else none
  | .unallocatedSize size =>
    if WholePages size ∧ !w.large ∧ !w.allocated then
      some { w with upper := size.extractLsb' 13 51 }
    else none
  | .large size flags =>
    if WholePages size ∧ OnlyFlags chunkMapDirty flags then
      some ⟨size.extractLsb' 13 51, false, 0xff, flags.getLsbD 3, w.unzeroed, true, true⟩
    else none
  | .largeBinind binind =>
    if binind ≤ binindInvalid ∧ w.large ∧ w.allocated ∧ w.upper = 1 then
      some { w with binind := binind.setWidth 8 }
    else none
  | .small runind binind flags =>
    if binind < binindInvalid ∧ c.mapBias ≤ (pageind - runind).toNat ∧
        OnlyFlags chunkMapDirty flags then
      some ⟨runind.setWidth 51, false, binind.setWidth 8, flags.getLsbD 3, w.unzeroed, false, true⟩
    else none
  | .unzeroed b => some { w with unzeroed := b }

section Steps

variable {W : Type}

/-- A call, given what is read from a word and what is written for it. -/
def mapStep (c : Config) (get : W → MapGet → Option (BitVec 64))
    (set : BitVec 64 → W → MapSet → Option W) (map : ℕ → W) :
    MapOp → Option (Option (BitVec 64) × (ℕ → W))
  | .get pageind f => do
    let i ← arenaMapbitspGet c pageind
    let x ← get (map i) f
    return (some x, map)
  | .set pageind f => do
    let i ← arenaMapbitspGet c pageind
    let w ← set pageind (map i) f
    return (none, update map i w)

end Steps

/-- A call of the code. -/
def bitsStep (c : Config) :
    (ℕ → BitVec 64) → MapOp → Option (Option (BitVec 64) × (ℕ → BitVec 64)) :=
  mapStep c MapGet.ofBits (MapSet.ofBits c)

/-- A call on the fields. -/
def wordStep (c : Config) : (ℕ → MapWord) → MapOp → Option (Option (BitVec 64) × (ℕ → MapWord)) :=
  mapStep c MapGet.ofWord (MapSet.ofWord c)

/-! ## Packing -/

theorem getLsbD_pack (w : MapWord) (i : ℕ) : w.pack.getLsbD i =
    if i = 0 then w.allocated else if i = 1 then w.large else if i = 2 then w.unzeroed
    else if i = 3 then w.dirty else if i < 12 then w.binind.getLsbD (i - 4)
    else if i = 12 then w.unused else w.upper.getLsbD (i - 13) := by
  have happ : w.pack = (w.upper ++ BitVec.ofBool w.unused ++ w.binind ++ BitVec.ofBool w.dirty ++
    BitVec.ofBool w.unzeroed ++ BitVec.ofBool w.large ++ BitVec.ofBool w.allocated).cast rfl := rfl
  rw [happ]
  simp only [BitVec.getLsbD_cast, BitVec.getLsbD_append, BitVec.getLsbD_ofBool]
  rcases Nat.lt_or_ge i 13 with hi | hi
  · interval_cases i <;> simp
  · obtain ⟨j, rfl⟩ := Nat.exists_eq_add_of_le hi
    simp [Nat.sub_sub, show ∀ k, k ≤ 13 → ¬ 13 + j < k by omega, show ∀ k,
      k < 13 → ¬ 13 + j = k by omega, show ¬ 9 + j < 8 by omega, show ¬ 9 + j - 8 = 0 by omega]

theorem pack_unpack (x : BitVec 64) : (unpack x).pack = x := by
  apply BitVec.eq_of_getLsbD_eq
  intro i hi
  simp only [getLsbD_pack, unpack, BitVec.getLsbD_extractLsb']
  rcases Nat.lt_or_ge i 13 with hlow | hlow
  · interval_cases i <;> simp
  · obtain ⟨j, rfl⟩ := Nat.exists_eq_add_of_le hlow
    simp [show ∀ k, k ≤ 13 → ¬ 13 + j < k by omega, show ∀ k, k < 13 → ¬ 13 + j = k by omega,
      show j < 51 by omega]

theorem unpack_pack (w : MapWord) : unpack w.pack = w := by
  apply MapWord.ext
  · apply BitVec.eq_of_getLsbD_eq
    intro i hi
    simp [unpack, getLsbD_pack, hi, show ∀ k, k ≤ 13 → ¬ 13 + i < k by omega,
      show ∀ k, k < 13 → ¬ 13 + i = k by omega]
  · simp only [unpack, getLsbD_pack, reduceIte, OfNat.ofNat_ne_zero, OfNat.ofNat_ne_one]
    rfl
  · apply BitVec.eq_of_getLsbD_eq
    intro i hi
    simp [unpack, getLsbD_pack, hi, show ∀ k, k < 4 → ¬ 4 + i = k by omega,
      show 4 + i < 12 by omega]
  all_goals simp only [unpack, getLsbD_pack]; rfl

theorem unpack_injective : Injective unpack :=
  LeftInverse.injective pack_unpack

namespace MapWord

/-- The word of the bits that are set in one of two words. -/
def or (w w' : MapWord) : MapWord where
  upper := w.upper ||| w'.upper
  unused := w.unused || w'.unused
  binind := w.binind ||| w'.binind
  dirty := w.dirty || w'.dirty
  unzeroed := w.unzeroed || w'.unzeroed
  large := w.large || w'.large
  allocated := w.allocated || w'.allocated

/-- The word of the bits that are set in both of two words. -/
def and (w w' : MapWord) : MapWord where
  upper := w.upper &&& w'.upper
  unused := w.unused && w'.unused
  binind := w.binind &&& w'.binind
  dirty := w.dirty && w'.dirty
  unzeroed := w.unzeroed && w'.unzeroed
  large := w.large && w'.large
  allocated := w.allocated && w'.allocated

end MapWord

theorem unpack_or (x y : BitVec 64) : unpack (x ||| y) = (unpack x).or (unpack y) := by
  ext i hi <;> simp [unpack, MapWord.or]

theorem unpack_and (x y : BitVec 64) : unpack (x &&& y) = (unpack x).and (unpack y) := by
  ext i hi <;> simp [unpack, MapWord.and]

/-! The masks, taken apart. -/

@[simp] theorem unpack_zero : unpack 0#64 = ⟨0, false, 0, false, false, false, false⟩ := by decide

@[simp] theorem unpack_pageMask :
    unpack pageMask = ⟨0, true, 0xff, true, true, true, true⟩ := by decide

@[simp] theorem unpack_not_pageMask :
    unpack (~~~pageMask) = ⟨BitVec.allOnes 51, false, 0, false, false, false, false⟩ := by decide

@[simp] theorem unpack_binindMask :
    unpack chunkMapBinindMask = ⟨0, false, 0xff, false, false, false, false⟩ := by decide

@[simp] theorem unpack_not_binindMask : unpack (~~~chunkMapBinindMask) =
    ⟨BitVec.allOnes 51, true, 0, true, true, true, true⟩ := by decide

@[simp] theorem unpack_flagsMask :
    unpack chunkMapFlagsMask = ⟨0, false, 0, true, true, false, false⟩ := by decide

@[simp] theorem unpack_dirty :
    unpack chunkMapDirty = ⟨0, false, 0, true, false, false, false⟩ := by decide

@[simp] theorem unpack_unzeroed :
    unpack chunkMapUnzeroed = ⟨0, false, 0, false, true, false, false⟩ := by decide

@[simp] theorem unpack_not_unzeroed : unpack (~~~chunkMapUnzeroed) =
    ⟨BitVec.allOnes 51, true, 0xff, true, false, true, true⟩ := by decide

@[simp] theorem unpack_large :
    unpack chunkMapLarge = ⟨0, false, 0, false, false, true, false⟩ := by decide

@[simp] theorem unpack_allocated :
    unpack chunkMapAllocated = ⟨0, false, 0, false, false, false, true⟩ := by decide

attribute [simp] unpack_or unpack_and MapWord.or MapWord.and

/-- A field that is masked with all ones. -/
@[simp] theorem land_ones_binind (b : BitVec 8) : b &&& 255#8 = b := BitVec.and_allOnes

@[simp] theorem land_ones_upper (b : BitVec 51) : b &&& 2251799813685247#51 = b :=
  BitVec.and_allOnes

/-- An assertion. -/
theorem guard_bind {α : Type} (p : Prop) [Decidable p] (f : Unit → Option α) :
    ((guard p : Option Unit) >>= f) = if p then f () else none := by
  by_cases h : p <;> simp [h]

/-! ## What the accessors read -/

section Get

variable (x : BitVec 64)

theorem land_flag (k : ℕ) :
    x &&& BitVec.twoPow 64 k = flagBits (BitVec.twoPow 64 k) (x.getLsbD k) := BitVec.and_twoPow ..

theorem land_state_eq_zero : x &&& (chunkMapLarge ||| chunkMapAllocated) = 0 ↔
    (!(unpack x).large && !(unpack x).allocated) = true := by
  rw [← unpack_injective.eq_iff]
  simp

theorem land_state_eq_large :
    x &&& (chunkMapLarge ||| chunkMapAllocated) = chunkMapLarge ||| chunkMapAllocated ↔
      ((unpack x).large && (unpack x).allocated) = true := by
  rw [← unpack_injective.eq_iff]
  simp

theorem land_state_eq_small : x &&& (chunkMapLarge ||| chunkMapAllocated) = chunkMapAllocated ↔
    (!(unpack x).large && (unpack x).allocated) = true := by
  rw [← unpack_injective.eq_iff]
  simp

theorem unpack_size (w : MapWord) :
    unpack w.size = ⟨w.upper, false, 0, false, false, false, false⟩ := by
  apply MapWord.ext
  · apply BitVec.eq_of_getLsbD_eq
    intro i hi
    simp [unpack, MapWord.size, lgPage, hi, show 13 + i < 64 by omega]
  · simp [unpack, MapWord.size, lgPage]
  · apply BitVec.eq_of_getLsbD_eq
    intro i hi
    simp [unpack, MapWord.size, lgPage, show 4 + i < 13 by omega]
  all_goals simp [unpack, MapWord.size, lgPage]

/-- The size of a run. -/
theorem land_not_pageMask : x &&& ~~~pageMask = (unpack x).size := by
  apply unpack_injective
  rw [unpack_size]
  simp

/-- The place of a page in its run. -/
theorem shiftRight_lgPage : x >>> lgPage = (unpack x).upper.setWidth 64 := by
  apply BitVec.eq_of_getLsbD_eq
  intro i hi
  simp only [BitVec.getLsbD_ushiftRight, BitVec.getLsbD_setWidth, unpack,
    BitVec.getLsbD_extractLsb', lgPage, hi, decide_true, Bool.true_and]
  by_cases h : i < 51
  · simp [h]
  · simp [h, show 64 ≤ 13 + i by omega]

/-- The bin of a page. -/
theorem land_binindMask : (x &&& chunkMapBinindMask) >>> chunkMapBinindShift = (unpack x).bin := by
  have hmask : ∀ i < 64, chunkMapBinindMask.getLsbD i = decide (4 ≤ i ∧ i < 12) := by decide
  apply BitVec.eq_of_getLsbD_eq
  intro i hi
  simp only [BitVec.getLsbD_ushiftRight, BitVec.getLsbD_and, MapWord.bin, BitVec.getLsbD_setWidth,
    unpack, BitVec.getLsbD_extractLsb', chunkMapBinindShift, hi, decide_true, Bool.true_and]
  by_cases h : i < 8
  · simp [hmask (4 + i) (by omega), h, show 4 + i < 12 by omega]
  · by_cases h' : 4 + i < 64
    · simp [hmask (4 + i) h', h, show ¬ 4 + i < 12 by omega]
    · simp [h, show 64 ≤ 4 + i by omega]

theorem bin_toNat (w : MapWord) : w.bin.toNat = w.binind.toNat := by
  have := w.binind.isLt
  rw [MapWord.bin, BitVec.toNat_setWidth, Nat.mod_eq_of_lt (by omega)]

theorem bin_eq_invalid (w : MapWord) : w.bin = binindInvalid ↔ w.binind = 0xff := by
  rw [← BitVec.toNat_inj, ← BitVec.toNat_inj, bin_toNat]
  rfl

/-- Every function that reads a word reads the fields. -/
theorem MapGet.ofBits_eq (f : MapGet) : f.ofBits x = f.ofWord (unpack x) := by
  cases f
  all_goals simp only [MapGet.ofBits, MapGet.ofWord]
  case bits => rw [pack_unpack]
  case unallocatedSize =>
    rw [arenaMapbitsUnallocatedSizeGet, guard_bind]
    simp only [land_state_eq_zero, land_not_pageMask]
    rfl
  case largeSize =>
    rw [arenaMapbitsLargeSizeGet, guard_bind]
    simp only [land_state_eq_large, land_not_pageMask]
    rfl
  case smallRunind =>
    rw [arenaMapbitsSmallRunindGet, guard_bind]
    simp only [land_state_eq_small, shiftRight_lgPage]
    rfl
  case binind =>
    rw [arenaMapbitsBinindGet, guard_bind]
    simp only [land_binindMask, bin_toNat, bin_eq_invalid]
    rfl
  case dirty => exact congrArg some (land_flag x 3)
  case unzeroed => exact congrArg some (land_flag x 2)
  case large => exact congrArg some (land_flag x 1)
  case allocated => exact congrArg some (land_flag x 0)

end Get

/-! ## What the accessors write -/

section Set

variable {x size flags binind : BitVec 64}

theorem unpack_of_wholePages (h : WholePages size) :
    unpack size = ⟨size.extractLsb' 13 51, false, 0, false, false, false, false⟩ := by
  have hparts : (unpack size).and (unpack pageMask) = unpack 0#64 := by
    rw [← unpack_and]
    exact congrArg unpack h
  simp only [unpack_pageMask, MapWord.and, unpack_zero, Bool.and_true] at hparts
  injection hparts with _ hunused hbin hdirty hunzeroed hlarge hallocated
  exact MapWord.ext rfl hunused ((land_ones_binind _).symm.trans hbin) hdirty hunzeroed hlarge
    hallocated

theorem unpack_of_onlyFlags (h : OnlyFlags chunkMapFlagsMask flags) :
    unpack flags = ⟨0, false, 0, flags.getLsbD 3, flags.getLsbD 2, false, false⟩ := by
  have hparts : (unpack flags).and (unpack chunkMapFlagsMask) = unpack flags := by
    rw [← unpack_and]
    exact congrArg unpack h
  rw [← hparts, unpack_flagsMask]
  simp [unpack]

theorem unpack_of_onlyDirty (h : OnlyFlags chunkMapDirty flags) :
    unpack flags = ⟨0, false, 0, flags.getLsbD 3, false, false, false⟩ := by
  have hparts : (unpack flags).and (unpack chunkMapDirty) = unpack flags := by
    rw [← unpack_and]
    exact congrArg unpack h
  rw [← hparts, unpack_dirty]
  simp [unpack]

/-- The two assertions on the flags of a free run say the same. -/
theorem land_not_flagsMask : flags &&& ~~~chunkMapFlagsMask = 0 ↔
    OnlyFlags chunkMapFlagsMask flags := by
  have hsplit : flags = (flags &&& chunkMapFlagsMask) ||| (flags &&& ~~~chunkMapFlagsMask) := by
    rw [← BitVec.and_or_distrib_left, BitVec.or_not_self, BitVec.and_allOnes]
  constructor
  · intro h
    rw [h] at hsplit
    simpa [OnlyFlags] using hsplit.symm
  · intro h
    rw [← h, BitVec.and_assoc, BitVec.and_not_self]
    exact BitVec.and_zero

theorem unpack_shiftLeft_runind (runind : BitVec 64) : unpack (runind <<< lgPage) =
    ⟨runind.setWidth 51, false, 0, false, false, false, false⟩ := by
  apply MapWord.ext
  · apply BitVec.eq_of_getLsbD_eq
    intro i hi
    simp [unpack, lgPage, hi, show 13 + i < 64 by omega]
    exact (BitVec.getLsbD_eq_getElem _).symm
  · simp [unpack, lgPage]
  · apply BitVec.eq_of_getLsbD_eq
    intro i hi
    simp [unpack, lgPage, show 4 + i < 13 by omega]
  all_goals simp [unpack, lgPage]

theorem unpack_shiftLeft_binind (h : binind ≤ binindInvalid) :
    unpack (binind <<< chunkMapBinindShift) =
      ⟨0, false, binind.setWidth 8, false, false, false, false⟩ := by
  have hhigh : ∀ i, binind.getLsbD (8 + i) = false := by
    intro i
    have hlt : binind.toNat < 2 ^ 8 := Nat.lt_succ_of_le h
    exact Nat.testBit_lt_two_pow (hlt.trans_le (Nat.pow_le_pow_right (by decide) (by omega)))
  apply MapWord.ext
  · apply BitVec.eq_of_getLsbD_eq
    intro i hi
    simp only [unpack, chunkMapBinindShift, BitVec.getLsbD_extractLsb', BitVec.getLsbD_shiftLeft,
      show 13 + i - 4 = 8 + (i + 1) by omega, hhigh, Bool.and_false]
    simp
  · simp only [unpack, chunkMapBinindShift, BitVec.getLsbD_shiftLeft, hhigh 0, Bool.and_false]
  · apply BitVec.eq_of_getLsbD_eq
    intro i hi
    simp [unpack, chunkMapBinindShift, hi, show 4 + i < 64 by omega]
    exact (BitVec.getLsbD_eq_getElem _).symm
  all_goals simp [unpack, chunkMapBinindShift]

/-- The word of a large run of one page. -/
theorem arenaMapbitsLargeSizeGet_eq_page :
    arenaMapbitsLargeSizeGet x = some (BitVec.ofNat 64 page) ↔
      (unpack x).large = true ∧ (unpack x).allocated = true ∧ (unpack x).upper = 1 := by
  have hpage : unpack (BitVec.ofNat 64 page) = ⟨1, false, 0, false, false, false, false⟩ := by
    decide
  have hsize : (unpack x).size = BitVec.ofNat 64 page ↔ (unpack x).upper = 1 := by
    rw [← unpack_injective.eq_iff, unpack_size, hpage]
    simp
  have hget : arenaMapbitsLargeSizeGet x = MapGet.largeSize.ofWord (unpack x) :=
    MapGet.ofBits_eq x .largeSize
  rw [hget, ← hsize, MapGet.ofWord]
  split
  · simp_all
  · simp_all

/-- A word that is written under assertions, taken apart. -/
theorem map_unpack_ite {p q : Prop} [Decidable p] [Decidable q] {y : BitVec 64} {w : MapWord}
    (hiff : p ↔ q) (h : q → unpack y = w) :
    (if p then some y else none).map unpack = if q then some w else none := by
  by_cases hq : q
  · rw [if_pos hq, if_pos (hiff.mpr hq), Option.map_some, h hq]
  · rw [if_neg hq, if_neg (fun hp => hq (hiff.mp hp)), Option.map_none]

/-- Every function that writes a word writes the fields. -/
theorem MapSet.ofBits_eq (c : Config) (pageind x : BitVec 64) (f : MapSet) :
    (f.ofBits c pageind x).map unpack = f.ofWord c pageind (unpack x) := by
  cases f with
  | unallocated size flags =>
    simp only [MapSet.ofBits, MapSet.ofWord, arenaMapbitsUnallocatedSet, guard_bind, ← ite_and]
    refine map_unpack_ite ?_ ?_
    · rw [land_not_flagsMask]
      exact ⟨fun h => ⟨h.1, h.2.1⟩, fun h => ⟨h.1, h.2, h.2⟩⟩
    · intro h
      simp [unpack_of_wholePages h.1, unpack_of_onlyFlags h.2]
  | unallocatedSize size =>
    simp only [MapSet.ofBits, MapSet.ofWord, arenaMapbitsUnallocatedSizeSet, guard_bind, ← ite_and,
      land_state_eq_zero]
    refine map_unpack_ite ?_ ?_
    · simp [WholePages]
    · intro h
      simp [unpack_of_wholePages h.1]
  | large size flags =>
    simp only [MapSet.ofBits, MapSet.ofWord, arenaMapbitsLargeSet, guard_bind, ← ite_and]
    refine map_unpack_ite Iff.rfl ?_
    intro h
    simp [unpack_of_wholePages h.1, unpack_of_onlyDirty h.2]
  | largeBinind binind =>
    simp only [MapSet.ofBits, MapSet.ofWord, arenaMapbitsLargeBinindSet, guard_bind, ← ite_and,
      arenaMapbitsLargeSizeGet_eq_page]
    refine map_unpack_ite Iff.rfl ?_
    intro h
    simp [unpack_shiftLeft_binind h.1]
  | small runind binind flags =>
    simp only [MapSet.ofBits, MapSet.ofWord, arenaMapbitsSmallSet, guard_bind, ← ite_and]
    refine map_unpack_ite Iff.rfl ?_
    intro h
    have hle : binind ≤ binindInvalid := BitVec.le_of_lt h.1
    simp [unpack_shiftLeft_runind, unpack_shiftLeft_binind hle, unpack_of_onlyDirty h.2.2]
  | unzeroed b =>
    simp only [MapSet.ofBits, MapSet.ofWord, arenaMapbitsUnzeroedSet, Option.map_some]
    cases b <;> simp [flagBits]

end Set

/-! ## Runs -/

/-- A call on packed words is the call on the fields. -/
theorem bitsStep_unpack (c : Config) (map : ℕ → BitVec 64) (op : MapOp) :
    (bitsStep c map op).map (Prod.map id (unpack ∘ ·)) = wordStep c (unpack ∘ map) op := by
  cases op with
  | get pageind f =>
    simp only [bitsStep, wordStep, mapStep]
    cases arenaMapbitspGet c pageind with
    | none => rfl
    | some i =>
      simp only [Option.bind_eq_bind, Option.bind_some, MapGet.ofBits_eq, comp_apply]
      cases f.ofWord (unpack (map i)) <;> rfl
  | set pageind f =>
    simp only [bitsStep, wordStep, mapStep]
    cases arenaMapbitspGet c pageind with
    | none => rfl
    | some i =>
      simp only [Option.bind_eq_bind, Option.bind_some, comp_apply, ← MapSet.ofBits_eq]
      cases f.ofBits c pageind (map i) with
      | none => rfl
      | some x =>
        show some (none, unpack ∘ update map i x) =
          some (none, update (unpack ∘ map) i (unpack x))
        rw [comp_update]

/-- **The packed page map.**  Over every run of the accessors, from any words on: the masks and
shifts give the results, the failed assertions and the next words that the calls on the fields
give.  Every 64-bit word is packed from its fields, and packing loses none of them. -/
theorem mapbits_packed (c : Config) (ops : List MapOp) (map : ℕ → BitVec 64) :
    (runSteps (bitsStep c) ops map).map (Prod.map id (unpack ∘ ·)) =
        runSteps (wordStep c) ops (unpack ∘ map) ∧
      (∀ x : BitVec 64, (unpack x).pack = x) ∧ ∀ w : MapWord, unpack w.pack = w :=
  ⟨runSteps_map (bitsStep_unpack c) ops map, pack_unpack, unpack_pack⟩

end Jemalloc
