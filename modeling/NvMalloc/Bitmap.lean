/-
# The bitmap of a run

jemalloc keeps one bit for each region of a run.  The bits are stored inverted, 1 for a free
region, in groups of 64; above the bottom level every level has one bit for each group of the
level below, which says whether that group has a free region, up to a level with one group.

The operations (`bitmap_set`, `bitmap_unset`, `bitmap_sfu`) change a bit and pass the changes
of empty groups on upwards.  Over any run of operations the bitmap is the set of the regions in
use: `bitmap_get` is membership, `bitmap_full` says that all are in use, and `bitmap_sfu`,
which looks at one group a level, takes the least free one (`bitmap_refines_of_run`).
-/
import NvMalloc.Runs

open Function Finset

namespace Jemalloc

/-! ## Groups and levels -/

/-- The groups of a bitmap, by their index. -/
abbrev Groups := ℕ → BitVec 64

/-- `bits2groups`. -/
def bits2groups (nbits : ℕ) : ℕ := nbits / 64 + if nbits % 64 ≠ 0 then 1 else 0

/-- `BITMAP_MAX_LEVELS`, for `LG_RUN_MAXREGS` 11 and `LG_SIZEOF_BITMAP` 3. -/
def bitmapMaxLevels : ℕ := 4

/-- `LG_BITMAP_MAXBITS`. -/
def lgBitmapMaxbits : ℕ := 11

/-- `bitmap_info_t`: `levels` are the group offsets of the `nlevels` levels, and `past` is the
offset in `levels[nlevels]`, the number of groups of all of them. -/
structure BitmapInfo where
  nbits : ℕ
  levels : List ℕ
  past : ℕ
deriving DecidableEq, Repr

/-- The loop of `bitmap_info_init`, from the level at offset `off` with `count` groups on; the
array of levels has place for `fuel` more. -/
def levelsFrom : ℕ → ℕ → ℕ → Option (List ℕ × ℕ)
  | 0, _, _ => none
  | fuel + 1, off, count =>
    if 1 < count then
      (levelsFrom fuel (off + count) (bits2groups count)).map fun x => (off :: x.1, x.2)
    else some ([off], off + count)

/-- `bitmap_info_init`. -/
def bitmapInfoInit (nbits : ℕ) : Option BitmapInfo :=
  (levelsFrom bitmapMaxLevels 0 (bits2groups nbits)).map fun x => ⟨nbits, x.1, x.2⟩

/-- `bitmap_info_ngroups`, in bytes. -/
def bitmapInfoNgroups (binfo : BitmapInfo) : ℕ := binfo.past * 8

/-- `bitmap_size`. -/
def bitmapSize (nbits : ℕ) : Option ℕ := (bitmapInfoInit nbits).map bitmapInfoNgroups

/-- `ffsl`: the position of the least significant bit that is set, from 1 on, or 0. -/
def ffsl (g : BitVec 64) : ℕ :=
  match (List.range 64).find? fun i => g.getLsbD i with
  | some i => i + 1
  | none => 0

/-- Bit `i` of the level at offset `off`. -/
def Groups.bit (bm : Groups) (off i : ℕ) : Bool := (bm (off + i / 64)).getLsbD (i % 64)

/-- `g ^= 1LU << (bit & BITMAP_GROUP_NBITS_MASK)` in the group of the bit. -/
def Groups.toggle (bm : Groups) (off i : ℕ) : Groups :=
  update bm (off + i / 64) (bm (off + i / 64) ^^^ (1#64 <<< (i % 64)))

/-! ## The operations -/

/-- One round of the loop of `bitmap_init`: the bits after the first `nbits` of a level are not
used, and cleared in its last group. -/
def trimLast (bm : Groups) (nbits past : ℕ) : Groups :=
  let extra := (64 - nbits % 64) % 64
  if extra ≠ 0 then update bm (past - 1) (bm (past - 1) >>> extra) else bm

/-- The loop of `bitmap_init`. -/
def trimLevels (bm : Groups) (nbits : ℕ) : List ℕ → ℕ → Groups
  | [], _ => bm
  | [_], past => trimLast bm nbits past
  | off :: off' :: levels, past =>
    trimLevels (trimLast bm nbits off') (off' - off) (off' :: levels) past

/-- `bitmap_init`. -/
def bitmapInit (bm : Groups) (binfo : BitmapInfo) : Groups :=
  trimLevels (fun j => if j < binfo.past then BitVec.allOnes 64 else bm j) binfo.nbits binfo.levels
    binfo.past

/-- `bitmap_full`. -/
def bitmapFull (bm : Groups) (binfo : BitmapInfo) : Bool := bm (binfo.past - 1) == 0

/-- `bitmap_get`. -/
def bitmapGet (bm : Groups) (bit : ℕ) : Bool := !bm.bit 0 bit

/-- The loop of `bitmap_set`, from the bottom level on: it goes on while a group becomes empty. -/
def setFrom (bm : Groups) : List ℕ → ℕ → Groups
  | [], _ => bm
  | off :: levels, bit =>
    if bm.toggle off bit (off + bit / 64) = 0 then setFrom (bm.toggle off bit) levels (bit / 64)
    else bm.toggle off bit

/-- `bitmap_set`. -/
def bitmapSet (bm : Groups) (binfo : BitmapInfo) (bit : ℕ) : Groups := setFrom bm binfo.levels bit

/-- The loop of `bitmap_unset`: it goes on while a group was empty. -/
def unsetFrom (bm : Groups) : List ℕ → ℕ → Groups
  | [], _ => bm
  | off :: levels, bit =>
    if bm (off + bit / 64) = 0 then unsetFrom (bm.toggle off bit) levels (bit / 64)
    else bm.toggle off bit

/-- `bitmap_unset`. -/
def bitmapUnset (bm : Groups) (binfo : BitmapInfo) (bit : ℕ) : Groups :=
  unsetFrom bm binfo.levels bit

/-- The walk of `bitmap_sfu` from the top level down to the one at the head of the list. -/
def firstFrom (bm : Groups) : List ℕ → ℕ
  | [] => 0
  | off :: levels => firstFrom bm levels * 64 + (ffsl (bm (off + firstFrom bm levels)) - 1)

/-- `bitmap_sfu`. -/
def bitmapSfu (bm : Groups) (binfo : BitmapInfo) : ℕ × Groups :=
  (firstFrom bm binfo.levels, bitmapSet bm binfo (firstFrom bm binfo.levels))

/-! ## One level -/

variable {nbits i off n : ℕ} {bm : Groups} {F : Finset ℕ} {binfo : BitmapInfo}

theorem lt_bits2groups (h : i < nbits) : i / 64 < bits2groups nbits := by
  unfold bits2groups
  split <;> omega

theorem bits2groups_pos (h : 0 < nbits) : 0 < bits2groups nbits := by
  have := lt_bits2groups h
  omega

theorem bits2groups_le {m : ℕ} (h : nbits ≤ 64 * m) : bits2groups nbits ≤ m := by
  unfold bits2groups
  split <;> omega

/-- All bits of a group that is not the last one are in use. -/
theorem lt_of_group_lt (h : i / 64 + 1 < bits2groups nbits) : i < nbits := by
  unfold bits2groups at h
  split at h <;> omega

theorem image_range (nbits : ℕ) :
    (range nbits).image (· / 64) = range (bits2groups nbits) := by
  ext j
  simp only [mem_image, mem_range]
  constructor
  · rintro ⟨i, hi, rfl⟩
    exact lt_bits2groups hi
  · intro hj
    refine ⟨64 * j, ?_, by omega⟩
    unfold bits2groups at hj
    split at hj <;> omega

theorem ffsl_of_getLsbD {g : BitVec 64} (h : g.getLsbD i = true) :
    ∃ k, ffsl g = k + 1 ∧ g.getLsbD k = true ∧ ∀ j < k, g.getLsbD j = false := by
  have hi : i < 64 := BitVec.lt_of_getLsbD h
  cases hf : (List.range 64).find? fun i => g.getLsbD i with
  | none =>
    rw [List.find?_eq_none] at hf
    exact absurd h (hf i (List.mem_range.mpr hi))
  | some k =>
    obtain ⟨hk, -, hlt⟩ := List.find?_range_eq_some.mp hf
    refine ⟨k, by rw [ffsl, hf], hk, ?_⟩
    intro j hj
    simpa using hlt j hj

theorem bit_toggle (bm : Groups) (off i j : ℕ) :
    (bm.toggle off i).bit off j = if j = i then !bm.bit off i else bm.bit off j := by
  unfold Groups.bit Groups.toggle
  by_cases hg : j / 64 = i / 64
  · rw [hg, update_self, BitVec.getLsbD_xor, BitVec.getLsbD_shiftLeft]
    have hj : j % 64 < 64 := Nat.mod_lt _ (by decide)
    by_cases hij : j = i
    · subst hij
      simp [hj]
    · have hne : j % 64 ≠ i % 64 := by omega
      rw [if_neg hij]
      by_cases hlt : j % 64 < i % 64
      · simp [hlt]
      · have hsub : j % 64 - i % 64 ≠ 0 := by omega
        simp [hsub]
  · rw [update_of_ne (by omega), if_neg (by rintro rfl; exact hg rfl)]

theorem toggle_of_ne (bm : Groups) {j : ℕ} (h : j ≠ off + i / 64) :
    bm.toggle off i j = bm j := update_of_ne h _ _

/-- The level at offset `off`, which has the groups of `n` bits, is the set `F`. -/
def Level (bm : Groups) (off n : ℕ) (F : Finset ℕ) : Prop :=
  ∀ i, i / 64 < bits2groups n → (bm.bit off i = true ↔ i ∈ F)

theorem Level.congr {bm' : Groups} (h : Level bm off n F)
    (heq : ∀ j, off ≤ j → j < off + bits2groups n → bm' j = bm j) : Level bm' off n F := by
  intro i hi
  rw [Groups.bit, heq _ (by omega) (by omega)]
  exact h i hi

/-- A group is empty when no bit of the level is in it. -/
theorem Level.group_eq_zero_iff {j : ℕ} (h : Level bm off n F) (hj : j < bits2groups n) :
    bm (off + j) = 0 ↔ j ∉ F.image (· / 64) := by
  simp only [mem_image, not_exists, not_and]
  constructor
  · rintro hz i hi rfl
    have hbit := (h i hj).mpr hi
    rw [Groups.bit, hz] at hbit
    simp at hbit
  · intro hno
    apply BitVec.eq_of_getLsbD_eq
    intro k hk
    have hnot : ¬ (64 * j + k ∈ F) := fun hm => hno _ hm (by omega)
    have hdiv : (64 * j + k) / 64 = j := by omega
    have hmod : (64 * j + k) % 64 = k := by omega
    rw [← h _ (by omega), Groups.bit, hdiv, hmod] at hnot
    simpa using hnot

theorem Level.erase (h : Level bm off n F) (hi : i ∈ F) (hn : i / 64 < bits2groups n) :
    Level (bm.toggle off i) off n (F.erase i) := by
  intro j hj
  rw [bit_toggle, mem_erase]
  split
  · rename_i heq
    subst heq
    simp [(h j hn).mpr hi]
  · rename_i hne
    rw [h j hj]
    simp [hne]

theorem Level.insert (h : Level bm off n F) (hi : i ∉ F) (hn : i / 64 < bits2groups n) :
    Level (bm.toggle off i) off n (insert i F) := by
  intro j hj
  rw [bit_toggle, mem_insert]
  split
  · rename_i heq
    subst heq
    have hfalse : bm.bit off j = false := by
      by_contra hb
      exact hi ((h j hn).mp (by simpa using hb))
    simp [hfalse]
  · rename_i hne
    rw [h j hj]
    simp [hne]

/-- Taking a bit out of a set takes its group out of the groups, if the group is empty then. -/
theorem image_erase (F : Finset ℕ) (i : ℕ) : (F.erase i).image (· / 64) =
    if i / 64 ∈ (F.erase i).image (· / 64) then F.image (· / 64)
    else (F.image (· / 64)).erase (i / 64) := by
  split
  · rename_i hmem
    apply Subset.antisymm (image_subset_image (erase_subset i F))
    intro j hj
    obtain ⟨k, hk, rfl⟩ := mem_image.mp hj
    by_cases hki : k = i
    · exact hki ▸ hmem
    · exact mem_image_of_mem (· / 64) (mem_erase.mpr ⟨hki, hk⟩)
  · rename_i hmem
    ext j
    simp only [mem_image, mem_erase] at hmem ⊢
    constructor
    · rintro ⟨k, ⟨hki, hk⟩, rfl⟩
      exact ⟨fun heq => hmem ⟨k, ⟨hki, hk⟩, heq⟩, k, hk, rfl⟩
    · rintro ⟨hne, k, hk, rfl⟩
      exact ⟨k, ⟨fun hki => hne (by rw [hki]), hk⟩, rfl⟩

/-! ## All levels -/

/-- The levels of a bitmap of `n` bits whose bottom level is at offset `off`; the groups of all
of them end at `past`. -/
inductive Tower : ℕ → ℕ → List ℕ → ℕ → Prop
  | top {n off : ℕ} : bits2groups n ≤ 1 → Tower n off [off] (off + bits2groups n)
  | up {n off past : ℕ} {levels : List ℕ} : 1 < bits2groups n →
    Tower (bits2groups n) (off + bits2groups n) levels past → Tower n off (off :: levels) past

/-- The bottom level is the set `F`, and every level above says which groups of the level below
are not empty. -/
def Summarizes (bm : Groups) : List ℕ → ℕ → Finset ℕ → Prop
  | [], _, _ => True
  | off :: levels, n, F =>
    Level bm off n F ∧ Summarizes bm levels (bits2groups n) (F.image (· / 64))

theorem tower_of_levelsFrom {fuel past : ℕ} {levels : List ℕ}
    (h : levelsFrom fuel off (bits2groups n) = some (levels, past)) : Tower n off levels past := by
  induction fuel generalizing off n levels past with
  | zero => cases h
  | succ fuel ih =>
    unfold levelsFrom at h
    split at h
    · rename_i hlt
      obtain ⟨⟨ls, e⟩, hrest, heq⟩ := Option.map_eq_some_iff.mp h
      cases heq
      exact .up hlt (ih hrest)
    · rename_i hle
      cases h
      exact .top (by omega)

/-- The array of levels has enough places for every bitmap with at most `64 ^ fuel` bits. -/
theorem isSome_levelsFrom {fuel : ℕ} (hfuel : 0 < fuel) (hn : n ≤ 64 ^ fuel) :
    (levelsFrom fuel off (bits2groups n)).isSome = true := by
  induction fuel generalizing off n with
  | zero => cases hfuel
  | succ fuel ih =>
    unfold levelsFrom
    split
    · rename_i hlt
      have hle : bits2groups n ≤ 64 ^ fuel := bits2groups_le (by rw [pow_succ] at hn; omega)
      have hpos : 0 < fuel := by
        by_contra h0
        simp only [not_lt, Nat.le_zero_eq] at h0
        subst h0
        simp at hle
        omega
      rw [Option.isSome_map]
      exact ih hpos hle
    · rfl

namespace Tower

variable {n off past i : ℕ} {levels : List ℕ} {bm bm' : Groups} {F : Finset ℕ}
  (h : Tower n off levels past)
include h

theorem le_past : off + bits2groups n ≤ past := by
  induction h with
  | top hle => exact le_rfl
  | up hlt hrest ih => omega

theorem head : ∃ ls, levels = off :: ls := by
  cases h with
  | top hle => exact ⟨[], rfl⟩
  | up hlt hrest => exact ⟨_, rfl⟩

/-- Only the groups of the levels matter. -/
theorem congr (hs : Summarizes bm levels n F) (heq : ∀ j, off ≤ j → j < past → bm' j = bm j) :
    Summarizes bm' levels n F := by
  induction h generalizing F with
  | top hle => exact ⟨hs.1.congr heq, trivial⟩
  | @up n off past levels hlt hrest ih =>
    have hle := hrest.le_past
    refine ⟨hs.1.congr fun j hj hj' => heq j hj (by omega), ih hs.2 ?_⟩
    intro j hj hj'
    exact heq j (by omega) hj'

/-- `bitmap_set` and `bitmap_unset` write nothing but groups of the levels. -/
theorem setFrom_of_outside (hi : i / 64 < bits2groups n) {j : ℕ} (hj : j < off ∨ past ≤ j) :
    setFrom bm levels i j = bm j := by
  have hle := h.le_past
  have htoggle : bm.toggle off i j = bm j := toggle_of_ne bm (by omega)
  induction h generalizing bm i with
  | top hle => simp [setFrom, htoggle]
  | @up n off past levels hlt hrest ih =>
    unfold setFrom
    split
    · rw [ih (lt_bits2groups hi) (by omega) hrest.le_past, htoggle]
      exact toggle_of_ne _ (by have := lt_bits2groups hi; have := hrest.le_past; omega)
    · exact htoggle

theorem unsetFrom_of_outside (hi : i / 64 < bits2groups n) {j : ℕ} (hj : j < off ∨ past ≤ j) :
    unsetFrom bm levels i j = bm j := by
  have hle := h.le_past
  have htoggle : bm.toggle off i j = bm j := toggle_of_ne bm (by omega)
  induction h generalizing bm i with
  | top hle => simp [unsetFrom, htoggle]
  | @up n off past levels hlt hrest ih =>
    unfold unsetFrom
    split
    · rw [ih (lt_bits2groups hi) (by omega) hrest.le_past, htoggle]
      exact toggle_of_ne _ (by have := lt_bits2groups hi; have := hrest.le_past; omega)
    · exact htoggle

/-- `bitmap_set` takes the bit out of the free ones. -/
theorem set (hs : Summarizes bm levels n F) (hF : ∀ k ∈ F, k < n) (hi : i ∈ F) :
    Summarizes (setFrom bm levels i) levels n (F.erase i) := by
  have hgroup := lt_bits2groups (hF i hi)
  induction h generalizing bm F i with
  | @top n off hle =>
    have hset : setFrom bm [off] i = bm.toggle off i := by simp [setFrom]
    rw [hset]
    exact ⟨hs.1.erase hi hgroup, trivial⟩
  | @up n off past levels hlt hrest ih =>
    have hlevel := hs.1.erase hi hgroup
    -- the levels above do not see the change of this one
    have habove : Summarizes (bm.toggle off i) levels (bits2groups n) (F.image (· / 64)) :=
      hrest.congr hs.2 fun j hj _ => toggle_of_ne bm (by omega)
    have hzero := hlevel.group_eq_zero_iff hgroup
    unfold setFrom
    split
    · rename_i hg
      refine ⟨hlevel.congr ?_, ?_⟩
      · intro j hj hj'
        exact hrest.setFrom_of_outside (lt_bits2groups hgroup) (.inl (by omega))
      · rw [image_erase, if_neg (hzero.mp hg)]
        have hlow : ∀ k ∈ F.image (· / 64), k < bits2groups n := by
          intro k hk
          obtain ⟨b, hb, rfl⟩ := mem_image.mp hk
          exact lt_bits2groups (hF b hb)
        exact ih habove hlow (mem_image_of_mem _ hi) (lt_bits2groups hgroup)
    · rename_i hg
      refine ⟨hlevel, ?_⟩
      rw [image_erase, if_pos (by_contra fun hno => hg (hzero.mpr hno))]
      exact habove

/-- `bitmap_unset` puts the bit back. -/
theorem unset (hs : Summarizes bm levels n F) (hin : i < n) (hi : i ∉ F) :
    Summarizes (unsetFrom bm levels i) levels n (insert i F) := by
  have hgroup := lt_bits2groups hin
  induction h generalizing bm F i with
  | @top n off hle =>
    have hset : unsetFrom bm [off] i = bm.toggle off i := by simp [unsetFrom]
    rw [hset]
    exact ⟨hs.1.insert hi hgroup, trivial⟩
  | @up n off past levels hlt hrest ih =>
    have hlevel := hs.1.insert hi hgroup
    have habove : Summarizes (bm.toggle off i) levels (bits2groups n) (F.image (· / 64)) :=
      hrest.congr hs.2 fun j hj _ => toggle_of_ne bm (by omega)
    have hzero := hs.1.group_eq_zero_iff hgroup
    unfold unsetFrom
    split
    · rename_i hg
      refine ⟨hlevel.congr ?_, ?_⟩
      · intro j hj hj'
        exact hrest.unsetFrom_of_outside (lt_bits2groups hgroup) (.inl (by omega))
      · rw [image_insert]
        exact ih habove hgroup (hzero.mp hg) (lt_bits2groups hgroup)
    · rename_i hg
      refine ⟨hlevel, ?_⟩
      rw [image_insert, insert_eq_of_mem (by_contra fun hno => hg (hzero.mpr hno))]
      exact habove

end Tower

/-- The least bit of a level is the first one of its least group. -/
theorem Level.isLeast_of_group {b : ℕ} (h : Level bm off n F) (hF : ∀ k ∈ F, k < n)
    (hb : IsLeast (F.image (· / 64) : Set ℕ) b) :
    IsLeast (F : Set ℕ) (b * 64 + (ffsl (bm (off + b)) - 1)) := by
  obtain ⟨hmem, hle⟩ := hb
  obtain ⟨i, hi, rfl⟩ := mem_image.mp (mem_coe.mp hmem)
  have hbit : (bm (off + i / 64)).getLsbD (i % 64) = true :=
    (h i (lt_bits2groups (hF i hi))).mpr hi
  obtain ⟨k, hk, hkbit, hklt⟩ := ffsl_of_getLsbD hbit
  have hk64 : k < 64 := BitVec.lt_of_getLsbD hkbit
  have hdiv : (i / 64 * 64 + k) / 64 = i / 64 := by omega
  have hmod : (i / 64 * 64 + k) % 64 = k := by omega
  simp only [hk, Nat.add_sub_cancel]
  constructor
  · apply mem_coe.mpr
    apply (h _ (by rw [hdiv]; exact lt_bits2groups (hF i hi))).mp
    rw [Groups.bit, hdiv, hmod]
    exact hkbit
  · intro j hj
    have hjF := mem_coe.mp hj
    have hgle : i / 64 ≤ j / 64 := hle (mem_coe.mpr (mem_image_of_mem _ hjF))
    by_contra hlt
    -- a smaller bit is in the same group, before the first bit of it
    have hgeq : j / 64 = i / 64 := by omega
    have hjbit := (h j (lt_bits2groups (hF j hjF))).mpr hjF
    rw [Groups.bit, hgeq, hklt (j % 64) (by omega)] at hjbit
    cases hjbit

namespace Tower

variable {n off past i : ℕ} {levels : List ℕ} {bm : Groups} {F : Finset ℕ}

theorem image_lt (hF : ∀ k ∈ F, k < n) : ∀ k ∈ F.image (· / 64), k < bits2groups n := by
  intro k hk
  obtain ⟨b, hb, rfl⟩ := mem_image.mp hk
  exact lt_bits2groups (hF b hb)

/-- The walk of `bitmap_sfu` ends at the least free bit. -/
theorem isLeast_firstFrom (h : Tower n off levels past) (hs : Summarizes bm levels n F)
    (hF : ∀ k ∈ F, k < n) (hne : F.Nonempty) : IsLeast (F : Set ℕ) (firstFrom bm levels) := by
  induction h generalizing F with
  | @top n off hle =>
    apply hs.1.isLeast_of_group hF
    obtain ⟨i, hi⟩ := hne
    have hgroup := lt_bits2groups (hF i hi)
    exact ⟨mem_coe.mpr (mem_image.mpr ⟨i, hi, by simp only [firstFrom]; omega⟩),
      fun j _ => Nat.zero_le j⟩
  | up hlt hrest ih =>
    exact hs.1.isLeast_of_group hF (ih hs.2 (image_lt hF) (hne.image _))

/-- The root group is empty when no bit is free. -/
theorem root_eq_zero_iff (h : Tower n off levels past) (hn : 0 < n) (hs : Summarizes bm levels n F)
    (hF : ∀ k ∈ F, k < n) : bm (past - 1) = 0 ↔ F = ∅ := by
  induction h generalizing F with
  | @top n off hle =>
    have hone : bits2groups n = 1 := by
      have := bits2groups_pos hn
      omega
    have hroot : off + bits2groups n - 1 = off + 0 := by omega
    rw [hroot, hs.1.group_eq_zero_iff (by omega)]
    constructor
    · intro hno
      apply eq_empty_of_forall_notMem
      intro k hk
      have hgroup := lt_bits2groups (hF k hk)
      exact hno (mem_image.mpr ⟨k, hk, by omega⟩)
    · rintro rfl
      simp
  | up hlt hrest ih =>
    rw [ih (by omega) hs.2 (image_lt hF), image_eq_empty]

end Tower

/-! ## Initialisation -/

theorem trimLast_of_ne (bm : Groups) {past j : ℕ} (h : j ≠ past - 1) :
    trimLast bm n past j = bm j := by
  unfold trimLast
  split
  · exact update_of_ne h _ _
  · rfl

/-- After its last group is trimmed, a level of ones has the bits below `n`. -/
theorem level_trimLast (hones : ∀ j, off ≤ j → j < off + bits2groups n → bm j = BitVec.allOnes 64) :
    Level (trimLast bm n (off + bits2groups n)) off n (range n) := by
  intro i hi
  rw [mem_range, Groups.bit]
  have h64 : i % 64 < 64 := Nat.mod_lt _ (by decide)
  have hbits : n = 64 * (n / 64) + n % 64 := by omega
  by_cases hlast : i / 64 = bits2groups n - 1
  · have hidx : off + i / 64 = off + bits2groups n - 1 := by omega
    have hone : bm (off + bits2groups n - 1) = BitVec.allOnes 64 := hones _ (by omega) (by omega)
    unfold trimLast
    unfold bits2groups at hlast hi
    split
    · rename_i hextra
      have hmod : n % 64 ≠ 0 := by
        intro h0
        rw [h0] at hextra
        exact hextra rfl
      rw [if_pos hmod] at hlast hi
      rw [hidx, update_self, hone, BitVec.getLsbD_ushiftRight, BitVec.getLsbD_allOnes,
        decide_eq_true_eq]
      omega
    · rename_i hextra
      have hmod : n % 64 = 0 := by omega
      rw [if_neg (not_not.mpr hmod)] at hlast hi
      rw [hidx, hone, BitVec.getLsbD_allOnes, decide_eq_true_eq]
      omega
  · have hlt : i < n := lt_of_group_lt (by omega)
    rw [trimLast_of_ne _ (by omega), hones _ (by omega) (by omega), BitVec.getLsbD_allOnes,
      decide_eq_true_eq]
    exact ⟨fun _ => hlt, fun _ => h64⟩

namespace Tower

variable {n off past : ℕ} {levels : List ℕ} {bm : Groups}

theorem trimLevels_of_outside (h : Tower n off levels past) {j : ℕ} (hj : j < off ∨ past ≤ j)
    (hn : 0 < n) : trimLevels bm n levels past j = bm j := by
  induction h generalizing bm with
  | @top n off hle =>
    have := bits2groups_pos hn
    exact trimLast_of_ne bm (by omega)
  | @up n off past levels hlt hrest ih =>
    obtain ⟨ls, rfl⟩ := hrest.head
    have hle := hrest.le_past
    have hcount : off + bits2groups n - off = bits2groups n := by omega
    rw [trimLevels, hcount, ih (by omega) (by omega)]
    exact trimLast_of_ne bm (by omega)

/-- After `bitmap_init` all bits are free. -/
theorem trimLevels_ones (h : Tower n off levels past) (hn : 0 < n)
    (hones : ∀ j, off ≤ j → j < past → bm j = BitVec.allOnes 64) :
    Summarizes (trimLevels bm n levels past) levels n (range n) := by
  induction h generalizing bm with
  | top hle => exact ⟨level_trimLast hones, trivial⟩
  | @up n off past levels hlt hrest ih =>
    obtain ⟨ls, rfl⟩ := hrest.head
    have hle := hrest.le_past
    have hcount : off + bits2groups n - off = bits2groups n := by omega
    rw [trimLevels, hcount]
    refine ⟨(level_trimLast fun j hj hj' => hones j hj (by omega)).congr ?_, ?_⟩
    · intro j hj hj'
      exact hrest.trimLevels_of_outside (.inl (by omega)) (by omega)
    · rw [image_range]
      apply ih (by omega)
      intro j hj hj'
      rw [trimLast_of_ne bm (by omega)]
      exact hones j (by omega) hj'

end Tower

/-! ## The bitmap as a set -/

/-- The bitmap `bm` marks the regions in `A` as used. -/
structure BitmapRep (binfo : BitmapInfo) (bm : Groups) (A : Finset ℕ) : Prop where
  tower : Tower binfo.nbits 0 binfo.levels binfo.past
  pos : 0 < binfo.nbits
  used : A ⊆ range binfo.nbits
  free : Summarizes bm binfo.levels binfo.nbits (range binfo.nbits \ A)

/-- `bitmap_info_init` finds room for its levels when the bitmap is not too large. -/
theorem exists_bitmapInfoInit (h : nbits ≤ 2 ^ lgBitmapMaxbits) :
    ∃ binfo, bitmapInfoInit nbits = some binfo := by
  have hsome : (levelsFrom bitmapMaxLevels 0 (bits2groups nbits)).isSome = true :=
    isSome_levelsFrom (by decide) (h.trans (by decide))
  obtain ⟨x, hx⟩ := Option.isSome_iff_exists.mp hsome
  exact ⟨_, by rw [bitmapInfoInit, hx]; rfl⟩

theorem tower_of_bitmapInfoInit (h : bitmapInfoInit nbits = some binfo) :
    binfo.nbits = nbits ∧ Tower nbits 0 binfo.levels binfo.past := by
  obtain ⟨⟨levels, past⟩, hlevels, heq⟩ := Option.map_eq_some_iff.mp h
  cases heq
  exact ⟨rfl, tower_of_levelsFrom hlevels⟩

/-- The groups of the bitmap are the only ones that may differ. -/
def SameOutside (binfo : BitmapInfo) (bm bm' : Groups) : Prop :=
  ∀ j, binfo.past ≤ j → bm' j = bm j

theorem bitmapRep_bitmapInit (bm : Groups) (h : bitmapInfoInit nbits = some binfo) (hn : 0 < nbits)
    :
    BitmapRep binfo (bitmapInit bm binfo) ∅ ∧ SameOutside binfo bm (bitmapInit bm binfo) := by
  obtain ⟨rfl, htower⟩ := tower_of_bitmapInfoInit h
  refine ⟨⟨htower, hn, empty_subset _, ?_⟩, ?_⟩
  · rw [sdiff_empty]
    apply htower.trimLevels_ones hn
    intro j _ hj
    exact if_pos hj
  · intro j hj
    rw [bitmapInit, htower.trimLevels_of_outside (.inr hj) hn, if_neg (by omega)]

namespace BitmapRep

variable {binfo : BitmapInfo} {bm : Groups} {A : Finset ℕ} {i : ℕ}

theorem free_lt (k : ℕ) (hk : k ∈ range binfo.nbits \ A) : k < binfo.nbits :=
  mem_range.mp (mem_sdiff.mp hk).1

variable (h : BitmapRep binfo bm A)
include h

theorem bitmapGet (hi : i < binfo.nbits) : bitmapGet bm i = decide (i ∈ A) := by
  have hlevel : Level bm 0 binfo.nbits (range binfo.nbits \ A) := by
    obtain ⟨ls, hls⟩ := h.tower.head
    have hfree := h.free
    rw [hls] at hfree
    exact hfree.1
  have hbit := hlevel i (lt_bits2groups hi)
  rw [mem_sdiff, mem_range] at hbit
  rw [Jemalloc.bitmapGet, Bool.eq_iff_iff, Bool.not_eq_true', decide_eq_true_eq,
    ← Bool.not_eq_true, hbit]
  tauto

theorem bitmapFull : bitmapFull bm binfo = decide (A = range binfo.nbits) := by
  have hroot := h.tower.root_eq_zero_iff h.pos h.free free_lt
  rw [sdiff_eq_empty_iff_subset] at hroot
  rw [Jemalloc.bitmapFull, Bool.eq_iff_iff, beq_iff_eq, decide_eq_true_eq, hroot]
  exact ⟨fun hsub => h.used.antisymm hsub, fun heq => heq.ge⟩

/-- `bitmap_set` marks the bit as used. -/
theorem bitmapSet (hi : i < binfo.nbits) (hA : i ∉ A) :
    BitmapRep binfo (bitmapSet bm binfo i) (insert i A) where
  tower := h.tower
  pos := h.pos
  used := insert_subset (mem_range.mpr hi) h.used
  free := by
    have hmem : i ∈ range binfo.nbits \ A :=
      mem_sdiff.mpr ⟨mem_range.mpr hi, hA⟩
    rw [sdiff_insert]
    exact h.tower.set h.free free_lt hmem

/-- `bitmap_unset` marks it as free again. -/
theorem bitmapUnset (hA : i ∈ A) : BitmapRep binfo (bitmapUnset bm binfo i) (A.erase i) where
  tower := h.tower
  pos := h.pos
  used := (erase_subset i A).trans h.used
  free := by
    have hi := mem_range.mp (h.used hA)
    rw [sdiff_erase (mem_range.mpr hi)]
    exact h.tower.unset h.free hi fun hmem => (mem_sdiff.mp hmem).2 hA

/-- `bitmap_sfu` finds the least free bit. -/
theorem isLeast_bitmapSfu (hA : A ≠ range binfo.nbits) :
    IsLeast {k | k < binfo.nbits ∧ k ∉ A} (bitmapSfu bm binfo).1 := by
  have hne : (range binfo.nbits \ A).Nonempty := by
    rw [sdiff_nonempty]
    exact fun hsub => hA (h.used.antisymm hsub)
  have hleast := h.tower.isLeast_firstFrom h.free free_lt hne
  have hset : ((range binfo.nbits \ A : Finset ℕ) : Set ℕ) =
      {k | k < binfo.nbits ∧ k ∉ A} := by
    ext k
    simp
  rwa [hset] at hleast

theorem sameOutside_bitmapSet (hi : i < binfo.nbits) :
    SameOutside binfo bm (Jemalloc.bitmapSet bm binfo i) :=
  fun _ hj => h.tower.setFrom_of_outside (lt_bits2groups hi) (.inr hj)

theorem sameOutside_bitmapUnset (hi : i < binfo.nbits) :
    SameOutside binfo bm (Jemalloc.bitmapUnset bm binfo i) :=
  fun _ hj => h.tower.unsetFrom_of_outside (lt_bits2groups hi) (.inr hj)

end BitmapRep

/-! ## Runs of operations -/

/-- The operations on a bitmap. -/
inductive BitmapOp : Type where
  | get (bit : ℕ)
  | full
  | set (bit : ℕ)
  | sfu
  | unset (bit : ℕ)
deriving DecidableEq

/-- What an operation returns. -/
inductive BitmapOut : Type where
  | answer (b : Bool)
  | bit (i : ℕ)
  | done
deriving DecidableEq

/-- One operation on the groups. -/
def bitmapStep (binfo : BitmapInfo) (bm : Groups) : BitmapOp → BitmapOut × Groups
  | .get i => (.answer (bitmapGet bm i), bm)
  | .full => (.answer (bitmapFull bm binfo), bm)
  | .set i => (.done, bitmapSet bm binfo i)
  | .sfu => (.bit (bitmapSfu bm binfo).1, (bitmapSfu bm binfo).2)
  | .unset i => (.done, bitmapUnset bm binfo i)

/-- The least number below `n` that is not in `A`. -/
def leastFree (n : ℕ) (A : Finset ℕ) : ℕ := ((List.range n).find? fun i => i ∉ A).getD n

/-- The same operation on a set of numbers below `n`. -/
def setStep (n : ℕ) (A : Finset ℕ) : BitmapOp → BitmapOut × Finset ℕ
  | .get i => (.answer (decide (i ∈ A)), A)
  | .full => (.answer (decide (A = range n)), A)
  | .set i => (.done, insert i A)
  | .sfu => (.bit (leastFree n A), insert (leastFree n A) A)
  | .unset i => (.done, A.erase i)

/-- The assertions at the start of the operations. -/
def BitmapOpOk (n : ℕ) (A : Finset ℕ) : BitmapOp → Prop
  | .get i => i < n
  | .full => True
  | .set i => i < n ∧ i ∉ A
  | .sfu => A ≠ range n
  | .unset i => i ∈ A

instance (n : ℕ) (A : Finset ℕ) : (op : BitmapOp) → Decidable (BitmapOpOk n A op)
  | .get i => inferInstanceAs (Decidable (i < n))
  | .full => inferInstanceAs (Decidable True)
  | .set i => inferInstanceAs (Decidable (i < n ∧ i ∉ A))
  | .sfu => inferInstanceAs (Decidable (A ≠ range n))
  | .unset i => inferInstanceAs (Decidable (i ∈ A))

theorem leastFree_eq_of_isLeast {k : ℕ} {A : Finset ℕ} (h : IsLeast {k | k < n ∧ k ∉ A} k) :
    leastFree n A = k := by
  obtain ⟨⟨hk, hkA⟩, hle⟩ := h
  have hfind : (List.range n).find? (fun i => decide (i ∉ A)) = some k := by
    rw [List.find?_range_eq_some]
    refine ⟨by simpa using hkA, List.mem_range.mpr hk, ?_⟩
    intro j hj
    by_contra hno
    have hjA : j ∉ A := by simpa using hno
    exact absurd (hle ⟨hj.trans hk, hjA⟩) (by omega)
  rw [leastFree, hfind]
  rfl

/-- One operation on a bitmap is the operation on the set it represents. -/
theorem bitmapStep_rep {A : Finset ℕ} {op : BitmapOp} (h : BitmapRep binfo bm A)
    (hop : BitmapOpOk binfo.nbits A op) :
    (bitmapStep binfo bm op).1 = (setStep binfo.nbits A op).1 ∧
      BitmapRep binfo (bitmapStep binfo bm op).2 (setStep binfo.nbits A op).2 ∧
      SameOutside binfo bm (bitmapStep binfo bm op).2 := by
  cases op with
  | get i => exact ⟨congrArg _ (h.bitmapGet hop), h, fun _ _ => rfl⟩
  | full => exact ⟨congrArg _ h.bitmapFull, h, fun _ _ => rfl⟩
  | set i => exact ⟨rfl, h.bitmapSet hop.1 hop.2, h.sameOutside_bitmapSet hop.1⟩
  | sfu =>
    have hleast := h.isLeast_bitmapSfu hop
    have heq := leastFree_eq_of_isLeast hleast
    refine ⟨congrArg _ heq.symm, ?_, h.sameOutside_bitmapSet hleast.1.1⟩
    rw [setStep, heq]
    exact h.bitmapSet hleast.1.1 hleast.1.2
  | unset i =>
    have hi := mem_range.mp (h.used hop)
    exact ⟨rfl, h.bitmapUnset hop, h.sameOutside_bitmapUnset hi⟩

/-- **The bitmap is a set.**  From `bitmap_init` on, over every run of operations that meet their
assertions, the bitmap answers as the set of the used regions does, takes the least free region,
and writes nothing after its own groups. -/
theorem bitmap_refines_of_run {nbits : ℕ} (hpos : 0 < nbits) (hmax : nbits ≤ 2 ^ lgBitmapMaxbits)
    (bm : Groups) {ops : List BitmapOp}
    (hok : AlongSpec (setStep nbits) (BitmapOpOk nbits) ops ∅) :
    ∃ binfo, bitmapInfoInit nbits = some binfo ∧
      (runSpec (bitmapStep binfo) ops (bitmapInit bm binfo)).1 =
        (runSpec (setStep nbits) ops ∅).1 ∧
      BitmapRep binfo (runSpec (bitmapStep binfo) ops (bitmapInit bm binfo)).2
        (runSpec (setStep nbits) ops ∅).2 ∧
      SameOutside binfo bm (runSpec (bitmapStep binfo) ops (bitmapInit bm binfo)).2 := by
  obtain ⟨binfo, hinfo⟩ := exists_bitmapInfoInit hmax
  obtain ⟨rfl, -⟩ := tower_of_bitmapInfoInit hinfo
  refine ⟨binfo, hinfo, ?_⟩
  refine runSpec_sim (R := fun bm' A => BitmapRep binfo bm' A ∧ SameOutside binfo bm bm') ?_
    (bitmapRep_bitmapInit bm hinfo hpos) hok
  rintro bm₁ A op ⟨hrep, hout⟩ hop
  obtain ⟨hres, hrep', hout'⟩ := bitmapStep_rep hrep hop
  exact ⟨hres, hrep', fun j hj => (hout' j hj).trans (hout j hj)⟩

/-- Regions 0, 1 and 2 are taken, 1 is given back and taken again. -/
theorem bitmap_refines_takeAndGiveBack :
    AlongSpec (setStep 70) (BitmapOpOk 70) [.sfu, .sfu, .sfu, .unset 1, .sfu, .get 69] ∅ ∧
      ∃ binfo, bitmapInfoInit 70 = some binfo ∧
        (runSpec (bitmapStep binfo) [.sfu, .sfu, .sfu, .unset 1, .sfu, .get 69]
          (bitmapInit (fun _ => 0) binfo)).1 =
          [.bit 0, .bit 1, .bit 2, .done, .bit 1, .answer false] := by
  have hok : AlongSpec (setStep 70) (BitmapOpOk 70)
      [.sfu, .sfu, .sfu, .unset 1, .sfu, .get 69] ∅ := by
    decide +kernel
  obtain ⟨binfo, hinfo, hres, -⟩ :=
    bitmap_refines_of_run (by decide) (by decide) (fun _ => 0) hok
  refine ⟨hok, binfo, hinfo, hres.trans ?_⟩
  decide +kernel

end Jemalloc
