/-
# The regions of a run

The header of a run of a bin counts its free regions and keeps the bitmap of those in use; `nextind`
bounds the regions that were ever handed out.  `arena_run_reg_alloc` takes the lowest free region
and `arena_run_reg_dalloc` finds the region of a pointer again and frees it.  `RunRep` is what the
header stands for, the set of the regions in use, and both functions meet all their assertions on
it.
-/
import NvMalloc.RunLayout

open Finset

namespace Jemalloc

/-! ## Code -/

/-- `arena_run_t`, without the pointer to the bin. -/
structure RunHeader where
  nextind : ℕ
  nfree : ℕ
  bitmap : Groups

/-- The header of a new run, as `arena_bin_nonfull_run_get` initializes it in the memory it got. -/
def RunHeader.init (info : BinInfo) (old : Groups) : RunHeader :=
  ⟨0, info.nregs, bitmapInit old info.bitmapInfo⟩

/-- `arena_run_reg_alloc`. -/
def arenaRunRegAlloc (info : BinInfo) (run : ℕ) (h : RunHeader) : Option (ℕ × RunHeader) := do
  guard (0 < h.nfree ∧ bitmapFull h.bitmap info.bitmapInfo = false)
  let (regind, bitmap) := bitmapSfu h.bitmap info.bitmapInfo
  let nextind := if regind = h.nextind then h.nextind + 1 else h.nextind
  guard (regind < nextind)
  some (run + info.reg0Offset + regind * info.regInterval, ⟨nextind, h.nfree - 1, bitmap⟩)

/-- `arena_run_reg_dalloc`. -/
def arenaRunRegDalloc (info : BinInfo) (run : ℕ) (h : RunHeader) (ptr : ℕ) : Option RunHeader := do
  let regind := arenaRunRegind info run ptr
  guard (h.nfree < info.nregs ∧ (ptr - (run + info.reg0Offset)) % info.regInterval = 0 ∧
    run + info.reg0Offset ≤ ptr ∧ bitmapGet h.bitmap regind = true)
  some ⟨h.nextind, h.nfree + 1, bitmapUnset h.bitmap info.bitmapInfo regind⟩

/-! ## The regions in use -/

/-- The header `h` stands for the regions `A` in use. -/
structure RunRep (info : BinInfo) (h : RunHeader) (A : Finset ℕ) : Prop where
  bitmap : BitmapRep info.bitmapInfo h.bitmap A
  nfree : h.nfree + A.card = info.nregs
  used : A ⊆ range h.nextind
  nextind_le : h.nextind ≤ info.nregs

section Regions

variable {c : Config} {b run k : ℕ} {h : RunHeader} {A : Finset ℕ}

theorem nbits_arenaBinInfo (hb : b < nbins) :
    (arenaBinInfo c b).bitmapInfo.nbits = (arenaBinInfo c b).nregs :=
  (tower_of_bitmapInfoInit (layoutOk_arenaBinInfo c hb).bitmapInfo).1

/-- A new run has no region in use. -/
theorem runRep_init (hb : b < nbins) (old : Groups) :
    RunRep (arenaBinInfo c b) (RunHeader.init (arenaBinInfo c b) old) ∅ := by
  have hok := layoutOk_arenaBinInfo c hb
  refine ⟨(bitmapRep_bitmapInit old hok.bitmapInfo hok.nregs_pos).1, ?_, empty_subset _,
    Nat.zero_le _⟩
  simp [RunHeader.init]

/-- The regions in use are regions of the run. -/
theorem RunRep.lt (hb : b < nbins) (hrep : RunRep (arenaBinInfo c b) h A) (hk : k ∈ A) :
    k < (arenaBinInfo c b).nregs := by
  rw [← nbits_arenaBinInfo hb]
  exact mem_range.mp (hrep.bitmap.used hk)

/-- The count says whether the run is full. -/
theorem RunRep.nfree_pos_iff (hb : b < nbins) (hrep : RunRep (arenaBinInfo c b) h A) :
    0 < h.nfree ↔ A ≠ range (arenaBinInfo c b).nregs := by
  have hsub : A ⊆ range (arenaBinInfo c b).nregs :=
    fun k hk => mem_range.mpr (hrep.lt hb hk)
  have hcount := hrep.nfree
  constructor
  · rintro hpos rfl
    rw [card_range] at hcount
    omega
  · intro hne
    have hlt := card_lt_card (hsub.ssubset_of_ne hne)
    rw [card_range] at hlt
    omega

/-- The count says whether the run is empty. -/
theorem RunRep.nfree_eq_iff (hrep : RunRep (arenaBinInfo c b) h A) :
    h.nfree = (arenaBinInfo c b).nregs ↔ A = ∅ := by
  have hcount := hrep.nfree
  rw [← card_eq_zero]
  omega

/-- `arena_run_reg_alloc` takes the least free region. -/
theorem RunRep.arenaRunRegAlloc (hb : b < nbins) (hrep : RunRep (arenaBinInfo c b) h A)
    (hfree : A ≠ range (arenaBinInfo c b).nregs) (run : ℕ) :
    ∃ k h', Jemalloc.arenaRunRegAlloc (arenaBinInfo c b) run h =
        some ((arenaBinInfo c b).region run k, h') ∧
      IsLeast {k | k < (arenaBinInfo c b).nregs ∧ k ∉ A} k ∧
      RunRep (arenaBinInfo c b) h' (insert k A) := by
  have hbits := nbits_arenaBinInfo (c := c) hb
  have hpos := (hrep.nfree_pos_iff hb).mpr hfree
  have hleast := hrep.bitmap.isLeast_bitmapSfu (hbits.symm ▸ hfree)
  rw [hbits] at hleast
  generalize arenaBinInfo c b = info at hrep hfree hbits hleast ⊢
  have hguard : 0 < h.nfree ∧ bitmapFull h.bitmap info.bitmapInfo = false := by
    refine ⟨hpos, ?_⟩
    rw [hrep.bitmap.bitmapFull, decide_eq_false_iff_not, hbits]
    exact hfree
  -- every region below `nextind` may be in use, the one at `nextind` is not
  have hle : (bitmapSfu h.bitmap info.bitmapInfo).1 ≤ h.nextind := by
    rcases hrep.nextind_le.lt_or_eq with hlt | heq
    · exact hleast.2 ⟨hlt, fun hmem => absurd (mem_range.mp (hrep.used hmem)) (lt_irrefl _)⟩
    · exact heq ▸ hleast.1.1.le
  have hnext : (bitmapSfu h.bitmap info.bitmapInfo).1 <
      if (bitmapSfu h.bitmap info.bitmapInfo).1 = h.nextind then h.nextind + 1 else h.nextind := by
    split <;> omega
  refine ⟨(bitmapSfu h.bitmap info.bitmapInfo).1,
    ⟨if (bitmapSfu h.bitmap info.bitmapInfo).1 = h.nextind then h.nextind + 1 else h.nextind,
      h.nfree - 1, (bitmapSfu h.bitmap info.bitmapInfo).2⟩, ?_, hleast, ?_⟩
  · simp only [Jemalloc.arenaRunRegAlloc, guard, hguard, hnext, if_true, Option.pure_def,
      Option.bind_eq_bind, Option.bind_some]
    rfl
  · refine ⟨hrep.bitmap.bitmapSet (hbits.symm ▸ hleast.1.1) hleast.1.2, ?_, ?_, ?_⟩
    · have := hrep.nfree
      rw [card_insert_of_notMem hleast.1.2]
      simp only
      omega
    · intro j hj
      rcases mem_insert.mp hj with rfl | hj
      · exact mem_range.mpr hnext
      · have := mem_range.mp (hrep.used hj)
        simp only [mem_range]
        split <;> omega
    · have := hrep.nextind_le
      have := hleast.1.1
      simp only
      split <;> omega

/-- `arena_run_reg_dalloc` frees the region of the pointer. -/
theorem RunRep.arenaRunRegDalloc (hb : b < nbins) (hrep : RunRep (arenaBinInfo c b) h A)
    (hk : k ∈ A) (run : ℕ) :
    ∃ h', Jemalloc.arenaRunRegDalloc (arenaBinInfo c b) run h ((arenaBinInfo c b).region run k) =
        some h' ∧
      RunRep (arenaBinInfo c b) h' (A.erase k) := by
  have hlt := hrep.lt hb hk
  have hbits := nbits_arenaBinInfo (c := c) hb
  have hind : arenaRunRegind (arenaBinInfo c b) run ((arenaBinInfo c b).region run k) = k :=
    arenaRunRegind_eq c hb hlt run
  generalize arenaBinInfo c b = info at hrep hlt hbits hind ⊢
  have hcard := card_pos.mpr ⟨k, hk⟩
  have hcount := hrep.nfree
  have hoff : info.region run k - (run + info.reg0Offset) = k * info.regInterval := by
    rw [BinInfo.region, Nat.add_sub_cancel_left]
  have hguard : h.nfree < info.nregs ∧
      (info.region run k - (run + info.reg0Offset)) % info.regInterval = 0 ∧
      run + info.reg0Offset ≤ info.region run k ∧ bitmapGet h.bitmap k = true := by
    refine ⟨by omega, ?_, Nat.le_add_right _ _, ?_⟩
    · rw [hoff, Nat.mul_mod_left]
    · rw [hrep.bitmap.bitmapGet (hbits.symm ▸ hlt), decide_eq_true_eq]
      exact hk
  refine ⟨⟨h.nextind, h.nfree + 1, bitmapUnset h.bitmap info.bitmapInfo k⟩, ?_, ?_⟩
  · simp only [Jemalloc.arenaRunRegDalloc, hind, guard, hguard, and_self, if_true, Option.pure_def,
      Option.bind_eq_bind, Option.bind_some]
  · refine ⟨hrep.bitmap.bitmapUnset hk, ?_, (erase_subset k A).trans hrep.used,
      hrep.nextind_le⟩
    rw [card_erase_of_mem hk]
    simp only
    omega

end Regions

end Jemalloc
