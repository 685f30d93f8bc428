/-
# The layout of a run

A run of a bin is a header with the bitmap, and then regions of one size, each between two redzones
where these are switched on.  `bin_info_run_size_calc` chooses the size of the run and the number of
regions: for a given size it takes regions away until the header fits in front of them, and it adds
pages to the run while the part of it that no region uses is too large.  `arena_run_regind` goes the
other way, from the address of a region to its index, with a multiplication in place of the
division.

For every chunk size and every setting of the redzones, all 32 bins get a run that fits into a
chunk, whose header and regions tile it, whose regions keep the alignment of their size
(`layoutOk_arenaBinInfo`), and `arena_run_regind` is exact on it (`arenaRunRegind_eq`).
-/
import NvMalloc.SizeClasses
import NvMalloc.Bitmap

namespace Jemalloc

/-! ## The code -/

/-- `sizeof(arena_run_t)`, a multiple of `sizeof(long)`. -/
def runHeaderSize : ℕ := 32

/-- `RUN_MAXREGS`. -/
def runMaxregs : ℕ := 2 ^ 11

/-- `RUN_BFP`. -/
def runBfp : ℕ := 12

/-- `RUN_MAX_OVRHD`. -/
def runMaxOvrhd : ℕ := 0x3d

/-- `RUN_MAX_OVRHD_RELAX`. -/
def runMaxOvrhdRelax : ℕ := 0x1800

/-- `REDZONE_MINSIZE`. -/
def redzoneMinsize : ℕ := 16

/-- `ffs`: the position of the least significant bit that is set, from 1 on, or 0. -/
def ffs (x : ℕ) : ℕ :=
  match (List.range 32).find? fun i => x.testBit i with
  | some i => i + 1
  | none => 0

/-- The redzone of a region and the pad at the end of the run. -/
structure Zones where
  redzoneSize : ℕ
  padSize : ℕ

/-- The first part of `bin_info_run_size_calc`. -/
def zonesOf (redzone : Bool) (regSize : ℕ) : Zones :=
  if redzone then
    let alignMin := 2 ^ (ffs regSize - 1)
    if alignMin ≤ redzoneMinsize then ⟨redzoneMinsize, 0⟩ else ⟨alignMin / 2, alignMin / 2⟩
  else ⟨0, 0⟩

/-- The settings that `bin_info_run_size_calc` tries, the variables `try_*` and `good_*`. -/
structure Try where
  runSize : ℕ
  nregs : ℕ
  hdrSize : ℕ
  bitmapOffset : ℕ
  ctx0Offset : ℕ
  redzone0Offset : ℕ
deriving DecidableEq, Repr

/-- The inner loop: it decrements `try_nregs` first, and goes on until the header is in front of
the regions.  The offset is an `uint32_t`. -/
def shrinkRegs (interval pad runSize : ℕ) : ℕ → Option Try
  | 0 => none
  | nregs + 1 => do
    let size ← bitmapSize nregs
    let hdrSize := runHeaderSize + size
    let redzone0Offset := (((runSize : ℤ) - nregs * interval - pad) % 2 ^ 32).toNat
    if redzone0Offset < hdrSize then shrinkRegs interval pad runSize nregs
    else some ⟨runSize, nregs, hdrSize, runHeaderSize, 0, redzone0Offset⟩

/-- One set of settings: the start of `try_nregs` and the inner loop.  The first time the pad is
not taken off (`sub` is 0). -/
def tryRunSize (interval pad sub runSize : ℕ) : Option Try :=
  let nregs := ((runSize - runHeaderSize - sub) / interval + 1) % 2 ^ 32
  shrinkRegs interval pad runSize (if runMaxregs < nregs then runMaxregs + 1 else nregs)

/-- The test at the end of the expansion loop. -/
def expandAgain (c : Config) (interval : ℕ) (t : Try) : Bool :=
  t.runSize ≤ c.arenaMaxclass ∧ runMaxOvrhdRelax < runMaxOvrhd * (interval * 8) ∧
    runMaxOvrhd * t.runSize < t.redzone0Offset * 2 ^ runBfp % 2 ^ 32 ∧ t.nregs < runMaxregs

/-- The expansion loop, from the settings that were valid last. -/
def expandRun (c : Config) (interval pad : ℕ) : ℕ → Try → Option Try
  | 0, _ => none
  | fuel + 1, good => do
    let t ← tryRunSize interval pad pad (good.runSize + page)
    if expandAgain c interval t then expandRun c interval pad fuel t else some good

/-- `arena_bin_info_t`. -/
structure BinInfo where
  regSize : ℕ
  redzoneSize : ℕ
  regInterval : ℕ
  runSize : ℕ
  nregs : ℕ
  bitmapOffset : ℕ
  bitmapInfo : BitmapInfo
  ctx0Offset : ℕ
  reg0Offset : ℕ
deriving DecidableEq, Repr

/-- `bin_info_run_size_calc`, and `bitmap_info_init` for the bin. -/
def binInfoRunSizeCalc (c : Config) (regSize minRunSize : ℕ) : Option BinInfo := do
  let z := zonesOf c.redzone regSize
  let interval := regSize + z.redzoneSize * 2
  let first ← tryRunSize interval z.padSize 0 minRunSize
  let good ← expandRun c interval z.padSize (c.arenaMaxclass / page + 1) first
  let bitmapInfo ← bitmapInfoInit good.nregs
  some ⟨regSize, z.redzoneSize, interval, good.runSize, good.nregs, good.bitmapOffset, bitmapInfo,
    good.ctx0Offset, good.redzone0Offset + z.redzoneSize⟩

/-- The lines that `SIZE_CLASS` expands to in `bin_info_init`. -/
def binInfosFrom (c : Config) : ℕ → List (ℕ × ℕ × ℕ) → Option (List BinInfo)
  | _, [] => some []
  | prevRunSize, (_, _, size) :: rest => do
    let info ← binInfoRunSizeCalc c size prevRunSize
    let infos ← binInfosFrom c info.runSize rest
    some (info :: infos)

/-- `bin_info_init`. -/
def binInfoInit (c : Config) : Option (List BinInfo) := binInfosFrom c page sizeClasses

/-- `arena_run_regind`, for the address `ptr` in the run at `run`. -/
def arenaRunRegind (info : BinInfo) (run ptr : ℕ) : ℕ :=
  let diff := (((ptr : ℤ) - run - info.reg0Offset) % 2 ^ 32).toNat
  let shift := ffs info.regInterval - 1
  let diff := diff / 2 ^ shift
  let interval := info.regInterval / 2 ^ shift
  if interval = 1 then diff
  else if interval ≤ 31 then diff * (2 ^ 21 / interval + 1) % 2 ^ 32 / 2 ^ 21
  else diff / interval

/-! ## The size of a bitmap -/

/-- The bitmaps of runs have one or two levels. -/
theorem bitmapSize_eq {n : ℕ} (h : n ≤ runMaxregs) :
    bitmapSize n = some ((bits2groups n + if 1 < bits2groups n then 1 else 0) * 8) := by
  have hle : bits2groups n ≤ 32 := bits2groups_le (by rw [runMaxregs] at h; omega)
  by_cases hone : 1 < bits2groups n
  · have htop : bits2groups (bits2groups n) = 1 := by
      refine le_antisymm (bits2groups_le (by omega)) (bits2groups_pos (by omega))
    simp [bitmapSize, bitmapInfoInit, bitmapMaxLevels, levelsFrom, hone, htop, bitmapInfoNgroups]
  · simp [bitmapSize, bitmapInfoInit, bitmapMaxLevels, levelsFrom, hone, bitmapInfoNgroups]

theorem bitmapSize_bounds {n : ℕ} (h : n ≤ runMaxregs) :
    ∃ b, bitmapSize n = some b ∧ b ≤ 264 ∧ (n ≤ 64 → b ≤ 8) := by
  have hle : bits2groups n ≤ 32 := bits2groups_le (by rw [runMaxregs] at h; omega)
  refine ⟨_, bitmapSize_eq h, ?_, ?_⟩
  · split <;> omega
  · intro hn
    have : bits2groups n ≤ 1 := bits2groups_le (by omega)
    rw [if_neg (by omega)]
    omega

/-! ## One set of settings -/

/-- The settings fit: the header and the bitmap, then the regions with their redzones, then the
pad fill the run, and one more region would not fit. -/
structure Try.Ok (interval pad : ℕ) (t : Try) : Prop where
  bitmap : bitmapSize t.nregs = some (t.hdrSize - runHeaderSize)
  header : runHeaderSize ≤ t.hdrSize
  offset : t.bitmapOffset = runHeaderSize
  ctx0 : t.ctx0Offset = 0
  fits : t.hdrSize ≤ t.redzone0Offset
  tiles : t.redzone0Offset + t.nregs * interval + pad = t.runSize
  nregs_le : t.nregs ≤ runMaxregs
  maximal : t.nregs < runMaxregs → ∀ b, bitmapSize (t.nregs + 1) = some b →
    t.runSize < runHeaderSize + b + (t.nregs + 1) * interval + pad

section Settings

variable {interval pad runSize : ℕ}

/-- The inner loop ends with settings that fit; it keeps a region if one fits. -/
theorem exists_shrinkRegs {n : ℕ} (hrun : runSize < 2 ^ 32) (hhdr : runHeaderSize + pad ≤ runSize)
    (hn : n * interval + pad ≤ runSize) (hmax : n ≤ runMaxregs)
    (hnext : n < runMaxregs → ∀ b, bitmapSize (n + 1) = some b →
      runSize < runHeaderSize + b + (n + 1) * interval + pad) :
    ∃ t, shrinkRegs interval pad runSize (n + 1) = some t ∧ t.runSize = runSize ∧
      t.Ok interval pad ∧ (0 < n → runHeaderSize + 8 + interval + pad ≤ runSize → 0 < t.nregs) := by
  induction n with
  | zero =>
    have hsize : bitmapSize 0 = some 0 := rfl
    have hoff : (((runSize : ℤ) - (0 : ℕ) * interval - pad) % 2 ^ 32).toNat = runSize - pad := by
      rw [Int.emod_eq_of_lt (by omega) (by omega)]
      omega
    refine ⟨⟨runSize, 0, runHeaderSize, runHeaderSize, 0, runSize - pad⟩, ?_, rfl, ?_, by simp⟩
    · simp only [shrinkRegs, hsize, hoff, Option.bind_eq_bind, Option.bind_some, Nat.add_zero]
      rw [if_neg (by omega)]
    · exact ⟨by simpa using hsize, le_rfl, rfl, rfl, by simp only; omega, by simp only; omega,
        Nat.zero_le _, hnext⟩
  | succ n ih =>
    obtain ⟨b, hsize, -, hsmall⟩ := bitmapSize_bounds hmax
    have hoff : (((runSize : ℤ) - (n + 1 : ℕ) * interval - pad) % 2 ^ 32).toNat =
        runSize - (n + 1) * interval - pad := by
      have hcast : ((n + 1 : ℕ) : ℤ) * interval = (((n + 1) * interval : ℕ) : ℤ) := by
        push_cast
        rfl
      rw [hcast, Int.emod_eq_of_lt (by omega) (by omega)]
      omega
    rw [shrinkRegs]
    simp only [hsize, hoff, Option.bind_eq_bind, Option.bind_some]
    split
    · rename_i hlt
      have hprev : n * interval + interval = (n + 1) * interval := by ring
      obtain ⟨t, ht, hrs, hok, hpos⟩ := ih (by omega) (by omega) (by
        intro _ b' hb'
        rw [hsize] at hb'
        cases hb'
        omega)
      refine ⟨t, ht, hrs, hok, ?_⟩
      intro _ hone
      rcases Nat.eq_zero_or_pos n with rfl | hn0
      · -- the loop does not pass a single region that fits
        have := hsmall (by decide)
        omega
      · exact hpos hn0 hone
    · rename_i hge
      refine ⟨_, rfl, rfl, ?_, fun _ _ => Nat.succ_pos n⟩
      exact ⟨by simpa using hsize, Nat.le_add_right _ _, rfl, rfl, by simpa using hge,
        by simp only; omega, hmax, hnext⟩

/-- What the loops need to know about the interval and the pad of a bin. -/
structure Spaced (interval pad : ℕ) : Prop where
  pos : 0 < interval
  le : interval ≤ page
  pad_le : pad ≤ 2048
  dvd : pad = 0 ∨ 2 * pad ∣ interval ∧ 2 * pad ∣ page
  one : runHeaderSize + 8 + interval + pad ≤ page ∨ interval = page

/-- The regions that the first division allows leave room for the pad, although it is not taken off
there: what is left is a multiple of twice the pad. -/
theorem Spaced.pad_le_rest {n : ℕ} (h : Spaced interval pad) (hdvd : page ∣ runSize)
    (hn : n * interval < runSize) : n * interval + pad ≤ runSize := by
  rcases h.dvd with rfl | ⟨hi, hp⟩
  · omega
  · have hrest : 2 * pad ∣ runSize - n * interval :=
      Nat.dvd_sub (hp.trans hdvd) (hi.trans (Nat.dvd_mul_left _ _))
    have := Nat.le_of_dvd (by omega) hrest
    omega

/-- One set of settings gives a run that fits. -/
theorem exists_tryRunSize {sub : ℕ} (h : Spaced interval pad) (hsub : sub = 0 ∨ sub = pad)
    (hdvd : page ∣ runSize) (hpage : page ≤ runSize) (hrun : runSize < 2 ^ 32) :
    ∃ t, tryRunSize interval pad sub runSize = some t ∧ t.runSize = runSize ∧ t.Ok interval pad ∧
      (runHeaderSize + 8 + interval + pad ≤ runSize → 0 < t.nregs) := by
  have hpad := h.pad_le
  have hsize := page_eq
  have hhdr : runHeaderSize = 32 := rfl
  have hmul := Nat.div_mul_le_self (runSize - runHeaderSize - sub) interval
  have hlt := Nat.lt_div_mul_add h.pos (a := runSize - runHeaderSize - sub)
  have hquot : (runSize - runHeaderSize - sub) / interval ≤ runSize - 32 :=
    (Nat.div_le_self _ _).trans (by omega)
  rw [tryRunSize]
  generalize hq : (runSize - runHeaderSize - sub) / interval = q at hmul hlt hquot ⊢
  have hrest : q * interval + pad ≤ runSize := h.pad_le_rest hdvd (by omega)
  have hone : runHeaderSize + 8 + interval + pad ≤ runSize → 0 < q := by
    intro hfit
    by_contra hq0
    have : q = 0 := by omega
    subst this
    omega
  rw [Nat.mod_eq_of_lt (by omega)]
  split
  · -- as many regions as the bitmap can have
    rename_i hcap
    have hle : runMaxregs * interval ≤ q * interval := Nat.mul_le_mul_right _ (by omega)
    obtain ⟨t, ht, hrs, hok, hpos⟩ := exists_shrinkRegs hrun (by omega)
      (show runMaxregs * interval + pad ≤ runSize by omega) le_rfl
      (fun hno => absurd hno (by omega))
    exact ⟨t, ht, hrs, hok, hpos (by decide)⟩
  · rename_i hcap
    obtain ⟨t, ht, hrs, hok, hpos⟩ := exists_shrinkRegs hrun (by omega) hrest (by omega) (by
      intro _ b _
      rw [Nat.add_mul, Nat.one_mul]
      omega)
    exact ⟨t, ht, hrs, hok, fun hfit => hpos (hone hfit) hfit⟩

/-! ## The expansion loop -/

/-- Settings that fit into a chunk. -/
structure Try.Good (c : Config) (interval pad : ℕ) (t : Try) : Prop extends t.Ok interval pad where
  dvd : page ∣ t.runSize
  pos : page ≤ t.runSize
  le : t.runSize ≤ c.arenaMaxclass
  bound : t.runSize < 2 ^ 25

variable {c : Config}

/-- A run with fewer regions than the bitmap can have is not large: one more would not fit. -/
theorem Try.Ok.runSize_lt {t : Try} (h : t.Ok interval pad) (hs : Spaced interval pad)
    (hlt : t.nregs < runMaxregs) : t.runSize < 2 ^ 25 := by
  obtain ⟨b, hb, hle, -⟩ := bitmapSize_bounds (show t.nregs + 1 ≤ runMaxregs from hlt)
  have hmax := h.maximal hlt b hb
  have hmul : (t.nregs + 1) * interval ≤ 2048 * 8192 := Nat.mul_le_mul hlt hs.le
  have := hs.pad_le
  rw [runHeaderSize] at hmax
  omega

theorem expandAgain_iff {t : Try} : expandAgain c interval t = true ↔
    t.runSize ≤ c.arenaMaxclass ∧ runMaxOvrhdRelax < runMaxOvrhd * (interval * 8) ∧
      runMaxOvrhd * t.runSize < t.redzone0Offset * 2 ^ runBfp % 2 ^ 32 ∧ t.nregs < runMaxregs := by
  rw [expandAgain, decide_eq_true_eq]

/-- Two pages hold at least one region of every bin. -/
theorem Spaced.two_pages (h : Spaced interval pad) (hp : page ≤ runSize) :
    runHeaderSize + 8 + interval + pad ≤ runSize + page := by
  have h₁ := h.le
  have h₂ := h.pad_le
  have h₃ := page_eq
  rw [runHeaderSize]
  omega

/-- One round: the next settings fit as well, with at least one region. -/
theorem Try.Good.exists_next {good : Try} (h : good.Good c interval pad)
    (hs : Spaced interval pad) :
    ∃ t, tryRunSize interval pad pad (good.runSize + page) = some t ∧
      t.runSize = good.runSize + page ∧ t.Ok interval pad ∧ 0 < t.nregs ∧
      (expandAgain c interval t = true → t.Good c interval pad) := by
  have hbound := h.bound
  have hpage := page_eq
  have hdvd : page ∣ good.runSize + page := Nat.dvd_add h.dvd dvd_rfl
  obtain ⟨t, ht, hrs, hok, hpos⟩ :=
    exists_tryRunSize hs (Or.inr rfl) hdvd (Nat.le_add_left _ _) (by omega)
  refine ⟨t, ht, hrs, hok, hpos (hs.two_pages h.pos), ?_⟩
  intro hagain
  obtain ⟨hle, -, -, hlt⟩ := expandAgain_iff.mp hagain
  exact
    { toOk := hok, dvd := hrs ▸ hdvd, pos := by omega, le := hle, bound := hok.runSize_lt hs hlt }

/-- The loop ends, with settings that fit. -/
theorem exists_expandRun {fuel : ℕ} {good : Try} (hs : Spaced interval pad)
    (h : good.Good c interval pad) (hfuel : c.arenaMaxclass / page < fuel + good.runSize / page) :
    ∃ t, expandRun c interval pad fuel good = some t ∧ t.Good c interval pad ∧
      (0 < good.nregs → 0 < t.nregs) := by
  induction fuel generalizing good with
  | zero =>
    have := Nat.div_le_div_right (c := page) h.le
    omega
  | succ fuel ih =>
    obtain ⟨t, ht, hrs, -, hpos, hgood⟩ := h.exists_next hs
    simp only [expandRun, ht, Option.bind_eq_bind, Option.bind_some]
    split
    · rename_i hagain
      have hdiv : t.runSize / page = good.runSize / page + 1 := by
        rw [hrs, Nat.add_div_right _ page_pos]
      obtain ⟨t', ht', hgood', hpos'⟩ := ih (hgood hagain) (by omega)
      exact ⟨t', ht', hgood', fun _ => hpos' hpos⟩
    · exact ⟨good, rfl, h, id⟩

theorem Config.two_pages_le (c : Config) : 2 * page ≤ c.arenaMaxclass := by
  have hbias := c.mapBias_le
  have hheader : c.headerPages 0 + 2 ≤ c.chunkNpages := by
    have := c.four_le_chunkNpages
    unfold Config.headerPages page lgPage
    simp only
    split <;> omega
  rw [c.arenaMaxclass_eq]
  exact Nat.mul_le_mul_right page (by omega)

/-- A run of one page that holds no region is expanded: the second page is not overhead yet. -/
theorem expandAgain_of_two_pages {t : Try} (hs : Spaced interval pad) (hi : interval = page)
    (hok : t.Ok interval pad) (hrs : t.runSize = 2 * page) (hpos : 0 < t.nregs) :
    expandAgain c interval t = true := by
  have htiles := hok.tiles
  have hfits := hok.header.trans hok.fits
  have hpad := hs.pad_le
  have hmax := c.two_pages_le
  rw [expandAgain_iff, hrs]
  rw [hrs, hi, page_eq] at htiles
  rw [hi]
  rw [page_eq] at hmax ⊢
  rw [runHeaderSize] at hfits
  have hone : t.nregs = 1 := by omega
  rw [hone] at htiles ⊢
  refine ⟨hmax, by decide, ?_, by decide⟩
  rw [Nat.mod_eq_of_lt (by rw [runBfp]; omega), runMaxOvrhd, runBfp]
  omega

/-- The whole search, from a run size that is valid for the bin before. -/
theorem exists_expandRun_pos {first : Try} (hs : Spaced interval pad)
    (h : first.Good c interval pad)
    (hone : runHeaderSize + 8 + interval + pad ≤ first.runSize → 0 < first.nregs) :
    ∃ t, expandRun c interval pad (c.arenaMaxclass / page + 1) first = some t ∧
      t.Good c interval pad ∧ 0 < t.nregs := by
  have hdiv : 1 ≤ first.runSize / page := (Nat.one_le_div_iff page_pos).mpr h.pos
  by_cases hfit : runHeaderSize + 8 + interval + pad ≤ first.runSize
  · obtain ⟨t, ht, hgood, hpos⟩ := exists_expandRun hs h
      (show c.arenaMaxclass / page < c.arenaMaxclass / page + 1 + first.runSize / page by omega)
    exact ⟨t, ht, hgood, hpos (hone hfit)⟩
  · -- the run has one page and the interval is a page: the first round goes on
    have hpage : first.runSize = page := by
      have htwo := hs.two_pages le_rfl
      obtain ⟨m, hm⟩ := h.dvd
      have := h.pos
      have hm1 : m = 1 := by
        rcases Nat.lt_or_ge m 2 with hlt | hge
        · rcases Nat.eq_zero_or_pos m with rfl | hm0
          · have := page_pos
            omega
          · omega
        · have := Nat.mul_le_mul_left page hge
          omega
      rw [hm, hm1, Nat.mul_one]
    have hi : interval = page := by
      rcases hs.one with hle | hi
      · rw [← hpage] at hle
        exact absurd hle hfit
      · exact hi
    obtain ⟨t, ht, hrs, hok, hpos, hgood⟩ := h.exists_next hs
    have hagain : expandAgain c interval t = true :=
      expandAgain_of_two_pages hs hi hok (by omega) hpos
    simp only [expandRun, ht, Option.bind_eq_bind, Option.bind_some, if_pos hagain]
    have hdiv' : t.runSize / page = first.runSize / page + 1 := by
      rw [hrs, Nat.add_div_right _ page_pos]
    obtain ⟨t', ht', hgood', hpos'⟩ := exists_expandRun hs (hgood hagain)
      (show c.arenaMaxclass / page < c.arenaMaxclass / page + t.runSize / page by omega)
    exact ⟨t', ht', hgood', hpos' hpos⟩

end Settings

/-! ## All bins -/

/-- What holds of the settings of a bin. -/
structure LayoutOk (c : Config) (regSize : ℕ) (info : BinInfo) : Prop where
  regSize_eq : info.regSize = regSize
  redzone_eq : info.redzoneSize = (zonesOf c.redzone regSize).redzoneSize
  interval_eq : info.regInterval = info.regSize + 2 * info.redzoneSize
  page_dvd : page ∣ info.runSize
  run_pos : 0 < info.runSize
  run_le : info.runSize ≤ c.arenaMaxclass
  run_lt : info.runSize < 2 ^ 25
  nregs_pos : 0 < info.nregs
  nregs_le : info.nregs ≤ runMaxregs
  bitmapInfo : bitmapInfoInit info.nregs = some info.bitmapInfo
  header : runHeaderSize ≤ info.bitmapOffset
  bitmap_le : info.bitmapOffset + bitmapInfoNgroups info.bitmapInfo ≤
    info.reg0Offset - info.redzoneSize
  redzone_le : info.redzoneSize ≤ info.reg0Offset
  regions_le : info.reg0Offset - info.redzoneSize + info.nregs * info.regInterval ≤ info.runSize
  aligned : ∀ k ≤ lgPage, 2 ^ k ∣ info.regSize → 2 ^ k ∣ info.reg0Offset ∧ 2 ^ k ∣ info.regInterval

/-- The intervals and pads of the classes. -/
theorem zones_spaced : ∀ x ∈ sizeClasses, ∀ redzone : Bool,
    0 < x.2.2 ∧ x.2.2 + (zonesOf redzone x.2.2).redzoneSize * 2 ≤ page ∧
      (zonesOf redzone x.2.2).padSize ≤ 2048 ∧
      ((zonesOf redzone x.2.2).padSize = 0 ∨
        2 * (zonesOf redzone x.2.2).padSize ∣ x.2.2 + (zonesOf redzone x.2.2).redzoneSize * 2 ∧
          2 * (zonesOf redzone x.2.2).padSize ∣ page) ∧
      (runHeaderSize + 8 + (x.2.2 + (zonesOf redzone x.2.2).redzoneSize * 2) +
          (zonesOf redzone x.2.2).padSize ≤ page ∨
        x.2.2 + (zonesOf redzone x.2.2).redzoneSize * 2 = page) := by
  decide

/-- The redzones and the pad keep the alignment of the regions. -/
theorem zones_aligned : ∀ x ∈ sizeClasses, ∀ redzone : Bool, ∀ k < 14, 2 ^ k ∣ x.2.2 →
    2 ^ k ∣ x.2.2 + (zonesOf redzone x.2.2).redzoneSize * 2 ∧
      (zonesOf redzone x.2.2).padSize ≤ (zonesOf redzone x.2.2).redzoneSize ∧
      2 ^ k ∣ (zonesOf redzone x.2.2).redzoneSize - (zonesOf redzone x.2.2).padSize := by
  decide

theorem spaced_zonesOf {x : ℕ × ℕ × ℕ} (hx : x ∈ sizeClasses) (redzone : Bool) :
    Spaced (x.2.2 + (zonesOf redzone x.2.2).redzoneSize * 2) (zonesOf redzone x.2.2).padSize := by
  obtain ⟨hpos, hle, hpad, hdvd, hone⟩ := zones_spaced x hx redzone
  exact ⟨by omega, hle, hpad, hdvd, hone⟩

/-- `reg0_offset` in terms of the run: the pad is made up for by the redzone. -/
theorem Try.Ok.dvd_reg0 {interval pad redzone a : ℕ} {t : Try} (h : t.Ok interval pad)
    (hrun : a ∣ t.runSize) (hi : a ∣ interval) (hle : pad ≤ redzone) (hrest : a ∣ redzone - pad) :
    a ∣ t.redzone0Offset + redzone := by
  have htiles := h.tiles
  have heq : t.redzone0Offset + redzone = t.runSize - t.nregs * interval + (redzone - pad) := by
    omega
  rw [heq]
  exact Nat.dvd_add (Nat.dvd_sub hrun (hi.trans (Nat.dvd_mul_left _ _))) hrest

/-- `bin_info_run_size_calc` gives every bin a valid layout. -/
theorem exists_binInfoRunSizeCalc {c : Config} {x : ℕ × ℕ × ℕ} {minRunSize : ℕ}
    (hx : x ∈ sizeClasses) (hdvd : page ∣ minRunSize) (hpos : 0 < minRunSize)
    (hle : minRunSize ≤ c.arenaMaxclass) (hlt : minRunSize < 2 ^ 25) :
    ∃ info, binInfoRunSizeCalc c x.2.2 minRunSize = some info ∧ LayoutOk c x.2.2 info := by
  have hs := spaced_zonesOf hx c.redzone
  have halign := zones_aligned x hx c.redzone
  have hpage := Nat.le_of_dvd hpos hdvd
  rw [binInfoRunSizeCalc]
  generalize hz : zonesOf c.redzone x.2.2 = z at hs halign ⊢
  obtain ⟨first, hfirst, hrs, hok, hone⟩ := exists_tryRunSize hs (Or.inl rfl) hdvd hpage
    (hlt.trans (by decide))
  have hgood : first.Good c (x.2.2 + z.redzoneSize * 2) z.padSize :=
    { toOk := hok, dvd := hrs ▸ hdvd, pos := by omega, le := by omega, bound := by omega }
  obtain ⟨t, ht, hgood', hnregs⟩ := exists_expandRun_pos hs hgood (by rwa [hrs])
  have hsize := hgood'.bitmap
  rw [bitmapSize, Option.map_eq_some_iff] at hsize
  obtain ⟨binfo, hbinfo, hgroups⟩ := hsize
  simp only [hfirst, ht, hbinfo, Option.bind_eq_bind, Option.bind_some]
  have hpage' := page_pos
  have hhdr := hgood'.header
  have hfits := hgood'.fits
  have htiles := hgood'.tiles
  have hoff := hgood'.offset
  refine ⟨_, rfl, ?_⟩
  exact
    { regSize_eq := rfl
      redzone_eq := by rw [hz]
      interval_eq := by simp only [Nat.mul_comm]
      page_dvd := hgood'.dvd
      run_pos := page_pos.trans_le hgood'.pos
      run_le := hgood'.le
      run_lt := hgood'.bound
      nregs_pos := hnregs
      nregs_le := hgood'.nregs_le
      bitmapInfo := hbinfo
      header := hgood'.offset.ge
      bitmap_le := by
        simp only [Nat.add_sub_cancel]
        omega
      redzone_le := Nat.le_add_left _ _
      regions_le := by
        simp only [Nat.add_sub_cancel]
        omega
      aligned := by
        intro k hk hreg
        obtain ⟨hi, hpad, hrest⟩ := halign k (Nat.lt_succ_of_le hk) hreg
        exact ⟨hgood'.dvd_reg0 ((Nat.pow_dvd_pow 2 hk).trans hgood'.dvd) hi hpad hrest, hi⟩ }

/-- All lines of `bin_info_init`: each bin starts from the run size of the one before. -/
theorem exists_binInfosFrom {c : Config} {classes : List (ℕ × ℕ × ℕ)} {prevRunSize : ℕ}
    (hclasses : ∀ x ∈ classes, x ∈ sizeClasses) (hdvd : page ∣ prevRunSize)
    (hpos : 0 < prevRunSize) (hle : prevRunSize ≤ c.arenaMaxclass) (hlt : prevRunSize < 2 ^ 25) :
    ∃ infos, binInfosFrom c prevRunSize classes = some infos ∧
      List.Forall₂ (fun x info => LayoutOk c x.2.2 info) classes infos := by
  induction classes generalizing prevRunSize with
  | nil => exact ⟨[], rfl, .nil⟩
  | cons x rest ih =>
    obtain ⟨info, hinfo, hok⟩ :=
      exists_binInfoRunSizeCalc (c := c) (hclasses x List.mem_cons_self) hdvd hpos hle hlt
    obtain ⟨infos, hinfos, hall⟩ := ih (fun y hy => hclasses y (List.mem_cons_of_mem _ hy))
      hok.page_dvd hok.run_pos hok.run_le hok.run_lt
    refine ⟨info :: infos, ?_, .cons hok hall⟩
    simp only [binInfosFrom, hinfo, hinfos, Option.bind_eq_bind, Option.bind_some]

/-- `arena_bin_info[bin]`. -/
def arenaBinInfo (c : Config) (bin : ℕ) : BinInfo :=
  ((binInfoInit c).getD []).getD bin ⟨0, 0, 0, 0, 0, 0, ⟨0, [], 0⟩, 0, 0⟩

/-- `bin_info_init` ends, with a valid layout for every bin. -/
theorem exists_binInfoInit (c : Config) :
    ∃ infos, binInfoInit c = some infos ∧
      List.Forall₂ (fun x info => LayoutOk c x.2.2 info) sizeClasses infos := by
  have hmax := c.two_pages_le
  exact exists_binInfosFrom (fun _ => id) (dvd_refl page) page_pos (by omega) (by decide)

/-- The layout of every bin is valid. -/
theorem layoutOk_arenaBinInfo (c : Config) {bin : ℕ} (hbin : bin < nbins) :
    LayoutOk c (regSize bin) (arenaBinInfo c bin) := by
  obtain ⟨infos, hinfos, hall⟩ := exists_binInfoInit c
  rw [List.forall₂_iff_get] at hall
  have hlen : bin < sizeClasses.length := hbin
  have hget := hall.2 bin hlen (hall.1 ▸ hlen)
  rw [arenaBinInfo, hinfos, Option.getD_some, regSize,
    List.getD_eq_getElem _ _ (by simpa using hlen), List.getD_eq_getElem _ _ (hall.1 ▸ hlen),
    List.getElem_map]
  exact hget

/-! ## From an address to an index -/

variable {i : ℕ}

/-- Dividing a multiple by multiplying with the inverse, rounded up, is exact. -/
theorem mul_inverse_shift {d : ℕ} (hd : 0 < d) (hd' : d ≤ 31) (hi : i < 2048) :
    i * d * (2 ^ 21 / d + 1) % 2 ^ 32 / 2 ^ 21 = i := by
  have hmul := Nat.div_mul_le_self (2 ^ 21) d
  have hlt := Nat.lt_div_mul_add hd (a := 2 ^ 21)
  obtain ⟨e, he⟩ : ∃ e, d * (2 ^ 21 / d + 1) = 2 ^ 21 + e := ⟨_, by
    rw [Nat.mul_add, Nat.mul_one, Nat.mul_comm d]
    exact (Nat.add_sub_cancel' (by omega)).symm⟩
  have hle : e ≤ 31 := by
    rw [Nat.mul_add, Nat.mul_one, Nat.mul_comm d] at he
    omega
  have hsmall : i * e ≤ 2047 * 31 := Nat.mul_le_mul (by omega) hle
  have hprod : i * d * (2 ^ 21 / d + 1) = i * 2 ^ 21 + i * e := by
    rw [Nat.mul_assoc, he, Nat.mul_add]
  rw [hprod, Nat.mod_eq_of_lt (by omega)]
  omega

theorem two_pow_ffs_dvd (x : ℕ) : 2 ^ (ffs x - 1) ∣ x := by
  unfold ffs
  cases hf : (List.range 32).find? fun i => x.testBit i with
  | none => simp
  | some i =>
    obtain ⟨-, -, hlt⟩ := List.find?_range_eq_some.mp hf
    simp only [Nat.add_sub_cancel]
    rw [Nat.dvd_iff_mod_eq_zero]
    apply Nat.eq_of_testBit_eq
    intro j
    rw [Nat.testBit_mod_two_pow, Nat.zero_testBit]
    by_cases hj : j < i
    · simpa [hj] using hlt j hj
    · simp [hj]

/-- `arena_run_regind` finds the index of every region of a run. -/
theorem arenaRunRegind_eq (c : Config) {bin : ℕ} (hbin : bin < nbins)
    (hi : i < (arenaBinInfo c bin).nregs) (run : ℕ) :
    arenaRunRegind (arenaBinInfo c bin) run
      (run + (arenaBinInfo c bin).reg0Offset + i * (arenaBinInfo c bin).regInterval) = i := by
  have hok := layoutOk_arenaBinInfo c hbin
  have hclass := (isClass_regSize bin hbin).pos
  generalize arenaBinInfo c bin = info at hi hok ⊢
  have hpos : 0 < info.regInterval := by
    rw [hok.interval_eq, hok.regSize_eq]
    omega
  have hmul : i * info.regInterval ≤ info.nregs * info.regInterval :=
    Nat.mul_le_mul_right _ hi.le
  have hbound : i * info.regInterval < 2 ^ 32 := by
    have := hok.regions_le
    have := hok.run_lt
    omega
  have hdiff : (((run + info.reg0Offset + i * info.regInterval : ℕ) : ℤ) - run - info.reg0Offset) %
      2 ^ 32 = (i * info.regInterval : ℕ) := by
    rw [Int.emod_eq_of_lt (by omega) (by omega)]
    omega
  -- both numbers are divided by the power of two in the interval
  obtain ⟨d, hd⟩ := two_pow_ffs_dvd info.regInterval
  have hshift := Nat.two_pow_pos (ffs info.regInterval - 1)
  have hdpos : 0 < d := by
    rcases Nat.eq_zero_or_pos d with rfl | h
    · omega
    · exact h
  rw [arenaRunRegind]
  simp only [hdiff, Int.toNat_natCast]
  generalize 2 ^ (ffs info.regInterval - 1) = w at hd hshift ⊢
  have hquot : i * info.regInterval / w = i * d := by
    rw [hd, Nat.mul_left_comm, Nat.mul_div_cancel_left _ hshift]
  rw [hquot, hd, Nat.mul_div_cancel_left _ hshift]
  split_ifs with hone htable
  · rw [hone, Nat.mul_one]
  · exact mul_inverse_shift hdpos htable (hi.trans_le hok.nregs_le)
  · exact Nat.mul_div_cancel _ hdpos

/-- The address of region `i` of the run at `run`. -/
def BinInfo.region (info : BinInfo) (run i : ℕ) : ℕ := run + info.reg0Offset + i * info.regInterval

/-- The regions of a run lie after its bitmap, inside of the run and one after the other. -/
theorem LayoutOk.region_bounds {c : Config} {size : ℕ} {info : BinInfo} (h : LayoutOk c size info)
    (run : ℕ) (hi : i < info.nregs) :
    run + info.bitmapOffset + bitmapInfoNgroups info.bitmapInfo ≤ info.region run i ∧
      info.region run i + info.regSize ≤ run + info.runSize ∧
      info.region run i + info.regSize ≤ info.region run (i + 1) := by
  have hmap := h.bitmap_le
  have hregs := h.regions_le
  have hle := h.redzone_le
  have hint := h.interval_eq
  have hmul : (i + 1) * info.regInterval ≤ info.nregs * info.regInterval :=
    Nat.mul_le_mul_right _ hi
  rw [Nat.add_mul, Nat.one_mul] at hmul
  simp only [BinInfo.region, Nat.add_mul, Nat.one_mul]
  omega

theorem BinInfo.region_mono (info : BinInfo) (run : ℕ) {j : ℕ} (h : i ≤ j) :
    info.region run i ≤ info.region run j :=
  Nat.add_le_add_left (Nat.mul_le_mul_right _ h) _

/-- **The runs of the bins.**  For every chunk size, with and without redzones, `bin_info_init` ends
with settings for all bins.  The run of each bin is a positive number of pages that fits into a
chunk, and has between 1 and 2048 regions.  The regions lie after the header and its bitmap, inside
of the run, apart from each other, and aligned as their size is; `arena_run_regind` finds the index
of each. -/
theorem bin_run_regions (c : Config) {bin : ℕ} (hbin : bin < nbins) :
    (∃ infos, binInfoInit c = some infos ∧ infos[bin]? = some (arenaBinInfo c bin)) ∧
      (arenaBinInfo c bin).regSize = regSize bin ∧
      page ∣ (arenaBinInfo c bin).runSize ∧ 0 < (arenaBinInfo c bin).runSize ∧
      (arenaBinInfo c bin).runSize ≤ c.arenaMaxclass ∧
      0 < (arenaBinInfo c bin).nregs ∧ (arenaBinInfo c bin).nregs ≤ runMaxregs ∧
      ∀ run, page ∣ run → ∀ i < (arenaBinInfo c bin).nregs,
        run + runHeaderSize + bitmapInfoNgroups (arenaBinInfo c bin).bitmapInfo ≤
          (arenaBinInfo c bin).region run i ∧
        (arenaBinInfo c bin).region run i + regSize bin ≤ run + (arenaBinInfo c bin).runSize ∧
        (∀ j < i, (arenaBinInfo c bin).region run j + regSize bin ≤
          (arenaBinInfo c bin).region run i) ∧
        (∀ k ≤ lgPage, 2 ^ k ∣ regSize bin → 2 ^ k ∣ (arenaBinInfo c bin).region run i) ∧
        arenaRunRegind (arenaBinInfo c bin) run ((arenaBinInfo c bin).region run i) = i := by
  have hinit : ∃ infos, binInfoInit c = some infos ∧
      infos[bin]? = some (arenaBinInfo c bin) := by
    obtain ⟨infos, hinfos, hall⟩ := exists_binInfoInit c
    have hlen : bin < infos.length := hall.length_eq ▸ hbin
    refine ⟨infos, hinfos, ?_⟩
    rw [arenaBinInfo, hinfos, Option.getD_some, List.getD_eq_getElem _ _ hlen,
      List.getElem?_eq_getElem hlen]
  have hok := layoutOk_arenaBinInfo c hbin
  refine ⟨hinit, hok.regSize_eq, hok.page_dvd, hok.run_pos, hok.run_le, hok.nregs_pos,
    hok.nregs_le, ?_⟩
  intro run hrun i hi
  have hind := arenaRunRegind_eq c hbin hi run
  clear hinit
  generalize arenaBinInfo c bin = info at hi hok hind ⊢
  obtain ⟨hlow, hhigh, -⟩ := hok.region_bounds run hi
  have hheader := hok.header
  refine ⟨by omega, hok.regSize_eq ▸ hhigh, ?_, ?_, hind⟩
  · intro j hj
    obtain ⟨-, -, hnext⟩ := hok.region_bounds run (hj.trans hi)
    rw [hok.regSize_eq] at hnext
    exact hnext.trans (info.region_mono run hj)
  · intro k hk hdvd
    obtain ⟨hreg0, hinterval⟩ := hok.aligned k hk (hok.regSize_eq.symm ▸ hdvd)
    have hpow : 2 ^ k ∣ run := (Nat.pow_dvd_pow 2 hk).trans hrun
    exact Nat.dvd_add (Nat.dvd_add hpow hreg0) (hinterval.trans (Nat.dvd_mul_left _ _))

/-- The bin for 48 bytes has a region, and the first one of a run is aligned to 16 bytes. -/
theorem bin_run_regions_first :
    0 < (arenaBinInfo defaultConfig 3).nregs ∧
      arenaRunRegind (arenaBinInfo defaultConfig 3) page
        ((arenaBinInfo defaultConfig 3).region page 0) = 0 ∧
      2 ^ 4 ∣ (arenaBinInfo defaultConfig 3).region page 0 := by
  obtain ⟨-, -, -, -, -, hpos, -, hregions⟩ :=
    bin_run_regions defaultConfig (show 3 < nbins by decide)
  obtain ⟨-, -, -, haligned, hind⟩ := hregions page (dvd_refl page) 0 hpos
  exact ⟨hpos, hind, haligned 4 (by decide) (by decide)⟩

end Jemalloc
