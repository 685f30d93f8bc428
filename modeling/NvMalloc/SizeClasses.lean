/-
# Size classes

How jemalloc rounds a request.  Sizes up to `SMALL_MAXCLASS` go to one of 32 bins through a table
with one entry for every 8 bytes (`SMALL_SIZE2BIN`), sizes up to `arena_maxclass` to whole pages
and all others to whole chunks (`s2u`); `sa2u` does the same for a request with an alignment.

The table gives the least class that is large enough (`isLeast_smallSize2bin`).  `sa2u` never gives
less than asked for, gives sizes that satisfy the alignment, and gives 0 where the arithmetic of
`size_t` would overflow (`sa2u_served`).  The sizes are those of the build: pages of 8192 bytes
(`STATIC_PAGE_SHIFT` 13) and a chunk size that is fixed at start (`opt_lg_chunk`).
-/
import NvMalloc.Rounding

namespace Jemalloc

/-! ## Constants -/

/-- `LG_PAGE`. -/
def lgPage : ℕ := 13

/-- `PAGE`. -/
def page : ℕ := 2 ^ lgPage

theorem page_eq : page = 8192 := rfl

theorem page_pos : 0 < page := by decide

/-- The options that are read once at start: `opt_lg_chunk`, in the range that `malloc_conf_init`
accepts, and `opt_redzone`. -/
structure Config where
  lgChunk : ℕ
  redzone : Bool
  lgChunk_ge : lgPage + 2 ≤ lgChunk
  lgChunk_le : lgChunk ≤ 63

namespace Config

variable (c : Config)

/-- `chunksize`. -/
def chunksize : ℕ := 2 ^ c.lgChunk

/-- `chunk_npages`. -/
def chunkNpages : ℕ := 2 ^ (c.lgChunk - lgPage)

/-- One round of the loop of `arena_boot`: the pages that the chunk header takes when its page map
leaves out `bias` pages.  The map starts at offset 40 and has 24 bytes for each page. -/
def headerPages (bias : ℕ) : ℕ :=
  let headerSize := 40 + 24 * (c.chunkNpages - bias)
  headerSize / page + if headerSize % page ≠ 0 then 1 else 0

/-- `map_bias`, after the three rounds. -/
def mapBias : ℕ := c.headerPages (c.headerPages (c.headerPages 0))

/-- `arena_maxclass`. -/
def arenaMaxclass : ℕ := c.chunksize - c.mapBias * page

theorem chunksize_eq : c.chunksize = c.chunkNpages * page := by
  have := c.lgChunk_ge
  rw [chunksize, chunkNpages, page, ← pow_add]
  congr 1
  omega

theorem four_le_chunkNpages : 4 ≤ c.chunkNpages := by
  have := c.lgChunk_ge
  calc 4 = 2 ^ 2 := rfl
    _ ≤ c.chunkNpages := Nat.pow_le_pow_right (by decide) (by omega)

theorem chunksize_pos : 0 < c.chunksize := Nat.two_pow_pos _

theorem chunksize_le : c.chunksize ≤ 2 ^ 63 := Nat.pow_le_pow_right (by decide) c.lgChunk_le

theorem page_dvd_chunksize : page ∣ c.chunksize := by
  rw [chunksize_eq]
  exact Nat.dvd_mul_left _ _

/-- The pages are enough for the header. -/
theorem header_le (bias : ℕ) :
    40 + 24 * (c.chunkNpages - bias) ≤ c.headerPages bias * page := by
  unfold headerPages page lgPage
  simp only
  split <;> omega

theorem headerPages_antitone {b b' : ℕ} (h : b ≤ b') : c.headerPages b' ≤ c.headerPages b := by
  unfold headerPages page lgPage
  simp only
  split <;> split <;> omega

theorem headerPages_lt : c.headerPages 0 < c.chunkNpages := by
  have := c.four_le_chunkNpages
  unfold headerPages page lgPage
  simp only
  split <;> omega

theorem headerPages_pos (bias : ℕ) : 0 < c.headerPages bias := by
  have := c.header_le bias
  rcases Nat.eq_zero_or_pos (c.headerPages bias) with h0 | h
  · rw [h0] at this
    omega
  · exact h

theorem mapBias_pos : 0 < c.mapBias := c.headerPages_pos _

theorem mapBias_le : c.mapBias ≤ c.headerPages 0 := c.headerPages_antitone (Nat.zero_le _)

theorem mapBias_lt : c.mapBias < c.chunkNpages := c.mapBias_le.trans_lt c.headerPages_lt

theorem arenaMaxclass_eq : c.arenaMaxclass = (c.chunkNpages - c.mapBias) * page := by
  rw [arenaMaxclass, chunksize_eq, Nat.sub_mul]

theorem page_dvd_arenaMaxclass : page ∣ c.arenaMaxclass := by
  rw [arenaMaxclass_eq]
  exact Nat.dvd_mul_left _ _

theorem arenaMaxclass_lt : c.arenaMaxclass < c.chunksize := by
  have h₁ := c.mapBias_pos
  have h₂ := c.chunksize_pos
  rw [arenaMaxclass]
  have : 0 < c.mapBias * page := Nat.mul_pos h₁ page_pos
  omega

end Config

/-! ## The table -/

/-- `SIZE_CLASSES`: the bins with the distance to the class before and the size. -/
def sizeClasses : List (ℕ × ℕ × ℕ) :=
  [(0, 8, 8), (1, 8, 16), (2, 16, 32), (3, 16, 48), (4, 16, 64), (5, 16, 80), (6, 16, 96),
    (7, 16, 112), (8, 16, 128), (9, 32, 160), (10, 32, 192), (11, 32, 224), (12, 32, 256),
    (13, 64, 320), (14, 64, 384), (15, 64, 448), (16, 64, 512), (17, 128, 640), (18, 128, 768),
    (19, 128, 896), (20, 128, 1024), (21, 256, 1280), (22, 256, 1536), (23, 256, 1792),
    (24, 256, 2048), (25, 512, 2560), (26, 512, 3072), (27, 512, 3584), (28, 512, 4096),
    (29, 1024, 5120), (30, 1024, 6144), (31, 1024, 7168)]

/-- `NBINS`. -/
def nbins : ℕ := 32

/-- `SMALL_MAXCLASS`. -/
def smallMaxclass : ℕ := 7168

/-- The table that the macros `S2B_8` to `S2B_8192` expand to: an entry for every 8 bytes. -/
def size2binTable (classes : List (ℕ × ℕ × ℕ)) : List ℕ :=
  classes.flatMap fun x => List.replicate (x.2.1 / 8) x.1

/-- `small_size2bin`. -/
def smallSize2binTable : List ℕ := size2binTable sizeClasses

/-- `SMALL_SIZE2BIN`.  The request is never 0: `je_malloc` takes 1 in its place. -/
def smallSize2bin (s : ℕ) : ℕ := smallSize2binTable.getD ((s - 1) / 8) 0

/-- `arena_bin_info[bin].reg_size`. -/
def regSize (bin : ℕ) : ℕ := (sizeClasses.map fun x => x.2.2).getD bin 0

/-- Each class lies a multiple of 8 above the one before, the first one above `low`. -/
def Chained : ℕ → List (ℕ × ℕ × ℕ) → Prop
  | _, [] => True
  | low, (_, delta, size) :: rest =>
    8 ∣ delta ∧ 0 < delta ∧ size = low + delta ∧ Chained size rest

instance : (low : ℕ) → (classes : List (ℕ × ℕ × ℕ)) → Decidable (Chained low classes)
  | _, [] => isTrue trivial
  | low, (_, delta, size) :: rest =>
    have : Decidable (Chained size rest) := instDecidableChained size rest
    inferInstanceAs (Decidable (8 ∣ delta ∧ 0 < delta ∧ size = low + delta ∧ Chained size rest))

/-- An entry of the table is the bin of the class that the entry's bytes are in. -/
theorem exists_class_of_getElem? {low i b : ℕ} {classes : List (ℕ × ℕ × ℕ)}
    (hc : Chained low classes) (h : (size2binTable classes)[i]? = some b) :
    ∃ delta size, (b, delta, size) ∈ classes ∧ size ≤ low + 8 * i + delta ∧ low + 8 * i < size := by
  induction classes generalizing low i with
  | nil => simp [size2binTable] at h
  | cons x rest ih =>
    obtain ⟨bin, delta, size⟩ := x
    obtain ⟨⟨k, rfl⟩, hpos, rfl, hrest⟩ := hc
    have hk : 8 * k / 8 = k := by omega
    rw [size2binTable, List.flatMap_cons, hk] at h
    by_cases hi : i < k
    · rw [List.getElem?_append_left (by simpa using hi), List.getElem?_replicate, if_pos hi] at h
      cases h
      exact ⟨8 * k, low + 8 * k, List.mem_cons_self, by omega, by omega⟩
    · rw [List.getElem?_append_right (by simpa using hi), List.length_replicate] at h
      obtain ⟨d, s, hmem, hle, hlt⟩ := ih hrest h
      exact ⟨d, s, List.mem_cons_of_mem _ hmem, by omega, by omega⟩

/-- The classes: the sizes of the regions of the bins. -/
def IsClass (u : ℕ) : Prop := ∃ x ∈ sizeClasses, x.2.2 = u

theorem chained_sizeClasses : Chained 0 sizeClasses := by decide

theorem regSize_of_mem : ∀ x ∈ sizeClasses, regSize x.1 = x.2.2 := by decide

theorem class_bounds : ∀ x ∈ sizeClasses,
    8 ∣ x.2.2 ∧ 0 < x.2.2 ∧ x.2.2 ≤ smallMaxclass ∧ x.1 < nbins ∧ x.2.1 ≤ x.2.2 := by decide

/-- Nothing lies between a class and the one before. -/
theorem class_gap : ∀ x ∈ sizeClasses, ∀ y ∈ sizeClasses,
    x.2.2 - x.2.1 < y.2.2 → x.2.2 ≤ y.2.2 := by decide

/-- A power of two that does not divide a class has no multiple in the gap below the class. -/
theorem class_align : ∀ x ∈ sizeClasses, ∀ k < 13,
    2 ^ k ∣ x.2.2 ∨ (x.2.2 - x.2.1) / 2 ^ k = x.2.2 / 2 ^ k := by decide

theorem isClass_regSize : ∀ bin < nbins, IsClass (regSize bin) := by
  unfold IsClass
  decide

theorem IsClass.pos {u : ℕ} (h : IsClass u) : 0 < u := by
  obtain ⟨x, hx, rfl⟩ := h
  exact (class_bounds x hx).2.1

theorem IsClass.le_smallMaxclass {u : ℕ} (h : IsClass u) : u ≤ smallMaxclass := by
  obtain ⟨x, hx, rfl⟩ := h
  exact (class_bounds x hx).2.2.1

theorem length_smallSize2binTable : smallSize2binTable.length = 896 := by
  rw [smallSize2binTable, size2binTable, List.length_flatMap]
  simp only [List.length_replicate]
  decide

/-- The class of a small request: `s` lies in the gap below it. -/
theorem exists_class_smallSize2bin {s : ℕ} (hs : 0 < s) (hle : s ≤ smallMaxclass) :
    ∃ x ∈ sizeClasses, smallSize2bin s = x.1 ∧ regSize (smallSize2bin s) = x.2.2 ∧
      s ≤ x.2.2 ∧ x.2.2 - x.2.1 < s := by
  rw [smallMaxclass] at hle
  have hi : (s - 1) / 8 < smallSize2binTable.length := by
    rw [length_smallSize2binTable]
    omega
  have hget : smallSize2binTable[(s - 1) / 8]? = some (smallSize2bin s) := by
    rw [smallSize2bin, List.getD_eq_getElem _ _ hi, List.getElem?_eq_getElem hi]
  obtain ⟨delta, size, hmem, hupper, hlower⟩ :=
    exists_class_of_getElem? chained_sizeClasses hget
  have hdvd : 8 ∣ size := (class_bounds _ hmem).1
  refine ⟨_, hmem, rfl, regSize_of_mem _ hmem, ?_, ?_⟩
  · show s ≤ size
    omega
  · show size - delta < s
    omega

/-- The table gives the least class that holds the request. -/
theorem isLeast_smallSize2bin {s : ℕ} (hs : 0 < s) (hle : s ≤ smallMaxclass) :
    IsLeast {u | IsClass u ∧ s ≤ u} (regSize (smallSize2bin s)) := by
  obtain ⟨x, hx, -, hreg, hlow, hgap⟩ := exists_class_smallSize2bin hs hle
  rw [hreg]
  refine ⟨⟨⟨x, hx, rfl⟩, hlow⟩, ?_⟩
  rintro u ⟨⟨y, hy, rfl⟩, hsu⟩
  exact class_gap x hx y hy (hgap.trans_le hsu)

theorem regSize_smallSize2bin_of_isClass {u : ℕ} (h : IsClass u) :
    regSize (smallSize2bin u) = u := by
  have hleast := isLeast_smallSize2bin h.pos h.le_smallMaxclass
  exact le_antisymm (hleast.2 ⟨h, le_rfl⟩) hleast.1.2

/-- A multiple of a power of two goes to a class that is such a multiple too. -/
theorem dvd_regSize_smallSize2bin {s k : ℕ} (hs : 0 < s) (hle : s ≤ smallMaxclass)
    (hdvd : 2 ^ k ∣ s) : 2 ^ k ∣ regSize (smallSize2bin s) := by
  obtain ⟨x, hx, -, hreg, hlow, hgap⟩ := exists_class_smallSize2bin hs hle
  have hk : k < 13 := by
    refine (Nat.pow_lt_pow_iff_right (a := 2) (by decide)).mp ?_
    have := Nat.le_of_dvd hs hdvd
    rw [smallMaxclass] at hle
    omega
  rw [hreg]
  refine (class_align x hx k hk).resolve_right ?_
  intro hdiv
  -- the multiple `s` would have the same quotient as a smaller number
  obtain ⟨m, rfl⟩ := hdvd
  have hm : m ≤ x.2.2 / 2 ^ k := by
    rw [Nat.le_div_iff_mul_le (Nat.two_pow_pos k), Nat.mul_comm]
    exact hlow
  have hm' : (x.2.2 - x.2.1) / 2 ^ k < m := by
    rw [Nat.div_lt_iff_lt_mul (Nat.two_pow_pos k), Nat.mul_comm m]
    exact hgap
  omega

/-! ## Rounding in `size_t` -/

/-- `ALIGNMENT_CEILING`. -/
def alignmentCeiling (s alignment : ℕ) : ℕ :=
  (s + (alignment - 1)) % 2 ^ 64 &&& (2 ^ 64 - alignment)

/-- `PAGE_CEILING`. -/
def pageCeiling (s : ℕ) : ℕ := alignmentCeiling s page

/-- `CHUNK_CEILING`. -/
def chunkCeiling (c : Config) (s : ℕ) : ℕ := alignmentCeiling s c.chunksize

section Ceiling

variable {s k : ℕ}

theorem alignmentCeiling_eq (hk : k < 64) (h : s + 2 ^ k ≤ 2 ^ 64) :
    alignmentCeiling s (2 ^ k) = ceilTo (2 ^ k) s := by
  have hpos := Nat.two_pow_pos k
  have hlt : s + (2 ^ k - 1) < 2 ^ 64 := by omega
  rw [alignmentCeiling, Nat.mod_eq_of_lt hlt, land_neg_two_pow hk hlt, ceilTo]

/-- Where the sum overflows, the result is 0. -/
theorem alignmentCeiling_eq_zero (hk : k < 64) (hs : s < 2 ^ 64) (h : 2 ^ 64 < s + 2 ^ k) :
    alignmentCeiling s (2 ^ k) = 0 := by
  have hmod : (s + (2 ^ k - 1)) % 2 ^ 64 = s + (2 ^ k - 1) - 2 ^ 64 := by
    have hle : 2 ^ k ≤ 2 ^ 63 := Nat.pow_le_pow_right (by decide) (by omega)
    rw [Nat.mod_eq_sub_mod (by omega), Nat.mod_eq_of_lt (by omega)]
  rw [alignmentCeiling, land_neg_two_pow hk (Nat.mod_lt _ (by decide)), hmod]
  exact floorTo_eq_zero (by omega)

/-- The test `ALIGNMENT_CEILING(s, a) < s` finds exactly the overflows. -/
theorem alignmentCeiling_lt_iff (hk : k < 64) (hs : s < 2 ^ 64) (hpos : 0 < s) :
    alignmentCeiling s (2 ^ k) < s ↔ 2 ^ 64 < s + 2 ^ k := by
  constructor
  · intro hlt
    by_contra h
    rw [alignmentCeiling_eq hk (by omega)] at hlt
    exact absurd (le_ceilTo (Nat.two_pow_pos k) (x := s)) (by omega)
  · intro h
    rwa [alignmentCeiling_eq_zero hk hs h]

end Ceiling

/-! ## Usable sizes -/

/-- `s2u`. -/
def s2u (c : Config) (size : ℕ) : ℕ :=
  if size ≤ smallMaxclass then regSize (smallSize2bin size)
  else if size ≤ c.arenaMaxclass then pageCeiling size
  else chunkCeiling c size

/-- `sa2u`. -/
def sa2u (c : Config) (size alignment : ℕ) : ℕ :=
  let usize := alignmentCeiling size alignment
  if usize < size then 0
  else if usize ≤ c.arenaMaxclass ∧ alignment ≤ page then
    if usize ≤ smallMaxclass then regSize (smallSize2bin usize) else pageCeiling usize
  else
    let alignment := pageCeiling alignment
    let usize := pageCeiling size
    if usize < size ∨ (usize + alignment) % 2 ^ 64 < usize then 0
    else
      let runSize := (usize + alignment - page) % 2 ^ 64
      if runSize ≤ c.arenaMaxclass then pageCeiling usize else chunkCeiling c usize

/-- The sizes that the allocator hands out: the classes, whole pages up to `arena_maxclass` and
whole chunks. -/
def Usable (c : Config) (u : ℕ) : Prop :=
  IsClass u ∨ (page ∣ u ∧ 0 < u ∧ u ≤ c.arenaMaxclass) ∨ (c.chunksize ∣ u ∧ 0 < u)

section UsableSizes

variable {c : Config} {s u k : ℕ}

theorem pageCeiling_eq (h : s + page ≤ 2 ^ 64) : pageCeiling s = ceilTo page s :=
  alignmentCeiling_eq (k := lgPage) (by decide) h

theorem chunkCeiling_eq (h : s + c.chunksize ≤ 2 ^ 64) :
    chunkCeiling c s = ceilTo c.chunksize s :=
  alignmentCeiling_eq (Nat.lt_of_le_of_lt c.lgChunk_le (by decide)) h

theorem Config.page_le_chunksize (c : Config) : 4 * page ≤ c.chunksize := by
  rw [c.chunksize_eq]
  exact Nat.mul_le_mul_right page c.four_le_chunkNpages

theorem Config.smallMaxclass_lt (c : Config) : smallMaxclass < c.arenaMaxclass := by
  have h : 1 * page ≤ (c.chunkNpages - c.mapBias) * page :=
    Nat.mul_le_mul_right page (by have := c.mapBias_lt; omega)
  rw [← c.arenaMaxclass_eq, page_eq] at h
  rw [smallMaxclass]
  omega

/-- A usable size above the classes is a multiple of the page. -/
theorem Usable.page_dvd (h : Usable c u) (hsmall : smallMaxclass < u) : page ∣ u := by
  rcases h with hclass | ⟨hdvd, -⟩ | ⟨hdvd, -⟩
  · exact absurd hclass.le_smallMaxclass (by omega)
  · exact hdvd
  · exact c.page_dvd_chunksize.trans hdvd

/-- A usable size above `arena_maxclass` is a multiple of the chunk. -/
theorem Usable.chunksize_dvd (h : Usable c u) (hlarge : c.arenaMaxclass < u) :
    c.chunksize ∣ u := by
  have := c.smallMaxclass_lt
  rcases h with hclass | ⟨-, -, hle⟩ | ⟨hdvd, -⟩
  · exact absurd hclass.le_smallMaxclass (by omega)
  · omega
  · exact hdvd

/-- `s2u` gives the least usable size that holds the request. -/
theorem isLeast_s2u (hs : 0 < s) (hlt : s + c.chunksize ≤ 2 ^ 64) :
    IsLeast {u | Usable c u ∧ s ≤ u} (s2u c s) := by
  have hchunk := c.page_le_chunksize
  have hchunkPos := c.chunksize_pos
  rw [s2u]
  split_ifs with hsmall hlarge
  · have hleast := isLeast_smallSize2bin hs hsmall
    refine ⟨⟨.inl hleast.1.1, hleast.1.2⟩, ?_⟩
    rintro u ⟨hu, hsu⟩
    by_cases hclass : u ≤ smallMaxclass
    · rcases hu with hu | ⟨hdvd, hpos, -⟩ | ⟨hdvd, hpos⟩
      · exact hleast.2 ⟨hu, hsu⟩
      · have := Nat.le_of_dvd hpos hdvd
        rw [page_eq] at this
        rw [smallMaxclass] at hclass
        omega
      · have := Nat.le_of_dvd hpos hdvd
        rw [page_eq] at hchunk
        rw [smallMaxclass] at hclass
        omega
    · exact hleast.1.1.le_smallMaxclass.trans (by omega)
  · rw [pageCeiling_eq (by omega)]
    refine ⟨⟨.inr (.inl ⟨dvd_ceilTo _ _, ?_, ?_⟩), le_ceilTo page_pos⟩, ?_⟩
    · exact hs.trans_le (le_ceilTo page_pos)
    · exact ceilTo_le c.page_dvd_arenaMaxclass hlarge
    · rintro u ⟨hu, hsu⟩
      exact ceilTo_le (hu.page_dvd (by omega)) hsu
  · rw [chunkCeiling_eq hlt]
    refine ⟨⟨.inr (.inr ⟨dvd_ceilTo _ _, ?_⟩), le_ceilTo hchunkPos⟩, ?_⟩
    · exact hs.trans_le (le_ceilTo hchunkPos)
    · rintro u ⟨hu, hsu⟩
      exact ceilTo_le (hu.chunksize_dvd (by omega)) hsu

/-! ## Requests with an alignment -/

/-- What `ipalloc` can serve: a class whose regions are aligned, whole pages such that a run with
room for the alignment fits into a chunk, or whole chunks. -/
inductive Aligned (c : Config) (u k : ℕ) : Prop
  | small (hclass : IsClass u) (hdvd : 2 ^ k ∣ u)
  | large (hsmall : smallMaxclass < u) (hdvd : page ∣ u)
      (hfit : u + max page (2 ^ k) ≤ c.arenaMaxclass + page)
  | huge (hbig : c.arenaMaxclass + page < u + max page (2 ^ k)) (hdvd : c.chunksize ∣ u)
      (hend : u + 2 ^ k ≤ 2 ^ 64) (hpos : 0 < u)

theorem page_dvd_max (k : ℕ) : page ∣ max page (2 ^ k) := by
  rcases le_total lgPage k with h | h
  · have hle : page ≤ 2 ^ k := Nat.pow_le_pow_right (by decide) h
    rw [max_eq_right hle]
    exact Nat.pow_dvd_pow 2 h
  · have hle : 2 ^ k ≤ page := Nat.pow_le_pow_right (by decide) h
    rw [max_eq_left hle]

/-- Rounding an alignment up to a page. -/
theorem pageCeiling_two_pow (hk : k < 64) : pageCeiling (2 ^ k) = max page (2 ^ k) := by
  have hle : 2 ^ k ≤ 2 ^ 63 := Nat.pow_le_pow_right (by decide) (by omega)
  rw [pageCeiling_eq (by rw [page_eq]; omega)]
  refine le_antisymm (ceilTo_le (page_dvd_max k) (le_max_right _ _)) ?_
  refine max_le (Nat.le_of_dvd ?_ (dvd_ceilTo _ _)) (le_ceilTo page_pos)
  exact (Nat.two_pow_pos k).trans_le (le_ceilTo page_pos)

theorem pageCeiling_of_dvd (hs : s < 2 ^ 64) (hdvd : page ∣ s) : pageCeiling s = s := by
  have hle : s + page ≤ 2 ^ 64 := by
    obtain ⟨m, rfl⟩ := hdvd
    rw [page_eq] at hs ⊢
    omega
  rw [pageCeiling_eq hle, ceilTo_eq hdvd]

/-- The sum overflows already in the first rounding. -/
theorem sa2u_of_overflow (hk : k < 64) (hs : s < 2 ^ 64) (hpos : 0 < s)
    (h : 2 ^ 64 < s + 2 ^ k) : sa2u c s (2 ^ k) = 0 := by
  rw [sa2u, if_pos ((alignmentCeiling_lt_iff hk hs hpos).mpr h)]

/-- The branch for alignments up to a page. -/
theorem sa2u_eq_of_le_page (hk : k < 64) (hpos : 0 < s) (h : s + 2 ^ k ≤ 2 ^ 64)
    (hfit : ceilTo (2 ^ k) s ≤ c.arenaMaxclass) (hpage : 2 ^ k ≤ page) :
    sa2u c s (2 ^ k) =
      if ceilTo (2 ^ k) s ≤ smallMaxclass then regSize (smallSize2bin (ceilTo (2 ^ k) s))
      else ceilTo page (ceilTo (2 ^ k) s) := by
  have hchunk := c.page_le_chunksize
  have hmax := c.arenaMaxclass_lt
  have hsize := c.chunksize_le
  have hno : ¬ alignmentCeiling s (2 ^ k) < s := by
    rw [alignmentCeiling_lt_iff hk (by have := Nat.two_pow_pos k; omega) hpos]
    omega
  rw [sa2u]
  simp only [if_neg hno]
  rw [alignmentCeiling_eq hk h, if_pos ⟨hfit, hpage⟩, pageCeiling_eq (by rw [page_eq]; omega)]

/-- The branch for alignments above a page and for sizes above `arena_maxclass`. -/
theorem sa2u_eq_of_large (hk : k < 64) (hpos : 0 < s) (h : s + 2 ^ k ≤ 2 ^ 64)
    (hlarge : ¬ (ceilTo (2 ^ k) s ≤ c.arenaMaxclass ∧ 2 ^ k ≤ page)) :
    sa2u c s (2 ^ k) =
      if 2 ^ 64 < s + page ∨ 2 ^ 64 ≤ ceilTo page s + max page (2 ^ k) then 0
      else if ceilTo page s + max page (2 ^ k) ≤ c.arenaMaxclass + page then ceilTo page s
      else chunkCeiling c (ceilTo page s) := by
  have hs : s < 2 ^ 64 := by
    have := Nat.two_pow_pos k
    omega
  have hno : ¬ alignmentCeiling s (2 ^ k) < s := by
    rw [alignmentCeiling_lt_iff hk hs hpos]
    omega
  rw [sa2u]
  simp only [if_neg hno]
  rw [alignmentCeiling_eq hk h, if_neg hlarge, pageCeiling_two_pow hk]
  have hsum : max page (2 ^ k) ≤ 2 ^ 63 :=
    max_le (by decide) (Nat.pow_le_pow_right (by decide) (by omega))
  have hpage : pageCeiling s < s ↔ 2 ^ 64 < s + page :=
    alignmentCeiling_lt_iff (k := lgPage) (by decide) hs hpos
  by_cases hover : 2 ^ 64 < s + page
  · rw [if_pos (.inl (hpage.mpr hover)), if_pos (.inl hover)]
  · have hge : page ≤ max page (2 ^ k) := le_max_left _ _
    rw [pageCeiling_eq (by omega)] at hpage ⊢
    have hceil : ceilTo page s ≤ 2 ^ 64 := ceilTo_le (by decide) hs.le
    by_cases hwrap : 2 ^ 64 ≤ ceilTo page s + max page (2 ^ k)
    · have hmod : (ceilTo page s + max page (2 ^ k)) % 2 ^ 64 < ceilTo page s := by
        rw [Nat.mod_eq_sub_mod hwrap, Nat.mod_eq_of_lt (by omega)]
        omega
      rw [if_pos (.inr hmod), if_pos (.inr hwrap)]
    · have hlt : ceilTo page s < 2 ^ 64 := by omega
      have hno : ¬ (ceilTo page s < s ∨
          (ceilTo page s + max page (2 ^ k)) % 2 ^ 64 < ceilTo page s) := by
        rw [Nat.mod_eq_of_lt (by omega), hpage]
        omega
      have hrun : (ceilTo page s + max page (2 ^ k) - page) % 2 ^ 64 =
          ceilTo page s + max page (2 ^ k) - page := Nat.mod_eq_of_lt (by omega)
      rw [if_neg hno, if_neg (not_or.mpr ⟨hover, hwrap⟩), hrun,
        pageCeiling_of_dvd hlt (dvd_ceilTo _ _)]
      simp only [Nat.sub_le_iff_le_add]

/-- Whole chunks that leave room for an alignment below `2^64`: the alignment or the chunk is a
multiple of the other, so rounding up cannot pass the room. -/
theorem chunkCeiling_bounds (h : u + 2 ^ k ≤ 2 ^ 64) (hne : chunkCeiling c u ≠ 0) :
    u ≤ chunkCeiling c u ∧ c.chunksize ∣ chunkCeiling c u ∧
      chunkCeiling c u + 2 ^ k ≤ 2 ^ 64 := by
  have hpow := Nat.two_pow_pos k
  have hlg : c.lgChunk < 64 := Nat.lt_of_le_of_lt c.lgChunk_le (by decide)
  have hroom : u + c.chunksize ≤ 2 ^ 64 := by
    by_contra hover
    exact hne (alignmentCeiling_eq_zero hlg (by omega) (by rw [Config.chunksize] at hover; omega))
  rw [chunkCeiling_eq hroom]
  refine ⟨le_ceilTo c.chunksize_pos, dvd_ceilTo _ _, ?_⟩
  have hend : c.chunksize ∣ 2 ^ 64 := Nat.pow_dvd_pow 2 hlg.le
  rcases le_total k c.lgChunk with hle | hle
  · have hchunk : 2 ^ k ≤ c.chunksize := Nat.pow_le_pow_right (by decide) hle
    have hceil : ceilTo c.chunksize u ≤ 2 ^ 64 - c.chunksize :=
      ceilTo_le (Nat.dvd_sub hend dvd_rfl) (by omega)
    omega
  · have hceil : ceilTo c.chunksize u ≤ 2 ^ 64 - 2 ^ k :=
      ceilTo_le (Nat.dvd_sub hend (Nat.pow_dvd_pow 2 hle)) (by omega)
    omega

/-- What `sa2u` returns is not below the request and can be served with the alignment. -/
theorem aligned_sa2u (hk : k < 64) (hpos : 0 < s) (hs : s < 2 ^ 64)
    (hne : sa2u c s (2 ^ k) ≠ 0) :
    s ≤ sa2u c s (2 ^ k) ∧ Aligned c (sa2u c s (2 ^ k)) k := by
  have hover : s + 2 ^ k ≤ 2 ^ 64 := by
    by_contra h
    exact hne (sa2u_of_overflow hk hs hpos (by omega))
  have hkpos := Nat.two_pow_pos k
  by_cases hcase : ceilTo (2 ^ k) s ≤ c.arenaMaxclass ∧ 2 ^ k ≤ page
  · have hle : s ≤ ceilTo (2 ^ k) s := le_ceilTo hkpos
    rw [sa2u_eq_of_le_page hk hpos hover hcase.1 hcase.2]
    split_ifs with hsmall
    · have hleast := isLeast_smallSize2bin (hpos.trans_le hle) hsmall
      refine ⟨hle.trans hleast.1.2, .small hleast.1.1 ?_⟩
      exact dvd_regSize_smallSize2bin (hpos.trans_le hle) hsmall (dvd_ceilTo _ _)
    · have hle' : ceilTo (2 ^ k) s ≤ ceilTo page (ceilTo (2 ^ k) s) := le_ceilTo page_pos
      refine ⟨hle.trans hle', .large (by omega) (dvd_ceilTo _ _) ?_⟩
      rw [max_eq_left hcase.2]
      exact Nat.add_le_add_right (ceilTo_le c.page_dvd_arenaMaxclass hcase.1) page
  · rw [sa2u_eq_of_large hk hpos hover hcase] at hne ⊢
    have hle : s ≤ ceilTo page s := le_ceilTo page_pos
    split_ifs at hne ⊢ with hwrap hfit
    · exact absurd rfl hne
    · have hge : page ≤ ceilTo page s :=
        Nat.le_of_dvd (hpos.trans_le hle) (dvd_ceilTo page s)
      refine ⟨hle, .large ?_ (dvd_ceilTo page s) hfit⟩
      have := page_eq
      rw [smallMaxclass]
      omega
    · obtain ⟨hge, hdvd, hend⟩ := chunkCeiling_bounds (k := k) (by omega) hne
      exact ⟨hle.trans hge, .huge (by omega) hdvd hend (hpos.trans_le (hle.trans hge))⟩

/-- The request is refused only near the end of the address space. -/
theorem sa2u_ne_zero (hk : k < 64) (hpos : 0 < s) (h : s + 2 ^ k + c.chunksize ≤ 2 ^ 64) :
    sa2u c s (2 ^ k) ≠ 0 := by
  have hchunk := c.page_le_chunksize
  have hpage := page_pos
  have hpow := Nat.two_pow_pos k
  have hle : s ≤ ceilTo page s := le_ceilTo page_pos
  have hlt : ceilTo page s < s + page := ceilTo_lt_add page_pos
  by_cases hcase : ceilTo (2 ^ k) s ≤ c.arenaMaxclass ∧ 2 ^ k ≤ page
  · have hle' : s ≤ ceilTo (2 ^ k) s := le_ceilTo (Nat.two_pow_pos k)
    rw [sa2u_eq_of_le_page hk hpos (by omega) hcase.1 hcase.2]
    split_ifs with hsmall
    · exact (isLeast_smallSize2bin (hpos.trans_le hle') hsmall).1.1.pos.ne'
    · have := le_ceilTo page_pos (x := ceilTo (2 ^ k) s)
      omega
  · rw [sa2u_eq_of_large hk hpos (by omega) hcase, if_neg]
    · split_ifs
      · omega
      · rw [chunkCeiling_eq]
        · have := le_ceilTo c.chunksize_pos (x := ceilTo page s)
          omega
        · have hceil : ceilTo page s ≤ 2 ^ 64 - c.chunksize :=
            ceilTo_le (Nat.dvd_sub (Nat.pow_dvd_pow 2 (by decide)) c.page_dvd_chunksize)
              (by omega)
          omega
    · have hmax : max page (2 ^ k) ≤ page + 2 ^ k :=
        max_le (Nat.le_add_right _ _) (Nat.le_add_left _ _)
      generalize max page (2 ^ k) = m at hmax ⊢
      omega

/-- A size that can be served stays as it is, unless size and alignment fill the address space. -/
theorem sa2u_of_aligned (hk : k < 64) (hu : Aligned c u k) :
    sa2u c u (2 ^ k) = if u + 2 ^ k = 2 ^ 64 then 0 else u := by
  have hmax := c.arenaMaxclass_lt
  have hsize := c.chunksize_le
  have hsmall := c.smallMaxclass_lt
  have hpow := Nat.two_pow_pos k
  cases hu with
  | small hclass hdvd =>
    have hle := hclass.le_smallMaxclass
    have hpage : 2 ^ k ≤ page := (Nat.le_of_dvd hclass.pos hdvd).trans (hle.trans (by decide))
    rw [page_eq] at hpage
    rw [sa2u_eq_of_le_page hk hclass.pos (by omega) (by rw [ceilTo_eq hdvd]; omega) hpage,
      ceilTo_eq hdvd, if_pos hle, regSize_smallSize2bin_of_isClass hclass, if_neg (by omega)]
  | large hlarge hdvd hfit =>
    have hright : 2 ^ k ≤ max page (2 ^ k) := le_max_right _ _
    have hpage : page = 8192 := page_eq
    have hend : u + 2 ^ k < 2 ^ 64 := by
      generalize max page (2 ^ k) = m at hfit hright
      omega
    rw [if_neg hend.ne]
    by_cases hcase : ceilTo (2 ^ k) u ≤ c.arenaMaxclass ∧ 2 ^ k ≤ page
    · have hdvd' : 2 ^ k ∣ u := by
        have hle : k ≤ lgPage := (Nat.pow_le_pow_iff_right (a := 2) (by decide)).mp hcase.2
        exact (Nat.pow_dvd_pow 2 hle).trans hdvd
      rw [sa2u_eq_of_le_page hk (by omega) hend.le hcase.1 hcase.2, ceilTo_eq hdvd',
        if_neg (by omega), ceilTo_eq hdvd]
    · rw [sa2u_eq_of_large hk (by omega) hend.le hcase, ceilTo_eq hdvd, if_neg ?_, if_pos hfit]
      generalize max page (2 ^ k) = m at hfit
      omega
  | huge hbig hdvd hend hpos =>
    have hle := Nat.le_of_dvd hpos hdvd
    have hfour := c.page_le_chunksize
    have hpage : page ∣ u := c.page_dvd_chunksize.trans hdvd
    have hcase : ¬ (ceilTo (2 ^ k) u ≤ c.arenaMaxclass ∧ 2 ^ k ≤ page) := by
      rintro ⟨hceil, hk'⟩
      rw [max_eq_left hk'] at hbig
      have := le_ceilTo hpow (x := u)
      omega
    have hroom : u + c.chunksize ≤ 2 ^ 64 := by
      have hdvd' : c.chunksize ∣ 2 ^ 64 - u :=
        Nat.dvd_sub (Nat.pow_dvd_pow 2 (c.lgChunk_le.trans (by decide))) hdvd
      have := Nat.le_of_dvd (by omega) hdvd'
      omega
    have hmax : 2 ^ 64 ≤ u + max page (2 ^ k) ↔ u + 2 ^ k = 2 ^ 64 := by
      rcases le_total (2 ^ k) page with h | h
      · rw [max_eq_left h]
        omega
      · rw [max_eq_right h]
        omega
    rw [sa2u_eq_of_large hk hpos hend hcase, ceilTo_eq hpage, chunkCeiling_eq hroom,
      ceilTo_eq hdvd, if_neg (not_le.mpr hbig)]
    by_cases hfull : u + 2 ^ k = 2 ^ 64
    · rw [if_pos (.inr (hmax.mpr hfull)), if_pos hfull]
    · rw [if_neg (by rw [hmax]; omega), if_neg hfull]

/-- **Requests with an alignment.**  `sa2u` refuses only requests near the end of the address space.
What it returns otherwise holds the request and can be served with the alignment, and asking again
for what it returned gives the same, as `ipalloc` asserts; the exception are sizes that fill the
address space together with the alignment. -/
theorem sa2u_served (hk : k < 64) (hpos : 0 < s) (hs : s < 2 ^ 64) :
    (s + 2 ^ k + c.chunksize ≤ 2 ^ 64 → sa2u c s (2 ^ k) ≠ 0) ∧
      (sa2u c s (2 ^ k) ≠ 0 →
        s ≤ sa2u c s (2 ^ k) ∧ Aligned c (sa2u c s (2 ^ k)) k ∧
          sa2u c (sa2u c s (2 ^ k)) (2 ^ k) =
            if sa2u c s (2 ^ k) + 2 ^ k = 2 ^ 64 then 0 else sa2u c s (2 ^ k)) := by
  refine ⟨sa2u_ne_zero hk hpos, ?_⟩
  intro hne
  obtain ⟨hle, haligned⟩ := aligned_sa2u hk hpos hs hne
  exact ⟨hle, haligned, sa2u_of_aligned hk haligned⟩

end UsableSizes

theorem default_lgChunk_ge : lgPage + 2 ≤ 24 := by decide

theorem default_lgChunk_le : 24 ≤ 63 := by decide

/-- The options without a configuration. -/
def defaultConfig : Config := ⟨24, false, default_lgChunk_ge, default_lgChunk_le⟩

/-- A request of 100 bytes gets the class of 112. -/
theorem isLeast_s2u_hundred : IsLeast {u | Usable defaultConfig u ∧ 100 ≤ u} 112 := by
  have hleast := isLeast_s2u (c := defaultConfig) (s := 100) (by decide) (by decide)
  have heq : s2u defaultConfig 100 = 112 := by decide
  rwa [heq] at hleast

/-- With an alignment of 64 the same request gets the class of 128. -/
theorem sa2u_served_hundred :
    sa2u defaultConfig 100 (2 ^ 6) = 128 ∧ Aligned defaultConfig 128 6 ∧
      sa2u defaultConfig 128 (2 ^ 6) = 128 := by
  have heq : sa2u defaultConfig 100 (2 ^ 6) = 128 := by decide
  obtain ⟨-, hserved⟩ :=
    sa2u_served (c := defaultConfig) (k := 6) (s := 100) (by decide) (by decide) (by decide)
  rw [heq] at hserved
  obtain ⟨-, haligned, hagain⟩ := hserved (by decide)
  exact ⟨heq, haligned, hagain⟩

/-- The assertion of `ipalloc` does not hold for a request of almost half the address space. -/
example : sa2u defaultConfig (2 ^ 63 - 8192) (2 ^ 63) = 2 ^ 63 ∧
    sa2u defaultConfig (2 ^ 63) (2 ^ 63) = 0 := by
  decide

-- Other modules need no more of `map_bias` than its bound `mapBias_le`.
attribute [irreducible] Config.mapBias

end Jemalloc
