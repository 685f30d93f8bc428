/-
# Flushing a range of bytes

`flush_cache(ptr, size)` calls `clflush` on `ptr`, `ptr + 64`, and so on.  Its counter is an
`unsigned int` that is compared with a 64-bit size, and it starts at the unaligned address.

So it returns exactly when the size leaves the counter room for one more line below `2^32`.
It then flushes one line for every 64 bytes of the size, rounded up, and these are all lines
of the range exactly when the range, which starts in the middle of a line, does not end in
one line more than its length suggests.
-/
import Mathlib

/-! ## The loop -/

/-- `CACHELINESZ`. -/
def cachelinesz : ℕ := 64

/-- The loop of `flush_cache` from counter `i` and pointer `ptr`: the addresses it passes to
`clflush`, unless it runs for more than `fuel` rounds. -/
def flushLoop (size : UInt64) : ℕ → UInt32 → UInt64 → Option (List UInt64)
  | 0, _, _ => none
  | fuel + 1, i, ptr =>
    -- the comparison is made in 64 bits, the addition to the counter in 32
    if i.toUInt64 < size then
      (flushLoop size fuel (i + .ofNat cachelinesz) (ptr + .ofNat cachelinesz)).map (ptr :: ·)
    else
      some []

/-- `flush_cache` returns after it has flushed the lines at these addresses. -/
def FlushCache (ptr size : UInt64) (flushed : List UInt64) : Prop :=
  ∃ fuel, flushLoop size fuel 0 ptr = some flushed

/-- The cache line of an address. -/
def byteLine (a : UInt64) : ℕ := a.toNat / cachelinesz

/-- Every line with a byte of `[ptr, ptr + size)` is flushed. -/
def CoversLines (ptr size : UInt64) (flushed : List UInt64) : Prop :=
  ∀ t < size.toNat, ∃ b ∈ flushed, byteLine b = byteLine (ptr + .ofNat t)

/-- `flush_cache` returns and has flushed every line of the range. -/
def FlushesRange (ptr size : UInt64) : Prop :=
  ∃ flushed, FlushCache ptr size flushed ∧ CoversLines ptr size flushed

/-! ## Termination -/

/-- The number of rounds. -/
def flushRounds (size : ℕ) : ℕ := (size + (cachelinesz - 1)) / cachelinesz

section Loop

variable {size : UInt64} {i : UInt32} {ptr : UInt64} {fuel : ℕ}

theorem lt_size_iff : i.toUInt64 < size ↔ i.toNat < size.toNat := by
  rw [UInt64.lt_iff_toNat_lt, UInt32.toNat_toUInt64]

theorem toNat_counter_succ : (i + .ofNat cachelinesz).toNat = (i.toNat + 64) % 2 ^ 32 := by
  rw [UInt32.toNat_add]
  rfl

/-- With a larger size the counter wraps and never reaches it. -/
theorem flushLoop_eq_none (hsize : 2 ^ 32 < size.toNat + 64) (hi : i.toNat % 64 = 0) :
    flushLoop size fuel i ptr = none := by
  induction fuel generalizing i ptr with
  | zero => rfl
  | succ fuel ih =>
    -- a multiple of the line size stays at least a line below `2 ^ 32`
    have hbelow : i.toNat < 2 ^ 32 := i.toNat_lt
    have hlt : i.toUInt64 < size := lt_size_iff.mpr (by omega)
    have hnext : (i + .ofNat cachelinesz).toNat % 64 = 0 := by
      rw [toNat_counter_succ]
      omega
    rw [flushLoop, if_pos hlt, ih hnext]
    rfl

/-- Otherwise the loop makes its rounds. -/
theorem flushLoop_eq_some (hsize : size.toNat + 64 ≤ 2 ^ 32) (m : ℕ)
    (hm : flushRounds size.toNat = i.toNat / 64 + m) (hi : i.toNat % 64 = 0) :
    flushLoop size (m + 1) i ptr =
      some ((List.range m).map fun j => ptr + .ofNat (64 * j)) := by
  unfold flushRounds cachelinesz at hm
  induction m generalizing i ptr with
  | zero =>
    have hdone : ¬ i.toUInt64 < size := by
      rw [lt_size_iff]
      omega
    rw [flushLoop, if_neg hdone]
    rfl
  | succ m ih =>
    have hlt : i.toUInt64 < size := lt_size_iff.mpr (by omega)
    have hnext : (i + .ofNat cachelinesz).toNat = i.toNat + 64 := by
      rw [toNat_counter_succ]
      omega
    have hrest : flushLoop size (m + 1) (i + .ofNat cachelinesz) (ptr + .ofNat cachelinesz) =
        some ((List.range m).map fun j => ptr + .ofNat cachelinesz + .ofNat (64 * j)) :=
      ih (by omega) (by omega)
    rw [flushLoop, if_pos hlt, hrest, Option.map_some, List.range_succ_eq_map, List.map_cons,
      List.map_map]
    have hfirst : ptr + UInt64.ofNat (64 * 0) = ptr := by simp
    have hlater : ∀ j, ptr + UInt64.ofNat cachelinesz + UInt64.ofNat (64 * j) =
        ptr + UInt64.ofNat (64 * (j + 1)) := by
      intro j
      rw [add_assoc, ← UInt64.ofNat_add]
      congr 2
      rw [cachelinesz]
      omega
    simp only [hfirst, hlater, Function.comp_def, Nat.succ_eq_add_one]

/-- More fuel does not change a result. -/
theorem flushLoop_mono {flushed : List UInt64} (h : flushLoop size fuel i ptr = some flushed)
    {fuel' : ℕ} (hle : fuel ≤ fuel') : flushLoop size fuel' i ptr = some flushed := by
  induction fuel generalizing i ptr flushed fuel' with
  | zero => cases h
  | succ fuel ih =>
    obtain ⟨k, rfl⟩ : ∃ k, fuel' = k + 1 := ⟨fuel' - 1, by omega⟩
    rw [flushLoop] at h ⊢
    split at h
    · next hlt =>
      obtain ⟨rest, hrest, rfl⟩ := Option.map_eq_some_iff.mp h
      rw [if_pos hlt, ih hrest (by omega)]
      rfl
    · next hge => rw [if_neg hge, h]

end Loop

/-- `flush_cache` returns exactly when the counter can pass the size. -/
theorem exists_flushCache_iff (ptr size : UInt64) :
    (∃ flushed, FlushCache ptr size flushed) ↔ size.toNat + 64 ≤ 2 ^ 32 := by
  constructor
  · rintro ⟨flushed, fuel, h⟩
    by_contra hbig
    rw [flushLoop_eq_none (by omega) rfl] at h
    cases h
  · intro hsize
    exact ⟨_, _, flushLoop_eq_some hsize (flushRounds size.toNat) (by simp) rfl⟩

/-- The addresses it flushes. -/
theorem flushCache_eq {ptr size : UInt64} {flushed : List UInt64}
    (h : FlushCache ptr size flushed) :
    flushed = (List.range (flushRounds size.toNat)).map fun j => ptr + .ofNat (64 * j) := by
  have hsize := (exists_flushCache_iff ptr size).mp ⟨flushed, h⟩
  obtain ⟨fuel, hfuel⟩ := h
  have hrounds : flushLoop size (flushRounds size.toNat + 1) 0 ptr = some
      ((List.range (flushRounds size.toNat)).map fun j => ptr + .ofNat (64 * j)) :=
    flushLoop_eq_some hsize _ (by simp) rfl
  have h₁ := flushLoop_mono hfuel (le_max_left fuel (flushRounds size.toNat + 1))
  have h₂ := flushLoop_mono hrounds (le_max_right fuel (flushRounds size.toNat + 1))
  exact Option.some.inj (h₁.symm.trans h₂)

/-! ## The lines of the range -/

/-- Lines of addresses less than `2 ^ 32` bytes behind `ptr` are the same only without regard
to the end of the address space. -/
theorem byteLine_add_eq_iff (ptr : UInt64) {s t : ℕ} (hs : s < 2 ^ 32) (ht : t < 2 ^ 32) :
    byteLine (ptr + .ofNat s) = byteLine (ptr + .ofNat t) ↔
      (ptr.toNat % 64 + s) / 64 = (ptr.toNat % 64 + t) / 64 := by
  have hptr : ptr.toNat < 2 ^ 64 := ptr.toNat_lt
  have hadd : ∀ u < 2 ^ 32, (ptr + UInt64.ofNat u).toNat = (ptr.toNat + u) % 2 ^ 64 := by
    intro u hu
    have hlt : u < UInt64.size := by
      rw [UInt64.size]
      omega
    rw [UInt64.toNat_add, UInt64.toNat_ofNat_of_lt' hlt]
  unfold byteLine cachelinesz
  rw [hadd s hs, hadd t ht]
  omega

/-- **Flushing a range.**  `flush_cache` returns and has flushed every cache line of the
range exactly when the size is at most `2 ^ 32 - 64` and, for a size other than 0, the
offset of the start in its line and that of the last byte, counted from the start, add up to
less than a line. -/
theorem flushesRange_iff (ptr size : UInt64) :
    FlushesRange ptr size ↔ size.toNat + 64 ≤ 2 ^ 32 ∧
      (size = 0 ∨ ptr.toNat % 64 + (size.toNat - 1) % 64 < 64) := by
  constructor
  · rintro ⟨flushed, hflush, hcover⟩
    have hsize := (exists_flushCache_iff ptr size).mp ⟨flushed, hflush⟩
    refine ⟨hsize, ?_⟩
    by_cases hzero : size = 0
    · exact Or.inl hzero
    right
    have hpos : 0 < size.toNat := by
      rw [Nat.pos_iff_ne_zero, ne_eq, ← UInt64.toNat_zero, UInt64.toNat_inj]
      exact hzero
    -- the last byte of the range lies in one of the lines
    obtain ⟨b, hb, hline⟩ := hcover (size.toNat - 1) (by omega)
    rw [flushCache_eq hflush, List.mem_map] at hb
    obtain ⟨j, hj, rfl⟩ := hb
    rw [List.mem_range, flushRounds, cachelinesz] at hj
    rw [byteLine_add_eq_iff ptr (by omega) (by omega)] at hline
    omega
  · rintro ⟨hsize, hend⟩
    obtain ⟨flushed, hflush⟩ := (exists_flushCache_iff ptr size).mpr hsize
    refine ⟨flushed, hflush, ?_⟩
    intro t ht
    have hlast : ptr.toNat % 64 + (size.toNat - 1) % 64 < 64 := by
      rcases hend with rfl | hlast
      · cases ht
      · exact hlast
    let j := (ptr.toNat % 64 + t) / 64
    have hj : j < flushRounds size.toNat := by
      rw [flushRounds, cachelinesz]
      omega
    refine ⟨ptr + .ofNat (64 * j), ?_, ?_⟩
    · rw [flushCache_eq hflush]
      exact List.mem_map.mpr ⟨j, List.mem_range.mpr hj, rfl⟩
    · rw [flushRounds, cachelinesz] at hj
      rw [byteLine_add_eq_iff ptr (by omega) (by omega)]
      omega

/-- Eight bytes at address 60 end in a line that is not flushed, and `2 ^ 32` bytes are never
done. -/
theorem not_flushesRange_unaligned : ¬ FlushesRange 60 8 ∧ ¬ FlushesRange 0 (2 ^ 32) := by
  constructor
  · rintro ⟨flushed, hflush, hcover⟩
    have hone : flushed = [60] := flushCache_eq hflush
    obtain ⟨b, hb, hline⟩ := hcover 4 (by decide)
    rw [hone, List.mem_singleton] at hb
    rw [hb] at hline
    exact absurd hline (by decide)
  · rintro ⟨flushed, hflush, -⟩
    have hsize := (exists_flushCache_iff 0 (2 ^ 32)).mp ⟨flushed, hflush⟩
    exact absurd hsize (by decide)
