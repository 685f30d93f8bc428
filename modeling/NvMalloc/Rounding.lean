/-
# Rounding to multiples

The multiple of a number at or below another one (`floorTo`) and the least one that is not below
it (`ceilTo`), and the 64-bit mask that computes the former for powers of two.
-/
import Mathlib

/-- The greatest multiple of `a` that is not above `x`. -/
def floorTo (a x : ℕ) : ℕ := x / a * a

/-- The least multiple of `a` that is not below `x`. -/
def ceilTo (a x : ℕ) : ℕ := floorTo a (x + (a - 1))

section Rounding

variable {a x y : ℕ}

theorem floorTo_le (a x : ℕ) : floorTo a x ≤ x := Nat.div_mul_le_self x a

/-- It is the next multiple below. -/
theorem lt_floorTo_add (ha : 0 < a) : x < floorTo a x + a := by
  have hmod := Nat.mod_lt x ha
  have hsplit := Nat.div_add_mod' x a
  rw [floorTo]
  omega

/-- Rounding down gives a multiple. -/
theorem dvd_floorTo (a x : ℕ) : a ∣ floorTo a x := Nat.dvd_mul_left a (x / a)

theorem floorTo_eq_zero (h : x < a) : floorTo a x = 0 := by
  rw [floorTo, Nat.div_eq_of_lt h, Nat.zero_mul]

/-- So does rounding up. -/
theorem dvd_ceilTo (a x : ℕ) : a ∣ ceilTo a x := dvd_floorTo a _

theorem le_ceilTo (ha : 0 < a) : x ≤ ceilTo a x := by
  have := lt_floorTo_add ha (x := x + (a - 1))
  rw [ceilTo]
  omega

/-- Less than a whole unit is added. -/
theorem ceilTo_lt_add (ha : 0 < a) : ceilTo a x < x + a := by
  have := floorTo_le a (x + (a - 1))
  rw [ceilTo]
  omega

/-- It is the least multiple above. -/
theorem ceilTo_le (hdvd : a ∣ y) (h : x ≤ y) : ceilTo a x ≤ y := by
  obtain ⟨k, rfl⟩ := hdvd
  rcases Nat.eq_zero_or_pos a with rfl | ha
  · simp [ceilTo, floorTo]
  · have hlt : (x + (a - 1)) / a < k + 1 := by
      rw [Nat.div_lt_iff_lt_mul ha, Nat.add_mul, Nat.one_mul, Nat.mul_comm k a]
      omega
    rw [ceilTo, floorTo, Nat.mul_comm a k]
    exact Nat.mul_le_mul_right a (Nat.le_of_lt_succ hlt)

/-- A multiple stays as it is. -/
theorem ceilTo_eq (hdvd : a ∣ x) : ceilTo a x = x := by
  rcases Nat.eq_zero_or_pos a with rfl | ha
  · rw [Nat.eq_zero_of_zero_dvd hdvd]
    simp [ceilTo, floorTo]
  · exact le_antisymm (ceilTo_le hdvd le_rfl) (le_ceilTo ha)

/-- The mask `-2^k` of 64-bit arithmetic rounds down. -/
theorem land_neg_two_pow {k : ℕ} (hk : k < 64) (hx : x < 2 ^ 64) :
    x &&& (2 ^ 64 - 2 ^ k) = floorTo (2 ^ k) x := by
  have hmask : 2 ^ 64 - 2 ^ k = (2 ^ (64 - k) - 1) <<< k := by
    rw [Nat.shiftLeft_eq, Nat.sub_mul, ← pow_add, Nat.one_mul]
    congr 2
    omega
  have hfloor : floorTo (2 ^ k) x = (x >>> k) <<< k := by
    rw [Nat.shiftLeft_eq, Nat.shiftRight_eq_div_pow, floorTo]
  rw [hmask, hfloor]
  apply Nat.eq_of_testBit_eq
  intro i
  rw [Nat.testBit_and, Nat.testBit_shiftLeft, Nat.testBit_shiftLeft, Nat.testBit_two_pow_sub_one,
    Nat.testBit_shiftRight]
  by_cases hik : k ≤ i
  · have hadd : k + (i - k) = i := by omega
    by_cases hi : i < 64
    · simp [hik, hadd, show i - k < 64 - k by omega]
    · have hbit : x.testBit i = false :=
        Nat.testBit_lt_two_pow (hx.trans_le (Nat.pow_le_pow_right (by decide) (by omega)))
      simp [hadd, hbit]
  · simp [hik]

end Rounding
