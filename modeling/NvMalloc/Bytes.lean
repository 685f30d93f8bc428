/-
# Byte memories

A byte memory is a function from addresses to bytes.  `slice` reads a block and
`blit` overwrites one; the lemmas say which blocks a `blit` changes and what a
block reads afterwards.  Every file and every log of the development keeps its
bytes this way.
-/
import Mathlib

/-- The `n` bytes from address `a` on. -/
def slice (g : ℕ → UInt8) (a n : ℕ) : List UInt8 :=
  (List.range n).map fun i => g (a + i)

/-- Store the bytes `bs` from address `a` on, one after the other. -/
def blit (g : ℕ → UInt8) (a : ℕ) : List UInt8 → ℕ → UInt8
  | [] => g
  | b :: bs => blit (Function.update g a b) (a + 1) bs

/-- Replace the part of a block that starts at `off` by `bs`. -/
def overwrite (block : List UInt8) (off : ℕ) (bs : List UInt8) : List UInt8 :=
  block.take off ++ bs ++ block.drop (off + bs.length)

/-! ## Reading one address -/

@[simp] theorem length_slice (g : ℕ → UInt8) (a n : ℕ) : (slice g a n).length = n := by
  simp [slice]

variable {g : ℕ → UInt8} {a n : ℕ} {bs : List UInt8}

theorem slice_get {i : ℕ} (hi : i < n) :
    (slice g a n)[i]? = some (g (a + i)) := by
  simp [slice, hi]

theorem slice_succ (g : ℕ → UInt8) (a n : ℕ) :
    slice g a (n + 1) = g a :: slice g (a + 1) n := by
  simp only [slice, List.range_succ_eq_map, List.map_cons, List.map_map, Nat.add_zero]
  congr 1
  apply List.map_congr_left
  intro i _
  show g (a + (i + 1)) = g (a + 1 + i)
  congr 1
  omega

/-- Blocks are equal when they agree address by address. -/
theorem slice_congr {g' : ℕ → UInt8} {a' : ℕ} (h : ∀ i, i < n → g (a + i) = g' (a' + i)) :
    slice g a n = slice g' a' n := by
  apply List.map_congr_left
  intro i hi
  exact h i (List.mem_range.mp hi)

theorem take_slice (g : ℕ → UInt8) (a n m : ℕ) : (slice g a n).take m = slice g a (min m n) := by
  simp [slice, ← List.map_take, List.take_range]

/-! ## Overwriting a block -/

/-- Addresses outside the stored block keep their byte. -/
theorem blit_of_outside {i : ℕ} (h : i < a ∨ a + bs.length ≤ i) : blit g a bs i = g i := by
  induction bs generalizing g a with
  | nil => rfl
  | cons b bs ih =>
    rw [List.length_cons] at h
    rw [blit, ih (by omega), Function.update_of_ne (by omega)]

/-- Addresses inside the stored block hold the byte stored there. -/
theorem blit_of_inside {j : ℕ} (h : j < bs.length) :
    some (blit g a bs (a + j)) = bs[j]? := by
  induction bs generalizing g a j with
  | nil => exact absurd h (by simp)
  | cons b bs ih =>
    cases j with
    | zero =>
      rw [blit, blit_of_outside (by omega)]
      simp
    | succ j =>
      have hj : j < bs.length := by simpa using h
      have haddr : a + (j + 1) = a + 1 + j := by omega
      rw [blit, haddr, ih hj]
      simp

/-- A block away from the stored one is unchanged. -/
theorem slice_blit_of_disjoint {b : ℕ} (h : a + n ≤ b ∨ b + bs.length ≤ a) :
    slice (blit g b bs) a n = slice g a n := by
  apply slice_congr
  intro i hi
  exact blit_of_outside (by omega)

/-- A block that contains the stored one has that part replaced. -/
theorem slice_blit_within {off : ℕ} (h : off + bs.length ≤ n) :
    slice (blit g (a + off) bs) a n = overwrite (slice g a n) off bs := by
  apply List.ext_getElem?
  intro i
  unfold overwrite
  by_cases hn : i < n
  · rw [slice_get hn]
    by_cases hlo : i < off
    · rw [blit_of_outside (by omega), List.append_assoc, List.getElem?_append_left (by simp; omega),
        List.getElem?_take_of_lt hlo, slice_get hn]
    · by_cases hhi : i < off + bs.length
      · obtain ⟨j, rfl⟩ : ∃ j, i = off + j := ⟨i - off, by omega⟩
        rw [← Nat.add_assoc, blit_of_inside (by omega), List.getElem?_append_left (by simp; omega),
          List.getElem?_append_right (by simp)]
        congr 1
        simp only [List.length_take, length_slice]
        omega
      · have hlen : ((slice g a n).take off ++ bs).length = off + bs.length := by
          simp only [List.length_append, List.length_take, length_slice]
          omega
        rw [blit_of_outside (by omega), List.getElem?_append_right (by omega), hlen,
          List.getElem?_drop, Nat.add_sub_cancel' (by omega), slice_get hn]
  · rw [List.getElem?_eq_none (by simp; omega), List.getElem?_eq_none]
    simp only [List.length_append, List.length_take, List.length_drop, length_slice]
    omega

/-- Reading a block just stored. -/
theorem slice_blit_self (g : ℕ → UInt8) (a : ℕ) (bs : List UInt8) :
    slice (blit g a bs) a bs.length = bs := by
  have h : slice (blit g (a + 0) bs) a bs.length = overwrite (slice g a bs.length) 0 bs :=
    slice_blit_within (by omega)
  simpa [overwrite, List.drop_eq_nil_of_le] using h

/-- A block stored where it was read changes nothing. -/
theorem blit_slice (g : ℕ → UInt8) (a n : ℕ) : blit g a (slice g a n) = g := by
  funext i
  by_cases hi : a ≤ i ∧ i < a + n
  · obtain ⟨j, rfl⟩ := Nat.exists_eq_add_of_le hi.1
    have hj : j < n := by omega
    have hstored : some (blit g a (slice g a n) (a + j)) = (slice g a n)[j]? :=
      blit_of_inside (by simpa using hj)
    rw [slice_get hj] at hstored
    exact Option.some.inj hstored
  · exact blit_of_outside (by rw [length_slice]; omega)

theorem blit_append (g : ℕ → UInt8) (a : ℕ) (bs cs : List UInt8) :
    blit g a (bs ++ cs) = blit (blit g a bs) (a + bs.length) cs := by
  induction bs generalizing g a with
  | nil => rfl
  | cons b bs ih =>
    simp only [List.cons_append, blit, ih, List.length_cons]
    congr 1
    omega

/-- Reading a part of a block just stored. -/
theorem slice_blit_middle (g : ℕ → UInt8) (a : ℕ) (bs cs ds : List UInt8) :
    slice (blit g a (bs ++ cs ++ ds)) (a + bs.length) cs.length = cs := by
  have hafter : a + bs.length + cs.length ≤ a + (bs ++ cs).length := by
    rw [List.length_append]
    omega
  rw [blit_append, slice_blit_of_disjoint (Or.inl hafter), blit_append]
  exact slice_blit_self ..

/-! ## Little-endian numbers -/

/-- The low `width` bytes of a number, the lowest first. -/
def toLE : ℕ → ℕ → List UInt8
  | 0, _ => []
  | width + 1, n => UInt8.ofNat n :: toLE width (n / 256)

/-- The number whose bytes these are, the lowest first. -/
def ofLE : List UInt8 → ℕ
  | [] => 0
  | b :: bs => b.toNat + 256 * ofLE bs

@[simp] theorem length_toLE (width n : ℕ) : (toLE width n).length = width := by
  induction width generalizing n with
  | zero => rfl
  | succ width ih => rw [toLE, List.length_cons, ih]

/-- A number that fits is read back. -/
theorem ofLE_toLE {width : ℕ} (h : n < 256 ^ width) : ofLE (toLE width n) = n := by
  induction width generalizing n with
  | zero =>
    rw [pow_zero, Nat.lt_one_iff] at h
    rw [h]
    rfl
  | succ width ih =>
    have hrest : n / 256 < 256 ^ width := by
      rw [pow_succ] at h
      omega
    rw [toLE, ofLE, ih hrest, UInt8.toNat_ofNat']
    omega
