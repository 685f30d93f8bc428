/-
# Ring buffers

Entry number `t` of a ring of `cap` slots of `size` bytes lies in slot `t % cap`.  The
writer keeps the position one past its last entry and goes back to the start only when
it next writes (`wrap`).  Entries of which fewer than `cap` lie between never share a
slot (`slot_ne`), so a window of at most `cap` entries survives further writes.

An array ring keeps the index of the next slot modulo `cap` instead (`RingArray`).  A search
of the array from its first slot meets the last `cap` entries in the order of their slots
(`ringOrder`), not in the order in which they were written.
-/
import Mathlib

open Function

/-- The position of entry `t`. -/
def slot (size cap t : ℕ) : ℕ := size * (t % cap)

/-- Go back to the start at the end of the ring. -/
def wrap (limit pos : ℕ) : ℕ := if limit ≤ pos then 0 else pos

section Ring

variable {size cap s t : ℕ}

@[simp] theorem slot_zero : slot size cap 0 = 0 := by
  rw [slot, Nat.zero_mod, Nat.mul_zero]

@[simp] theorem wrap_zero (limit : ℕ) : wrap limit 0 = 0 := by rw [wrap, ite_self]

theorem slot_of_lt (h : t < cap) : slot size cap t = size * t := by
  rw [slot, Nat.mod_eq_of_lt h]

theorem slot_lt (hsize : 0 < size) (hcap : 0 < cap) : slot size cap t < size * cap :=
  Nat.mul_lt_mul_of_pos_left (Nat.mod_lt t hcap) hsize

/-- The entry after entry `t` lies in the next slot, after the last one in the first. -/
theorem wrap_slot (hsize : 0 < size) (hcap : 0 < cap) :
    wrap (size * cap) (slot size cap t + size) = slot size cap (t + 1) := by
  have hlt : t % cap < cap := Nat.mod_lt t hcap
  have hpos : slot size cap t + size = size * (t % cap + 1) := by rw [slot, Nat.mul_succ]
  have hnext : (t + 1) % cap = (t % cap + 1) % cap := (Nat.mod_add_mod t cap 1).symm
  rw [wrap, hpos, slot, hnext]
  rcases Nat.lt_or_ge (t % cap + 1) cap with hin | hend
  · have hbelow : ¬ size * cap ≤ size * (t % cap + 1) :=
      Nat.not_le.mpr (Nat.mul_lt_mul_of_pos_left hin hsize)
    rw [if_neg hbelow, Nat.mod_eq_of_lt hin]
  · have hlast : t % cap + 1 = cap := by omega
    rw [hlast, if_pos le_rfl, Nat.mod_self, Nat.mul_zero]

/-- Entries less than a whole ring apart lie in different slots. -/
theorem slot_ne (hsize : 0 < size) (hst : s < t) (hnear : t < s + cap) :
    slot size cap s ≠ slot size cap t := by
  intro heq
  have hmod : s % cap = t % cap := Nat.eq_of_mul_eq_mul_left hsize heq
  have hdvd : cap ∣ t - s := (Nat.modEq_iff_dvd' hst.le).mp hmod
  have hle : cap ≤ t - s := Nat.le_of_dvd (by omega) hdvd
  omega

/-- The same for entries of one window, in either order. -/
theorem slot_ne_of_ne (hsize : 0 < size) (hne : s ≠ t) (hs : s < t + cap) (ht : t < s + cap) :
    slot size cap s ≠ slot size cap t := by
  rcases Nat.lt_or_gt_of_ne hne with hlt | hgt
  · exact slot_ne hsize hlt ht
  · exact (slot_ne hsize hgt hs).symm

end Ring

/-! ## Array rings -/

section RingArray

variable {α : Type*} {cap next : ℕ} {d : α} {xs : List α} {slots : ℕ → α}

/-- What the array of a ring holds after the entries `xs` were written, when it held `d`
everywhere before. -/
structure RingArray (cap : ℕ) (d : α) (xs : List α) (next : ℕ) (slots : ℕ → α) : Prop where
  next_eq : next = xs.length % cap
  held : ∀ {t x}, xs[t]? = some x → xs.length ≤ t + cap → slots (t % cap) = x
  free : ∀ {i}, i < cap → xs.length ≤ i → slots i = d

theorem ringArray_nil (cap : ℕ) (d : α) : RingArray cap d [] 0 fun _ => d where
  next_eq := (Nat.zero_mod cap).symm
  held h := by simp at h
  free _ _ := rfl

/-- A new entry takes the place of the oldest one. -/
theorem RingArray.push (h : RingArray cap d xs next slots) (x : α) :
    RingArray cap d (xs ++ [x]) ((next + 1) % cap) (update slots next x) := by
  refine ⟨?_, ?_, ?_⟩
  · rw [h.next_eq, List.length_append, List.length_singleton, Nat.mod_add_mod]
  · intro t y hy hnear
    rw [List.length_append, List.length_singleton] at hnear
    rcases Nat.lt_or_ge t xs.length with hlt | hge
    · -- an entry of the last `cap - 1` lies in another slot
      rw [List.getElem?_append_left hlt] at hy
      have hne : slot 1 cap t ≠ slot 1 cap xs.length := slot_ne Nat.one_pos hlt (by omega)
      rw [slot, slot, Nat.one_mul, Nat.one_mul, ← h.next_eq] at hne
      rw [update_of_ne hne]
      exact h.held hy (by omega)
    · have hbound := (List.getElem?_eq_some_iff.mp hy).1
      rw [List.length_append, List.length_singleton] at hbound
      obtain rfl : t = xs.length := by omega
      rw [List.getElem?_concat_length, Option.some.injEq] at hy
      rw [← h.next_eq, update_self, hy]
  · intro i hi hfree
    rw [List.length_append, List.length_singleton] at hfree
    have hne : i ≠ next := by
      rw [h.next_eq, Nat.mod_eq_of_lt (by omega)]
      omega
    rw [update_of_ne hne]
    exact h.free hi (by omega)

/-- The same for a ring in two arrays. -/
theorem RingArray.push_pair {β : Type*} {d : α × β} {xs : List (α × β)} {f : ℕ → α} {g : ℕ → β}
    (h : RingArray cap d xs next fun i => (f i, g i)) (x : α) (y : β) :
    RingArray cap d (xs ++ [(x, y)]) ((next + 1) % cap)
      fun i => (update f next x i, update g next y i) := by
  have hpair : (fun i => (update f next x i, update g next y i)) =
      update (fun i => (f i, g i)) next (x, y) := by
    funext i
    rcases eq_or_ne i next with rfl | hne
    · simp only [update_self]
    · simp only [update_of_ne hne]
  rw [hpair]
  exact h.push (x, y)

/-- The last entry that went to slot `i`. -/
def lastInSlot (cap : ℕ) (xs : List α) (i : ℕ) : Option α :=
  xs[i + cap * ((xs.length - 1 - i) / cap)]?

/-- The last `cap` entries in the order of their slots. -/
def ringOrder (cap : ℕ) (xs : List α) : List α := (List.range cap).filterMap (lastInSlot cap xs)

theorem ringOrder_map {β : Type*} (f : α → β) (cap : ℕ) (xs : List α) :
    ringOrder cap (xs.map f) = (ringOrder cap xs).map f := by
  rw [ringOrder, ringOrder, List.map_filterMap]
  congr 1
  funext i
  rw [lastInSlot, lastInSlot, List.length_map, List.getElem?_map]

variable (h : RingArray cap d xs next slots)
include h

theorem RingArray.slots_eq {i : ℕ} (hi : i < cap) : slots i = (lastInSlot cap xs i).getD d := by
  rw [lastInSlot]
  rcases Nat.lt_or_ge i xs.length with hlt | hge
  · -- the number of the entry
    obtain ⟨t, ht⟩ : ∃ t, t = i + cap * ((xs.length - 1 - i) / cap) := ⟨_, rfl⟩
    have hle := Nat.mul_div_le (xs.length - 1 - i) cap
    have hnear := Nat.lt_mul_div_succ (xs.length - 1 - i) (Nat.zero_lt_of_lt hi)
    rw [Nat.mul_add, Nat.mul_one] at hnear
    have htlt : t < xs.length := by omega
    have hslot : t % cap = i := by
      rw [ht, Nat.add_mul_mod_self_left, Nat.mod_eq_of_lt hi]
    have hheld := h.held (List.getElem?_eq_getElem htlt) (by omega)
    rw [hslot] at hheld
    rw [← ht, List.getElem?_eq_getElem htlt, Option.getD_some, hheld]
  · have hout : xs.length ≤ i + cap * ((xs.length - 1 - i) / cap) := by omega
    rw [List.getElem?_eq_none hout, Option.getD_none, h.free hi hge]

/-- A slot of some kind, other than that of the empty slots, is one of the last `cap` entries. -/
theorem RingArray.exists_slot_iff {P : α → Prop} (hd : ¬ P d) :
    (∃ i < cap, P (slots i)) ↔ ∃ x ∈ xs.drop (xs.length - cap), P x := by
  constructor
  · rintro ⟨i, hi, hP⟩
    rw [h.slots_eq hi] at hP
    cases hlast : lastInSlot cap xs i with
    | none =>
      rw [hlast] at hP
      exact absurd hP hd
    | some x =>
      rw [hlast] at hP
      refine ⟨x, ?_, hP⟩
      rw [lastInSlot] at hlast
      obtain ⟨hlt, rfl⟩ := List.getElem?_eq_some_iff.mp hlast
      have hnear := Nat.lt_mul_div_succ (xs.length - 1 - i) (Nat.zero_lt_of_lt hi)
      rw [Nat.mul_add, Nat.mul_one] at hnear
      refine List.mem_drop_iff_getElem.mpr
        ⟨i + cap * ((xs.length - 1 - i) / cap) - (xs.length - cap), by omega, ?_⟩
      congr 1
      omega
  · rintro ⟨x, hx, hP⟩
    obtain ⟨j, hj, rfl⟩ := List.mem_drop_iff_getElem.mp hx
    have hlt : xs.length - cap + j < xs.length := by omega
    refine ⟨(xs.length - cap + j) % cap, Nat.mod_lt _ (by omega), ?_⟩
    rw [h.held (List.getElem?_eq_getElem hlt) (by omega)]
    exact hP

/-- The slot that is overwritten next: empty, or the oldest of the last `cap` entries. -/
theorem RingArray.slots_next (hcap : 0 < cap) :
    slots next = if xs.length < cap then d else (xs[xs.length - cap]?).getD d := by
  rw [h.next_eq]
  split
  · next hlt =>
    rw [Nat.mod_eq_of_lt hlt]
    exact h.free hlt le_rfl
  · next hge =>
    have hlt : xs.length - cap < xs.length := by omega
    have hslot : (xs.length - cap) % cap = xs.length % cap := (Nat.mod_eq_sub_mod (by omega)).symm
    rw [← hslot, h.held (List.getElem?_eq_getElem hlt) (by omega), List.getElem?_eq_getElem hlt]
    rfl

/-- A search of the array from its first slot. -/
theorem RingArray.find_eq (p : α → Bool) (hd : p d = false) :
    ((List.range cap).find? fun i => p (slots i)).map slots = (ringOrder cap xs).find? p := by
  -- along the slots that are still to be searched
  have hsearch : ∀ is : List ℕ, (∀ i ∈ is, i < cap) →
      (is.find? fun i => p (slots i)).map slots = (is.filterMap (lastInSlot cap xs)).find? p := by
    intro is hcap
    induction is with
    | nil => rfl
    | cons i is ih =>
      have hslot := h.slots_eq (hcap i List.mem_cons_self)
      have htail := ih fun j hj => hcap j (List.mem_cons_of_mem i hj)
      cases hlast : lastInSlot cap xs i with
      | none =>
        rw [hlast, Option.getD_none] at hslot
        rw [List.find?_cons_of_neg (by rw [hslot, hd]; exact Bool.false_ne_true),
          List.filterMap_cons_none hlast, htail]
      | some x =>
        rw [hlast, Option.getD_some] at hslot
        rw [List.filterMap_cons_some hlast, List.find?_cons, List.find?_cons, hslot]
        cases p x
        · exact htail
        · exact congrArg some hslot
  exact hsearch (List.range cap) fun i hi => List.mem_range.mp hi

end RingArray
