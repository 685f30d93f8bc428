/-
# The cache of region sizes

With `_NVRAM_OPTIMIZE` `record_vmas` also puts the id and the size of a region into a ring of
eight entries, which `get_vma_size` searches from its first slot before it uses the map
`proc_vmas`.

The ring keeps older entries for an id and stores sizes in 32 bits.  So a size is returned
as it was last recorded exactly when, of the last eight calls, the first one for the id in the
order of their slots recorded it, and it fits into 32 bits, or none of them was for the id.
-/
import NvMalloc.Ring

open Function

/-! ## The code -/

/-- `CACHE_ENTRIES`. -/
def cacheEntries : ℕ := 8

/-- `proc_vmas`, `vmaid_cache`, `vmasize_cache` and `next_vma_entry`.  The subscript of the map
yields 0 where nothing was recorded. -/
structure VmaSizes where
  procVmas : Int32 → UInt64 := fun _ => 0
  vmaidCache : ℕ → UInt32 := fun _ => 0
  vmasizeCache : ℕ → UInt32 := fun _ => 0
  nextVmaEntry : ℕ := 0

/-- `record_vmas`. -/
def recordVmas (s : VmaSizes) (vmaid : Int32) (size : UInt64) : VmaSizes where
  procVmas := update s.procVmas vmaid size
  vmaidCache := update s.vmaidCache s.nextVmaEntry vmaid.toUInt32
  vmasizeCache := update s.vmasizeCache s.nextVmaEntry size.toUInt32
  nextVmaEntry := (s.nextVmaEntry + 1) % cacheEntries

/-- `get_vma_size`. -/
def getVmaSize (s : VmaSizes) (vmaid : Int32) : UInt64 :=
  match (List.range cacheEntries).find? fun idx => s.vmaidCache idx = vmaid.toUInt32 with
  | some idx => (s.vmasizeCache idx).toUInt64
  | none => s.procVmas vmaid

/-- `get_vma_size` without `_NVRAM_OPTIMIZE`. -/
def plainVmaSize (s : VmaSizes) (vmaid : Int32) : UInt64 := s.procVmas vmaid

/-- The arguments of a call of `record_vmas`. -/
structure VmaCall where
  vmaid : Int32
  size : UInt64
  deriving DecidableEq

/-- The state after calls of `record_vmas`. -/
def recordAllVmas (calls : List VmaCall) : VmaSizes :=
  calls.foldl (fun s c => recordVmas s c.vmaid c.size) {}

/-- The size that was recorded last for an id. -/
def lastSize (calls : List VmaCall) (vmaid : Int32) : UInt64 :=
  ((calls.reverse.find? fun c => c.vmaid = vmaid).map VmaCall.size).getD 0

/-! ## What is returned -/

theorem recordAllVmas_append (calls : List VmaCall) (c : VmaCall) :
    recordAllVmas (calls ++ [c]) = recordVmas (recordAllVmas calls) c.vmaid c.size := by
  rw [recordAllVmas, List.foldl_append]
  rfl

/-- The map has what was recorded last. -/
theorem plainVmaSize_recordAllVmas (calls : List VmaCall) (vmaid : Int32) :
    plainVmaSize (recordAllVmas calls) vmaid = lastSize calls vmaid := by
  induction calls using List.reverseRecOn with
  | nil => rfl
  | append_singleton calls c ih =>
    rw [recordAllVmas_append, lastSize, List.reverse_append, List.reverse_singleton,
      List.singleton_append, List.find?_cons]
    by_cases hc : c.vmaid = vmaid
    · subst hc
      rw [decide_eq_true rfl]
      exact update_self ..
    · rw [decide_eq_false hc]
      exact (update_of_ne (Ne.symm hc) _ _).trans ih

/-- The entry of a call in the ring. -/
def VmaCall.entry (c : VmaCall) : UInt32 × UInt32 := (c.vmaid.toUInt32, c.size.toUInt32)

/-- The ring holds the last eight calls. -/
theorem ringArray_recordAllVmas (calls : List VmaCall) :
    RingArray cacheEntries (0, 0) (calls.map VmaCall.entry) (recordAllVmas calls).nextVmaEntry
      fun idx =>
        ((recordAllVmas calls).vmaidCache idx, (recordAllVmas calls).vmasizeCache idx) := by
  induction calls using List.reverseRecOn with
  | nil => exact ringArray_nil cacheEntries (0, 0)
  | append_singleton calls c ih =>
    rw [recordAllVmas_append, List.map_append, List.map_singleton]
    exact ih.push_pair c.vmaid.toUInt32 c.size.toUInt32

theorem toUInt32_injective : Injective Int32.toUInt32 :=
  fun _ _ h => congrArg Int32.ofUInt32 h

/-- `get_vma_size` in terms of the calls. -/
theorem getVmaSize_recordAllVmas (calls : List VmaCall) {vmaid : Int32} (hid : vmaid ≠ 0) :
    getVmaSize (recordAllVmas calls) vmaid =
      match (ringOrder cacheEntries calls).find? fun c => c.vmaid = vmaid with
      | some c => c.size.toUInt32.toUInt64
      | none => lastSize calls vmaid := by
  have hfind := (ringArray_recordAllVmas calls).find_eq (fun e => e.1 = vmaid.toUInt32)
    (decide_eq_false fun h => hid (toUInt32_injective h).symm)
  have hkey : ∀ c : VmaCall, decide (c.entry.1 = vmaid.toUInt32) = decide (c.vmaid = vmaid) :=
    fun c => decide_eq_decide.mpr toUInt32_injective.eq_iff
  simp only [ringOrder_map, List.find?_map, comp_def, hkey] at hfind
  rw [getVmaSize]
  cases hcall : (ringOrder cacheEntries calls).find? fun c => decide (c.vmaid = vmaid) with
  | none =>
    rw [hcall, Option.map_none, Option.map_eq_none_iff] at hfind
    rw [hfind]
    exact plainVmaSize_recordAllVmas calls vmaid
  | some c =>
    rw [hcall, Option.map_some, Option.map_eq_some_iff] at hfind
    obtain ⟨idx, hidx, hentry⟩ := hfind
    rw [hidx]
    exact congrArg (fun e : UInt32 × UInt32 => e.2.toUInt64) hentry

/-- **The size that was recorded last is returned exactly when the entry that the search meets
first has it.**  The build without the ring always returns it. -/
theorem getVmaSize_eq_lastSize_iff (calls : List VmaCall) {vmaid : Int32} (hid : 0 < vmaid) :
    (getVmaSize (recordAllVmas calls) vmaid = lastSize calls vmaid ↔
      ∀ c, ((ringOrder cacheEntries calls).find? fun c => c.vmaid = vmaid) = some c →
        c.size.toUInt32.toUInt64 = lastSize calls vmaid) ∧
    plainVmaSize (recordAllVmas calls) vmaid = lastSize calls vmaid := by
  refine ⟨?_, plainVmaSize_recordAllVmas calls vmaid⟩
  have hne : vmaid ≠ 0 := by
    rintro rfl
    exact absurd hid (by decide)
  rw [getVmaSize_recordAllVmas calls hne]
  cases (ringOrder cacheEntries calls).find? fun c => decide (c.vmaid = vmaid) with
  | none => simp
  | some c => simp

/-- Two regions, each recorded once. -/
theorem getVmaSize_recorded :
    getVmaSize (recordAllVmas [⟨1, 4096⟩, ⟨2, 8192⟩]) 1 = lastSize [⟨1, 4096⟩, ⟨2, 8192⟩] 1 :=
  (getVmaSize_eq_lastSize_iff [⟨1, 4096⟩, ⟨2, 8192⟩] (by decide)).1.mpr (by decide)

/-- A size that is recorded again is not returned, nor is one of `2 ^ 32` bytes. -/
theorem getVmaSize_stale :
    getVmaSize (recordAllVmas [⟨1, 4096⟩, ⟨1, 8192⟩]) 1 = 4096 ∧
      lastSize [⟨1, 4096⟩, ⟨1, 8192⟩] 1 = 8192 ∧
      getVmaSize (recordAllVmas [⟨1, 2 ^ 32⟩]) 1 = 0 ∧ lastSize [⟨1, 2 ^ 32⟩] 1 = 2 ^ 32 := by
  decide
