/-
# Bytes behind mapped addresses

As long as the mappings of a run do not overlap, an address inside a mapping
reads and writes the byte of the mapped file at the same offset.  Loads and
stores of whole blocks then are `slice` and `blit` on the file.
-/
import NvMalloc.Layout

open Function

/-- Two mappings do not overlap. -/
def Mapping.Disjoint (m m' : Mapping) : Prop :=
  m.base + m.size ≤ m'.base ∨ m'.base + m'.size ≤ m.base

instance : Std.Symm Mapping.Disjoint := ⟨fun _ _ h => Or.symm h⟩

/-- The bytes of a data file. -/
def Disk.bytesOf (d : Disk) (f : DataFile) : ℕ → UInt8 :=
  match d.data f with
  | none => fun _ => 0
  | some x => x.bytes

/-- Replace a block of a data file. -/
def Disk.blitFile (d : Disk) (f : DataFile) (o : ℕ) (bs : List UInt8) : Disk :=
  { d with data := update d.data f ((d.data f).map fun x => ⟨x.size, blit x.bytes o bs⟩) }

@[simp] theorem chunk_blitFile (d : Disk) (f : DataFile) (o : ℕ) (bs : List UInt8) :
    (d.blitFile f o bs).chunk = d.chunk := rfl

/-- The writes of a block, byte by byte. -/
def byteWrites (f : DataFile) (o : ℕ) : List UInt8 → List Write
  | [] => []
  | b :: bs => .byte f o b :: byteWrites f (o + 1) bs

theorem applyAll_byteWrites (st : Store) (f : DataFile) (o : ℕ) (bs : List UInt8) :
    applyAll st (byteWrites f o bs) = ⟨st.disk.blitFile f o bs, st.ram⟩ := by
  induction bs generalizing st o with
  | nil =>
    have : (st.disk.data f).map (fun x => (⟨x.size, x.bytes⟩ : DataContent)) = st.disk.data f := by
      cases st.disk.data f <;> rfl
    simp [byteWrites, Disk.blitFile, blit, this]
  | cons b bs ih =>
    rw [byteWrites, applyAll_cons, ih]
    show Store.mk _ _ = _
    simp only [WriteEffect.apply, Store.apply, Disk.apply, Ram.apply, Disk.blitFile,
      update_self, update_idem, Option.map_map]
    rfl

theorem bytesOf_blitFile {d : Disk} {f : DataFile} (hf : (d.data f).isSome) (o : ℕ)
    (bs : List UInt8) (f' : DataFile) :
    (d.blitFile f o bs).bytesOf f' = if f' = f then blit (d.bytesOf f) o bs else d.bytesOf f' := by
  by_cases h : f' = f
  · subst h
    obtain ⟨x, hx⟩ := Option.isSome_iff_exists.mp hf
    simp [Disk.bytesOf, Disk.blitFile, hx]
  · simp [Disk.bytesOf, Disk.blitFile, h]

section Resolve

variable {st : Store} {m : Mapping} {x : DataContent} {o : ℕ} {bs : List UInt8}

section

variable (hmaps : st.ram.maps.Pairwise Mapping.Disjoint) (hm : m ∈ st.ram.maps)
  (hx : st.disk.data m.file = some x)
include hmaps hm hx

/-- An address inside a mapping belongs to that mapping only, and is backed as far as
the file reaches. -/
theorem resolve_eq (ho : o < m.size) :
    st.resolve (m.base + o) = if o < x.size then some (m.file, o) else none := by
  have hfind : st.ram.maps.find? (fun m' => m'.base ≤ m.base + o ∧ m.base + o < m'.base + m'.size)
      = some m := by
    cases hres : st.ram.maps.find?
      (fun m' => m'.base ≤ m.base + o ∧ m.base + o < m'.base + m'.size) with
    | none =>
      have := List.find?_eq_none.mp hres m hm
      simp at this
      omega
    | some m' =>
      have hmem := List.mem_of_find?_eq_some hres
      have hin := List.find?_some hres
      simp only [decide_eq_true_eq] at hin
      by_contra hne
      have hne' : m ≠ m' := fun h => hne (by rw [h])
      have hdis := hmaps.forall hm hmem hne'
      unfold Mapping.Disjoint at hdis
      omega
  simp only [Store.resolve, hfind, hx, Option.bind_eq_bind, Option.bind_some,
    Nat.add_sub_cancel_left]

theorem resolve_of_mem (ho : o < m.size) (ho' : o < x.size) :
    st.resolve (m.base + o) = some (m.file, o) := by
  rw [resolve_eq hmaps hm hx ho, if_pos ho']

theorem loadBytes_of_mem {n : ℕ} (ho : o + n ≤ m.size) (ho' : o + n ≤ x.size) :
    st.loadBytes (m.base + o) n = some (slice x.bytes o n) := by
  induction n generalizing o with
  | zero => rfl
  | succ n ih =>
    have hbyte : st.loadByte (m.base + o) = some (x.bytes o) := by
      simp [Store.loadByte, resolve_of_mem hmaps hm hx (o := o) (by omega) (by omega), hx]
    rw [slice_succ, Store.loadBytes, hbyte, Nat.add_assoc, ih (by omega) (by omega)]
    rfl

theorem storeBytes_of_mem (ho : o + bs.length ≤ m.size) (ho' : o + bs.length ≤ x.size) :
    st.storeBytes (m.base + o) bs = some (byteWrites m.file o bs) := by
  induction bs generalizing o with
  | nil => rfl
  | cons b bs ih =>
    rw [List.length_cons] at ho ho'
    rw [Store.storeBytes, resolve_of_mem hmaps hm hx (o := o) (by omega) (by omega), Nat.add_assoc,
      ih (by omega) (by omega)]
    rfl

end

/-- Bytes can be stored only at addresses that are backed. -/
theorem resolve_of_storeBytes {a : ℕ} (h : (st.storeBytes a bs).isSome) {i : ℕ} (hi : i < bs.length)
    : (st.resolve (a + i)).isSome := by
  induction bs generalizing a i with
  | nil => exact absurd hi (by simp)
  | cons b bs ih =>
    obtain ⟨ws, hws⟩ := Option.isSome_iff_exists.mp h
    rw [Store.storeBytes, Option.bind_eq_bind, Option.bind_eq_some_iff] at hws
    obtain ⟨r, hr, hws⟩ := hws
    obtain ⟨ws', hrest, -⟩ := Option.bind_eq_some_iff.mp hws
    cases i with
    | zero => exact Option.isSome_iff_exists.mpr ⟨r, hr⟩
    | succ i =>
      have := ih (Option.isSome_iff_exists.mpr ⟨ws', hrest⟩) (Nat.lt_of_succ_lt_succ hi)
      rwa [Nat.add_right_comm, Nat.add_assoc] at this

/-- A block that bytes can be stored in ends before its file does. -/
theorem le_size_of_storeBytes (hmaps : st.ram.maps.Pairwise Mapping.Disjoint) (hm : m ∈ st.ram.maps)
    (hx : st.disk.data m.file = some x) (hbs : bs ≠ []) (ho : o + bs.length ≤ m.size)
    (h : (st.storeBytes (m.base + o) bs).isSome) :
    o + bs.length ≤ x.size := by
  have hpos : 0 < bs.length := List.length_pos_of_ne_nil hbs
  have hlast := resolve_of_storeBytes h (Nat.sub_one_lt_of_lt hpos)
  rw [Nat.add_assoc, resolve_eq hmaps hm hx (by omega)] at hlast
  by_contra hlt
  rw [if_neg (by omega)] at hlast
  cases hlast

end Resolve
