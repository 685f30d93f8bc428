/-
# Checking the assumptions of a run

The conditions under which the theorems about runs speak (addresses of the kernel,
blocks of the allocator, room in the metadata files) quantify over the records of a
process.  These are finitely many and listed by the scans of `load_process`, so the
conditions can be evaluated on a given store.
-/
import NvMalloc.CleanOps

/-- The region records of a process, in the order of the scan. -/
def Disk.regions (d : Disk) (p : ℕ) : List MmapPtr :=
  match d.proc p with
  | none => []
  | some h => mmapobjSlots p h.pesistMmaps

/-- The chunk records of a region, in the order of the scan. -/
def Disk.chunks (d : Disk) (q : MmapPtr) : List ChunkPtr :=
  chunkSlots (metaOf q.pid (d.mmapobj q).vmaId) (d.mmapobj q).numchunks

/-- The regions of a process are a list. -/
theorem isRegion_iff_mem_regions {d : Disk} {p : ℕ} {q : MmapPtr} :
    IsRegion d.shape p q ↔ q ∈ d.regions p := by
  cases hp : d.proc p with
  | none => simp [IsRegion, Disk.regions, Disk.shape, hp]
  | some h => simp [IsRegion, Disk.regions, Disk.shape, hp, ProcObj.shape]

/-- The live chunks of a name are found by a scan of the regions. -/
theorem holds_iff_mem {d : Disk} {p k : ℕ} {c : ChunkPtr} : Holds d p k c ↔
    ∃ q ∈ d.regions p, c ∈ d.chunks q ∧ (d.chunk c).valid = .VALID ∧ (d.chunk c).chunkid = k := by
  constructor
  · rintro ⟨⟨q, hq, hqc⟩, hv, hid⟩
    exact ⟨q, isRegion_iff_mem_regions.mp hq, hqc, hv, hid⟩
  · rintro ⟨q, hq, hqc, hv, hid⟩
    exact ⟨⟨q, isRegion_iff_mem_regions.mpr hq, hqc⟩, hv, hid⟩

/-- Two mappings can be compared. -/
instance (m m' : Mapping) : Decidable (m.Disjoint m') := instDecidableOr

instance (d : Disk) (p k : ℕ) (c : ChunkPtr) : Decidable (Holds d p k c) :=
  decidable_of_iff' _ holds_iff_mem

/-- Only the mappings of the run are looked at. -/
instance (st : Store) (addr size : ℕ) : Decidable (FreshRange st addr size) :=
  decidable_of_iff (addr ≠ 0 ∧ 0 < size ∧
      ∀ m ∈ st.ram.maps, addr + size ≤ m.base ∨ m.base + m.size ≤ addr)
    ⟨fun h => ⟨h.1, h.2.1, h.2.2⟩, fun h => ⟨h.pos, h.sizePos, h.apart⟩⟩

/-- The places of finitely many regions. -/
instance (st : Store) (place : DataFile → ℕ) (p : ℕ) : Decidable (PlaceOk st place p) :=
  decidable_of_iff (∀ q ∈ st.disk.regions p, place (st.disk.mmapobj q).dataFile ≠ 0 ∧
      (∀ m ∈ st.ram.maps, ((st.disk.mmapobj q).mapping place).Disjoint m) ∧
      ∀ q' ∈ st.disk.regions p, q ≠ q' →
        ((st.disk.mmapobj q).mapping place).Disjoint ((st.disk.mmapobj q').mapping place)) <| by
    simp only [← isRegion_iff_mem_regions]
    constructor
    · intro h
      exact ⟨fun hq => (h _ hq).1, fun hq => (h _ hq).2.1, fun hq hq' => (h _ hq).2.2 _ hq'⟩
    · intro h q hq
      exact ⟨h.pos hq, h.apart hq, fun q' hq' => h.pairwise hq hq'⟩

instance (st : Store) (p : ℕ) (nd : MmapobjNode) (addr bytes : ℕ) :
    Decidable (BlockOf st p nd addr bytes) :=
  decidable_of_iff (st.ram.mapTree.find nd.startAddr = some nd ∧ nd.procId = p ∧
      nd.startAddr ≤ addr ∧ addr + bytes ≤ nd.endAddr ∧ 0 < bytes ∧ bytes < 2 ^ 32)
    ⟨fun h => ⟨h.1, h.2.1, h.2.2.1, h.2.2.2.1, h.2.2.2.2.1, h.2.2.2.2.2⟩,
      fun h => ⟨h.node, h.owner, h.lo, h.hi, h.pos, h.small⟩⟩

instance (nd : MmapobjNode) (addr bytes : ℕ) : Decidable (Backed nd addr bytes) :=
  inferInstanceAs (Decidable (_ ≤ _))

instance (st : Store) (p : ℕ) (nd : MmapobjNode) : Decidable (Unregistered st p nd) :=
  decidable_of_iff (∀ q ∈ st.disk.regions p, (st.disk.mmapobj q).vmaId ≠ nd.mapId)
    ⟨fun h _ hq => h _ (isRegion_iff_mem_regions.mp hq),
      fun h _ hq => h (isRegion_iff_mem_regions.mpr hq)⟩

/-- The room in the files of one process. -/
instance (st : Store) (p : ℕ) (nd : MmapobjNode) : Decidable (MetaRoom st p nd) :=
  decidable_of_iff (((∀ q ∈ st.disk.regions p, (st.disk.mmapobj q).vmaId ≠ nd.mapId) →
        ∀ h ∈ st.disk.proc p, h.metaOffset + sizeofMmapobj ≤ procMetadatSz) ∧
      ∀ q ∈ st.disk.regions p, (st.disk.mmapobj q).vmaId = nd.mapId →
        (st.disk.mmapobj q).metaOffset + sizeofChunkobj ≤ mmapMetadataSz) <| by
    simp only [← isRegion_iff_mem_regions]
    exact ⟨fun h => ⟨fun hun _ hh => h.1 (fun _ hq => hun hq) _ hh, fun hq => h.2 _ hq⟩,
      fun h => ⟨fun hun _ hh => h.header (fun hq => hun _ hq) hh, fun _ hq => h.region hq⟩⟩

/-- The blocks of the live chunks. -/
instance (st : Store) (p addr bytes : ℕ) : Decidable (Unused st p addr bytes) :=
  decidable_of_iff (∀ q ∈ st.disk.regions p, ∀ c ∈ st.disk.chunks q,
      (st.disk.chunk c).valid = .VALID → addr + bytes ≤ (st.disk.chunk c).nvPtr ∨
        (st.disk.chunk c).nvPtr + (st.disk.chunk c).length ≤ addr) <| by
    constructor
    · intro h k c hk
      obtain ⟨q, hq, hqc⟩ := hk.scan
      exact h q (isRegion_iff_mem_regions.mp hq) c hqc hk.valid
    · intro h q hq c hqc hv
      exact h ⟨⟨q, isRegion_iff_mem_regions.mpr hq, hqc⟩, hv, rfl⟩

/-- No region has an entry. -/
instance (d : Disk) (p k : ℕ) : Decidable (Missing d p k) :=
  decidable_of_iff (∀ q ∈ d.regions p, d.entry q k = none)
    ⟨fun h _ hq => h _ (isRegion_iff_mem_regions.mp hq),
      fun h _ hq => h _ (isRegion_iff_mem_regions.mpr hq)⟩

/-- A block lies in a range of the tree. -/
theorem exists_blockOf_iff {st : Store} {p addr bytes : ℕ} {P : MmapobjNode → Prop} :
    (∃ nd, BlockOf st p nd addr bytes ∧ P nd) ↔
      ∃ e ∈ st.ram.mapTree.root.toList, BlockOf st p e.2 addr bytes ∧ P e.2 := by
  constructor
  · rintro ⟨nd, hb, hP⟩
    exact ⟨_, (Rbtree.find_eq_some_iff _ _ _).mp hb.node, hb, hP⟩
  · rintro ⟨e, -, hb, hP⟩
    exact ⟨e.2, hb, hP⟩

instance {st : Store} {p addr bytes : ℕ} {P : MmapobjNode → Prop} [DecidablePred P] :
    Decidable (∃ nd, BlockOf st p nd addr bytes ∧ P nd) :=
  decidable_of_iff' _ exists_blockOf_iff

/-- The region with the greatest id among those with an entry. -/
instance (d : Disk) (p k : ℕ) (q : MmapPtr) (c : ChunkPtr) : Decidable (Finds d p k q c) :=
  decidable_of_iff (q ∈ d.regions p ∧ d.entry q k = some c ∧ ∀ q' ∈ d.regions p,
      (d.mmapobj q).vmaId < (d.mmapobj q').vmaId → d.entry q' k = none) <| by
    simp only [← isRegion_iff_mem_regions]
    exact ⟨fun h => ⟨h.1, h.2.1, fun hq' => h.2.2 _ hq'⟩,
      fun h => ⟨h.region, h.entry, fun _ hq' => h.greatest hq'⟩⟩

instance {d : Disk} {p k : ℕ} {P : MmapPtr → ChunkPtr → Prop} [∀ q c, Decidable (P q c)] :
    Decidable (∀ {q c}, Finds d p k q c → P q c) :=
  decidable_of_iff (∀ q ∈ d.regions p, ∀ c ∈ d.entry q k, Finds d p k q c → P q c)
    ⟨fun h _ _ hf => h _ (isRegion_iff_mem_regions.mp hf.region) _ hf.entry hf,
      fun h _ _ _ _ hf => h hf⟩

instance {d : Disk} {p k : ℕ} {P : MmapPtr → ChunkPtr → Prop} [∀ q c, Decidable (P q c)] :
    Decidable (∃ q c, Finds d p k q c ∧ P q c) :=
  decidable_of_iff (∃ q ∈ d.regions p, ∃ c ∈ d.entry q k, Finds d p k q c ∧ P q c)
    ⟨fun ⟨q, _, c, _, h⟩ => ⟨q, c, h⟩, fun ⟨q, c, hf, h⟩ =>
      ⟨q, isRegion_iff_mem_regions.mp hf.region, c, hf.entry, hf, h⟩⟩

/-- A property of the live chunk of a name. -/
instance {d : Disk} {p k : ℕ} {P : ChunkPtr → Prop} [DecidablePred P] :
    Decidable (∃ c, Holds d p k c ∧ P c) :=
  decidable_of_iff (∃ q ∈ d.regions p, ∃ c ∈ d.chunks q, Holds d p k c ∧ P c) <| by
    constructor
    · rintro ⟨q, -, c, -, h⟩
      exact ⟨c, h⟩
    · rintro ⟨c, hk, hP⟩
      obtain ⟨q, hq, hqc⟩ := hk.scan
      exact ⟨q, isRegion_iff_mem_regions.mp hq, c, hqc, hk, hP⟩

/-- Whether the name is live. -/
instance (d : Disk) (p k : ℕ) : Decidable (∃ c, Holds d p k c) :=
  decidable_of_iff (∃ c, Holds d p k c ∧ True) (by simp only [and_true])

/-- The region of a block has a smaller id than the regions of the chunks with id `k`. -/
def BelowOld (d : Disk) (p k : ℕ) (nd : MmapobjNode) : Prop :=
  ∀ {c}, Holds d p k c → nd.mapId < (dataOf c.file).vma

instance (d : Disk) (p k : ℕ) (nd : MmapobjNode) : Decidable (BelowOld d p k nd) :=
  decidable_of_iff (∀ q ∈ d.regions p, ∀ c ∈ d.chunks q,
      (d.chunk c).valid = .VALID → (d.chunk c).chunkid = k → nd.mapId < (dataOf c.file).vma) <| by
    constructor
    · intro h c hk
      obtain ⟨q, hq, hqc⟩ := hk.scan
      exact h q (isRegion_iff_mem_regions.mp hq) c hqc hk.valid hk.id
    · intro h q hq c hqc hv hid
      exact h ⟨⟨q, isRegion_iff_mem_regions.mpr hq, hqc⟩, hv, hid⟩

/-- The names of the examples. -/
def nameA : ObjName := ⟨[97], by decide, by decide⟩

@[inherit_doc nameA]
def nameB : ObjName := ⟨[98], by decide, by decide⟩
