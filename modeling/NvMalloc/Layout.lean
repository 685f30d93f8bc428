/-
# The layout of the persistent records

Which region and chunk records a restart will scan, and the facts about their
positions that every operation of the store keeps.

* `Shape` is the part of the files that decides where things are: the counters
  of each process header, the identity and chunk count of each region record, the
  extent of each chunk and the size of each data file.
* `IsRegion` and `IsChunk` are the records that `load_process` and
  `restore_chunk_objs` visit.
* `ShapeOk` ties the append position of a header to its record count, gives every
  region its own id and data file, and keeps every chunk inside that file.

Most writes leave the shape alone; the lemmas at the end say which.
-/
import NvMalloc.NvMap

/-! ## Shapes -/

/-- The counters of a process header. -/
structure HeaderShape where
  pid : ℕ
  pesistMmaps : ℕ
  numMmaps : ℕ
  metaOffset : ℕ

/-- The identity and the counters of a region record. -/
structure RegionShape where
  procId : ℕ
  vmaId : ℕ
  length : ℕ
  numchunks : ℕ
  metaOffset : ℕ

/-- The process of a chunk and where it lies in its data file. -/
structure Extent where
  pid : ℕ
  offset : ℕ
  length : ℕ

/-- The positions of everything in the files. -/
structure Shape where
  header : ℕ → Option HeaderShape
  region : MmapPtr → RegionShape
  extent : ChunkPtr → Extent
  fileSize : DataFile → Option ℕ

/-- The counters of a header. -/
def ProcObj.shape (h : ProcObj) : HeaderShape := ⟨h.pid, h.pesistMmaps, h.numMmaps, h.metaOffset⟩

/-- The identity and counters of a region record. -/
def Mmapobj.shape (m : Mmapobj) : RegionShape :=
  ⟨m.procId, m.vmaId, m.length, m.numchunks, m.metaOffset⟩

/-- The extent of a chunk. -/
def Chunkobj.extent (r : Chunkobj) : Extent := ⟨r.pid, r.offset, r.length⟩

/-- The shape of the files. -/
def Disk.shape (d : Disk) : Shape where
  header p := (d.proc p).map ProcObj.shape
  region q := (d.mmapobj q).shape
  extent c := (d.chunk c).extent
  fileSize f := (d.data f).map DataContent.size

/-! ## The records a restart scans -/

/-- The metadata file of a region of process `p` with id `vma`. -/
def metaOf (p vma : ℕ) : MetaFile := ⟨p, baseMetadataNvid + vma⟩

/-- The data file of the chunks in a metadata file. -/
def dataOf (m : MetaFile) : DataFile := ⟨m.pid, m.id - baseMetadataNvid⟩

@[simp] theorem dataOf_metaOf (p vma : ℕ) : dataOf (metaOf p vma) = ⟨p, vma⟩ := by
  simp [dataOf, metaOf]

variable {p n : ℕ} {q : MmapPtr} {file : MetaFile} {c : ChunkPtr}

theorem metaOf_inj {p' v v' : ℕ} : metaOf p v = metaOf p' v' ↔ p = p' ∧ v = v' := by
  simp [metaOf]

theorem mem_mmapobjSlots :
    q ∈ mmapobjSlots p n ↔ ∃ i < n, q = ⟨p, sizeofProc + i * sizeofMmapobj⟩ := by
  simp only [mmapobjSlots, List.mem_map, List.mem_range]
  constructor
  · rintro ⟨i, hi, rfl⟩
    exact ⟨i, hi, rfl⟩
  · rintro ⟨i, hi, rfl⟩
    exact ⟨i, hi, rfl⟩

theorem mem_chunkSlots :
    c ∈ chunkSlots file n ↔ ∃ j < n, c = ⟨file, j * sizeofChunkobj⟩ := by
  simp only [chunkSlots, List.mem_map, List.mem_range]
  constructor
  · rintro ⟨j, hj, rfl⟩
    exact ⟨j, hj, rfl⟩
  · rintro ⟨j, hj, rfl⟩
    exact ⟨j, hj, rfl⟩

/-- Record `i` of a header file. -/
def mmapobjSlot (p i : ℕ) : MmapPtr := ⟨p, sizeofProc + i * sizeofMmapobj⟩

theorem mmapobjSlot_inj {i j : ℕ} : mmapobjSlot p i = mmapobjSlot p j ↔ i = j := by
  simp [mmapobjSlot, sizeofMmapobj]

/-- Appending a record extends the scan by its slot. -/
theorem mem_mmapobjSlots_succ :
    q ∈ mmapobjSlots p (n + 1) ↔ q ∈ mmapobjSlots p n ∨ q = mmapobjSlot p n := by
  simp only [mmapobjSlots, List.range_succ, List.map_append, List.mem_append, List.map_cons,
    List.map_nil, List.mem_singleton]
  rfl

theorem mmapobjSlot_notMem {i : ℕ} (h : n ≤ i) : mmapobjSlot p i ∉ mmapobjSlots p n := by
  rw [mem_mmapobjSlots]
  rintro ⟨j, hj, heq⟩
  have : i = j := mmapobjSlot_inj.mp heq
  omega

/-- Appending a chunk extends the scan by its slot. -/
theorem mem_chunkSlots_succ :
    c ∈ chunkSlots file (n + 1) ↔ c ∈ chunkSlots file n ∨ c = ⟨file, n * sizeofChunkobj⟩ := by
  simp [chunkSlots, List.range_succ]

theorem chunkSlot_notMem {file' : MetaFile} :
    (⟨file, n * sizeofChunkobj⟩ : ChunkPtr) ∉ chunkSlots file' n := by
  rw [mem_chunkSlots]
  rintro ⟨j, hj, heq⟩
  have : n * sizeofChunkobj = j * sizeofChunkobj := congrArg ChunkPtr.off heq
  simp only [sizeofChunkobj] at this
  omega

/-- `q` is a region record of process `p`. -/
def IsRegion (s : Shape) (p : ℕ) (q : MmapPtr) : Prop :=
  ∃ h, s.header p = some h ∧ q ∈ mmapobjSlots p h.pesistMmaps

/-- `c` is a chunk record of region `q`. -/
def IsChunk (s : Shape) (q : MmapPtr) (c : ChunkPtr) : Prop :=
  c ∈ chunkSlots (metaOf q.pid (s.region q).vmaId) (s.region q).numchunks

/-- `c` is a chunk record of process `p`. -/
def InScan (s : Shape) (p : ℕ) (c : ChunkPtr) : Prop := ∃ q, IsRegion s p q ∧ IsChunk s q c

theorem IsRegion.pid_eq {s : Shape} (h : IsRegion s p q) : q.pid = p := by
  obtain ⟨_, -, hmem⟩ := h
  obtain ⟨i, -, rfl⟩ := mem_mmapobjSlots.mp hmem
  rfl

theorem IsChunk.file_eq {s : Shape} (h : IsChunk s q c) :
    c.file = metaOf q.pid (s.region q).vmaId := by
  obtain ⟨j, -, rfl⟩ := mem_chunkSlots.mp h
  rfl

/-- The positions of the records are consistent. -/
structure ShapeOk (s : Shape) : Prop where
  pid : ∀ {p h}, s.header p = some h → h.pid = p
  append : ∀ {p h}, s.header p = some h →
    h.metaOffset = sizeofProc + h.pesistMmaps * sizeofMmapobj
  procId : ∀ {p q}, IsRegion s p q → (s.region q).procId = p
  vmaPos : ∀ {p q}, IsRegion s p q → 0 < (s.region q).vmaId
  vmaLe : ∀ {p q h}, IsRegion s p q → s.header p = some h → (s.region q).vmaId ≤ h.numMmaps
  vmaInj : ∀ {p q q'}, IsRegion s p q → IsRegion s p q' →
    (s.region q).vmaId = (s.region q').vmaId → q = q'
  file : ∀ {p q}, IsRegion s p q →
    ∃ n, s.fileSize ⟨p, (s.region q).vmaId⟩ = some n ∧ n ≤ (s.region q).length
  extent : ∀ {p q c n}, IsRegion s p q → IsChunk s q c →
    s.fileSize ⟨p, (s.region q).vmaId⟩ = some n →
    (s.extent c).pid = p ∧ 0 < (s.extent c).length ∧
      (s.extent c).offset + (s.extent c).length ≤ n
  blank : ∀ {p h i}, s.header p = some h → h.pesistMmaps ≤ i →
    (s.region (mmapobjSlot p i)).numchunks = 0 ∧ (s.region (mmapobjSlot p i)).metaOffset = 0
  fileOwner : ∀ {p v}, s.fileSize ⟨p, v⟩ ≠ none → ∃ h, s.header p = some h ∧ v ≤ h.numMmaps

/-- A chunk lies in one region only. -/
theorem ShapeOk.region_unique {s : Shape} (hs : ShapeOk s) {q' : MmapPtr} (hq : IsRegion s p q)
    (hq' : IsRegion s p q') (hc : IsChunk s q c) (hc' : IsChunk s q' c) :
    q = q' := by
  have hfile := hc.file_eq.symm.trans hc'.file_eq
  exact hs.vmaInj hq hq' (metaOf_inj.mp hfile).2

/-! ## Writes that keep the shape -/

section KeepShape

variable (d : Disk)

theorem shape_apply_byte (f : DataFile) (o : ℕ) (b : UInt8) :
    (d.apply (.byte f o b)).shape = d.shape := by
  have : ∀ f', ((d.apply (.byte f o b)).data f').map DataContent.size =
      (d.data f').map DataContent.size := by
    intro f'
    by_cases h : f' = f
    · subst h
      cases hp : d.data f' <;> simp [Disk.apply, hp, DataContent.setByte]
    · simp [Disk.apply, h]
  show Shape.mk _ _ _ _ = _
  simp only [Disk.shape, this]
  rfl

end KeepShape
