/-
# Loading a process

`load_process` opens the header of a process, creating it when there is none, and
restores its regions.  On consistent records it runs to its end whatever addresses
the kernel maps the data files at, and leaves the process loaded (`load_exec`).
-/
import NvMalloc.Restore
import NvMalloc.Objects

open WriteM Function

/-! ## `load_process` -/

/-- Create the header file of a process that has none. -/
def Store.ensureHeader (st : Store) (p : ℕ) : Store :=
  if (st.disk.proc p).isNone then st.apply (.procFile p) else st

variable {st : Store} {p : ℕ} {place : DataFile → ℕ}

/-- `create_or_load_proc_obj` opens the header of a process that is not in memory. -/
theorem createOrLoadProcObj_exec_of_unregistered (hreg : st.findProcess p = none) :
    (createOrLoadProcObj p).exec st =
      some (p, (st.ensureHeader p).apply (.ram fun r => { r with procMapStart := some p })) := by
  cases hp : st.disk.proc p with
  | none =>
    simp [createOrLoadProcObj, exec_bind, hreg, hp, Store.ensureHeader]
    rfl
  | some h =>
    simp [createOrLoadProcObj, exec_bind, hreg, hp, Store.ensureHeader]
    rfl

/-- It does nothing for one that is. -/
theorem createOrLoadProcObj_exec_of_registered (hreg : Registered st p) :
    (createOrLoadProcObj p).exec st = some (p, st) := by
  have hreg' : st.findProcess p = some p := hreg
  simp [createOrLoadProcObj, exec_bind, hreg']

/-- The store when the region loop of `load_process` starts, for header `h`. -/
def Store.openProcess (st : Store) (p : ℕ) (h : ProcObj) : Store where
  disk := { st.disk with
    proc := update st.disk.proc p
      (some { h with mmapobjTree := some (.create st.ram.run), mmapobjInitialized := true }) }
  ram := { st.ram with procMapStart := some p, procTree := st.ram.procTree.insert h.pid p }

/-- `load_process` opens the header and restores the regions that it counts. -/
theorem loadProcess_exec_eq {h : ProcObj} (place : DataFile → ℕ)
    (hinit : st.ram.gInitialized = true) (hreg : st.findProcess p = none)
    (hh : (st.ensureHeader p).disk.proc p = some h) :
    (loadProcess place p).exec st =
      ((restoreMmapobjs place p (mmapobjSlots p h.pesistMmaps)).exec
        ((st.ensureHeader p).openProcess p h)).map fun r => (p, r.2) := by
  have hcreate := createOrLoadProcObj_exec_of_unregistered hreg
  revert hcreate hh
  generalize st.ensureHeader p = st₁
  intro hh hcreate
  simp [loadProcess, addProcObj, initializeMmapobjTree, exec_bind, hinit, hcreate,
    WriteEffect.apply, Store.apply, Disk.apply, Ram.apply, hh, Store.openProcess]
  rw [Option.map_eq_bind]
  rfl

/-- The kernel maps the data files of the regions of `p` away from each other and
from everything mapped so far. -/
structure PlaceOk (st : Store) (place : DataFile → ℕ) (p : ℕ) : Prop where
  pos : ∀ {q}, IsRegion st.disk.shape p q → place (st.disk.mmapobj q).dataFile ≠ 0
  apart : ∀ {q}, IsRegion st.disk.shape p q → ∀ m ∈ st.ram.maps,
    ((st.disk.mmapobj q).mapping place).Disjoint m
  pairwise : ∀ {q q'}, IsRegion st.disk.shape p q → IsRegion st.disk.shape p q' → q ≠ q' →
    ((st.disk.mmapobj q).mapping place).Disjoint ((st.disk.mmapobj q').mapping place)

/-- No region of `p` in the address-range tree is registered yet. -/
def Unmapped (st : Store) (p : ℕ) : Prop :=
  ∀ {a nd q}, st.ram.mapTree.find a = some nd → nd.procId = p → IsRegion st.disk.shape p q →
    (st.disk.mmapobj q).vmaId ≠ nd.mapId

section Load

variable {st st' : Store} {place : DataFile → ℕ} {p : ℕ} {h : ProcObj}

theorem nodup_mmapobjSlots (p n : ℕ) : (mmapobjSlots p n).Nodup := by
  refine List.Nodup.map ?_ List.nodup_range
  intro i j hij
  exact mmapobjSlot_inj.mp hij

variable {q : MmapPtr}

/-- The regions are the records that the header counts. -/
theorem isRegion_iff_mem (hh : st.disk.proc p = some h) :
    IsRegion st.disk.shape p q ↔ q ∈ mmapobjSlots p h.pesistMmaps := by
  constructor
  · rintro ⟨h', hh', hq⟩
    rw [header_shape hh] at hh'
    cases hh'
    exact hq
  · intro hq
    exact ⟨h.shape, header_shape hh, hq⟩

/-- The scan of a region comes by its chunks. -/
theorem scan_eq (hs : ShapeOk st.disk.shape) {q : MmapPtr} (hq : IsRegion st.disk.shape p q)
    {c : ChunkPtr} : c ∈ (st.disk.mmapobj q).scan ↔ IsChunk st.disk.shape q c := by
  have hp : (st.disk.mmapobj q).procId = q.pid := (hs.procId hq).trans hq.pid_eq.symm
  unfold IsChunk Mmapobj.scan
  rw [hp]
  rfl

theorem dataFile_eq (hs : ShapeOk st.disk.shape) (hq : IsRegion st.disk.shape p q) :
    (st.disk.mmapobj q).dataFile = ⟨p, (st.disk.mmapobj q).vmaId⟩ := by
  rw [Mmapobj.dataFile, show (st.disk.mmapobj q).procId = p from hs.procId hq]

/-- Every region can be restored where the kernel maps it. -/
theorem restorable (hs : ShapeOk st.disk.shape) (hplace : PlaceOk st place p)
    (hq : IsRegion st.disk.shape p q) : Restorable st place q where
  data := by
    obtain ⟨n, hn, -⟩ := hs.file hq
    obtain ⟨x, hx, -⟩ := Option.map_eq_some_iff.mp hn
    rw [dataFile_eq hs hq]
    exact Option.isSome_iff_exists.mpr ⟨x, hx⟩
  place := hplace.pos hq
  length := by
    intro c hc _
    have : 0 < (st.disk.chunk c).length := hs.length_pos ⟨q, hq, (scan_eq hs hq).mp hc⟩
    omega

/-- The regions of a consistent process are restored. -/
theorem openProcess_exec (hs : ShapeOk st.disk.shape) (hh : st.disk.proc p = some h)
    (hplace : PlaceOk st place p) :
    ∃ st', (restoreMmapobjs place p (mmapobjSlots p h.pesistMmaps)).exec (st.openProcess p h) =
        some ((), st') ∧
      RegionsRestored (st.openProcess p h) st' place p (mmapobjSlots p h.pesistMmaps) := by
  refine restoreMmapobjs_exec _ (t := .empty) (update_self ..) rfl rfl ?_ ?_
  · refine List.Nodup.map_on ?_ (nodup_mmapobjSlots p _)
    intro q hq q' hq' hv
    exact hs.vmaInj ((isRegion_iff_mem hh).mpr hq) ((isRegion_iff_mem hh).mpr hq') hv
  · intro q hq
    have hr := restorable hs hplace ((isRegion_iff_mem hh).mpr hq)
    exact ⟨hr.data, hr.place, hr.length⟩

variable (hs : ShapeOk st.disk.shape) (hh : st.disk.proc p = some h)
  (hres : RegionsRestored (st.openProcess p h) st' place p (mmapobjSlots p h.pesistMmaps))
include hs hh hres

omit hs in
/-- Restoring keeps the positions on disk. -/
theorem shape_restored : st'.disk.shape = st.disk.shape := by
  obtain ⟨t', hproc, -⟩ := hres.header (update_self ..) rfl
  unfold Disk.shape
  congr 1
  · funext p'
    by_cases hp : p' = p
    · subst hp
      rw [hproc, hh]
      rfl
    · rw [hres.proc hp]
      show (update st.disk.proc p _ p').map ProcObj.shape = _
      rw [update_of_ne hp]
  · funext q
    by_cases hq : q ∈ mmapobjSlots p h.pesistMmaps
    · exact (hres.record hq).shape
    · rw [hres.other hq]
      rfl
  · funext c
    rw [hres.chunk]
    split <;> rfl
  · rw [hres.data]
    rfl

omit hs hh in
theorem run_restored : st'.ram.run = st.ram.run := (congrArg Ram.run hres.ram :)

/-- The mappings stay apart. -/
theorem ramOk_restored (hr : RamOk st) (hplace : PlaceOk st place p) (hun : Unmapped st p) :
    RamOk st' := by
  have hshape := shape_restored hh hres
  have hmaps : st'.ram.maps = ((mmapobjSlots p h.pesistMmaps).map fun q =>
      (st.disk.mmapobj q).mapping place).reverse ++ st.ram.maps := (congrArg Ram.maps hres.ram :)
  have htree : st'.ram.mapTree = st.ram.mapTree := (congrArg Ram.mapTree hres.ram :)
  have hprocs : st'.ram.procTree = st.ram.procTree.insert h.pid p :=
    (congrArg Ram.procTree hres.ram :)
  constructor
  · rw [hmaps, List.pairwise_append]
    refine ⟨?_, hr.maps, ?_⟩
    · rw [List.pairwise_reverse, List.pairwise_map]
      refine List.Pairwise.imp_of_mem ?_ (nodup_mmapobjSlots p h.pesistMmaps)
      intro q q' hq hq' hne
      exact hplace.pairwise ((isRegion_iff_mem hh).mpr hq') ((isRegion_iff_mem hh).mpr hq) hne.symm
    · intro m hm m' hm'
      obtain ⟨q, hq, rfl⟩ := List.mem_map.mp (List.mem_reverse.mp hm)
      exact hplace.apart ((isRegion_iff_mem hh).mpr hq) m' hm'
  · intro k p' hk
    rw [Store.findProcess, hprocs, Rbtree.find_insert] at hk
    split at hk
    · rename_i hkp
      cases hk
      rw [hkp]
      exact (hs.pid (header_shape hh)).symm
    · exact hr.process hk
  · intro a nd hnd
    rw [htree] at hnd
    have hn := hr.node hnd
    refine ⟨hn.start, hn.startPos, hn.startLt, hn.idPos, ?_, ?_, ?_⟩
    · rw [hmaps]
      exact List.mem_append_right _ hn.mapped
    · rw [hshape]
      exact hn.file
    · intro q hq hv
      rw [hshape] at hq
      -- the regions of `p` were not in the range tree, those of others are untouched
      by_cases hp : nd.procId = p
      · rw [hp] at hq
        have hvma : (st'.disk.mmapobj q).vmaId = (st.disk.mmapobj q).vmaId :=
          (congrArg (fun s => (s.region q).vmaId) hshape :)
        rw [hvma] at hv
        exact absurd hv (hun hnd hp hq)
      · have hnot : q ∉ mmapobjSlots p h.pesistMmaps := by
          intro hmem
          exact hp (hq.pid_eq.symm.trans ((isRegion_iff_mem hh).mpr hmem).pid_eq)
        rw [hres.other hnot] at hv ⊢
        exact hn.region hq hv
  · intro a a' nd nd' ha ha'
    rw [htree] at ha ha'
    exact hr.nodeInj ha ha'

omit hs in
/-- The entry of an id is the last valid chunk with it. -/
theorem entry_restored (hq : IsRegion st.disk.shape p q) (k : ℕ) :
    st'.disk.entry q k = lastChunk st.disk.chunk (st.disk.mmapobj q).scan k :=
  (hres.record ((isRegion_iff_mem hh).mp hq)).entry k

/-- The entries of a restored region are its valid chunks. -/
theorem entryIn_restored (hq : IsRegion st.disk.shape p q) {k : ℕ} {c : ChunkPtr}
    (hk : st'.disk.entry q k = some c) : IsChunk st.disk.shape q c ∧
      (st.disk.chunk c).valid = .VALID ∧ (st.disk.chunk c).chunkid = k := by
  rw [entry_restored hh hres hq] at hk
  obtain ⟨hc, hv, hid⟩ := lastChunk_eq_some hk
  exact ⟨(scan_eq hs hq).mp hc, hv, hid⟩

/-- Every valid chunk is found under its id, or another one is. -/
theorem found_restored (hq : IsRegion st.disk.shape p q) {c : ChunkPtr}
    (hc : IsChunk st.disk.shape q c) (hv : (st.disk.chunk c).valid = .VALID) :
    (st'.disk.entry q (st.disk.chunk c).chunkid).isSome := by
  rw [entry_restored hh hres hq]
  exact lastChunk_isSome ((scan_eq hs hq).mpr hc) hv

omit hs hh in
/-- A restart moves the pointers of chunks, nothing else in their records. -/
theorem chunk_restored (c : ChunkPtr) :
    { st'.disk.chunk c with nvPtr := 0 } = { st.disk.chunk c with nvPtr := 0 } := by
  rw [hres.chunk]
  split <;> rfl

/-- The process is loaded then. -/
theorem loaded_restored (hplace : PlaceOk st place p) : Loaded st' p := by
  have hshape := shape_restored hh hres
  have hrun := run_restored hres
  have hmem : ∀ {q}, IsRegion st.disk.shape p q → q ∈ mmapobjSlots p h.pesistMmaps :=
    fun hq => (isRegion_iff_mem hh).mp hq
  have hvma : ∀ q, (st'.disk.mmapobj q).vmaId = (st.disk.mmapobj q).vmaId :=
    fun q => (congrArg (fun s => (s.region q).vmaId) hshape :)
  have hlen : ∀ q, (st'.disk.mmapobj q).length = (st.disk.mmapobj q).length :=
    fun q => (congrArg (fun s => (s.region q).length) hshape :)
  have hvalid : ∀ {c}, (st'.disk.chunk c).valid = .VALID ∨ Indexed st'.disk p c →
      (st.disk.chunk c).valid = .VALID := by
    rintro c (hv | ⟨q, k, hq, hk⟩)
    · exact (congrArg Chunkobj.valid (chunk_restored hres c)).symm.trans hv
    · rw [hshape] at hq
      exact (entryIn_restored hs hh hres hq hk).2.1
  constructor
  · obtain ⟨t', hproc, hfind⟩ := hres.header (update_self ..) rfl
    refine ⟨_, t', hproc, rfl, by rw [hrun]; rfl, ?_⟩
    intro v q
    rw [hfind, hshape, isRegion_iff_mem hh, hvma]
    simp only [Rbtree.find_empty, reduceCtorEq, false_and, or_false]
    rfl
  · intro q hq
    rw [hshape] at hq
    have hdata := (hres.record (hmem hq)).dataAddr
    have hfile := dataFile_eq hs hq
    refine ⟨by rw [hdata]; exact hplace.pos hq, ?_⟩
    have hmaps : st'.ram.maps = ((mmapobjSlots p h.pesistMmaps).map fun q =>
        (st.disk.mmapobj q).mapping place).reverse ++ st.ram.maps := (congrArg Ram.maps hres.ram :)
    rw [hmaps, hdata, hvma, hlen, ← hfile]
    exact List.mem_append_left _ (List.mem_reverse.mpr (List.mem_map_of_mem (hmem hq)))
  · intro q hq
    rw [hshape] at hq
    rw [(hres.record (hmem hq)).strtAddr, hvma]
    exact congrArg (fun n => some (metaOf n _)) (hs.procId hq)
  · intro q hq hinit
    rw [hshape] at hq
    rw [hrun]
    exact (hres.record (hmem hq)).tree hinit
  · rintro c ⟨q, k, hq, hk⟩
    rw [hshape] at hq ⊢
    exact ⟨q, hq, (entryIn_restored hs hh hres hq hk).1⟩
  · intro q c hq hc hv
    rw [hshape] at hq hc
    have hscan := (scan_eq hs hq).mpr hc
    have hif : (∃ q' ∈ mmapobjSlots p h.pesistMmaps,
        c ∈ ((st.openProcess p h).disk.mmapobj q').scan) ∧
        ((st.openProcess p h).disk.chunk c).valid = .VALID := ⟨⟨q, hmem hq, hscan⟩, hvalid hv⟩
    rw [hres.chunk, if_pos hif, (hres.record (hmem hq)).dataAddr, dataOf_of_mem_scan hscan]
    rfl

/-- A restored process satisfies the store invariant. -/
theorem storeInv_restored (hr : RamOk st) (hplace : PlaceOk st place p) (hun : Unmapped st p)
    (hinit : st.ram.gInitialized = true) (hp : p ≠ 0) : StoreInv st' p where
  shape := by
    rw [shape_restored hh hres]
    exact hs
  ram := ramOk_restored hs hh hres hr hplace hun
  loaded := loaded_restored hs hh hres hplace
  registered := by
    have hprocs : st'.ram.procTree = st.ram.procTree.insert h.pid p :=
      (congrArg Ram.procTree hres.ram :)
    have hpid : h.pid = p := hs.pid (header_shape hh)
    rw [Registered, Store.findProcess, hprocs, Rbtree.find_insert, if_pos hpid.symm]
  initialized := (congrArg Ram.gInitialized hres.ram :).trans hinit
  pidPos := hp

end Load

/-! ## The header of a process -/

section Header

variable {st : Store} {p : ℕ}

theorem ensureHeader_of_none (hnone : st.disk.proc p = none) :
    st.ensureHeader p = st.apply (.procFile p) := by
  simp [Store.ensureHeader, hnone]

theorem ensureHeader_of_some {h : ProcObj} (hh : st.disk.proc p = some h) :
    st.ensureHeader p = st := by
  simp [Store.ensureHeader, hh]

theorem shape_procFile (st : Store) (p : ℕ) :
    (st.apply (.procFile p)).disk.shape = st.disk.shape.addHeader p := by
  unfold Disk.shape Shape.addHeader
  congr 1
  · funext p'
    by_cases hp : p' = p
    · subst hp
      simp [Store.apply, Disk.apply, ProcObj.shape]
    · simp [Store.apply, Disk.apply, hp]
  · funext q
    by_cases hq : q.pid = p <;> simp [Store.apply, Disk.apply, hq, Mmapobj.shape]

theorem header_none (hnone : st.disk.proc p = none) : st.disk.shape.header p = none := by
  simp [Disk.shape, hnone]

/-- There is a header then. -/
theorem exists_header (st : Store) (p : ℕ) : ∃ h, (st.ensureHeader p).disk.proc p = some h := by
  cases hp : st.disk.proc p with
  | none => exact ⟨{ pid := p }, by simp [ensureHeader_of_none hp, Store.apply, Disk.apply]⟩
  | some h => exact ⟨h, by rw [ensureHeader_of_some hp, hp]⟩

/-- A new header keeps the positions consistent. -/
theorem shapeOk_ensureHeader (hs : ShapeOk st.disk.shape) :
    ShapeOk (st.ensureHeader p).disk.shape := by
  cases hp : st.disk.proc p with
  | none =>
    rw [ensureHeader_of_none hp, shape_procFile]
    exact hs.addHeader (header_none hp)
  | some h =>
    rw [ensureHeader_of_some hp]
    exact hs

variable {p' : ℕ} {q : MmapPtr}

/-- It has no regions. -/
theorem isRegion_ensureHeader :
    IsRegion (st.ensureHeader p).disk.shape p' q ↔ IsRegion st.disk.shape p' q := by
  cases hp : st.disk.proc p with
  | none =>
    rw [ensureHeader_of_none hp, shape_procFile]
    exact isRegion_addHeader (header_none hp)
  | some h => rw [ensureHeader_of_some hp]

/-- A header is created only for a process that has no regions. -/
theorem mmapobj_ensureHeader (hq : IsRegion st.disk.shape p' q) :
    (st.ensureHeader p).disk.mmapobj q = st.disk.mmapobj q := by
  cases hp : st.disk.proc p with
  | none =>
    rw [ensureHeader_of_none hp]
    obtain ⟨h, hh, -⟩ := id hq
    have hne : q.pid ≠ p := by
      rw [hq.pid_eq]
      rintro rfl
      rw [header_none hp] at hh
      cases hh
    simp [Store.apply, Disk.apply, hne]
  | some h => rw [ensureHeader_of_some hp]

theorem chunk_ensureHeader (st : Store) (p : ℕ) :
    (st.ensureHeader p).disk.chunk = st.disk.chunk := by
  unfold Store.ensureHeader
  split <;> rfl

theorem data_ensureHeader (st : Store) (p : ℕ) :
    (st.ensureHeader p).disk.data = st.disk.data := by
  unfold Store.ensureHeader
  split <;> rfl

@[simp] theorem ram_ensureHeader (st : Store) (p : ℕ) : (st.ensureHeader p).ram = st.ram := by
  unfold Store.ensureHeader
  split <;> rfl

/-- The files of other processes stay as they are. -/
theorem sameFiles_ensureHeader (hne : p' ≠ p) :
    SameFiles st.disk (st.ensureHeader p).disk p' := by
  refine ⟨?_, ?_, ?_, ?_⟩
  · unfold Store.ensureHeader
    split <;> simp [Store.apply, Disk.apply, hne]
  · intro q hq
    have hqp : q.pid ≠ p := by rw [hq]; exact hne
    unfold Store.ensureHeader
    split <;> simp [Store.apply, Disk.apply, hqp]
  · intro c _
    rw [chunk_ensureHeader]
  · intro v
    rw [data_ensureHeader]

theorem isChunk_ensureHeader (hq : IsRegion st.disk.shape p' q) {c : ChunkPtr} :
    IsChunk (st.ensureHeader p).disk.shape q c ↔ IsChunk st.disk.shape q c := by
  unfold IsChunk
  simp only [shape_region_vmaId, shape_region_numchunks, mmapobj_ensureHeader hq]

theorem inScan_ensureHeader {c : ChunkPtr} :
    InScan (st.ensureHeader p).disk.shape p' c ↔ InScan st.disk.shape p' c := by
  constructor
  · rintro ⟨q, hq, hqc⟩
    rw [isRegion_ensureHeader] at hq
    exact ⟨q, hq, (isChunk_ensureHeader hq).mp hqc⟩
  · rintro ⟨q, hq, hqc⟩
    exact ⟨q, isRegion_ensureHeader.mpr hq, (isChunk_ensureHeader hq).mpr hqc⟩

theorem ramOk_ensureHeader (hr : RamOk st) : RamOk (st.ensureHeader p) := by
  have hfile : (st.ensureHeader p).disk.shape.fileSize = st.disk.shape.fileSize := by
    unfold Disk.shape
    simp only [data_ensureHeader]
  refine ⟨by simpa using hr.maps, ?_, ?_, ?_⟩
  · intro k p' hk
    rw [Store.findProcess, ram_ensureHeader] at hk
    exact hr.process hk
  · intro a nd hnd
    rw [ram_ensureHeader] at hnd
    have hn := hr.node hnd
    refine ⟨hn.start, hn.startPos, hn.startLt, hn.idPos, by simpa using hn.mapped,
      by rw [hfile]; exact hn.file, ?_⟩
    intro q hq hv
    rw [isRegion_ensureHeader] at hq
    rw [mmapobj_ensureHeader hq] at hv ⊢
    exact hn.region hq hv
  · intro a a' nd nd' ha ha'
    rw [ram_ensureHeader] at ha ha'
    exact hr.nodeInj ha ha'

end Header

theorem placeOk_ensureHeader (h : PlaceOk st place p) :
    PlaceOk (st.ensureHeader p) place p where
  pos := by
    intro q hq
    rw [isRegion_ensureHeader] at hq
    rw [mmapobj_ensureHeader hq]
    exact h.pos hq
  apart := by
    intro q hq m hm
    rw [isRegion_ensureHeader] at hq
    rw [ram_ensureHeader] at hm
    rw [mmapobj_ensureHeader hq]
    exact h.apart hq m hm
  pairwise := by
    intro q q' hq hq'
    rw [isRegion_ensureHeader] at hq hq'
    rw [mmapobj_ensureHeader hq, mmapobj_ensureHeader hq']
    exact h.pairwise hq hq'

theorem unmapped_ensureHeader (h : Unmapped st p) :
    Unmapped (st.ensureHeader p) p := by
  intro a nd q hnd hp hq
  rw [ram_ensureHeader] at hnd
  rw [isRegion_ensureHeader] at hq
  rw [mmapobj_ensureHeader hq]
  exact h hnd hp hq

/-! ## The result of loading a process -/

/-- Loading process `p` turns `st` into `st'`. -/
structure Loads (st st' : Store) (place : DataFile → ℕ) (p : ℕ) : Prop where
  inv : StoreInv st' p
  isRegion : ∀ {p' q}, IsRegion st'.disk.shape p' q ↔ IsRegion st.disk.shape p' q
  isChunk : ∀ {q c}, IsRegion st.disk.shape p q →
    (IsChunk st'.disk.shape q c ↔ IsChunk st.disk.shape q c)
  vmaId : ∀ {q}, IsRegion st.disk.shape p q →
    (st'.disk.mmapobj q).vmaId = (st.disk.mmapobj q).vmaId
  dataAddr : ∀ {q}, IsRegion st.disk.shape p q →
    (st'.disk.mmapobj q).dataAddr = place ⟨p, (st.disk.mmapobj q).vmaId⟩
  chunk : ∀ c, { st'.disk.chunk c with nvPtr := 0 } = { st.disk.chunk c with nvPtr := 0 }
  data : st'.disk.data = st.disk.data
  entry : ∀ {q}, IsRegion st.disk.shape p q → ∀ k,
    st'.disk.entry q k = lastChunk st.disk.chunk (st.disk.mmapobj q).scan k
  entryIn : ∀ {q k c}, IsRegion st.disk.shape p q → st'.disk.entry q k = some c →
    IsChunk st.disk.shape q c ∧ (st.disk.chunk c).valid = .VALID ∧ (st.disk.chunk c).chunkid = k
  found : ∀ {q c}, IsRegion st.disk.shape p q → IsChunk st.disk.shape q c →
    (st.disk.chunk c).valid = .VALID → (st'.disk.entry q (st.disk.chunk c).chunkid).isSome
  files : ∀ {p'}, p' ≠ p → SameFiles st.disk st'.disk p'
  ram : ∃ ms, st'.ram.frame = Ram.frame { st.ram with
    procMapStart := some p, procTree := st.ram.procTree.insert p p, maps := ms ++ st.ram.maps }

namespace Loads

variable {st st' : Store} {place : DataFile → ℕ} {p : ℕ} (h : Loads st st' place p)
include h

/-- The chunks in the scan are those before. -/
theorem inScan {c : ChunkPtr} : InScan st'.disk.shape p c ↔ InScan st.disk.shape p c := by
  constructor
  · rintro ⟨q, hq, hqc⟩
    rw [h.isRegion] at hq
    exact ⟨q, hq, (h.isChunk hq).mp hqc⟩
  · rintro ⟨q, hq, hqc⟩
    exact ⟨q, h.isRegion.mpr hq, (h.isChunk hq).mpr hqc⟩

/-- Loading a process keeps its objects. -/
theorem sameObjects : SameObjects st.disk st'.disk p := by
  refine SameObjects.of_records h.inScan (fun _ => h.chunk _) ?_
  intro c _
  rw [Disk.bytesOf, Disk.bytesOf, h.data]

/-- A process whose valid chunks are separate is clean once it is loaded. -/
theorem clean (hsep : Separate st.disk p) : Clean st'.disk p := by
  refine ⟨h.sameObjects.separate hsep, ?_⟩
  intro q k c hq
  rw [h.isRegion] at hq
  have hvalid : (st'.disk.chunk c).valid = (st.disk.chunk c).valid :=
    (congrArg Chunkobj.valid (h.chunk c) :)
  have hid : (st'.disk.chunk c).chunkid = (st.disk.chunk c).chunkid :=
    (congrArg Chunkobj.chunkid (h.chunk c) :)
  rw [h.isChunk hq, hvalid, hid]
  constructor
  · exact h.entryIn hq
  · rintro ⟨hqc, hv, rfl⟩
    obtain ⟨c', hc'⟩ := Option.isSome_iff_exists.mp (h.found hq hqc hv)
    obtain ⟨hqc', hv', hid'⟩ := h.entryIn hq hc'
    rw [hc', hsep.id ⟨⟨q, hq, hqc'⟩, hv', hid'⟩ ⟨⟨q, hq, hqc⟩, hv, rfl⟩]

theorem procMapStart : st'.ram.procMapStart = some p := by
  obtain ⟨_, hram⟩ := h.ram
  exact (congrArg Ram.procMapStart hram :)

theorem mapTree : st'.ram.mapTree = st.ram.mapTree := by
  obtain ⟨_, hram⟩ := h.ram
  exact (congrArg Ram.mapTree hram :)

theorem run : st'.ram.run = st.ram.run := by
  obtain ⟨_, hram⟩ := h.ram
  exact (congrArg Ram.run hram :)

/-- The mappings of the run stay. -/
theorem maps : st.ram.maps ⊆ st'.ram.maps := by
  obtain ⟨ms, hram⟩ := h.ram
  have : st'.ram.maps = ms ++ st.ram.maps := (congrArg Ram.maps hram :)
  rw [this]
  exact List.subset_append_right ..

/-- The process is registered, and the others are as before. -/
theorem findProcess {p' : ℕ} :
    st'.findProcess p' = if p' = p then some p else st.findProcess p' := by
  obtain ⟨_, hram⟩ := h.ram
  have : st'.ram.procTree = st.ram.procTree.insert p p := (congrArg Ram.procTree hram :)
  rw [Store.findProcess, this, Rbtree.find_insert]
  rfl

end Loads

/-- `load_process` ends, with all that is known of a load. -/
theorem load_exec (hs : ShapeOk st.disk.shape) (hr : RamOk st) (hinit : st.ram.gInitialized = true)
    (hreg : st.findProcess p = none) (hp : p ≠ 0) (hplace : PlaceOk st place p)
    (hun : Unmapped st p) :
    ∃ st', (loadProcess place p).exec st = some (p, st') ∧ Loads st st' place p := by
  obtain ⟨h, hh⟩ := exists_header st p
  have hs₁ := shapeOk_ensureHeader (p := p) hs
  have hplace₁ := placeOk_ensureHeader hplace
  have hinit₁ : (st.ensureHeader p).ram.gInitialized = true := by simpa using hinit
  obtain ⟨st', hexec, hres⟩ := openProcess_exec hs₁ hh hplace₁
  have hshape := shape_restored hh hres
  refine ⟨st', by rw [loadProcess_exec_eq place hinit hreg hh, hexec]; rfl, ?_⟩
  -- everything else is read off the region loop, through the new header if there is one
  have hregion : ∀ {q}, IsRegion st.disk.shape p q → IsRegion (st.ensureHeader p).disk.shape p q :=
    fun hq => isRegion_ensureHeader.mpr hq
  have hmem : ∀ {q}, IsRegion st.disk.shape p q → q ∈ mmapobjSlots p h.pesistMmaps :=
    fun hq => (isRegion_iff_mem hh).mp (hregion hq)
  refine ⟨storeInv_restored hs₁ hh hres (ramOk_ensureHeader hr) hplace₁ (unmapped_ensureHeader hun)
    hinit₁ hp, ?_, ?_, ?_, ?_, ?_, ?_, ?_, ?_, ?_, ?_, ?_⟩
  · intro p' q
    rw [hshape]
    exact isRegion_ensureHeader
  · intro q c hq
    rw [hshape]
    exact isChunk_ensureHeader hq
  · intro q hq
    have : (st'.disk.mmapobj q).vmaId = ((st.ensureHeader p).disk.mmapobj q).vmaId :=
      (congrArg (fun s => (s.region q).vmaId) hshape :)
    rw [this, mmapobj_ensureHeader hq]
  · intro q hq
    rw [(hres.record (hmem hq)).dataAddr]
    show place ((st.ensureHeader p).disk.mmapobj q).dataFile = _
    rw [dataFile_eq hs₁ (hregion hq), mmapobj_ensureHeader hq]
  · intro c
    rw [chunk_restored hres, chunk_ensureHeader]
  · rw [hres.data]
    exact data_ensureHeader st p
  · intro q hq k
    rw [entry_restored hh hres (hregion hq), chunk_ensureHeader, mmapobj_ensureHeader hq]
  · intro q k c hq hc
    obtain ⟨hqc, hrest⟩ := entryIn_restored hs₁ hh hres (hregion hq) hc
    rw [chunk_ensureHeader] at hrest
    exact ⟨(isChunk_ensureHeader hq).mp hqc, hrest⟩
  · intro q c hq hqc hv
    have := found_restored hs₁ hh hres (hregion hq) ((isChunk_ensureHeader hq).mpr hqc)
      (by rw [chunk_ensureHeader]; exact hv)
    rwa [chunk_ensureHeader] at this
  · intro p' hne
    refine (sameFiles_ensureHeader hne).trans ⟨?_, ?_, ?_, ?_⟩
    · rw [hres.proc hne]
      exact update_of_ne hne ..
    · intro q hq
      rw [hres.other]
      · rfl
      · intro hmem'
        exact hne (hq.symm.trans ((isRegion_iff_mem hh).mpr hmem').pid_eq)
    · intro c hc
      rw [hres.chunk, if_neg]
      · rfl
      · rintro ⟨⟨q, hq, hqc⟩, -⟩
        have hreg' := (isRegion_iff_mem hh).mpr hq
        exact hne (hc.symm.trans (InScan.pid_eq ⟨q, hreg', (scan_eq hs₁ hreg').mp hqc⟩))
    · intro v
      rw [hres.data]
      rfl
  · have hpid : h.pid = p := hs₁.pid (header_shape hh)
    refine ⟨((mmapobjSlots p h.pesistMmaps).map fun q =>
      ((st.ensureHeader p).disk.mmapobj q).mapping place).reverse, hres.ram.trans ?_⟩
    simp only [Store.openProcess, Ram.frame, ram_ensureHeader, hpid]

/-! ## A restart -/

/-- The store when a new run starts: only the files are left. -/
def Store.reboot (st : Store) : Store := ⟨st.disk, { run := st.ram.run + 1 }⟩

/-- A new run that starts with `nv_initialize`. -/
def restart (st : Store) (place : DataFile → ℕ) (p : ℕ) : Option Store :=
  ((nvInitialize place p).exec st.reboot).map Prod.snd

/-- The store that a restart loads the process into. -/
def Store.started (st : Store) : Store :=
  st.reboot.apply (.ram fun r => { r with gInitialized := true })

/-- A restart is a load in a fresh memory. -/
theorem restart_eq (st : Store) (place : DataFile → ℕ) (p : ℕ) :
    restart st place p = ((loadProcess place p).exec st.started).map Prod.snd := by
  have hinit : ¬ st.reboot.ram.gInitialized = true := by simp [Store.reboot]
  rw [restart, nvInitialize, exec_bind, exec_state, Option.bind_some, if_pos hinit, exec_bind,
    exec_emit, Option.bind_some, exec_bind, Option.map_bind, Option.map_eq_bind]
  rfl

theorem findProcess_started (st : Store) (p : ℕ) : st.started.findProcess p = none := by
  simp [Store.started, Store.apply, Ram.apply, Store.findProcess, Store.reboot]

/-- A new run has nothing in memory. -/
theorem ramOk_started (st : Store) : RamOk st.started := by
  refine ⟨List.Pairwise.nil, ?_, ?_, ?_⟩
  · intro k p hk
    rw [findProcess_started] at hk
    cases hk
  · intro a nd hnd
    cases hnd
  · intro a a' nd nd' hnd
    cases hnd

/-- A restart ends, with all that is known of a load. -/
theorem restart_exec (hs : ShapeOk st.disk.shape) (hp : p ≠ 0) (hplace : PlaceOk st.reboot place p)
    : ∃ st', restart st place p = some st' ∧
      Loads (st.reboot.apply (.ram fun r => { r with gInitialized := true })) st' place p := by
  have hun : Unmapped st.started p := by
    intro a nd q hnd
    simp [Store.started, Store.apply, Ram.apply, Store.reboot] at hnd
  have hplace₀ : PlaceOk st.started place p := ⟨hplace.pos, hplace.apart, hplace.pairwise⟩
  have hs₀ : ShapeOk st.started.disk.shape := hs
  obtain ⟨st', hexec, hloads⟩ :=
    load_exec hs₀ (ramOk_started st) rfl (findProcess_started st p) hp hplace₀
    hun
  exact ⟨st', by rw [restart_eq, hexec]; rfl, hloads⟩
