/-
# The builds of the store

The functions of the store are compiled in several builds.  With `_NVRAM_OPTIMIZE` they consult
caches and fill them; with `_ENABLE_SWIZZLING` a restart keeps the old addresses of the chunks.
A build adds to the functions at a few places only (`Build`), and keeps its tables beside the
store.

Each function is given here once for all builds, as `…In b`.  Without additions it is the
function of `NvMap`, with the same results, the same states and the same failures: a change of
one of them has to be made to both, or `stepIn_plain` fails.
-/
import NvMalloc.Steps
import NvMalloc.Beside

open WriteM Beside

/-! ## Builds -/

/-- What a build with tables `κ` does at the places where the builds differ.  The defaults are
those of the build without additions. -/
structure Build (κ : Type) where
  /-- `find_proc_obj`. -/
  findProcObj : ℕ → Beside Store κ → Option ℕ × κ :=
    fun pid s => (s.store.findProcess pid, s.side)
  /-- The chunk that `get_chunk` returns without a search. -/
  cachedChunk : ℕ → Beside Store κ → Option ChunkPtr := fun _ _ => none
  /-- The pointer that `nv_map_read` goes on with when it does not search the trees. -/
  unsearched : ℕ → Beside Store κ → Option (Option ChunkPtr) := fun _ _ => none
  /-- `locate_mmapobj_node`: the id and the start address of the region, and its record if that
  is known. -/
  locateMmapobjNode : ℕ → Beside Store κ → Option (ℕ × ℕ × Option MmapPtr) :=
    fun addr s => (s.store.locateMmapobjNode addr).map fun nd => (nd.mapId, nd.startAddr, none)
  /-- `get_vma_size`. -/
  getVmaSize : ℕ → Beside Store κ → ℕ := fun vmaId s => s.store.ram.procVmas vmaId
  /-- What `record_vmas` does besides setting `proc_vmas`. -/
  recordVmas : ℕ → ℕ → Beside Store κ → κ := fun _ _ s => s.side
  /-- The end of `add_mmapobj`. -/
  addedMmapobj : MmapPtr → Beside Store κ → κ := fun _ s => s.side
  /-- The end of `add_chunkobj`. -/
  addedChunkobj : ChunkPtr → Beside Store κ → κ := fun _ s => s.side
  /-- What `restore_chunk_objs` does before it updates the pointer of a chunk. -/
  restoringChunk : ChunkPtr → Beside Store κ → κ := fun _ s => s.side
  /-- What `nv_delete` does before it invalidates a chunk. -/
  deletingChunk : ChunkPtr → Beside Store κ → κ := fun _ s => s.side
  /-- What `nv_record_chunk` notes of the request before it adds the chunk. -/
  recordingChunk : ℕ → Beside Store κ → κ := fun _ s => s.side

/-- A build that only adds something to the restoring of a chunk. -/
def restoring {κ : Type} (f : ChunkPtr → Beside Store κ → κ) : Build κ where
  restoringChunk := f

/-- The build without additions. -/
def plain : Build Unit := {}

/-- The functions of a build with tables `κ`. -/
abbrev BuildM (κ : Type) := BesideM Store Write κ

section Functions

variable {κ : Type} (b : Build κ)

/-! ## Lookups -/

/-- `get_chunk`. -/
def getChunkIn (rqst : Rqst) : BuildM κ (Option ChunkPtr) := do
  assert (rqst.chunkId ≠ 0)
  let s ← state
  match b.cachedChunk rqst.chunkId s with
  | some c => return some c
  | none =>
    assert (rqst.pid ≠ 0)
    match ← ask (b.findProcObj rqst.pid) with
    | none => return none
    | some proc =>
      match ← inStore (findMmapobjFromChunkid rqst.chunkId proc) with
      | none => return none
      | some q =>
        let s ← state
        lift (s.store.findChunk q rqst.chunkId)

/-- `check_if_chunk_exists`. -/
def checkIfChunkExistsIn (rqst : Rqst) : BuildM κ (Option ChunkPtr) := do
  match ← getChunkIn b rqst with
  | none => return none
  | some c =>
    let s ← state
    if (s.store.disk.chunk c).valid ≠ .INVALID ∧ (s.store.disk.chunk c).length ≠ 0 then
      emit (.inl (.chunk c fun r => { r with chunkid := genIdFromStr rqst.varName }))
      return some c
    else
      return none

/-! ## Regions and chunks -/

/-- `add_mmapobj`. -/
def addMmapobjIn (q : MmapPtr) (proc : ℕ) : BuildM κ Unit := do
  inStore (addMmapobj q proc)
  note (b.addedMmapobj q)

/-- `add_mmapobj_to_proc`. -/
def addMmapobjToProcIn (proc pid vmaId bytes dataAddr : ℕ) : BuildM κ MmapPtr := do
  let q ← inStore (createMmapobj proc pid vmaId bytes dataAddr)
  addMmapobjIn b q proc
  emit (.inl (.proc proc fun h => { h with pesistMmaps := h.pesistMmaps + 1 }))
  return q

/-- `add_chunkobj`. -/
def addChunkobjIn (q : MmapPtr) (c : ChunkPtr) : BuildM κ Unit := do
  inStore (addChunkobj q c)
  note (b.addedChunkobj c)

/-- `add_chunk_to_mmapobj`. -/
def addChunkToMmapobjIn (rqst : Rqst) (offset nvPtr : ℕ) (q : MmapPtr) : BuildM κ ChunkPtr := do
  let c ← inStore (createChunkobj rqst offset nvPtr q)
  addChunkobjIn b q c
  return c

/-! ## Restoring a process -/

/-- The loop of `restore_chunk_objs`. -/
def restoreChunksIn (q : MmapPtr) (dataAddr : ℕ) : List ChunkPtr → BuildM κ Unit
  | [] => return ()
  | c :: cs => do
    let s ← state
    if (s.store.disk.chunk c).valid = .INVALID then
      restoreChunksIn q dataAddr cs
    else
      note (b.restoringChunk c)
      emit (.inl (.chunk c fun r => { r with nvPtr := dataAddr + r.offset }))
      addChunkobjIn b q c
      restoreChunksIn q dataAddr cs

/-- `restore_chunk_objs`. -/
def restoreChunkObjsIn (place : DataFile → ℕ) (q : MmapPtr) : BuildM κ Unit := do
  let s ← state
  let m := s.store.disk.mmapobj q
  let file : DataFile := ⟨m.procId, m.vmaId⟩
  emit (.inl (.mmapobj q fun m => { m with chunkTreeInit := false }))
  emit (.inl (.mmapobj q fun r =>
    { r with strtAddr := some ⟨m.procId, baseMetadataNvid + m.vmaId⟩ }))
  if (s.store.disk.data file).isSome then
    emit (.inl (.ram fun r => { r with maps := ⟨place file, m.length, file⟩ :: r.maps }))
    emit (.inl (.mmapobj q fun m => { m with dataAddr := place file }))
    assert (place file ≠ 0)
    if m.numchunks ≠ 0 then
      inStore (initChunkTree q)
    restoreChunksIn b q (place file)
      (chunkSlots ⟨m.procId, baseMetadataNvid + m.vmaId⟩ m.numchunks)

/-- The loop of `load_process`: a region is registered before it is mapped. -/
def restoreMmapobjsIn (place : DataFile → ℕ) (proc : ℕ) : List MmapPtr → BuildM κ Unit
  | [] => return ()
  | q :: qs => do
    addMmapobjIn b q proc
    restoreChunkObjsIn b place q
    restoreMmapobjsIn place proc qs

/-- The first part of `load_process`, which opens the header of the process. -/
def loadHeader (pid : ℕ) : NvM ℕ := do
  let st ← state
  assert (st.ram.gInitialized = true)
  let proc ← createOrLoadProcObj pid
  emit (.proc proc fun h => { h with mmapobjInitialized := false })
  emit (.proc proc fun h => { h with mmapobjTree := none })
  addProcObj proc
  initializeMmapobjTree proc
  return proc

/-- `load_process`. -/
def loadProcessIn (place : DataFile → ℕ) (pid : ℕ) : BuildM κ ℕ := do
  let proc ← inStore (loadHeader pid)
  let s ← state
  let h ← lift (s.store.disk.proc proc)
  restoreMmapobjsIn b place proc (mmapobjSlots proc h.pesistMmaps)
  return proc

/-- `nv_initialize`. -/
def nvInitializeIn (place : DataFile → ℕ) (pid : ℕ) : BuildM κ Unit := do
  let s ← state
  if ¬ s.store.ram.gInitialized then
    emit (.inl (.ram fun r => { r with gInitialized := true }))
    let _ ← loadProcessIn b place pid

/-! ## Operations -/

/-- The process of `_mmap`: known already, or `create_or_load_proc_obj`. -/
def findOrLoadProcessIn (pid : ℕ) : BuildM κ ℕ := do
  match ← ask (b.findProcObj pid) with
  | some proc => return proc
  | none => inStore (createOrLoadProcObj pid)

/-- `_mmap`. -/
def mmapRegionIn (pid size addr : ℕ) : BuildM κ Unit := do
  assert (pid ≠ 0)
  let proc ← findOrLoadProcessIn b pid
  let s ← state
  let h ← lift (s.store.disk.proc proc)
  let vmaId := h.numMmaps + 1
  emit (.inl (.proc proc fun h => { h with numMmaps := h.numMmaps + 1 }))
  emit (.inl (.dataFile ⟨pid, vmaId⟩ (toUint size)))
  emit (.inl (.ram fun r => { r with maps := ⟨addr, size, ⟨pid, vmaId⟩⟩ :: r.maps }))
  assert (addr ≠ 0)
  emit (.inl (.ram fun r =>
    { r with mapTree := r.mapTree.insert addr ⟨addr, addr + size, vmaId, pid⟩ }))
  emit (.inl (.ram fun r => { r with procVmas := Function.update r.procVmas vmaId size }))
  note (b.recordVmas vmaId size)

/-- `nv_delete`. -/
def nvDeleteIn (rqst : Rqst) : BuildM κ ℤ := do
  assert (rqst.pid ≠ 0)
  let found ← ask (b.findProcObj rqst.pid)
  let proc ← lift found
  match ← getChunkIn b rqst with
  | none => return -1
  | some c =>
    note (b.deletingChunk c)
    emit (.inl (.chunk c fun r => { r with commitsz := 0 }))
    emit (.inl (.chunk c fun r => { r with valid := .INVALID }))
    let s ← state
    let chunkid := (s.store.disk.chunk c).chunkid
    match ← inStore (findMmapobjFromChunkid chunkid proc) with
    | none => return -1
    | some q =>
      let s ← state
      match (s.store.disk.mmapobj q).chunkobjTree with
      | none => pure ()
      | some t =>
        let _ ← lift (t.deref s.store.ram.run)
        emit (.inl (.mmapobj q fun m => m.deleteEntry chunkid))
      emit (.inl (.ram fun r => { r with objnamemap := r.objnamemap.erase rqst.varName }))
      return 0

/-- The process of an allocation: known already, or `create_new_process`. -/
def findOrCreateProcessIn (pid : ℕ) : BuildM κ ℕ := do
  match ← ask (b.findProcObj pid) with
  | some proc => return proc
  | none =>
    let proc ← inStore (createOrLoadProcObj pid)
    inStore (addProcObj proc)
    return proc

/-- The region of an allocation: located with its record, or known to the process already, or
`add_mmapobj_to_proc` with the size of its id. -/
def findOrAddMmapobjIn (proc pid vmaId start : ℕ) : Option MmapPtr → BuildM κ MmapPtr
  | some q => do
    let s ← state
    assert ((s.store.disk.mmapobj q).length ≠ 0)
    return q
  | none => do
    match ← inStore (findMmapobj vmaId proc) with
    | some q =>
      let s ← state
      assert ((s.store.disk.mmapobj q).length ≠ 0)
      return q
    | none =>
      let s ← state
      addMmapobjToProcIn b proc pid vmaId (b.getVmaSize vmaId s) start

/-- The end of `nv_record_chunk`. -/
def replaceChunkIn (id : ℕ) (c : ChunkPtr) : Option ChunkPtr → BuildM κ Unit
  | none => return ()
  | some old => do
    let s ← state
    let n := min (s.store.disk.chunk old).length (s.store.disk.chunk c).length
    let bs ← lift (s.store.loadBytes (s.store.disk.chunk old).nvPtr n)
    let ws ← lift (s.store.storeBytes (s.store.disk.chunk c).nvPtr bs)
    inStore (emits ws)
    emit (.inl (.chunk c fun r => { r with commitsz := (s.store.disk.chunk old).commitsz }))
    let _ ← nvDeleteIn b
      { pid := (s.store.disk.chunk old).pid, id := id, varName := (s.store.disk.chunk old).objname }

/-- The difference of two addresses, as an `unsigned long`. -/
def subUlong (a b : ℕ) : ℕ := if b ≤ a then a - b else a + 2 ^ 64 - b

/-- `nv_record_chunk`. -/
def nvRecordChunkIn (rqst : Rqst) (addr : ℕ) : BuildM κ Unit := do
  let s ← state
  assert (s.store.ram.gInitialized = true)
  let proc ← findOrCreateProcessIn b rqst.pid
  let oldchunk ← checkIfChunkExistsIn b rqst
  let s ← state
  let (vmaId, start, found) ← lift (b.locateMmapobjNode addr s)
  assert (vmaId ≠ 0)
  assert (start ≠ 0)
  let q ← findOrAddMmapobjIn b proc rqst.pid vmaId start found
  let id := genIdFromStr rqst.varName
  assert (id ≠ 0)
  note (b.recordingChunk rqst.pid)
  let c ← addChunkToMmapobjIn b { rqst with id := id } (subUlong addr start) addr q
  emit (.inl (.mmapobj q fun m => { m with numchunks := m.numchunks + 1 }))
  replaceChunkIn b id c oldchunk
  emit (.inl (.ram fun r => { r with chunkmap := Function.update r.chunkmap addr (some c) }))

/-- `nv_commit_len`. -/
def nvCommitLenIn (rqst : Rqst) (size : ℕ) : BuildM κ ℤ := do
  let found ← getChunkIn b rqst
  let c ← lift found
  emit (.inl (.chunk c fun r => { r with commitsz := toUint size }))
  let s ← state
  assert ((s.store.disk.chunk c).length ≠ 0)
  return 0

/-- `nv_rename`. -/
def nvRenameIn (srcRqst : Rqst) (destname : ObjName) : BuildM κ Unit := do
  match ← getChunkIn b srcRqst with
  | none => return ()
  | some c =>
    let s ← state
    let found ← ask (b.findProcObj srcRqst.pid)
    let proc ← lift found
    match ← inStore (findMmapobjFromChunkid (s.store.disk.chunk c).chunkid proc) with
    | none => return ()
    | some q =>
      if (s.store.disk.chunk c).length ≠ 0 then
        emit (.inl (.chunk c fun r => { r with chunkid := genIdFromStr destname }))
        emit (.inl (.chunk c fun r => { r with objname := destname }))
        emit (.inl (.chunk c fun r => { r with valid := .VALID }))
        addChunkobjIn b q c
      emit (.inl (.ram fun r => { r with objnamemap := r.objnamemap.erase srcRqst.varName }))
      emit (.inl (.ram fun r => { r with objnamemap := insert destname r.objnamemap }))

/-- The end of `nv_map_read`, for the chunk it goes on with. -/
def readChunk (c : ChunkPtr) : NvM (Option ReadResult) := do
  let st ← state
  let r := st.disk.chunk c
  assert (r.nvPtr ≠ 0)
  assert (r.length ≠ 0)
  return if r.valid = .INVALID then none else some ⟨r.nvPtr, r.length, r.commitsz⟩

/-- `nv_map_read`. -/
def nvMapReadIn (place : DataFile → ℕ) (rqst : Rqst) : BuildM κ (Option ReadResult) := do
  let s ← state
  let proc ← match s.store.findProcess rqst.pid with
    | some proc => pure proc
    | none => loadProcessIn b place rqst.pid
  let s ← state
  match b.unsearched rqst.chunkId s with
  | some found =>
    let c ← lift found
    inStore (readChunk c)
  | none =>
    match ← inStore (findMmapobjFromChunkid rqst.chunkId proc) with
    | none => return none
    | some q =>
      let s ← state
      let t ← lift (s.store.disk.mmapobj q).chunkobjTree
      let tree ← lift (t.deref s.store.ram.run)
      let c ← lift (tree.find rqst.chunkId)
      inStore (readChunk c)

/-! ## Runs -/

/-- `nv_map_read`, then load the bytes behind the pointer. -/
def readObjectIn (place : DataFile → ℕ) (p : ℕ) (n : ObjName) : BuildM κ (Option Obj) := do
  match ← nvMapReadIn b place (request p n) with
  | none => return none
  | some r =>
    let s ← state
    let bs ← lift (s.store.loadBytes r.nvPtr r.bytes)
    return some ⟨r.bytes, r.commitsz, bs⟩

/-- Store bytes at an offset of an object, through the pointer of `nv_map_read`. -/
def writeObjectIn (p : ℕ) (n : ObjName) (off : ℕ) (bs : List UInt8) : BuildM κ Unit := do
  let found ← nvMapReadIn b (fun _ => 0) (request p n)
  let r ← lift found
  let s ← state
  let ws ← lift (s.store.storeBytes (r.nvPtr + off) bs)
  inStore (emits ws)

/-- A new run, which starts with the tables `init`. -/
def restartIn (init : κ) (s : Beside Store κ) (place : DataFile → ℕ) (p : ℕ) :
    Option (Beside Store κ) :=
  ((nvInitializeIn b place p).exec ⟨s.store.reboot, init⟩).map Prod.snd

/-- One operation for process `p`. -/
def stepIn (init : κ) (p : ℕ) (s : Beside Store κ) : Op → Option (Ret × Beside Store κ)
  | .mmap size addr => ((mmapRegionIn b p size addr).exec s).map fun r => (.done, r.2)
  | .alloc n bytes addr =>
    ((nvRecordChunkIn b (allocRqst p n bytes) addr).exec s).map fun r => (.done, r.2)
  | .commit n size => ((nvCommitLenIn b (request p n) size).exec s).map fun r => (.status r.1, r.2)
  | .delete n => ((nvDeleteIn b (request p n)).exec s).map fun r => (.status r.1, r.2)
  | .read n place => ((readObjectIn b place p n).exec s).map fun r => (.object r.1, r.2)
  | .write n off bs => ((writeObjectIn b p n off bs).exec s).map fun r => (.done, r.2)
  | .rename a d => ((nvRenameIn b (request p a) d).exec s).map fun r => (.done, r.2)
  | .restart place => (restartIn b init s place p).map fun s' => (.done, s')

end Functions

/-! ## Restarts -/

section Restart

variable {κ : Type} (b : Build κ) {place : DataFile → ℕ} {p : ℕ}

/-- `load_process` of a process that is not registered yet is the loop over its regions. -/
theorem loadProcessIn_exec_eq {s : Beside Store κ} {h : ProcObj}
    (hinit : s.store.ram.gInitialized = true) (hreg : s.store.findProcess p = none)
    (hh : (s.store.ensureHeader p).disk.proc p = some h) :
    (loadProcessIn b place p).exec s =
      ((restoreMmapobjsIn b place p (mmapobjSlots p h.pesistMmaps)).exec
        ⟨(s.store.ensureHeader p).openProcess p h, s.side⟩).map fun r => (p, r.2) := by
  have hcreate := createOrLoadProcObj_exec_of_unregistered hreg
  revert hcreate hh
  generalize s.store.ensureHeader p = st₁
  intro hh hcreate
  simp [loadProcessIn, loadHeader, addProcObj, initializeMmapobjTree, exec_bind, hinit, hcreate,
    WriteEffect.apply, Store.apply, Disk.apply, Ram.apply, hh, Store.openProcess]
  rw [Option.map_eq_bind]
  rfl

theorem restartIn_eq (init : κ) (s : Beside Store κ) :
    restartIn b init s place p =
      ((loadProcessIn b place p).exec ⟨s.store.started, init⟩).map Prod.snd := by
  have hinit : ¬ s.store.reboot.ram.gInitialized = true := by simp [Store.reboot]
  rw [restartIn, nvInitializeIn, exec_bind, exec_state, Option.bind_some, if_pos hinit,
    exec_bind, exec_emit, Option.bind_some, exec_bind, Option.map_bind, Option.map_eq_bind]
  rfl

end Restart

/-! ## Builds without additions -/

section Restoring

variable {κ : Type} {f : ChunkPtr → Beside Store κ → κ} {s : Beside Store κ}

theorem mirrors_getChunk (rqst : Rqst) :
    Mirrors (getChunkIn (restoring f) rqst) (getChunk rqst) s := by
  refine mirrors_assert_bind fun _ => ?_
  refine mirrors_look (mirrors_assert_bind fun _ => ?_)
  refine mirrors_ask_bind rfl (mirrors_state ?_)
  show Mirrors (match s.store.findProcess rqst.pid with | none => _ | some proc => _) _ s
  cases s.store.findProcess rqst.pid with
  | none => exact mirrors_pure _
  | some proc =>
    refine mirrors_inStore_bind fun found st _ => ?_
    cases found with
    | none => exact mirrors_pure _
    | some q => exact mirrors_state_bind (mirrors_lift _)

theorem mirrors_checkIfChunkExists (rqst : Rqst) :
    Mirrors (checkIfChunkExistsIn (restoring f) rqst) (checkIfChunkExists rqst) s := by
  refine mirrors_bind (mirrors_getChunk rqst) fun found st _ => ?_
  cases found with
  | none => exact mirrors_pure _
  | some c =>
    refine mirrors_state_bind ?_
    dsimp only
    split
    · exact mirrors_emit_bind (mirrors_pure _)
    · exact mirrors_pure _

theorem mirrors_addMmapobj (q : MmapPtr) (proc : ℕ) :
    Mirrors (addMmapobjIn (restoring f) q proc) (addMmapobj q proc) s :=
  (mirrors_inStore _).then_note fun _ => rfl

theorem mirrors_addMmapobjToProc (proc pid vmaId bytes dataAddr : ℕ) :
    Mirrors (addMmapobjToProcIn (restoring f) proc pid vmaId bytes dataAddr)
      (addMmapobjToProc proc pid vmaId bytes dataAddr) s :=
  mirrors_inStore_bind fun q _ _ => mirrors_bind (mirrors_addMmapobj q proc) fun _ _ _ =>
    mirrors_emit_bind (mirrors_pure _)

theorem mirrors_addChunkobj (q : MmapPtr) (c : ChunkPtr) :
    Mirrors (addChunkobjIn (restoring f) q c) (addChunkobj q c) s :=
  (mirrors_inStore _).then_note fun _ => rfl

theorem mirrors_addChunkToMmapobj (rqst : Rqst) (offset nvPtr : ℕ) (q : MmapPtr) :
    Mirrors (addChunkToMmapobjIn (restoring f) rqst offset nvPtr q)
      (addChunkToMmapobj rqst offset nvPtr q) s :=
  mirrors_inStore_bind fun c _ _ => mirrors_bind (mirrors_addChunkobj q c) fun _ _ _ =>
    mirrors_pure _

/-- `load_process` after its first part. -/
theorem loadProcess_eq (place : DataFile → ℕ) (pid : ℕ) : loadProcess place pid = (do
    let proc ← loadHeader pid
    let st ← state
    let h ← lift (st.disk.proc proc)
    restoreMmapobjs place proc (mmapobjSlots proc h.pesistMmaps)
    return proc) := by
  simp only [loadProcess, loadHeader, bind_bind, pure_bind_eq]

/-- `create_or_load_proc_obj` finds a registered process itself. -/
theorem mirrors_findOrLoadProcess (pid : ℕ) :
    Mirrors (findOrLoadProcessIn (restoring f) pid) (createOrLoadProcObj pid) s := by
  refine mirrors_ask_bind rfl ?_
  show Mirrors (match s.store.findProcess pid with | some proc => _ | none => _) _ s
  cases hreg : s.store.findProcess pid with
  | none => exact mirrors_inStore _
  | some proc =>
    refine mirrors_state ?_
    rw [hreg]
    exact mirrors_pure _

theorem mirrors_mmapRegion (pid size addr : ℕ) :
    Mirrors (mmapRegionIn (restoring f) pid size addr) (mmapRegion pid size addr) s := by
  refine mirrors_assert_bind fun _ => ?_
  refine mirrors_bind (mirrors_findOrLoadProcess pid) fun proc _ _ => ?_
  refine mirrors_state_bind (mirrors_lift_bind fun h _ => ?_)
  refine mirrors_emit_bind (mirrors_emit_bind (mirrors_emit_bind (mirrors_assert_bind fun _ => ?_)))
  exact mirrors_emit_bind ((mirrors_emit _).then_note fun _ => rfl)

theorem mirrors_nvDelete (rqst : Rqst) :
    Mirrors (nvDeleteIn (restoring f) rqst) (nvDelete rqst) s := by
  refine mirrors_assert_bind fun _ => ?_
  refine mirrors_ask_bind rfl (mirrors_state (mirrors_lift_bind fun proc _ => ?_))
  refine mirrors_bind (mirrors_getChunk rqst) fun found _ _ => ?_
  cases found with
  | none => exact mirrors_pure _
  | some c =>
    refine mirrors_note_bind rfl (mirrors_emit_bind (mirrors_emit_bind (mirrors_state_bind ?_)))
    refine mirrors_inStore_bind fun region st _ => ?_
    cases region with
    | none => exact mirrors_pure _
    | some q =>
      refine mirrors_state_bind ?_
      dsimp only
      cases (st.disk.mmapobj q).chunkobjTree with
      | none => exact mirrors_emit_bind (mirrors_pure _)
      | some t =>
        exact mirrors_lift_bind fun _ _ => mirrors_emit_bind (mirrors_emit_bind (mirrors_pure _))

theorem mirrors_findOrCreateProcess (pid : ℕ) :
    Mirrors (findOrCreateProcessIn (restoring f) pid) (findOrCreateProcess pid) s := by
  refine mirrors_ask_bind rfl (mirrors_state ?_)
  show Mirrors (match s.store.findProcess pid with | some proc => _ | none => _) _ s
  cases s.store.findProcess pid with
  | some proc => exact mirrors_pure _
  | none =>
    exact mirrors_inStore_bind fun _ _ _ => mirrors_inStore_bind fun _ _ _ => mirrors_pure _

theorem mirrors_findOrAddMmapobj (proc pid : ℕ) (node : MmapobjNode) :
    Mirrors (findOrAddMmapobjIn (restoring f) proc pid node.mapId node.startAddr none)
      (findOrAddMmapobj proc pid node) s := by
  refine mirrors_inStore_bind fun found _ _ => ?_
  cases found with
  | some q => exact mirrors_state_bind (mirrors_assert_bind fun _ => mirrors_pure _)
  | none => exact mirrors_state_bind (mirrors_addMmapobjToProc _ _ _ _ _)

theorem mirrors_replaceChunk (id : ℕ) (c : ChunkPtr) (old : Option ChunkPtr) :
    Mirrors (replaceChunkIn (restoring f) id c old) (replaceChunk id c old) s := by
  cases old with
  | none => exact mirrors_pure _
  | some o =>
    refine mirrors_state_bind (mirrors_lift_bind fun _ _ => mirrors_lift_bind fun _ _ => ?_)
    refine mirrors_inStore_bind fun _ _ _ => mirrors_emit_bind ?_
    exact mirrors_bind (mirrors_nvDelete _) fun _ _ _ => mirrors_pure _

theorem mirrors_nvCommitLen (rqst : Rqst) (size : ℕ) :
    Mirrors (nvCommitLenIn (restoring f) rqst size) (nvCommitLen rqst size) s :=
  mirrors_bind (mirrors_getChunk rqst) fun _ _ _ => mirrors_lift_bind fun _ _ =>
    mirrors_emit_bind (mirrors_state_bind (mirrors_assert_bind fun _ => mirrors_pure _))

theorem mirrors_nvRename (rqst : Rqst) (dest : ObjName) :
    Mirrors (nvRenameIn (restoring f) rqst dest) (nvRename rqst dest) s := by
  refine mirrors_bind (mirrors_getChunk rqst) fun found st _ => ?_
  cases found with
  | none => exact mirrors_pure _
  | some c =>
    refine mirrors_state_bind (mirrors_ask_bind rfl (mirrors_lift_bind fun proc _ => ?_))
    refine mirrors_inStore_bind fun region _ _ => ?_
    cases region with
    | none => exact mirrors_pure _
    | some q =>
      dsimp only
      split
      · refine mirrors_emit_bind (mirrors_emit_bind (mirrors_emit_bind ?_))
        exact mirrors_bind (mirrors_addChunkobj q c) fun _ _ _ =>
          mirrors_emit_bind (mirrors_emit _)
      · exact mirrors_emit_bind (mirrors_emit _)

/-- `nv_map_read`, where the process is in memory or is loaded alike. -/
theorem mirrors_nvMapRead (place : DataFile → ℕ) (rqst : Rqst)
    (hload : s.store.findProcess rqst.pid = none →
      Mirrors (loadProcessIn (restoring f) place rqst.pid) (loadProcess place rqst.pid) s) :
    Mirrors (nvMapReadIn (restoring f) place rqst) (nvMapRead place rqst) s := by
  refine mirrors_state_bind ?_
  have hend : ∀ (proc : ℕ) (s : Beside Store κ), Mirrors (do
      let s ← state
      match (restoring f).unsearched rqst.chunkId s with
      | some found =>
        let c ← lift found
        inStore (readChunk c)
      | none =>
        match ← inStore (findMmapobjFromChunkid rqst.chunkId proc) with
        | none => return none
        | some q =>
          let s ← state
          let t ← lift (s.store.disk.mmapobj q).chunkobjTree
          let tree ← lift (t.deref s.store.ram.run)
          let c ← lift (tree.find rqst.chunkId)
          inStore (readChunk c)) (do
      match ← findMmapobjFromChunkid rqst.chunkId proc with
      | none => return none
      | some q =>
        let st ← state
        let t ← lift (st.disk.mmapobj q).chunkobjTree
        let tree ← lift (t.deref st.ram.run)
        let c ← lift (tree.find rqst.chunkId)
        let r := st.disk.chunk c
        assert (r.nvPtr ≠ 0)
        assert (r.length ≠ 0)
        return if r.valid = .INVALID then none else some ⟨r.nvPtr, r.length, r.commitsz⟩) s := by
    intro proc s
    refine mirrors_look (mirrors_inStore_bind fun found st _ => ?_)
    cases found with
    | none => exact mirrors_pure _
    | some q =>
      refine mirrors_state_bind (mirrors_lift_bind fun _ _ => mirrors_lift_bind fun _ _ => ?_)
      refine mirrors_lift_bind fun c _ => ?_
      -- the end reads the state once more
      exact (mirrors_inStore (readChunk c)).trans (by rw [readChunk, exec_bind, exec_state]; rfl)
  cases hreg : s.store.findProcess rqst.pid with
  | some proc => exact mirrors_bind (mirrors_pure proc) fun proc _ _ => hend proc _
  | none => exact mirrors_bind (hload hreg) fun proc _ _ => hend proc _

end Restoring

section Plain

variable {s : Beside Store Unit}

theorem mirrors_restoreChunks (q : MmapPtr) (dataAddr : ℕ) (cs : List ChunkPtr) :
    Mirrors (restoreChunksIn plain q dataAddr cs) (restoreChunks q dataAddr cs) s := by
  induction cs generalizing s with
  | nil => exact mirrors_pure _
  | cons c cs ih =>
    refine mirrors_state_bind ?_
    split
    · exact ih
    · refine mirrors_note_bind rfl (mirrors_emit_bind ?_)
      exact mirrors_bind (mirrors_addChunkobj q c) fun _ _ _ => ih

theorem mirrors_restoreChunkObjs (place : DataFile → ℕ) (q : MmapPtr) :
    Mirrors (restoreChunkObjsIn plain place q) (restoreChunkObjs place q) s := by
  refine mirrors_state_bind (mirrors_emit_bind (mirrors_emit_bind ?_))
  dsimp only
  split
  · refine mirrors_emit_bind (mirrors_emit_bind (mirrors_assert_bind fun _ => ?_))
    split
    · exact mirrors_inStore_bind fun _ _ _ => mirrors_restoreChunks _ _ _
    · exact mirrors_restoreChunks _ _ _
  · exact mirrors_pure _

theorem mirrors_restoreMmapobjs (place : DataFile → ℕ) (proc : ℕ) (qs : List MmapPtr) :
    Mirrors (restoreMmapobjsIn plain place proc qs) (restoreMmapobjs place proc qs) s := by
  induction qs generalizing s with
  | nil => exact mirrors_pure _
  | cons q qs ih =>
    exact mirrors_bind (mirrors_addMmapobj q proc) fun _ _ _ =>
      mirrors_bind (mirrors_restoreChunkObjs place q) fun _ _ _ => ih

theorem mirrors_loadProcess (place : DataFile → ℕ) (pid : ℕ) :
    Mirrors (loadProcessIn plain place pid) (loadProcess place pid) s := by
  rw [loadProcess_eq]
  refine mirrors_inStore_bind fun proc _ _ => mirrors_state_bind (mirrors_lift_bind fun h _ => ?_)
  exact mirrors_bind (mirrors_restoreMmapobjs place proc _) fun _ _ _ => mirrors_pure _

theorem mirrors_nvInitialize (place : DataFile → ℕ) (pid : ℕ) :
    Mirrors (nvInitializeIn plain place pid) (nvInitialize place pid) s := by
  refine mirrors_state_bind ?_
  split
  · exact mirrors_emit_bind (mirrors_bind (mirrors_loadProcess place pid) fun _ _ _ =>
      mirrors_pure _)
  · exact mirrors_pure _

end Plain
