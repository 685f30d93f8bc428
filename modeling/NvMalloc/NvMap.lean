/-
# The object store of `nv_map.cc`

The functions of `nv_map.cc` for the direct-mapped build (no shadow copies, no
transactions, no lookup caches), under their own names.  Each one is a program
of reads, writes and assertions over the store.

A function that follows a tree pointer of an earlier run, reads a process header
that is not there, touches an address no data file is mapped at, or appends a
record past the end of a metadata file, is undefined, which counts like a failed
assertion.

The kernel's and the allocator's answers (the address a file is mapped at, the
block an allocation gets) are arguments.
-/
import NvMalloc.NvStructs

open WriteM

/-! ## Requests -/

/-- `rqst_s`, as far as the store reads it. -/
structure Rqst where
  pid : ℕ
  id : ℕ := 0
  bytes : ℕ := 0
  varName : ObjName

/-- The id a request asks for: its own, or the hash of its name. -/
def Rqst.chunkId (rqst : Rqst) : ℕ := if rqst.id = 0 then genIdFromStr rqst.varName else rqst.id

/-! ## Mapped bytes -/

namespace Store

/-- The file and the offset behind an address. -/
def resolve (st : Store) (a : ℕ) : Option (DataFile × ℕ) := do
  let m ← st.ram.maps.find? fun m => m.base ≤ a ∧ a < m.base + m.size
  let x ← st.disk.data m.file
  if a - m.base < x.size then some (m.file, a - m.base) else none

/-- Load a byte. -/
def loadByte (st : Store) (a : ℕ) : Option UInt8 := do
  let (f, o) ← st.resolve a
  let x ← st.disk.data f
  return x.bytes o

/-- Load `n` bytes. -/
def loadBytes (st : Store) : ℕ → ℕ → Option (List UInt8)
  | _, 0 => some []
  | a, n + 1 => do
    let b ← st.loadByte a
    let bs ← st.loadBytes (a + 1) n
    return b :: bs

/-- The writes that store some bytes. -/
def storeBytes (st : Store) : ℕ → List UInt8 → Option (List Write)
  | _, [] => some []
  | a, b :: bs => do
    let (f, o) ← st.resolve a
    let ws ← st.storeBytes (a + 1) bs
    return Write.byte f o b :: ws

/-! ## Lookups -/

/-- `find_process`, and `find_proc_obj` without its one-entry cache. -/
def findProcess (st : Store) (pid : ℕ) : Option ℕ := st.ram.procTree.find pid

/-- `find_chunk`. -/
def findChunk (st : Store) (q : MmapPtr) (chunkid : ℕ) : Option (Option ChunkPtr) :=
  match (st.disk.mmapobj q).chunkobjTree with
  | none => some none
  | some t => (t.deref st.ram.run).map (·.find chunkid)

/-- The test of one region in `find_vmaid_from_chunk`. -/
def searchRegion (st : Store) (q : MmapPtr) (chunkid : ℕ) : Option (Option ChunkPtr) :=
  if (st.disk.mmapobj q).chunkTreeInit then st.findChunk q chunkid else some none

/-- `find_vmaid_from_chunk`: the right subtree, the node, then the left subtree. -/
def findVmaidFromChunk (st : Store) (chunkid : ℕ) : RbtreeNode MmapPtr → Option ℕ
  | .nil => some 0
  | .node _ l _ q r => do
    let ret ← st.findVmaidFromChunk chunkid r
    if ret ≠ 0 then
      return ret
    else
      match ← st.searchRegion q chunkid with
      | some _ => return (st.disk.mmapobj q).vmaId
      | none => st.findVmaidFromChunk chunkid l

end Store

/-- `CompRange`: an address matches the region that contains it. -/
def compRange (addr : ℕ) (key : ℕ) (node : MmapobjNode) : Ordering :=
  if key < addr ∧ addr < node.endAddr then .eq
  else if key < addr then .gt
  else if addr < key then .lt
  else .eq

/-- `locate_mmapobj_node`. -/
def Store.locateMmapobjNode (st : Store) (addr : ℕ) : Option MmapobjNode :=
  st.ram.mapTree.findBy (compRange addr)

/-- `initialize_mmapobj_tree`. -/
def initializeMmapobjTree (proc : ℕ) : NvM Unit := do
  let st ← state
  let h ← lift (st.disk.proc proc)
  if h.mmapobjTree.isNone then
    emit (.proc proc fun h => { h with mmapobjTree := some (.create st.ram.run) })
    emit (.proc proc fun h => { h with mmapobjInitialized := true })

/-- `find_mmapobj_from_chunkid`. -/
def findMmapobjFromChunkid (chunkid proc : ℕ) : NvM (Option MmapPtr) := do
  let st ← state
  let h ← lift (st.disk.proc proc)
  if h.mmapobjInitialized then
    match h.mmapobjTree with
    | none => return none
    | some t =>
      let tree ← lift (t.deref st.ram.run)
      let vmid ← lift (st.findVmaidFromChunk chunkid tree.root)
      return if vmid = 0 then none else tree.find vmid
  else
    initializeMmapobjTree proc
    return none

/-- `find_mmapobj`. -/
def findMmapobj (vmid proc : ℕ) : NvM (Option MmapPtr) := do
  let st ← state
  let h ← lift (st.disk.proc proc)
  if h.mmapobjInitialized then
    let t ← lift h.mmapobjTree
    let tree ← lift (t.deref st.ram.run)
    return tree.find vmid
  else
    initializeMmapobjTree proc
    return none

/-- `get_chunk`. -/
def getChunk (rqst : Rqst) : NvM (Option ChunkPtr) := do
  assert (rqst.chunkId ≠ 0)
  assert (rqst.pid ≠ 0)
  let st ← state
  match st.findProcess rqst.pid with
  | none => return none
  | some proc =>
    match ← findMmapobjFromChunkid rqst.chunkId proc with
    | none => return none
    | some q =>
      let st ← state
      lift (st.findChunk q rqst.chunkId)

/-- `check_if_chunk_exists`: a chunk that is found gets the id of the name. -/
def checkIfChunkExists (rqst : Rqst) : NvM (Option ChunkPtr) := do
  match ← getChunk rqst with
  | none => return none
  | some c =>
    let st ← state
    if (st.disk.chunk c).valid ≠ .INVALID ∧ (st.disk.chunk c).length ≠ 0 then
      emit (.chunk c fun r => { r with chunkid := genIdFromStr rqst.varName })
      return some c
    else
      return none

/-! ## Processes -/

/-- `create_or_load_proc_obj`. -/
def createOrLoadProcObj (pid : ℕ) : NvM ℕ := do
  let st ← state
  match st.findProcess pid with
  | some proc => return proc
  | none =>
    if (st.disk.proc pid).isNone then
      emit (.procFile pid)
    emit (.ram fun r => { r with procMapStart := some pid })
    return pid

/-- `add_proc_obj`. -/
def addProcObj (proc : ℕ) : NvM Unit := do
  let st ← state
  let h ← lift (st.disk.proc proc)
  emit (.ram fun r => { r with procTree := r.procTree.insert h.pid proc })

/-! ## Regions and chunks -/

/-- `init_chunk_tree`. -/
def initChunkTree (q : MmapPtr) : NvM Unit := do
  let st ← state
  emit (.mmapobj q fun m => { m with chunkobjTree := some (.create st.ram.run) })
  emit (.mmapobj q fun m => { m with chunkTreeInit := true })

/-- The end of a record, as the next `meta_offset`.  The code does not compare it with the size of
the mapping; a record outside its mapping has no meaning here, so programs are `bounded`, and the
32 bits of the offset matter only when they are not. -/
def recordEnd (bounded : Bool) (n : ℕ) : ℕ := if bounded then n else toUint n

@[simp] theorem recordEnd_true (n : ℕ) : recordEnd true n = n := rfl

/-- `create_mmapobj`: the record goes where `proc_map_start` points, at the
header's `meta_offset`, which is advanced first. -/
def createMmapobj (proc pid vmaId bytes dataAddr : ℕ) (bounded : Bool := true) : NvM MmapPtr := do
  let st ← state
  let start ← lift st.ram.procMapStart
  let h ← lift (st.disk.proc proc)
  let q : MmapPtr := ⟨start, h.metaOffset⟩
  assert (bounded → h.metaOffset + sizeofMmapobj ≤ procMetadatSz)
  emit (.proc proc fun h =>
    { h with metaOffset := recordEnd bounded (h.metaOffset + sizeofMmapobj) })
  emit (.mmapobj q fun m => { m with vmaId := vmaId })
  emit (.mmapobj q fun m => { m with length := bytes })
  emit (.mmapobj q fun m => { m with procId := pid })
  emit (.mmapobj q fun m => { m with dataAddr := dataAddr })
  emit (.metaFile ⟨pid, baseMetadataNvid + vmaId⟩)
  emit (.mmapobj q fun m => { m with strtAddr := some ⟨pid, baseMetadataNvid + vmaId⟩ })
  initChunkTree q
  return q

/-- `add_mmapobj`. -/
def addMmapobj (q : MmapPtr) (proc : ℕ) : NvM Unit := do
  let st ← state
  let h ← lift (st.disk.proc proc)
  if ¬ h.mmapobjInitialized then
    initializeMmapobjTree proc
  let st ← state
  let h ← lift (st.disk.proc proc)
  let t ← lift h.mmapobjTree
  let _ ← lift (t.deref st.ram.run)
  let vmaId := (st.disk.mmapobj q).vmaId
  emit (.proc proc fun h => h.insertMmapobj vmaId q)

/-- `add_mmapobj_to_proc`. -/
def addMmapobjToProc (proc pid vmaId bytes dataAddr : ℕ) (bounded : Bool := true) :
    NvM MmapPtr := do
  let q ← createMmapobj proc pid vmaId bytes dataAddr bounded
  addMmapobj q proc
  emit (.proc proc fun h => { h with pesistMmaps := h.pesistMmaps + 1 })
  return q

/-- `add_chunkobj`. -/
def addChunkobj (q : MmapPtr) (c : ChunkPtr) : NvM Unit := do
  let st ← state
  let t ← lift (st.disk.mmapobj q).chunkobjTree
  assert ((st.disk.chunk c).length ≠ 0)
  let _ ← lift (t.deref st.ram.run)
  let chunkid := (st.disk.chunk c).chunkid
  let objname := (st.disk.chunk c).objname
  emit (.mmapobj q fun m => m.insertEntry chunkid c)
  emit (.ram fun r => { r with objnamemap := insert objname r.objnamemap })

/-- `update_chunkobj`: fill a chunk record and clear its block. -/
def updateChunkobj (rqst : Rqst) (offset nvPtr : ℕ) (q : MmapPtr) (c : ChunkPtr) : NvM Unit := do
  let st ← state
  let m := st.disk.mmapobj q
  emit (.chunk c fun r => { r with pid := rqst.pid })
  emit (.chunk c fun r => { r with chunkid := rqst.id })
  emit (.chunk c fun r => { r with length := toUint rqst.bytes })
  emit (.chunk c fun r => { r with vmaId := m.vmaId })
  emit (.chunk c fun r => { r with offset := toUint offset })
  emit (.chunk c fun r => { r with commitsz := 0 })
  emit (.chunk c fun r => { r with valid := .VALID })
  emit (.chunk c fun r => { r with nvPtr := nvPtr })
  let ws ← lift (st.storeBytes nvPtr (List.replicate (toUint rqst.bytes) 0))
  emits ws
  assert (rqst.varName.bytes ≠ [])
  emit (.chunk c fun r => { r with objname := rqst.varName })

/-- `create_chunkobj`: the record goes to the region's `meta_offset`, which is
advanced first. -/
def createChunkobj (rqst : Rqst) (offset nvPtr : ℕ) (q : MmapPtr) (bounded : Bool := true) :
    NvM ChunkPtr := do
  let st ← state
  let file ← lift (st.disk.mmapobj q).strtAddr
  let c : ChunkPtr := ⟨file, (st.disk.mmapobj q).metaOffset⟩
  assert (bounded → (st.disk.mmapobj q).metaOffset + sizeofChunkobj ≤ mmapMetadataSz)
  emit (.mmapobj q fun m =>
    { m with metaOffset := recordEnd bounded (m.metaOffset + sizeofChunkobj) })
  updateChunkobj rqst offset nvPtr q c
  return c

/-- `add_chunk_to_mmapobj`. -/
def addChunkToMmapobj (rqst : Rqst) (offset nvPtr : ℕ) (q : MmapPtr) : NvM ChunkPtr := do
  let c ← createChunkobj rqst offset nvPtr q
  addChunkobj q c
  return c

/-! ## Restoring a process -/

/-- The loop of `restore_chunk_objs` over the chunk records of a region. -/
def restoreChunks (q : MmapPtr) (dataAddr : ℕ) : List ChunkPtr → NvM Unit
  | [] => return ()
  | c :: cs => do
    let st ← state
    if (st.disk.chunk c).valid = .INVALID then
      restoreChunks q dataAddr cs
    else
      emit (.chunk c fun r => { r with nvPtr := dataAddr + r.offset })
      addChunkobj q c
      restoreChunks q dataAddr cs

/-- The records a scan of a metadata file visits. -/
def chunkSlots (file : MetaFile) (n : ℕ) : List ChunkPtr :=
  (List.range n).map fun j => ⟨file, j * sizeofChunkobj⟩

/-- The records a scan of a process header file visits. -/
def mmapobjSlots (proc n : ℕ) : List MmapPtr :=
  (List.range n).map fun i => ⟨proc, sizeofProc + i * sizeofMmapobj⟩

/-- `restore_chunk_objs`; the kernel maps the data file at `place file`. -/
def restoreChunkObjs (place : DataFile → ℕ) (q : MmapPtr) : NvM Unit := do
  let st ← state
  let m := st.disk.mmapobj q
  let file : DataFile := ⟨m.procId, m.vmaId⟩
  emit (.mmapobj q fun m => { m with chunkTreeInit := false })
  emit (.mmapobj q fun r => { r with strtAddr := some ⟨m.procId, baseMetadataNvid + m.vmaId⟩ })
  if (st.disk.data file).isSome then
    emit (.ram fun r => { r with maps := ⟨place file, m.length, file⟩ :: r.maps })
    emit (.mmapobj q fun m => { m with dataAddr := place file })
    assert (place file ≠ 0)
    if m.numchunks ≠ 0 then
      initChunkTree q
    restoreChunks q (place file) (chunkSlots ⟨m.procId, baseMetadataNvid + m.vmaId⟩ m.numchunks)

/-- The loop of `load_process` over the region records of a process. -/
def restoreMmapobjs (place : DataFile → ℕ) (proc : ℕ) : List MmapPtr → NvM Unit
  | [] => return ()
  | q :: qs => do
    addMmapobj q proc
    restoreChunkObjs place q
    restoreMmapobjs place proc qs

/-- `load_process`. -/
def loadProcess (place : DataFile → ℕ) (pid : ℕ) : NvM ℕ := do
  let st ← state
  assert (st.ram.gInitialized = true)
  let proc ← createOrLoadProcObj pid
  emit (.proc proc fun h => { h with mmapobjInitialized := false })
  emit (.proc proc fun h => { h with mmapobjTree := none })
  addProcObj proc
  initializeMmapobjTree proc
  let st ← state
  let h ← lift (st.disk.proc proc)
  restoreMmapobjs place proc (mmapobjSlots proc h.pesistMmaps)
  return proc

/-- `nv_initialize`. -/
def nvInitialize (place : DataFile → ℕ) (pid : ℕ) : NvM Unit := do
  let st ← state
  if ¬ st.ram.gInitialized then
    emit (.ram fun r => { r with gInitialized := true })
    let _ ← loadProcess place pid

/-! ## Operations -/

/-- `_mmap`: a new region of `size` bytes for `pid`, which the kernel maps at
`addr`.  The backing file is sized with a 32-bit argument. -/
def mmapRegion (pid size addr : ℕ) : NvM Unit := do
  assert (pid ≠ 0)
  let proc ← createOrLoadProcObj pid
  let st ← state
  let h ← lift (st.disk.proc proc)
  let vmaId := h.numMmaps + 1
  emit (.proc proc fun h => { h with numMmaps := h.numMmaps + 1 })
  emit (.dataFile ⟨pid, vmaId⟩ (toUint size))
  emit (.ram fun r => { r with maps := ⟨addr, size, ⟨pid, vmaId⟩⟩ :: r.maps })
  assert (addr ≠ 0)
  emit (.ram fun r => { r with mapTree := r.mapTree.insert addr ⟨addr, addr + size, vmaId, pid⟩ })
  emit (.ram fun r => { r with procVmas := Function.update r.procVmas vmaId size })

/-- `nv_delete`. -/
def nvDelete (rqst : Rqst) : NvM ℤ := do
  assert (rqst.pid ≠ 0)
  let st ← state
  let proc ← lift (st.findProcess rqst.pid)
  match ← getChunk rqst with
  | none => return -1
  | some c =>
    emit (.chunk c fun r => { r with commitsz := 0 })
    emit (.chunk c fun r => { r with valid := .INVALID })
    let st ← state
    let chunkid := (st.disk.chunk c).chunkid
    match ← findMmapobjFromChunkid chunkid proc with
    | none => return -1
    | some q =>
      let st ← state
      match (st.disk.mmapobj q).chunkobjTree with
      | none => pure ()
      | some t =>
        let _ ← lift (t.deref st.ram.run)
        emit (.mmapobj q fun m => m.deleteEntry chunkid)
      emit (.ram fun r => { r with objnamemap := r.objnamemap.erase rqst.varName })
      return 0

/-- The process of an allocation: registered already, or `create_new_process`. -/
def findOrCreateProcess (pid : ℕ) : NvM ℕ := do
  let st ← state
  match st.findProcess pid with
  | some proc => return proc
  | none =>
    let proc ← createOrLoadProcObj pid
    addProcObj proc
    return proc

/-- The region of an allocation: known to the process already, or
`add_mmapobj_to_proc` with the size recorded for its id. -/
def findOrAddMmapobj (proc pid : ℕ) (node : MmapobjNode) (bounded : Bool := true) :
    NvM MmapPtr := do
  match ← findMmapobj node.mapId proc with
  | some q =>
    let st ← state
    assert ((st.disk.mmapobj q).length ≠ 0)
    return q
  | none =>
    let st ← state
    addMmapobjToProc proc pid node.mapId (st.ram.procVmas node.mapId) node.startAddr bounded

/-- The end of `nv_record_chunk` for the new chunk `c`: when the name was live, the
old contents move to `c` and the old chunk is deleted, found by its id again. -/
def replaceChunk (id : ℕ) (c : ChunkPtr) : Option ChunkPtr → NvM Unit
  | none => return ()
  | some old => do
    let st ← state
    let n := min (st.disk.chunk old).length (st.disk.chunk c).length
    let bs ← lift (st.loadBytes (st.disk.chunk old).nvPtr n)
    let ws ← lift (st.storeBytes (st.disk.chunk c).nvPtr bs)
    emits ws
    emit (.chunk c fun r => { r with commitsz := (st.disk.chunk old).commitsz })
    let _ ← nvDelete
      { pid := (st.disk.chunk old).pid, id := id, varName := (st.disk.chunk old).objname }

/-- `nv_record_chunk`: record the block at `addr` under the name of the request. -/
def nvRecordChunk (rqst : Rqst) (addr : ℕ) : NvM Unit := do
  let st ← state
  assert (st.ram.gInitialized = true)
  let proc ← findOrCreateProcess rqst.pid
  let oldchunk ← checkIfChunkExists rqst
  let st ← state
  let node ← lift (st.locateMmapobjNode addr)
  assert (node.mapId ≠ 0)
  assert (node.startAddr ≠ 0)
  let q ← findOrAddMmapobj proc rqst.pid node
  let id := genIdFromStr rqst.varName
  assert (id ≠ 0)
  let c ← addChunkToMmapobj { rqst with id := id } (addr - node.startAddr) addr q
  emit (.mmapobj q fun m => { m with numchunks := m.numchunks + 1 })
  replaceChunk id c oldchunk
  emit (.ram fun r => { r with chunkmap := Function.update r.chunkmap addr (some c) })

/-- `nv_commit_len`. -/
def nvCommitLen (rqst : Rqst) (size : ℕ) : NvM ℤ := do
  let found ← getChunk rqst
  let c ← lift found
  emit (.chunk c fun r => { r with commitsz := toUint size })
  let st ← state
  assert ((st.disk.chunk c).length ≠ 0)
  return 0

/-- `nv_rename`. -/
def nvRename (srcRqst : Rqst) (destname : ObjName) : NvM Unit := do
  match ← getChunk srcRqst with
  | none => return ()
  | some c =>
    let st ← state
    let proc ← lift (st.findProcess srcRqst.pid)
    match ← findMmapobjFromChunkid (st.disk.chunk c).chunkid proc with
    | none => return ()
    | some q =>
      if (st.disk.chunk c).length ≠ 0 then
        emit (.chunk c fun r => { r with chunkid := genIdFromStr destname })
        emit (.chunk c fun r => { r with objname := destname })
        emit (.chunk c fun r => { r with valid := .VALID })
        addChunkobj q c
      emit (.ram fun r => { r with objnamemap := r.objnamemap.erase srcRqst.varName })
      emit (.ram fun r => { r with objnamemap := insert destname r.objnamemap })

/-- What `nv_map_read` leaves in the request. -/
structure ReadResult where
  nvPtr : ℕ
  bytes : ℕ
  commitsz : ℕ
  deriving DecidableEq, Repr

/-- `nv_map_read`; `place` answers the mappings of a process that is loaded here. -/
def nvMapRead (place : DataFile → ℕ) (rqst : Rqst) : NvM (Option ReadResult) := do
  let st ← state
  let proc ← match st.findProcess rqst.pid with
    | some proc => pure proc
    | none => loadProcess place rqst.pid
  match ← findMmapobjFromChunkid rqst.chunkId proc with
  | none => return none
  | some q =>
    let st ← state
    let t ← lift (st.disk.mmapobj q).chunkobjTree
    let tree ← lift (t.deref st.ram.run)
    let c ← lift (tree.find rqst.chunkId)
    let r := st.disk.chunk c
    assert (r.nvPtr ≠ 0)
    assert (r.length ≠ 0)
    return if r.valid = .INVALID then none else some ⟨r.nvPtr, r.length, r.commitsz⟩
