/-
# Runs of the store

The operations a program makes on the store, for one process: it lets the allocator
map a region (`_mmap`), records the blocks it gets, commits, deletes, reads and
renames objects, stores into an object through the pointer it was given, and
restarts.

`RunInv` holds between any two operations of a run with one process id.  Besides
`StoreInv` it says that the shared globals belong to that process.
-/
import NvMalloc.Realloc
import NvMalloc.Load
import NvMalloc.Runs

open WriteM Function

/-! ## Operations -/

/-- The operations of a program.  Addresses are the answers of the kernel and of the
allocator; `place` gives the addresses at which data files are mapped when a
process is loaded. -/
inductive Op where
  /-- The allocator maps a region of `size` bytes. -/
  | mmap (size addr : ℕ)
  /-- An allocation of `bytes` bytes under a name. -/
  | alloc (name : ObjName) (bytes addr : ℕ)
  /-- `nv_commit_len`. -/
  | commit (name : ObjName) (size : ℕ)
  /-- `nv_delete`. -/
  | delete (name : ObjName)
  /-- `nv_map_read`, and a look at the bytes behind the pointer. -/
  | read (name : ObjName) (place : DataFile → ℕ)
  /-- The program stores into an object. -/
  | write (name : ObjName) (off : ℕ) (bs : List UInt8)
  /-- `nv_rename`. -/
  | rename (src dest : ObjName)
  /-- The program ends and is started again. -/
  | restart (place : DataFile → ℕ)

/-- What an operation returns. -/
inductive Ret where
  | done
  | status (r : ℤ)
  | object (o : Option Obj)
  deriving DecidableEq, Repr

/-- A request that gives a name. -/
def request (p : ℕ) (n : ObjName) : Rqst := { pid := p, varName := n }

/-- The request of an allocation. -/
def allocRqst (p : ℕ) (n : ObjName) (bytes : ℕ) : Rqst := { pid := p, bytes := bytes, varName := n }

/-- `nv_map_read`, then load the bytes behind the pointer. -/
def readObject (place : DataFile → ℕ) (p : ℕ) (n : ObjName) : NvM (Option Obj) := do
  match ← nvMapRead place (request p n) with
  | none => return none
  | some r =>
    let st ← state
    let bs ← lift (st.loadBytes r.nvPtr r.bytes)
    return some ⟨r.bytes, r.commitsz, bs⟩

/-- Store bytes at an offset of an object, through the pointer of `nv_map_read`. -/
def writeObject (p : ℕ) (n : ObjName) (off : ℕ) (bs : List UInt8) : NvM Unit := do
  let found ← nvMapRead (fun _ => 0) (request p n)
  let r ← lift found
  let st ← state
  let ws ← lift (st.storeBytes (r.nvPtr + off) bs)
  emits ws

/-- One operation for process `p`. -/
def step (p : ℕ) (st : Store) : Op → Option (Ret × Store)
  | .mmap size addr => ((mmapRegion p size addr).exec st).map fun r => (.done, r.2)
  | .alloc n bytes addr =>
    ((nvRecordChunk (allocRqst p n bytes) addr).exec st).map fun r => (.done, r.2)
  | .commit n size => ((nvCommitLen (request p n) size).exec st).map fun r => (.status r.1, r.2)
  | .delete n => ((nvDelete (request p n)).exec st).map fun r => (.status r.1, r.2)
  | .read n place => ((readObject place p n).exec st).map fun r => (.object r.1, r.2)
  | .write n off bs => ((writeObject p n off bs).exec st).map fun r => (.done, r.2)
  | .rename s d => ((nvRename (request p s) d).exec st).map fun r => (.done, r.2)
  | .restart place => (restart st place p).map fun st' => (.done, st')

/-- The chunk that `get_chunk` finds. -/
def foundChunk (st : Store) (rqst : Rqst) : Option ChunkPtr := (getChunk rqst st).bind Prod.fst

/-! ## Runs with one process id -/

/-- The shared globals belong to process `p`. -/
structure Solo (st : Store) (p : ℕ) : Prop where
  start : st.ram.procMapStart = some p
  node : ∀ {a nd}, st.ram.mapTree.find a = some nd →
    nd.procId = p ∧ st.ram.procVmas nd.mapId = nd.size

variable {p : ℕ}

theorem Solo.globals {st : Store} (hs : Solo st p) {a : ℕ} {nd : MmapobjNode}
    (hnd : st.ram.mapTree.find a = some nd) : GlobalsOf st p nd := ⟨hs.start, (hs.node hnd).2⟩

theorem Solo.of_ram {st st' : Store} (hs : Solo st p) (h : st'.ram.frame = st.ram.frame) :
    Solo st' p := by
  have htree : st'.ram.mapTree = st.ram.mapTree := (congrArg Ram.mapTree h :)
  have hvmas : st'.ram.procVmas = st.ram.procVmas := (congrArg Ram.procVmas h :)
  refine ⟨(congrArg Ram.procMapStart h :).trans hs.start, ?_⟩
  intro a nd hnd
  rw [htree] at hnd
  rw [hvmas]
  exact hs.node hnd

/-- What holds between any two operations of a run with one process id. -/
structure RunInv (st : Store) (p : ℕ) : Prop where
  inv : StoreInv st p
  solo : Solo st p

theorem not_isRegion_empty {q : MmapPtr} : ¬ IsRegion ({} : Disk).shape p q := by
  rintro ⟨h, hh, -⟩
  cases hh

theorem not_inScan_empty {c : ChunkPtr} : ¬ InScan ({} : Disk).shape p c := by
  rintro ⟨q, hq, -⟩
  exact not_isRegion_empty hq

/-- The files of an empty store are consistent. -/
theorem shapeOk_empty : ShapeOk ({} : Disk).shape := by
  have hno : ∀ {p q}, ¬ IsRegion ({} : Disk).shape p q := not_isRegion_empty
  constructor
  · intro p h hh
    cases hh
  · intro p h hh
    cases hh
  · exact fun hq => absurd hq hno
  · exact fun hq => absurd hq hno
  · exact fun hq => absurd hq hno
  · exact fun hq => absurd hq hno
  · exact fun hq => absurd hq hno
  · exact fun hq => absurd hq hno
  · intro p h i hh
    cases hh
  · intro p v hv
    exact absurd rfl hv

/-- A restart on consistent files. -/
theorem restart_runInv {st : Store} {place : DataFile → ℕ} (hs : ShapeOk st.disk.shape) (hp : p ≠ 0)
    (hplace : PlaceOk st.reboot place p) : ∃ st', restart st place p = some st' ∧
      Loads (st.reboot.apply (.ram fun r => { r with gInitialized := true })) st' place p ∧
      RunInv st' p := by
  obtain ⟨st', hexec, hl⟩ := restart_exec hs hp hplace
  refine ⟨st', hexec, hl, hl.inv, hl.procMapStart, ?_⟩
  intro a nd hnd
  rw [hl.mapTree] at hnd
  simp [Store.reboot, Store.apply, Ram.apply] at hnd

/-! ## `_mmap` -/

section Mmap

variable {st : Store} {p size addr : ℕ} {h : ProcObj}

/-- The data files of scanned chunks are older than the next one. -/
theorem dataOf_ne_next (hs : ShapeOk st.disk.shape) (hh : st.disk.proc p = some h) {c : ChunkPtr}
    (hc : InScan st.disk.shape p c) : dataOf c.file ≠ ⟨p, h.numMmaps + 1⟩ := by
  obtain ⟨q, hq, hqc⟩ := hc
  have hle := hs.vmaLe hq (header_shape hh)
  rw [hqc.file_eq, dataOf_metaOf]
  intro heq
  have hv := (DataFile.mk.inj heq).2
  simp only [ProcObj.shape] at hle
  omega

theorem grown_mapRegion (hs : ShapeOk st.disk.shape) (hh : st.disk.proc p = some h) :
    Grown st.disk (st.mapRegion p size addr h).disk p := by
  have hregion : ∀ {q}, IsRegion (st.mapRegion p size addr h).disk.shape p q ↔
      IsRegion st.disk.shape p q := by
    intro q
    rw [shape_mapRegion hh]
    exact isRegion_addFile (header_shape hh)
  refine ⟨hregion.mpr, fun _ => rfl, fun hq => Or.inl (hregion.mp hq), fun _ => rfl, ?_⟩
  intro c hc
  have hdata : (st.mapRegion p size addr h).disk.data (dataOf c.file) =
    st.disk.data (dataOf c.file) :=
    update_of_ne (dataOf_ne_next hs hh hc) ..
  rw [Disk.bytesOf, Disk.bytesOf, hdata]

theorem sameFiles_mapRegion {p' : ℕ} (hne : p' ≠ p) :
    SameFiles st.disk (st.mapRegion p size addr h).disk p' where
  proc := update_of_ne hne ..
  mmapobj _ := rfl
  chunk _ := rfl
  data v := by
    apply update_of_ne
    intro heq
    exact hne (DataFile.mk.inj heq).1

theorem storeInv_mapRegion (hi : StoreInv st p) (hh : st.disk.proc p = some h)
    (hfresh : FreshRange st addr size) : StoreInv (st.mapRegion p size addr h) p where
  shape := by
    rw [shape_mapRegion hh]
    exact hi.shape.addFile (header_shape hh) _
  ram := ramOk_mapRegion hi.shape hi.ram hh hfresh
  loaded := loaded_mapRegion hh hi.loaded
  registered := hi.registered
  initialized := hi.initialized
  pidPos := hi.pidPos

/-- `_mmap` for a registered process. -/
theorem mmap_exec (hi : StoreInv st p) (hfresh : FreshRange st addr size) :
    ∃ h, st.disk.proc p = some h ∧
      (mmapRegion p size addr).exec st = some ((), st.mapRegion p size addr h) := by
  obtain ⟨h, _, hh, -⟩ := hi.loaded.header
  exact ⟨h, hh, mmapRegion_exec hi.pidPos hfresh.pos
    (createOrLoadProcObj_exec_of_registered hi.registered) hh⟩

theorem solo_mapRegion (hr : RunInv st p) (hh : st.disk.proc p = some h) :
    Solo (st.mapRegion p size addr h) p := by
  refine ⟨hr.solo.start, ?_⟩
  intro a nd hnd
  simp only [Store.mapRegion, Rbtree.find_insert] at hnd
  split at hnd
  · cases hnd
    exact ⟨rfl, by simp [Store.mapRegion, MmapobjNode.size]⟩
  · have hn := node_ne_next hr.inv.shape hh (hr.inv.ram.node hnd)
    obtain ⟨hp, hsize⟩ := hr.solo.node hnd
    have hne : nd.mapId ≠ h.numMmaps + 1 := fun hv => hn ⟨hp, hv⟩
    exact ⟨hp, (update_of_ne hne ..).trans hsize⟩

theorem step_mmap (hr : RunInv st p) (hfresh : FreshRange st addr size) :
    ∃ st', step p st (.mmap size addr) = some (.done, st') ∧ RunInv st' p ∧
      Grown st.disk st'.disk p := by
  obtain ⟨h, hh, hexec⟩ := mmap_exec hr.inv hfresh
  refine ⟨st.mapRegion p size addr h, by rw [step, hexec]; rfl, ?_, grown_mapRegion hr.inv.shape hh⟩
  exact ⟨storeInv_mapRegion hr.inv hh hfresh, solo_mapRegion hr hh⟩

end Mmap

/-! ## Reads and stores -/

section Access

variable {st : Store} {p : ℕ} {n : ObjName} {q : MmapPtr} {c : ChunkPtr}

theorem readObject_of_missing (hi : StoreInv st p) (hm : Missing st.disk p (genIdFromStr n))
    (place : DataFile → ℕ) : (readObject place p n).exec st = some (none, st) := by
  have hi₁ : StoreInv st (request p n).pid := hi
  have hread := nvMapRead_of_missing hi₁ hm place
  simp [readObject, exec_bind, hread]

/-- A read looks at the chunk that is found and fails when it is not valid. -/
theorem readObject_of_finds (hi : StoreInv st p) (hf : Finds st.disk p (genIdFromStr n) q c)
    (place : DataFile → ℕ) : (readObject place p n).exec st =
      some (if (st.disk.chunk c).valid = .INVALID then none else some (st.disk.value c), st) := by
  have hi₁ : StoreInv st (request p n).pid := hi
  have hread := nvMapRead_of_finds hi₁ hf place
  have hload := hi.loadBytes_chunk (hi.loaded.indexed hf.indexed) (Or.inr hf.indexed) le_rfl
  by_cases hv : (st.disk.chunk c).valid = .INVALID
  · simp [readObject, exec_bind, hread, Chunkobj.read, hv]
  · simp [readObject, exec_bind, hread, Chunkobj.read, hv, hload, Disk.value]

/-- A store inside the object that is found changes its bytes. -/
theorem writeObject_of_finds (hi : StoreInv st p) (hf : Finds st.disk p (genIdFromStr n) q c)
    (hv : (st.disk.chunk c).valid = .VALID) {off : ℕ} {bs : List UInt8}
    (hoff : off + bs.length ≤ (st.disk.chunk c).length) : (writeObject p n off bs).exec st =
      some ((), ⟨st.disk.blitFile (dataOf c.file) ((st.disk.chunk c).offset + off) bs,
      st.ram⟩) := by
  have hi₁ : StoreInv st (request p n).pid := hi
  have hread := nvMapRead_of_finds hi₁ hf (fun _ => 0)
  have hstore := hi.storeBytes_chunk (hi.loaded.indexed hf.indexed) (Or.inr hf.indexed) hoff
  simp [writeObject, exec_bind, hread, Chunkobj.read, hv, hstore, applyAll_byteWrites]

/-- Through a name that is not found, or whose chunk is not valid, nothing is stored. -/
theorem writeObject_stuck (hi : StoreInv st p) {off : ℕ} {bs : List UInt8}
    (h : Missing st.disk p (genIdFromStr n) ∨
      ∃ q c, Finds st.disk p (genIdFromStr n) q c ∧ (st.disk.chunk c).valid = .INVALID) :
    (writeObject p n off bs).exec st = none := by
  have hi₁ : StoreInv st (request p n).pid := hi
  rcases h with hm | ⟨q, c, hf, hv⟩
  · have hread := nvMapRead_of_missing hi₁ hm (fun _ => 0)
    simp [writeObject, exec_bind, hread]
  · have hread := nvMapRead_of_finds hi₁ hf (fun _ => 0)
    simp [writeObject, exec_bind, hread, Chunkobj.read, hv]

end Access
