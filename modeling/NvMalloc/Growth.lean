/-
# New regions and new chunks

The operations that make the layout grow: `_mmap`, which creates the data file of a
region and maps it, `add_mmapobj_to_proc`, which registers the region with its
process, and `create_chunkobj` with `add_chunkobj`, which append a chunk.  Each is
brought to a closed form of the store after it, and each keeps `StoreInv`.
-/
import NvMalloc.Append

open WriteM Function

/-- The kernel maps `size` bytes at `addr`, away from everything mapped so far. -/
structure FreshRange (st : Store) (addr size : ℕ) : Prop where
  pos : addr ≠ 0
  sizePos : 0 < size
  apart : ∀ m ∈ st.ram.maps, addr + size ≤ m.base ∨ m.base + m.size ≤ addr

/-! ## `_mmap` -/

/-- The store after `_mmap`, for a process with header `h`. -/
def Store.mapRegion (st : Store) (p size addr : ℕ) (h : ProcObj) : Store where
  disk :=
    { st.disk with
      proc := update st.disk.proc p (some { h with numMmaps := h.numMmaps + 1 })
      data := update st.disk.data ⟨p, h.numMmaps + 1⟩ (some ⟨toUint size, fun _ => 0⟩) }
  ram :=
    { st.ram with
      maps := ⟨addr, size, p, h.numMmaps + 1⟩ :: st.ram.maps
      mapTree := st.ram.mapTree.insert addr ⟨addr, addr + size, h.numMmaps + 1, p⟩
      procVmas := update st.ram.procVmas (h.numMmaps + 1) size }

section MapRegion

variable {st : Store} {p size addr : ℕ} {h : ProcObj}

/-- `_mmap` for a process whose header is open. -/
theorem mmapRegion_exec {st₀ : Store} (hp : p ≠ 0) (haddr : addr ≠ 0)
    (hload : (createOrLoadProcObj p).exec st₀ = some (p, st)) (hh : st.disk.proc p = some h) :
    (mmapRegion p size addr).exec st₀ = some ((), st.mapRegion p size addr h) := by
  simp [mmapRegion, exec_bind, hp, haddr, hload, hh, WriteEffect.apply, Store.apply, Disk.apply,
    Ram.apply, Store.mapRegion]

/-- On disk a new region is a data file so far. -/
theorem shape_mapRegion (hh : st.disk.proc p = some h) :
    (st.mapRegion p size addr h).disk.shape = st.disk.shape.addFile p h.shape (toUint size) := by
  unfold Disk.shape Shape.addFile
  congr 1
  · funext p'
    by_cases hp : p' = p
    · subst hp
      simp [Store.mapRegion, ProcObj.shape]
    · simp [Store.mapRegion, hp]
  · funext f
    by_cases hf : f = ⟨p, h.numMmaps + 1⟩
    · subst hf
      simp [Store.mapRegion, ProcObj.shape]
    · simp [Store.mapRegion, hf, ProcObj.shape]

theorem header_shape (hh : st.disk.proc p = some h) : st.disk.shape.header p = some h.shape := by
  simp [Disk.shape, hh]

/-- Files of mapped regions are not the new one. -/
theorem node_ne_next (hs : ShapeOk st.disk.shape) (hh : st.disk.proc p = some h) {a : ℕ}
    {nd : MmapobjNode} (hn : NodeOk st a nd) : ¬ (nd.procId = p ∧ nd.mapId = h.numMmaps + 1) := by
  rintro ⟨hp, hv⟩
  have hfile := hn.file
  rw [hp] at hfile
  obtain ⟨h', hh', hle⟩ := hs.fileOwner (p := p) (v := nd.mapId) (by rw [hfile]; simp)
  rw [header_shape hh] at hh'
  cases hh'
  simp only [ProcObj.shape] at hle
  omega

/-- A region that is mapped at free addresses keeps the mappings apart. -/
theorem ramOk_mapRegion (hs : ShapeOk st.disk.shape) (hr : RamOk st) (hh : st.disk.proc p = some h)
    (hfresh : FreshRange st addr size) : RamOk (st.mapRegion p size addr h) := by
  have hreg : ∀ {p' q}, IsRegion (st.mapRegion p size addr h).disk.shape p' q ↔
      IsRegion st.disk.shape p' q := by
    intro p' q
    rw [shape_mapRegion hh]
    exact isRegion_addFile (header_shape hh)
  have hnode : ∀ {a nd}, (st.mapRegion p size addr h).ram.mapTree.find a = some nd →
      a = addr ∧ nd = ⟨addr, addr + size, h.numMmaps + 1, p⟩ ∨ st.ram.mapTree.find a = some nd := by
    intro a nd ha
    simp only [Store.mapRegion, Rbtree.find_insert] at ha
    split at ha
    · rename_i haddr
      exact .inl ⟨haddr, (Option.some.inj ha).symm⟩
    · exact .inr ha
  constructor
  · show List.Pairwise Mapping.Disjoint (_ :: st.ram.maps)
    rw [List.pairwise_cons]
    exact ⟨fun m hm => hfresh.apart m hm, hr.maps⟩
  · exact fun hk => hr.process hk
  · intro a nd ha
    rcases hnode ha with ⟨rfl, rfl⟩ | ha
    · refine ⟨rfl, hfresh.pos, by simp [hfresh.sizePos], by simp, ?_, ?_, ?_⟩
      · simp [Store.mapRegion, MmapobjNode.size]
      · simp [Store.mapRegion, MmapobjNode.size, Disk.shape]
      · intro q hq hv
        rw [hreg] at hq
        have hle := hs.vmaLe hq (header_shape hh)
        have hv' : (st.disk.mmapobj q).vmaId = h.numMmaps + 1 := hv
        simp only [shape_region_vmaId, ProcObj.shape] at hle
        omega
    · have hn := hr.node ha
      have hne := node_ne_next hs hh hn
      refine ⟨hn.start, hn.startPos, hn.startLt, hn.idPos, List.mem_cons_of_mem _ hn.mapped, ?_, ?_⟩
      · rw [shape_mapRegion hh, Shape.addFile_fileSize, update_of_ne]
        · exact hn.file
        · intro heq
          exact hne ⟨(DataFile.mk.inj heq).1, (DataFile.mk.inj heq).2⟩
      · intro q hq hv
        exact hn.region (hreg.mp hq) hv
  · intro a a' nd nd' ha₀ ha₀' hp hv
    rcases hnode ha₀ with ⟨rfl, rfl⟩ | ha <;> rcases hnode ha₀' with ⟨rfl, rfl⟩ | ha'
    · rfl
    · exact absurd ⟨hp.symm, hv.symm⟩ (node_ne_next hs hh (hr.node ha'))
    · exact absurd ⟨hp, hv⟩ (node_ne_next hs hh (hr.node ha))
    · exact hr.nodeInj ha ha' hp hv

/-- The processes that are loaded stay loaded. -/
theorem loaded_mapRegion (hh : st.disk.proc p = some h) {p' : ℕ} (hl : Loaded st p') :
    Loaded (st.mapRegion p size addr h) p' := by
  refine hl.of_agree ?_ ?_ (fun _ => rfl) (fun _ => rfl) rfl (List.subset_cons_self ..)
  · intro h' hh'
    by_cases hp : p' = p
    · subst hp
      rw [hh] at hh'
      cases hh'
      exact ⟨_, update_self .., rfl, rfl⟩
    · exact ⟨h', (update_of_ne hp ..).trans hh', rfl, rfl⟩
  · intro q
    rw [shape_mapRegion hh]
    exact isRegion_addFile (header_shape hh)

end MapRegion

/-! ## `add_mmapobj_to_proc` -/

/-- The writes of `add_mmapobj_to_proc` for the record at `q`, in run `run`. -/
def addRegionWrites (p v bytes addr run : ℕ) (q : MmapPtr) : List Write :=
  [.proc p fun h => { h with metaOffset := h.metaOffset + sizeofMmapobj },
    .mmapobj q fun m => { m with vmaId := v },
    .mmapobj q fun m => { m with length := bytes },
    .mmapobj q fun m => { m with procId := p },
    .mmapobj q fun m => { m with dataAddr := addr },
    .metaFile (metaOf p v),
    .mmapobj q fun m => { m with strtAddr := some (metaOf p v) },
    .mmapobj q fun m => { m with chunkobjTree := some (.create run) },
    .mmapobj q fun m => { m with chunkTreeInit := true },
    .proc p fun h => h.insertMmapobj v q,
    .proc p fun h => { h with pesistMmaps := h.pesistMmaps + 1 }]

/-- The record of a new region. -/
def Mmapobj.created (m : Mmapobj) (p v bytes addr run : ℕ) : Mmapobj :=
  { m with
    vmaId := v, length := bytes, procId := p, dataAddr := addr, strtAddr := some (metaOf p v),
    chunkobjTree := some (.create run), chunkTreeInit := true }

/-- The header after a region is registered. -/
def ProcObj.addRegion (h : ProcObj) (v : ℕ) (q : MmapPtr) : ProcObj :=
  { h.insertMmapobj v q with
    metaOffset := h.metaOffset + sizeofMmapobj, pesistMmaps := h.pesistMmaps + 1 }

/-- The store after `add_mmapobj_to_proc`. -/
def Store.addRegion (st : Store) (p v bytes addr : ℕ) (h : ProcObj) : Store where
  disk :=
    let q := mmapobjSlot p h.pesistMmaps
    { st.disk with
      proc := update st.disk.proc p (some (h.addRegion v q))
      mmapobj := update st.disk.mmapobj q
        ((st.disk.mmapobj q).created p v bytes addr st.ram.run)
      chunk := fun c => if c.file = metaOf p v then {} else st.disk.chunk c }
  ram := st.ram

section AddRegion

variable {st : Store} {p v bytes addr : ℕ} {h : ProcObj}

/-- `add_mmapobj_to_proc`, when there is room for the record. -/
theorem addMmapobjToProc_run {t : Rbtree MmapPtr} (hstart : st.ram.procMapStart = some p)
    (hh : st.disk.proc p = some h) (hinit : h.mmapobjInitialized = true)
    (htree : h.mmapobjTree = some ⟨st.ram.run, t⟩)
    (hcap : h.metaOffset + sizeofMmapobj ≤ procMetadatSz) :
    addMmapobjToProc p p v bytes addr true st =
      some (⟨p, h.metaOffset⟩, addRegionWrites p v bytes addr st.ram.run ⟨p, h.metaOffset⟩) := by
  simp [addMmapobjToProc, createMmapobj, addMmapobj, initChunkTree, run_bind_eq, hstart, hh, hinit,
    htree, hcap, WriteEffect.apply, Store.apply, Disk.apply, Ram.apply, TreeRef.deref,
    addRegionWrites, metaOf]

/-- The header appends where the load looks for the next record. -/
theorem slot_eq (hs : ShapeOk st.disk.shape) (hh : st.disk.proc p = some h) :
    (⟨p, h.metaOffset⟩ : MmapPtr) = mmapobjSlot p h.pesistMmaps := by
  have := hs.append (header_shape hh)
  simp only [ProcObj.shape] at this
  rw [this]
  rfl

/-- The next region record has no chunks yet. -/
theorem blank_slot (hs : ShapeOk st.disk.shape) (hh : st.disk.proc p = some h) :
    (st.disk.mmapobj (mmapobjSlot p h.pesistMmaps)).numchunks = 0 ∧
      (st.disk.mmapobj (mmapobjSlot p h.pesistMmaps)).metaOffset = 0 :=
  hs.blank (header_shape hh) (le_refl h.shape.pesistMmaps)

theorem applyAll_addRegionWrites (hh : st.disk.proc p = some h) :
    applyAll st (addRegionWrites p v bytes addr st.ram.run (mmapobjSlot p h.pesistMmaps)) =
      st.addRegion p v bytes addr h := by
  simp [addRegionWrites, WriteEffect.apply, Store.apply, Disk.apply, Ram.apply, Store.addRegion, hh,
    Mmapobj.created, ProcObj.addRegion, ProcObj.insertMmapobj]

/-- On disk a registered region is one more record. -/
theorem shape_addRegion (hs : ShapeOk st.disk.shape) (hh : st.disk.proc p = some h) :
    (st.addRegion p v bytes addr h).disk.shape = st.disk.shape.addRegion p h.shape v bytes := by
  obtain ⟨hnum, hoff⟩ := blank_slot hs hh
  unfold Disk.shape Shape.addRegion
  congr 1
  · funext p'
    by_cases hp : p' = p
    · subst hp
      simp [Store.addRegion, ProcObj.shape, ProcObj.addRegion, ProcObj.insertMmapobj]
    · simp [Store.addRegion, hp]
  · funext q
    by_cases hq : q = mmapobjSlot p h.shape.pesistMmaps
    · subst hq
      rw [update_self]
      simp only [Store.addRegion, ProcObj.shape]
      rw [update_self]
      simp [Mmapobj.shape, Mmapobj.created, hnum, hoff]
    · rw [update_of_ne hq]
      simp only [Store.addRegion, ProcObj.shape] at hq ⊢
      rw [update_of_ne hq]
  · funext c
    by_cases hc : c.file = metaOf p v <;> simp [Store.addRegion, hc, Chunkobj.extent]

/-- Records of regions that were there before are not touched. -/
theorem mmapobj_addRegion (hh : st.disk.proc p = some h) {p' : ℕ} {q : MmapPtr}
    (hq : IsRegion st.disk.shape p' q) :
    (st.addRegion p v bytes addr h).disk.mmapobj q = st.disk.mmapobj q := by
  apply update_of_ne
  rintro rfl
  exact not_isRegion_slot (header_shape hh) le_rfl hq

/-- Neither are the chunks that were scanned before, when the region id is new. -/
theorem chunk_addRegion (hfresh : ∀ {q}, IsRegion st.disk.shape p q → (st.disk.mmapobj q).vmaId ≠ v)
    {p' : ℕ} {c : ChunkPtr} (hc : InScan st.disk.shape p' c) :
    (st.addRegion p v bytes addr h).disk.chunk c = st.disk.chunk c := by
  obtain ⟨q, hq, hqc⟩ := hc
  apply if_neg
  rw [hqc.file_eq, hq.pid_eq]
  intro heq
  obtain ⟨rfl, hv⟩ := metaOf_inj.mp heq
  exact hfresh hq hv

variable {a : ℕ} {nd : MmapobjNode}

theorem shapeOk_addRegion (hs : ShapeOk st.disk.shape) (hh : st.disk.proc p = some h)
    (hn : NodeOk st a nd) (hp : nd.procId = p)
    (hfresh : ∀ {q}, IsRegion st.disk.shape p q → (st.disk.mmapobj q).vmaId ≠ nd.mapId) :
    ShapeOk (st.addRegion p nd.mapId nd.size nd.startAddr h).disk.shape := by
  have hfile := hn.file
  rw [hp] at hfile
  obtain ⟨h', hh', hle⟩ := hs.fileOwner (p := p) (v := nd.mapId) (by rw [hfile]; simp)
  rw [header_shape hh] at hh'
  cases hh'
  rw [shape_addRegion hs hh]
  exact hs.addRegion (header_shape hh) (Nat.pos_of_ne_zero hn.idPos) hle hfresh hfile
    (toUint_le _)

/-- The regions are those before and the new one. -/
theorem isRegion_addRegion_iff (hs : ShapeOk st.disk.shape) (hh : st.disk.proc p = some h)
    {p' : ℕ} {q : MmapPtr} :
    IsRegion (st.addRegion p v bytes addr h).disk.shape p' q ↔
      IsRegion st.disk.shape p' q ∨ p' = p ∧ q = mmapobjSlot p h.pesistMmaps := by
  rw [shape_addRegion hs hh]
  exact isRegion_addRegion (header_shape hh)

theorem ramOk_addRegion (hs : ShapeOk st.disk.shape) (hr : RamOk st) (hh : st.disk.proc p = some h)
    (hnd : st.ram.mapTree.find a = some nd) (hp : nd.procId = p) :
    RamOk (st.addRegion p nd.mapId nd.size nd.startAddr h) := by
  refine ⟨hr.maps, hr.process, ?_, hr.nodeInj⟩
  intro a' nd' hnd'
  have hn := hr.node hnd'
  refine ⟨hn.start, hn.startPos, hn.startLt, hn.idPos, hn.mapped, hn.file, ?_⟩
  intro q hq hv
  rcases (isRegion_addRegion_iff hs hh).mp hq with hq | ⟨hp', rfl⟩
  · rw [mmapobj_addRegion hh hq] at hv ⊢
    exact hn.region hq hv
  · have hrec : (st.addRegion p nd.mapId nd.size nd.startAddr h).disk.mmapobj
        (mmapobjSlot p h.pesistMmaps) = (st.disk.mmapobj (mmapobjSlot p h.pesistMmaps)).created p
          nd.mapId nd.size nd.startAddr st.ram.run := update_self ..
    rw [hrec] at hv ⊢
    have heq : nd' = nd := hr.nodeInj hnd' hnd (hp'.trans hp.symm) hv.symm
    subst heq
    obtain ⟨hnum, hoff⟩ := blank_slot hs hh
    simp [Mmapobj.created, hnum, hoff]

/-- The process is loaded with the new region. -/
theorem loaded_addRegion (hi : StoreInv st p) (hh : st.disk.proc p = some h) (hn : NodeOk st a nd)
    (hp : nd.procId = p)
    (hfresh : ∀ {q}, IsRegion st.disk.shape p q → (st.disk.mmapobj q).vmaId ≠ nd.mapId) :
    Loaded (st.addRegion p nd.mapId nd.size nd.startAddr h) p := by
  have hregion : ∀ {q}, IsRegion (st.addRegion p nd.mapId nd.size nd.startAddr h).disk.shape p q ↔
      IsRegion st.disk.shape p q ∨ q = mmapobjSlot p h.pesistMmaps := by
    intro q
    rw [isRegion_addRegion_iff hi.shape hh]
    simp
  have hold : ∀ {q}, IsRegion st.disk.shape p q →
      (st.addRegion p nd.mapId nd.size nd.startAddr h).disk.mmapobj q = st.disk.mmapobj q :=
    fun hq => mmapobj_addRegion hh hq
  have hslot : (st.addRegion p nd.mapId nd.size nd.startAddr h).disk.mmapobj
      (mmapobjSlot p h.pesistMmaps) = (st.disk.mmapobj (mmapobjSlot p h.pesistMmaps)).created p
        nd.mapId nd.size nd.startAddr st.ram.run := update_self ..
  have hindexed : ∀ {c}, Indexed (st.addRegion p nd.mapId nd.size nd.startAddr h).disk p c →
      Indexed st.disk p c := by
    rintro c ⟨q, k, hq, hc⟩
    unfold Disk.entry at hc
    rcases hregion.mp hq with hq | rfl
    · rw [hold hq] at hc
      exact ⟨q, k, hq, hc⟩
    · rw [hslot] at hc
      simp [Mmapobj.created, TreeRef.create] at hc
  have hisChunk : ∀ {q c}, IsRegion st.disk.shape p q →
      (IsChunk (st.addRegion p nd.mapId nd.size nd.startAddr h).disk.shape q c ↔
        IsChunk st.disk.shape q c) := by
    intro q c hq
    unfold IsChunk
    simp only [shape_region_vmaId, shape_region_numchunks, hold hq]
  constructor
  · obtain ⟨h₁, t, hh₁, hinit, htree, hfind⟩ := hi.loaded.header
    rw [hh] at hh₁
    cases hh₁
    refine ⟨_, t.insert nd.mapId (mmapobjSlot p h.pesistMmaps), update_self .., hinit, ?_,
      ?_⟩
    · simp [ProcObj.addRegion, ProcObj.insertMmapobj, htree, TreeRef.insert]
      rfl
    · intro v' q
      rw [Rbtree.find_insert, hregion]
      by_cases hv : v' = nd.mapId
      · subst hv
        rw [if_pos rfl]
        constructor
        · rintro ⟨⟩
          exact ⟨.inr rfl, by rw [hslot]; rfl⟩
        · rintro ⟨hq | rfl, hv⟩
          · rw [hold hq] at hv
            exact absurd hv (hfresh hq)
          · rfl
      · rw [if_neg hv, hfind]
        constructor
        · rintro ⟨hq, hv'⟩
          exact ⟨.inl hq, by rw [hold hq]; exact hv'⟩
        · rintro ⟨hq | rfl, hv'⟩
          · rw [hold hq] at hv'
            exact ⟨hq, hv'⟩
          · rw [hslot] at hv'
            exact absurd hv'.symm hv
  · intro q hq
    rcases hregion.mp hq with hq | rfl
    · rw [hold hq]
      exact hi.loaded.mapped hq
    · rw [hslot]
      have hmap := hn.mapped
      rw [hp] at hmap
      exact ⟨by simpa [Mmapobj.created, hn.start] using hn.startPos, hmap⟩
  · intro q hq
    rcases hregion.mp hq with hq | rfl
    · rw [hold hq]
      exact hi.loaded.strtAddr hq
    · rw [hslot]
      rfl
  · intro q hq hinit
    rcases hregion.mp hq with hq | rfl
    · rw [hold hq] at hinit ⊢
      exact hi.loaded.chunkTree hq hinit
    · rw [hslot]
      exact ⟨.empty, rfl⟩
  · intro c hc
    obtain ⟨q, hq, hqc⟩ := hi.loaded.indexed (hindexed hc)
    exact ⟨q, hregion.mpr (.inl hq), (hisChunk hq).mpr hqc⟩
  · intro q c hq hqc hv
    rcases hregion.mp hq with hq | rfl
    · rw [hisChunk hq] at hqc
      rw [chunk_addRegion hfresh ⟨q, hq, hqc⟩] at hv ⊢
      rw [hold hq]
      refine hi.loaded.nvPtr hq hqc ?_
      rcases hv with hv | hv
      · exact .inl hv
      · exact .inr (hindexed hv)
    · unfold IsChunk at hqc
      simp only [shape_region_numchunks, hslot] at hqc
      simp [Mmapobj.created, (blank_slot hi.shape hh).1, chunkSlots] at hqc

/-- Registering a region keeps the invariant. -/
theorem storeInv_addRegion (hi : StoreInv st p) (hh : st.disk.proc p = some h)
    (hnd : st.ram.mapTree.find a = some nd) (hp : nd.procId = p)
    (hfresh : ∀ {q}, IsRegion st.disk.shape p q → (st.disk.mmapobj q).vmaId ≠ nd.mapId) :
    StoreInv (st.addRegion p nd.mapId nd.size nd.startAddr h) p where
  shape := shapeOk_addRegion hi.shape hh (hi.ram.node hnd) hp hfresh
  ram := ramOk_addRegion hi.shape hi.ram hh hnd hp
  loaded := loaded_addRegion hi hh (hi.ram.node hnd) hp hfresh
  registered := hi.registered
  initialized := hi.initialized
  pidPos := hi.pidPos

end AddRegion

/-! ## `add_chunk_to_mmapobj` -/

/-- The record that `update_chunkobj` fills in. -/
def newChunk (rqst : Rqst) (offset nvPtr vmaId : ℕ) : Chunkobj :=
  { length := toUint rqst.bytes, offset := toUint offset, chunkid := rqst.id, pid := rqst.pid,
    vmaId := vmaId, commitsz := 0, nvPtr := nvPtr, valid := .VALID, objname := rqst.varName }

/-- The writes of `update_chunkobj` before it clears the block. -/
def fieldWrites (c : ChunkPtr) (r : Chunkobj) : List Write :=
  [.chunk c fun x => { x with pid := r.pid },
    .chunk c fun x => { x with chunkid := r.chunkid },
    .chunk c fun x => { x with length := r.length },
    .chunk c fun x => { x with vmaId := r.vmaId },
    .chunk c fun x => { x with offset := r.offset },
    .chunk c fun x => { x with commitsz := r.commitsz },
    .chunk c fun x => { x with valid := r.valid },
    .chunk c fun x => { x with nvPtr := r.nvPtr }]

/-- The writes of `create_chunkobj`. -/
def createWrites (q : MmapPtr) (c : ChunkPtr) (r : Chunkobj) : List Write :=
  [.mmapobj q fun m => { m with metaOffset := m.metaOffset + sizeofChunkobj }] ++ fieldWrites c r ++
    byteWrites (dataOf c.file) r.offset (List.replicate r.length 0) ++
    [.chunk c fun x => { x with objname := r.objname }]

/-- The writes of `add_chunk_to_mmapobj`. -/
def appendWrites (q : MmapPtr) (c : ChunkPtr) (r : Chunkobj) : List Write :=
  createWrites q c r ++ addChunkobjWrites q c r

/-- The write that brings an appended chunk into the scan. -/
def countWrite (q : MmapPtr) : Write := .mmapobj q fun m => { m with numchunks := m.numchunks + 1 }

/-- The record of a region after a chunk is appended. -/
def Mmapobj.addChunk (m : Mmapobj) (k : ℕ) (c : ChunkPtr) : Mmapobj :=
  { m.insertEntry k c with
    metaOffset := m.metaOffset + sizeofChunkobj, numchunks := m.numchunks + 1 }

/-- The store after a chunk is appended to region `q` and counted. -/
def Store.appendChunk (st : Store) (q : MmapPtr) (r : Chunkobj) : Store where
  disk :=
    let c := st.disk.shape.nextChunk q
    { st.disk.blitFile (dataOf c.file) r.offset (List.replicate r.length 0) with
      chunk := update st.disk.chunk c r
      mmapobj := update st.disk.mmapobj q ((st.disk.mmapobj q).addChunk r.chunkid c) }
  ram := { st.ram with objnamemap := insert r.objname st.ram.objnamemap }

section AppendChunk

variable {st : Store} {p : ℕ} {q : MmapPtr} {r : Chunkobj}

theorem applyAll_fieldWrites (st : Store) (c : ChunkPtr) (r : Chunkobj) :
    applyAll st (fieldWrites c r) =
      st.apply (.chunk c fun x => { r with objname := x.objname }) := by
  simp [fieldWrites, WriteEffect.apply, Store.apply, Disk.apply, Ram.apply]

theorem applyAll_createWrites (st : Store) (q : MmapPtr) (c : ChunkPtr) (r : Chunkobj) :
    applyAll st (createWrites q c r) =
      ⟨{ st.disk.blitFile (dataOf c.file) r.offset (List.replicate r.length 0) with
          chunk := update st.disk.chunk c r
          mmapobj := update st.disk.mmapobj q
            { st.disk.mmapobj q with metaOffset := (st.disk.mmapobj q).metaOffset + sizeofChunkobj }
            },
        st.ram⟩ := by
  simp only [createWrites, applyAll_append, applyAll_fieldWrites, applyAll_byteWrites]
  simp [WriteEffect.apply, Store.apply, Disk.apply, Ram.apply, Disk.blitFile]

theorem applyAll_appendWrites (st : Store) (q : MmapPtr) (r : Chunkobj) :
    applyAll st (appendWrites q (st.disk.shape.nextChunk q) r ++ [countWrite q]) =
      st.appendChunk q r := by
  simp only [appendWrites, applyAll_append, applyAll_createWrites]
  simp [addChunkobjWrites, countWrite, WriteEffect.apply, Store.apply, Disk.apply, Ram.apply,
    Store.appendChunk, Disk.blitFile, Mmapobj.addChunk, Mmapobj.insertEntry]

variable {c : ChunkPtr}

/-- `update_chunkobj`, when the block can be cleared. -/
theorem updateChunkobj_run {rqst : Rqst} {offset nvPtr : ℕ} {bw : List Write}
    (hname : rqst.varName.bytes ≠ [])
    (hstore : st.storeBytes nvPtr (List.replicate (toUint rqst.bytes) 0) = some bw) :
    updateChunkobj rqst offset nvPtr q c st =
      some ((), fieldWrites c (newChunk rqst offset nvPtr (st.disk.mmapobj q).vmaId) ++ bw ++
        [.chunk c fun x => { x with objname := rqst.varName }]) := by
  simp [updateChunkobj, run_bind_eq, hname, hstore, fieldWrites, newChunk]

/-- The block at `nvPtr` lies in the mapped data file of region `q`. -/
def BlockIn (st : Store) (q : MmapPtr) (offset nvPtr len : ℕ) : Prop :=
  ∃ m x, m ∈ st.ram.maps ∧ m.file = ⟨q.pid, (st.disk.mmapobj q).vmaId⟩ ∧
    st.disk.data m.file = some x ∧ nvPtr = m.base + offset ∧ offset + len ≤ m.size ∧
    offset + len ≤ x.size

section Run

variable {rqst : Rqst} {offset nvPtr : ℕ} (hname : rqst.varName.bytes ≠ [])
  (hstrt : (st.disk.mmapobj q).strtAddr = some (metaOf q.pid (st.disk.mmapobj q).vmaId))
  (hoff : (st.disk.mmapobj q).metaOffset = (st.disk.mmapobj q).numchunks * sizeofChunkobj)
  (hcap : (st.disk.mmapobj q).metaOffset + sizeofChunkobj ≤ mmapMetadataSz)
  (hmaps : st.ram.maps.Pairwise Mapping.Disjoint)
  (hblock : BlockIn st q (toUint offset) nvPtr (toUint rqst.bytes))
include hname hstrt hoff hcap hmaps hblock

/-- `create_chunkobj` on a region that appends where it scans. -/
theorem createChunkobj_run : createChunkobj rqst offset nvPtr q true st =
    some (st.disk.shape.nextChunk q, createWrites q (st.disk.shape.nextChunk q)
      (newChunk rqst offset nvPtr (st.disk.mmapobj q).vmaId)) := by
  obtain ⟨m, x, hm, hfile, hx, hptr, hsize, hsize'⟩ := hblock
  have hc : (⟨metaOf q.pid (st.disk.mmapobj q).vmaId, (st.disk.mmapobj q).metaOffset⟩ : ChunkPtr) =
      st.disk.shape.nextChunk q := by
    rw [hoff]
    rfl
  have hdata : dataOf (st.disk.shape.nextChunk q).file = m.file := by
    rw [hfile]
    exact dataOf_metaOf _ _
  have hstore : (WriteEffect.apply st (Write.mmapobj q fun m =>
      { m with metaOffset := m.metaOffset + sizeofChunkobj })).storeBytes nvPtr
        (List.replicate (toUint rqst.bytes) 0) =
      some (byteWrites m.file (toUint offset) (List.replicate (toUint rqst.bytes) 0)) := by
    rw [hptr]
    refine storeBytes_of_mem (x := x) ?_ ?_ ?_ ?_ ?_
    · exact hmaps
    · exact hm
    · exact hx
    · simpa using hsize
    · simpa using hsize'
  have hvma : ((WriteEffect.apply st (Write.mmapobj q fun m =>
      { m with metaOffset := m.metaOffset + sizeofChunkobj })).disk.mmapobj q).vmaId =
        (st.disk.mmapobj q).vmaId := by
    simp [WriteEffect.apply, Store.apply, Disk.apply]
  simp [createChunkobj, run_bind_eq, hstrt, hc, hcap, updateChunkobj_run hname hstore, hvma,
    createWrites, hdata]
  exact ⟨rfl, rfl⟩

/-- `add_chunk_to_mmapobj` on such a region. -/
theorem addChunkToMmapobj_run (hlen : toUint rqst.bytes ≠ 0) {t : Rbtree ChunkPtr}
    (htree : (st.disk.mmapobj q).chunkobjTree = some ⟨st.ram.run, t⟩) :
    addChunkToMmapobj rqst offset nvPtr q st =
      some (st.disk.shape.nextChunk q, appendWrites q (st.disk.shape.nextChunk q)
        (newChunk rqst offset nvPtr (st.disk.mmapobj q).vmaId)) := by
  have hcreate := createChunkobj_run hname hstrt hoff hcap hmaps hblock
  have hstate := applyAll_createWrites st q (st.disk.shape.nextChunk q)
    (newChunk rqst offset nvPtr (st.disk.mmapobj q).vmaId)
  have hchunk : (applyAll st (createWrites q (st.disk.shape.nextChunk q)
      (newChunk rqst offset nvPtr (st.disk.mmapobj q).vmaId))).disk.chunk
        (st.disk.shape.nextChunk q) = newChunk rqst offset nvPtr (st.disk.mmapobj q).vmaId := by
    rw [hstate]
    exact update_self ..
  have hadd : addChunkobj q (st.disk.shape.nextChunk q) (applyAll st (createWrites q
      (st.disk.shape.nextChunk q) (newChunk rqst offset nvPtr (st.disk.mmapobj q).vmaId))) =
      some ((), addChunkobjWrites q (st.disk.shape.nextChunk q)
        (newChunk rqst offset nvPtr (st.disk.mmapobj q).vmaId)) := by
    rw [addChunkobj_run (t := t), hchunk]
    · rw [hstate]
      simpa using htree
    · rw [hchunk]
      exact hlen
  simp only [addChunkToMmapobj, run_bind_eq, hcreate, Option.bind_some, hadd, run_pure,
    Option.map_some, List.append_nil, appendWrites]

end Run

/-! ### The store after it -/

/-- On disk a new chunk is one more record of its region. -/
theorem shape_appendChunk (st : Store) (q : MmapPtr) (r : Chunkobj) :
    (st.appendChunk q r).disk.shape =
      st.disk.shape.addChunk q ((st.disk.mmapobj q).metaOffset + sizeofChunkobj) r.extent := by
  have hfile : ∀ f, ((st.appendChunk q r).disk.data f).map DataContent.size =
      (st.disk.data f).map DataContent.size :=
    (SameFrame.blitFile (SameFrame.refl st) _ _ _).size
  unfold Disk.shape Shape.addChunk
  congr 1
  · funext q'
    by_cases hq : q' = q
    · subst hq
      simp [Store.appendChunk, Mmapobj.addChunk, Mmapobj.insertEntry, Mmapobj.shape]
    · simp [Store.appendChunk, hq]
  · funext c
    show ((st.appendChunk q r).disk.chunk c).extent =
      update st.disk.shape.extent (st.disk.shape.nextChunk q) r.extent c
    by_cases hc : c = st.disk.shape.nextChunk q
    · subst hc
      rw [update_self]
      exact congrArg Chunkobj.extent (update_self ..)
    · rw [update_of_ne hc]
      exact congrArg Chunkobj.extent (update_of_ne hc ..)
  · exact funext hfile

/-- The other records stay as they are. -/
theorem chunk_appendChunk (hs : ShapeOk st.disk.shape) (hq : IsRegion st.disk.shape p q) {p' : ℕ}
    (hc : InScan st.disk.shape p' c) :
    (st.appendChunk q r).disk.chunk c = st.disk.chunk c := by
  obtain ⟨q', hq', hqc⟩ := hc
  apply update_of_ne
  rintro rfl
  exact nextChunk_not_isChunk hs hq hq' hqc

theorem chunk_appendChunk_self : (st.appendChunk q r).disk.chunk (st.disk.shape.nextChunk q) = r :=
  update_self ..

theorem entry_appendChunk {t : TreeRef ChunkPtr}
    (hinit : (st.disk.mmapobj q).chunkTreeInit = true)
    (htree : (st.disk.mmapobj q).chunkobjTree = some t) (q' : MmapPtr) (k : ℕ) :
    (st.appendChunk q r).disk.entry q' k =
      if q' = q ∧ k = r.chunkid then some (st.disk.shape.nextChunk q) else st.disk.entry q' k := by
  by_cases hq : q' = q
  · subst hq
    by_cases hk : k = r.chunkid <;>
      simp [Disk.entry, Store.appendChunk, Mmapobj.addChunk, Mmapobj.insertEntry, hinit, htree,
        TreeRef.insert, Rbtree.find_insert, hk]
  · simp [Disk.entry, Store.appendChunk, hq]

/-- A chunk fits region `q`: its block lies in the data file and its pointer in
the mapping. -/
structure ChunkFits (st : Store) (p : ℕ) (q : MmapPtr) (r : Chunkobj) : Prop where
  region : IsRegion st.disk.shape p q
  init : (st.disk.mmapobj q).chunkTreeInit = true
  append : (st.disk.mmapobj q).metaOffset = (st.disk.mmapobj q).numchunks * sizeofChunkobj
  pid : r.pid = p
  lengthPos : 0 < r.length
  inFile : ∃ n, st.disk.shape.fileSize ⟨p, (st.disk.mmapobj q).vmaId⟩ = some n ∧
    r.offset + r.length ≤ n
  nvPtr : r.nvPtr = (st.disk.mmapobj q).dataAddr + r.offset

theorem isRegion_appendChunk {p' : ℕ} {q' : MmapPtr} :
    IsRegion (st.appendChunk q r).disk.shape p' q' ↔ IsRegion st.disk.shape p' q' := by
  rw [shape_appendChunk]
  exact isRegion_addChunk

/-- The entries are those before and that of the new chunk. -/
theorem entryAt_appendChunk (hl : Loaded st p) (hfits : ChunkFits st p q r) (q' : MmapPtr) (k : ℕ)
    (c : ChunkPtr) : EntryAt (st.appendChunk q r).disk p q' k c ↔
      q' = q ∧ k = r.chunkid ∧ st.disk.shape.nextChunk q = c ∨
        ¬ (q' = q ∧ k = r.chunkid) ∧ EntryAt st.disk p q' k c := by
  obtain ⟨t, ht⟩ := hl.chunkTree hfits.region hfits.init
  rw [EntryAt, isRegion_appendChunk, entry_appendChunk hfits.init ht, EntryAt]
  by_cases hqk : q' = q ∧ k = r.chunkid
  · rw [if_pos hqk]
    obtain ⟨rfl, rfl⟩ := hqk
    simp [hfits.region]
  · rw [if_neg hqk]
    constructor
    · exact fun he => .inr ⟨hqk, he⟩
    · rintro (⟨rfl, rfl, -⟩ | ⟨-, he⟩)
      · exact absurd ⟨rfl, rfl⟩ hqk
      · exact he

/-- Appending changes only the tree and the counters of a region record. -/
theorem mmapobj_appendChunk (st : Store) (q : MmapPtr) (r : Chunkobj) (q' : MmapPtr) :
    ∃ tr o n, (st.appendChunk q r).disk.mmapobj q' =
      { st.disk.mmapobj q' with chunkobjTree := tr, metaOffset := o, numchunks := n } := by
  by_cases hq : q' = q
  · subst hq
    exact ⟨_, _, _, update_self ..⟩
  · exact ⟨_, _, _, update_of_ne hq ..⟩

/-- The chunks are those before and the new one. -/
theorem isChunk_appendChunk {q' : MmapPtr} :
    IsChunk (st.appendChunk q r).disk.shape q' c ↔
      IsChunk st.disk.shape q' c ∨ q' = q ∧ c = st.disk.shape.nextChunk q := by
  rw [shape_appendChunk]
  exact isChunk_addChunk

theorem nextChunk_isChunk : IsChunk (st.appendChunk q r).disk.shape q (st.disk.shape.nextChunk q) :=
  isChunk_appendChunk.mpr (.inr ⟨rfl, rfl⟩)

theorem ramOk_appendChunk (hr : RamOk st)
    (hoff : (st.disk.mmapobj q).metaOffset = (st.disk.mmapobj q).numchunks * sizeofChunkobj) :
    RamOk (st.appendChunk q r) := by
  refine ⟨hr.maps, hr.process, ?_, hr.nodeInj⟩
  intro a nd hnd
  have hn := hr.node hnd
  refine ⟨hn.start, hn.startPos, hn.startLt, hn.idPos, hn.mapped, ?_, ?_⟩
  · rw [shape_appendChunk]
    exact hn.file
  · intro q' hq' hv
    rw [isRegion_appendChunk] at hq'
    obtain ⟨tr, o, n, hrec⟩ := mmapobj_appendChunk st q r q'
    rw [hrec] at hv
    obtain ⟨haddr, hlen, hinit, happ⟩ := hn.region hq' hv
    refine ⟨by rw [hrec]; exact haddr, by rw [hrec]; exact hlen, by rw [hrec]; exact hinit, ?_⟩
    by_cases hq : q' = q
    · subst hq
      simp only [Store.appendChunk, update_self, Mmapobj.addChunk, Mmapobj.insertEntry, hoff]
      rw [Nat.add_mul, Nat.one_mul]
    · simp only [Store.appendChunk, update_of_ne hq]
      exact happ

/-- The process is loaded with the new chunk. -/
theorem loaded_appendChunk (hi : StoreInv st p) (hf : ChunkFits st p q r) :
    Loaded (st.appendChunk q r) p := by
  obtain ⟨t, ht⟩ := hi.loaded.chunkTree hf.region hf.init
  have hindexed : ∀ {c}, Indexed (st.appendChunk q r).disk p c →
      c = st.disk.shape.nextChunk q ∨ Indexed st.disk p c := by
    rintro c ⟨q', k, hq', hc⟩
    rw [entry_appendChunk hf.init ht] at hc
    split at hc
    · exact .inl (Option.some.inj hc).symm
    · exact .inr ⟨q', k, isRegion_appendChunk.mp hq', hc⟩
  constructor
  · obtain ⟨h, tr, hh, hinit, htree, hfind⟩ := hi.loaded.header
    refine ⟨h, tr, hh, hinit, htree, ?_⟩
    intro v q'
    obtain ⟨_, _, _, hrec⟩ := mmapobj_appendChunk st q r q'
    rw [isRegion_appendChunk, hrec]
    exact hfind v q'
  · intro q' hq'
    obtain ⟨_, _, _, hrec⟩ := mmapobj_appendChunk st q r q'
    rw [isRegion_appendChunk] at hq'
    rw [hrec]
    exact hi.loaded.mapped hq'
  · intro q' hq'
    obtain ⟨_, _, _, hrec⟩ := mmapobj_appendChunk st q r q'
    rw [isRegion_appendChunk] at hq'
    rw [hrec]
    exact hi.loaded.strtAddr hq'
  · intro q' hq' hinit
    rw [isRegion_appendChunk] at hq'
    by_cases hqq : q' = q
    · subst hqq
      refine ⟨t.insert r.chunkid (st.disk.shape.nextChunk q'), ?_⟩
      simp [Store.appendChunk, Mmapobj.addChunk, Mmapobj.insertEntry, ht, TreeRef.insert]
    · simp only [Store.appendChunk, update_of_ne hqq] at hinit ⊢
      exact hi.loaded.chunkTree hq' hinit
  · intro c hc
    rcases hindexed hc with rfl | hc
    · exact ⟨q, isRegion_appendChunk.mpr hf.region, nextChunk_isChunk⟩
    · obtain ⟨q', hq', hqc⟩ := hi.loaded.indexed hc
      exact ⟨q', isRegion_appendChunk.mpr hq', isChunk_appendChunk.mpr (.inl hqc)⟩
  · intro q' c hq' hqc hv
    obtain ⟨_, _, _, hrec⟩ := mmapobj_appendChunk st q r q'
    rw [isRegion_appendChunk] at hq'
    rcases isChunk_appendChunk.mp hqc with hqc | ⟨rfl, rfl⟩
    · rw [chunk_appendChunk hi.shape hf.region ⟨q', hq', hqc⟩] at hv ⊢
      rw [hrec]
      refine hi.loaded.nvPtr hq' hqc ?_
      rcases hv with hv | hv
      · exact .inl hv
      · rcases hindexed hv with rfl | hv
        · exact absurd hqc (nextChunk_not_isChunk hi.shape hf.region hq')
        · exact .inr hv
    · rw [chunk_appendChunk_self, hrec]
      exact hf.nvPtr

/-- Appending a chunk keeps the invariant. -/
theorem storeInv_appendChunk (hi : StoreInv st p) (hf : ChunkFits st p q r) :
    StoreInv (st.appendChunk q r) p where
  shape := by
    obtain ⟨n, hn, hle⟩ := hf.inFile
    rw [shape_appendChunk]
    exact hi.shape.addChunk hf.region hn hf.pid hf.lengthPos hle
  ram := ramOk_appendChunk hi.ram hf.append
  loaded := loaded_appendChunk hi hf
  registered := hi.registered
  initialized := hi.initialized
  pidPos := hi.pidPos

end AppendChunk
