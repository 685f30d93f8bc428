/-
# Allocating an object

`nv_record_chunk` records a block that the allocator has found: it looks up the
region of the block in the address-range tree, registers the region with the
process if this is its first block, appends a chunk record, and, when the name
was live, copies the old contents and deletes the old chunk.

The block lies in the region (`BlockOf`), and for the call to get past clearing
it, in the part of the region that the region's file covers (`Backed`).
-/
import NvMalloc.Growth
import NvMalloc.RangeTree
import NvMalloc.Objects

open WriteM Function

/-! ## The region of a block -/

/-- The allocator hands out `bytes` bytes at `addr`, in the region of node `nd`
of process `p`. -/
structure BlockOf (st : Store) (p : ℕ) (nd : MmapobjNode) (addr bytes : ℕ) : Prop where
  node : st.ram.mapTree.find nd.startAddr = some nd
  owner : nd.procId = p
  lo : nd.startAddr ≤ addr
  hi : addr + bytes ≤ nd.endAddr
  pos : 0 < bytes
  small : bytes < 2 ^ 32

/-- The block lies in the first `size mod 2^32` bytes of its region, which is how
long `setup_map_file` makes the file. -/
def Backed (nd : MmapobjNode) (addr bytes : ℕ) : Prop :=
  addr + bytes ≤ nd.startAddr + toUint nd.size

/-- The region of node `nd` is not registered with `p` yet. -/
def Unregistered (st : Store) (p : ℕ) (nd : MmapobjNode) : Prop :=
  ∀ {q}, IsRegion st.disk.shape p q → (st.disk.mmapobj q).vmaId ≠ nd.mapId

/-- The metadata files have room for the records of one more chunk and, unless it is registered
already, of its region. -/
structure MetaRoom (st : Store) (p : ℕ) (nd : MmapobjNode) : Prop where
  header : Unregistered st p nd → ∀ {h}, st.disk.proc p = some h →
    h.metaOffset + sizeofMmapobj ≤ procMetadatSz
  region : ∀ {q}, IsRegion st.disk.shape p q → (st.disk.mmapobj q).vmaId = nd.mapId →
    (st.disk.mmapobj q).metaOffset + sizeofChunkobj ≤ mmapMetadataSz

section Locate

variable {st : Store}

/-- Regions with increasing addresses do not overlap. -/
theorem RamOk.end_le_start (hr : RamOk st) {a a' : ℕ} {nd nd' : MmapobjNode}
    (ha : st.ram.mapTree.find a = some nd) (ha' : st.ram.mapTree.find a' = some nd')
    (hlt : a < a') :
    nd.endAddr ≤ nd'.startAddr := by
  have hn := hr.node ha
  have hn' := hr.node ha'
  have hstart := hn.start
  have hstart' := hn'.start
  have hne : (⟨nd.startAddr, nd.size, nd.procId, nd.mapId⟩ : Mapping) ≠
      ⟨nd'.startAddr, nd'.size, nd'.procId, nd'.mapId⟩ := by
    intro heq
    have := congrArg Mapping.base heq
    simp only at this
    omega
  have hdis := hr.maps.forall hn.mapped hn'.mapped hne
  have hlt₁ := hn.startLt
  have hlt₂ := hn'.startLt
  simp only [Mapping.Disjoint, MmapobjNode.size] at hdis
  omega

/-- The comparison of `locate_mmapobj_node` agrees with the order of the regions. -/
theorem RamOk.compRange_monotone (hr : RamOk st) (addr : ℕ) :
    RbtreeNode.Monotone (compRange addr) st.ram.mapTree.root.toList := by
  refine monotone_compRange (List.Pairwise.imp_of_mem ?_ st.ram.mapTree.ordered) addr
  rintro ⟨a, nd⟩ ⟨a', nd'⟩ hmem hmem' hlt
  have ha := (st.ram.mapTree.find_eq_some_iff a nd).mpr hmem
  have ha' := (st.ram.mapTree.find_eq_some_iff a' nd').mpr hmem'
  have hle := hr.end_le_start ha ha' hlt
  rw [(hr.node ha').start] at hle
  exact ⟨hlt, hle⟩

/-- `locate_mmapobj_node` finds the region of a block. -/
theorem locateMmapobjNode_of_block (hr : RamOk st) {p : ℕ} {nd : MmapobjNode} {addr bytes : ℕ}
    (hb : BlockOf st p nd addr bytes) : st.locateMmapobjNode addr = some nd := by
  have hlo := hb.lo
  have hhi := hb.hi
  have hpos := hb.pos
  have hin : compRange addr nd.startAddr nd = .eq :=
    (compRange_eq_iff_of_lt (by omega)).mpr ⟨hlo, by omega⟩
  exact (RbtreeNode.lookupBy_eq_some_iff (hr.compRange_monotone addr) nd).mpr
    ⟨nd.startAddr, (st.ram.mapTree.find_eq_some_iff _ nd).mp hb.node, hin⟩

end Locate

/-! ## Registering the region -/

/-- Region `q` of `p` is the one of node `nd`, and has room for a chunk. -/
structure RegionReady (st : Store) (p : ℕ) (nd : MmapobjNode) (q : MmapPtr) : Prop where
  inv : StoreInv st p
  node : st.ram.mapTree.find nd.startAddr = some nd
  owner : nd.procId = p
  region : IsRegion st.disk.shape p q
  vmaId : (st.disk.mmapobj q).vmaId = nd.mapId
  room : (st.disk.mmapobj q).metaOffset + sizeofChunkobj ≤ mmapMetadataSz

section Region

variable {st : Store} {p : ℕ} {nd : MmapobjNode}

theorem findMmapobj_run (hl : Loaded st p) (v : ℕ) : ∃ r, findMmapobj v p st = some (r, []) ∧
    ∀ q, r = some q ↔ IsRegion st.disk.shape p q ∧ (st.disk.mmapobj q).vmaId = v := by
  obtain ⟨h, t, hh, hinit, htree, hfind⟩ := hl.header
  refine ⟨t.find v, ?_, fun q => hfind v q⟩
  simp [findMmapobj, run_bind_eq, hh, hinit, htree, TreeRef.deref]

/-- The shared globals that `create_mmapobj` reads belong to `p` and `nd`. -/
structure GlobalsOf (st : Store) (p : ℕ) (nd : MmapobjNode) : Prop where
  start : st.ram.procMapStart = some p
  size : st.ram.procVmas nd.mapId = nd.size

theorem grown_addRegion (hs : ShapeOk st.disk.shape) {h : ProcObj} (hh : st.disk.proc p = some h)
    (hfresh : Unregistered st p nd) :
    Grown st.disk (st.addRegion p nd.mapId nd.size nd.startAddr h).disk p where
  isRegion hq := (isRegion_addRegion_iff hs hh).mpr (.inl hq)
  mmapobj hq := mmapobj_addRegion hh hq
  blank := by
    intro q hq
    rcases (isRegion_addRegion_iff hs hh).mp hq with hq | ⟨-, rfl⟩
    · exact .inl hq
    · have hslot : (st.addRegion p nd.mapId nd.size nd.startAddr h).disk.mmapobj
          (mmapobjSlot p h.pesistMmaps) = (st.disk.mmapobj (mmapobjSlot p h.pesistMmaps)).created p
            nd.mapId nd.size nd.startAddr st.ram.run := update_self ..
      refine .inr ⟨?_, ?_⟩
      · intro c hc
        unfold IsChunk at hc
        simp only [shape_region_numchunks, hslot] at hc
        simp [Mmapobj.created, (blank_slot hs hh).1, chunkSlots] at hc
      · intro k
        rw [Disk.entry, hslot]
        simp [Mmapobj.created, TreeRef.create]
  chunk hc := chunk_addRegion hfresh hc
  bytes _ := rfl

theorem sameFiles_addRegion {h : ProcObj} {v bytes addr p' : ℕ} (hne : p' ≠ p) :
    SameFiles st.disk (st.addRegion p v bytes addr h).disk p' where
  proc := update_of_ne hne ..
  mmapobj := by
    rintro q rfl
    apply update_of_ne
    rintro rfl
    exact hne rfl
  chunk := by
    rintro c rfl
    apply if_neg
    intro heq
    exact hne (congrArg MetaFile.pid heq)
  data _ := rfl

theorem sameFiles_appendChunk {q : MmapPtr} {r : Chunkobj} {p' : ℕ} (hq : q.pid = p)
    (hne : p' ≠ p) :
    SameFiles st.disk (st.appendChunk q r).disk p' where
  proc := rfl
  mmapobj := by
    rintro q' rfl
    apply update_of_ne
    rintro rfl
    exact hne hq
  chunk := by
    rintro c rfl
    apply update_of_ne
    rintro rfl
    exact hne hq
  data v := by
    apply update_of_ne
    intro heq
    exact hne ((DataFile.mk.inj heq).1.trans hq)

/-- `findOrAddMmapobj` ends with region `q` after the writes `ws`: none when the
region is registered already, else those of `add_mmapobj_to_proc`. -/
structure RegionFound (st : Store) (p : ℕ) (nd : MmapobjNode) (q : MmapPtr) (ws : List Write) :
    Prop where
  run : findOrAddMmapobj p p nd true st = some (q, ws)
  ready : RegionReady (applyAll st ws) p nd q
  grown : Grown st.disk (applyAll st ws).disk p
  ram : (applyAll st ws).ram = st.ram
  data : (applyAll st ws).disk.data = st.disk.data
  files : ∀ {p'}, p' ≠ p → SameFiles st.disk (applyAll st ws).disk p'
  writes : ws = [] ∨ ∃ h, st.disk.proc p = some h ∧ Unregistered st p nd ∧
    q = mmapobjSlot p h.pesistMmaps ∧
    ws = addRegionWrites p nd.mapId nd.size nd.startAddr st.ram.run q

theorem findOrAddMmapobj_found (hi : StoreInv st p)
    (hnd : st.ram.mapTree.find nd.startAddr = some nd) (howner : nd.procId = p)
    (hroom : MetaRoom st p nd) (hglob : Unregistered st p nd → GlobalsOf st p nd) :
    ∃ q ws, RegionFound st p nd q ws := by
  obtain ⟨r, hrun, hr⟩ := findMmapobj_run hi.loaded nd.mapId
  cases r with
  | some q =>
    obtain ⟨hq, hv⟩ := (hr q).mp rfl
    have hn := hi.ram.node hnd
    have hlen : (st.disk.mmapobj q).length ≠ 0 := by
      have hreg := hn.region (howner ▸ hq) hv
      have hlt := hn.startLt
      rw [hreg.2.1, MmapobjNode.size]
      omega
    refine ⟨q, [], ?_, ⟨hi, hnd, howner, hq, hv, hroom.region hq hv⟩, Grown.refl _ _, rfl, rfl,
      fun _ => SameFiles.refl _ _, .inl rfl⟩
    simp [findOrAddMmapobj, run_bind_eq, hrun, hlen]
  | none =>
    have hfresh : Unregistered st p nd := by
      intro q hq hv
      have := (hr q).mpr ⟨hq, hv⟩
      cases this
    obtain ⟨hstart, hsize⟩ := hglob hfresh
    obtain ⟨h, t, hh, hinit, htree, -⟩ := hi.loaded.header
    have hadd : addMmapobjToProc p p nd.mapId nd.size nd.startAddr true st =
        some (mmapobjSlot p h.pesistMmaps, addRegionWrites p nd.mapId nd.size nd.startAddr
          st.ram.run (mmapobjSlot p h.pesistMmaps)) := by
      rw [← slot_eq hi.shape hh]
      exact addMmapobjToProc_run hstart hh hinit htree (hroom.header hfresh hh)
    have happly : applyAll st (addRegionWrites p nd.mapId nd.size nd.startAddr st.ram.run
        (mmapobjSlot p h.pesistMmaps)) = st.addRegion p nd.mapId nd.size nd.startAddr h :=
      applyAll_addRegionWrites hh
    have hslot : (st.addRegion p nd.mapId nd.size nd.startAddr h).disk.mmapobj
        (mmapobjSlot p h.pesistMmaps) = (st.disk.mmapobj (mmapobjSlot p h.pesistMmaps)).created p
          nd.mapId nd.size nd.startAddr st.ram.run := update_self ..
    refine ⟨_, _, ?_, ?_, ?_, ?_, ?_, ?_, .inr ⟨h, hh, hfresh, rfl, rfl⟩⟩
    · simp [findOrAddMmapobj, run_bind_eq, hrun, hsize, hadd]
    · rw [happly]
      refine ⟨storeInv_addRegion hi hh hnd howner hfresh, hnd, howner, ?_, ?_, ?_⟩
      · exact (isRegion_addRegion_iff hi.shape hh).mpr (.inr ⟨rfl, rfl⟩)
      · rw [hslot]
        rfl
      · rw [hslot]
        simp [Mmapobj.created, (blank_slot hi.shape hh).2, sizeofChunkobj, mmapMetadataSz]
    · rw [happly]
      exact grown_addRegion hi.shape hh hfresh
    · rw [happly]
      rfl
    · rw [happly]
      rfl
    · intro p' hne
      rw [happly]
      exact sameFiles_addRegion hne

end Region

/-! ## The new chunk -/

/-- The chunk record of an allocation. -/
def allocChunk (rqst : Rqst) (nd : MmapobjNode) (addr : ℕ) : Chunkobj :=
  newChunk { rqst with id := genIdFromStr rqst.varName } (addr - nd.startAddr) addr nd.mapId

section Chunk

variable {st : Store} {p : ℕ} {nd : MmapobjNode} {q : MmapPtr} {rqst : Rqst} {addr : ℕ}

/-- What `Backed` gives for the 32-bit fields of the record. -/
theorem toUint_offset (hb : BlockOf st p nd addr rqst.bytes) (hback : Backed nd addr rqst.bytes) :
    toUint (addr - nd.startAddr) = addr - nd.startAddr := by
  have hlt := toUint_lt nd.size
  have hpos := hb.pos
  have hlo := hb.lo
  unfold Backed at hback
  exact toUint_of_lt (by omega)

theorem toUint_bytes (hb : BlockOf st p nd addr rqst.bytes) : toUint rqst.bytes = rqst.bytes :=
  toUint_of_lt hb.small

section

variable (hq : RegionReady st p nd q) (hb : BlockOf st p nd addr rqst.bytes)
include hq hb

theorem chunkFits_alloc (hpid : rqst.pid = p) (hback : Backed nd addr rqst.bytes) :
    ChunkFits st p q (allocChunk rqst nd addr) := by
  have hn := hq.inv.ram.node hq.node
  have hregion := hq.region
  rw [← hq.owner] at hregion
  obtain ⟨haddr, -, hinit, hoff⟩ := hn.region hregion hq.vmaId
  have hoffset := toUint_offset hb hback
  have hbytes := toUint_bytes hb
  have hlo := hb.lo
  unfold Backed at hback
  refine ⟨hq.region, hinit, hoff, hpid, ?_, ⟨toUint nd.size, ?_, ?_⟩, ?_⟩
  · show 0 < toUint rqst.bytes
    rw [hbytes]
    exact hb.pos
  · rw [hq.vmaId, ← hq.owner]
    exact hn.file
  · show toUint (addr - nd.startAddr) + toUint rqst.bytes ≤ _
    omega
  · show addr = (st.disk.mmapobj q).dataAddr + toUint (addr - nd.startAddr)
    rw [haddr, hoffset]
    omega

theorem blockIn_alloc (hback : Backed nd addr rqst.bytes) :
    BlockIn st q (toUint (addr - nd.startAddr)) addr (toUint rqst.bytes) := by
  have hn := hq.inv.ram.node hq.node
  obtain ⟨x, hx, hsize⟩ := Option.map_eq_some_iff.mp hn.file
  have hoffset := toUint_offset hb hback
  have hbytes := toUint_bytes hb
  have hlo := hb.lo
  have hle := toUint_le nd.size
  unfold Backed at hback
  refine ⟨_, x, hn.mapped, ?_, hx, ?_, ?_, ?_⟩
  · rw [hq.vmaId, hq.region.pid_eq, hq.owner]
  · rw [hoffset]
    simp only
    omega
  · simp only
    omega
  · rw [hsize]
    omega

theorem addChunkToMmapobj_alloc (hpid : rqst.pid = p) (hback : Backed nd addr rqst.bytes)
    (hname : rqst.varName.bytes ≠ []) :
    addChunkToMmapobj { rqst with id := genIdFromStr rqst.varName }
    (addr - nd.startAddr) addr q st =
      some (st.disk.shape.nextChunk q,
        appendWrites q (st.disk.shape.nextChunk q) (allocChunk rqst nd addr)) := by
  have hfits := chunkFits_alloc hq hb hpid hback
  obtain ⟨t, ht⟩ := hq.inv.loaded.chunkTree hq.region hfits.init
  have hstrt := hq.inv.loaded.strtAddr hq.region
  rw [← hq.region.pid_eq] at hstrt
  have hlen : toUint rqst.bytes ≠ 0 := by
    rw [toUint_bytes hb]
    have := hb.pos
    omega
  have hadd : addChunkToMmapobj { rqst with id := genIdFromStr rqst.varName }
      (addr - nd.startAddr) addr q st = _ :=
    addChunkToMmapobj_run hname hstrt hfits.append hq.room hq.inv.ram.maps
      (blockIn_alloc hq hb hback) hlen ht
  rw [hadd, hq.vmaId]
  rfl

end

variable {offset : ℕ}

theorem storeBytes_of_updateChunkobj {c : ChunkPtr}
    (h : (updateChunkobj rqst offset addr q c st).isSome) :
    (st.storeBytes addr (List.replicate (toUint rqst.bytes) 0)).isSome := by
  cases hstore : st.storeBytes addr (List.replicate (toUint rqst.bytes) 0) with
  | none => simp [updateChunkobj, run_bind_eq, hstore] at h
  | some ws => rfl

/-- A chunk is only added when its block can be cleared. -/
theorem storeBytes_of_addChunk (h : (addChunkToMmapobj rqst offset addr q st).isSome) :
    ∃ st₁ : Store, st₁.ram = st.ram ∧ st₁.disk.data = st.disk.data ∧
      (st₁.storeBytes addr (List.replicate (toUint rqst.bytes) 0)).isSome := by
  obtain ⟨c, ws, hcreate, -⟩ := run_bind_isSome h
  have hcreate : (createChunkobj rqst offset addr q true st).isSome := by rw [hcreate]; rfl
  obtain ⟨_, _, hst, hcreate⟩ := run_bind_isSome hcreate
  cases hst
  obtain ⟨file, _, hfile, hcreate⟩ := run_bind_isSome hcreate
  obtain ⟨_, -, hws⟩ := Option.map_eq_some_iff.mp hfile
  cases hws
  obtain ⟨_, _, hcap, hcreate⟩ := run_bind_isSome hcreate
  obtain ⟨_, _, hoff, hcreate⟩ := run_bind_isSome hcreate
  cases hoff
  obtain ⟨_, _, hupdate, -⟩ := run_bind_isSome hcreate
  rw [run_assert] at hcap
  split at hcap
  · cases hcap
    have hstore := storeBytes_of_updateChunkobj (Option.isSome_iff_exists.mpr ⟨_, hupdate⟩)
    refine ⟨_, ?_, ?_, hstore⟩ <;> rfl
  · cases hcap

/-- When a chunk can be added for a block, the block is backed. -/
theorem backed_of_addChunk (hr : RamOk st) (h : (addChunkToMmapobj rqst offset addr q st).isSome)
    (hb : BlockOf st p nd addr rqst.bytes) :
    Backed nd addr rqst.bytes := by
  obtain ⟨st₁, hram, hdata, hstore⟩ := storeBytes_of_addChunk h
  have hn := hr.node hb.node
  obtain ⟨x, hx, hsize⟩ := Option.map_eq_some_iff.mp hn.file
  have hlo := hb.lo
  have hhi := hb.hi
  have hlt := hn.startLt
  have hpos := hb.pos
  have haddr : addr = nd.startAddr + (addr - nd.startAddr) := by omega
  have hzeros : (List.replicate rqst.bytes (0 : UInt8)).length = rqst.bytes := List.length_replicate
  rw [toUint_bytes hb, haddr] at hstore
  have hmapped := hn.mapped
  rw [← hram] at hmapped
  have hle := le_size_of_storeBytes (x := x) (by rw [hram]; exact hr.maps) hmapped
    (by rw [hdata]; exact hx) (by simp; omega)
    (by simp only [hzeros, MmapobjNode.size]; omega) hstore
  rw [hsize, hzeros] at hle
  unfold Backed
  omega

end Chunk

/-! ## `check_if_chunk_exists` -/

section Exists

variable {st : Store} {rqst : Rqst} (hi : StoreInv st rqst.pid) (hid : rqst.chunkId ≠ 0)
include hi hid

theorem checkIfChunkExists_of_missing (hm : Missing st.disk rqst.pid rqst.chunkId) :
    checkIfChunkExists rqst st = some (none, []) := by
  have hget := getChunk_of_missing hi hid hm
  simp [checkIfChunkExists, run_bind_eq, hget]

theorem checkIfChunkExists_of_invalid {q : MmapPtr} {c : ChunkPtr}
    (hf : Finds st.disk rqst.pid rqst.chunkId q c) (hv : (st.disk.chunk c).valid = .INVALID) :
    checkIfChunkExists rqst st = some (none, []) := by
  have hget := getChunk_of_finds hi hid hf
  simp [checkIfChunkExists, run_bind_eq, hget, hv]

/-- A valid chunk that is found gets the id of the name it was found under. -/
theorem checkIfChunkExists_of_valid {q : MmapPtr} {c : ChunkPtr}
    (hf : Finds st.disk rqst.pid rqst.chunkId q c) (hv : (st.disk.chunk c).valid = .VALID) :
    checkIfChunkExists rqst st =
      some (some c, [.chunk c fun r => { r with chunkid := genIdFromStr rqst.varName }]) := by
  have hget := getChunk_of_finds hi hid hf
  have hlen := hi.length_ne hf.indexed
  simp [checkIfChunkExists, run_bind_eq, hget, hv, hlen]

end Exists

/-! ## `nv_record_chunk` -/

/-- The last write of `nv_record_chunk`. -/
def chunkmapWrite (addr : ℕ) (c : ChunkPtr) : Write :=
  .ram fun r => { r with chunkmap := update r.chunkmap addr (some c) }

section Record

variable {st : Store} {rqst : Rqst} {addr : ℕ} {nd : MmapobjNode} {q : MmapPtr}

/-- The steps of `nv_record_chunk` up to the region of the block, whatever follows. -/
theorem run_recordChunk_prologue {α : Type} {rest : ℕ → Option ChunkPtr → MmapobjNode → NvM α}
    {old : Option ChunkPtr} {ws₀ : List Write}
    (hinit : st.ram.gInitialized = true) (hreg : Registered st rqst.pid)
    (hold : checkIfChunkExists rqst st = some (old, ws₀))
    (hloc : (applyAll st ws₀).locateMmapobjNode addr = some nd)
    (hmap : nd.mapId ≠ 0) (hstart : nd.startAddr ≠ 0) :
    (do
      let st ← state
      assert (st.ram.gInitialized = true)
      let proc ← findOrCreateProcess rqst.pid
      let oldchunk ← checkIfChunkExists rqst
      let st ← state
      let node ← lift (st.locateMmapobjNode addr)
      assert (node.mapId ≠ 0)
      assert (node.startAddr ≠ 0)
      rest proc oldchunk node : NvM α) st =
      (rest rqst.pid old nd (applyAll st ws₀)).map fun r => (r.1, ws₀ ++ r.2) := by
  have hproc : findOrCreateProcess rqst.pid st = some (rqst.pid, []) := by
    have hreg' : st.findProcess rqst.pid = some rqst.pid := hreg
    simp [findOrCreateProcess, run_bind_eq, hreg']
  have hnode : ∀ s : Store, (lift (some nd) : NvM MmapobjNode) s = some (nd, []) := fun _ => rfl
  rw [run_bind_some (run_state st)]
  simp only [applyAll_nil]
  rw [run_bind_some (run_assert_pos hinit st)]
  simp only [applyAll_nil]
  rw [run_bind_some hproc]
  simp only [applyAll_nil]
  rw [run_bind_some hold, run_bind_some (run_state _)]
  simp only [applyAll_nil, hloc]
  rw [run_bind_some (hnode _)]
  simp only [applyAll_nil]
  rw [run_bind_some (run_assert_pos hmap _)]
  simp only [applyAll_nil]
  rw [run_bind_some (run_assert_pos hstart _)]
  simp [comp_def]

/-- The steps of `nv_record_chunk` up to the new record. -/
theorem nvRecordChunk_run_eq {old : Option ChunkPtr} {ws₀ ws : List Write}
    (hinit : st.ram.gInitialized = true) (hreg : Registered st rqst.pid)
    (hold : checkIfChunkExists rqst st = some (old, ws₀))
    (hloc : (applyAll st ws₀).locateMmapobjNode addr = some nd)
    (hmap : nd.mapId ≠ 0) (hstart : nd.startAddr ≠ 0)
    (hfind : findOrAddMmapobj rqst.pid rqst.pid nd true (applyAll st ws₀) = some (q, ws))
    (hid : genIdFromStr rqst.varName ≠ 0) :
    nvRecordChunk rqst addr st =
      (addChunkToMmapobj { rqst with id := genIdFromStr rqst.varName } (addr - nd.startAddr) addr q
        (applyAll (applyAll st ws₀) ws)).bind fun a =>
      (replaceChunk (genIdFromStr rqst.varName) a.1 old
        (applyAll st (ws₀ ++ (ws ++ (a.2 ++ [countWrite q]))))).map fun r =>
          ((), ws₀ ++ (ws ++ (a.2 ++ [countWrite q])) ++ r.2 ++ [chunkmapWrite addr a.1]) := by
  unfold nvRecordChunk
  rw [run_recordChunk_prologue hinit hreg hold hloc hmap hstart, run_bind_some hfind,
    run_bind_some (run_assert_pos hid _)]
  simp only [applyAll_nil]
  cases hadd : addChunkToMmapobj { rqst with id := genIdFromStr rqst.varName } (addr - nd.startAddr)
      addr q (applyAll (applyAll st ws₀) ws) with
  | none =>
    rw [run_bind_eq, hadd]
    rfl
  | some a =>
    have hadd' : addChunkToMmapobj { rqst with id := genIdFromStr rqst.varName }
        (addr - nd.startAddr) addr q (applyAll (applyAll st ws₀) ws) = some (a.1, a.2) := hadd
    rw [run_bind_some hadd', run_bind_some (run_emit _ _), Option.bind_some]
    simp only [applyAll_append, applyAll_cons, applyAll_nil, countWrite]
    rw [run_bind_eq]
    cases replaceChunk (genIdFromStr rqst.varName) a.1 old (WriteEffect.apply
        (applyAll (applyAll (applyAll st ws₀) ws) a.2)
        (Write.mmapobj q fun m => { m with numchunks := m.numchunks + 1 })) with
    | none => rfl
    | some r => simp [chunkmapWrite]

/-- What an allocation of `rqst` at `addr` relies on. -/
structure AllocOk (st : Store) (rqst : Rqst) (nd : MmapobjNode) (addr : ℕ) : Prop where
  unnamed : rqst.id = 0
  named : genIdFromStr rqst.varName ≠ 0
  block : BlockOf st rqst.pid nd addr rqst.bytes
  backed : Backed nd addr rqst.bytes
  room : MetaRoom st rqst.pid nd
  globals : Unregistered st rqst.pid nd → GlobalsOf st rqst.pid nd

theorem AllocOk.chunkId (h : AllocOk st rqst nd addr) :
    rqst.chunkId = genIdFromStr rqst.varName := by
  simp [Rqst.chunkId, h.unnamed]

/-- The store after a new chunk is recorded in region `q`. -/
def Store.recordChunk (st : Store) (q : MmapPtr) (r : Chunkobj) (addr : ℕ) : Store :=
  (st.appendChunk q r).apply (chunkmapWrite addr (st.disk.shape.nextChunk q))

/-- `nv_record_chunk` of a name that is not live. -/
theorem nvRecordChunk_run_of_free (hi : StoreInv st rqst.pid) (hok : AllocOk st rqst nd addr)
    (hfree : checkIfChunkExists rqst st = some (none, [])) :
    ∃ q ws, RegionFound st rqst.pid nd q ws ∧ nvRecordChunk rqst addr st = some ((), ws ++
      (appendWrites q ((applyAll st ws).disk.shape.nextChunk q) (allocChunk rqst nd addr) ++
        [countWrite q]) ++ [chunkmapWrite addr ((applyAll st ws).disk.shape.nextChunk q)]) := by
  obtain ⟨q, ws, hfound⟩ :=
    findOrAddMmapobj_found hi hok.block.node hok.block.owner hok.room hok.globals
  have hn := hi.ram.node hok.block.node
  have hb : BlockOf (applyAll st ws) rqst.pid nd addr rqst.bytes :=
    { hok.block with node := by rw [hfound.ram]; exact hok.block.node }
  have hadd := addChunkToMmapobj_alloc hfound.ready hb rfl hok.backed (bytes_ne_nil_of_id hok.named)
  have hrun := nvRecordChunk_run_eq hi.initialized hi.registered hfree
    (locateMmapobjNode_of_block hi.ram hok.block) hn.idPos hn.startPos hfound.run hok.named
  refine ⟨q, ws, hfound, hrun.trans ?_⟩
  rw [applyAll_nil, hadd, Option.bind_some]
  simp [replaceChunk]

theorem nvRecordChunk_exec_of_free (hi : StoreInv st rqst.pid) (hok : AllocOk st rqst nd addr)
    (hfree : checkIfChunkExists rqst st = some (none, [])) :
    ∃ q ws, RegionFound st rqst.pid nd q ws ∧ (nvRecordChunk rqst addr).exec st =
      some ((), (applyAll st ws).recordChunk q (allocChunk rqst nd addr) addr) := by
  obtain ⟨q, ws, hfound, hrun⟩ := nvRecordChunk_run_of_free hi hok hfree
  refine ⟨q, ws, hfound, (exec_eq_some hrun).trans ?_⟩
  rw [applyAll_append, applyAll_append, applyAll_appendWrites]
  rfl

/-- A change of the chunk map keeps the invariant. -/
theorem storeInv_chunkmapWrite {p : ℕ} (hi : StoreInv st p) (a : ℕ) (c : ChunkPtr) :
    StoreInv (st.apply (chunkmapWrite a c)) p := by
  have hframe : SameFrame st (st.apply (chunkmapWrite a c)) :=
    SameFrame.ram_apply (SameFrame.refl st) fun _ => rfl
  exact hi.of_sameFrame hframe (fun _ hc => hc) (fun _ hv => .inl hv)

theorem storeInv_recordChunk {ws : List Write} (hok : AllocOk st rqst nd addr)
    (hfound : RegionFound st rqst.pid nd q ws) :
    StoreInv ((applyAll st ws).recordChunk q (allocChunk rqst nd addr) addr) rqst.pid := by
  have hb : BlockOf (applyAll st ws) rqst.pid nd addr rqst.bytes :=
    { hok.block with node := by rw [hfound.ram]; exact hok.block.node }
  have hfits := chunkFits_alloc hfound.ready hb rfl hok.backed
  exact storeInv_chunkmapWrite (storeInv_appendChunk hfound.ready.inv hfits) _ _

end Record
