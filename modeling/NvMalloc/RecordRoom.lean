/-
# The room for metadata records

`create_mmapobj` and `create_chunkobj` write a record at the offset where the last one ended, and
advance the offset.  Nothing compares it with the size of the mapping.  In the model an access
outside a mapping has no meaning, so there both functions are bounded; here they run without the
bound, as the code has them.  The records of an allocation lie in their mappings exactly when
there is room for them, and a region of a megabyte holds more objects than its metadata mapping
holds records.
-/
import NvMalloc.Keeps
import NvMalloc.StepEffect

open WriteM Option

/-! ## The records of an allocation -/

/-- `findOrAddMmapobj` without the bound, with the record that was made, if any. -/
def findOrAddRecord (proc pid : ℕ) (node : MmapobjNode) :
    NvM (MmapPtr × Option MmapPtr) := do
  match ← findMmapobj node.mapId proc with
  | some q =>
    let st ← state
    assert ((st.disk.mmapobj q).length ≠ 0)
    return (q, none)
  | none =>
    let st ← state
    let q ← addMmapobjToProc proc pid node.mapId (st.ram.procVmas node.mapId) node.startAddr false
    return (q, some q)

/-- `nv_record_chunk` up to the creation of the records, without the bounds, with the places of
the region record, if there is a new one, and of the chunk record. -/
def createRecords (rqst : Rqst) (addr : ℕ) : NvM (Option MmapPtr × ChunkPtr) := do
  let st ← state
  assert (st.ram.gInitialized = true)
  let proc ← findOrCreateProcess rqst.pid
  let _ ← checkIfChunkExists rqst
  let st ← state
  let node ← lift (st.locateMmapobjNode addr)
  assert (node.mapId ≠ 0)
  assert (node.startAddr ≠ 0)
  let found ← findOrAddRecord proc rqst.pid node
  let id := genIdFromStr rqst.varName
  assert (id ≠ 0)
  let c ← createChunkobj { rqst with id := id } (addr - node.startAddr) addr found.1 false
  return (found.2, c)

/-- The records that the allocation creates lie in their mappings. -/
def RecordsInside (p : ℕ) (st : Store) (n : ObjName) (bytes addr : ℕ) : Prop :=
  ∀ created st', (createRecords (allocRqst p n bytes) addr).exec st = some (created, st') →
    (∀ q ∈ created.1, q.off + sizeofMmapobj ≤ procMetadatSz) ∧
      created.2.off + sizeofChunkobj ≤ mmapMetadataSz

/-! ## With and without the bound -/

section Bounded

variable {st st' : Store} {proc pid v bytes dataAddr offset nvPtr : ℕ} {q : MmapPtr} {c : ChunkPtr}
  {rqst : Rqst} {nd : MmapobjNode}

/-- In a mapping an offset fits in its 32 bits. -/
theorem recordEnd_eq (bounded : Bool) {n : ℕ} (h : n ≤ mmapMetadataSz) :
    recordEnd bounded n = n := by
  cases bounded with
  | true => rfl
  | false => exact toUint_of_lt (h.trans_lt (by decide))

/-- Where `create_mmapobj` ends within bounds, it does the same without them. -/
theorem createMmapobj_unbounded
    (h : (createMmapobj proc pid v bytes dataAddr).exec st = some (q, st')) :
    (createMmapobj proc pid v bytes dataAddr false).exec st = some (q, st') ∧
      q.off + sizeofMmapobj ≤ procMetadatSz := by
  simp only [createMmapobj, exec_bind, exec_state, exec_lift, exec_assert, exec_emit, exec_pure,
    bind_some, bind_eq_some_iff, map_eq_some_iff, ite_none_right_eq_some, some.injEq] at h ⊢
  obtain ⟨_, ⟨start, hstart, rfl⟩, _, ⟨hd, hh, rfl⟩, _, ⟨hroom, rfl⟩, r, hrest, heq⟩ := h
  cases heq
  have hend := recordEnd_eq false ((hroom trivial).trans (by decide))
  refine ⟨⟨_, ⟨start, hstart, rfl⟩, _, ⟨hd, hh, rfl⟩, _, ⟨by simp, rfl⟩, r, ?_, rfl⟩, hroom trivial⟩
  simpa [WriteEffect.apply, Store.apply, Disk.apply, Ram.apply, hh, hend] using hrest

/-- So does `create_chunkobj`. -/
theorem createChunkobj_unbounded
    (h : (createChunkobj rqst offset nvPtr q).exec st = some (c, st')) :
    (createChunkobj rqst offset nvPtr q false).exec st = some (c, st') ∧
      c.off + sizeofChunkobj ≤ mmapMetadataSz := by
  simp only [createChunkobj, exec_bind, exec_state, exec_lift, exec_assert, exec_emit, exec_pure,
    bind_some, bind_eq_some_iff, map_eq_some_iff, ite_none_right_eq_some, some.injEq] at h ⊢
  obtain ⟨_, ⟨file, hfile, rfl⟩, _, ⟨hroom, rfl⟩, r, hrest, heq⟩ := h
  cases heq
  have hend := recordEnd_eq false (hroom trivial)
  refine ⟨⟨_, ⟨file, hfile, rfl⟩, _, ⟨by simp, rfl⟩, r, ?_, rfl⟩, hroom trivial⟩
  simpa [WriteEffect.apply, Store.apply, Disk.apply, Ram.apply, hend] using hrest

/-- And the search for the region of an allocation. -/
theorem findOrAddRecord_of_bounded (h : (findOrAddMmapobj proc pid nd).exec st = some (q, st')) :
    ∃ new, (findOrAddRecord proc pid nd).exec st = some ((q, new), st') ∧
      ∀ q' ∈ new, q'.off + sizeofMmapobj ≤ procMetadatSz := by
  unfold findOrAddMmapobj at h
  unfold findOrAddRecord
  rw [exec_bind] at h ⊢
  obtain ⟨⟨found, st₁⟩, hfind, h⟩ := bind_eq_some_iff.mp h
  rw [hfind, bind_some]
  cases found with
  | some q₀ =>
    simp only [exec_bind, exec_state, exec_assert, exec_pure, bind_some,
      bind_eq_some_iff, ite_none_right_eq_some] at h ⊢
    obtain ⟨_, hlen, heq⟩ := h
    cases heq
    exact ⟨none, ⟨_, hlen, rfl⟩, by simp⟩
  | none =>
    simp only [addMmapobjToProc, exec_bind, exec_state, exec_emit, exec_pure, bind_some,
      bind_eq_some_iff] at h ⊢
    obtain ⟨⟨q₁, st₂⟩, hcreate, r, hadd, heq⟩ := h
    cases heq
    obtain ⟨hsame, hin⟩ := createMmapobj_unbounded hcreate
    refine ⟨some _, ⟨_, ⟨_, hsame, r, hadd, rfl⟩, rfl⟩, ?_⟩
    rintro _ ⟨⟩
    exact hin

/-- Where the model's `nv_record_chunk` ends, the code does the same, its records lie in their
mappings, and the chunk record is the one of the block. -/
theorem createRecords_of_nvRecordChunk {addr : ℕ} {u : Unit}
    (h : (nvRecordChunk rqst addr).exec st = some (u, st')) :
    ∃ created st₁, (createRecords rqst addr).exec st = some (created, st₁) ∧
      (∀ q ∈ created.1, q.off + sizeofMmapobj ≤ procMetadatSz) ∧
      created.2.off + sizeofChunkobj ≤ mmapMetadataSz ∧
      st'.ram.chunkmap addr = some created.2 := by
  simp only [nvRecordChunk, addChunkToMmapobj, createRecords, exec_bind, exec_state, exec_assert,
    exec_lift, exec_emit, exec_pure, bind_some, bind_eq_some_iff,
    map_eq_some_iff, ite_none_right_eq_some] at h ⊢
  obtain ⟨_, hinit, proc, hproc, old, hold, nd, hnd, _, hid, _, hstart, ⟨q, st₁⟩, hfind, _, hname,
    x, ⟨⟨c, st₂⟩, hcreate, r, hadd, hx⟩, y, hreplace, heq⟩ := h
  obtain ⟨new, hfind', hnew⟩ := findOrAddRecord_of_bounded hfind
  obtain ⟨hcreate', hin⟩ := createChunkobj_unbounded hcreate
  cases hx
  cases heq
  refine ⟨(new, c), st₂, ⟨_, hinit, proc, hproc, old, hold, nd, hnd, _, hid, _, hstart, _, hfind',
    _, hname, _, hcreate', rfl⟩, hnew, hin, ?_⟩
  simp [WriteEffect.apply, Store.apply, Ram.apply]

end Bounded

/-! ## One allocation -/

section Create

variable {p : ℕ} {st : Store} {nd : MmapobjNode} {q : MmapPtr} {rqst : Rqst} {addr : ℕ}

/-- The region is registered, and its record stays where it is, or gets a record at the end of
the header file, which has no chunks yet. -/
theorem findOrAddRecord_run (hi : StoreInv st p)
    (hnd : st.ram.mapTree.find nd.startAddr = some nd) (howner : nd.procId = p)
    (hglob : Unregistered st p nd → GlobalsOf st p nd) :
    ∃ q new ws, findOrAddRecord p p nd st = some ((q, new), ws) ∧
      (applyAll st ws).ram = st.ram ∧ (applyAll st ws).disk.data = st.disk.data ∧
      ((applyAll st ws).disk.mmapobj q).strtAddr = some (metaOf p nd.mapId) ∧
      ((applyAll st ws).disk.mmapobj q).vmaId = nd.mapId ∧
      (new = none ∧ IsRegion st.disk.shape p q ∧ (st.disk.mmapobj q).vmaId = nd.mapId ∧
          ((applyAll st ws).disk.mmapobj q).metaOffset = (st.disk.mmapobj q).metaOffset ∨
        Unregistered st p nd ∧ ∃ h, st.disk.proc p = some h ∧ new = some ⟨p, h.metaOffset⟩ ∧
          ((applyAll st ws).disk.mmapobj q).metaOffset = 0) := by
  obtain ⟨r, hrun, hr⟩ := findMmapobj_run hi.loaded nd.mapId
  cases r with
  | some q =>
    obtain ⟨hq, hv⟩ := (hr q).mp rfl
    have hn := hi.ram.node hnd
    have hlen : (st.disk.mmapobj q).length ≠ 0 := by
      have hreg := hn.region (howner ▸ hq) hv
      have hlt := hn.startLt
      rw [hreg.2.1, MmapobjNode.size]
      omega
    refine ⟨q, none, [], ?_, rfl, rfl, ?_, hv, .inl ⟨rfl, hq, hv, rfl⟩⟩
    · simp [findOrAddRecord, run_bind_eq, hrun, hlen]
    · rw [← hv]
      exact hi.loaded.strtAddr hq
  | none =>
    have hfresh : Unregistered st p nd := by
      intro q hq hv
      have := (hr q).mpr ⟨hq, hv⟩
      cases this
    obtain ⟨hstart, hsize⟩ := hglob hfresh
    obtain ⟨h, t, hh, hinit, htree, -⟩ := hi.loaded.header
    have hblank := blank_slot hi.shape hh
    rw [← slot_eq hi.shape hh] at hblank
    let ws : List Write :=
      .proc p (fun h => { h with metaOffset := toUint (h.metaOffset + sizeofMmapobj) }) ::
        (addRegionWrites p nd.mapId nd.size nd.startAddr st.ram.run ⟨p, h.metaOffset⟩).tail
    have hadd : addMmapobjToProc p p nd.mapId nd.size nd.startAddr false st =
        some (⟨p, h.metaOffset⟩, ws) := by
      simp [addMmapobjToProc, createMmapobj, recordEnd, addMmapobj, initChunkTree, run_bind_eq,
        hstart, hh, hinit, htree, WriteEffect.apply, Store.apply, Disk.apply, Ram.apply,
        TreeRef.deref, addRegionWrites, metaOf, ws]
    refine ⟨⟨p, h.metaOffset⟩, some ⟨p, h.metaOffset⟩, ws, ?_, ?_, ?_, ?_, ?_,
      .inr ⟨hfresh, h, hh, rfl, ?_⟩⟩
    · simp [findOrAddRecord, run_bind_eq, hrun, hsize, hadd]
    all_goals simp [ws, addRegionWrites, WriteEffect.apply, Store.apply, Disk.apply, Ram.apply]
    exact hblank.2

/-- The block can be cleared whatever records are written. -/
theorem storeBytes_of_block {bytes : ℕ} (hr : RamOk st) (hb : BlockOf st p nd addr bytes)
    (hback : Backed nd addr bytes) {st' : Store} (hram : st'.ram = st.ram)
    (hdata : st'.disk.data = st.disk.data) :
    ∃ bw, st'.storeBytes addr (List.replicate bytes 0) = some bw := by
  have hn := hr.node hb.node
  obtain ⟨x, hx, hsize⟩ := map_eq_some_iff.mp hn.file
  have hlo := hb.lo
  have hle := toUint_le nd.size
  have hmapped := hn.mapped
  rw [← hram] at hmapped
  unfold Backed at hback
  have hstore : st'.storeBytes (nd.startAddr + (addr - nd.startAddr))
    (List.replicate bytes 0) = _ :=
    storeBytes_of_mem (x := x) (by rw [hram]; exact hr.maps) hmapped (by rw [hdata]; exact hx)
      (by simp; omega) (by simp; omega)
  rw [Nat.add_sub_cancel' hlo] at hstore
  exact ⟨_, hstore⟩

/-- The chunk record goes to the offset of the region. -/
theorem createChunkobj_run_unbounded {offset nvPtr : ℕ} {file : MetaFile}
    (hname : rqst.varName.bytes ≠ []) (hstrt : (st.disk.mmapobj q).strtAddr = some file)
    (hstore : ∀ {st' : Store}, st'.ram = st.ram → st'.disk.data = st.disk.data →
      ∃ bw, st'.storeBytes nvPtr (List.replicate (toUint rqst.bytes) 0) = some bw) :
    ∃ ws, createChunkobj rqst offset nvPtr q false st =
      some (⟨file, (st.disk.mmapobj q).metaOffset⟩, ws) := by
  let st₁ : Store := WriteEffect.apply st (Write.mmapobj q fun m =>
    { m with metaOffset := recordEnd false (m.metaOffset + sizeofChunkobj) })
  have hram : st₁.ram = st.ram := rfl
  have hdata : st₁.disk.data = st.disk.data := rfl
  obtain ⟨bw, hbw⟩ := hstore hram hdata
  have hfile : (lift (some file) : NvM MetaFile) st = some (file, []) := rfl
  unfold createChunkobj
  rw [run_bind_some (run_state st)]
  simp only [applyAll_nil, hstrt]
  rw [run_bind_some hfile, run_bind_some (run_assert_pos (by simp) _), run_bind_some (run_emit _ _)]
  simp only [applyAll_nil, applyAll_cons]
  rw [run_bind_some (updateChunkobj_run hname hbw)]
  exact ⟨_, rfl⟩

/-- The steps of the allocation up to the new records. -/
theorem createRecords_run_eq {old : Option ChunkPtr} {ws₀ : List Write}
    (hinit : st.ram.gInitialized = true) (hreg : Registered st rqst.pid)
    (hold : checkIfChunkExists rqst st = some (old, ws₀))
    (hloc : (applyAll st ws₀).locateMmapobjNode addr = some nd)
    (hmap : nd.mapId ≠ 0) (hstart : nd.startAddr ≠ 0) {new : Option MmapPtr} {c : ChunkPtr}
    {ws ws' : List Write}
    (hfind : findOrAddRecord rqst.pid rqst.pid nd (applyAll st ws₀) = some ((q, new), ws))
    (hid : genIdFromStr rqst.varName ≠ 0)
    (hcreate : createChunkobj { rqst with id := genIdFromStr rqst.varName }
      (addr - nd.startAddr) addr q false (applyAll (applyAll st ws₀) ws) = some (c, ws')) :
    ∃ us, createRecords rqst addr st = some ((new, c), us) := by
  unfold createRecords
  rw [run_recordChunk_prologue hinit hreg hold hloc hmap hstart, run_bind_some hfind,
    run_bind_some (run_assert_pos hid _)]
  simp only [applyAll_nil]
  rw [run_bind_some hcreate]
  exact ⟨_, rfl⟩

end Create

section Inside

variable {p : ℕ} {st : Store} {nd : MmapobjNode} {n : ObjName} {bytes addr : ℕ}

/-- The records of an allocation are created: the chunk record at the end of those of its region
and, if the region has no record yet, that at the end of the header file. -/
theorem createRecords_exec (hr : RunInv st p) (hid : genIdFromStr n ≠ 0)
    (hb : BlockOf st p nd addr bytes) (hback : Backed nd addr bytes) :
    ∃ created st', (createRecords (allocRqst p n bytes) addr).exec st = some (created, st') ∧
      (created.1 = none ∧ (∃ q, IsRegion st.disk.shape p q ∧ (st.disk.mmapobj q).vmaId = nd.mapId ∧
          created.2.off = (st.disk.mmapobj q).metaOffset) ∨
        Unregistered st p nd ∧ ∃ h, st.disk.proc p = some h ∧ created.1 = some ⟨p, h.metaOffset⟩ ∧
          created.2.off = 0) := by
  have hi : StoreInv st (allocRqst p n bytes).pid := hr.inv
  obtain ⟨old, ws₀, c₀, k, hexists, hst₀⟩ := checkIfChunkExists_retag hi hid
  have hi₀ : StoreInv (st.retag c₀ k) p := storeInv_retag hr.inv c₀ k
  have hb₀ : BlockOf (st.retag c₀ k) p nd addr bytes :=
    ⟨hb.node, hb.owner, hb.lo, hb.hi, hb.pos, hb.small⟩
  have hn := hr.inv.ram.node hb.node
  obtain ⟨q, new, ws, hfind, hram, hdata, hstrt, -, hplace⟩ :=
    findOrAddRecord_run hi₀ hb₀.node hb₀.owner fun _ =>
      ⟨(hr.solo.globals hb.node).start, (hr.solo.globals hb.node).size⟩
  have hstore : ∀ {st' : Store}, st'.ram = (applyAll (st.retag c₀ k) ws).ram →
      st'.disk.data = (applyAll (st.retag c₀ k) ws).disk.data →
      ∃ bw, st'.storeBytes addr (List.replicate (toUint bytes) 0) = some bw := by
    intro st' hram' hdata'
    rw [toUint_of_lt hb.small]
    exact storeBytes_of_block hi₀.ram hb₀ hback (hram'.trans hram) (hdata'.trans hdata)
  obtain ⟨ws', hcreate⟩ : ∃ ws', createChunkobj
      { allocRqst p n bytes with id := genIdFromStr n } (addr - nd.startAddr) addr q false
      (applyAll (st.retag c₀ k) ws) = some (_, ws') :=
    createChunkobj_run_unbounded (bytes_ne_nil_of_id hid) hstrt hstore
  rw [← hst₀] at hfind hcreate
  obtain ⟨us, hrun⟩ := createRecords_run_eq hi.initialized hi.registered hexists
    (by rw [hst₀]; exact locateMmapobjNode_of_block hi₀.ram hb₀) hn.idPos hn.startPos hfind hid
    hcreate
  refine ⟨_, _, exec_eq_some hrun, ?_⟩
  rw [hst₀]
  rcases hplace with ⟨hnew, hq, hv, hoff⟩ | ⟨hun, h, hh, hnew, hoff⟩
  · exact .inl ⟨hnew, q, hq, hv, hoff⟩
  · exact .inr ⟨hun, h, hh, hnew, hoff⟩

/-- The records lie in their mappings exactly when there is room for them. -/
theorem recordsInside_iff (hr : RunInv st p) (hid : genIdFromStr n ≠ 0)
    (hb : BlockOf st p nd addr bytes) (hback : Backed nd addr bytes) :
    RecordsInside p st n bytes addr ↔ MetaRoom st p nd := by
  obtain ⟨created, st', hexec, hplace⟩ := createRecords_exec hr hid hb hback
  have hinside : RecordsInside p st n bytes addr ↔
      (∀ q ∈ created.1, q.off + sizeofMmapobj ≤ procMetadatSz) ∧
        created.2.off + sizeofChunkobj ≤ mmapMetadataSz := by
    refine ⟨fun h => h _ _ hexec, ?_⟩
    intro h created' st'' hexec'
    rw [hexec] at hexec'
    cases hexec'
    exact h
  rw [hinside]
  rcases hplace with ⟨hnew, q, hq, hv, hoff⟩ | ⟨hun, h, hh, hnew, hoff⟩
  · rw [hnew, hoff]
    constructor
    · rintro ⟨-, hroom⟩
      refine ⟨fun hun => absurd hv (hun hq), ?_⟩
      intro q' hq' hv'
      obtain rfl : q = q' := hr.inv.shape.vmaInj hq hq' (hv.trans hv'.symm)
      exact hroom
    · intro hroom
      exact ⟨fun _ hcon => absurd hcon (by simp), hroom.region hq hv⟩
  · rw [hnew, hoff]
    constructor
    · rintro ⟨hroom, -⟩
      refine ⟨fun _ h' hh' => ?_, fun hq hv => absurd hv (hun hq)⟩
      rw [hh] at hh'
      cases hh'
      exact hroom _ rfl
    · intro hroom
      refine ⟨?_, by decide⟩
      rintro q ⟨⟩
      exact hroom.header hun hh

end Inside

/-! ## Runs -/

/-- **Where metadata records go.**  After every run in which there was room for the records so far,
the records of the next allocation lie in their mappings exactly when there is room for them too:
the region has fewer than 36408 chunk records or, if it is new, the process has fewer than 15603
regions. -/
theorem recordsInside_iff_of_run {p : ℕ} (hp : p ≠ 0) (place : DataFile → ℕ) (ops : List Op)
    (hrun : Along (step p) (Allowed p Set.univ) (.restart place :: ops) {}) {rs : List Ret}
    {st : Store} (hst : runSteps (step p) (.restart place :: ops) {} = some (rs, st)) {n : ObjName}
    (hid : genIdFromStr n ≠ 0) {bytes addr : ℕ} {nd : MmapobjNode}
    (hb : BlockOf st p nd addr bytes) (hback : Backed nd addr bytes) :
    RecordsInside p st n bytes addr ↔ MetaRoom st p nd :=
  recordsInside_iff (runInv_of_run hp hrun hst) hid hb hback

section Full

variable {p : ℕ} {st st' : Store} {nd : MmapobjNode} {q : MmapPtr} {n : ObjName} {bytes addr : ℕ}

/-- An allocation in a registered region finds its record. -/
theorem RegionFound.registered {q' : MmapPtr} {ws : List Write} (h : RegionFound st p nd q' ws)
    (hs : ShapeOk st.disk.shape) (hq : IsRegion st.disk.shape p q)
    (hv : (st.disk.mmapobj q).vmaId = nd.mapId) : ws = [] ∧ q' = q := by
  have hws : ws = [] := by
    rcases h.writes with hws | ⟨_, -, hun, -⟩
    · exact hws
    · exact absurd hv (hun hq)
  subst hws
  exact ⟨rfl, hs.vmaInj h.ready.region hq (h.ready.vmaId.trans hv.symm)⟩

/-- Every allocation in a registered region takes the place of one more record. -/
theorem StepEffect.metaOffset_eq {r : Ret} (h : StepEffect p st (.alloc n bytes addr) r st')
    (hi : StoreInv st p) (hnd : st.locateMmapobjNode addr = some nd)
    (hq : IsRegion st.disk.shape p q) (hv : (st.disk.mmapobj q).vmaId = nd.mapId) :
    IsRegion st'.disk.shape p q ∧ (st'.disk.mmapobj q).vmaId = nd.mapId ∧
      (st'.disk.mmapobj q).metaOffset = (st.disk.mmapobj q).metaOffset + sizeofChunkobj ∧
      st'.ram.frame = st.ram.frame := by
  cases h with
  | @create _ _ _ nd' q' ws hok hfree hfound =>
    obtain rfl : nd' = nd :=
      some.inj ((locateMmapobjNode_of_block hi.ram hok.block).symm.trans hnd)
    obtain ⟨rfl, rfl⟩ := hfound.registered hi.shape hq hv
    have hrec : ((applyAll st []).recordChunk q' (allocChunk (allocRqst p n bytes) nd' addr)
        addr).disk.mmapobj q' = _ := Function.update_self ..
    refine ⟨isRegion_appendChunk.mpr hq, ?_, ?_, rfl⟩
    · rw [hrec]
      exact hv
    · rw [hrec]
      rfl
  | @replace _ _ _ nd' st₂ _ q₀ q' qv old c v ws hok hf hvalid hre =>
    obtain rfl : nd' = nd :=
      some.inj ((locateMmapobjNode_of_block hi.ram hok.block).symm.trans hnd)
    have hi₀ := storeInv_retag hi old (genIdFromStr n)
    obtain ⟨rfl, rfl⟩ := hre.found.registered hi₀.shape hq hv
    have hframe := hre.effect.frame
    have hrec : st₂.disk.mmapobj q' = (st.disk.mmapobj q').addChunk (genIdFromStr n)
        ((st.retag old (genIdFromStr n)).disk.shape.nextChunk q') := by
      rw [hre.append]
      exact Function.update_self ..
    refine ⟨?_, ?_, ?_, hre.ram⟩
    · rw [hframe.shape_eq, hre.append]
      exact isRegion_appendChunk.mpr hq
    · rw [hframe.vmaId_eq, hrec]
      exact hv
    · have hoff : (st'.disk.mmapobj q').metaOffset = (st₂.disk.mmapobj q').metaOffset :=
        (congrArg Mmapobj.metaOffset (hframe.region q') :)
      rw [hoff, hrec]
      rfl

end Full

/-- A region of a megabyte, and blocks of 16 bytes from its start, all allocated under one name. -/
def fullRun (k : ℕ) : List Op :=
  [.restart fun _ => 0, .mmap 1048576 4096] ++
    (List.range k).map fun i => .alloc nameA 16 (4096 + 16 * i)

/-- The node of the region. -/
def fullNode : MmapobjNode := ⟨4096, 4096 + 1048576, 1, 1⟩

/-- The region has `k` chunk records. -/
structure HasRecords (st : Store) (k : ℕ) : Prop where
  inv : RunInv st 1
  node : st.ram.mapTree.find 4096 = some fullNode
  region : IsRegion st.disk.shape 1 (mmapobjSlot 1 0)
  vmaId : (st.disk.mmapobj (mmapobjSlot 1 0)).vmaId = 1
  metaOffset : (st.disk.mmapobj (mmapobjSlot 1 0)).metaOffset = k * sizeofChunkobj

theorem fullRun_succ (k : ℕ) :
    fullRun (k + 1) = fullRun k ++ [.alloc nameA 16 (4096 + 16 * k)] := by
  simp [fullRun, List.range_succ]

theorem allowed_fullRun : Along (step 1) (Allowed 1 Set.univ) (fullRun 1) {} := by
  decide +kernel

/-- The next block. -/
theorem HasRecords.block {st : Store} {k : ℕ} (h : HasRecords st k) (hk : k ≤ 36408) :
    BlockOf st 1 fullNode (4096 + 16 * k) 16 ∧ Backed fullNode (4096 + 16 * k) 16 := by
  refine ⟨⟨h.node, rfl, ?_, ?_, by decide, by decide⟩, ?_⟩
  · show 4096 ≤ _
    omega
  · show _ ≤ 4096 + 1048576
    omega
  · show _ ≤ 4096 + toUint 1048576
    have huint : toUint 1048576 = 1048576 := by decide
    omega

/-- There is room for it as long as there are fewer than 36408 records. -/
theorem HasRecords.metaRoom_iff {st : Store} {k : ℕ} (h : HasRecords st k) :
    MetaRoom st 1 fullNode ↔ k < 36408 := by
  constructor
  · intro hroom
    have hle := hroom.region h.region h.vmaId
    rw [h.metaOffset] at hle
    simp only [sizeofChunkobj, mmapMetadataSz] at hle
    omega
  · intro hlt
    refine ⟨fun hun => absurd h.vmaId (hun h.region), ?_⟩
    intro q hq hv
    obtain rfl := h.inv.inv.shape.vmaInj h.region hq (h.vmaId.trans hv.symm)
    rw [h.metaOffset]
    simp only [sizeofChunkobj, mmapMetadataSz]
    omega

theorem hasRecords_fullRun {k : ℕ} (hk : k + 1 ≤ 36408) :
    ∃ rs st, runSteps (step 1) (fullRun (k + 1)) {} = some (rs, st) ∧ HasRecords st (k + 1) := by
  induction k with
  | zero =>
    have hsome : (runSteps (step 1) (fullRun 1) {}).isSome = true := by decide +kernel
    obtain ⟨⟨rs, st⟩, hst⟩ := isSome_iff_exists.mp hsome
    have hfacts : (reached 1 (fullRun 1)).ram.mapTree.find 4096 = some fullNode ∧
        mmapobjSlot 1 0 ∈ (reached 1 (fullRun 1)).disk.regions 1 ∧
        ((reached 1 (fullRun 1)).disk.mmapobj (mmapobjSlot 1 0)).vmaId = 1 ∧
        ((reached 1 (fullRun 1)).disk.mmapobj (mmapobjSlot 1 0)).metaOffset =
        1 * sizeofChunkobj := by
      decide +kernel
    rw [reached_eq hst] at hfacts
    obtain ⟨hnode, hregion, hv, hoff⟩ := hfacts
    exact ⟨rs, st, hst, runInv_of_run (by decide) allowed_fullRun hst, hnode,
      isRegion_iff_mem_regions.mpr hregion, hv, hoff⟩
  | succ k ih =>
    obtain ⟨rs, st, hst, h⟩ := ih (by omega)
    obtain ⟨hb, hback⟩ := h.block (by omega)
    have hroom : MetaRoom st 1 fullNode := h.metaRoom_iff.mpr (by omega)
    obtain ⟨⟨r, st'⟩, hs⟩ :=
      isSome_iff_exists.mp
      (alloc_isSome h.inv (by decide : genIdFromStr nameA ≠ 0) hb hback hroom)
    have hallowed : Allowed 1 Set.univ st (.alloc nameA 16 (4096 + 16 * (k + 1))) :=
      ⟨trivial, fullNode, hb, hroom⟩
    have heff := step_effect h.inv hallowed hs
    have hnd := locateMmapobjNode_of_block h.inv.inv.ram hb
    obtain ⟨hq, hv, hoff, hram⟩ := heff.metaOffset_eq h.inv.inv hnd h.region h.vmaId
    refine ⟨rs ++ [r], st', ?_, heff.runInv h.inv, ?_, hq, hv, ?_⟩
    · rw [fullRun_succ, runSteps_append_eq_some]
      exact ⟨rs, st, [r], hst, runSteps_cons_eq_some.mpr ⟨r, st', [], hs, rfl, rfl⟩, rfl⟩
    · have htree : st'.ram.mapTree = st.ram.mapTree := (congrArg Ram.mapTree hram :)
      rw [htree]
      exact h.node
    · rw [hoff, h.metaOffset]
      ring

/-- The second object of the region. -/
theorem recordsInside_fullRun : ∃ rs st, runSteps (step 1) (fullRun 1) {} = some (rs, st) ∧
    RecordsInside 1 st nameB 16 4112 := by
  obtain ⟨rs, st, hst, h⟩ := hasRecords_fullRun (k := 0) (by decide)
  obtain ⟨hb, hback⟩ := h.block (by decide)
  have hiff := recordsInside_iff_of_run (by decide) _ _ allowed_fullRun hst
    (by decide : genIdFromStr nameB ≠ 0) hb hback
  exact ⟨rs, st, hst, hiff.mpr (h.metaRoom_iff.mpr (by decide))⟩

/-- The record of the 36409th object does not lie in the metadata mapping of its region. -/
theorem not_recordsInside_fullRun : ∃ rs st, runSteps (step 1) (fullRun 36408) {} = some (rs, st) ∧
    ¬ RecordsInside 1 st nameA 16 (4096 + 16 * 36408) := by
  obtain ⟨rs, st, hst, h⟩ := hasRecords_fullRun (k := 36407) (by decide)
  obtain ⟨hb, hback⟩ := h.block (by decide)
  refine ⟨rs, st, hst, ?_⟩
  rw [recordsInside_iff h.inv (by decide) hb hback, h.metaRoom_iff]
  decide
