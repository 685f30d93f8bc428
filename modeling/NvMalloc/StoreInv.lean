/-
# The invariant of the store

`StoreInv st p` collects what holds between any two operations of a run that
works for process `p`: the positions on disk are consistent, the mappings and the
address-range tree of the run are, and `p` is loaded.  Nothing in it depends on
what the objects contain, on which names they have or on which are valid.

Most operations change only contents, validity, ids and tree entries.  They keep
the frame of the store (`SameFrame`), and with it everything but the entries.
-/
import NvMalloc.Lookup

open WriteM

/-! ## The memory of the run -/

/-- The size of a region in the address-range tree. -/
def MmapobjNode.size (nd : MmapobjNode) : ℕ := nd.endAddr - nd.startAddr

/-- An entry of the address-range tree describes a mapped region, and if the
region is registered already, its record appends chunks where it scans them. -/
structure NodeOk (st : Store) (a : ℕ) (nd : MmapobjNode) : Prop where
  start : nd.startAddr = a
  startPos : a ≠ 0
  startLt : nd.startAddr < nd.endAddr
  idPos : nd.mapId ≠ 0
  mapped : ⟨nd.startAddr, nd.size, nd.procId, nd.mapId⟩ ∈ st.ram.maps
  file : st.disk.shape.fileSize ⟨nd.procId, nd.mapId⟩ = some (toUint nd.size)
  region : ∀ {q}, IsRegion st.disk.shape nd.procId q → (st.disk.mmapobj q).vmaId = nd.mapId →
    (st.disk.mmapobj q).dataAddr = nd.startAddr ∧ (st.disk.mmapobj q).length = nd.size ∧
    (st.disk.mmapobj q).chunkTreeInit = true ∧
    (st.disk.mmapobj q).metaOffset = (st.disk.mmapobj q).numchunks * sizeofChunkobj

/-- The mappings and the shared indexes of the run are consistent. -/
structure RamOk (st : Store) : Prop where
  maps : st.ram.maps.Pairwise Mapping.Disjoint
  process : ∀ {k p}, st.findProcess k = some p → p = k
  node : ∀ {a nd}, st.ram.mapTree.find a = some nd → NodeOk st a nd
  nodeInj : ∀ {a a' nd nd'}, st.ram.mapTree.find a = some nd → st.ram.mapTree.find a' = some nd' →
    nd.procId = nd'.procId → nd.mapId = nd'.mapId → nd = nd'

/-- What holds between any two operations for process `p`. -/
structure StoreInv (st : Store) (p : ℕ) : Prop where
  shape : ShapeOk st.disk.shape
  ram : RamOk st
  loaded : Loaded st p
  registered : Registered st p
  initialized : st.ram.gInitialized = true
  pidPos : p ≠ 0

section Search

variable {st : Store} {p id : ℕ} {q : MmapPtr} {c : ChunkPtr} {rqst : Rqst}

/-- `find_process` finds the process. -/
theorem StoreInv.findProcess (hi : StoreInv st p) : st.findProcess p = some p := hi.registered

/-- Every search finds something or nothing. -/
theorem finds_or_missing (hi : StoreInv st p) (id : ℕ) :
    (∃ q c, Finds st.disk p id q c) ∨ Missing st.disk p id := by
  rcases findMmapobjFromChunkid_run hi.shape hi.loaded id with ⟨hmiss, -⟩ | ⟨q, c, hf, -⟩
  · exact .inr hmiss
  · exact .inl ⟨q, c, hf⟩

/-- `find_mmapobj_from_chunkid` returns the region that is found. -/
theorem findMmapobjFromChunkid_of_finds (hi : StoreInv st p) (hf : Finds st.disk p id q c) :
    findMmapobjFromChunkid id p st = some (some q, []) := by
  rcases findMmapobjFromChunkid_run hi.shape hi.loaded id with ⟨hmiss, -⟩ | ⟨q', c', hf', hrun⟩
  · exact absurd hmiss hf.not_missing
  · rw [hrun, (hf'.unique hi.shape hf).1]

/-- And none when no region has an entry. -/
theorem findMmapobjFromChunkid_of_missing (hi : StoreInv st p) (hm : Missing st.disk p id) :
    findMmapobjFromChunkid id p st = some (none, []) := by
  rcases findMmapobjFromChunkid_run hi.shape hi.loaded id with ⟨-, hrun⟩ | ⟨q', c', hf', -⟩
  · exact hrun
  · exact absurd hm hf'.not_missing

/-- `get_chunk` when the id is found. -/
theorem getChunk_of_finds (hi : StoreInv st rqst.pid) (hid : rqst.chunkId ≠ 0)
    (hf : Finds st.disk rqst.pid rqst.chunkId q c) : getChunk rqst st = some (some c, []) := by
  obtain ⟨t, ht, hfind⟩ := hf.tree hi.loaded
  have hrun := findMmapobjFromChunkid_of_finds hi hf
  simp [getChunk, run_bind_eq, hid, hi.pidPos, hi.findProcess, hrun, Store.findChunk, ht,
    TreeRef.deref, hfind]

/-- `get_chunk` when it is not. -/
theorem getChunk_of_missing (hi : StoreInv st rqst.pid) (hid : rqst.chunkId ≠ 0)
    (hm : Missing st.disk rqst.pid rqst.chunkId) : getChunk rqst st = some (none, []) := by
  have hrun := findMmapobjFromChunkid_of_missing hi hm
  simp [getChunk, run_bind_eq, hid, hi.pidPos, hi.findProcess, hrun]

end Search

/-- A process stays loaded when its own records and the mappings stay. -/
theorem Loaded.of_agree {st st' : Store} {p : ℕ} (hl : Loaded st p)
    (hproc : ∀ {h}, st.disk.proc p = some h → ∃ h', st'.disk.proc p = some h' ∧
      h'.mmapobjInitialized = h.mmapobjInitialized ∧ h'.mmapobjTree = h.mmapobjTree)
    (hregion : ∀ q, IsRegion st'.disk.shape p q ↔ IsRegion st.disk.shape p q)
    (hmmapobj : ∀ {q}, IsRegion st.disk.shape p q → st'.disk.mmapobj q = st.disk.mmapobj q)
    (hchunk : ∀ {c}, InScan st.disk.shape p c → st'.disk.chunk c = st.disk.chunk c)
    (hrun : st'.ram.run = st.ram.run) (hmaps : st.ram.maps ⊆ st'.ram.maps) : Loaded st' p := by
  have hisChunk : ∀ {q c}, IsRegion st.disk.shape p q →
      (IsChunk st'.disk.shape q c ↔ IsChunk st.disk.shape q c) := by
    intro q c hq
    unfold IsChunk
    simp only [shape_region_vmaId, shape_region_numchunks, hmmapobj hq]
  have hindexed : ∀ {c}, Indexed st'.disk p c → Indexed st.disk p c := by
    rintro c ⟨q, k, hq, hc⟩
    rw [hregion] at hq
    rw [Disk.entry, hmmapobj hq] at hc
    exact ⟨q, k, hq, hc⟩
  constructor
  · obtain ⟨h, t, hp, hinit, htree, hfind⟩ := hl.header
    obtain ⟨h', hp', hinit', htree'⟩ := hproc hp
    refine ⟨h', t, hp', hinit'.trans hinit, by rw [htree', htree, hrun], ?_⟩
    intro v q
    rw [hfind, hregion]
    constructor
    · rintro ⟨hq, hv⟩
      exact ⟨hq, by rw [hmmapobj hq]; exact hv⟩
    · rintro ⟨hq, hv⟩
      exact ⟨hq, by rw [hmmapobj hq] at hv; exact hv⟩
  · intro q hq
    rw [hregion] at hq
    rw [hmmapobj hq]
    exact ⟨(hl.mapped hq).1, hmaps (hl.mapped hq).2⟩
  · intro q hq
    rw [hregion] at hq
    rw [hmmapobj hq]
    exact hl.strtAddr hq
  · intro q hq hinit
    rw [hregion] at hq
    rw [hmmapobj hq] at hinit ⊢
    rw [hrun]
    exact hl.chunkTree hq hinit
  · intro c hc
    obtain ⟨q, hq, hqc⟩ := hl.indexed (hindexed hc)
    exact ⟨q, (hregion q).mpr hq, (hisChunk hq).mpr hqc⟩
  · intro q c hq hqc hv
    rw [hregion] at hq
    rw [hisChunk hq] at hqc
    rw [hchunk ⟨q, hq, hqc⟩] at hv ⊢
    rw [hmmapobj hq]
    refine hl.nvPtr hq hqc ?_
    rcases hv with hv | hv
    · exact Or.inl hv
    · exact Or.inr (hindexed hv)

/-! ## Changes that keep the frame -/

/-- A region record without the entries of its tree. -/
def Mmapobj.frame (m : Mmapobj) : Mmapobj :=
  { m with chunkobjTree := m.chunkobjTree.map fun t => ⟨t.run, .empty⟩ }

/-- A chunk record without its id, name, validity and commit size. -/
def Chunkobj.frame (r : Chunkobj) : Chunkobj :=
  { offset := r.offset, length := r.length, nvPtr := r.nvPtr, pid := r.pid, vmaId := r.vmaId }

/-- The memory of the run without the two maps that only the application reads. -/
def Ram.frame (r : Ram) : Ram := { r with chunkmap := fun _ => none, objnamemap := ∅ }

/-- The stores differ at most in bytes, tree entries, and the id, name, validity
and commit size of chunks. -/
structure SameFrame (st st' : Store) : Prop where
  proc : st'.disk.proc = st.disk.proc
  region : ∀ q, (st'.disk.mmapobj q).frame = (st.disk.mmapobj q).frame
  chunk : ∀ c, (st'.disk.chunk c).frame = (st.disk.chunk c).frame
  size : ∀ f, (st'.disk.data f).map DataContent.size = (st.disk.data f).map DataContent.size
  ram : st'.ram.frame = st.ram.frame

namespace SameFrame

variable {st st' st'' : Store}

theorem refl (st : Store) : SameFrame st st :=
  ⟨rfl, fun _ => rfl, fun _ => rfl, fun _ => rfl, rfl⟩

theorem trans (h : SameFrame st st') (h' : SameFrame st' st'') : SameFrame st st'' where
  proc := h'.proc.trans h.proc
  region q := (h'.region q).trans (h.region q)
  chunk c := (h'.chunk c).trans (h.chunk c)
  size f := (h'.size f).trans (h.size f)
  ram := h'.ram.trans h.ram

/-- A write to a chunk record that keeps what is not contents. -/
theorem chunk_apply (h : SameFrame st st') {c : ChunkPtr} {f : Chunkobj → Chunkobj}
    (hf : ∀ r, (f r).frame = r.frame) : SameFrame st (st'.apply (.chunk c f)) := by
  refine h.trans ⟨rfl, fun _ => rfl, ?_, fun _ => rfl, rfl⟩
  intro c'
  by_cases hc : c' = c
  · subst hc
    simpa [Store.apply, Disk.apply] using hf _
  · simp [Store.apply, Disk.apply, hc]

/-- A write to a region record that keeps all but the entries of its tree. -/
theorem mmapobj_apply (h : SameFrame st st') {q : MmapPtr} {f : Mmapobj → Mmapobj}
    (hf : ∀ m, (f m).frame = m.frame) : SameFrame st (st'.apply (.mmapobj q f)) := by
  refine h.trans ⟨rfl, ?_, fun _ => rfl, fun _ => rfl, rfl⟩
  intro q'
  by_cases hq : q' = q
  · subst hq
    simpa [Store.apply, Disk.apply] using hf _
  · simp [Store.apply, Disk.apply, hq]

/-- A write to the memory of the run outside its frame. -/
theorem ram_apply (h : SameFrame st st') {f : Ram → Ram} (hf : ∀ r, (f r).frame = r.frame) :
    SameFrame st (st'.apply (.ram f)) :=
  h.trans ⟨rfl, fun _ => rfl, fun _ => rfl, fun _ => rfl, hf _⟩

/-- Bytes of a data file. -/
theorem blitFile (h : SameFrame st st') (f : DataFile) (o : ℕ) (bs : List UInt8) :
    SameFrame st ⟨st'.disk.blitFile f o bs, st'.ram⟩ := by
  refine h.trans ⟨rfl, fun _ => rfl, fun _ => rfl, ?_, rfl⟩
  intro f'
  by_cases hf : f' = f
  · subst hf
    cases hp : st'.disk.data f' <;> simp [Disk.blitFile, hp]
  · simp [Disk.blitFile, hf]

section Fields

variable (h : SameFrame st st')
include h

/-- The positions on disk are those before. -/
theorem shape_eq : st'.disk.shape = st.disk.shape := by
  have hr : ∀ q, (st'.disk.mmapobj q).shape = (st.disk.mmapobj q).shape :=
    fun q => (congrArg Mmapobj.shape (h.region q) :)
  have hc : ∀ c, (st'.disk.chunk c).extent = (st.disk.chunk c).extent :=
    fun c => (congrArg Chunkobj.extent (h.chunk c) :)
  show Shape.mk _ _ _ _ = _
  simp only [Disk.shape, h.proc, hr, hc, h.size]

theorem vmaId_eq (q : MmapPtr) : (st'.disk.mmapobj q).vmaId = (st.disk.mmapobj q).vmaId :=
  (congrArg Mmapobj.vmaId (h.region q) :)

theorem length_eq (q : MmapPtr) : (st'.disk.mmapobj q).length = (st.disk.mmapobj q).length :=
  (congrArg Mmapobj.length (h.region q) :)

theorem dataAddr_eq (q : MmapPtr) : (st'.disk.mmapobj q).dataAddr = (st.disk.mmapobj q).dataAddr :=
  (congrArg Mmapobj.dataAddr (h.region q) :)

theorem strtAddr_eq (q : MmapPtr) : (st'.disk.mmapobj q).strtAddr = (st.disk.mmapobj q).strtAddr :=
  (congrArg Mmapobj.strtAddr (h.region q) :)

theorem chunkTreeInit_eq (q : MmapPtr) :
    (st'.disk.mmapobj q).chunkTreeInit = (st.disk.mmapobj q).chunkTreeInit :=
  (congrArg Mmapobj.chunkTreeInit (h.region q) :)

theorem metaOffset_eq (q : MmapPtr) :
    (st'.disk.mmapobj q).metaOffset = (st.disk.mmapobj q).metaOffset :=
  (congrArg Mmapobj.metaOffset (h.region q) :)

theorem numchunks_eq (q : MmapPtr) :
    (st'.disk.mmapobj q).numchunks = (st.disk.mmapobj q).numchunks :=
  (congrArg Mmapobj.numchunks (h.region q) :)

/-- The trees are of the same runs. -/
theorem treeRun_eq (q : MmapPtr) :
    (st'.disk.mmapobj q).chunkobjTree.map TreeRef.run =
      (st.disk.mmapobj q).chunkobjTree.map TreeRef.run := by
  have := congrArg (fun m => m.chunkobjTree.map TreeRef.run) (h.region q)
  simpa [Mmapobj.frame, Function.comp_def] using this

theorem offset_eq (c : ChunkPtr) : (st'.disk.chunk c).offset = (st.disk.chunk c).offset :=
  (congrArg Chunkobj.offset (h.chunk c) :)

theorem nvPtr_eq (c : ChunkPtr) : (st'.disk.chunk c).nvPtr = (st.disk.chunk c).nvPtr :=
  (congrArg Chunkobj.nvPtr (h.chunk c) :)

theorem run_eq : st'.ram.run = st.ram.run := (congrArg Ram.run h.ram :)

theorem maps_eq : st'.ram.maps = st.ram.maps := (congrArg Ram.maps h.ram :)

theorem procTree_eq : st'.ram.procTree = st.ram.procTree := (congrArg Ram.procTree h.ram :)

theorem mapTree_eq : st'.ram.mapTree = st.ram.mapTree := (congrArg Ram.mapTree h.ram :)

theorem gInitialized_eq : st'.ram.gInitialized = st.ram.gInitialized :=
  (congrArg Ram.gInitialized h.ram :)

/-- The address-range tree still describes the regions. -/
theorem nodeOk {a : ℕ} {nd : MmapobjNode} (hn : NodeOk st a nd) : NodeOk st' a nd where
  start := hn.start
  startPos := hn.startPos
  startLt := hn.startLt
  idPos := hn.idPos
  mapped := by
    rw [h.maps_eq]
    exact hn.mapped
  file := by
    rw [h.shape_eq]
    exact hn.file
  region := by
    intro q hq hv
    rw [h.shape_eq] at hq
    rw [h.vmaId_eq] at hv
    rw [h.dataAddr_eq, h.length_eq, h.chunkTreeInit_eq, h.metaOffset_eq, h.numchunks_eq]
    exact hn.region hq hv

/-- The memory of the run stays consistent. -/
theorem ramOk (hr : RamOk st) : RamOk st' where
  maps := by
    rw [h.maps_eq]
    exact hr.maps
  process := by
    intro k p hk
    rw [Store.findProcess, h.procTree_eq] at hk
    exact hr.process hk
  node := by
    intro a nd hnd
    rw [h.mapTree_eq] at hnd
    exact h.nodeOk (hr.node hnd)
  nodeInj := by
    intro a a' nd nd' ha ha'
    rw [h.mapTree_eq] at ha ha'
    exact hr.nodeInj ha ha'

/-- Processes stay registered. -/
theorem registered {p : ℕ} (hr : Registered st p) : Registered st' p := by
  unfold Registered Store.findProcess
  rw [h.procTree_eq]
  exact hr

end Fields

/-- A process stays loaded when nothing is indexed that was not, and nothing is
valid that was not valid or indexed. -/
theorem loaded {p : ℕ} (h : SameFrame st st') (hl : Loaded st p)
    (hindex : ∀ c, Indexed st'.disk p c → Indexed st.disk p c)
    (hvalid : ∀ c, (st'.disk.chunk c).valid = .VALID →
      (st.disk.chunk c).valid = .VALID ∨ Indexed st.disk p c) : Loaded st' p where
  header := by
    obtain ⟨hd, t, hproc, hinit, htree, hfind⟩ := hl.header
    refine ⟨hd, t, by rw [h.proc]; exact hproc, hinit, by rw [h.run_eq]; exact htree, ?_⟩
    intro v q
    rw [h.shape_eq, h.vmaId_eq]
    exact hfind v q
  mapped := by
    intro q hq
    rw [h.shape_eq] at hq
    rw [h.dataAddr_eq, h.length_eq, h.vmaId_eq, h.maps_eq]
    exact hl.mapped hq
  strtAddr := by
    intro q hq
    rw [h.shape_eq] at hq
    rw [h.strtAddr_eq, h.vmaId_eq]
    exact hl.strtAddr hq
  chunkTree := by
    intro q hq hinit
    rw [h.shape_eq] at hq
    rw [h.chunkTreeInit_eq] at hinit
    obtain ⟨t, ht⟩ := hl.chunkTree hq hinit
    have hrun := h.treeRun_eq q
    rw [ht, Option.map_some] at hrun
    obtain ⟨⟨r, t'⟩, ht', hr⟩ := Option.map_eq_some_iff.mp hrun
    simp only at hr
    exact ⟨t', by rw [ht', h.run_eq, hr]⟩
  indexed := by
    intro c hc
    rw [h.shape_eq]
    exact hl.indexed (hindex c hc)
  nvPtr := by
    intro q c hq hc hv
    rw [h.shape_eq] at hq hc
    rw [h.nvPtr_eq, h.dataAddr_eq, h.offset_eq]
    refine hl.nvPtr hq hc ?_
    rcases hv with hv | hv
    · exact hvalid c hv
    · exact Or.inr (hindex c hv)

end SameFrame

/-- The invariant over a change that keeps the frame. -/
theorem StoreInv.of_sameFrame {st st' : Store} {p : ℕ} (hi : StoreInv st p) (h : SameFrame st st')
    (hindex : ∀ c, Indexed st'.disk p c → Indexed st.disk p c)
    (hvalid : ∀ c, (st'.disk.chunk c).valid = .VALID →
      (st.disk.chunk c).valid = .VALID ∨ Indexed st.disk p c) : StoreInv st' p where
  shape := by
    rw [h.shape_eq]
    exact hi.shape
  ram := h.ramOk hi.ram
  loaded := h.loaded hi.loaded hindex hvalid
  registered := h.registered hi.registered
  initialized := h.gInitialized_eq.trans hi.initialized
  pidPos := hi.pidPos
