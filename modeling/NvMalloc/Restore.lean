/-
# Restoring a process

The two loops of a restart, over the region records of a process and over the
chunk records of a region.  They are described by what they leave in the trees
and in the pointers of the records: the entries of a restored region are its valid
chunks under the ids in their records, and nothing else changes.
-/
import NvMalloc.Growth

open WriteM Function

theorem Validity.ne_INVALID {v : Validity} : v ≠ .INVALID ↔ v = .VALID := by
  cases v <;> decide

/-! ## The chunks of a region -/

/-- The last valid chunk of a scan with id `k`, which is the one that the tree ends up with. -/
def lastChunk (chunk : ChunkPtr → Chunkobj) : List ChunkPtr → ℕ → Option ChunkPtr
  | [], _ => none
  | c :: cs, k => (lastChunk chunk cs k).or
    (if (chunk c).valid = .VALID ∧ (chunk c).chunkid = k then some c else none)

section LastChunk

variable {chunk chunk' : ChunkPtr → Chunkobj} {cs : List ChunkPtr} {k : ℕ} {c : ChunkPtr}

/-- Only the ids and the validity of the records matter. -/
theorem lastChunk_congr (hvalid : ∀ c, (chunk' c).valid = (chunk c).valid)
    (hid : ∀ c, (chunk' c).chunkid = (chunk c).chunkid) (cs : List ChunkPtr) (k : ℕ) :
    lastChunk chunk' cs k = lastChunk chunk cs k := by
  induction cs with
  | nil => rfl
  | cons c cs ih => rw [lastChunk, lastChunk, ih, hvalid, hid]

theorem lastChunk_eq_some (h : lastChunk chunk cs k = some c) :
    c ∈ cs ∧ (chunk c).valid = .VALID ∧ (chunk c).chunkid = k := by
  induction cs with
  | nil => cases h
  | cons c' cs ih =>
    rcases Option.or_eq_some_iff.mp h with h | ⟨-, h⟩
    · obtain ⟨hc, hrest⟩ := ih h
      exact ⟨List.mem_cons_of_mem _ hc, hrest⟩
    · split at h
      · next hc' =>
        cases h
        exact ⟨List.mem_cons_self, hc'⟩
      · cases h

theorem lastChunk_isSome (hc : c ∈ cs) (hv : (chunk c).valid = .VALID) :
    (lastChunk chunk cs (chunk c).chunkid).isSome := by
  induction cs with
  | nil => cases hc
  | cons c' cs ih =>
    rw [lastChunk, Option.isSome_or]
    rcases List.mem_cons.mp hc with rfl | hc
    · rw [if_pos ⟨hv, rfl⟩, Option.isSome_some, Bool.or_true]
    · rw [ih hc, Bool.true_or]

end LastChunk

/-- What the chunk loop leaves behind. -/
structure ChunksRestored (st st' : Store) (q : MmapPtr) (dataAddr : ℕ) (cs : List ChunkPtr) :
    Prop where
  proc : st'.disk.proc = st.disk.proc
  data : st'.disk.data = st.disk.data
  other : ∀ {q'}, q' ≠ q → st'.disk.mmapobj q' = st.disk.mmapobj q'
  region : (st'.disk.mmapobj q).frame = (st.disk.mmapobj q).frame
  chunk : ∀ c, st'.disk.chunk c = if c ∈ cs ∧ (st.disk.chunk c).valid = .VALID then
    { st.disk.chunk c with nvPtr := dataAddr + (st.disk.chunk c).offset } else st.disk.chunk c
  entry : ∀ k, st'.disk.entry q k = (lastChunk st.disk.chunk cs k).or (st.disk.entry q k)
  ram : st'.ram.frame = st.ram.frame

theorem chunksRestored_nil (st : Store) (q : MmapPtr) (dataAddr : ℕ) :
    ChunksRestored st st q dataAddr [] where
  proc := rfl
  data := rfl
  other _ := rfl
  region := rfl
  chunk c := by simp
  entry _ := rfl
  ram := rfl

/-- The store after one valid chunk is restored. -/
def Store.restoreChunk (st : Store) (q : MmapPtr) (dataAddr : ℕ) (c : ChunkPtr) : Store :=
  applyAll (st.apply (.chunk c fun r => { r with nvPtr := dataAddr + r.offset }))
    (addChunkobjWrites q c (st.disk.chunk c))

section RestoreChunk

variable {st : Store} {q : MmapPtr} {dataAddr : ℕ} {c : ChunkPtr} {t : Rbtree ChunkPtr}

theorem chunk_restoreChunk (c' : ChunkPtr) : (st.restoreChunk q dataAddr c).disk.chunk c' =
    if c' = c then { st.disk.chunk c with nvPtr := dataAddr + (st.disk.chunk c).offset }
    else st.disk.chunk c' := by
  show update st.disk.chunk c _ c' = _
  by_cases h : c' = c
  · subst h
    rw [update_self, if_pos rfl]
  · rw [update_of_ne h, if_neg h]

theorem entry_restoreChunk (hinit : (st.disk.mmapobj q).chunkTreeInit = true)
    (htree : (st.disk.mmapobj q).chunkobjTree = some ⟨st.ram.run, t⟩) (k : ℕ) :
    (st.restoreChunk q dataAddr c).disk.entry q k =
      if k = (st.disk.chunk c).chunkid then some c else st.disk.entry q k := by
  show (st.disk.apply (.mmapobj q fun m => m.insertEntry (st.disk.chunk c).chunkid c)).entry q k = _
  rw [entry_apply_insert hinit htree]
  simp

theorem mmapobj_restoreChunk_self : (st.restoreChunk q dataAddr c).disk.mmapobj q =
    (st.disk.mmapobj q).insertEntry (st.disk.chunk c).chunkid c := update_self ..

theorem addChunkobj_exec_restoreChunk
    (htree : (st.disk.mmapobj q).chunkobjTree = some ⟨st.ram.run, t⟩)
    (hlen : (st.disk.chunk c).length ≠ 0) :
    (addChunkobj q c).exec (st.apply (.chunk c fun r => { r with nvPtr := dataAddr + r.offset })) =
      some ((), st.restoreChunk q dataAddr c) := by
  let st₁ := st.apply (.chunk c fun r => { r with nvPtr := dataAddr + r.offset })
  have hrec : st₁.disk.chunk c =
      { st.disk.chunk c with nvPtr := dataAddr + (st.disk.chunk c).offset } :=
      update_self ..
  have hrun : addChunkobj q c st₁ = some ((), addChunkobjWrites q c (st₁.disk.chunk c)) := by
    refine addChunkobj_run (t := t) ?_ ?_
    · exact htree
    · rw [hrec]
      exact hlen
  rw [hrec] at hrun
  exact exec_eq_some hrun

/-- Restoring a valid chunk and then the rest. -/
theorem ChunksRestored.cons {st' : Store} {cs : List ChunkPtr}
    (hinit : (st.disk.mmapobj q).chunkTreeInit = true)
    (htree : (st.disk.mmapobj q).chunkobjTree = some ⟨st.ram.run, t⟩)
    (hv : (st.disk.chunk c).valid = .VALID)
    (h : ChunksRestored (st.restoreChunk q dataAddr c) st' q dataAddr cs) :
    ChunksRestored st st' q dataAddr (c :: cs) := by
  have hvalid : ∀ c', ((st.restoreChunk q dataAddr c).disk.chunk c').valid =
      (st.disk.chunk c').valid := by
    intro c'
    rw [chunk_restoreChunk]
    by_cases hc : c' = c <;> simp [hc]
  have hid : ∀ c', ((st.restoreChunk q dataAddr c).disk.chunk c').chunkid =
      (st.disk.chunk c').chunkid := by
    intro c'
    rw [chunk_restoreChunk]
    by_cases hc : c' = c <;> simp [hc]
  constructor
  · exact h.proc
  · exact h.data
  · intro q' hq'
    rw [h.other hq']
    exact update_of_ne hq' ..
  · rw [h.region, mmapobj_restoreChunk_self, frame_insertEntry]
  · intro c'
    rw [h.chunk, hvalid, chunk_restoreChunk]
    by_cases hc : c' = c
    · subst hc
      simp [hv]
    · simp [hc]
  · intro k
    rw [h.entry, lastChunk_congr hvalid hid, entry_restoreChunk hinit htree, lastChunk,
      Option.or_assoc]
    by_cases hk : k = (st.disk.chunk c).chunkid
    · rw [if_pos hk, if_pos ⟨hv, hk.symm⟩, Option.some_or]
    · rw [if_neg hk, if_neg fun h => hk h.2.symm, Option.none_or]
  · exact h.ram

/-- An invalid chunk is skipped. -/
theorem ChunksRestored.skip {st' : Store} {cs : List ChunkPtr}
    (hv : (st.disk.chunk c).valid ≠ .VALID) (h : ChunksRestored st st' q dataAddr cs) :
    ChunksRestored st st' q dataAddr (c :: cs) where
  proc := h.proc
  data := h.data
  other := h.other
  region := h.region
  chunk c' := by
    rw [h.chunk]
    by_cases hc : c' = c
    · subst hc
      simp [hv]
    · simp [hc]
  entry k := by
    rw [h.entry, lastChunk, if_neg fun h => hv h.1, Option.or_none]
  ram := h.ram

end RestoreChunk

variable {q : MmapPtr} {st : Store}

/-- The chunk loop of `restore_chunk_objs` runs to its end. -/
theorem restoreChunks_exec {dataAddr : ℕ} (cs : List ChunkPtr)
    (htree : cs ≠ [] → (st.disk.mmapobj q).chunkTreeInit = true ∧
      ∃ t, (st.disk.mmapobj q).chunkobjTree = some ⟨st.ram.run, t⟩)
    (hlen : ∀ c ∈ cs, (st.disk.chunk c).valid = .VALID → (st.disk.chunk c).length ≠ 0) :
    ∃ st', (restoreChunks q dataAddr cs).exec st = some ((), st') ∧
      ChunksRestored st st' q dataAddr cs := by
  induction cs generalizing st with
  | nil => exact ⟨st, rfl, chunksRestored_nil st q dataAddr⟩
  | cons c cs ih =>
    obtain ⟨hinit, t, ht⟩ := htree (by simp)
    by_cases hv : (st.disk.chunk c).valid = .VALID
    · have hne : (st.disk.chunk c).valid ≠ .INVALID := Validity.ne_INVALID.mpr hv
      have htree' : cs ≠ [] → ((st.restoreChunk q dataAddr c).disk.mmapobj q).chunkTreeInit = true ∧
          ∃ t, ((st.restoreChunk q dataAddr c).disk.mmapobj q).chunkobjTree =
            some ⟨(st.restoreChunk q dataAddr c).ram.run, t⟩ := by
        intro _
        rw [mmapobj_restoreChunk_self]
        exact ⟨hinit, t.insert (st.disk.chunk c).chunkid c, by
          rw [Mmapobj.insertEntry, ht]
          rfl⟩
      have hlen' : ∀ c' ∈ cs, ((st.restoreChunk q dataAddr c).disk.chunk c').valid = .VALID →
          ((st.restoreChunk q dataAddr c).disk.chunk c').length ≠ 0 := by
        intro c' hc' hv'
        rw [chunk_restoreChunk] at hv' ⊢
        by_cases hcc : c' = c
        · rw [if_pos hcc]
          exact hlen c List.mem_cons_self hv
        · rw [if_neg hcc] at hv' ⊢
          exact hlen c' (List.mem_cons_of_mem _ hc') hv'
      obtain ⟨st', hexec, hres⟩ := ih htree' hlen'
      refine ⟨st', ?_, hres.cons hinit ht hv⟩
      simp only [restoreChunks, exec_bind, exec_state, Option.bind_some, if_neg hne, exec_emit]
      show ((addChunkobj q c).exec (st.apply _)).bind _ = _
      rw [addChunkobj_exec_restoreChunk ht (hlen c List.mem_cons_self hv)]
      exact hexec
    · obtain ⟨st', hexec, hres⟩ := ih (fun _ => ⟨hinit, t, ht⟩)
        (fun c' hc' => hlen c' (List.mem_cons_of_mem _ hc'))
      have hinv : (st.disk.chunk c).valid = .INVALID := by
        by_contra hne
        exact hv (Validity.ne_INVALID.mp hne)
      refine ⟨st', ?_, hres.skip hv⟩
      simp only [restoreChunks, exec_bind, exec_state, Option.bind_some, if_pos hinv]
      exact hexec

/-! ## One region -/

/-- The data file a region record names. -/
def Mmapobj.dataFile (m : Mmapobj) : DataFile := ⟨m.procId, m.vmaId⟩

/-- The chunk records that a restart of the region visits. -/
def Mmapobj.scan (m : Mmapobj) : List ChunkPtr := chunkSlots (metaOf m.procId m.vmaId) m.numchunks

/-- The mapping of the data file of a region. -/
def Mmapobj.mapping (m : Mmapobj) (place : DataFile → ℕ) : Mapping :=
  ⟨place m.dataFile, m.length, m.dataFile⟩

theorem dataOf_of_mem_scan {m : Mmapobj} {c : ChunkPtr} (h : c ∈ m.scan) :
    dataOf c.file = m.dataFile := by
  obtain ⟨j, -, rfl⟩ := mem_chunkSlots.mp h
  exact dataOf_metaOf _ _

/-- The record of region `q` in `st'` is the one in `st`, restored. -/
structure RecordRestored (st st' : Store) (place : DataFile → ℕ) (q : MmapPtr) : Prop where
  shape : (st'.disk.mmapobj q).shape = (st.disk.mmapobj q).shape
  strtAddr : (st'.disk.mmapobj q).strtAddr =
    some (metaOf (st.disk.mmapobj q).procId (st.disk.mmapobj q).vmaId)
  dataAddr : (st'.disk.mmapobj q).dataAddr = place (st.disk.mmapobj q).dataFile
  tree : (st'.disk.mmapobj q).chunkTreeInit = true →
    ∃ t, (st'.disk.mmapobj q).chunkobjTree = some ⟨st.ram.run, t⟩
  entry : ∀ k, st'.disk.entry q k = lastChunk st.disk.chunk (st.disk.mmapobj q).scan k

/-- A chunk record with its pointer moved to the new mapping. -/
def Chunkobj.relocate (r : Chunkobj) (base : ℕ) : Chunkobj := { r with nvPtr := base + r.offset }

/-- What `restore_chunk_objs` does to the store. -/
structure RegionRestored (st st' : Store) (place : DataFile → ℕ) (q : MmapPtr) : Prop where
  record : RecordRestored st st' place q
  proc : st'.disk.proc = st.disk.proc
  data : st'.disk.data = st.disk.data
  other : ∀ {q'}, q' ≠ q → st'.disk.mmapobj q' = st.disk.mmapobj q'
  chunk : ∀ c, st'.disk.chunk c =
    if c ∈ (st.disk.mmapobj q).scan ∧ (st.disk.chunk c).valid = .VALID then
      (st.disk.chunk c).relocate (place (dataOf c.file)) else st.disk.chunk c
  ram : st'.ram.frame =
    { st.ram.frame with maps := (st.disk.mmapobj q).mapping place :: st.ram.maps }

/-- The record of a region when its chunk loop starts. -/
def Mmapobj.remap (m : Mmapobj) (place : DataFile → ℕ) (run : ℕ) : Mmapobj :=
  { m with
    chunkTreeInit := decide (m.numchunks ≠ 0)
    strtAddr := some (metaOf m.procId m.vmaId)
    dataAddr := place m.dataFile
    chunkobjTree := if m.numchunks = 0 then m.chunkobjTree else some (.create run) }

/-- The store when the chunk loop of region `q` starts. -/
def Store.mapChunks (st : Store) (place : DataFile → ℕ) (q : MmapPtr) : Store where
  disk := { st.disk with
    mmapobj := update st.disk.mmapobj q ((st.disk.mmapobj q).remap place st.ram.run) }
  ram := { st.ram with maps := (st.disk.mmapobj q).mapping place :: st.ram.maps }

theorem restoreChunkObjs_exec_eq {place : DataFile → ℕ}
    (hdata : (st.disk.data (st.disk.mmapobj q).dataFile).isSome)
    (hplace : place (st.disk.mmapobj q).dataFile ≠ 0) :
    (restoreChunkObjs place q).exec st =
      (restoreChunks q (place (st.disk.mmapobj q).dataFile) (st.disk.mmapobj q).scan).exec
        (st.mapChunks place q) := by
  have hdata' : (st.disk.data ⟨(st.disk.mmapobj q).procId, (st.disk.mmapobj q).vmaId⟩).isSome :=
    hdata
  have hplace' : place ⟨(st.disk.mmapobj q).procId, (st.disk.mmapobj q).vmaId⟩ ≠ 0 := hplace
  by_cases hn : (st.disk.mmapobj q).numchunks = 0
  · simp [restoreChunkObjs, exec_bind, hdata', hplace', hn, WriteEffect.apply, Store.apply,
      Disk.apply, Ram.apply, Store.mapChunks, Mmapobj.remap, Mmapobj.mapping, Mmapobj.dataFile,
      Mmapobj.scan, metaOf]
  · simp [restoreChunkObjs, initChunkTree, exec_bind, hdata', hplace', hn, WriteEffect.apply,
      Store.apply, Disk.apply, Ram.apply, Store.mapChunks, Mmapobj.remap, Mmapobj.mapping,
      Mmapobj.dataFile, Mmapobj.scan, metaOf]

/-- Before its chunk loop a region has no entries. -/
theorem entry_mapChunks (st : Store) (place : DataFile → ℕ) (q : MmapPtr) (k : ℕ) :
    (st.mapChunks place q).disk.entry q k = none := by
  by_cases hn : (st.disk.mmapobj q).numchunks = 0 <;>
    simp [Disk.entry, Store.mapChunks, Mmapobj.remap, hn, TreeRef.create]

theorem mmapobj_mapChunks_self (st : Store) (place : DataFile → ℕ) (q : MmapPtr) :
    (st.mapChunks place q).disk.mmapobj q = (st.disk.mmapobj q).remap place st.ram.run :=
  update_self ..

/-- `restore_chunk_objs` on a region whose data file exists. -/
theorem restoreChunkObjs_exec {place : DataFile → ℕ}
    (hdata : (st.disk.data (st.disk.mmapobj q).dataFile).isSome)
    (hplace : place (st.disk.mmapobj q).dataFile ≠ 0)
    (hlen : ∀ c ∈ (st.disk.mmapobj q).scan, (st.disk.chunk c).valid = .VALID →
      (st.disk.chunk c).length ≠ 0) :
    ∃ st', (restoreChunkObjs place q).exec st = some ((), st') ∧ RegionRestored st st' place q := by
  have htree : (st.disk.mmapobj q).scan ≠ [] →
      ((st.mapChunks place q).disk.mmapobj q).chunkTreeInit = true ∧
      ∃ t, ((st.mapChunks place q).disk.mmapobj q).chunkobjTree =
        some ⟨(st.mapChunks place q).ram.run, t⟩ := by
    intro hne
    have hn : (st.disk.mmapobj q).numchunks ≠ 0 := by
      intro h0
      simp [Mmapobj.scan, chunkSlots, h0] at hne
    rw [mmapobj_mapChunks_self]
    exact ⟨by simp [Mmapobj.remap, hn], .empty, by simp [Mmapobj.remap, hn, TreeRef.create]; rfl⟩
  obtain ⟨st', hexec, hres⟩ : ∃ st', (restoreChunks q (place (st.disk.mmapobj q).dataFile)
      (st.disk.mmapobj q).scan).exec (st.mapChunks place q) = some ((), st') ∧
      ChunksRestored (st.mapChunks place q) st' q (place (st.disk.mmapobj q).dataFile)
        (st.disk.mmapobj q).scan := restoreChunks_exec _ htree hlen
  rw [← restoreChunkObjs_exec_eq hdata hplace] at hexec
  have hframe := hres.region
  rw [mmapobj_mapChunks_self] at hframe
  refine ⟨st', hexec, ?_, hres.proc, hres.data, ?_, ?_, hres.ram⟩
  · constructor
    · exact (congrArg Mmapobj.shape hframe :)
    · exact (congrArg Mmapobj.strtAddr hframe :)
    · exact (congrArg Mmapobj.dataAddr hframe :)
    · intro hinit
      have hinit' : (st'.disk.mmapobj q).chunkTreeInit =
        decide ((st.disk.mmapobj q).numchunks ≠ 0) :=
        (congrArg Mmapobj.chunkTreeInit hframe :)
      rw [hinit', decide_eq_true_eq] at hinit
      have htree' := congrArg Mmapobj.chunkobjTree hframe
      simp only [Mmapobj.frame, Mmapobj.remap, if_neg hinit, Option.map_some] at htree'
      obtain ⟨⟨r, t⟩, ht, hr⟩ := Option.map_eq_some_iff.mp htree'
      have hrun : r = st.ram.run := congrArg TreeRef.run hr
      exact ⟨t, by rw [ht, hrun]⟩
    · intro k
      rw [hres.entry, entry_mapChunks, Option.or_none]
      rfl
  · intro q' hq'
    rw [hres.other hq']
    exact update_of_ne hq' ..
  · intro c
    rw [hres.chunk]
    by_cases hc : c ∈ (st.disk.mmapobj q).scan
    · rw [dataOf_of_mem_scan hc]
      rfl
    · simp only [hc, false_and, if_false]
      rfl

/-! ## The regions of a process -/

/-- What the region loop of `load_process` leaves behind. -/
structure RegionsRestored (st st' : Store) (place : DataFile → ℕ) (p : ℕ) (qs : List MmapPtr) :
    Prop where
  header : ∀ {h t}, st.disk.proc p = some h → h.mmapobjTree = some ⟨st.ram.run, t⟩ →
    ∃ t', st'.disk.proc p = some { h with mmapobjTree := some ⟨st.ram.run, t'⟩ } ∧
      ∀ v q, t'.find v = some q ↔ q ∈ qs ∧ (st.disk.mmapobj q).vmaId = v ∨
        t.find v = some q ∧ ∀ q' ∈ qs, (st.disk.mmapobj q').vmaId ≠ v
  proc : ∀ {p'}, p' ≠ p → st'.disk.proc p' = st.disk.proc p'
  data : st'.disk.data = st.disk.data
  other : ∀ {q}, q ∉ qs → st'.disk.mmapobj q = st.disk.mmapobj q
  record : ∀ {q}, q ∈ qs → RecordRestored st st' place q
  chunk : ∀ c, st'.disk.chunk c =
    if (∃ q ∈ qs, c ∈ (st.disk.mmapobj q).scan) ∧ (st.disk.chunk c).valid = .VALID then
      (st.disk.chunk c).relocate (place (dataOf c.file)) else st.disk.chunk c
  ram : st'.ram.frame = { st.ram.frame with
    maps := (qs.map fun q => (st.disk.mmapobj q).mapping place).reverse ++ st.ram.maps }

/-- The region records can be restored: their data files exist and their valid
chunks are not empty. -/
structure Restorable (st : Store) (place : DataFile → ℕ) (q : MmapPtr) : Prop where
  data : (st.disk.data (st.disk.mmapobj q).dataFile).isSome
  place : place (st.disk.mmapobj q).dataFile ≠ 0
  length : ∀ c ∈ (st.disk.mmapobj q).scan, (st.disk.chunk c).valid = .VALID →
    (st.disk.chunk c).length ≠ 0

theorem addMmapobj_exec {p : ℕ} {h : ProcObj} {t : Rbtree MmapPtr} (hh : st.disk.proc p = some h)
    (hinit : h.mmapobjInitialized = true) (htree : h.mmapobjTree = some ⟨st.ram.run, t⟩)
    (q : MmapPtr) :
    (addMmapobj q p).exec st =
      some ((), st.apply (.proc p fun h => h.insertMmapobj (st.disk.mmapobj q).vmaId q)) := by
  simp [addMmapobj, exec_bind, hh, hinit, htree, TreeRef.deref]
  rfl

section RegionsRestored

variable {st st₁ st' : Store} {place : DataFile → ℕ} {p : ℕ} {q : MmapPtr} {qs : List MmapPtr}

theorem regionsRestored_nil : RegionsRestored st st place p [] where
  header := by
    intro h t hh ht
    exact ⟨t, by rw [hh, ← ht], by simp⟩
  proc _ := rfl
  data := rfl
  other _ := rfl
  record hq := absurd hq List.not_mem_nil
  chunk c := by simp
  ram := rfl

/-- Restoring the first region and then the others. -/
theorem RegionsRestored.cons (hnodup : ((q :: qs).map fun q => (st.disk.mmapobj q).vmaId).Nodup)
    (hhead : RegionRestored
      (st.apply (.proc p fun h => h.insertMmapobj (st.disk.mmapobj q).vmaId q)) st₁ place q)
    (htail : RegionsRestored st₁ st' place p qs) : RegionsRestored st st' place p (q :: qs) := by
  rw [List.map_cons, List.nodup_cons] at hnodup
  obtain ⟨hvma, hnodup⟩ := hnodup
  have hnotin : q ∉ qs := fun hq => hvma (List.mem_map_of_mem hq)
  have hne : ∀ {q'}, q' ∈ qs → q' ≠ q := by
    rintro q' hq' rfl
    exact hnotin hq'
  have hrec : ∀ {q'}, q' ∈ qs → st₁.disk.mmapobj q' = st.disk.mmapobj q' :=
    fun hq' => hhead.other (hne hq')
  have hvalid : ∀ c, (st₁.disk.chunk c).valid = (st.disk.chunk c).valid := by
    intro c
    rw [hhead.chunk]
    split <;> rfl
  have hid : ∀ c, (st₁.disk.chunk c).chunkid = (st.disk.chunk c).chunkid := by
    intro c
    rw [hhead.chunk]
    split <;> rfl
  have hrun : st₁.ram.run = st.ram.run := (congrArg Ram.run hhead.ram :)
  constructor
  · intro h t hh ht
    have hh₁ : st₁.disk.proc p = some (h.insertMmapobj (st.disk.mmapobj q).vmaId q) := by
      rw [hhead.proc]
      simp [Store.apply, Disk.apply, hh]
    have ht₁ : (h.insertMmapobj (st.disk.mmapobj q).vmaId q).mmapobjTree =
        some ⟨st₁.ram.run, t.insert (st.disk.mmapobj q).vmaId q⟩ := by
      rw [hrun]
      simp [ProcObj.insertMmapobj, ht, TreeRef.insert]
    obtain ⟨t', hproc, hfind⟩ := htail.header hh₁ ht₁
    refine ⟨t', by rw [hproc, hrun]; rfl, ?_⟩
    intro v q'
    rw [hfind, Rbtree.find_insert]
    constructor
    · rintro (⟨hq', hv⟩ | ⟨hq', hno⟩)
      · exact .inl ⟨List.mem_cons_of_mem _ hq', by rw [← hrec hq']; exact hv⟩
      · split at hq'
        · rename_i hv
          cases hq'
          exact .inl ⟨List.mem_cons_self, hv.symm⟩
        · rename_i hv
          refine .inr ⟨hq', ?_⟩
          rintro q'' hq''
          rcases List.mem_cons.mp hq'' with rfl | hq''
          · exact fun h => hv h.symm
          · rw [← hrec hq'']
            exact hno q'' hq''
    · rintro (⟨hq', hv⟩ | ⟨hq', hno⟩)
      · rcases List.mem_cons.mp hq' with rfl | hq'
        · refine .inr ⟨by rw [if_pos hv.symm], ?_⟩
          intro q'' hq'' hv''
          rw [hrec hq''] at hv''
          exact hvma (List.mem_map.mpr ⟨q'', hq'', hv''.trans hv.symm⟩)
        · exact .inl ⟨hq', by rw [hrec hq']; exact hv⟩
      · refine .inr ⟨?_, ?_⟩
        · rw [if_neg fun h => hno q List.mem_cons_self h.symm]
          exact hq'
        · intro q'' hq''
          rw [hrec hq'']
          exact hno q'' (List.mem_cons_of_mem _ hq'')
  · intro p' hp'
    rw [htail.proc hp', hhead.proc]
    exact update_of_ne hp' ..
  · exact htail.data.trans hhead.data
  · intro q' hq'
    rw [List.mem_cons, not_or] at hq'
    rw [htail.other hq'.2, hhead.other hq'.1]
    rfl
  · intro q' hq'
    rcases List.mem_cons.mp hq' with rfl | hq'
    · -- the first region: the rest of the loop does not touch it
      have hsame := htail.other hnotin
      have hr := hhead.record
      constructor
      · rw [hsame]
        exact hr.shape
      · rw [hsame]
        exact hr.strtAddr
      · rw [hsame]
        exact hr.dataAddr
      · rw [hsame]
        exact hr.tree
      · intro k
        rw [Disk.entry, hsame]
        exact hr.entry k
    · have hr := htail.record hq'
      constructor
      · rw [hr.shape, hrec hq']
      · rw [hr.strtAddr, hrec hq']
      · rw [hr.dataAddr, hrec hq']
      · rw [← hrun]
        exact hr.tree
      · intro k
        rw [hr.entry, hrec hq', lastChunk_congr hvalid hid]
  · intro c
    have hscan : (∃ q' ∈ qs, c ∈ (st₁.disk.mmapobj q').scan) ↔
        ∃ q' ∈ qs, c ∈ (st.disk.mmapobj q').scan := by
      constructor
      · rintro ⟨q', hq', hc⟩
        exact ⟨q', hq', by rw [← hrec hq']; exact hc⟩
      · rintro ⟨q', hq', hc⟩
        exact ⟨q', hq', by rw [hrec hq']; exact hc⟩
    have hchunk : st₁.disk.chunk c =
        if c ∈ (st.disk.mmapobj q).scan ∧ (st.disk.chunk c).valid = .VALID then
          (st.disk.chunk c).relocate (place (dataOf c.file)) else st.disk.chunk c := hhead.chunk c
    rw [htail.chunk, hvalid, hchunk]
    simp only [hscan, List.exists_mem_cons_iff]
    by_cases hv : (st.disk.chunk c).valid = .VALID
    · by_cases h₁ : c ∈ (st.disk.mmapobj q).scan <;>
        by_cases h₂ : ∃ q' ∈ qs, c ∈ (st.disk.mmapobj q').scan <;>
        simp [hv, h₁, h₂, Chunkobj.relocate]
    · simp [hv]
  · have hmaps : st₁.ram.maps = (st.disk.mmapobj q).mapping place :: st.ram.maps :=
      (congrArg Ram.maps hhead.ram :)
    have hmap : (qs.map fun q' => (st₁.disk.mmapobj q').mapping place) =
        qs.map fun q' => (st.disk.mmapobj q').mapping place := by
      apply List.map_congr_left
      intro q' hq'
      rw [hrec hq']
    rw [htail.ram, hhead.ram, hmap, hmaps, List.map_cons, List.reverse_cons, List.append_assoc]
    rfl

/-- A region can still be restored after another one is. -/
theorem Restorable.of_restored {st st₁ : Store} {q q' : MmapPtr} (hr : Restorable st place q')
    (hres : RegionRestored st st₁ place q) (hne : q' ≠ q) : Restorable st₁ place q' := by
  have hrec : st₁.disk.mmapobj q' = st.disk.mmapobj q' := hres.other hne
  refine ⟨?_, ?_, ?_⟩
  · rw [hrec, hres.data]
    exact hr.data
  · rw [hrec]
    exact hr.place
  · intro c hc hv
    rw [hrec] at hc
    rw [hres.chunk] at hv ⊢
    split at hv <;> rename_i hif
    · rw [if_pos hif]
      exact hr.length c hc hif.2
    · rw [if_neg hif]
      exact hr.length c hc hv

/-- The region loop of `load_process` runs to its end. -/
theorem restoreMmapobjs_exec (qs : List MmapPtr) {st : Store} {h : ProcObj} {t : Rbtree MmapPtr}
    (hh : st.disk.proc p = some h) (hinit : h.mmapobjInitialized = true)
    (htree : h.mmapobjTree = some ⟨st.ram.run, t⟩)
    (hnodup : (qs.map fun q => (st.disk.mmapobj q).vmaId).Nodup)
    (hrest : ∀ q ∈ qs, Restorable st place q) :
    ∃ st', (restoreMmapobjs place p qs).exec st = some ((), st') ∧
      RegionsRestored st st' place p qs := by
  induction qs generalizing st h t with
  | nil => exact ⟨st, rfl, regionsRestored_nil⟩
  | cons q qs ih =>
    have hq := hrest q List.mem_cons_self
    let st₀ := st.apply (.proc p fun h => h.insertMmapobj (st.disk.mmapobj q).vmaId q)
    obtain ⟨st₁, hexec₁, hres₁⟩ : ∃ st₁, (restoreChunkObjs place q).exec st₀ = some ((), st₁) ∧
        RegionRestored st₀ st₁ place q := restoreChunkObjs_exec hq.data hq.place hq.length
    have hrun : st₁.ram.run = st.ram.run := (congrArg Ram.run hres₁.ram :)
    have hh₁ : st₁.disk.proc p = some (h.insertMmapobj (st.disk.mmapobj q).vmaId q) := by
      rw [hres₁.proc]
      simp [st₀, Store.apply, Disk.apply, hh]
    have hne : ∀ {q'}, q' ∈ qs → q' ≠ q := by
      rintro q' hq' rfl
      rw [List.map_cons, List.nodup_cons] at hnodup
      exact hnodup.1 (List.mem_map_of_mem hq')
    have hrec : ∀ {q'}, q' ∈ qs → st₁.disk.mmapobj q' = st.disk.mmapobj q' :=
      fun hq' => hres₁.other (hne hq')
    have hmap : (qs.map fun q' => (st₁.disk.mmapobj q').vmaId) =
        qs.map fun q' => (st.disk.mmapobj q').vmaId := by
      apply List.map_congr_left
      intro q' hq'
      rw [hrec hq']
    have hrest₁ : ∀ q' ∈ qs, Restorable st₁ place q' := by
      intro q' hq'
      have hr := hrest q' (List.mem_cons_of_mem _ hq')
      have hr₀ : Restorable st₀ place q' := ⟨hr.data, hr.place, hr.length⟩
      exact hr₀.of_restored hres₁ (hne hq')
    obtain ⟨st', hexec', hres'⟩ := ih hh₁ (hinit : _ = true)
      (t := t.insert (st.disk.mmapobj q).vmaId q)
      (by rw [hrun]; simp [ProcObj.insertMmapobj, htree, TreeRef.insert])
      (by rw [hmap]; exact (List.nodup_cons.mp hnodup).2) hrest₁
    refine ⟨st', ?_, RegionsRestored.cons hnodup hres₁ hres'⟩
    rw [restoreMmapobjs, exec_bind, addMmapobj_exec hh hinit htree, Option.bind_some, exec_bind]
    simp only
    rw [show (restoreChunkObjs place q).exec (st.apply (.proc p fun h =>
      h.insertMmapobj (st.disk.mmapobj q).vmaId q)) = some ((), st₁) from hexec₁]
    exact hexec'

end RegionsRestored
