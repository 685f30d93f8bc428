/-
# Operations on existing chunks

`nv_delete`, `nv_commit_len`, `nv_rename`, `nv_map_read` and the application's own
stores work on chunks that are there already.  For a loaded process each of them
runs to its end, and its effect is a change of one chunk record, of one tree
entry, or of one block of bytes (`Effect`).
-/
import NvMalloc.StoreInv

open WriteM Function

/-- The effect of an operation that keeps the frame: the new chunk records, tree
entries and data files. -/
structure Effect (st st' : Store) (chunk : ChunkPtr → Chunkobj)
    (entry : MmapPtr → ℕ → Option ChunkPtr) (data : DataFile → Option DataContent) : Prop where
  frame : SameFrame st st'
  chunk : st'.disk.chunk = chunk
  entry : ∀ q k, st'.disk.entry q k = entry q k
  data : st'.disk.data = data

/-! ## Tree entries -/

theorem Effect.entryAt_iff {st st' : Store} {chunk : ChunkPtr → Chunkobj}
    {entry : MmapPtr → ℕ → Option ChunkPtr} {data : DataFile → Option DataContent} {p : ℕ}
    (he : Effect st st' chunk entry data) (q : MmapPtr) (k : ℕ) (c : ChunkPtr) :
    EntryAt st'.disk p q k c ↔ IsRegion st.disk.shape p q ∧ entry q k = some c := by
  rw [EntryAt, he.frame.shape_eq, he.entry]

variable {c : ChunkPtr}

theorem entry_apply_insert {d : Disk} {q : MmapPtr} {k : ℕ} {t : TreeRef ChunkPtr}
    (hinit : (d.mmapobj q).chunkTreeInit = true) (htree : (d.mmapobj q).chunkobjTree = some t)
    (q' : MmapPtr) (k' : ℕ) :
    (d.apply (.mmapobj q fun m => m.insertEntry k c)).entry q' k' =
      if q' = q ∧ k' = k then some c else d.entry q' k' := by
  by_cases hq : q' = q
  · subst hq
    by_cases hk : k' = k <;>
      simp [Disk.entry, Disk.apply, Mmapobj.insertEntry, hinit, htree, TreeRef.insert,
        Rbtree.find_insert, hk]
  · simp [Disk.entry, Disk.apply, hq]

theorem entry_apply_delete (d : Disk) (q : MmapPtr) (k : ℕ) (q' : MmapPtr) (k' : ℕ) :
    (d.apply (.mmapobj q fun m => m.deleteEntry k)).entry q' k' =
      if q' = q ∧ k' = k then none else d.entry q' k' := by
  by_cases hq : q' = q
  · subst hq
    cases htree : (d.mmapobj q').chunkobjTree with
    | none => by_cases hk : k' = k <;> simp [Disk.entry, Disk.apply, Mmapobj.deleteEntry, htree, hk]
    | some t =>
      by_cases hk : k' = k <;>
        simp [Disk.entry, Disk.apply, Mmapobj.deleteEntry, htree, TreeRef.delete,
          Rbtree.find_delete, hk]
  · simp [Disk.entry, Disk.apply, hq]

theorem frame_insertEntry (m : Mmapobj) (k : ℕ) (c : ChunkPtr) :
    (m.insertEntry k c).frame = m.frame := by
  simp [Mmapobj.frame, Mmapobj.insertEntry, TreeRef.insert, comp_def]

theorem frame_deleteEntry (m : Mmapobj) (k : ℕ) : (m.deleteEntry k).frame = m.frame := by
  simp [Mmapobj.frame, Mmapobj.deleteEntry, TreeRef.delete, comp_def]

/-! ## Chunks of a loaded process -/

theorem ShapeOk.length_pos {s : Shape} (hs : ShapeOk s) {p : ℕ} (hc : InScan s p c) :
    0 < (s.extent c).length := by
  obtain ⟨q, hq, hqc⟩ := hc
  obtain ⟨n, hn, -⟩ := hs.file hq
  exact (hs.extent hq hqc hn).2.1

/-- A record of process `p` names it. -/
theorem ShapeOk.extent_pid {s : Shape} (hs : ShapeOk s) {p : ℕ} (hc : InScan s p c) :
    (s.extent c).pid = p := by
  obtain ⟨q, hq, hqc⟩ := hc
  obtain ⟨n, hn, -⟩ := hs.file hq
  exact (hs.extent hq hqc hn).1

namespace StoreInv

variable {st : Store} {p : ℕ} {c : ChunkPtr} (hi : StoreInv st p)
include hi

theorem length_ne (hc : Indexed st.disk p c) : (st.disk.chunk c).length ≠ 0 := by
  have : 0 < (st.disk.chunk c).length := hi.shape.length_pos (hi.loaded.indexed hc)
  omega

theorem nvPtr_ne (hc : Indexed st.disk p c) : (st.disk.chunk c).nvPtr ≠ 0 := by
  obtain ⟨q, hq, hqc⟩ := hi.loaded.indexed hc
  have hptr := hi.loaded.nvPtr hq hqc (Or.inr hc)
  have hbase := (hi.loaded.mapped hq).1
  omega

/-- The pointer of a chunk leads into the mapping of its data file. -/
theorem chunk_mapped (hc : InScan st.disk.shape p c)
    (hv : (st.disk.chunk c).valid = .VALID ∨ Indexed st.disk p c) :
    ∃ m x, m ∈ st.ram.maps ∧ m.file = dataOf c.file ∧ st.disk.data m.file = some x ∧
      (st.disk.chunk c).nvPtr = m.base + (st.disk.chunk c).offset ∧
      (st.disk.chunk c).offset + (st.disk.chunk c).length ≤ m.size ∧
      (st.disk.chunk c).offset + (st.disk.chunk c).length ≤ x.size := by
  obtain ⟨q, hq, hqc⟩ := hc
  obtain ⟨size, hsize, hle⟩ := hi.shape.file hq
  have hext : (st.disk.chunk c).offset + (st.disk.chunk c).length ≤ size :=
    (hi.shape.extent hq hqc hsize).2.2
  obtain ⟨x, hx, rfl⟩ := Option.map_eq_some_iff.mp hsize
  refine ⟨_, x, (hi.loaded.mapped hq).2, ?_, hx, hi.loaded.nvPtr hq hqc hv, ?_, hext⟩
  · rw [hqc.file_eq, hq.pid_eq, dataOf_metaOf]
    rfl
  · exact hext.trans hle

/-- The data file of a chunk exists. -/
theorem data_isSome (hc : InScan st.disk.shape p c) : (st.disk.data (dataOf c.file)).isSome := by
  obtain ⟨q, hq, hqc⟩ := hc
  obtain ⟨size, hsize, -⟩ := hi.shape.file hq
  obtain ⟨x, hx, -⟩ := Option.map_eq_some_iff.mp hsize
  rw [hqc.file_eq, hq.pid_eq, dataOf_metaOf]
  exact Option.isSome_iff_exists.mpr ⟨x, hx⟩

/-- Loads through the pointer of a chunk read its extent in the data file. -/
theorem loadBytes_chunk (hc : InScan st.disk.shape p c)
    (hv : (st.disk.chunk c).valid = .VALID ∨ Indexed st.disk p c) {n : ℕ}
    (hn : n ≤ (st.disk.chunk c).length) :
    st.loadBytes (st.disk.chunk c).nvPtr n =
      some (slice (st.disk.bytesOf (dataOf c.file)) (st.disk.chunk c).offset n) := by
  obtain ⟨m, x, hm, hfile, hx, hptr, hsize, hsize'⟩ := hi.chunk_mapped hc hv
  rw [hptr, loadBytes_of_mem hi.ram.maps hm hx (by omega) (by omega), Disk.bytesOf, ← hfile, hx]

/-- Stores through the pointer of a chunk change its extent in the data file. -/
theorem storeBytes_chunk (hc : InScan st.disk.shape p c)
    (hv : (st.disk.chunk c).valid = .VALID ∨ Indexed st.disk p c) {o : ℕ} {bs : List UInt8}
    (ho : o + bs.length ≤ (st.disk.chunk c).length) :
    st.storeBytes ((st.disk.chunk c).nvPtr + o) bs =
      some (byteWrites (dataOf c.file) ((st.disk.chunk c).offset + o) bs) := by
  obtain ⟨m, x, hm, hfile, hx, hptr, hsize, hsize'⟩ := hi.chunk_mapped hc hv
  rw [hptr, Nat.add_assoc, storeBytes_of_mem hi.ram.maps hm hx (by omega) (by omega), hfile]

end StoreInv

/-! ## `nv_delete` -/

section Ops

variable {st : Store} {p : ℕ} {rqst : Rqst}

/-- The record of a deleted chunk. -/
def Chunkobj.invalidate (r : Chunkobj) : Chunkobj := { r with commitsz := 0, valid := .INVALID }

/-- The two chunk writes of `nv_delete`. -/
def Store.invalidate (st : Store) (c : ChunkPtr) : Store :=
  (st.apply (.chunk c fun r => { r with commitsz := 0 })).apply
    (.chunk c fun r => { r with valid := .INVALID })

theorem apply_invalidate (st : Store) (c : ChunkPtr) :
    WriteEffect.apply (WriteEffect.apply st (Write.chunk c fun r => { r with commitsz := 0 }))
      (Write.chunk c fun r => { r with valid := .INVALID }) = st.invalidate c := rfl

theorem invalidate_effect (st : Store) (c : ChunkPtr) :
    Effect st (st.invalidate c) (update st.disk.chunk c (st.disk.chunk c).invalidate)
      st.disk.entry st.disk.data where
  frame := by
    unfold Store.invalidate
    refine SameFrame.chunk_apply (SameFrame.chunk_apply (SameFrame.refl st) ?_) ?_ <;>
      exact fun _ => rfl
  chunk := by
    simp [Store.invalidate, Store.apply, Disk.apply, Chunkobj.invalidate]
  entry _ _ := rfl
  data := rfl

theorem chunkid_invalidate (st : Store) (c : ChunkPtr) :
    ((st.invalidate c).disk.chunk c).chunkid = (st.disk.chunk c).chunkid := by
  simp [(invalidate_effect st c).chunk, Chunkobj.invalidate]

/-- A change of chunk records and entries that keeps the frame, indexes nothing
new and makes nothing valid, keeps the invariant. -/
theorem Effect.storeInv {st' : Store} {chunk : ChunkPtr → Chunkobj}
    {entry : MmapPtr → ℕ → Option ChunkPtr} {data : DataFile → Option DataContent}
    (he : Effect st st' chunk entry data) (hi : StoreInv st p)
    (hentry : ∀ q k c, IsRegion st.disk.shape p q → entry q k = some c → Indexed st.disk p c)
    (hvalid : ∀ c, (chunk c).valid = .VALID → (st.disk.chunk c).valid = .VALID ∨
      Indexed st.disk p c) :
    StoreInv st' p := by
  refine hi.of_sameFrame he.frame ?_ ?_
  · rintro c ⟨q, k, hq, hc⟩
    rw [he.frame.shape_eq] at hq
    exact hentry q k c hq ((he.entry q k).symm.trans hc)
  · intro c hc
    rw [he.chunk] at hc
    exact hvalid c hc

variable {c : ChunkPtr} {q : MmapPtr}

/-- A change of one chunk that was valid or indexed keeps the invariant, when nothing
new is indexed. -/
theorem Effect.storeInv_at {st' : Store} {r : Chunkobj} {entry : MmapPtr → ℕ → Option ChunkPtr}
    {data : DataFile → Option DataContent}
    (he : Effect st st' (update st.disk.chunk c r) entry data) (hi : StoreInv st p)
    (hv : (st.disk.chunk c).valid = .VALID ∨ Indexed st.disk p c)
    (hentry : ∀ {q k c'}, IsRegion st.disk.shape p q → entry q k = some c' → Indexed st.disk p c') :
    StoreInv st' p := by
  refine he.storeInv hi (fun _ _ _ hq hc => hentry hq hc) ?_
  intro c' hv'
  by_cases hcc : c' = c
  · subst hcc
    exact hv
  · rw [update_of_ne hcc] at hv'
    exact Or.inl hv'

/-- `nv_delete` of an id that is not found. -/
theorem nvDelete_of_missing (hi : StoreInv st rqst.pid) (hid : rqst.chunkId ≠ 0)
    (hm : Missing st.disk rqst.pid rqst.chunkId) : (nvDelete rqst).exec st = some (-1, st) := by
  have hget := exec_of_run_nil (getChunk_of_missing hi hid hm)
  simp [nvDelete, exec_bind, hi.pidPos, hi.findProcess, hget]

theorem invalidate_storeInv (hi : StoreInv st p) (c : ChunkPtr) : StoreInv (st.invalidate c) p := by
  refine (invalidate_effect st c).storeInv hi ?_ ?_
  · intro q k c' hq hc'
    exact ⟨q, k, hq, hc'⟩
  · intro c' hc'
    by_cases h : c' = c
    · subst h
      simp [Chunkobj.invalidate] at hc'
    · rw [update_of_ne h] at hc'
      exact Or.inl hc'

/-- `nv_delete` when the chunk is found but its record has an id that no tree
knows: the chunk is invalidated all the same. -/
theorem nvDelete_of_lost (hi : StoreInv st rqst.pid) (hid : rqst.chunkId ≠ 0)
    (hf : Finds st.disk rqst.pid rqst.chunkId q c)
    (hm : Missing st.disk rqst.pid (st.disk.chunk c).chunkid) :
    (nvDelete rqst).exec st = some (-1, st.invalidate c) := by
  have hget := exec_of_run_nil (getChunk_of_finds hi hid hf)
  have hi' := invalidate_storeInv hi c
  have hm' : Missing (st.invalidate c).disk rqst.pid (st.disk.chunk c).chunkid := hm
  have hsearch := exec_of_run_nil (findMmapobjFromChunkid_of_missing hi' hm')
  simp [nvDelete, exec_bind, hi.pidPos, hi.findProcess, hget, apply_invalidate,
    chunkid_invalidate, hsearch]

/-- The store after `nv_delete` of chunk `c`, whose id leads to region `q`. -/
def Store.deleteChunk (st : Store) (c : ChunkPtr) (q : MmapPtr) (name : ObjName) : Store :=
  ((st.invalidate c).apply (.mmapobj q fun m => m.deleteEntry (st.disk.chunk c).chunkid)).apply
    (.ram fun r => { r with objnamemap := r.objnamemap.erase name })

theorem deleteChunk_effect (st : Store) (c : ChunkPtr) (q : MmapPtr) (name : ObjName) :
    Effect st (st.deleteChunk c q name)
      (update st.disk.chunk c (st.disk.chunk c).invalidate)
      (fun q' k => if q' = q ∧ k = (st.disk.chunk c).chunkid then none else st.disk.entry q' k)
      st.disk.data where
  frame := by
    refine SameFrame.ram_apply (SameFrame.mmapobj_apply (invalidate_effect st c).frame ?_) ?_
    · exact fun m => frame_deleteEntry m _
    · exact fun _ => rfl
  chunk := (invalidate_effect st c).chunk
  entry q' k := entry_apply_delete (st.invalidate c).disk q (st.disk.chunk c).chunkid q' k
  data := (invalidate_effect st c).data

/-- `nv_delete` when the chunk is found and the id of its record leads to region
`q'`: the chunk is invalidated and that id loses its entry in `q'`. -/
theorem nvDelete_of_finds (hi : StoreInv st rqst.pid) (hid : rqst.chunkId ≠ 0) {q' : MmapPtr}
    {c' : ChunkPtr} (hf : Finds st.disk rqst.pid rqst.chunkId q c)
    (hf' : Finds st.disk rqst.pid (st.disk.chunk c).chunkid q' c') :
    (nvDelete rqst).exec st = some (0, st.deleteChunk c q' rqst.varName) := by
  have hget := exec_of_run_nil (getChunk_of_finds hi hid hf)
  have hi' := invalidate_storeInv hi c
  have hf'' : Finds (st.invalidate c).disk rqst.pid (st.disk.chunk c).chunkid q' c' :=
    ⟨hf'.region, hf'.entry, hf'.greatest⟩
  have hsearch := exec_of_run_nil (findMmapobjFromChunkid_of_finds hi' hf'')
  obtain ⟨t, ht, -⟩ := hf''.tree hi'.loaded
  simp [nvDelete, exec_bind, hi.pidPos, hi.findProcess, hget, apply_invalidate,
    chunkid_invalidate, hsearch, ht, TreeRef.deref]
  rfl

/-! ## `add_chunkobj` -/

/-- The writes of `add_chunkobj`. -/
def addChunkobjWrites (q : MmapPtr) (c : ChunkPtr) (r : Chunkobj) : List Write :=
  [.mmapobj q fun m => m.insertEntry r.chunkid c,
    .ram fun ram => { ram with objnamemap := insert r.objname ram.objnamemap }]

theorem addChunkobj_run {t : Rbtree ChunkPtr}
    (htree : (st.disk.mmapobj q).chunkobjTree = some ⟨st.ram.run, t⟩)
    (hlen : (st.disk.chunk c).length ≠ 0) :
    addChunkobj q c st = some ((), addChunkobjWrites q c (st.disk.chunk c)) := by
  simp [addChunkobj, addChunkobjWrites, run_bind_eq, htree, hlen, TreeRef.deref]

/-! ## `nv_commit_len` -/

section

variable (hi : StoreInv st rqst.pid) (hid : rqst.chunkId ≠ 0)
include hi hid

/-- `nv_commit_len` of an id that is found writes the size into the chunk's record. -/
theorem nvCommitLen_exec (hf : Finds st.disk rqst.pid rqst.chunkId q c) (size : ℕ) :
    (nvCommitLen rqst size).exec st =
      some (0, st.apply (.chunk c fun r => { r with commitsz := toUint size })) := by
  have hget := exec_of_run_nil (getChunk_of_finds hi hid hf)
  have hlen := hi.length_ne hf.indexed
  simp [nvCommitLen, exec_bind, hget, WriteEffect.apply, Store.apply, Disk.apply, hlen]

theorem nvCommitLen_of_finds (hf : Finds st.disk rqst.pid rqst.chunkId q c) (size : ℕ) :
    ∃ st', (nvCommitLen rqst size).exec st = some (0, st') ∧
      Effect st st'
        (update st.disk.chunk c { st.disk.chunk c with commitsz := toUint size })
        st.disk.entry st.disk.data := by
  refine ⟨_, nvCommitLen_exec hi hid hf size, ?_, rfl, fun _ _ => rfl, rfl⟩
  exact SameFrame.chunk_apply (SameFrame.refl st) fun _ => rfl

/-! ## `nv_rename` -/

/-- `nv_rename` of an id that is not found does nothing. -/
theorem nvRename_of_missing (hm : Missing st.disk rqst.pid rqst.chunkId) (dest : ObjName) :
    (nvRename rqst dest).exec st = some ((), st) := by
  have hget := exec_of_run_nil (getChunk_of_missing hi hid hm)
  simp [nvRename, exec_bind, hget]

/-- `nv_rename` of a chunk whose record has an id that no tree knows does nothing. -/
theorem nvRename_of_lost (hf : Finds st.disk rqst.pid rqst.chunkId q c)
    (hm : Missing st.disk rqst.pid (st.disk.chunk c).chunkid) (dest : ObjName) :
    (nvRename rqst dest).exec st = some ((), st) := by
  have hget := exec_of_run_nil (getChunk_of_finds hi hid hf)
  have hsearch := exec_of_run_nil (findMmapobjFromChunkid_of_missing hi hm)
  simp [nvRename, exec_bind, hget, hi.findProcess, hsearch]

end

/-- The record of a renamed chunk. -/
def Chunkobj.rename (r : Chunkobj) (dest : ObjName) : Chunkobj :=
  { r with chunkid := genIdFromStr dest, objname := dest, valid := .VALID }

/-- `nv_rename` when the chunk is found and the id of its record leads to region
`q'`: the record gets the new name and `q'` gets an entry for it. -/
theorem nvRename_of_finds (hi : StoreInv st rqst.pid) (hid : rqst.chunkId ≠ 0) {q' : MmapPtr}
    {c' : ChunkPtr} (hf : Finds st.disk rqst.pid rqst.chunkId q c)
    (hf' : Finds st.disk rqst.pid (st.disk.chunk c).chunkid q' c') (dest : ObjName) :
    ∃ st', (nvRename rqst dest).exec st = some ((), st') ∧
      Effect st st' (update st.disk.chunk c ((st.disk.chunk c).rename dest))
        (fun q'' k => if q'' = q' ∧ k = genIdFromStr dest then some c else st.disk.entry q'' k)
        st.disk.data := by
  have hget := exec_of_run_nil (getChunk_of_finds hi hid hf)
  have hsearch := exec_of_run_nil (findMmapobjFromChunkid_of_finds hi hf')
  have hlen := hi.length_ne hf.indexed
  obtain ⟨t, ht, -⟩ := hf'.tree hi.loaded
  have hinit : (st.disk.mmapobj q').chunkTreeInit = true := by
    by_contra h
    have := hf'.entry
    simp [Disk.entry, h] at this
  -- the record after its three fields are written
  let st₁ := ((st.apply (.chunk c fun r => { r with chunkid := genIdFromStr dest })).apply
    (.chunk c fun r => { r with objname := dest })).apply
    (.chunk c fun r => { r with valid := .VALID })
  have hchunk : st₁.disk.chunk =
    update st.disk.chunk c ((st.disk.chunk c).rename dest) := by
    simp [st₁, Store.apply, Disk.apply, Chunkobj.rename]
  have hrec : st₁.disk.chunk c = (st.disk.chunk c).rename dest := by
    rw [hchunk, update_self]
  have hadd : (addChunkobj q' c).exec st₁ =
      some ((), applyAll st₁ (addChunkobjWrites q' c (st₁.disk.chunk c))) :=
    exec_eq_some (addChunkobj_run ht (by rw [hrec]; exact hlen))
  refine ⟨(((applyAll st₁ (addChunkobjWrites q' c (st₁.disk.chunk c))).apply
      (.ram fun r => { r with objnamemap := r.objnamemap.erase rqst.varName })).apply
      (.ram fun r => { r with objnamemap := insert dest r.objnamemap })), ?_, ?_⟩
  · simp only [nvRename, exec_bind, hget, Option.bind_some, exec_state, exec_lift,
      hi.findProcess, Option.map_some, hsearch, ne_eq, hlen, not_false_eq_true, if_true, exec_emit]
    show ((addChunkobj q' c).exec st₁).bind _ = _
    rw [hadd]
    rfl
  · refine ⟨?_, hchunk, ?_, rfl⟩
    · refine SameFrame.ram_apply (SameFrame.ram_apply (SameFrame.ram_apply
        (SameFrame.mmapobj_apply (SameFrame.chunk_apply (SameFrame.chunk_apply
          (SameFrame.chunk_apply (SameFrame.refl st) ?_) ?_) ?_) ?_) ?_) ?_) ?_
      all_goals first | exact fun _ => rfl | exact fun m => frame_insertEntry m _ _
    · intro q'' k
      rw [hrec]
      exact entry_apply_insert hinit ht q'' k

/-! ## `nv_map_read` -/

/-- What a read of an indexed chunk returns. -/
def Chunkobj.read (r : Chunkobj) : Option ReadResult :=
  if r.valid = .INVALID then none else some ⟨r.nvPtr, r.length, r.commitsz⟩

theorem nvMapRead_of_missing (hi : StoreInv st rqst.pid)
    (hm : Missing st.disk rqst.pid rqst.chunkId) (place : DataFile → ℕ) :
    (nvMapRead place rqst).exec st = some (none, st) := by
  have hsearch := exec_of_run_nil (findMmapobjFromChunkid_of_missing hi hm)
  simp [nvMapRead, exec_bind, hi.findProcess, hsearch]

theorem nvMapRead_of_finds (hi : StoreInv st rqst.pid)
    (hf : Finds st.disk rqst.pid rqst.chunkId q c) (place : DataFile → ℕ) :
    (nvMapRead place rqst).exec st = some ((st.disk.chunk c).read, st) := by
  have hsearch := exec_of_run_nil (findMmapobjFromChunkid_of_finds hi hf)
  have hlen := hi.length_ne hf.indexed
  have hptr := hi.nvPtr_ne hf.indexed
  obtain ⟨t, ht, hfind⟩ := hf.tree hi.loaded
  simp [nvMapRead, exec_bind, hi.findProcess, hsearch, ht, TreeRef.deref, hfind, hlen, hptr,
    Chunkobj.read]

end Ops
