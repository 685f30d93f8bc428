/-
# Allocating a name that is live

`nv_record_chunk` on a live name appends the new chunk under the same id, copies
the old contents to it, and then deletes "the old chunk" through `nv_delete`, which
searches for the id again.  By then two regions may have an entry for it, and the
search hits the one in the region with the greater id: the new chunk, unless it
lies in a region with a smaller id than the old one.
-/
import NvMalloc.Alloc

open WriteM Function

/-! ## The copy and the second lookup -/

section Replace

variable {st : Store} {p id : ℕ} {old c v : ChunkPtr} {qv : MmapPtr}

/-- The bytes that a re-allocation copies. -/
def Disk.kept (d : Disk) (old c : ChunkPtr) : List UInt8 :=
  slice (d.bytesOf (dataOf old.file)) (d.chunk old).offset
    (min (d.chunk old).length (d.chunk c).length)

/-- The store after the copy. -/
def Store.copyChunk (st : Store) (old c : ChunkPtr) : Store :=
  Store.apply
    ⟨st.disk.blitFile (dataOf c.file) (st.disk.chunk c).offset (st.disk.kept old c), st.ram⟩
    (.chunk c fun r => { r with commitsz := (st.disk.chunk old).commitsz })

/-- The copy keeps the committed size and the bytes of the old chunk. -/
theorem copyChunk_effect (st : Store) (old c : ChunkPtr) : Effect st (st.copyChunk old c)
    (update st.disk.chunk c
      { st.disk.chunk c with commitsz := (st.disk.chunk old).commitsz })
    st.disk.entry
    (st.disk.blitFile (dataOf c.file) (st.disk.chunk c).offset (st.disk.kept old c)).data where
  frame := by
    refine SameFrame.chunk_apply (SameFrame.blitFile (SameFrame.refl st) _ _ _) ?_
    exact fun _ => rfl
  chunk := rfl
  entry _ _ := rfl
  data := rfl

/-- The copy changes committed sizes only. -/
theorem chunk_copyChunk (c' : ChunkPtr) : ∃ z, (st.copyChunk old c).disk.chunk c' =
    { st.disk.chunk c' with commitsz := z } := by
  rw [(copyChunk_effect st old c).chunk]
  by_cases h : c' = c
  · subst h
    exact ⟨_, update_self ..⟩
  · exact ⟨_, update_of_ne h ..⟩

theorem valid_copyChunk (c' : ChunkPtr) :
    ((st.copyChunk old c).disk.chunk c').valid = (st.disk.chunk c').valid := by
  obtain ⟨_, h⟩ := chunk_copyChunk c'
  rw [h]

theorem chunkid_copyChunk (c' : ChunkPtr) :
    ((st.copyChunk old c).disk.chunk c').chunkid = (st.disk.chunk c').chunkid := by
  obtain ⟨_, h⟩ := chunk_copyChunk c'
  rw [h]

theorem storeInv_copyChunk (hi : StoreInv st p) : StoreInv (st.copyChunk old c) p := by
  refine (copyChunk_effect st old c).storeInv hi ?_ ?_
  · intro q k c' hq hc'
    exact ⟨q, k, hq, hc'⟩
  · intro c' hv
    rw [← (copyChunk_effect st old c).chunk, valid_copyChunk] at hv
    exact .inl hv

theorem sameFiles_deleteChunk {q : MmapPtr} {n : ObjName} (hcp : c.file.pid = p) (hqp : q.pid = p)
    {p' : ℕ} (hne : p' ≠ p) : SameFiles st.disk (st.deleteChunk c q n).disk p' where
  proc := rfl
  mmapobj := by
    rintro q' rfl
    apply update_of_ne
    rintro rfl
    exact hne hqp
  chunk := by
    rintro c' rfl
    rw [(deleteChunk_effect st c q n).chunk]
    apply update_of_ne
    rintro rfl
    exact hne hcp
  data _ := rfl

theorem sameFiles_copyChunk (hcp : c.file.pid = p) {p' : ℕ} (hne : p' ≠ p) :
    SameFiles st.disk (st.copyChunk old c).disk p' where
  proc := rfl
  mmapobj _ := rfl
  chunk := by
    rintro c' rfl
    apply update_of_ne
    rintro rfl
    exact hne hcp
  data v := by
    apply update_of_ne
    intro heq
    exact hne ((DataFile.mk.inj heq).1.trans hcp)

/-- The end of a re-allocation, when the search for the id hits chunk `v`. -/
theorem replaceChunk_exec (hi : StoreInv st p) (hid : id ≠ 0) (hold : InScan st.disk.shape p old)
    (hov : (st.disk.chunk old).valid = .VALID) (hc : InScan st.disk.shape p c)
    (hcv : (st.disk.chunk c).valid = .VALID) (hf : Finds st.disk p id qv v)
    (hvid : (st.disk.chunk v).chunkid = id) :
    ∃ st', (replaceChunk id c (some old)).exec st = some ((), st') ∧
      Effect st st'
        (update (st.copyChunk old c).disk.chunk v
          ((st.copyChunk old c).disk.chunk v).invalidate)
        (fun q k => if q = qv ∧ k = id then none else st.disk.entry q k)
        (st.copyChunk old c).disk.data ∧
      ∀ {p'}, p' ≠ p → SameFiles st.disk st'.disk p' := by
  have hpid : (st.disk.chunk old).pid = p := hi.shape.extent_pid hold
  have hload := hi.loadBytes_chunk hold (.inl hov)
    (Nat.min_le_left (st.disk.chunk old).length (st.disk.chunk c).length)
  have hfit : 0 + (st.disk.kept old c).length ≤ (st.disk.chunk c).length := by simp [Disk.kept]
  have hstore := hi.storeBytes_chunk hc (.inl hcv) hfit
  -- the second lookup, in the store after the copy
  let rqst : Rqst := { pid := p, id := id, varName := (st.disk.chunk old).objname }
  have hchunkId : rqst.chunkId = id := by simp [Rqst.chunkId, rqst, hid]
  have he := copyChunk_effect st old c
  have hi₁ : StoreInv (st.copyChunk old c) rqst.pid := storeInv_copyChunk hi
  have hf₁ : Finds (st.copyChunk old c).disk rqst.pid rqst.chunkId qv v := by
    rw [hchunkId]
    refine ⟨by rw [he.frame.shape_eq]; exact hf.region, hf.entry, ?_⟩
    intro q' hq' hlt
    rw [he.frame.shape_eq] at hq'
    rw [he.frame.vmaId_eq, he.frame.vmaId_eq] at hlt
    exact hf.greatest hq' hlt
  have hf₂ := hf₁
  have hvid₁ : ((st.copyChunk old c).disk.chunk v).chunkid = id := (chunkid_copyChunk v).trans hvid
  rw [hchunkId, ← hvid₁] at hf₂
  have hdel := nvDelete_of_finds hi₁ (by rw [hchunkId]; exact hid) hf₁ hf₂
  have heff := deleteChunk_effect (st.copyChunk old c) v qv rqst.varName
  have hvp : v.file.pid = p := (hi.loaded.indexed hf.indexed).pid_eq
  refine ⟨_, ?_, ⟨he.frame.trans heff.frame, heff.chunk, ?_, heff.data⟩, fun hne =>
    (sameFiles_copyChunk hc.pid_eq hne).trans (sameFiles_deleteChunk hvp hf.region.pid_eq hne)⟩
  · have hcopy : WriteEffect.apply (applyAll st (byteWrites (dataOf c.file)
        ((st.disk.chunk c).offset + 0) (st.disk.kept old c)))
        (Write.chunk c fun r => { r with commitsz := (st.disk.chunk old).commitsz }) =
        st.copyChunk old c := by
      rw [applyAll_byteWrites, Nat.add_zero]
      rfl
    have hkept : slice (st.disk.bytesOf (dataOf old.file)) (st.disk.chunk old).offset
        (min (st.disk.chunk old).length (st.disk.chunk c).length) = st.disk.kept old c := rfl
    rw [Nat.add_zero] at hstore
    rw [replaceChunk, exec_bind, exec_state, Option.bind_some, exec_bind, exec_lift, hload, hkept,
      Option.map_some, Option.bind_some, exec_bind, exec_lift, hstore, Option.map_some,
      Option.bind_some, exec_bind, exec_emits, Option.bind_some, exec_bind, exec_emit,
      Option.bind_some, hcopy, exec_bind, hpid, hdel]
    rfl
  · intro q k
    rw [heff.entry, hvid₁]
    rfl

end Replace

/-! ## The whole call -/

/-- `check_if_chunk_exists` gives a chunk that it finds the id of the name. -/
def Store.retag (st : Store) (c : ChunkPtr) (k : ℕ) : Store :=
  st.apply (.chunk c fun r => { r with chunkid := k })

section Live

variable {st : Store} {p : ℕ} {rqst : Rqst} {addr : ℕ} {nd : MmapobjNode} {q q₀ : MmapPtr}
  {old : ChunkPtr}

/-- Only the id of the record changes. -/
theorem retag_effect (st : Store) (c : ChunkPtr) (k : ℕ) : Effect st (st.retag c k)
    (update st.disk.chunk c { st.disk.chunk c with chunkid := k }) st.disk.entry
    st.disk.data where
  frame := by
    refine SameFrame.chunk_apply (SameFrame.refl st) ?_
    exact fun _ => rfl
  chunk := rfl
  entry _ _ := rfl
  data := rfl

variable {c v : ChunkPtr} {qv : MmapPtr} {st₂ st' : Store} {ws : List Write}

/-- A change of a chunk record of one process. -/
theorem sameFiles_applyChunk (hcp : c.file.pid = p) (f : Chunkobj → Chunkobj) {p' : ℕ}
    (hne : p' ≠ p) : SameFiles st.disk (st.apply (.chunk c f)).disk p' where
  proc := rfl
  mmapobj _ := rfl
  chunk := by
    rintro c' rfl
    apply update_of_ne
    rintro rfl
    exact hne hcp
  data _ := rfl

theorem valid_retag (c c' : ChunkPtr) (k : ℕ) :
    ((st.retag c k).disk.chunk c').valid = (st.disk.chunk c').valid := by
  rw [(retag_effect st c k).chunk]
  by_cases h : c' = c
  · subst h
    rw [update_self]
  · rw [update_of_ne h]

theorem storeInv_retag (hi : StoreInv st p) (c : ChunkPtr) (k : ℕ) : StoreInv (st.retag c k) p := by
  refine (retag_effect st c k).storeInv hi ?_ ?_
  · intro q k c' hq hc'
    exact ⟨q, k, hq, hc'⟩
  · intro c' hv
    rw [← (retag_effect st c k).chunk, valid_retag] at hv
    exact .inl hv

theorem finds_retag {c' : ChunkPtr} {k id : ℕ} (hf : Finds st.disk p id q c') :
    Finds (st.retag c k).disk p id q c' := ⟨hf.region, hf.entry, hf.greatest⟩

theorem allocOk_retag (hok : AllocOk st rqst nd addr) (c : ChunkPtr) (k : ℕ) :
    AllocOk (st.retag c k) rqst nd addr where
  unnamed := hok.unnamed
  named := hok.named
  block := ⟨hok.block.node, hok.block.owner, hok.block.lo, hok.block.hi, hok.block.pos,
    hok.block.small⟩
  backed := hok.backed
  room := ⟨hok.room.header, hok.room.region⟩
  globals := fun hun => ⟨(hok.globals hun).start, (hok.globals hun).size⟩

theorem retag_self {k : ℕ} (h : (st.disk.chunk c).chunkid = k) :
    st.retag c k = st := by
  have hchunk : (st.retag c k).disk.chunk = st.disk.chunk := by
    rw [(retag_effect st c k).chunk, ← h]
    exact update_eq_self ..
  show Store.mk { st.disk with chunk := (st.retag c k).disk.chunk } st.ram = st
  rw [hchunk]

/-- What `check_if_chunk_exists` finds: nothing valid, and it writes nothing, or a valid
chunk, which gets the id of the name. -/
theorem checkIfChunkExists_cases (hi : StoreInv st rqst.pid) (hid : rqst.chunkId ≠ 0) :
    (checkIfChunkExists rqst st = some (none, []) ∧ (Missing st.disk rqst.pid rqst.chunkId ∨
      ∃ q c, Finds st.disk rqst.pid rqst.chunkId q c ∧ (st.disk.chunk c).valid = .INVALID)) ∨
    ∃ q c, Finds st.disk rqst.pid rqst.chunkId q c ∧ (st.disk.chunk c).valid = .VALID ∧
      checkIfChunkExists rqst st =
        some (some c, [.chunk c fun r => { r with chunkid := genIdFromStr rqst.varName }]) := by
  rcases finds_or_missing hi rqst.chunkId with ⟨q, c, hf⟩ | hm
  · cases hv : (st.disk.chunk c).valid with
    | VALID => exact .inr ⟨q, c, hf, hv, checkIfChunkExists_of_valid hi hid hf hv⟩
    | INVALID =>
      exact .inl ⟨checkIfChunkExists_of_invalid hi hid hf hv, .inr ⟨q, c, hf, hv⟩⟩
  · exact .inl ⟨checkIfChunkExists_of_missing hi hid hm, .inl hm⟩

/-- Whatever is found, the store differs at most by the id of one chunk afterwards. -/
theorem checkIfChunkExists_retag (hi : StoreInv st rqst.pid) (hid : rqst.chunkId ≠ 0) :
    ∃ old ws c k, checkIfChunkExists rqst st = some (old, ws) ∧ applyAll st ws = st.retag c k := by
  rcases checkIfChunkExists_cases hi hid with ⟨hnone, -⟩ | ⟨q, c, -, -, hsome⟩
  · exact ⟨none, [], ⟨⟨0, 0⟩, 0⟩, _, hnone, (retag_self rfl).symm⟩
  · exact ⟨some c, _, c, _, hsome, rfl⟩

/-- `nv_record_chunk` only runs to its end when the block can be cleared. -/
theorem backed_of_alloc (hi : StoreInv st rqst.pid) (hunnamed : rqst.id = 0)
    (hid : genIdFromStr rqst.varName ≠ 0) (hb : BlockOf st rqst.pid nd addr rqst.bytes)
    (hroom : MetaRoom st rqst.pid nd)
    (hglob : Unregistered st rqst.pid nd → GlobalsOf st rqst.pid nd)
    (h : (nvRecordChunk rqst addr st).isSome) : Backed nd addr rqst.bytes := by
  have hcid : rqst.chunkId ≠ 0 := by
    rw [Rqst.chunkId, if_pos hunnamed]
    exact hid
  obtain ⟨old, ws₀, c, k, hexists, hst₀⟩ := checkIfChunkExists_retag hi hcid
  have hi₀ := storeInv_retag hi c k
  have hb₀ : BlockOf (st.retag c k) rqst.pid nd addr rqst.bytes :=
    ⟨hb.node, hb.owner, hb.lo, hb.hi, hb.pos, hb.small⟩
  obtain ⟨q, ws, hfound⟩ := findOrAddMmapobj_found hi₀ hb₀.node hb₀.owner
    ⟨hroom.header, hroom.region⟩ fun hun => ⟨(hglob hun).start, (hglob hun).size⟩
  have hn := hi.ram.node hb.node
  have hrun := nvRecordChunk_run_eq hi.initialized hi.registered hexists
    (by rw [hst₀]; exact locateMmapobjNode_of_block hi₀.ram hb₀) hn.idPos hn.startPos
    (by rw [hst₀]; exact hfound.run) hid
  rw [hst₀] at hrun
  have hb₁ : BlockOf (applyAll (st.retag c k) ws) rqst.pid nd addr rqst.bytes :=
    { hb₀ with node := by rw [hfound.ram]; exact hb₀.node }
  cases hadd : addChunkToMmapobj { rqst with id := genIdFromStr rqst.varName }
      (addr - nd.startAddr) addr q (applyAll (st.retag c k) ws) with
  | none =>
    rw [hadd] at hrun
    rw [hrun] at h
    cases h
  | some a =>
    have hsome := Option.isSome_iff_exists.mpr ⟨a, hadd⟩
    have hback := backed_of_addChunk hfound.ready.inv.ram hsome hb₁
    exact hback

/-- The entry that the second lookup of a re-allocation hits: of the two chunks the
one in the region with the greater id, the new one within one region. -/
inductive Victim (d : Disk) (nd : MmapobjNode) (q₀ q : MmapPtr) (old c : ChunkPtr) :
    MmapPtr → ChunkPtr → Prop
  | new (h : (d.mmapobj q₀).vmaId ≤ nd.mapId) : Victim d nd q₀ q old c q c
  | old (h : nd.mapId < (d.mmapobj q₀).vmaId) : Victim d nd q₀ q old c q₀ old

theorem exists_victim (d : Disk) (nd : MmapobjNode) (q₀ q : MmapPtr) (old c : ChunkPtr) :
    ∃ qv v, Victim d nd q₀ q old c qv v := by
  rcases Nat.lt_or_ge nd.mapId (d.mmapobj q₀).vmaId with h | h
  · exact ⟨q₀, old, .old h⟩
  · exact ⟨q, c, .new h⟩

/-- The victim is the chunk that is found for the id once the new one is there. -/
theorem Victim.finds {id : ℕ} {r : Chunkobj} (hi : StoreInv st p) (hfits : ChunkFits st p q r)
    (hid : r.chunkid = id) (hvma : (st.disk.mmapobj q).vmaId = nd.mapId)
    (hf : Finds st.disk p id q₀ old)
    (hv : Victim st.disk nd q₀ q old (st.disk.shape.nextChunk q) qv v) :
    Finds (st.appendChunk q r).disk p id qv v := by
  obtain ⟨t, ht⟩ := hi.loaded.chunkTree hfits.region hfits.init
  have hentry := entry_appendChunk (r := r) hfits.init ht
  have hrec : ∀ q', ((st.appendChunk q r).disk.mmapobj q').vmaId = (st.disk.mmapobj q').vmaId := by
    intro q'
    obtain ⟨_, _, _, hm⟩ := mmapobj_appendChunk st q r q'
    rw [hm]
  cases hv with
  | new hle =>
    refine ⟨isRegion_appendChunk.mpr hfits.region, by rw [hentry, if_pos ⟨rfl, hid.symm⟩], ?_⟩
    intro q' hq' hlt
    rw [isRegion_appendChunk] at hq'
    rw [hrec, hrec] at hlt
    have hne : q' ≠ q := by
      rintro rfl
      omega
    rw [hentry, if_neg (fun h => hne h.1)]
    exact hf.greatest hq' (by omega)
  | old hlt₀ =>
    have hne₀ : q₀ ≠ q := by
      rintro rfl
      omega
    refine ⟨isRegion_appendChunk.mpr hf.region, ?_, ?_⟩
    · rw [hentry, if_neg (fun h => hne₀ h.1)]
      exact hf.entry
    · intro q' hq' hlt
      rw [isRegion_appendChunk] at hq'
      rw [hrec, hrec] at hlt
      have hne : q' ≠ q := by
        rintro rfl
        omega
      rw [hentry, if_neg (fun h => hne h.1)]
      exact hf.greatest hq' hlt

/-- A re-allocation turns `st` into `st'`: region `q` is found after the writes `ws`,
the new chunk `c` is appended to it, which gives `st₂`, and chunk `v` with entry in
`qv` is deleted. -/
structure Reallocated (st st₂ st' : Store) (rqst : Rqst) (nd : MmapobjNode) (addr : ℕ)
    (q₀ q qv : MmapPtr) (old c v : ChunkPtr) (ws : List Write) : Prop where
  found : RegionFound (st.retag old (genIdFromStr rqst.varName)) rqst.pid nd q ws
  next : c = (applyAll (st.retag old (genIdFromStr rqst.varName)) ws).disk.shape.nextChunk q
  append : st₂ = (applyAll (st.retag old (genIdFromStr rqst.varName)) ws).appendChunk q
    (allocChunk rqst nd addr)
  inv : StoreInv st₂ rqst.pid
  inScan : InScan st₂.disk.shape rqst.pid old
  oldRecord : st₂.disk.chunk old =
    { st.disk.chunk old with chunkid := genIdFromStr rqst.varName }
  victim : Victim st.disk nd q₀ q old c qv v
  finds : Finds st₂.disk rqst.pid (genIdFromStr rqst.varName) qv v
  mapped : st'.ram.chunkmap addr = some c
  effect : Effect st₂ st'
    (update (st₂.copyChunk old c).disk.chunk v
      ((st₂.copyChunk old c).disk.chunk v).invalidate)
    (fun q k => if q = qv ∧ k = genIdFromStr rqst.varName then none else st₂.disk.entry q k)
    (st₂.copyChunk old c).disk.data

theorem Reallocated.storeInv (h : Reallocated st st₂ st' rqst nd addr q₀ q qv old c v ws) :
    StoreInv st' rqst.pid := by
  refine h.effect.storeInv h.inv ?_ ?_
  · intro q' k c' hq' hentry
    split at hentry
    · cases hentry
    · exact ⟨q', k, hq', hentry⟩
  · intro c' hv
    by_cases hcv : c' = v
    · subst hcv
      rw [update_self] at hv
      cases hv
    · rw [update_of_ne hcv, valid_copyChunk] at hv
      exact .inl hv

/-- The ids in the records stay as they are when the contents move. -/
theorem chunkid_replaced (c' : ChunkPtr) :
    ((update (st₂.copyChunk old c).disk.chunk v
      ((st₂.copyChunk old c).disk.chunk v).invalidate) c').chunkid =
      (st₂.disk.chunk c').chunkid := by
  by_cases hcv : c' = v
  · subst hcv
    rw [update_self]
    exact chunkid_copyChunk c'
  · rw [update_of_ne hcv, chunkid_copyChunk]

/-- The copy and the delete change the committed sizes, and the victim becomes invalid. -/
theorem Reallocated.chunk_eq (h : Reallocated st st₂ st' rqst nd addr q₀ q qv old c v ws)
    (c' : ChunkPtr) :
    ∃ z, st'.disk.chunk c' = { st₂.disk.chunk c' with
      commitsz := z, valid := if c' = v then .INVALID else (st₂.disk.chunk c').valid } := by
  obtain ⟨z, hz⟩ : ∃ z, (st₂.copyChunk old c).disk.chunk c' = _ := chunk_copyChunk c'
  rw [h.effect.chunk]
  by_cases hcv : c' = v
  · subst hcv
    rw [update_self, hz, if_pos rfl]
    exact ⟨_, rfl⟩
  · rw [update_of_ne hcv, hz, if_neg hcv]
    exact ⟨z, rfl⟩

theorem Reallocated.ram (h : Reallocated st st₂ st' rqst nd addr q₀ q qv old c v ws) :
    st'.ram.frame = st.ram.frame := by
  rw [h.effect.frame.ram, h.append]
  show Ram.frame { (applyAll (st.retag old _) ws).ram with objnamemap := _ } = _
  rw [h.found.ram]
  rfl

/-- `nv_record_chunk` of a live name. -/
theorem nvRecordChunk_exec_of_live (hi : StoreInv st rqst.pid) (hok : AllocOk st rqst nd addr)
    (hf : Finds st.disk rqst.pid (genIdFromStr rqst.varName) q₀ old)
    (hv : (st.disk.chunk old).valid = .VALID) :
    ∃ st₂ st' q qv c v ws, (nvRecordChunk rqst addr).exec st = some ((), st') ∧
      Reallocated st st₂ st' rqst nd addr q₀ q qv old c v ws ∧
      ∀ {p'}, p' ≠ rqst.pid → SameFiles st.disk st'.disk p' := by
  let id := genIdFromStr rqst.varName
  have hid : id ≠ 0 := hok.named
  have hi₀ := storeInv_retag hi old id
  have hok₀ := allocOk_retag hok old id
  have hn := hi.ram.node hok.block.node
  obtain ⟨q, ws, hfound⟩ :=
    findOrAddMmapobj_found hi₀ hok₀.block.node hok₀.block.owner hok₀.room hok₀.globals
  let st₁ := applyAll (st.retag old id) ws
  have hi₁ : StoreInv st₁ rqst.pid := hfound.ready.inv
  have hb : BlockOf st₁ rqst.pid nd addr rqst.bytes :=
    { hok₀.block with node := by rw [hfound.ram]; exact hok₀.block.node }
  have hfits := chunkFits_alloc hfound.ready hb rfl hok.backed
  let c := st₁.disk.shape.nextChunk q
  let st₂ := st₁.appendChunk q (allocChunk rqst nd addr)
  have hi₂ : StoreInv st₂ rqst.pid := storeInv_appendChunk hi₁ hfits
  -- the old chunk on the way to `st₂`
  have hf₁ : Finds st₁.disk rqst.pid id q₀ old := hfound.grown.finds (finds_retag hf)
  have hscan₁ : InScan st₁.disk.shape rqst.pid old := hi₁.loaded.indexed hf₁.indexed
  have hscan₂ : InScan st₂.disk.shape rqst.pid old := by
    obtain ⟨q', hq', hqc⟩ := hscan₁
    exact ⟨q', isRegion_appendChunk.mpr hq', isChunk_appendChunk.mpr (.inl hqc)⟩
  have hold₂ : st₂.disk.chunk old = { st.disk.chunk old with chunkid := id } := by
    have hscan₀ : InScan (st.retag old id).disk.shape rqst.pid old := hfound.grown.inScan.mp hscan₁
    have hchunk : st₁.disk.chunk old = (st.retag old id).disk.chunk old := hfound.grown.chunk hscan₀
    show (st₁.appendChunk q _).disk.chunk old = _
    rw [chunk_appendChunk hi₁.shape hfound.ready.region hscan₁, hchunk,
      (retag_effect st old id).chunk, update_self]
  have hcrec : st₂.disk.chunk c = allocChunk rqst nd addr := chunk_appendChunk_self
  have hcscan : InScan st₂.disk.shape rqst.pid c :=
    ⟨q, isRegion_appendChunk.mpr hfound.ready.region, nextChunk_isChunk⟩
  -- the second lookup
  obtain ⟨qv, v, hvic⟩ := exists_victim st₁.disk nd q₀ q old c
  have hfv : Finds st₂.disk rqst.pid id qv v :=
    hvic.finds hi₁ hfits rfl hfound.ready.vmaId hf₁
  have hvid : (st₂.disk.chunk v).chunkid = id := by
    cases hvic with
    | new _ => rw [hcrec]; rfl
    | old _ => rw [hold₂]
  obtain ⟨st', hexec, heff, hfiles⟩ := replaceChunk_exec hi₂ hid hscan₂ (by rw [hold₂]; exact hv)
    hcscan (by rw [hcrec]; rfl) hfv hvid
  have hvma : (st₁.disk.mmapobj q₀).vmaId = (st.disk.mmapobj q₀).vmaId :=
    congrArg Mmapobj.vmaId (hfound.grown.mmapobj hf.region)
  refine ⟨st₂, st'.apply (chunkmapWrite addr c), q, qv, c, v, ws, ?_,
    ⟨hfound, rfl, rfl, hi₂, hscan₂,
    hold₂, ?_, hfv, update_self .., ?_⟩, ?_⟩
  · have hexists := checkIfChunkExists_of_valid hi (by rw [hok.chunkId]; exact hid)
      (by rw [hok.chunkId]; exact hf) hv
    have hadd := addChunkToMmapobj_alloc hfound.ready hb rfl hok.backed
      (bytes_ne_nil_of_id hok.named)
    have hrun := nvRecordChunk_run_eq hi.initialized hi.registered hexists
      (locateMmapobjNode_of_block hi₀.ram hok₀.block) hn.idPos hn.startPos hfound.run hok.named
    have hst₁ : applyAll (applyAll st [Write.chunk old fun r => { r with chunkid := id }]) ws =
      st₁ :=
      rfl
    rw [hst₁, hadd, Option.bind_some] at hrun
    have hst₂ : applyAll st ([Write.chunk old fun r => { r with chunkid := id }] ++ (ws ++
        (appendWrites q c (allocChunk rqst nd addr) ++ [countWrite q]))) = st₂ := by
      rw [applyAll_append, applyAll_append, applyAll_cons, applyAll_nil]
      exact applyAll_appendWrites st₁ q (allocChunk rqst nd addr)
    rw [exec, hrun, Option.map_map]
    rw [exec, ← hst₂] at hexec
    obtain ⟨x, hx, hxs⟩ := Option.map_eq_some_iff.mp hexec
    rw [hx]
    obtain ⟨-, hst'⟩ := Prod.mk.inj hxs
    simp only [Option.map_some, comp_apply]
    rw [applyAll_append, applyAll_append, hst']
    rfl
  · cases hvic with
    | new h => exact .new (hvma ▸ h)
    | old h => exact .old (hvma ▸ h)
  · exact ⟨heff.frame.ram_apply fun _ => rfl, heff.chunk, heff.entry, heff.data⟩
  · intro p' hne
    have hretag : SameFiles st.disk (st.retag old id).disk p' :=
      sameFiles_applyChunk hscan₂.pid_eq _ hne
    have happend : SameFiles st₁.disk st₂.disk p' :=
      sameFiles_appendChunk hfound.ready.region.pid_eq hne
    exact ((hretag.trans (hfound.files hne)).trans happend).trans (hfiles hne)

end Live
