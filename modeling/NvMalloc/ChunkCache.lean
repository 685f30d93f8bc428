/-
# The chunk-id cache

With `_NVRAM_OPTIMIZE` the store keeps `chunkmap_cache`, from ids to chunks.  It is keyed by ids
alone, and `nv_map_read` tests it the wrong way around: it searches the trees when the id is
cached and uses the (null) cache entry when it is not.  So with requests of one process, and as
long as no id is in two regions, `get_chunk` agrees with the build without the cache, and
`nv_map_read` does so exactly for the ids that have an entry in a tree; for all others it fails
an assertion instead of returning `NULL`.

The same flag turns on the rings of regions and of their sizes, which decide the region of a new
chunk.  An allocation is as without them when the ring has the region of `map_tree` or none, and
`get_vma_size` the size of `proc_vmas`.
-/
import NvMalloc.Indexes
import NvMalloc.Optimized
import NvMalloc.Regions
import NvMalloc.Reloads

open WriteM Beside Function Option

/-- On the request `rqst` both builds return the same, or both fail an assertion. -/
structure CacheAgrees (s : CachedStore) (place : DataFile → ℕ) (rqst : Rqst) : Prop where
  getChunk : ((getChunkIn optimized rqst).exec s).map Prod.fst =
    ((getChunk rqst).exec s.store).map Prod.fst
  read : ((nvMapReadIn optimized place rqst).exec s).map Prod.fst =
    ((nvMapRead place rqst).exec s.store).map Prod.fst

/-! ## The cache and the trees -/

/-- The cached chunks are `cache`, and the cached process, if there is one, is `p`. -/
structure Caches.Are (t : Caches) (p : ℕ) (cache : ℕ → Option ChunkPtr) : Prop where
  chunks : t.chunkmapCache = cache
  proc : ∀ x, t.prevProcObj = some x → x = p

/-- The cache has the entries of the trees, every id is in one region at most, and no other
process is cached. -/
structure CacheInv (p : ℕ) (s : CachedStore) : Prop where
  inv : RunInv s.store p
  ids : ∀ {c}, InScan s.store.disk.shape p c → (s.store.disk.chunk c).chunkid ≠ 0
  cached : ∀ {k c}, s.side.chunkmapCache k = some c ↔ ∃ q, EntryAt s.store.disk p q k c
  single : ∀ {k q q' c c'}, EntryAt s.store.disk p q k c → EntryAt s.store.disk p q' k c' → q = q'
  proc : ∀ x, s.side.prevProcObj = some x → x = p

/-- At most the cached process has changed. -/
structure SameButProc (p : ℕ) (t t' : Caches) : Prop where
  are : t'.Are p t.chunkmapCache
  rings : SameRings t t'

theorem SameButProc.trans {p : ℕ} {t t' t'' : Caches} (h : SameButProc p t t')
    (h' : SameButProc p t' t'') : SameButProc p t t'' :=
  ⟨⟨h'.are.chunks.trans h.are.chunks, h'.are.proc⟩, IsTrans.trans _ _ _ h.rings h'.rings⟩

section Lookups

variable {p k : ℕ} {s : CachedStore} {q : MmapPtr} {c : ChunkPtr} {rqst : Rqst} {t : Caches}
  {β : Type} {S : β → CachedStore → Prop}

section

variable (h : CacheInv p s)
include h

theorem CacheInv.are : s.side.Are p s.side.chunkmapCache := ⟨rfl, h.proc⟩

theorem CacheInv.sameButProc : SameButProc p s.side s.side :=
  ⟨h.are, refl s.side⟩

/-- The invariant does not depend on the rest of the caches. -/
theorem CacheInv.withCaches (ht : t.Are p s.side.chunkmapCache) : CacheInv p ⟨s.store, t⟩ where
  inv := h.inv
  ids := h.ids
  cached := by
    intro k c
    show t.chunkmapCache k = some c ↔ _
    rw [ht.chunks]
    exact h.cached
  single := h.single
  proc := ht.proc

theorem CacheInv.finds (he : EntryAt s.store.disk p q k c) : Finds s.store.disk p k q c := by
  refine ⟨he.1, he.2, ?_⟩
  intro q' hq' hlt
  by_contra hne
  obtain ⟨c', hc'⟩ := Option.ne_none_iff_exists'.mp hne
  obtain rfl : q = q' := h.single he ⟨hq', hc'⟩
  exact absurd hlt (lt_irrefl _)

theorem CacheInv.cache_eq_some :
    s.side.chunkmapCache k = some c ↔ ∃ q, Finds s.store.disk p k q c := by
  rw [h.cached]
  exact ⟨fun ⟨q, he⟩ => ⟨q, h.finds he⟩, fun ⟨q, hf⟩ => ⟨q, hf.entryAt⟩⟩

theorem CacheInv.cache_eq_none (hm : Missing s.store.disk p k) : s.side.chunkmapCache k = none := by
  by_contra hne
  obtain ⟨c, hc⟩ := Option.ne_none_iff_exists'.mp hne
  obtain ⟨q, hf⟩ := h.cache_eq_some.mp hc
  exact hf.not_missing hm

end

theorem usableChunk_eq_some (hc : usableChunk s k = some c) : s.side.chunkmapCache k = some c := by
  rw [usableChunk, filter_eq_some_iff] at hc
  exact hc.1

/-- `find_proc_obj` finds the process, which is then cached. -/
theorem CacheInv.findProcObj (h : CacheInv p s) : ∃ t, SameButProc p s.side t ∧
    cachedFindProcObj p s = (some p, t) := by
  have hreg := h.inv.inv.registered
  unfold cachedFindProcObj
  split
  · next hcached =>
    obtain ⟨x, hx⟩ := isSome_iff_exists.mp hcached.2.2
    refine ⟨s.side, h.sameButProc, ?_⟩
    rw [hx, h.proc x hx]
  · rw [hreg]
    exact ⟨{ s.side with prevProcObj := some p }, ⟨⟨rfl, fun x hx => (some.inj hx).symm⟩,
      rfl, rfl⟩, rfl⟩

theorem tracks_findProcObj (h : CacheInv p s) (hp : rqst.pid = p) {f : Option ℕ → CachedM β}
    {m : NvM β} (hf : ∀ t, SameButProc p s.side t → Tracks S (f (some p)) m ⟨s.store, t⟩) :
    Tracks S (ask (optimized.findProcObj rqst.pid) >>= f) m s := by
  obtain ⟨t, ht, hfind⟩ := h.findProcObj
  have hsome : optimized.findProcObj rqst.pid s = (some p, t) := by
    rw [hp]
    exact hfind
  refine tracks_ask_bind ?_
  rw [hsome]
  exact hf t ht

/-- For requests of the process, `get_chunk` with the cache is `get_chunk` without it. -/
theorem tracks_getChunk (h : CacheInv p s) (hp : rqst.pid = p)
    {Q : Option ChunkPtr → CachedStore → Prop}
    (hQ : ∀ a ws t, SameButProc p s.side t → getChunk rqst s.store = some (a, ws) →
      Q a ⟨applyAll s.store ws, t⟩) :
    Tracks Q (getChunkIn optimized rqst) (getChunk rqst) s := by
  subst hp
  have hi := h.inv.inv
  have htracks : Tracks (fun _ s' => SameButProc rqst.pid s.side s'.side)
      (getChunkIn optimized rqst) (getChunk rqst) s := by
    refine tracks_assert_bind fun hid => tracks_look ?_
    cases hc : optimized.cachedChunk rqst.chunkId s with
    | some c =>
      -- the cached chunk is the one that the trees have
      obtain ⟨q, hf⟩ := h.cache_eq_some.mp (usableChunk_eq_some hc)
      refine tracks_pure_run ?_ h.sameButProc
      have hget := getChunk_of_finds hi hid hf
      have hassert : (assert (rqst.chunkId ≠ 0) : NvM Unit) s.store = some ((), []) := if_pos hid
      rw [getChunk, run_bind_some hassert] at hget
      simpa only [applyAll_nil, List.nil_append, Option.map_id'] using hget
    | none =>
      refine tracks_assert_bind fun _ => tracks_findProcObj h rfl fun t ht => tracks_state ?_
      rw [hi.registered]
      refine tracks_inStore_bind fun found ws _ => ?_
      cases found with
      | none => exact tracks_pure ht
      | some q => exact tracks_state_bind (tracks_lift fun _ _ => ht)
  intro a ws hrun
  obtain ⟨hget, hside⟩ := htracks a ws hrun
  refine ⟨hget, ?_⟩
  have hsame : applyAll s ws = ⟨applyAll s.store (storeWrites ws), (applyAll s ws).side⟩ :=
    Beside.ext (store_applyAll s ws) rfl
  rw [hsame]
  exact hQ a _ _ hside hget

end Lookups

/-! ## The cached build tracks the other one -/

section Tracks

variable {p : ℕ} {s : CachedStore} {q : MmapPtr} {c : ChunkPtr} {rqst : Rqst}

theorem tracks_nvCommitLen (h : CacheInv p s) (hp : rqst.pid = p) (size : ℕ) :
    Tracks (fun _ s' => s'.side.Are p s.side.chunkmapCache) (nvCommitLenIn optimized rqst size)
      (nvCommitLen rqst size) s := by
  refine tracks_bind (tracks_getChunk h hp fun found ws t ht _ => tracks_lift_bind fun c _ => ?_)
  exact tracks_emit_bind (tracks_state_bind (tracks_assert_bind fun _ => tracks_pure ht.are))

theorem tracks_nvDelete_none (h : CacheInv p s) (hp : rqst.pid = p)
    (hget : getChunk rqst s.store = some (none, [])) :
    Tracks (fun _ s' => s'.side.Are p s.side.chunkmapCache) (nvDeleteIn optimized rqst)
      (nvDelete rqst) s := by
  subst hp
  refine tracks_assert_bind fun _ => tracks_findProcObj h rfl fun t ht => tracks_state ?_
  rw [h.inv.inv.registered]
  refine tracks_lift_bind fun proc _ => ?_
  refine tracks_bind (tracks_getChunk (h.withCaches ht.are) rfl fun found ws t' ht' hrun => ?_)
  rw [hget] at hrun
  cases hrun
  exact tracks_pure (ht.trans ht').are

/-- The end of `nv_delete`, once the region of the chunk's id is found. -/
theorem tracks_dropEntry {Q : ℤ → CachedStore → Prop} (chunkid : ℕ) (q : MmapPtr) (name : ObjName)
    (hQ : ∀ st, Q 0 ⟨st, s.side⟩) :
    Tracks Q
      (do
        let s ← state
        match (s.store.disk.mmapobj q).chunkobjTree with
        | none => pure ()
        | some t =>
          let _ ← lift (t.deref s.store.ram.run)
          emit (.inl (.mmapobj q fun m => m.deleteEntry chunkid))
        emit (.inl (.ram fun r => { r with objnamemap := r.objnamemap.erase name }))
        return (0 : ℤ) : CachedM ℤ)
      (do
        let st ← state
        match (st.disk.mmapobj q).chunkobjTree with
        | none => pure ()
        | some t =>
          let _ ← lift (t.deref st.ram.run)
          emit (.mmapobj q fun m => m.deleteEntry chunkid)
        emit (.ram fun r => { r with objnamemap := r.objnamemap.erase name })
        return (0 : ℤ)) s := by
  refine tracks_state_bind ?_
  cases (s.store.disk.mmapobj q).chunkobjTree with
  | none => exact tracks_emit_bind (tracks_pure (hQ _))
  | some t =>
    exact tracks_lift_bind fun _ _ => tracks_emit_bind (tracks_emit_bind (tracks_pure (hQ _)))

theorem tracks_nvDelete_some (h : CacheInv p s) (hp : rqst.pid = p)
    (hget : getChunk rqst s.store = some (some c, []))
    (hset : (s.store.disk.chunk c).length ≠ 0 ∧ (s.store.disk.chunk c).chunkid ≠ 0) :
    Tracks (fun _ s' => s'.side.Are p
        (update s.side.chunkmapCache (s.store.disk.chunk c).chunkid none))
      (nvDeleteIn optimized rqst) (nvDelete rqst) s := by
  subst hp
  refine tracks_assert_bind fun _ => tracks_findProcObj h rfl fun t ht => tracks_state ?_
  rw [h.inv.inv.registered]
  refine tracks_lift_bind fun proc _ => ?_
  refine tracks_bind (tracks_getChunk (h.withCaches ht.are) rfl fun found ws t' ht' hrun => ?_)
  rw [hget] at hrun
  cases hrun
  have hsame := (ht.trans ht').are
  have herase : (optimized.deletingChunk c ⟨s.store, t'⟩).Are rqst.pid
      (update s.side.chunkmapCache (s.store.disk.chunk c).chunkid none) := by
    have hif : optimized.deletingChunk c ⟨s.store, t'⟩ =
        { t' with
          chunkmapCache := update t'.chunkmapCache (s.store.disk.chunk c).chunkid none } :=
      if_pos hset
    rw [hif, ← hsame.chunks]
    exact ⟨rfl, hsame.proc⟩
  refine tracks_note_bind (tracks_emit_bind (tracks_emit_bind (tracks_state_bind ?_)))
  refine tracks_inStore_bind fun region ws _ => ?_
  cases region with
  | none => exact tracks_pure herase
  | some q => exact tracks_dropEntry _ q _ fun _ => herase

/-- `add_chunkobj` caches the chunk under its id. -/
theorem tracks_addChunkobj (hs : s.side.Are p s.side.chunkmapCache) :
    Tracks (fun _ s' => s'.store.disk.chunk = s.store.disk.chunk ∧ s'.side.Are p
        (update s.side.chunkmapCache (s.store.disk.chunk c).chunkid (some c)))
      (addChunkobjIn optimized q c) (addChunkobj q c) s := by
  have hadd : Tracks (fun _ s' => s'.store.disk.chunk = s.store.disk.chunk ∧ s'.side = s.side)
      (inStore (addChunkobj q c)) (addChunkobj q c) s :=
    tracks_inStore fun a ws hw => ⟨chunk_of_addChunkobj (exec_eq_some hw), rfl⟩
  refine hadd.then_note fun _ s₁ ⟨hchunk, hside⟩ => ⟨hchunk, ?_, ?_⟩
  · show update s₁.side.chunkmapCache (s₁.store.disk.chunk c).chunkid (some c) = _
    rw [hchunk, hside]
  · show ∀ x, s₁.side.prevProcObj = some x → x = p
    rw [hside]
    exact hs.proc

/-- `nv_rename` of a chunk that is found caches it under the new id. -/
theorem tracks_nvRename_some (h : CacheInv p s) (hp : rqst.pid = p) (dest : ObjName)
    (hget : getChunk rqst s.store = some (some c, []))
    (hsearch : findMmapobjFromChunkid (s.store.disk.chunk c).chunkid p s.store = some (some q, []))
    (hlen : (s.store.disk.chunk c).length ≠ 0) :
    Tracks (fun _ s' => s'.side.Are p
        (update s.side.chunkmapCache (genIdFromStr dest) (some c)))
      (nvRenameIn optimized rqst dest) (nvRename rqst dest) s := by
  subst hp
  refine tracks_bind (tracks_getChunk h rfl fun found ws t ht hrun => ?_)
  rw [hget] at hrun
  cases hrun
  refine tracks_state_bind (tracks_findProcObj (h.withCaches ht.are) rfl fun t' ht' => ?_)
  have hsame := (ht.trans ht').are
  show Tracks _ _ (lift (s.store.findProcess rqst.pid) >>= _) _
  rw [h.inv.inv.registered]
  refine tracks_lift_bind fun proc hproc => ?_
  obtain rfl := some.inj hproc
  refine tracks_inStore_bind fun region ws hrun => ?_
  have hregion := hsearch.symm.trans hrun
  cases hregion
  have hlen' : ((⟨applyAll s.store [], t⟩ : CachedStore).store.disk.chunk c).length ≠ 0 := hlen
  simp only [hlen', ne_eq, not_false_eq_true, if_true]
  refine tracks_emit_bind (tracks_emit_bind (tracks_emit_bind (tracks_bind ?_)))
  refine (tracks_addChunkobj ⟨rfl, hsame.proc⟩).mono fun _ s' hs' =>
    tracks_emit_bind (tracks_emit ⟨?_, hs'.2.proc⟩)
  have hid : ((((s.store.apply (.chunk c fun r => { r with chunkid := genIdFromStr dest })).apply
      (.chunk c fun r => { r with objname := dest })).apply
      (.chunk c fun r => { r with valid := .VALID })).disk.chunk c).chunkid =
      genIdFromStr dest := by
    simp [Store.apply, Disk.apply]
  refine hs'.2.chunks.trans ?_
  rw [← hsame.chunks]
  exact congrArg (fun k => update t'.chunkmapCache k (some c)) hid

/-- `nv_rename` when there is no chunk, or no region for its id. -/
theorem tracks_nvRename_none (h : CacheInv p s) (hp : rqst.pid = p) (dest : ObjName)
    (hget : getChunk rqst s.store = some (none, []) ∨
      ∃ c, getChunk rqst s.store = some (some c, []) ∧
      findMmapobjFromChunkid (s.store.disk.chunk c).chunkid p s.store = some (none, [])) :
    Tracks (fun _ s' => s'.side.Are p s.side.chunkmapCache) (nvRenameIn optimized rqst dest)
      (nvRename rqst dest) s := by
  subst hp
  refine tracks_bind (tracks_getChunk h rfl fun found ws t ht hrun => ?_)
  rcases hget with hget | ⟨c, hget, hsearch⟩
  · rw [hget] at hrun
    cases hrun
    exact tracks_pure ht.are
  · rw [hget] at hrun
    cases hrun
    refine tracks_state_bind (tracks_findProcObj (h.withCaches ht.are) rfl fun t' ht' => ?_)
    show Tracks _ _ (lift (s.store.findProcess rqst.pid) >>= _) _
    rw [h.inv.inv.registered]
    refine tracks_lift_bind fun proc hproc => ?_
    obtain rfl := some.inj hproc
    refine tracks_inStore_bind fun region ws hrun => ?_
    have hregion := hsearch.symm.trans hrun
    cases hregion
    exact tracks_pure (ht.trans ht').are

/-- `check_if_chunk_exists` of a name that is not live. -/
theorem tracks_checkIfChunkExists (h : CacheInv p s) (hp : rqst.pid = p)
    {Q : Option ChunkPtr → CachedStore → Prop}
    (hfree : checkIfChunkExists rqst s.store = some (none, []))
    (hQ : ∀ t, SameButProc p s.side t → Q none ⟨s.store, t⟩) :
    Tracks Q (checkIfChunkExistsIn optimized rqst) (checkIfChunkExists rqst) s := by
  have hside : Tracks (fun _ s' => SameButProc p s.side s'.side)
      (checkIfChunkExistsIn optimized rqst) (checkIfChunkExists rqst) s := by
    refine tracks_bind (tracks_getChunk h hp fun found ws t ht _ => ?_)
    cases found with
    | none => exact tracks_pure ht
    | some c =>
      refine tracks_state_bind ?_
      dsimp only
      split
      · exact tracks_emit_bind (tracks_pure ht)
      · exact tracks_pure ht
  intro a ws hrun
  obtain ⟨hcheck, hs⟩ := hside a ws hrun
  refine ⟨hcheck, ?_⟩
  rw [hfree] at hcheck
  obtain ⟨rfl, hws⟩ := Prod.mk.inj (some.inj hcheck)
  have hsame : applyAll s ws = ⟨s.store, (applyAll s ws).side⟩ := by
    refine Beside.ext ?_ rfl
    rw [store_applyAll, ← hws]
    rfl
  rw [hsame]
  exact hQ _ hs

/-- What the caches say about the region of an address is what the trees and `proc_vmas` say. -/
structure LocatesAs (p : ℕ) (s : CachedStore) (addr : ℕ) (nd : MmapobjNode) : Prop where
  ring : ∀ q ∈ s.side.mmaps.getFrmMmapCache addr, IsRegion s.store.disk.shape p q ∧
    (s.store.disk.mmapobj q).vmaId = nd.mapId ∧ (s.store.disk.mmapobj q).dataAddr = nd.startAddr
  size : Unregistered s.store p nd →
    optimized.getVmaSize nd.mapId s = s.store.ram.procVmas nd.mapId

variable {addr : ℕ} {nd : MmapobjNode}

theorem LocatesAs.withCaches {t : Caches} (h : LocatesAs p s addr nd) (ht : SameRings s.side t) :
    LocatesAs p ⟨s.store, t⟩ addr nd where
  ring := by
    show ∀ q ∈ t.mmaps.getFrmMmapCache addr, _
    rw [ht.1]
    exact h.ring
  size hnew := by
    show (getVmaSize t.vmas _).toNat = _
    rw [ht.2]
    exact h.size hnew

theorem Store.mapTreePtr_of_locate {st : Store} (h : st.locateMmapobjNode addr = some nd) :
    st.mapTreePtr = some st.ram.mapTree := by
  unfold Store.mapTreePtr
  split
  · next hroot =>
    rw [Store.locateMmapobjNode, Rbtree.findBy, hroot] at h
    cases h
  · rfl

/-- `locate_mmapobj_node` gives the id and the start of the range in the tree. -/
theorem LocatesAs.locate (h : LocatesAs p s addr nd)
    (hnd : s.store.locateMmapobjNode addr = some nd) :
    cachedLocateMmapobjNode addr 0 s =
      some (nd.mapId, nd.startAddr, s.side.mmaps.getFrmMmapCache addr) := by
  unfold cachedLocateMmapobjNode
  cases hring : s.side.mmaps.getFrmMmapCache addr with
  | some q =>
    obtain ⟨-, hid, hstart⟩ := h.ring q hring
    simp only [hid, hstart]
  | none =>
    have hfind : s.store.ram.mapTree.findBy (compRange addr) = some nd := hnd
    simp [Store.mapTreePtr_of_locate hnd, locateMmapobjId, hfind]

theorem tracks_addMmapobjToProc (pid vmaId bytes dataAddr : ℕ)
    (hs : s.side.Are p s.side.chunkmapCache) :
    Tracks (fun _ s' => s'.side.Are p s.side.chunkmapCache)
      (addMmapobjToProcIn optimized p pid vmaId bytes dataAddr)
      (addMmapobjToProc p pid vmaId bytes dataAddr) s := by
  refine tracks_inStore_bind fun q ws _ => tracks_bind ?_
  have hadd : Tracks (fun _ s' => s'.side = s.side) (inStore (addMmapobj q p)) (addMmapobj q p)
      ⟨applyAll s.store ws, s.side⟩ := tracks_inStore fun _ _ _ => rfl
  refine hadd.then_note fun _ s₁ hs₁ => tracks_emit_bind (tracks_pure ?_)
  show (optimized.addedMmapobj q s₁).Are p _
  rw [← hs₁] at hs ⊢
  exact ⟨rfl, hs.proc⟩

/-- The region of an allocation: from the ring, or as without it. -/
theorem tracks_findOrAddMmapobj (h : CacheInv p s) (hloc : LocatesAs p s addr nd) :
    Tracks (fun _ s' => s'.side.Are p s.side.chunkmapCache)
      (findOrAddMmapobjIn optimized p p nd.mapId nd.startAddr (s.side.mmaps.getFrmMmapCache addr))
      (findOrAddMmapobj p p nd) s := by
  obtain ⟨r, hrun, hr⟩ := findMmapobj_run h.inv.inv.loaded nd.mapId
  cases hring : s.side.mmaps.getFrmMmapCache addr with
  | some q =>
    -- the process knows the region that the ring has
    obtain ⟨hq, hid, -⟩ := hloc.ring q hring
    rw [(hr q).mpr ⟨hq, hid⟩] at hrun
    refine tracks_run_bind hrun ?_
    exact tracks_state_bind (tracks_assert_bind fun _ => tracks_pure h.are)
  | none =>
    refine tracks_inStore_bind fun found ws hfound => ?_
    rw [hrun] at hfound
    cases hfound
    cases r with
    | some q => exact tracks_state_bind (tracks_assert_bind fun _ => tracks_pure h.are)
    | none =>
      refine tracks_state_bind ?_
      have hsize := hloc.size fun hq hid => nomatch (hr _).mpr ⟨hq, hid⟩
      show Tracks _ (addMmapobjToProcIn optimized p p nd.mapId (optimized.getVmaSize nd.mapId s) _)
        _ s
      rw [hsize]
      exact tracks_addMmapobjToProc _ _ _ _ h.are

/-- `nv_record_chunk` of a name that is not live caches the new chunk. -/
theorem tracks_nvRecordChunk (h : CacheInv p s) (hp : rqst.pid = p)
    (hfree : checkIfChunkExists rqst s.store = some (none, []))
    (hnd : s.store.locateMmapobjNode addr = some nd) (hloc : LocatesAs p s addr nd) :
    Tracks (fun _ s' => ∃ c, s'.store.ram.chunkmap addr = some c ∧ s'.side.Are p
        (update s.side.chunkmapCache (s'.store.disk.chunk c).chunkid (some c)))
      (nvRecordChunkIn optimized rqst addr) (nvRecordChunk rqst addr) s := by
  subst hp
  have hreg := h.inv.inv.findProcess
  refine tracks_state_bind (tracks_assert_bind fun _ => tracks_bind ?_)
  refine tracks_findProcObj h rfl fun t₁ ht₁ => tracks_state ?_
  rw [hreg]
  refine tracks_pure (tracks_bind ?_)
  refine tracks_checkIfChunkExists (h.withCaches ht₁.are) rfl hfree fun t₂ ht₂ => ?_
  have ht := ht₁.trans ht₂
  have hloc₂ : LocatesAs rqst.pid ⟨s.store, t₂⟩ addr nd := hloc.withCaches ht.rings
  refine tracks_state_bind ?_
  show Tracks _ (lift (cachedLocateMmapobjNode addr 0 ⟨s.store, t₂⟩) >>= _)
    (lift (s.store.locateMmapobjNode addr) >>= _) _
  rw [hloc₂.locate hnd, hnd]
  show Tracks _ (pure (nd.mapId, nd.startAddr, t₂.mmaps.getFrmMmapCache addr) >>= _)
    (pure nd >>= _) _
  rw [pure_bind_eq, pure_bind_eq]
  have hoffset : subUlong addr nd.startAddr = addr - nd.startAddr :=
    if_pos (startAddr_le_of_locate h.inv.inv.ram hnd)
  simp only [hoffset]
  refine tracks_assert_bind fun _ => tracks_assert_bind fun _ => tracks_bind ?_
  refine (tracks_findOrAddMmapobj (h.withCaches ht.are) hloc₂).mono fun q s₁ hs₁ => ?_
  refine tracks_assert_bind fun _ => tracks_note_bind (tracks_bind ?_)
  refine tracks_inStore_bind fun c ws' _ => tracks_bind ?_
  refine Tracks.mono (tracks_addChunkobj ⟨rfl, hs₁.proc⟩) fun _ s₂ hs₂ => ?_
  refine tracks_pure ?_
  refine tracks_emit_bind (tracks_bind (tracks_pure (tracks_emit ⟨c, ?_, ?_, hs₂.2.proc⟩)))
  · exact update_self ..
  · have hcache : s₁.side.chunkmapCache = s.side.chunkmapCache :=
      hs₁.chunks.trans ht.are.chunks
    refine hs₂.2.chunks.trans ?_
    rw [← hs₂.1, ← hcache]
    rfl

end Tracks

/-! ## The cache after a restart -/

/-- What a load adds to the caches: the regions to the ring, and the chunks under their ids. -/
def cacheHooks : LoadHooks optimized where
  region q r t := { t with mmaps := t.mmaps.addToMmapCache q r }
  chunk c r t := { t with chunkmapCache := update t.chunkmapCache r.chunkid (some c) }
  region_eq _ _ := rfl
  chunk_eq {c s _} h :=
    congrArg (fun k => { s.side with
      chunkmapCache := update s.side.chunkmapCache k (some c) })
      (congrArg Chunkobj.chunkid h :)

/-- The cache after the chunks `cs` are restored. -/
def fillCache (d : Disk) (cs : List ChunkPtr) (cache : ℕ → Option ChunkPtr) :
    ℕ → Option ChunkPtr :=
  cs.foldl (fun cache c => update cache (d.chunk c).chunkid (some c)) cache

/-- The cache has the chunks that are restored, if they have different ids. -/
theorem fillCache_eq_some {d : Disk} {cs : List ChunkPtr} {k : ℕ} {c : ChunkPtr}
    (h : ∀ c ∈ cs, ∀ c' ∈ cs, (d.chunk c).chunkid = (d.chunk c').chunkid → c = c') :
    fillCache d cs (fun _ => none) k = some c ↔ c ∈ cs ∧ (d.chunk c).chunkid = k := by
  induction cs using List.reverseRecOn with
  | nil => simp [fillCache]
  | append_singleton cs c₀ ih =>
    have hfill : fillCache d (cs ++ [c₀]) (fun _ => none) =
        update (fillCache d cs fun _ => none) (d.chunk c₀).chunkid (some c₀) := by
      rw [fillCache, List.foldl_append]
      rfl
    have hc₀ : c₀ ∈ cs ++ [c₀] := List.mem_append_right _ (List.mem_singleton_self c₀)
    rw [hfill]
    by_cases hk : k = (d.chunk c₀).chunkid
    · rw [hk, update_self, some.injEq]
      constructor
      · rintro rfl
        exact ⟨hc₀, rfl⟩
      · rintro ⟨hc, hid⟩
        exact (h c hc c₀ hc₀ hid).symm
    · have hold := ih fun c hc c' hc' => h c (List.mem_append_left _ hc) c'
        (List.mem_append_left _ hc')
      rw [update_of_ne hk, hold, List.mem_append, List.mem_singleton]
      constructor
      · rintro ⟨hc, hid⟩
        exact ⟨.inl hc, hid⟩
      · rintro ⟨hc | rfl, hid⟩
        · exact ⟨hc, hid⟩
        · exact absurd hid.symm hk

theorem restored_cacheHooks (d : Disk) (cs : List ChunkPtr) (t : Caches) :
    cacheHooks.restored d cs t =
      { t with chunkmapCache := fillCache d (d.validOf cs) t.chunkmapCache } := by
  unfold LoadHooks.restored
  induction d.validOf cs generalizing t with
  | nil => rfl
  | cons c cs ih => exact ih _

/-- A load fills the cache, and leaves the cached process alone. -/
theorem loaded_cacheHooks (d : Disk) (qs : List MmapPtr) (t : Caches) :
    (cacheHooks.loaded d qs t).chunkmapCache =
        fillCache d (d.restoredIn qs) t.chunkmapCache ∧
      (cacheHooks.loaded d qs t).prevProcObj = t.prevProcObj := by
  induction qs generalizing t with
  | nil => exact ⟨rfl, rfl⟩
  | cons q qs ih =>
    have hrestored := restored_cacheHooks d (d.mmapobj q).scan (cacheHooks.region q (d.mmapobj q) t)
    obtain ⟨hcache, hproc⟩ := ih (cacheHooks.restored d (d.mmapobj q).scan
      (cacheHooks.region q (d.mmapobj q) t))
    refine ⟨hcache.trans ?_, (hproc.trans (congrArg Caches.prevProcObj hrestored) :)⟩
    rw [hrestored]
    exact List.foldl_append.symm

/-! ## Reads -/

section Reads

variable {p : ℕ} {s : CachedStore} {q : MmapPtr} {c : ChunkPtr} {rqst : Rqst} (h : CacheInv p s)
include h

theorem CacheInv.usable {k : ℕ} (hc : s.side.chunkmapCache k = some c) :
    usableChunk s k = some c := by
  obtain ⟨q, hf⟩ := h.cache_eq_some.mp hc
  have hi := h.inv.inv
  rw [usableChunk, hc, filter_some, if_pos]
  simp only [decide_eq_true_eq]
  exact ⟨hi.length_ne hf.indexed, h.ids (hi.loaded.indexed hf.indexed)⟩

theorem CacheInv.not_usable {k : ℕ} (hm : Missing s.store.disk p k) : usableChunk s k = none := by
  rw [usableChunk, h.cache_eq_none hm]
  rfl

/-- For requests of the process `get_chunk` returns the same in both builds. -/
theorem CacheInv.getChunk_agrees (hp : rqst.pid = p) :
    ((getChunkIn optimized rqst).exec s).map Prod.fst =
      ((getChunk rqst).exec s.store).map Prod.fst := by
  subst hp
  have hi := h.inv.inv
  by_cases hid : rqst.chunkId = 0
  · simp [getChunkIn, getChunk, exec_bind, hid]
  rcases finds_or_missing hi rqst.chunkId with ⟨q, c, hf⟩ | hm
  · have husable : optimized.cachedChunk rqst.chunkId s = some c :=
      h.usable (h.cache_eq_some.mpr ⟨q, hf⟩)
    rw [exec_of_run_nil (getChunk_of_finds hi hid hf)]
    simp [getChunkIn, exec_bind, hid, husable]
  · have husable : optimized.cachedChunk rqst.chunkId s = none := h.not_usable hm
    obtain ⟨t, -, hfind⟩ := h.findProcObj
    have hfind' : optimized.findProcObj rqst.pid s = (some rqst.pid, t) := hfind
    have hsearch := exec_of_run_nil (findMmapobjFromChunkid_of_missing hi hm)
    rw [exec_of_run_nil (getChunk_of_missing hi hid hm)]
    simp [getChunkIn, exec_bind, hid, husable, hi.pidPos, hfind', hsearch]

/-- An id that is in a tree is read as without the cache. -/
theorem nvMapReadIn_of_finds (hp : rqst.pid = p) (hf : Finds s.store.disk p rqst.chunkId q c)
    (place : DataFile → ℕ) :
    (nvMapReadIn optimized place rqst).exec s = some ((s.store.disk.chunk c).read, s) := by
  have hi := h.inv.inv
  have hreg : s.store.findProcess rqst.pid = some p := by
    rw [hp]
    exact hi.registered
  have hsearched : optimized.unsearched rqst.chunkId s = none := by
    refine if_pos ?_
    rw [h.usable (h.cache_eq_some.mpr ⟨q, hf⟩)]
    rfl
  have hsearch := exec_of_run_nil (findMmapobjFromChunkid_of_finds hi hf)
  have hlen := hi.length_ne hf.indexed
  have hptr := hi.nvPtr_ne hf.indexed
  obtain ⟨t, ht, hfind⟩ := hf.tree hi.loaded
  simp [nvMapReadIn, readChunk, exec_bind, hreg, hsearched, hsearch, ht, TreeRef.deref, hfind,
    hlen, hptr, Chunkobj.read]

/-- An id that is in no tree fails the assertion on the null pointer. -/
theorem nvMapReadIn_of_missing (hp : rqst.pid = p) (hm : Missing s.store.disk p rqst.chunkId)
    (place : DataFile → ℕ) : (nvMapReadIn optimized place rqst).exec s = none := by
  have hreg : s.store.findProcess rqst.pid = some p := by
    rw [hp]
    exact h.inv.inv.registered
  have hunsearched : optimized.unsearched rqst.chunkId s = some none := by
    rw [← h.cache_eq_none hm]
    refine if_neg ?_
    rw [h.not_usable hm]
    exact Bool.false_ne_true
  simp [nvMapReadIn, exec_bind, hreg, hunsearched]

/-- A read that succeeds has found its chunk in a tree. -/
theorem finds_of_nvMapReadIn (hp : rqst.pid = p) {place : DataFile → ℕ}
    {a : Option ReadResult × CachedStore}
    (hread : (nvMapReadIn optimized place rqst).exec s = some a) :
    ∃ q c, Finds s.store.disk p rqst.chunkId q c ∧ a = ((s.store.disk.chunk c).read, s) := by
  have hi := h.inv.inv
  rcases finds_or_missing hi rqst.chunkId with ⟨q, c, hf⟩ | hm
  · rw [nvMapReadIn_of_finds h hp hf] at hread
    exact ⟨q, c, hf, (some.inj hread).symm⟩
  · rw [nvMapReadIn_of_missing h hp hm] at hread
    cases hread

/-- On every request of the process the two builds agree exactly when the id is in a tree. -/
theorem CacheInv.agrees_iff (hp : rqst.pid = p) (place : DataFile → ℕ) :
    CacheAgrees s place rqst ↔ ¬ Missing s.store.disk p rqst.chunkId := by
  have hi := h.inv.inv
  have hi₁ : StoreInv s.store rqst.pid := by rw [hp]; exact hi
  constructor
  · intro hagree hm
    have hread := hagree.read
    rw [nvMapReadIn_of_missing h hp hm, nvMapRead_of_missing hi₁ (by rw [hp]; exact hm)] at hread
    cases hread
  · intro hm
    rcases finds_or_missing hi rqst.chunkId with ⟨q, c, hf⟩ | hm'
    · refine ⟨h.getChunk_agrees hp, ?_⟩
      rw [nvMapReadIn_of_finds h hp hf, nvMapRead_of_finds hi₁ (by rw [hp]; exact hf)]
      rfl
    · exact absurd hm' hm

end Reads

/-! ## What each operation does to the cache -/

/-- Only the region with id `v` has an entry for `k`. -/
def OnlyIn (d : Disk) (p k v : ℕ) : Prop := ∀ {q c}, EntryAt d p q k c → (d.mmapobj q).vmaId = v

/-- The operations that keep the cache in step with the trees: a live name is not allocated
again, the rings have the region of an allocation as the trees do, an id gets an entry only in
the region that has one already, and when the program is restarted no two valid chunks have the
same id. -/
def KeepsCache (p : ℕ) (s : CachedStore) : Op → Prop
  | .alloc n _ addr => observe p s.store n = none ∧
    ∀ nd ∈ s.store.locateMmapobjNode addr, LocatesAs p s addr nd ∧
      OnlyIn s.store.disk p (genIdFromStr n) nd.mapId
  | .rename a d => ∀ {q c q' c'}, Finds s.store.disk p (genIdFromStr a) q c →
    Finds s.store.disk p (s.store.disk.chunk c).chunkid q' c' →
      OnlyIn s.store.disk p (genIdFromStr d) (s.store.disk.mmapobj q').vmaId
  | .restart _ => ∀ {k c c'}, Holds s.store.disk p k c → Holds s.store.disk p k c' → c = c'
  | _ => True

section Steps

variable {p : ℕ} {N : Set ObjName} {s s' : CachedStore} {q : MmapPtr} {c : ChunkPtr} {r : Ret}

/-- Nothing happens to the entries and to the cache. -/
theorem CacheInv.keep (h : CacheInv p s) (hr : RunInv s'.store p)
    (hids : ∀ {c}, InScan s'.store.disk.shape p c → (s'.store.disk.chunk c).chunkid ≠ 0)
    (hentry : ∀ q k c, EntryAt s'.store.disk p q k c ↔ EntryAt s.store.disk p q k c)
    (hside : s'.side.Are p s.side.chunkmapCache) : CacheInv p s' where
  inv := hr
  ids := hids
  cached := by
    intro k c
    rw [hside.chunks, h.cached]
    simp only [hentry]
  single he he' := h.single ((hentry _ _ _).mp he) ((hentry _ _ _).mp he')
  proc := hside.proc

/-- Nothing happens to the store and to the cache. -/
theorem CacheInv.unchanged (h : CacheInv p s) (hst : s'.store = s.store)
    (hside : s'.side.Are p s.side.chunkmapCache) : CacheInv p s' := by
  have hs' : s' = ⟨s.store, s'.side⟩ := Beside.ext hst rfl
  rw [hs']
  exact h.withCaches hside

/-- One entry changes, and so does the cache. -/
theorem CacheInv.set (h : CacheInv p s) (hr : RunInv s'.store p)
    (hids : ∀ {c}, InScan s'.store.disk.shape p c → (s'.store.disk.chunk c).chunkid ≠ 0)
    {q₀ : MmapPtr} {k₀ : ℕ} {o : Option ChunkPtr}
    (hentry : ∀ q k c, EntryAt s'.store.disk p q k c ↔ q = q₀ ∧ k = k₀ ∧ o = some c ∨
      ¬ (q = q₀ ∧ k = k₀) ∧ EntryAt s.store.disk p q k c)
    (honly : ∀ {q c}, EntryAt s.store.disk p q k₀ c → q = q₀)
    (hside : s'.side.Are p (update s.side.chunkmapCache k₀ o)) : CacheInv p s' where
  inv := hr
  ids := hids
  cached := by
    intro k c
    rw [hside.chunks]
    by_cases hk : k = k₀
    · subst hk
      rw [update_self]
      constructor
      · intro hc
        exact ⟨q₀, (hentry _ _ _).mpr (.inl ⟨rfl, rfl, hc⟩)⟩
      · rintro ⟨q, he⟩
        rcases (hentry _ _ _).mp he with ⟨-, -, hc⟩ | ⟨hne, he⟩
        · exact hc
        · exact absurd ⟨honly he, rfl⟩ hne
    · rw [update_of_ne hk, h.cached]
      refine exists_congr fun q => ?_
      rw [hentry]
      constructor
      · exact fun he => .inr ⟨fun hqk => hk hqk.2, he⟩
      · rintro (⟨-, hkk, -⟩ | ⟨-, he⟩)
        · exact absurd hkk hk
        · exact he
  single := by
    intro k q q' c c' he he'
    rcases (hentry _ _ _).mp he with ⟨rfl, rfl, -⟩ | ⟨hne, he⟩
    · rcases (hentry _ _ _).mp he' with ⟨rfl, -, -⟩ | ⟨-, he'⟩
      · rfl
      · exact (honly he').symm
    · rcases (hentry _ _ _).mp he' with ⟨rfl, rfl, -⟩ | ⟨-, he'⟩
      · exact honly he
      · exact h.single he he'
  proc := hside.proc

theorem Effect.ids {st st' : Store} {entry : MmapPtr → ℕ → Option ChunkPtr}
    {data : DataFile → Option DataContent} {r : Chunkobj}
    (he : Effect st st' (update st.disk.chunk c r) entry data)
    (h : ∀ {c}, InScan st.disk.shape p c → (st.disk.chunk c).chunkid ≠ 0) (hr : r.chunkid ≠ 0)
    {c' : ChunkPtr} (hc' : InScan st'.disk.shape p c') : (st'.disk.chunk c').chunkid ≠ 0 := by
  rw [he.frame.shape_eq] at hc'
  rw [he.chunk]
  by_cases hcc : c' = c
  · rw [hcc, update_self]
    exact hr
  · rw [update_of_ne hcc]
    exact h hc'

theorem CacheInv.mmap (h : CacheInv p s) {size addr : ℕ} {hd : ProcObj}
    (hh : s.store.disk.proc p = some hd) (hr : RunInv s'.store p)
    (hst : s'.store = s.store.mapRegion p size addr hd)
    (hside : s'.side.Are p s.side.chunkmapCache) : CacheInv p s' := by
  have hg : Grown s.store.disk s'.store.disk p := by
    rw [hst]
    exact grown_mapRegion h.inv.inv.shape hh
  refine h.keep hr ?_ hg.entryAt_iff hside
  intro c hc
  have hc' := hg.inScan.mp hc
  rw [hg.chunk hc']
  exact h.ids hc'

/-- A new chunk. -/
theorem CacheInv.create (h : CacheInv p s) {n : ObjName} {bytes addr : ℕ} {nd : MmapobjNode}
    {ws : List Write} (hok : AllocOk s.store (allocRqst p n bytes) nd addr)
    (hfound : RegionFound s.store p nd q ws) (hr : RunInv s'.store p)
    (hst : s'.store =
      (applyAll s.store ws).recordChunk q (allocChunk (allocRqst p n bytes) nd addr) addr)
    (honly : OnlyIn s.store.disk p (genIdFromStr n) nd.mapId)
    (hc : s'.store.ram.chunkmap addr = some c)
    (hside : s'.side.Are p
      (update s.side.chunkmapCache (s'.store.disk.chunk c).chunkid (some c))) :
    CacheInv p s' := by
  let st₁ := applyAll s.store ws
  let r₁ := allocChunk (allocRqst p n bytes) nd addr
  have hfits := hfound.fits hok
  have hi₁ := hfound.ready.inv
  have hg := hfound.grown
  -- the chunk that is cached is the new one
  obtain rfl : st₁.disk.shape.nextChunk q = c := by
    have hmap : s'.store.ram.chunkmap =
        update st₁.ram.chunkmap addr (some (st₁.disk.shape.nextChunk q)) := by
      rw [hst]
      rfl
    rw [hmap, update_self] at hc
    exact some.inj hc
  have hrec : s'.store.disk.chunk (st₁.disk.shape.nextChunk q) = r₁ := by
    rw [hst]
    exact chunk_appendChunk_self
  rw [hrec] at hside
  have hregion : ∀ {q'}, IsRegion s'.store.disk.shape p q' ↔ IsRegion st₁.disk.shape p q' := by
    intro q'
    rw [hst]
    exact isRegion_appendChunk
  have hids : ∀ {c}, InScan s'.store.disk.shape p c → (s'.store.disk.chunk c).chunkid ≠ 0 := by
    rintro c ⟨q', hq', hqc⟩
    rw [hregion] at hq'
    rw [hst] at hqc ⊢
    rcases isChunk_appendChunk.mp hqc with hqc | ⟨rfl, rfl⟩
    · have hc₁ : InScan st₁.disk.shape p c := ⟨q', hq', hqc⟩
      have hc₀ := hg.inScan.mp hc₁
      show ((st₁.appendChunk q r₁).disk.chunk c).chunkid ≠ 0
      rw [chunk_appendChunk hi₁.shape hfits.region hc₁, hg.chunk hc₀]
      exact h.ids hc₀
    · show ((st₁.appendChunk q' r₁).disk.chunk _).chunkid ≠ 0
      rw [chunk_appendChunk_self]
      exact hok.named
  have hentry : ∀ q' k c, EntryAt s'.store.disk p q' k c ↔
      q' = q ∧ k = r₁.chunkid ∧ some (st₁.disk.shape.nextChunk q) = some c ∨
      ¬ (q' = q ∧ k = r₁.chunkid) ∧ EntryAt s.store.disk p q' k c := by
    intro q' k c
    rw [hst, some.injEq, ← hg.entryAt_iff]
    exact entryAt_appendChunk hi₁.loaded hfits q' k c
  refine h.set hr hids hentry ?_ hside
  intro q' c' he
  refine hi₁.shape.vmaInj (hg.isRegion he.1) hfits.region ?_
  show (st₁.disk.mmapobj q').vmaId = (st₁.disk.mmapobj q).vmaId
  rw [hg.mmapobj he.1, honly he, hfound.ready.vmaId]

/-- The effect of an operation on one record and one entry. -/
theorem CacheInv.effect (h : CacheInv p s) {r₁ : Chunkobj} {q₀ : MmapPtr} {k₀ : ℕ}
    {o : Option ChunkPtr} (hr : RunInv s'.store p) (hid : r₁.chunkid ≠ 0)
    (hq₀ : IsRegion s.store.disk.shape p q₀)
    (he : Effect s.store s'.store (update s.store.disk.chunk c r₁)
      (fun q k => if q = q₀ ∧ k = k₀ then o else s.store.disk.entry q k) s.store.disk.data)
    (honly : ∀ {q c}, EntryAt s.store.disk p q k₀ c → q = q₀)
    (hside : s'.side.Are p (update s.side.chunkmapCache k₀ o)) : CacheInv p s' := by
  refine h.set hr (fun hc => he.ids h.ids hid hc) ?_ honly hside
  intro q k c'
  rw [he.entryAt_iff]
  by_cases hqk : q = q₀ ∧ k = k₀
  · rw [if_pos hqk]
    obtain ⟨rfl, rfl⟩ := hqk
    simp [hq₀]
  · rw [if_neg hqk]
    constructor
    · exact fun he => .inr ⟨hqk, he⟩
    · rintro (⟨rfl, rfl, -⟩ | ⟨-, he⟩)
      · exact absurd ⟨rfl, rfl⟩ hqk
      · exact he

variable {place : DataFile → ℕ} {n : ObjName}

/-- A load on files in which the valid chunks have different ids. -/
theorem CacheInv.load {st : Store} (hs : ShapeOk st.disk.shape) (hl : Loads st s'.store place p)
    (hr : RunInv s'.store p)
    (hids : ∀ {c}, InScan st.disk.shape p c → (st.disk.chunk c).chunkid ≠ 0)
    (huniq : ∀ {k c c'}, Holds st.disk p k c → Holds st.disk p k c' → c = c')
    (hside : s'.side.Are p (fillCache st.disk (st.disk.restoredChunks p) fun _ => none)) :
    CacheInv p s' := by
  have hentry : ∀ q k c, EntryAt s'.store.disk p q k c ↔
      IsRegion st.disk.shape p q ∧ IsChunk st.disk.shape q c ∧ (st.disk.chunk c).valid = .VALID ∧
        (st.disk.chunk c).chunkid = k := by
    intro q k c
    constructor
    · rintro ⟨hq, he⟩
      rw [hl.isRegion] at hq
      exact ⟨hq, hl.entryIn hq he⟩
    · rintro ⟨hq, hqc, hv, rfl⟩
      obtain ⟨c', hc'⟩ := isSome_iff_exists.mp (hl.found hq hqc hv)
      obtain ⟨hqc', hv', hid'⟩ := hl.entryIn hq hc'
      obtain rfl := huniq ⟨⟨q, hq, hqc'⟩, hv', hid'⟩ ⟨⟨q, hq, hqc⟩, hv, rfl⟩
      exact ⟨hl.isRegion.mpr hq, hc'⟩
  have hdistinct : ∀ c ∈ st.disk.restoredChunks p, ∀ c' ∈ st.disk.restoredChunks p,
      (st.disk.chunk c).chunkid = (st.disk.chunk c').chunkid → c = c' := by
    intro c hc c' hc' hid
    obtain ⟨hscan, hv⟩ := (mem_restoredChunks hs).mp hc
    obtain ⟨hscan', hv'⟩ := (mem_restoredChunks hs).mp hc'
    exact huniq ⟨hscan, hv, hid⟩ ⟨hscan', hv', rfl⟩
  refine ⟨hr, ?_, ?_, ?_, hside.proc⟩
  · intro c hc
    rw [show (s'.store.disk.chunk c).chunkid = (st.disk.chunk c).chunkid from
      (congrArg Chunkobj.chunkid (hl.chunk c) :)]
    exact hids (hl.inScan.mp hc)
  · intro k c
    rw [hside.chunks, fillCache_eq_some hdistinct, mem_restoredChunks hs]
    simp only [hentry]
    constructor
    · rintro ⟨⟨⟨q, hq, hqc⟩, hv⟩, hid⟩
      exact ⟨q, hq, hqc, hv, hid⟩
    · rintro ⟨q, hq, hqc, hv, hid⟩
      exact ⟨⟨⟨q, hq, hqc⟩, hv⟩, hid⟩
  · intro k q q' c c' he he'
    obtain ⟨hq, hqc, hv, hid⟩ := (hentry _ _ _).mp he
    obtain ⟨hq', hqc', hv', hid'⟩ := (hentry _ _ _).mp he'
    obtain rfl := huniq ⟨⟨q, hq, hqc⟩, hv, hid⟩ ⟨⟨q', hq', hqc'⟩, hv', hid'⟩
    exact hl.inv.shape.region_unique (hl.isRegion.mpr hq) (hl.isRegion.mpr hq')
      ((hl.isChunk hq).mpr hqc) ((hl.isChunk hq').mpr hqc')

/-- A name that cannot be read has no chunk for `check_if_chunk_exists`. -/
theorem checkIfChunkExists_of_observe {st : Store} (hi : StoreInv st p) (hid : genIdFromStr n ≠ 0)
    (ho : observe p st n = none) (bytes : ℕ) :
    checkIfChunkExists (allocRqst p n bytes) st = some (none, []) := by
  have hi₁ : StoreInv st (allocRqst p n bytes).pid := hi
  rcases checkIfChunkExists_cases hi₁ hid with ⟨hnone, -⟩ | ⟨q, c, hf, hv, -⟩
  · exact hnone
  · have hsome : observe p st n = some (st.disk.value c) :=
      (observe_eq_some hi).mpr ⟨q, c, hf, hv, rfl⟩
    rw [ho] at hsome
    cases hsome

/-- The operation of the other build did `op`, and the cache is in step with the trees. -/
def StepsAs (p : ℕ) (s : CachedStore) (op : Op) (r : Ret) (s' : CachedStore) : Prop :=
  step p s.store op = some (r, s'.store) ∧ CacheInv p s'

theorem tracks_mmapRegion (h : CacheInv p s) (size addr : ℕ) :
    Tracks (fun _ s' => s'.side.Are p s.side.chunkmapCache) (mmapRegionIn optimized p size addr)
      (mmapRegion p size addr) s := by
  obtain ⟨t, ht, hfind⟩ := h.findProcObj
  have hreg := h.inv.inv.findProcess
  have hcreate : createOrLoadProcObj p s.store = some (p, []) := by
    simp [createOrLoadProcObj, run_bind_eq, hreg]
  refine tracks_assert_bind fun _ => tracks_bind (tracks_ask_bind ?_)
  have hcached : optimized.findProcObj p s = (some p, t) := hfind
  rw [hcached]
  refine tracks_pure_run hcreate (tracks_state_bind (tracks_lift_bind fun hd _ => ?_))
  refine tracks_emit_bind (tracks_emit_bind (tracks_emit_bind (tracks_assert_bind fun _ => ?_)))
  refine tracks_emit_bind (Tracks.then_note (tracks_emit (Q := fun _ s' => s'.side = t) rfl) ?_)
  intro _ s' hs'
  have hproc : ∀ x, s'.side.prevProcObj = some x → x = p := by
    rw [hs']
    exact ht.are.proc
  exact ⟨(congrArg Caches.chunkmapCache hs').trans ht.are.chunks, hproc⟩

theorem cached_mmap (h : CacheInv p s) {size addr : ℕ}
    (hop : Allowed p N s.store (.mmap size addr))
    (hstep : stepIn optimized {} p s (.mmap size addr) = some (r, s')) :
    StepsAs p s (.mmap size addr) r s' := by
  obtain ⟨⟨_, s₁⟩, hexec, heq⟩ := map_eq_some_iff.mp hstep
  cases heq
  obtain ⟨hexec', hside⟩ := (tracks_mmapRegion h size addr).exec hexec
  have hst : step p s.store (.mmap size addr) = some (.done, s₁.store) := by
    rw [step, hexec']
    rfl
  have heff := step_effect h.inv hop hst
  have hr := heff.runInv h.inv
  refine ⟨hst, ?_⟩
  generalize hst₁ : s₁.store = st₁ at heff
  cases heff with
  | mmap hh hfresh => exact h.mmap hh hr hst₁ hside

theorem cached_alloc (hN : GoodNames N) (h : CacheInv p s) {bytes addr : ℕ}
    (hop : Allowed p N s.store (.alloc n bytes addr)) (hkeep : KeepsCache p s (.alloc n bytes addr))
    (hstep : stepIn optimized {} p s (.alloc n bytes addr) = some (r, s')) :
    StepsAs p s (.alloc n bytes addr) r s' := by
  obtain ⟨ho, hloc⟩ := hkeep
  have hi := h.inv.inv
  obtain ⟨⟨_, s₁⟩, hexec, heq⟩ := map_eq_some_iff.mp hstep
  cases heq
  have hfree := checkIfChunkExists_of_observe hi (hN.pos n hop.1) ho bytes
  obtain ⟨nd, hblock, -⟩ := hop.2
  have hnd := locateMmapobjNode_of_block hi.ram hblock
  obtain ⟨hexec', c, hc, hside⟩ :=
    (tracks_nvRecordChunk h rfl hfree hnd (hloc nd hnd).1).exec hexec
  have hst : step p s.store (.alloc n bytes addr) = some (.done, s₁.store) := by
    rw [step, hexec']
    rfl
  have heff := step_effect h.inv hop hst
  have hr := heff.runInv h.inv
  refine ⟨hst, ?_⟩
  generalize hst₁ : s₁.store = st₁ at heff
  cases heff with
  | create hok hfree hfound =>
    have hnd' := locateMmapobjNode_of_block hi.ram hok.block
    exact h.create hok hfound hr hst₁ (hloc _ hnd').2 hc hside
  | @replace _ _ _ _ _ _ _ _ _ old _ _ _ hok hf hv hre =>
    have hsome : observe p s.store n = some (s.store.disk.value old) :=
      (observe_eq_some hi).mpr ⟨_, old, hf, hv, rfl⟩
    rw [ho] at hsome
    cases hsome

theorem cached_commit (h : CacheInv p s) {size : ℕ} (hop : Allowed p N s.store (.commit n size))
    (hstep : stepIn optimized {} p s (.commit n size) = some (r, s')) :
    StepsAs p s (.commit n size) r s' := by
  obtain ⟨⟨v, s₁⟩, hexec, heq⟩ := map_eq_some_iff.mp hstep
  cases heq
  obtain ⟨hexec', hside⟩ := (tracks_nvCommitLen h rfl size).exec hexec
  have hst : step p s.store (.commit n size) = some (.status v, s₁.store) := by
    rw [step, hexec']
    rfl
  have heff := step_effect h.inv hop hst
  have hr := heff.runInv h.inv
  refine ⟨hst, ?_⟩
  cases heff with
  | commit hf he =>
    refine h.keep hr (fun hc => he.ids h.ids ?_ hc) he.entryAt_iff hside
    exact h.ids (h.inv.inv.loaded.indexed hf.indexed)

theorem cached_delete (hN : GoodNames N) (h : CacheInv p s) (hop : Allowed p N s.store (.delete n))
    (hstep : stepIn optimized {} p s (.delete n) = some (r, s')) :
    StepsAs p s (.delete n) r s' := by
  have hi := h.inv.inv
  have hid := hN.pos n hop
  have hi₁ : StoreInv s.store (request p n).pid := hi
  obtain ⟨⟨v, s₁⟩, hexec, heq⟩ := map_eq_some_iff.mp hstep
  cases heq
  rcases finds_or_missing hi (genIdFromStr n) with ⟨q, c, hf⟩ | hm
  · have hget := getChunk_of_finds hi₁ hid hf
    have hset : (s.store.disk.chunk c).length ≠ 0 ∧ (s.store.disk.chunk c).chunkid ≠ 0 :=
      ⟨hi.length_ne hf.indexed, h.ids (hi.loaded.indexed hf.indexed)⟩
    obtain ⟨hexec', hside⟩ := (tracks_nvDelete_some h rfl hget hset).exec hexec
    have hst : step p s.store (.delete n) = some (.status v, s₁.store) := by
      rw [step, hexec']
      rfl
    have hr := (step_effect h.inv hop hst).runInv h.inv
    refine ⟨hst, ?_⟩
    rcases finds_or_missing hi
      (s.store.disk.chunk c).chunkid with ⟨q', c', hf'⟩ | hm
    · rw [nvDelete_of_finds hi₁ hid hf hf'] at hexec'
      have hs₁ : s.store.deleteChunk c q' n = s₁.store := (Prod.mk.inj (some.inj hexec')).2
      have he := deleteChunk_effect s.store c q' n
      rw [hs₁] at he
      have hid' : (s.store.disk.chunk c).invalidate.chunkid ≠ 0 := hset.2
      exact h.effect hr hid' hf'.region he (fun he' => h.single he' hf'.entryAt) hside
    · -- the id of the record is in no tree, and not cached
      rw [nvDelete_of_lost hi₁ hid hf hm] at hexec'
      have hs₁ : s.store.invalidate c = s₁.store := (Prod.mk.inj (some.inj hexec')).2
      have he := invalidate_effect s.store c
      rw [hs₁] at he
      rw [← h.cache_eq_none hm, update_eq_self] at hside
      exact h.keep hr (fun hc => he.ids h.ids hset.2 hc) he.entryAt_iff hside
  · have hget := getChunk_of_missing hi₁ hid hm
    obtain ⟨hexec', hside⟩ := (tracks_nvDelete_none h rfl hget).exec hexec
    have hst : step p s.store (.delete n) = some (.status v, s₁.store) := by
      rw [step, hexec']
      rfl
    refine ⟨hst, ?_⟩
    rw [nvDelete_of_missing hi₁ hid hm] at hexec'
    have hs₁ : s.store = s₁.store := (Prod.mk.inj (some.inj hexec')).2
    exact h.unchanged hs₁.symm hside

theorem cached_rename (hN : GoodNames N) (h : CacheInv p s) {a d : ObjName}
    (hop : Allowed p N s.store (.rename a d)) (hkeep : KeepsCache p s (.rename a d))
    (hstep : stepIn optimized {} p s (.rename a d) = some (r, s')) :
    StepsAs p s (.rename a d) r s' := by
  have hi := h.inv.inv
  have hid := hN.pos a hop.1
  have hi₁ : StoreInv s.store (request p a).pid := hi
  obtain ⟨⟨_, s₁⟩, hexec, heq⟩ := map_eq_some_iff.mp hstep
  cases heq
  -- a rename that finds no chunk, or no region for it, changes nothing
  have hnothing : (nvRename (request p a) d).exec s.store = some ((), s.store) →
      (getChunk (request p a) s.store = some (none, []) ∨
        ∃ c, getChunk (request p a) s.store = some (some c, []) ∧
          findMmapobjFromChunkid (s.store.disk.chunk c).chunkid p s.store = some (none, [])) →
      StepsAs p s (.rename a d) .done s₁ := by
    intro hsame hget
    obtain ⟨hexec', hside⟩ := (tracks_nvRename_none h rfl d hget).exec hexec
    refine ⟨by rw [step, hexec']; rfl, ?_⟩
    rw [hsame] at hexec'
    have hs₁ : s.store = s₁.store := (Prod.mk.inj (some.inj hexec')).2
    exact h.unchanged hs₁.symm hside
  rcases finds_or_missing hi (genIdFromStr a) with ⟨q, c, hf⟩ | hm
  · have hget := getChunk_of_finds hi₁ hid hf
    rcases finds_or_missing hi
      (s.store.disk.chunk c).chunkid with ⟨q', c', hf'⟩ | hm
    · have hsearch := findMmapobjFromChunkid_of_finds hi hf'
      have hlen := hi.length_ne hf.indexed
      obtain ⟨hexec', hside⟩ := (tracks_nvRename_some h rfl d hget hsearch hlen).exec hexec
      have hst : step p s.store (.rename a d) = some (.done, s₁.store) := by
        rw [step, hexec']
        rfl
      have hr := (step_effect h.inv hop hst).runInv h.inv
      obtain ⟨st₁, hexec₁, he⟩ := nvRename_of_finds hi₁ hid hf hf' d
      rw [hexec₁] at hexec'
      obtain rfl : st₁ = s₁.store := (Prod.mk.inj (some.inj hexec')).2
      refine ⟨hst, h.effect hr (hN.pos d hop.2) hf'.region he ?_ hside⟩
      intro q'' c'' he''
      exact hi.shape.vmaInj he''.1 hf'.region (hkeep hf hf' he'')
    · exact hnothing (nvRename_of_lost hi₁ hid hf hm d)
        (.inr ⟨c, hget, findMmapobjFromChunkid_of_missing hi hm⟩)
  · exact hnothing (nvRename_of_missing hi₁ hid hm d)
      (.inl (getChunk_of_missing hi₁ hid hm))

theorem cached_read (h : CacheInv p s)
    (hstep : stepIn optimized {} p s (.read n place) = some (r, s')) :
    StepsAs p s (.read n place) r s' := by
  have hi := h.inv.inv
  obtain ⟨⟨v, s₁⟩, hexec, heq⟩ := map_eq_some_iff.mp hstep
  cases heq
  rw [readObjectIn, exec_bind] at hexec
  obtain ⟨a, hread, hrest⟩ := bind_eq_some_iff.mp hexec
  obtain ⟨q, c, hf, rfl⟩ := finds_of_nvMapReadIn h rfl hread
  have hi₁ : StoreInv s.store (request p n).pid := hi
  -- what follows the lookup is the same in both builds
  have hrest' : step p s.store (.read n place) = some (.object v, s₁.store) ∧ s₁.side = s.side := by
    rw [step, readObject, exec_bind, nvMapRead_of_finds hi₁ hf, bind_some]
    cases hc : (s.store.disk.chunk c).read with
    | none =>
      rw [hc] at hrest
      cases hrest
      exact ⟨rfl, rfl⟩
    | some r =>
      simp only [hc, exec_bind, exec_state, exec_lift, exec_pure, bind_some,
        bind_eq_some_iff, map_eq_some_iff] at hrest
      obtain ⟨_, ⟨bs, hbs, rfl⟩, heq⟩ := hrest
      cases heq
      simp [exec_bind, hbs]
  obtain ⟨hst, hside⟩ := hrest'
  refine ⟨hst, ?_⟩
  have hs₁ : s.store = s₁.store := by
    rw [step_read_observe hi] at hst
    exact (Prod.mk.inj (some.inj hst)).2
  exact h.unchanged hs₁.symm (hside ▸ h.are)

theorem cached_write (h : CacheInv p s) {off : ℕ} {bs : List UInt8}
    (hop : Allowed p N s.store (.write n off bs))
    (hstep : stepIn optimized {} p s (.write n off bs) = some (r, s')) :
    StepsAs p s (.write n off bs) r s' := by
  have hi := h.inv.inv
  obtain ⟨⟨_, s₁⟩, hexec, heq⟩ := map_eq_some_iff.mp hstep
  cases heq
  rw [writeObjectIn, exec_bind] at hexec
  obtain ⟨a, hread, hrest⟩ := bind_eq_some_iff.mp hexec
  obtain ⟨q, c, hf, rfl⟩ := finds_of_nvMapReadIn h rfl hread
  have htracks : Tracks (fun _ s' => s'.side.Are p s.side.chunkmapCache)
      (do
        let r ← lift (s.store.disk.chunk c).read
        let s ← state
        let ws ← lift (s.store.storeBytes (r.nvPtr + off) bs)
        inStore (emits ws) : CachedM Unit)
      (do
        let r ← lift (s.store.disk.chunk c).read
        let st ← state
        let ws ← lift (st.storeBytes (r.nvPtr + off) bs)
        emits ws) s :=
    tracks_lift_bind fun _ _ => tracks_state_bind (tracks_lift_bind fun ws _ =>
      tracks_inStore fun _ _ _ => h.are)
  obtain ⟨hexec', hside⟩ := htracks.exec hrest
  have hi₁ : StoreInv s.store (request p n).pid := hi
  have hst : step p s.store (.write n off bs) = some (.done, s₁.store) := by
    rw [step, writeObject, exec_bind, nvMapRead_of_finds hi₁ hf, bind_some]
    exact congrArg (Option.map fun r => (Ret.done, r.2)) hexec'
  have heff := step_effect h.inv hop hst
  have hr := heff.runInv h.inv
  refine ⟨hst, ?_⟩
  generalize hst₁ : s₁.store = st₁ at heff
  cases heff with
  | @write _ _ _ f o =>
    have he : Effect s.store s₁.store s.store.disk.chunk s.store.disk.entry
        (s.store.disk.blitFile f o bs).data := by
      rw [hst₁]
      exact ⟨SameFrame.blitFile (SameFrame.refl _) f o bs, rfl, fun _ _ => rfl, rfl⟩
    refine h.keep hr ?_ he.entryAt_iff hside
    intro c' hc'
    rw [he.frame.shape_eq] at hc'
    rw [he.chunk]
    exact h.ids hc'

/-- A restart, on files whose chunk records have ids. -/
theorem cached_restart (hs : ShapeOk s.store.disk.shape) (hp : p ≠ 0)
    (hids : ∀ {c}, InScan s.store.disk.shape p c → (s.store.disk.chunk c).chunkid ≠ 0)
    (hplace : PlaceOk s.store.reboot place p)
    (huniq : ∀ {k c c'}, Holds s.store.disk p k c → Holds s.store.disk p k c' → c = c')
    (hstep : stepIn optimized {} p s (.restart place) = some (r, s')) :
    StepsAs p s (.restart place) r s' := by
  obtain ⟨s₁, hst, heq⟩ := map_eq_some_iff.mp hstep
  cases heq
  obtain ⟨st₁, hexec, hl, hr⟩ := restart_runInv hs hp hplace
  rw [cacheHooks.restartIn_exec hs hplace, hexec] at hst
  cases hst
  have hs₀ : ShapeOk s.store.started.disk.shape := hs
  obtain ⟨hcache, hproc⟩ := loaded_cacheHooks s.store.disk (s.store.disk.regions p) {}
  refine ⟨by rw [step, hexec]; rfl, CacheInv.load hs₀ hl hr hids huniq ⟨hcache, ?_⟩⟩
  intro x hx
  cases hproc.symm.trans hx

/-- One operation of the cached build: it is the operation of the other build, and it keeps
the cache in step with the trees. -/
theorem cached_step (hN : GoodNames N) {op : Op} (h : CacheInv p s)
    (hop : Allowed p N s.store op ∧ KeepsCache p s op)
    (hstep : stepIn optimized {} p s op = some (r, s')) : StepsAs p s op r s' := by
  obtain ⟨hop, hkeep⟩ := hop
  cases op with
  | mmap size addr => exact cached_mmap h hop hstep
  | alloc n bytes addr => exact cached_alloc hN h hop hkeep hstep
  | commit n size => exact cached_commit h hop hstep
  | delete n => exact cached_delete hN h hop hstep
  | read n place => exact cached_read h hstep
  | write n off bs => exact cached_write h hop hstep
  | rename a d => exact cached_rename hN h hop hkeep hstep
  | restart place =>
    exact cached_restart h.inv.inv.shape h.inv.inv.pidPos h.ids hop hkeep hstep

end Steps

/-! ## Whole runs -/

/-- Nothing is stored, and nothing is cached. -/
def CachedStore.init : CachedStore := ⟨{}, {}⟩

/-- In a run that keeps the cache in step with the trees, the build without the cache goes
through the same states with the same results. -/
theorem cacheInv_of_run {p : ℕ} (hp : p ≠ 0) {N : Set ObjName} (hN : GoodNames N)
    {place : DataFile → ℕ} {ops : List Op}
    (hrun : Along (stepIn optimized {} p)
      (fun s op => Allowed p N s.store op ∧ KeepsCache p s op) (.restart place :: ops)
      CachedStore.init)
    {rs : List Ret} {s : CachedStore} (hs : runSteps (stepIn optimized {} p)
      (.restart place :: ops) CachedStore.init = some (rs, s)) :
    runSteps (step p) (.restart place :: ops) {} = some (rs, s.store) ∧ CacheInv p s := by
  obtain ⟨⟨hplace, -⟩, hrest⟩ := hrun
  obtain ⟨r, s₀, rs', hstep, hrun', rfl⟩ := runSteps_cons_eq_some.mp hs
  obtain ⟨hfirst, hinv⟩ : StepsAs p CachedStore.init (.restart place) r s₀ :=
    cached_restart shapeOk_empty hp (fun hc => absurd hc not_inScan_empty) hplace
      (fun hk => absurd hk.scan not_inScan_empty) hstep
  have hsteps : ∀ {s op r s'}, CacheInv p s → Allowed p N s.store op ∧ KeepsCache p s op →
      stepIn optimized {} p s op = some (r, s') →
      step p s.store op = some (r, s'.store) ∧ CacheInv p s' :=
    fun h hop hs => cached_step hN h hop hs
  obtain ⟨hst, h⟩ := runSteps_proj hsteps hinv (hrest r s₀ hstep) hrun'
  refine ⟨?_, h⟩
  have hfirst' : step p {} (.restart place) = some (r, s₀.store) := hfirst
  rw [runSteps_cons hfirst', hst]
  rfl

/-- **The cache and the trees.**  After every run of one process in which no live name is
allocated again, the rings have the region of an allocation as the trees do, ids get entries only
in the region that has one and restarts find no id twice, the build without the caches is in the
same state with the same results, and on every request of the process the two builds agree
exactly when the id is in a tree. -/
theorem cacheAgrees_iff_of_run {p : ℕ} (hp : p ≠ 0) {N : Set ObjName} (hN : GoodNames N)
    (place : DataFile → ℕ) (ops : List Op)
    (hrun : Along (stepIn optimized {} p)
      (fun s op => Allowed p N s.store op ∧ KeepsCache p s op) (.restart place :: ops)
      CachedStore.init)
    {rs : List Ret} {s : CachedStore} (hs : runSteps (stepIn optimized {} p)
      (.restart place :: ops) CachedStore.init = some (rs, s)) :
    runSteps (step p) (.restart place :: ops) {} = some (rs, s.store) ∧
      ∀ rqst : Rqst, rqst.pid = p → ∀ place' : DataFile → ℕ,
        (CacheAgrees s place' rqst ↔ ¬ Missing s.store.disk p rqst.chunkId) := by
  obtain ⟨hst, h⟩ := cacheInv_of_run hp hN hrun hs
  exact ⟨hst, fun rqst hpid place' => h.agrees_iff hpid place'⟩

theorem onlyIn_of_missing {d : Disk} {p k : ℕ} (hm : Missing d p k) (v : ℕ) : OnlyIn d p k v := by
  intro q c he
  have hnone := hm q he.1
  rw [he.2] at hnone
  cases hnone

/-- An object that is renamed. -/
def renamedRun : List Op :=
  [.restart fun _ => 0, .mmap 4096 4096, .alloc nameA 16 4096, .rename nameA nameB]

theorem keepsCache_renamedRun : Along (stepIn optimized {} 1)
    (fun s op => Allowed 1 {nameA, nameB} s.store op ∧ KeepsCache 1 s op) renamedRun
    CachedStore.init := by
  refine .next (by decide +kernel) ⟨?_, ?_⟩ ?_
  · show PlaceOk _ _ _
    decide +kernel
  · intro k c c' hk
    exact absurd hk.scan not_inScan_empty
  refine .next (by decide +kernel) ⟨?_, trivial⟩ ?_
  · show FreshRange _ _ _
    decide +kernel
  refine .next (by decide +kernel) ⟨⟨.inl rfl, ⟨4096, 8192, 1, 1⟩, ?_⟩, ?_, ?_⟩ ?_
  · decide +kernel
  · decide +kernel
  · -- the ring is empty, and the only range has its size in both tables
    intro nd hnd
    have hnode : nd = ⟨4096, 8192, 1, 1⟩ := some.inj (hnd.symm.trans (by decide +kernel))
    refine ⟨⟨fun q hq => ?_, fun _ => ?_⟩, onlyIn_of_missing (by decide +kernel) _⟩
    · have hnone : (none : Option MmapPtr) = some q := Eq.trans (by decide +kernel) hq
      cases hnone
    · rw [hnode]
      decide +kernel
  refine .next (by decide +kernel) ⟨⟨.inl rfl, .inr rfl⟩, ?_⟩ trivial
  intro q c q' c' _ _
  exact onlyIn_of_missing (by decide +kernel) _

/-- The object is found under both names, with the cache and without it. -/
theorem cacheAgrees_renamedRun : ∃ rs s,
    runSteps (stepIn optimized {} 1) renamedRun CachedStore.init = some (rs, s) ∧
      CacheAgrees s (fun _ => 0) (request 1 nameA) ∧
      CacheAgrees s (fun _ => 0) (request 1 nameB) := by
  have hfound : (runSteps (stepIn optimized {} 1) renamedRun CachedStore.init).map (fun x =>
      decide (Missing x.2.store.disk 1 (genIdFromStr nameA) ∨
        Missing x.2.store.disk 1 (genIdFromStr nameB))) = some false := by decide +kernel
  obtain ⟨⟨rs, s⟩, hs, hmissing⟩ := map_eq_some_iff.mp hfound
  rw [decide_eq_false_iff_not, not_or] at hmissing
  obtain ⟨-, hagree⟩ :=
    cacheAgrees_iff_of_run (by decide) goodNames_nameAB _ _ keepsCache_renamedRun hs
  exact ⟨rs, s, hs, (hagree _ rfl _).mpr hmissing.1, (hagree _ rfl _).mpr hmissing.2⟩

/-- A read of an id that was never allocated fails an assertion, and a request of another
process gets the chunk of process 1. -/
theorem not_cacheAgrees_renamedRun : ∃ rs s,
    runSteps (stepIn optimized {} 1) renamedRun CachedStore.init = some (rs, s) ∧
      runSteps (step 1) renamedRun {} = some (rs, s.store) ∧
      ¬ CacheAgrees s (fun _ => 0) { pid := 1, id := 7, varName := nameA } ∧
      ¬ CacheAgrees s (fun _ => 0) (request 2 nameA) := by
  let rqst : Rqst := { pid := 1, id := 7, varName := nameA }
  have hresults : (runSteps (stepIn optimized {} 1) renamedRun CachedStore.init).map (fun x =>
      (((nvMapReadIn optimized (fun _ => 0) rqst).exec x.2).map Prod.fst,
        ((nvMapRead (fun _ => 0) rqst).exec x.2.store).map Prod.fst,
        ((getChunkIn optimized (request 2 nameA)).exec x.2).map Prod.fst,
        ((getChunk (request 2 nameA)).exec x.2.store).map Prod.fst)) =
      some (none, some none, some (some ⟨metaOf 1 1, 0⟩), some none) := by decide +kernel
  obtain ⟨⟨rs, s⟩, hs, heq⟩ := map_eq_some_iff.mp hresults
  simp only [Prod.mk.injEq] at heq
  obtain ⟨hread, hread', hget, hget'⟩ := heq
  refine ⟨rs, s, hs, (cacheInv_of_run (by decide) goodNames_nameAB keepsCache_renamedRun hs).1, ?_,
    ?_⟩
  · intro hagree
    have := hagree.read
    rw [hread, hread'] at this
    cases this
  · intro hagree
    have := hagree.getChunk
    rw [hget, hget'] at this
    cases this
