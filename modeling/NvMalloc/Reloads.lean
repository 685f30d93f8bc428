/-
# Loading a process in another build

While a process is loaded, a build adds to its tables when a region is registered, before a chunk
is restored, and when the chunk is entered.  What it adds depends only on the record of the region
or of the chunk (`LoadHooks`), and none of these changes before its turn comes.  So the tables
after `load_process` follow from the files (`loadProcessIn_exec`), and the store is that of the
build without additions.
-/
import NvMalloc.Decidability
import NvMalloc.Builds

open WriteM Beside Function Option

/-! ## What is restored -/

/-- The valid chunks among some records. -/
def Disk.validOf (d : Disk) (cs : List ChunkPtr) : List ChunkPtr :=
  cs.filter fun c => (d.chunk c).valid ≠ .INVALID

/-- The chunks that a restart restores in some regions. -/
def Disk.restoredIn (d : Disk) (qs : List MmapPtr) : List ChunkPtr :=
  qs.flatMap fun q => d.validOf (d.mmapobj q).scan

/-- The chunks of process `p` that a restart restores. -/
def Disk.restoredChunks (d : Disk) (p : ℕ) : List ChunkPtr := d.restoredIn (d.regions p)

/-- The restored chunks are the valid ones that the scan meets. -/
theorem mem_restoredChunks {d : Disk} (hs : ShapeOk d.shape) {p : ℕ} {c : ChunkPtr} :
    c ∈ d.restoredChunks p ↔ InScan d.shape p c ∧ (d.chunk c).valid = .VALID := by
  have hscan : ∀ {q}, IsRegion d.shape p q → (c ∈ (d.mmapobj q).scan ↔ IsChunk d.shape q c) :=
    fun hq => @scan_eq ⟨d, {}⟩ p hs _ hq c
  simp only [Disk.restoredChunks, Disk.restoredIn, Disk.validOf, List.mem_flatMap, List.mem_filter,
    ← isRegion_iff_mem_regions, decide_eq_true_eq, Validity.ne_INVALID]
  constructor
  · rintro ⟨q, hq, hc, hv⟩
    exact ⟨⟨q, hq, (hscan hq).mp hc⟩, hv⟩
  · rintro ⟨⟨q, hq, hc⟩, hv⟩
    exact ⟨q, hq, (hscan hq).mpr hc, hv⟩

theorem nodup_scan (m : Mmapobj) : m.scan.Nodup := by
  refine List.Nodup.map ?_ List.nodup_range
  intro i j hij
  have hoff : i * sizeofChunkobj = j * sizeofChunkobj := congrArg ChunkPtr.off hij
  simp only [sizeofChunkobj] at hoff
  omega

/-- Different regions have different records. -/
theorem scan_disjoint {d : Disk} (hs : ShapeOk d.shape) {p : ℕ} {q q' : MmapPtr}
    (hq : IsRegion d.shape p q) (hq' : IsRegion d.shape p q') (hne : q ≠ q') :
    (d.mmapobj q).scan.Disjoint (d.mmapobj q').scan := by
  intro c hc hc'
  have hfile := (dataOf_of_mem_scan hc).symm.trans (dataOf_of_mem_scan hc')
  exact hne (hs.vmaInj hq hq' (congrArg DataFile.vma hfile))

/-- `add_chunkobj` writes to no chunk record. -/
theorem chunk_of_addChunkobj {st st' : Store} {q : MmapPtr} {c : ChunkPtr} {u : Unit}
    (h : (addChunkobj q c).exec st = some (u, st')) : st'.disk.chunk = st.disk.chunk := by
  simp only [addChunkobj, exec_bind, exec_state, exec_lift, exec_assert, exec_emit,
    bind_some, bind_eq_some_iff, map_eq_some_iff] at h
  obtain ⟨_, ⟨_, -, rfl⟩, _, hlen, _, ⟨_, -, rfl⟩, heq⟩ := h
  cases heq
  split at hlen
  · cases hlen
    rfl
  · cases hlen

/-! ## The tables -/

/-- What a build adds to its tables for a region that is registered, and for a chunk that is
restored. -/
structure LoadHooks {κ : Type} (b : Build κ) where
  region : MmapPtr → Mmapobj → κ → κ
  chunk : ChunkPtr → Chunkobj → κ → κ
  region_eq : ∀ q s, b.addedMmapobj q s = region q (s.store.disk.mmapobj q) s.side
  chunk_eq : ∀ {c s st}, { st.disk.chunk c with nvPtr := 0 } =
    { s.store.disk.chunk c with nvPtr := 0 } →
      b.addedChunkobj c ⟨st, b.restoringChunk c s⟩ = chunk c (s.store.disk.chunk c) s.side

namespace LoadHooks

variable {κ : Type} {b : Build κ} (k : LoadHooks b) {d d' : Disk} {cs : List ChunkPtr} {t : κ}

/-- The tables after the chunks `cs` of the files `d` are restored. -/
def restored (d : Disk) (cs : List ChunkPtr) (t : κ) : κ :=
  (d.validOf cs).foldl (fun t c => k.chunk c (d.chunk c) t) t

/-- The tables after the regions `qs` are loaded. -/
def loaded (d : Disk) (qs : List MmapPtr) (t : κ) : κ :=
  qs.foldl (fun t q => k.restored d (d.mmapobj q).scan (k.region q (d.mmapobj q) t)) t

/-- Only the records of the chunks matter. -/
theorem restored_congr (h : ∀ c ∈ cs, d'.chunk c = d.chunk c) :
    k.restored d' cs t = k.restored d cs t := by
  have hvalid : d'.validOf cs = d.validOf cs := by
    apply List.filter_congr
    intro c hc
    rw [h c hc]
  rw [restored, restored, hvalid]
  refine List.foldl_ext _ _ _ fun t c hc => ?_
  rw [h c (List.mem_of_mem_filter hc)]

/-- The loop of `restore_chunk_objs`. -/
theorem restoreChunksIn_exec {q : MmapPtr} {dataAddr : ℕ} (hnd : cs.Nodup) (s : Beside Store κ) :
    (restoreChunksIn b q dataAddr cs).exec s =
      ((restoreChunks q dataAddr cs).exec s.store).map fun r =>
        (r.1, ⟨r.2, k.restored s.store.disk cs s.side⟩) := by
  induction cs generalizing s with
  | nil => rfl
  | cons c cs ih =>
    obtain ⟨hc, hnd⟩ := List.nodup_cons.mp hnd
    rw [restoreChunksIn, restoreChunks]
    by_cases hv : (s.store.disk.chunk c).valid = .INVALID
    · have hrest : k.restored s.store.disk (c :: cs) s.side =
          k.restored s.store.disk cs s.side := by
        simp [restored, Disk.validOf, hv]
      simp only [exec_bind, exec_state, bind_some, if_pos hv, hrest]
      exact ih hnd s
    · have hrest : k.restored s.store.disk (c :: cs) s.side =
          k.restored s.store.disk cs (k.chunk c (s.store.disk.chunk c) s.side) := by
        simp [restored, Disk.validOf, hv]
      simp only [exec_bind, exec_state, bind_some, if_neg hv, exec_note, addChunkobjIn,
        exec_inStore, exec_emit, hrest]
      cases hadd : (addChunkobj q c).exec (WriteEffect.apply s.store
          (Write.chunk c fun r => { r with nvPtr := dataAddr + r.offset })) with
      | none => rfl
      | some x =>
        obtain ⟨_, st₂⟩ := x
        have hchunk : { st₂.disk.chunk c with nvPtr := 0 } =
            { s.store.disk.chunk c with nvPtr := 0 } := by
          rw [chunk_of_addChunkobj hadd]
          simp [WriteEffect.apply, Store.apply, Disk.apply]
        -- the other records are as they were
        have hsame : ∀ c' ∈ cs, st₂.disk.chunk c' = s.store.disk.chunk c' := by
          intro c' hc'
          have hne : c' ≠ c := by
            rintro rfl
            exact hc hc'
          rw [chunk_of_addChunkobj hadd]
          exact update_of_ne hne ..
        simp only [map_some, bind_some]
        have htable : b.addedChunkobj c ⟨st₂, b.restoringChunk c s⟩ = _ := k.chunk_eq hchunk
        refine (congrArg (fun t => (restoreChunksIn b q dataAddr cs).exec ⟨st₂, t⟩) htable).trans ?_
        rw [ih hnd]
        simp only [k.restored_congr hsame]

variable {place : DataFile → ℕ} {p : ℕ}

/-- `restore_chunk_objs`. -/
theorem restoreChunkObjsIn_exec {s : Beside Store κ} {q : MmapPtr}
    (hdata : (s.store.disk.data (s.store.disk.mmapobj q).dataFile).isSome)
    (hplace : place (s.store.disk.mmapobj q).dataFile ≠ 0) :
    (restoreChunkObjsIn b place q).exec s =
      ((restoreChunkObjs place q).exec s.store).map fun r =>
        (r.1, ⟨r.2, k.restored s.store.disk (s.store.disk.mmapobj q).scan s.side⟩) := by
  have hdata' : (s.store.disk.data
    ⟨(s.store.disk.mmapobj q).procId, (s.store.disk.mmapobj q).vmaId⟩).isSome := hdata
  have hplace' : place
    ⟨(s.store.disk.mmapobj q).procId, (s.store.disk.mmapobj q).vmaId⟩ ≠ 0 := hplace
  have hloop : (restoreChunkObjsIn b place q).exec s =
      (restoreChunksIn b q (place (s.store.disk.mmapobj q).dataFile)
        (s.store.disk.mmapobj q).scan).exec ⟨s.store.mapChunks place q, s.side⟩ := by
    by_cases hn : (s.store.disk.mmapobj q).numchunks = 0
    · simp [restoreChunkObjsIn, exec_bind, hdata', hplace', hn, WriteEffect.apply, Store.apply,
        Disk.apply, Ram.apply, Store.mapChunks, Mmapobj.remap, Mmapobj.mapping, Mmapobj.dataFile,
        Mmapobj.scan, metaOf]
    · simp [restoreChunkObjsIn, initChunkTree, exec_bind, hdata', hplace', hn,
        WriteEffect.apply, Store.apply, Disk.apply, Ram.apply, Store.mapChunks, Mmapobj.remap,
        Mmapobj.mapping, Mmapobj.dataFile, Mmapobj.scan, metaOf]
  rw [hloop, k.restoreChunksIn_exec (nodup_scan _), restoreChunkObjs_exec_eq hdata hplace]
  rfl

/-- `add_mmapobj`. -/
theorem addMmapobjIn_exec (q : MmapPtr) {s : Beside Store κ} {h : ProcObj} {t : Rbtree MmapPtr}
    (hh : s.store.disk.proc p = some h) (hinit : h.mmapobjInitialized = true)
    (htree : h.mmapobjTree = some ⟨s.store.ram.run, t⟩) :
    (addMmapobjIn b q p).exec s = some ((), ⟨s.store.apply (.proc p fun h =>
      h.insertMmapobj (s.store.disk.mmapobj q).vmaId q),
        k.region q (s.store.disk.mmapobj q) s.side⟩) := by
  rw [addMmapobjIn, exec_bind, exec_inStore, addMmapobj_exec hh hinit htree q, map_some,
    bind_some, exec_note, k.region_eq]
  rfl

/-- The loop of `load_process`. -/
theorem restoreMmapobjsIn_exec (qs : List MmapPtr)
    {s : Beside Store κ} {h : ProcObj} {t : Rbtree MmapPtr} (hh : s.store.disk.proc p = some h)
    (hinit : h.mmapobjInitialized = true)
    (htree : h.mmapobjTree = some ⟨s.store.ram.run, t⟩)
    (hscan : qs.Pairwise fun q q' =>
      (s.store.disk.mmapobj q).scan.Disjoint (s.store.disk.mmapobj q').scan ∧ q ≠ q')
    (hrest : ∀ q ∈ qs, Restorable s.store place q) :
    (restoreMmapobjsIn b place p qs).exec s =
      ((restoreMmapobjs place p qs).exec s.store).map fun r =>
        (r.1, ⟨r.2, k.loaded s.store.disk qs s.side⟩) := by
  induction qs generalizing s h t with
  | nil => rfl
  | cons q qs ih =>
    obtain ⟨hhead, htail⟩ := List.pairwise_cons.mp hscan
    have hq := hrest q List.mem_cons_self
    let st₀ := s.store.apply (.proc p fun h => h.insertMmapobj (s.store.disk.mmapobj q).vmaId q)
    let t₀ := k.region q (s.store.disk.mmapobj q) s.side
    obtain ⟨st₁, hexec₁, hres₁⟩ : ∃ st₁, (restoreChunkObjs place q).exec st₀ = some ((), st₁) ∧
        RegionRestored st₀ st₁ place q := restoreChunkObjs_exec hq.data hq.place hq.length
    let s₁ : Beside Store κ := ⟨st₁, k.restored s.store.disk (s.store.disk.mmapobj q).scan t₀⟩
    have hbuild₁ : (restoreChunkObjsIn b place q).exec ⟨st₀, t₀⟩ = some ((), s₁) := by
      rw [k.restoreChunkObjsIn_exec (s := ⟨st₀, t₀⟩) hq.data hq.place, hexec₁]
      rfl
    have hh₁ : st₁.disk.proc p = some (h.insertMmapobj (s.store.disk.mmapobj q).vmaId q) := by
      rw [hres₁.proc]
      simp [st₀, Store.apply, Disk.apply, hh]
    have hrec : ∀ {q'}, q' ∈ qs → st₁.disk.mmapobj q' = s.store.disk.mmapobj q' :=
      fun hq' => hres₁.other (hhead _ hq').2.symm
    -- the records of the other regions are as they were
    have hchunk : ∀ {q' c}, q' ∈ qs → c ∈ (s.store.disk.mmapobj q').scan →
        st₁.disk.chunk c = s.store.disk.chunk c := by
      intro q' c hq' hc
      rw [hres₁.chunk, if_neg]
      · rfl
      · rintro ⟨hc', -⟩
        exact (hhead q' hq').1 hc' hc
    have hloaded : k.loaded st₁.disk qs s₁.side = k.loaded s.store.disk qs s₁.side := by
      refine List.foldl_ext _ _ _ fun t q' hq' => ?_
      rw [hrec hq', k.restored_congr fun c hc => hchunk hq' hc]
    have hscan₁ : qs.Pairwise fun q q' =>
        (st₁.disk.mmapobj q).scan.Disjoint (st₁.disk.mmapobj q').scan ∧ q ≠ q' := by
      refine List.Pairwise.imp_of_mem ?_ htail
      intro q₁ q₂ hq₁ hq₂ hdis
      rw [hrec hq₁, hrec hq₂]
      exact hdis
    have hrest₁ : ∀ q' ∈ qs, Restorable st₁ place q' := by
      intro q' hq'
      have hr := hrest q' (List.mem_cons_of_mem _ hq')
      have hr₀ : Restorable st₀ place q' := ⟨hr.data, hr.place, hr.length⟩
      exact hr₀.of_restored hres₁ (hhead q' hq').2.symm
    have htree₁ : (h.insertMmapobj (s.store.disk.mmapobj q).vmaId q).mmapobjTree =
        some ⟨st₁.ram.run, t.insert (s.store.disk.mmapobj q).vmaId q⟩ := by
      have hrun : st₁.ram.run = s.store.ram.run := (congrArg Ram.run hres₁.ram :)
      rw [hrun]
      simp [ProcObj.insertMmapobj, htree, TreeRef.insert]
    rw [restoreMmapobjsIn, restoreMmapobjs, exec_bind, exec_bind,
      k.addMmapobjIn_exec q hh hinit htree, addMmapobj_exec hh hinit htree q,
      bind_some, bind_some, exec_bind, exec_bind]
    show ((restoreChunkObjsIn b place q).exec ⟨st₀, t₀⟩).bind _ =
      (((restoreChunkObjs place q).exec st₀).bind _).map _
    rw [hbuild₁, hexec₁, bind_some, bind_some]
    refine (ih (s := s₁) hh₁ hinit htree₁ hscan₁ hrest₁).trans ?_
    rw [show k.loaded s₁.store.disk qs s₁.side = _ from hloaded]
    rfl

/-- **`load_process` in a build**, of a process that is not registered: the store is that of the
build without additions, and the tables are what the files say. -/
theorem loadProcessIn_exec {s : Beside Store κ} (hs : ShapeOk s.store.disk.shape)
    (hinit : s.store.ram.gInitialized = true) (hreg : s.store.findProcess p = none)
    (hplace : PlaceOk s.store place p) :
    (loadProcessIn b place p).exec s =
      ((loadProcess place p).exec s.store).map fun r =>
        (r.1, ⟨r.2, k.loaded s.store.disk (s.store.disk.regions p) s.side⟩) := by
  obtain ⟨h, hh⟩ := exists_header s.store p
  have hs₁ := shapeOk_ensureHeader (p := p) hs
  have hplace₁ := placeOk_ensureHeader hplace
  let st₁ := (s.store.ensureHeader p).openProcess p h
  have hregion : ∀ {q}, q ∈ mmapobjSlots p h.pesistMmaps →
      IsRegion (s.store.ensureHeader p).disk.shape p q := fun hq => (isRegion_iff_mem hh).mpr hq
  have hscan : (mmapobjSlots p h.pesistMmaps).Pairwise fun q q' =>
      (st₁.disk.mmapobj q).scan.Disjoint (st₁.disk.mmapobj q').scan ∧ q ≠ q' := by
    refine List.Pairwise.imp_of_mem ?_ (nodup_mmapobjSlots p h.pesistMmaps)
    intro q q' hq hq' hne
    exact ⟨scan_disjoint hs₁ (hregion hq) (hregion hq') hne, hne⟩
  have hrest : ∀ q ∈ mmapobjSlots p h.pesistMmaps, Restorable st₁ place q := by
    intro q hq
    have hr := restorable hs₁ hplace₁ (hregion hq)
    exact ⟨hr.data, hr.place, hr.length⟩
  have hloop := k.restoreMmapobjsIn_exec (s := ⟨st₁, s.side⟩) _ (t := .empty)
    (update_self ..) rfl rfl hscan hrest
  -- a header that is created here has no regions
  have hloaded : k.loaded st₁.disk (mmapobjSlots p h.pesistMmaps) s.side =
      k.loaded s.store.disk (s.store.disk.regions p) s.side := by
    cases hp : s.store.disk.proc p with
    | none =>
      rw [ensureHeader_of_none hp] at hh
      simp only [Store.apply, Disk.apply, update_self, some.injEq] at hh
      subst hh
      simp [Disk.regions, hp, loaded, mmapobjSlots]
    | some h' =>
      have heq : s.store.ensureHeader p = s.store := ensureHeader_of_some hp
      rw [heq, hp] at hh
      cases hh
      rw [Disk.regions, hp]
      show k.loaded ((s.store.ensureHeader p).openProcess p h).disk _ _ = _
      rw [heq]
      rfl
  rw [loadProcessIn_exec_eq b hinit hreg hh, hloop, loadProcess_exec_eq place hinit hreg hh,
    map_map, map_map, hloaded]
  rfl

/-- A new run. -/
theorem restartIn_exec {init : κ} {s : Beside Store κ} (hs : ShapeOk s.store.disk.shape)
    (hplace : PlaceOk s.store.reboot place p) :
    restartIn b init s place p = (restart s.store place p).map fun st' =>
      ⟨st', k.loaded s.store.disk (s.store.disk.regions p) init⟩ := by
  have hplace' : PlaceOk s.store.started place p := ⟨hplace.pos, hplace.apart, hplace.pairwise⟩
  rw [restartIn_eq, k.loadProcessIn_exec (s := ⟨s.store.started, init⟩) hs rfl
    (findProcess_started s.store p) hplace', restart_eq, map_map, map_map]
  rfl

end LoadHooks
