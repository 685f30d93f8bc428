/-
# What leaves the regions alone

Most functions of the store neither map a region nor change what is recorded about one: its id,
its address, its length and its owner (`KeepsRegions`).  This holds in every build whose
additions do so too (`Quiet`), with what they keep of their tables.

So the functions with which an allocation begins leave the address-range tree as it is, and the
build without additions is the one of `NvMap` also for `nv_record_chunk` (`stepIn_plain`).
-/
import NvMalloc.Builds
import NvMalloc.Routine

open WriteM WriteGhost Beside Function Option

/-! ## Regions in the store -/

/-- What the ring and the kernel are told about a region: its id, its address, its length and its
owner. -/
def Mmapobj.range (m : Mmapobj) : ℕ × ℕ × ℕ × ℕ := (m.vmaId, m.dataAddr, m.length, m.procId)

/-- Where the next region record of a process goes, and how many it has. -/
def ProcObj.counts (h : ProcObj) : ℕ × ℕ := (h.metaOffset, h.pesistMmaps)

/-- The ranges, the regions and where new ones go are as before. -/
structure KeepsRegions (st st' : Store) : Prop where
  mapTree : st'.ram.mapTree = st.ram.mapTree
  maps : st'.ram.maps = st.ram.maps
  procVmas : st'.ram.procVmas = st.ram.procVmas
  start : st'.ram.procMapStart = st.ram.procMapStart
  header : ∀ p, (st'.disk.proc p).map ProcObj.counts = (st.disk.proc p).map ProcObj.counts
  region : ∀ q, (st'.disk.mmapobj q).range = (st.disk.mmapobj q).range

theorem KeepsRegions.refl (st : Store) : KeepsRegions st st :=
  ⟨rfl, rfl, rfl, rfl, fun _ => rfl, fun _ => rfl⟩

variable {st : Store}

theorem KeepsRegions.trans {st' st'' : Store} (h : KeepsRegions st st') (h' : KeepsRegions st' st'')
    : KeepsRegions st st'' where
  mapTree := h'.mapTree.trans h.mapTree
  maps := h'.maps.trans h.maps
  procVmas := h'.procVmas.trans h.procVmas
  start := h'.start.trans h.start
  header p := (h'.header p).trans (h.header p)
  region q := (h'.region q).trans (h.region q)

instance : IsPreorder Store KeepsRegions where
  refl := KeepsRegions.refl
  trans _ _ _ := KeepsRegions.trans

/-- The same processes have a header. -/
theorem KeepsRegions.isSome_proc {st' : Store} (h : KeepsRegions st st') (p : ℕ) :
    (st'.disk.proc p).isSome = (st.disk.proc p).isSome := by
  have hsome := congrArg Option.isSome (h.header p)
  rwa [isSome_map, isSome_map] at hsome

section Keeps

/-- A change of a header that keeps its counts. -/
theorem keepsRegions_proc {p : ℕ} {f : ProcObj → ProcObj} (hf : ∀ h, (f h).counts = h.counts) :
    KeepsRegions st (st.apply (.proc p f)) where
  mapTree := rfl
  maps := rfl
  procVmas := rfl
  start := rfl
  header p' := by
    show (update st.disk.proc p ((st.disk.proc p).map f) p').map ProcObj.counts = _
    by_cases hpp : p' = p
    · subst hpp
      rw [update_self, map_map]
      exact congrArg (fun g => (st.disk.proc p').map g) (funext hf)
    · rw [update_of_ne hpp]
  region _ := rfl

theorem keepsRegions_chunk (c : ChunkPtr) (f : Chunkobj → Chunkobj) :
    KeepsRegions st (st.apply (.chunk c f)) := ⟨rfl, rfl, rfl, rfl, fun _ => rfl, fun _ => rfl⟩

theorem keepsRegions_byte (f : DataFile) (o : ℕ) (b : UInt8) :
    KeepsRegions st (st.apply (.byte f o b)) := ⟨rfl, rfl, rfl, rfl, fun _ => rfl, fun _ => rfl⟩

/-- A change of the globals beside those of the regions. -/
theorem keepsRegions_ram {f : Ram → Ram} (htree : ∀ r, (f r).mapTree = r.mapTree)
    (hmaps : ∀ r, (f r).maps = r.maps) (hvmas : ∀ r, (f r).procVmas = r.procVmas)
    (hstart : ∀ r, (f r).procMapStart = r.procMapStart) : KeepsRegions st (st.apply (.ram f)) :=
  ⟨htree _, hmaps _, hvmas _, hstart _, fun _ => rfl, fun _ => rfl⟩

/-- A change of a region record that keeps its range. -/
theorem keepsRegions_mmapobj {q : MmapPtr} {f : Mmapobj → Mmapobj}
    (hf : ∀ m, (f m).range = m.range) : KeepsRegions st (st.apply (.mmapobj q f)) where
  mapTree := rfl
  maps := rfl
  procVmas := rfl
  start := rfl
  header _ := rfl
  region q' := by
    show (update st.disk.mmapobj q (f (st.disk.mmapobj q)) q').range = _
    by_cases hqq : q' = q
    · subst hqq
      rw [update_self, hf]
    · rw [update_of_ne hqq]

/-- The first search for a region makes the tree of its process. -/
theorem stays_initializeMmapobjTree (x : ℕ) : Stays KeepsRegions (initializeMmapobjTree x) st := by
  refine stays_state_bind (stays_lift_bind fun h _ => ?_)
  split
  · exact stays_emit_bind (keepsRegions_proc fun _ => rfl)
      (stays_emit (keepsRegions_proc fun _ => rfl))
  · exact stays_pure _

theorem stays_findMmapobjFromChunkid (id x : ℕ) :
    Stays KeepsRegions (findMmapobjFromChunkid id x) st := by
  refine stays_state_bind (stays_lift_bind fun h _ => ?_)
  split
  · split
    · exact stays_pure _
    · exact stays_lift_bind fun _ _ => stays_lift_bind fun _ _ => stays_pure _
  · exact stays_then (stays_initializeMmapobjTree x) fun _ _ => stays_pure _

theorem stays_findMmapobj (v x : ℕ) : Stays KeepsRegions (findMmapobj v x) st := by
  refine stays_state_bind (stays_lift_bind fun h _ => ?_)
  split
  · exact stays_lift_bind fun _ _ => stays_lift_bind fun _ _ => stays_pure _
  · exact stays_then (stays_initializeMmapobjTree x) fun _ _ => stays_pure _

theorem stays_addChunkobj (q : MmapPtr) (k : ChunkPtr) :
    Stays KeepsRegions (addChunkobj q k) st := by
  refine stays_state_bind (stays_lift_bind fun _ _ => stays_assert_bind fun _ => ?_)
  refine stays_lift_bind fun _ _ => stays_emit_bind (keepsRegions_mmapobj fun _ => rfl) ?_
  exact stays_emit (keepsRegions_ram (fun _ => rfl) (fun _ => rfl) (fun _ => rfl) fun _ => rfl)

variable {st' : Store}

/-- Storing bytes. -/
theorem stays_storeBytes {a : ℕ} {bs : List UInt8} {ws : List Write}
    (h : st'.storeBytes a bs = some ws) : Stays KeepsRegions (emits ws : NvM Unit) st := by
  intro u us hus k
  cases hus
  refine applyAll_take_of_forall (P := KeepsRegions st) ?_ (.refl st) k
  intro w hw st₁ h₁
  obtain ⟨f, o, b, rfl⟩ := mem_storeBytes h hw
  exact h₁.trans (keepsRegions_byte f o b)

/-- A new chunk record. -/
theorem stays_createChunkobj (rqst : Rqst) (offset nvPtr : ℕ) (q : MmapPtr) :
    Stays KeepsRegions (createChunkobj rqst offset nvPtr q) st := by
  have hupdate : ∀ (k : ChunkPtr) (st₁ : Store),
      Stays KeepsRegions (updateChunkobj rqst offset nvPtr q k) st₁ := by
    intro k st₁
    refine stays_state_bind ?_
    iterate 8 refine stays_emit_bind (keepsRegions_chunk _ _) ?_
    refine stays_lift_bind fun ws hws => stays_then (stays_storeBytes hws) fun _ _ => ?_
    exact stays_assert_bind fun _ => stays_emit (keepsRegions_chunk _ _)
  refine stays_state_bind (stays_lift_bind fun _ _ => stays_assert_bind fun _ => ?_)
  refine stays_emit_bind (keepsRegions_mmapobj fun _ => rfl) ?_
  exact stays_then (hupdate _ _) fun _ _ => stays_pure _

theorem stays_addMmapobj (q : MmapPtr) (x : ℕ) : Stays KeepsRegions (addMmapobj q x) st := by
  have hend : ∀ st₁ : Store, Stays KeepsRegions (do
      let st ← state
      let h ← lift (st.disk.proc x)
      let t ← lift h.mmapobjTree
      let _ ← lift (t.deref st.ram.run)
      emit (.proc x fun h => h.insertMmapobj (st.disk.mmapobj q).vmaId q)) st₁ := fun st₁ =>
    stays_state_bind (stays_lift_bind fun _ _ => stays_lift_bind fun _ _ =>
      stays_lift_bind fun _ _ => stays_emit (keepsRegions_proc fun _ => rfl))
  refine stays_state_bind (stays_lift_bind fun h _ => ?_)
  split
  · exact stays_then (stays_initializeMmapobjTree x) fun _ st₁ => hend st₁
  · exact hend st

/-- Registering a process. -/
theorem stays_addProcObj (x : ℕ) : Stays KeepsRegions (addProcObj x) st :=
  stays_state_bind (stays_lift_bind fun _ _ => stays_emit
    (keepsRegions_ram (fun _ => rfl) (fun _ => rfl) (fun _ => rfl) fun _ => rfl))

/-- The state after a program. -/
theorem WriteM.Stays.exec {α : Type} {m : NvM α} {a : α} (h : Stays KeepsRegions m st)
    (hm : m.exec st = some (a, st')) : KeepsRegions st st' := by
  obtain ⟨⟨_, ws⟩, hrun, heq⟩ := map_eq_some_iff.mp hm
  cases heq
  exact h.final hrun

/-- The header that a process id leads to. -/
def Store.procOf (st : Store) (pid : ℕ) : ℕ := (st.findProcess pid).getD pid

/-- The store after `create_or_load_proc_obj`. -/
def Store.joined (st : Store) (pid : ℕ) : Store :=
  if (st.findProcess pid).isSome then st
  else (st.ensureHeader pid).apply (.ram fun r => { r with procMapStart := some pid })

/-- `create_or_load_proc_obj` registers a process that was not found. -/
theorem createOrLoadProcObj_exec (pid : ℕ) (st : Store) :
    (createOrLoadProcObj pid).exec st = some (st.procOf pid, st.joined pid) := by
  unfold Store.procOf Store.joined
  cases hreg : st.findProcess pid with
  | none => exact createOrLoadProcObj_exec_of_unregistered hreg
  | some x =>
    rw [createOrLoadProcObj, exec_bind, exec_state, bind_some, hreg]
    rfl

/-- What `create_or_load_proc_obj` leaves of the ranges. -/
theorem joined_ram (st : Store) (pid : ℕ) :
    (st.joined pid).ram.maps = st.ram.maps ∧ (st.joined pid).ram.mapTree = st.ram.mapTree ∧
      (st.joined pid).ram.procVmas = st.ram.procVmas := by
  unfold Store.joined Store.ensureHeader
  split
  · exact ⟨rfl, rfl, rfl⟩
  · split <;> exact ⟨rfl, rfl, rfl⟩

/-- Opening a header registers the process and keeps the regions. -/
theorem loadHeader_exec {pid proc : ℕ} (h : (loadHeader pid).exec st = some (proc, st')) :
    proc = st.procOf pid ∧ KeepsRegions (st.joined pid) st' := by
  simp only [loadHeader, exec_bind, exec_state, bind_some, exec_assert,
    createOrLoadProcObj_exec, exec_emit, exec_pure, bind_eq_some_iff] at h
  obtain ⟨⟨_, _⟩, hassert, ⟨_, st₂⟩, hadd, ⟨_, st₃⟩, hinit, heq⟩ := h
  split at hassert
  · cases hassert
    cases heq
    refine ⟨rfl, ?_⟩
    have hclosed : KeepsRegions (st.joined pid) _ :=
      (keepsRegions_proc (p := st.procOf pid)
        (f := fun h => { h with mmapobjInitialized := false }) fun _ => rfl).trans
      (keepsRegions_proc (p := st.procOf pid)
        (f := fun h => { h with mmapobjTree := none }) fun _ => rfl)
    exact hclosed.trans (((stays_addProcObj _).exec hadd).trans
      ((stays_initializeMmapobjTree _).exec hinit))
  · cases hassert

end Keeps

/-! ## Regions in every build -/

/-- The regions of the store are as before, and the tables have changed by `T`. -/
structure KeepsMaps {κ : Type} (T : κ → κ → Prop) (s s' : Beside Store κ) : Prop where
  regions : KeepsRegions s.store s'.store
  tables : T s.side s'.side

instance {κ : Type} (T : κ → κ → Prop) [IsPreorder κ T] :
    IsPreorder (Beside Store κ) (KeepsMaps T) where
  refl s := ⟨.refl s.store, refl s.side⟩
  trans _ _ _ h h' := ⟨h.regions.trans h'.regions, IsTrans.trans _ _ _ h.tables h'.tables⟩

/-- Where it is not concerned with regions, the build changes its tables by `T`. -/
structure Build.Quiet {κ : Type} (b : Build κ) (T : κ → κ → Prop) : Prop where
  findProcObj : ∀ pid s, T s.side (b.findProcObj pid s).2
  addedChunkobj : ∀ c s, T s.side (b.addedChunkobj c s)
  restoringChunk : ∀ c s, T s.side (b.restoringChunk c s)
  deletingChunk : ∀ c s, T s.side (b.deletingChunk c s)
  recordingChunk : ∀ pid s, T s.side (b.recordingChunk pid s)

section Builds

variable {κ : Type} {T : κ → κ → Prop} [IsPreorder κ T] {b : Build κ} {s : Beside Store κ}
  {α β : Type}

/-- A program of the store leaves the tables alone. -/
theorem stays_inStore {m : NvM α} (h : Stays KeepsRegions m s.store) :
    Stays (KeepsMaps T) (inStore m : BuildM κ α) s := by
  intro a ws hrun k
  obtain ⟨⟨a', us⟩, hm, heq⟩ := map_eq_some_iff.mp hrun
  cases heq
  rw [← List.map_take, applyAll_map]
  exact ⟨h _ us hm k, refl s.side⟩

theorem keepsMaps_write {w : Write} (h : KeepsRegions s.store (s.store.apply w)) :
    KeepsMaps T s (WriteEffect.apply s (.inl w : Write ⊕ κ)) := ⟨h, refl s.side⟩

/-- A note in the tables. -/
theorem stays_note {g : Beside Store κ → κ} (h : T s.side (g s)) :
    Stays (KeepsMaps T) (note g : BuildM κ Unit) s :=
  stays_state_bind (stays_emit ⟨.refl _, h⟩)

theorem stays_note_bind {g : Beside Store κ → κ} {f : Unit → BuildM κ β} (h : T s.side (g s))
    (hf : ∀ s', Stays (KeepsMaps T) (f ()) s') : Stays (KeepsMaps T) (note g >>= f) s :=
  stays_then (stays_note h) fun _ => hf

theorem stays_ask_bind {g : Beside Store κ → α × κ} {f : α → BuildM κ β} (h : T s.side (g s).2)
    (hf : ∀ a s', Stays (KeepsMaps T) (f a) s') : Stays (KeepsMaps T) (ask g >>= f) s :=
  stays_then (stays_state_bind (stays_emit_bind ⟨.refl _, h⟩ (stays_pure _))) hf

section

variable (hb : b.Quiet T)
include hb

theorem stays_getChunkIn (rqst : Rqst) : Stays (KeepsMaps T) (getChunkIn b rqst) s := by
  refine stays_assert_bind fun _ => stays_state_bind ?_
  split
  · exact stays_pure _
  · refine stays_assert_bind fun _ => stays_ask_bind (hb.findProcObj _ _) fun proc s' => ?_
    cases proc with
    | none => exact stays_pure _
    | some x =>
      refine stays_then (stays_inStore (stays_findMmapobjFromChunkid _ _)) fun found s'' => ?_
      cases found with
      | none => exact stays_pure _
      | some q => exact stays_state_bind (stays_lift _)

theorem stays_checkIfChunkExistsIn (rqst : Rqst) :
    Stays (KeepsMaps T) (checkIfChunkExistsIn b rqst) s := by
  refine stays_then (stays_getChunkIn hb rqst) fun found s' => ?_
  cases found with
  | none => exact stays_pure _
  | some c =>
    refine stays_state_bind ?_
    split
    · exact stays_emit_bind (keepsMaps_write (keepsRegions_chunk _ _)) (stays_pure _)
    · exact stays_pure _

/-- Deleting a chunk. -/
theorem stays_nvDeleteIn (rqst : Rqst) : Stays (KeepsMaps T) (nvDeleteIn b rqst) s := by
  refine stays_assert_bind fun _ => stays_ask_bind (hb.findProcObj _ _) fun found s₀ => ?_
  refine stays_lift_bind fun x _ => stays_then (stays_getChunkIn hb rqst) fun found s₁ => ?_
  cases found with
  | none => exact stays_pure _
  | some c =>
    refine stays_note_bind (hb.deletingChunk _ _) fun s₂ => ?_
    refine stays_emit_bind (keepsMaps_write (keepsRegions_chunk _ _)) ?_
    refine stays_emit_bind (keepsMaps_write (keepsRegions_chunk _ _)) (stays_state_bind ?_)
    refine stays_then (stays_inStore (stays_findMmapobjFromChunkid _ _)) fun region s₃ => ?_
    cases region with
    | none => exact stays_pure _
    | some q =>
      have hend : ∀ s₄ : Beside Store κ, Stays (KeepsMaps T) (do
          emit (.inl (.ram fun r => { r with objnamemap := r.objnamemap.erase rqst.varName }))
          return (0 : ℤ) : BuildM κ ℤ) s₄ := fun s₄ => stays_emit_bind (keepsMaps_write
        (keepsRegions_ram (fun _ => rfl) (fun _ => rfl) (fun _ => rfl) fun _ => rfl)) (stays_pure _)
      refine stays_state_bind ?_
      split
      · exact hend _
      · exact stays_lift_bind fun _ _ =>
          stays_emit_bind (keepsMaps_write (keepsRegions_mmapobj fun _ => rfl)) (hend _)

theorem stays_addChunkobjIn (q : MmapPtr) (c : ChunkPtr) :
    Stays (KeepsMaps T) (addChunkobjIn b q c) s :=
  stays_then (stays_inStore (stays_addChunkobj q c)) fun _ _ => stays_note (hb.addedChunkobj _ _)

theorem stays_addChunkToMmapobjIn (rqst : Rqst) (offset nvPtr : ℕ) (q : MmapPtr) :
    Stays (KeepsMaps T) (addChunkToMmapobjIn b rqst offset nvPtr q) s :=
  stays_then (stays_inStore (stays_createChunkobj rqst offset nvPtr q)) fun c _ =>
    stays_then (stays_addChunkobjIn hb q c) fun _ _ => stays_pure _

/-- An entry that is replaced. -/
theorem stays_replaceChunkIn (id : ℕ) (c : ChunkPtr) (old : Option ChunkPtr) :
    Stays (KeepsMaps T) (replaceChunkIn b id c old) s := by
  cases old with
  | none => exact stays_pure _
  | some o =>
    refine stays_state_bind (stays_lift_bind fun _ _ => stays_lift_bind fun ws hws => ?_)
    refine stays_then (stays_inStore (stays_storeBytes hws)) fun _ _ => ?_
    refine stays_emit_bind (keepsMaps_write (keepsRegions_chunk _ _)) ?_
    exact stays_then (stays_nvDeleteIn hb _) fun _ _ => stays_pure _

/-- Restoring the chunks of a region. -/
theorem stays_restoreChunksIn (q : MmapPtr) (dataAddr : ℕ) (cs : List ChunkPtr) :
    Stays (KeepsMaps T) (restoreChunksIn b q dataAddr cs) s := by
  induction cs generalizing s with
  | nil => exact stays_pure _
  | cons c cs ih =>
    refine stays_state_bind ?_
    split
    · exact ih
    · refine stays_note_bind (hb.restoringChunk _ _) fun s' => ?_
      refine stays_emit_bind (keepsMaps_write (keepsRegions_chunk _ _)) ?_
      exact stays_then (stays_addChunkobjIn hb q c) fun _ _ => ih

end

omit [IsPreorder κ T] in
/-- The state after a program. -/
theorem KeepsMaps.of_exec {m : BuildM κ α} {s' : Beside Store κ} {a : α}
    (h : Stays (KeepsMaps T) m s) (hm : m.exec s = some (a, s')) : KeepsMaps T s s' := by
  obtain ⟨⟨_, ws⟩, hrun, heq⟩ := map_eq_some_iff.mp hm
  cases heq
  exact h.final hrun

/-- The header that a build finds or opens for a process id. -/
def Build.procOf (b : Build κ) (pid : ℕ) (s : Beside Store κ) : ℕ :=
  (b.findProcObj pid s).1.getD (s.store.procOf pid)

/-- The store when that header is open. -/
def Build.opened (b : Build κ) (pid : ℕ) (s : Beside Store κ) : Store :=
  if (b.findProcObj pid s).1.isSome then s.store else s.store.joined pid

/-- Opening a process maps nothing. -/
theorem Build.opened_ram (b : Build κ) (pid : ℕ) (s : Beside Store κ) :
    (b.opened pid s).ram.maps = s.store.ram.maps ∧
      (b.opened pid s).ram.mapTree = s.store.ram.mapTree ∧
      (b.opened pid s).ram.procVmas = s.store.ram.procVmas := by
  unfold Build.opened
  split
  · exact ⟨rfl, rfl, rfl⟩
  · exact joined_ram s.store pid

/-- `find_or_load_process` in the build `b`. -/
theorem findOrLoadProcessIn_exec (b : Build κ) (pid : ℕ) (s : Beside Store κ) :
    (findOrLoadProcessIn b pid).exec s =
      some (b.procOf pid s, ⟨b.opened pid s, (b.findProcObj pid s).2⟩) := by
  rw [findOrLoadProcessIn, exec_bind, exec_ask, bind_some, Build.procOf, Build.opened]
  cases (b.findProcObj pid s).1 with
  | some x => rfl
  | none => simp [createOrLoadProcObj_exec]

theorem findOrCreateProcessIn_exec {pid x : ℕ} {s' : Beside Store κ}
    (h : (findOrCreateProcessIn b pid).exec s = some (x, s')) :
    x = b.procOf pid s ∧ KeepsRegions (b.opened pid s) s'.store ∧
      s'.side = (b.findProcObj pid s).2 := by
  rw [findOrCreateProcessIn, exec_bind, exec_ask, bind_some] at h
  unfold Build.procOf Build.opened
  cases hfind : (b.findProcObj pid s).1 with
  | some y =>
    rw [hfind] at h
    cases h
    exact ⟨rfl, .refl _, rfl⟩
  | none =>
    rw [hfind] at h
    simp only [exec_bind, exec_inStore, createOrLoadProcObj_exec, map_some,
      bind_some, exec_pure, bind_eq_some_iff, map_eq_some_iff] at h
    obtain ⟨_, ⟨⟨_, st₂⟩, hadd, rfl⟩, heq⟩ := h
    cases heq
    exact ⟨rfl, (stays_addProcObj _).exec hadd, rfl⟩

/-- The functions with which an allocation begins: they open a header, and leave the regions
alone. -/
theorem prologue_exec (hb : b.Quiet T) {rqst : Rqst} {x : ℕ} {s₁ s₂ : Beside Store κ}
    {old : Option ChunkPtr} (h₁ : (findOrCreateProcessIn b rqst.pid).exec s = some (x, s₁))
    (h₂ : (checkIfChunkExistsIn b rqst).exec s₁ = some (old, s₂)) :
    x = b.procOf rqst.pid s ∧ KeepsRegions (b.opened rqst.pid s) s₂.store ∧ T s.side s₂.side := by
  obtain ⟨hx, hopen, hside⟩ := findOrCreateProcessIn_exec h₁
  have hcheck := KeepsMaps.of_exec (stays_checkIfChunkExistsIn hb rqst) h₂
  refine ⟨hx, hopen.trans hcheck.regions, trans ?_ hcheck.tables⟩
  rw [hside]
  exact hb.findProcObj _ _

end Builds

/-! ## Builds without additions -/

/-- A region that is located starts at or below the address. -/
theorem startAddr_le_of_locate (hr : RamOk st) {addr : ℕ} {nd : MmapobjNode}
    (h : st.locateMmapobjNode addr = some nd) : nd.startAddr ≤ addr := by
  obtain ⟨k, hk, heq⟩ := (RbtreeNode.lookupBy_eq_some_iff (hr.compRange_monotone addr) nd).mp h
  have hfind : st.ram.mapTree.find k = some nd :=
    (RbtreeNode.lookup_eq_some_iff st.ram.mapTree.ordered k nd).mpr hk
  have hstart := (hr.node hfind).start
  subst hstart
  have hle := compRange_eq_iff.mp heq
  omega

section Restoring

variable {κ : Type} {f : ChunkPtr → Beside Store κ → κ} {s : Beside Store κ}

/-- The start of an allocation leaves the tree of the ranges as it is. -/
theorem mapTree_prologue {rqst : Rqst} {x : ℕ} {st₁ st₂ : Store} {old : Option ChunkPtr}
    (h₁ : (findOrCreateProcess rqst.pid).exec s.store = some (x, st₁))
    (h₂ : (checkIfChunkExists rqst).exec st₁ = some (old, st₂)) :
    st₂.ram.mapTree = s.store.ram.mapTree := by
  have hquiet : plain.Quiet Eq :=
    ⟨fun _ _ => rfl, fun _ _ => rfl, fun _ _ => rfl, fun _ _ => rfl, fun _ _ => rfl⟩
  have hfind : (findOrCreateProcessIn plain rqst.pid).exec ⟨s.store, ()⟩ = some (x, ⟨st₁, ()⟩) :=
    (mirrors_findOrCreateProcess _).trans (by rw [h₁]; rfl)
  have hcheck : (checkIfChunkExistsIn plain rqst).exec ⟨st₁, ()⟩ = some (old, ⟨st₂, ()⟩) :=
    (mirrors_checkIfChunkExists rqst).trans (by rw [h₂]; rfl)
  obtain ⟨-, hopen, -⟩ := prologue_exec hquiet hfind hcheck
  exact hopen.mapTree.trans (plain.opened_ram rqst.pid ⟨s.store, ()⟩).2.1

/-- A build that only restores differently allocates as the plain one. -/
theorem mirrors_nvRecordChunk (hr : RamOk s.store) (rqst : Rqst) (addr : ℕ) :
    Mirrors (nvRecordChunkIn (restoring f) rqst addr) (nvRecordChunk rqst addr) s := by
  refine mirrors_state_bind (mirrors_assert_bind fun _ => ?_)
  refine mirrors_bind (mirrors_findOrCreateProcess _) fun x st₁ h₁ => ?_
  refine mirrors_bind (mirrors_checkIfChunkExists _) fun old st₂ h₂ => mirrors_state_bind ?_
  cases hloc : st₂.locateMmapobjNode addr with
  | none =>
    show Mirrors (lift (Option.map _ (st₂.locateMmapobjNode addr)) >>= _) _ _
    rw [hloc]
    rfl
  | some nd =>
    have hle : nd.startAddr ≤ addr := by
      refine startAddr_le_of_locate hr ?_
      rw [← hloc, Store.locateMmapobjNode, Store.locateMmapobjNode, mapTree_prologue h₁ h₂]
    show Mirrors (lift (Option.map _ (st₂.locateMmapobjNode addr)) >>= _) _ _
    rw [hloc]
    show Mirrors (pure (nd.mapId, nd.startAddr, none) >>= _) (pure nd >>= _) _
    rw [pure_bind_eq, pure_bind_eq]
    have hoffset : subUlong addr nd.startAddr = addr - nd.startAddr := if_pos hle
    simp only [hoffset]
    refine mirrors_assert_bind fun _ => mirrors_assert_bind fun _ => ?_
    refine mirrors_bind (mirrors_findOrAddMmapobj _ _ nd) fun q _ _ => ?_
    refine mirrors_assert_bind fun _ => mirrors_note_bind rfl ?_
    refine mirrors_bind (mirrors_addChunkToMmapobj _ _ _ q) fun c _ _ => mirrors_emit_bind ?_
    exact mirrors_bind (mirrors_replaceChunk _ _ _) fun _ _ _ => mirrors_emit _

/-- An operation other than a restart, where the process is in memory or is loaded alike. -/
theorem stepIn_restoring {init : κ} {p : ℕ} {op : Op} (hr : RamOk s.store)
    (hload : s.store.findProcess p = none → ∀ place,
      Mirrors (loadProcessIn (restoring f) place p) (loadProcess place p) s)
    (hop : ∀ place, op ≠ .restart place) :
    stepIn (restoring f) init p s op =
      (step p s.store op).map fun r => (r.1, ⟨r.2, s.side⟩) := by
  have hrun : ∀ {α : Type} {m' : BuildM κ α} {m : NvM α} (g : α → Ret), Mirrors m' m s →
      (m'.exec s).map (fun r => (g r.1, r.2)) =
        ((m.exec s.store).map fun r => (g r.1, r.2)).map fun r => (r.1, ⟨r.2, s.side⟩) := by
    intro α m' m g h
    rw [h, map_map, map_map]
    rfl
  have hread : ∀ place n, Mirrors (nvMapReadIn (restoring f) place (request p n))
      (nvMapRead place (request p n)) s :=
    fun place n => mirrors_nvMapRead place _ fun hreg => hload hreg place
  cases op with
  | mmap size addr => exact hrun (fun _ => .done) (mirrors_mmapRegion p size addr)
  | alloc n bytes addr => exact hrun (fun _ => .done) (mirrors_nvRecordChunk hr _ addr)
  | commit n size => exact hrun .status (mirrors_nvCommitLen _ size)
  | delete n => exact hrun .status (mirrors_nvDelete _)
  | read n place =>
    refine hrun .object (mirrors_bind (hread place n) fun found _ _ => ?_)
    cases found with
    | none => exact mirrors_pure _
    | some r => exact mirrors_state_bind (mirrors_lift_bind fun _ _ => mirrors_pure _)
  | write n off bs =>
    refine hrun (fun _ => .done) (mirrors_bind (hread _ n) fun _ _ _ => ?_)
    exact mirrors_lift_bind fun _ _ => mirrors_state_bind (mirrors_lift_bind fun _ _ =>
      mirrors_inStore _)
  | rename a d => exact hrun (fun _ => .done) (mirrors_nvRename _ d)
  | restart place => exact absurd rfl (hop place)

end Restoring

/-- **The build without additions is the one of `NvMap`**: every operation has the same result,
leads to the same store, and fails where it fails there. -/
theorem stepIn_plain (hr : RamOk st) (p : ℕ) (op : Op) :
    stepIn plain () p ⟨st, ()⟩ op = (step p st op).map fun r => (r.1, ⟨r.2, ()⟩) := by
  cases op with
  | restart place =>
    have hinit : Mirrors (nvInitializeIn plain place p) _ ⟨st.reboot, ()⟩ :=
      mirrors_nvInitialize place p
    show ((Option.map Prod.snd ((nvInitializeIn plain place p).exec ⟨st.reboot, ()⟩)).map fun s' =>
      (Ret.done, s')) = _
    rw [hinit, step, restart, map_map, map_map, map_map, map_map]
    rfl
  | _ =>
    refine stepIn_restoring (s := ⟨st, ()⟩) hr (fun _ place => mirrors_loadProcess place p) ?_
    exact fun _ h => Op.noConfusion h
