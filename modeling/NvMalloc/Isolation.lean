/-
# Isolation of processes

One run of a program may work for several process ids: each operation names the
process it is for.  The files of different processes are different, but the run has
one address-range tree, one table of region sizes and one pointer `proc_map_start`
to the header that the next region record goes to, and none of them is keyed by the
process.  The pointer is set when a header is created or opened, so it belongs to the
process that was opened last.

`RunIsolated` is what keeping processes apart is for: each process has its own map of
objects, which it recovers exactly, an operation writes only into the files of its own
process, and the records of a process name data files of that process.  It holds in
every run in which the shared globals belong to the process whenever it gets a region
record (`runIsolated_of_ownGlobals`).  When another process was opened in between, the
record goes into the header file of that process and the object is lost.
-/
import NvMalloc.Keeps

open WriteM Function

/-! ## Operations for several processes -/

/-- An operation for process `pid`. -/
structure PidOp where
  pid : ℕ
  op : Op

/-- The operation on the store that all processes share. -/
def pidStep (st : Store) (a : PidOp) : Option (Ret × Store) := step a.pid st a.op

/-- What the operation is for: every process has an abstract store of its own. -/
def absPidStep (A : ℕ → AbsStore) (a : PidOp) : Ret × (ℕ → AbsStore) :=
  ((absStep (A a.pid) a.op).1, update A a.pid (absStep (A a.pid) a.op).2)

/-! ## What a run is to keep -/

/-- The chunk records of `p` carry the id of the region they lie in. -/
def RegionIds (d : Disk) (p : ℕ) : Prop := ∀ q c, IsRegion d.shape p q → IsChunk d.shape q c →
  (d.chunk c).vmaId = (d.mmapobj q).vmaId

/-- The files of `p` hold the objects of `A`, and no other ones. -/
structure ProcRep (p : ℕ) (N : Set ObjName) (d : Disk) (A : AbsStore) : Prop where
  separate : Separate d p
  regionIds : RegionIds d p
  objects : Represents d p N A
  only : ∀ {k c}, Holds d p k c → ∃ n ∈ N, genIdFromStr n = k

/-- The files of every process hold its objects. -/
structure FilesRep (N : Set ObjName) (d : Disk) (A : ℕ → AbsStore) : Prop where
  shape : ShapeOk d.shape
  rep : ∀ p, ProcRep p N d (A p)

/-- After a restart, process `p` reads the objects of `A` under the names in `N` and has
no other ones. -/
def Recovers (N : Set ObjName) (st : Store) (p : ℕ) (A : AbsStore) : Prop :=
  ∀ place, PlaceOk st.reboot place p → ∃ st', restart st place p = some st' ∧
    (∀ n ∈ N, ∀ place', step p st' (.read n place') = some (.object (A n), st')) ∧
    ∀ k c, Holds st'.disk p k c → ∃ n ∈ N, genIdFromStr n = k ∧ A n = some (st'.disk.value c)

/-- The records in the files of `p` are records of `p`, and the region ids in them name
data files of `p`. -/
structure OwnRecords (d : Disk) (p : ℕ) : Prop where
  region : ∀ {q}, IsRegion d.shape p q →
    (d.mmapobj q).procId = p ∧ (d.data ⟨p, (d.mmapobj q).vmaId⟩).isSome
  chunk : ∀ {q c}, IsRegion d.shape p q → IsChunk d.shape q c →
    (d.chunk c).pid = p ∧ (d.data ⟨p, (d.chunk c).vmaId⟩).isSome

/-- The run goes through with the results of the abstract stores, leaves every process
with its own objects and records, and each operation leaves the files of the other
processes alone. -/
def RunIsolated (N : Set ObjName) (calls : List PidOp) (st₀ : Store) (A₀ : ℕ → AbsStore) : Prop :=
  ∃ st, runSteps pidStep calls st₀ = some ((runSpec absPidStep calls A₀).1, st) ∧
    (∀ p, p ≠ 0 → Recovers N st p ((runSpec absPidStep calls A₀).2 p) ∧ OwnRecords st.disk p) ∧
    EachStep pidStep (fun st a _ st' => ∀ p, p ≠ a.pid → SameFiles st.disk st'.disk p) calls st₀

/-! ## When it does -/

/-- The header of `p` is there and no region was ever registered in it. -/
def NewHeader (st : Store) (p : ℕ) : Prop :=
  ∃ h ∈ st.disk.proc p, h.mmapobjInitialized = false ∧ h.mmapobjTree = none ∧ h.pesistMmaps = 0

/-- Reads load a process that is not in memory, allocations create one whose header is
new, and everything else but a new region needs a process that is loaded. -/
def KnownProcess (st : Store) (p : ℕ) : Op → Prop
  | .mmap _ _ => True
  | .restart _ => True
  | .alloc _ _ _ => Registered st p ∨ NewHeader st p
  | .read _ place => Registered st p ∨ PlaceOk st place p
  | _ => Registered st p

/-- The calls of a run: the kernel, the allocator and the program do what `Placed` says,
for a process that is known where it must be. -/
structure CallOk (N : Set ObjName) (st : Store) (A : ℕ → AbsStore) (a : PidOp) : Prop where
  pid : a.pid ≠ 0
  placed : Placed a.pid N st (A a.pid) a.op
  known : KnownProcess st a.pid a.op

/-- When an allocation for `p` adds a region record, `proc_map_start` points to the header
of `p`, or is set by the allocation itself, and the size recorded under the id of the
region is its size. -/
def OwnGlobals (st : Store) (p : ℕ) : Op → Prop
  | .alloc _ _ addr => ∀ nd ∈ st.locateMmapobjNode addr, Unregistered st p nd →
    (Registered st p → st.ram.procMapStart = some p) ∧ st.ram.procVmas nd.mapId = nd.size
  | _ => True

/-! ## Region ids in chunk records -/

section RegionIds

variable {d d' : Disk} {st st' : Store} {p : ℕ}

theorem SameFiles.regionIds (h : SameFiles d d' p) (hr : RegionIds d p) : RegionIds d' p := by
  intro q c hq hqc
  rw [h.isRegion] at hq
  rw [h.isChunk hq.pid_eq] at hqc
  rw [h.chunk (InScan.pid_eq ⟨q, hq, hqc⟩), h.mmapobj hq.pid_eq]
  exact hr q c hq hqc

theorem Grown.regionIds (h : Grown d d' p) (hr : RegionIds d p) : RegionIds d' p := by
  intro q c hq hqc
  obtain ⟨hq', hqc'⟩ := h.scanned hq hqc
  rw [h.chunk ⟨q, hq', hqc'⟩, h.mmapobj hq']
  exact hr q c hq' hqc'

theorem SameFrame.regionIds (h : SameFrame st st') (hr : RegionIds st.disk p) :
    RegionIds st'.disk p := by
  intro q c hq hqc
  rw [h.shape_eq] at hq hqc
  have hchunk : (st'.disk.chunk c).vmaId = (st.disk.chunk c).vmaId :=
    (congrArg Chunkobj.vmaId (h.chunk c) :)
  rw [hchunk, h.vmaId_eq]
  exact hr q c hq hqc

theorem Loads.regionIds {place : DataFile → ℕ} (h : Loads st st' place p)
    (hr : RegionIds st.disk p) : RegionIds st'.disk p := by
  intro q c hq hqc
  rw [h.isRegion] at hq
  rw [h.isChunk hq] at hqc
  have hchunk : (st'.disk.chunk c).vmaId = (st.disk.chunk c).vmaId :=
    (congrArg Chunkobj.vmaId (h.chunk c) :)
  rw [hchunk, h.vmaId hq]
  exact hr q c hq hqc

theorem regionIds_appendChunk {q : MmapPtr} {r : Chunkobj} (hs : ShapeOk st.disk.shape)
    (hq : IsRegion st.disk.shape p q) (hv : r.vmaId = (st.disk.mmapobj q).vmaId)
    (hr : RegionIds st.disk p) : RegionIds (st.appendChunk q r).disk p := by
  intro q' c hq' hqc
  rw [isRegion_appendChunk] at hq'
  obtain ⟨_, _, _, hm⟩ := mmapobj_appendChunk st q r q'
  rw [hm]
  rcases isChunk_appendChunk.mp hqc with hqc | ⟨rfl, rfl⟩
  · rw [chunk_appendChunk hs hq ⟨q', hq', hqc⟩]
    exact hr q' c hq' hqc
  · rw [chunk_appendChunk_self]
    exact hv

/-- The chunk of an allocation carries the id of the region of its block. -/
theorem RegionFound.regionIds {nd : MmapobjNode} {q : MmapPtr} {ws : List Write}
    (h : RegionFound st p nd q ws) (hr : RegionIds st.disk p) (n : ObjName) (bytes addr : ℕ) :
    RegionIds ((applyAll st ws).appendChunk q (allocChunk (allocRqst p n bytes) nd addr)).disk p :=
  regionIds_appendChunk h.ready.inv.shape h.ready.region h.ready.vmaId.symm (h.grown.regionIds hr)

end RegionIds

/-! ## The files of one process -/

namespace ProcRep

variable {p : ℕ} {N : Set ObjName} {d d' : Disk} {A : AbsStore} (h : ProcRep p N d A)
include h

theorem of_same (hs : SameObjects d d' p) (hr : RegionIds d' p) : ProcRep p N d' A :=
  ⟨hs.separate h.separate, hr, h.objects.of_same hs, fun hk => h.only (hs.holds.mp hk)⟩

theorem of_files (hf : SameFiles d d' p) : ProcRep p N d' A :=
  h.of_same hf.sameObjects (hf.regionIds h.regionIds)

theorem of_grown (hg : Grown d d' p) : ProcRep p N d' A :=
  h.of_same hg.sameObjects (hg.regionIds h.regionIds)

/-- The object of one name changes. -/
theorem update (hN : GoodNames N) {n : ObjName} (hn : n ∈ N) {v : Option Obj}
    (hup : Updates d d' p (genIdFromStr n) v) (hs : Separate d' p) (hr : RegionIds d' p) :
    ProcRep p N d' (update A n v) where
  separate := hs
  regionIds := hr
  objects := h.objects.update hN hn hup
  only := by
    intro k c hk
    by_cases hkn : k = genIdFromStr n
    · exact ⟨n, hn, hkn.symm⟩
    · exact h.only ((hup.other hkn).mp hk)

end ProcRep

theorem ownRecords_of_shapeOk {d : Disk} {p : ℕ} (hs : ShapeOk d.shape) (hr : RegionIds d p) :
    OwnRecords d p := by
  have hfile : ∀ {q}, IsRegion d.shape p q → (d.data ⟨p, (d.mmapobj q).vmaId⟩).isSome := by
    intro q hq
    obtain ⟨n, hn, -⟩ := hs.file hq
    obtain ⟨x, hx, -⟩ := Option.map_eq_some_iff.mp hn
    exact Option.isSome_iff_exists.mpr ⟨x, hx⟩
  refine ⟨fun hq => ⟨hs.procId hq, hfile hq⟩, ?_⟩
  intro q c hq hqc
  refine ⟨hs.extent_pid ⟨q, hq, hqc⟩, ?_⟩
  rw [hr q c hq hqc]
  exact hfile hq

/-! ## Steps of one process -/

/-- A step for `p` that leaves the files of the other processes, their place in the
process tree and their regions in the address-range tree alone. -/
structure OwnStep (p : ℕ) (st st' : Store) : Prop where
  files : ∀ {p'}, p' ≠ p → SameFiles st.disk st'.disk p'
  run : st'.ram.run = st.ram.run
  maps : st.ram.maps ⊆ st'.ram.maps
  process : ∀ {p'}, p' ≠ p → st'.findProcess p' = st.findProcess p'
  node : ∀ {a nd}, st'.ram.mapTree.find a = some nd → nd.procId ≠ p →
    st.ram.mapTree.find a = some nd

section OwnStep

variable {p : ℕ} {st st' st'' : Store}

theorem OwnStep.trans (h : OwnStep p st st') (h' : OwnStep p st' st'') : OwnStep p st st'' where
  files hne := (h.files hne).trans (h'.files hne)
  run := h'.run.trans h.run
  maps := List.Subset.trans h.maps h'.maps
  process hne := (h'.process hne).trans (h.process hne)
  node hnd hne := h.node (h'.node hnd hne) hne

/-- A step that changes the memory of the run at most in the two maps of the application. -/
theorem OwnStep.of_ram (hfiles : ∀ {p'}, p' ≠ p → SameFiles st.disk st'.disk p')
    (hram : st'.ram.frame = st.ram.frame) : OwnStep p st st' := by
  have hmaps : st'.ram.maps = st.ram.maps := (congrArg Ram.maps hram :)
  have hprocs : st'.ram.procTree = st.ram.procTree := (congrArg Ram.procTree hram :)
  have htree : st'.ram.mapTree = st.ram.mapTree := (congrArg Ram.mapTree hram :)
  refine ⟨hfiles, (congrArg Ram.run hram :), by rw [hmaps]; exact List.Subset.refl _, ?_, ?_⟩
  · intro p' _
    rw [Store.findProcess, Store.findProcess, hprocs]
  · intro a nd hnd _
    rw [← htree]
    exact hnd

theorem Loads.ownStep {place : DataFile → ℕ} (h : Loads st st' place p) : OwnStep p st st' where
  files := h.files
  run := h.run
  maps := h.maps
  process hne := by rw [h.findProcess, if_neg hne]
  node hnd _ := by rw [← h.mapTree]; exact hnd

theorem ownStep_mapRegion {size addr : ℕ} {h : ProcObj} :
    OwnStep p st (st.mapRegion p size addr h) where
  files hne := sameFiles_mapRegion hne
  run := rfl
  maps := List.subset_cons_self ..
  process _ := rfl
  node := by
    intro a nd hnd hne
    simp only [Store.mapRegion, Rbtree.find_insert] at hnd
    split at hnd
    · cases hnd
      exact absurd rfl hne
    · exact hnd

end OwnStep

/-! ## A process that is in memory -/

/-- The step keeps process `p` loaded and gives it the objects of `A`. -/
structure ActsAlone (p : ℕ) (N : Set ObjName) (st st' : Store) (A : AbsStore) : Prop where
  inv : StoreInv st' p
  indexes : Indexes st'.disk p
  rep : ProcRep p N st'.disk A
  own : OwnStep p st st'

section Registered

variable {p : ℕ} {N : Set ObjName} {st : Store} {A : AbsStore}

/-- A step that updates the object of one name. -/
theorem ProcRep.actsAlone (hrep : ProcRep p N st.disk A) (hN : GoodNames N) {n : ObjName}
    (hn : n ∈ N) {st' : Store} {v : Option Obj} (hi : StoreInv st' p) (hc : Clean st'.disk p)
    (hup : Updates st.disk st'.disk p (genIdFromStr n) v) (hr : RegionIds st'.disk p)
    (hfiles : ∀ {p'}, p' ≠ p → SameFiles st.disk st'.disk p')
    (hram : st'.ram.frame = st.ram.frame) : ActsAlone p N st st' (Function.update A n v) :=
  ⟨hi, hc.indexes, hrep.update hN hn hup hc.separate hr, OwnStep.of_ram hfiles hram⟩

theorem ProcRep.actsAlone_refl (hrep : ProcRep p N st.disk A) (hi : StoreInv st p)
    (hx : Indexes st.disk p) : ActsAlone p N st st A :=
  ⟨hi, hx, hrep, OwnStep.of_ram (fun _ => SameFiles.refl _ _) rfl⟩

/-- An allocation for a process that is loaded. -/
theorem alloc_own (hN : GoodNames N) (hi : StoreInv st p) (hx : Indexes st.disk p)
    (hrep : ProcRep p N st.disk A) {n : ObjName} {bytes addr : ℕ}
    (hop : Placed p N st A (.alloc n bytes addr))
    (hglob : OwnGlobals st p (.alloc n bytes addr)) :
    ∃ st', step p st (.alloc n bytes addr) = some (.done, st') ∧
      ActsAlone p N st st' (update A n (some (Obj.resize (A n) bytes))) := by
  obtain ⟨hn, nd, hb, hback, hroom, hun, hlow⟩ := hop
  have hc : Clean st.disk p := ⟨hrep.separate, hx⟩
  have hok : AllocOk st (allocRqst p n bytes) nd addr := by
    refine ⟨rfl, hN.pos n hn, hb, hback, hroom, ?_⟩
    intro hfresh
    obtain ⟨hstart, hsize⟩ := hglob nd (locateMmapobjNode_of_block hi.ram hb) hfresh
    exact ⟨hstart hi.registered, hsize⟩
  cases hA : A n with
  | none =>
    have hdead := (hrep.objects.eq_none hn).mp hA
    obtain ⟨st', hexec, hi', hram, hfiles, hup, hc'⟩ := alloc_of_dead hi hc hok hdead hun
    refine ⟨st', by rw [step, hexec]; rfl, hrep.actsAlone hN hn hi' hc' hup ?_ hfiles hram⟩
    -- the state after the call, once more, for the region id in the new record
    have hi₁ : StoreInv st (allocRqst p n bytes).pid := hi
    obtain ⟨q, ws, hfound, hexec'⟩ := nvRecordChunk_exec_of_free hi₁ hok
      (checkIfChunkExists_of_missing hi₁ hok.named (hc.missing hdead))
    rw [hexec] at hexec'
    cases hexec'
    exact hfound.regionIds hrep.regionIds n bytes addr
  | some o =>
    obtain ⟨old, hk, rfl⟩ := (hrep.objects n hn o).mp hA
    obtain ⟨st₂, st', q₀, q, qv, c, v, ws, hstep, hre, hfiles⟩ := exists_resize hi hc hok hk hun
    have hlower := hlow hk
    rw [hre.finds.vma_eq hc] at hlower
    obtain ⟨hup, hc'⟩ := hre.updates_of_lower hlower
    refine ⟨st', hstep, hrep.actsAlone hN hn hre.realloc.storeInv hc' hup ?_ hfiles
      hre.realloc.ram⟩
    refine hre.realloc.effect.frame.regionIds ?_
    rw [hre.moved.st₂_eq]
    exact hre.found.regionIds hrep.regionIds n bytes addr

/-- An operation for a process that is loaded does what it is for, and touches nothing of
the other processes. -/
theorem step_own (hN : GoodNames N) (hi : StoreInv st p) (hx : Indexes st.disk p)
    (hrep : ProcRep p N st.disk A) {op : Op} (hop : Placed p N st A op)
    (hglob : OwnGlobals st p op) (hne : ∀ place, op ≠ .restart place) :
    ∃ st', step p st op = some ((absStep A op).1, st') ∧
      ActsAlone p N st st' (absStep A op).2 := by
  have hc : Clean st.disk p := ⟨hrep.separate, hx⟩
  cases op with
  | mmap size addr =>
    obtain ⟨h, hh, hexec⟩ := mmap_exec hi hop
    have hgrown : Grown st.disk (st.mapRegion p size addr h).disk p := grown_mapRegion hi.shape hh
    exact ⟨_, by rw [step, hexec]; rfl, storeInv_mapRegion hi hh hop, (hgrown.clean hc).indexes,
      hrep.of_grown hgrown, ownStep_mapRegion⟩
  | alloc n bytes addr => exact alloc_own hN hi hx hrep hop hglob
  | commit n size =>
    obtain ⟨hn, hlive⟩ := hop
    obtain ⟨o, ho⟩ := Option.ne_none_iff_exists'.mp hlive
    obtain ⟨c, hk, rfl⟩ := (hrep.objects n hn o).mp ho
    obtain ⟨st', hexec, hframe, hi', hfiles, hup, hc'⟩ :=
      nvCommitLen_of_holds hi hc (hN.pos n hn) hk size
    refine ⟨st', by rw [step, hexec]; rfl, ?_⟩
    simp only [absStep, ho, Option.map_some]
    exact hrep.actsAlone hN hn hi' hc' hup (hframe.regionIds hrep.regionIds) hfiles hframe.ram
  | delete n =>
    cases hA : A n with
    | none =>
      have hexec := nvDelete_of_dead hi hc (hN.pos n hop) ((hrep.objects.eq_none hop).mp hA)
      refine ⟨st, by rw [step, hexec]; simp [absStep, hA], ?_⟩
      simp only [absStep, ← hA, update_eq_self]
      exact hrep.actsAlone_refl hi hx
    | some o =>
      obtain ⟨c, hk, -⟩ := (hrep.objects n hop o).mp hA
      obtain ⟨st', hexec, hframe, hi', hfiles, hup, hc'⟩ :=
        nvDelete_of_holds hi hc (hN.pos n hop) hk
      exact ⟨st', by rw [step, hexec]; simp [absStep, hA],
        hrep.actsAlone hN hop hi' hc' hup (hframe.regionIds hrep.regionIds) hfiles hframe.ram⟩
  | read n place =>
    exact ⟨st, step_read_of_clean hi hc hrep.objects hop place, hrep.actsAlone_refl hi hx⟩
  | write n off bs =>
    obtain ⟨hn, o, ho, hoff⟩ := hop
    obtain ⟨c, hk, rfl⟩ := (hrep.objects n hn o).mp ho
    obtain ⟨st', hexec, hframe, hi', hfiles, hup, hc'⟩ := writeObject_of_holds hi hc hk hoff
    refine ⟨st', by rw [step, hexec]; rfl, ?_⟩
    simp only [absStep, ho, Option.map_some]
    exact hrep.actsAlone hN hn hi' hc' hup (hframe.regionIds hrep.regionIds) hfiles hframe.ram
  | rename s d => exact absurd hop id
  | restart place => exact absurd rfl (hne place)

end Registered

/-! ## The state between two operations -/

/-- What holds between any two operations: the files of every process hold its objects,
the processes in memory are loaded, and no region of another one is mapped in this run
that has a record already. -/
structure IsoInv (N : Set ObjName) (st : Store) (A : ℕ → AbsStore) : Prop where
  files : FilesRep N st.disk A
  ram : RamOk st
  initialized : st.ram.gInitialized = true
  loaded : ∀ {p}, Registered st p → p ≠ 0 ∧ Loaded st p ∧ Indexes st.disk p
  unmapped : ∀ {p}, st.findProcess p = none → Unmapped st p

section Isolation

variable {p : ℕ} {N : Set ObjName} {st st' : Store} {A : ℕ → AbsStore} {B : AbsStore}

theorem IsoInv.storeInv (hI : IsoInv N st A) (hreg : Registered st p) : StoreInv st p :=
  ⟨hI.files.shape, hI.ram, (hI.loaded hreg).2.1, hreg, hI.initialized, (hI.loaded hreg).1⟩

/-- A process is registered under its own id or not at all. -/
theorem IsoInv.registered_or_none (hI : IsoInv N st A) (p : ℕ) :
    Registered st p ∨ st.findProcess p = none := by
  cases hf : st.findProcess p with
  | none => exact .inr rfl
  | some k =>
    obtain rfl := hI.ram.process hf
    exact .inl hf

/-- A step for `p` keeps what holds for the other processes; what holds for `p` is up to
the step. -/
theorem IsoInv.of_ownStep (hI : IsoInv N st A) (ho : OwnStep p st st')
    (hs : ShapeOk st'.disk.shape) (hr : RamOk st') (hinit : st'.ram.gInitialized = true)
    (hrep : ProcRep p N st'.disk B)
    (hloaded : Registered st' p → p ≠ 0 ∧ Loaded st' p ∧ Indexes st'.disk p)
    (hun : st'.findProcess p = none → Unmapped st' p) :
    IsoInv N st' (update A p B) := by
  refine ⟨⟨hs, ?_⟩, hr, hinit, ?_, ?_⟩
  · intro p'
    by_cases hp : p' = p
    · subst hp
      rw [update_self]
      exact hrep
    · rw [update_of_ne hp]
      exact (hI.files.rep p').of_files (ho.files hp)
  · intro p' hreg
    by_cases hp : p' = p
    · subst hp
      exact hloaded hreg
    · have hreg' : Registered st p' := (ho.process hp).symm.trans hreg
      obtain ⟨hpos, hl, hx⟩ := hI.loaded hreg'
      have hc := (ho.files hp).clean ⟨(hI.files.rep p').separate, hx⟩
      exact ⟨hpos, (ho.files hp).loaded hl ho.run ho.maps, hc.indexes⟩
  · intro p' hnone a nd q hnd hproc hq
    by_cases hp : p' = p
    · subst hp
      exact hun hnone hnd hproc hq
    · have hold := ho.node hnd (by rw [hproc]; exact hp)
      rw [(ho.files hp).isRegion] at hq
      rw [(ho.files hp).mmapobj hq.pid_eq]
      exact hI.unmapped ((ho.process hp).symm.trans hnone) hold hproc hq

theorem IsoInv.of_actsAlone (hI : IsoInv N st A) (h : ActsAlone p N st st' B) :
    IsoInv N st' (update A p B) := by
  refine hI.of_ownStep h.own h.inv.shape h.inv.ram h.inv.initialized h.rep ?_ ?_
  · intro _
    exact ⟨h.inv.pidPos, h.inv.loaded, h.indexes⟩
  · intro hnone
    cases h.inv.findProcess.symm.trans hnone

/-! ## Regions for a process that is not in memory -/

theorem grown_ensureHeader (st : Store) (p : ℕ) : Grown st.disk (st.ensureHeader p).disk p where
  isRegion hq := isRegion_ensureHeader.mpr hq
  mmapobj hq := mmapobj_ensureHeader hq
  blank hq := .inl (isRegion_ensureHeader.mp hq)
  chunk _ := by rw [chunk_ensureHeader]
  bytes _ := by rw [Disk.bytesOf, Disk.bytesOf, data_ensureHeader]

/-- The store after `create_or_load_proc_obj` for a process that is not in memory. -/
def Store.openHeader (st : Store) (p : ℕ) : Store :=
  (st.ensureHeader p).apply (.ram fun r => { r with procMapStart := some p })

theorem ram_openHeader (st : Store) (p : ℕ) :
    (st.openHeader p).ram = { st.ram with procMapStart := some p } := by
  show { (st.ensureHeader p).ram with procMapStart := some p } = _
  rw [ram_ensureHeader]

theorem ownStep_openHeader (st : Store) (p : ℕ) : OwnStep p st (st.openHeader p) := by
  have hram := ram_openHeader st p
  refine ⟨fun hne => sameFiles_ensureHeader hne, by rw [hram], by rw [hram]; exact fun _ h => h,
    ?_, ?_⟩
  · intro p' _
    rw [Store.findProcess, hram]
    rfl
  · intro a nd hnd _
    rw [hram] at hnd
    exact hnd

theorem ramOk_openHeader (hr : RamOk st) : RamOk (st.openHeader p) := by
  have hr' := ramOk_ensureHeader (p := p) hr
  refine ⟨hr'.maps, hr'.process, ?_, hr'.nodeInj⟩
  intro a nd hnd
  have hn := hr'.node hnd
  exact ⟨hn.start, hn.startPos, hn.startLt, hn.idPos, hn.mapped, hn.file, hn.region⟩

variable {h : ProcObj} {st₁ : Store} {place : DataFile → ℕ}

/-- The id of a new region is greater than the ids in the records. -/
theorem unmapped_mapRegion (hs : ShapeOk st.disk.shape) (hh : st.disk.proc p = some h)
    {size addr : ℕ} (hun : Unmapped st p) :
    Unmapped (st.mapRegion p size addr h) p := by
  intro a nd q hnd hp hq
  rw [shape_mapRegion hh, isRegion_addFile (header_shape hh)] at hq
  show (st.disk.mmapobj q).vmaId ≠ nd.mapId
  simp only [Store.mapRegion, Rbtree.find_insert] at hnd
  split at hnd
  · cases hnd
    have hle := hs.vmaLe hq (header_shape hh)
    simp only [shape_region_vmaId, ProcObj.shape] at hle
    show (st.disk.mmapobj q).vmaId ≠ h.numMmaps + 1
    omega
  · exact hun hnd hp hq

/-- `_mmap` for a process that is not in memory leaves it so. -/
theorem mmap_isolated (hI : IsoInv N st A) (hp : p ≠ 0) (hreg : st.findProcess p = none)
    {size addr : ℕ} (hfresh : FreshRange st addr size) :
    ∃ st', step p st (.mmap size addr) = some (.done, st') ∧ IsoInv N st' A ∧ OwnStep p st st' := by
  obtain ⟨h, hh⟩ : ∃ h, (st.openHeader p).disk.proc p = some h := exists_header st p
  have hram := ram_openHeader st p
  have ho : OwnStep p st ((st.openHeader p).mapRegion p size addr h) :=
    (ownStep_openHeader st p).trans ownStep_mapRegion
  have hs : ShapeOk (st.openHeader p).disk.shape := shapeOk_ensureHeader hI.files.shape
  have hr := ramOk_openHeader (p := p) hI.ram
  have hfresh₁ : FreshRange (st.openHeader p) addr size := by
    refine ⟨hfresh.pos, hfresh.sizePos, ?_⟩
    rw [hram]
    exact hfresh.apart
  have hexec : (mmapRegion p size addr).exec st =
      some ((), (st.openHeader p).mapRegion p size addr h) :=
    mmapRegion_exec hp hfresh.pos (createOrLoadProcObj_exec_of_unregistered hreg) hh
  refine ⟨_, by rw [step, hexec]; rfl, ?_, ho⟩
  have hfind : ((st.openHeader p).mapRegion p size addr h).findProcess p = none := by
    show (st.openHeader p).ram.procTree.find p = none
    rw [hram]
    exact hreg
  have hun : Unmapped (st.openHeader p) p := by
    intro a nd q hnd hproc hq
    rw [hram] at hnd
    exact unmapped_ensureHeader (hI.unmapped hreg) (by rw [ram_ensureHeader]; exact hnd) hproc hq
  have hgrown : Grown (st.openHeader p).disk ((st.openHeader p).mapRegion p size addr h).disk p :=
    grown_mapRegion hs hh
  have hrep := ((hI.files.rep p).of_grown (grown_ensureHeader st p)).of_grown hgrown
  rw [← update_eq_self p A]
  refine hI.of_ownStep ho ?_ (ramOk_mapRegion hs hr hh hfresh₁) ?_ hrep ?_
    (fun _ => unmapped_mapRegion hs hh hun)
  · rw [shape_mapRegion hh]
    exact hs.addFile (header_shape hh) _
  · show (st.openHeader p).ram.gInitialized = true
    rw [hram]
    exact hI.initialized
  · intro hreg'
    have hreg'' : Store.findProcess _ p = some p := hreg'
    rw [hfind] at hreg''
    cases hreg''

/-! ## Operations that bring a process into memory -/

/-- A step for a process that was loaded on the way. -/
theorem ActsAlone.of_loads (hl : Loads st st₁ place p) (h : ActsAlone p N st₁ st' B) :
    ActsAlone p N st st' B :=
  ⟨h.inv, h.indexes, h.rep, hl.ownStep.trans h.own⟩

theorem ProcRep.of_loads (hrep : ProcRep p N st.disk B) (hl : Loads st st₁ place p) :
    ProcRep p N st₁.disk B :=
  hrep.of_same hl.sameObjects (hl.regionIds hrep.regionIds)

/-- A read of a process that is not in memory is a read after `load_process`. -/
theorem readObject_exec_of_unregistered (n : ObjName) (hreg : st.findProcess p = none)
    (hload : (loadProcess place p).exec st = some (p, st₁)) (hreg₁ : Registered st₁ p) :
    (readObject place p n).exec st = (readObject place p n).exec st₁ := by
  have hread : (nvMapRead place (request p n)).exec st =
      (nvMapRead place (request p n)).exec st₁ := by
    have hreg' : st.findProcess (request p n).pid = none := hreg
    have hreg₁' : st₁.findProcess (request p n).pid = some p := hreg₁
    have hload' : (loadProcess place (request p n).pid).exec st = some (p, st₁) := hload
    simp only [nvMapRead, exec_bind, exec_state, Option.bind_some, hreg', hreg₁', hload', exec_pure]
  rw [readObject, exec_bind, exec_bind, hread]

theorem read_isolated (hN : GoodNames N) (hI : IsoInv N st A) (hp : p ≠ 0)
    (hreg : st.findProcess p = none) {n : ObjName} (hn : n ∈ N) (hplace : PlaceOk st place p) :
    ∃ st', step p st (.read n place) = some (.object (A p n), st') ∧
      ActsAlone p N st st' (A p) := by
  obtain ⟨st₁, hload, hl⟩ := load_exec hI.files.shape hI.ram hI.initialized hreg hp hplace
    (hI.unmapped hreg)
  have hrep := (hI.files.rep p).of_loads hl
  have hx : Indexes st₁.disk p := (hl.clean (hI.files.rep p).separate).indexes
  have hop : Placed p N st₁ (A p) (.read n place) := hn
  obtain ⟨st', hstep, hact⟩ := step_own hN hl.inv hx hrep hop trivial (fun _ h => by cases h)
  refine ⟨st', ?_, hact.of_loads hl⟩
  rw [step, readObject_exec_of_unregistered n hreg hload hl.inv.registered]
  exact hstep

theorem not_isRegion_of_header (hh : st.disk.proc p = some h) (hnone : h.pesistMmaps = 0)
    {q : MmapPtr} : ¬ IsRegion st.disk.shape p q := by
  intro hq
  rw [isRegion_iff_mem hh, hnone] at hq
  cases hq

/-- `create_new_process` for a header without regions, and the first lookup, do what
`load_process` does. -/
theorem loads_openProcess (hI : IsoInv N st A) (hp : p ≠ 0) (hreg : st.findProcess p = none)
    (hh : st.disk.proc p = some h) (hnone : h.pesistMmaps = 0) :
    Loads st (st.openProcess p h) (fun _ => 0) p := by
  have hno : ∀ {q}, ¬ IsRegion st.disk.shape p q := not_isRegion_of_header hh hnone
  have hplace : PlaceOk st (fun _ => 0) p :=
    ⟨fun hq => absurd hq hno, fun hq => absurd hq hno, fun hq => absurd hq hno⟩
  obtain ⟨st₁, hload, hl⟩ := load_exec hI.files.shape hI.ram hI.initialized hreg hp hplace
    (hI.unmapped hreg)
  have hh' : (st.ensureHeader p).disk.proc p = some h := by rw [ensureHeader_of_some hh, hh]
  rw [loadProcess_exec_eq _ hI.initialized hreg hh', ensureHeader_of_some hh, hnone] at hload
  obtain rfl : st.openProcess p h = st₁ := (Prod.mk.inj (Option.some.inj hload)).2
  exact hl

/-- The first allocation for a new process does what an allocation after `load_process`
does. -/
theorem nvRecordChunk_exec_of_new {rqst : Rqst} (addr : ℕ) (hinit : st.ram.gInitialized = true)
    (hid : rqst.chunkId ≠ 0) (hreg : st.findProcess rqst.pid = none)
    (hh : st.disk.proc rqst.pid = some h) (hpid : h.pid = rqst.pid)
    (hoff : h.mmapobjInitialized = false) (htree : h.mmapobjTree = none)
    (hi : StoreInv (st.openProcess rqst.pid h) rqst.pid)
    (hm : Missing (st.openProcess rqst.pid h).disk rqst.pid rqst.chunkId) :
    (nvRecordChunk rqst addr).exec st =
      (nvRecordChunk rqst addr).exec (st.openProcess rqst.pid h) := by
  -- `create_new_process` registers the process
  let st₁ : Store := ⟨st.disk, { st.ram with
    procMapStart := some rqst.pid, procTree := st.ram.procTree.insert rqst.pid rqst.pid }⟩
  have hproc : (findOrCreateProcess rqst.pid).exec st = some (rqst.pid, st₁) := by
    simp [findOrCreateProcess, addProcObj, exec_bind, hreg,
      createOrLoadProcObj_exec_of_unregistered hreg, ensureHeader_of_some hh, WriteEffect.apply,
      Store.apply, Disk.apply, Ram.apply, hh, hpid, st₁]
  -- the lookup finds no region tree and creates an empty one
  have hfind : st₁.findProcess rqst.pid = some rqst.pid := by
    simp [Store.findProcess, Rbtree.find_insert, st₁]
  have hsearch : (findMmapobjFromChunkid rqst.chunkId rqst.pid).exec st₁ =
      some (none, st.openProcess rqst.pid h) := by
    simp [findMmapobjFromChunkid, initializeMmapobjTree, exec_bind, hh, hoff, htree,
      WriteEffect.apply, Store.apply, Disk.apply, Ram.apply, Store.openProcess, hpid, st₁]
  have hold : (checkIfChunkExists rqst).exec st₁ = some (none, st.openProcess rqst.pid h) := by
    simp [checkIfChunkExists, getChunk, exec_bind, hid, hi.pidPos, hfind, hsearch]
  have hproc' : (findOrCreateProcess rqst.pid).exec (st.openProcess rqst.pid h) =
      some (rqst.pid, st.openProcess rqst.pid h) := by
    have hreg' : (st.openProcess rqst.pid h).findProcess rqst.pid = some rqst.pid := hi.registered
    simp [findOrCreateProcess, exec_bind, hreg']
  have hold' := exec_of_run_nil (checkIfChunkExists_of_missing hi hid hm)
  have hinit' : (st.openProcess rqst.pid h).ram.gInitialized = true := hinit
  unfold nvRecordChunk
  conv_lhs => rw [exec_bind, exec_state, Option.bind_some, exec_bind, exec_assert, if_pos hinit,
    Option.bind_some, exec_bind, hproc, Option.bind_some, exec_bind, hold, Option.bind_some]
  conv_rhs => rw [exec_bind, exec_state, Option.bind_some, exec_bind, exec_assert, if_pos hinit',
    Option.bind_some, exec_bind, hproc', Option.bind_some, exec_bind, hold', Option.bind_some]

theorem alloc_isolated (hN : GoodNames N) (hI : IsoInv N st A) (hp : p ≠ 0)
    (hreg : st.findProcess p = none) (hnew : NewHeader st p) {n : ObjName} {bytes addr : ℕ}
    (hop : Placed p N st (A p) (.alloc n bytes addr))
    (hglob : OwnGlobals st p (.alloc n bytes addr)) :
    ∃ st', step p st (.alloc n bytes addr) = some (.done, st') ∧
      ActsAlone p N st st' (update (A p) n (some (Obj.resize (A p n) bytes))) := by
  obtain ⟨h, hh, hoff, htree, hnone⟩ := hnew
  obtain ⟨hn, nd, hb, hback, hroom, -, -⟩ := hop
  have hl := loads_openProcess hI hp hreg hh hnone
  have hno : ∀ {q}, ¬ IsRegion st.disk.shape p q := not_isRegion_of_header hh hnone
  have hno₁ : ∀ {q}, ¬ IsRegion (st.openProcess p h).disk.shape p q := fun hq =>
    hno (hl.isRegion.mp hq)
  have hdead : ∀ {k c}, ¬ Holds (st.openProcess p h).disk p k c := by
    rintro k c ⟨⟨q, hq, -⟩, -, -⟩
    exact hno₁ hq
  have hroom₁ : MetaRoom (st.openProcess p h) p nd := by
    refine ⟨?_, fun hq => absurd hq hno₁⟩
    intro _ h' hh'
    rw [show (st.openProcess p h).disk.proc p = _ from update_self ..] at hh'
    cases hh'
    show h.metaOffset + sizeofMmapobj ≤ procMetadatSz
    exact hroom.header (fun hq => absurd hq hno) hh
  have hop₁ : Placed p N (st.openProcess p h) (A p) (.alloc n bytes addr) :=
    ⟨hn, nd, ⟨hb.node, hb.owner, hb.lo, hb.hi, hb.pos, hb.small⟩, hback, hroom₁,
      fun hk => absurd hk hdead, fun hk => absurd hk hdead⟩
  have hglob₁ : OwnGlobals (st.openProcess p h) p (.alloc n bytes addr) := by
    intro nd' hnd' _
    exact ⟨fun _ => rfl, (hglob nd' hnd' fun hq => absurd hq hno).2⟩
  have hx : Indexes (st.openProcess p h).disk p := fun hq => absurd hq hno₁
  obtain ⟨st', hstep, hact⟩ := alloc_own hN hl.inv hx ((hI.files.rep p).of_loads hl) hop₁ hglob₁
  have hi : StoreInv (st.openProcess p h) (allocRqst p n bytes).pid := hl.inv
  have hid : (allocRqst p n bytes).chunkId ≠ 0 := hN.pos n hn
  have hexec := nvRecordChunk_exec_of_new addr hI.initialized hid hreg hh
    (hI.files.shape.pid (header_shape hh)) hoff htree hi (fun _ hq => absurd hq hno₁)
  refine ⟨st', ?_, hact.of_loads hl⟩
  rw [step, hexec]
  exact hstep

/-- A restart for `p` leaves only `p` in memory. -/
theorem restart_isolated (hF : FilesRep N st.disk A) (hp : p ≠ 0)
    (hplace : PlaceOk st.reboot place p) :
    ∃ st', step p st (.restart place) = some (.done, st') ∧ IsoInv N st' A ∧
      ∀ p', p' ≠ p → SameFiles st.disk st'.disk p' := by
  obtain ⟨st', hexec, hl⟩ : ∃ st', restart st place p = some st' ∧ Loads st.started st' place p :=
    restart_exec hF.shape hp hplace
  have hfiles : ∀ {p'}, p' ≠ p → SameFiles st.disk st'.disk p' := hl.files
  refine ⟨st', by rw [step, hexec]; rfl, ⟨⟨hl.inv.shape, ?_⟩, hl.inv.ram, hl.inv.initialized, ?_,
    ?_⟩, fun _ => hfiles⟩
  · intro p'
    by_cases hpp : p' = p
    · subst hpp
      have hrep : ProcRep p' N st.started.disk (A p') := hF.rep p'
      exact hrep.of_loads hl
    · exact (hF.rep p').of_files (hfiles hpp)
  · intro p' hreg
    have hreg' : st'.findProcess p' = some p' := hreg
    rw [hl.findProcess] at hreg'
    split at hreg'
    · rename_i hpp
      subst hpp
      exact ⟨hp, hl.inv.loaded, (hl.clean (hF.rep p').separate).indexes⟩
    · rw [findProcess_started] at hreg'
      cases hreg'
  · intro p' _ a nd q hnd
    rw [hl.mapTree] at hnd
    cases hnd

theorem recovers_of_filesRep (hF : FilesRep N st.disk A) (hp : p ≠ 0) :
    Recovers N st p (A p) := by
  intro place hplace
  obtain ⟨st', hexec, hl⟩ : ∃ st', restart st place p = some st' ∧ Loads st.started st' place p :=
    restart_exec hF.shape hp hplace
  have hrep₀ : ProcRep p N st.started.disk (A p) := hF.rep p
  have hrep := hrep₀.of_loads hl
  refine ⟨st', hexec, ?_, ?_⟩
  · intro n hn place'
    exact step_read_of_clean hl.inv (hl.clean (hF.rep p).separate) hrep.objects hn place'
  · intro k c hk
    obtain ⟨n, hn, rfl⟩ := hrep.only hk
    exact ⟨n, hn, rfl, (hrep.objects n hn _).mpr ⟨c, hk, rfl⟩⟩

/-- One operation of a run that works for several processes. -/
theorem pidStep_isolated (hN : GoodNames N) (hI : IsoInv N st A) {a : PidOp}
    (hok : CallOk N st A a ∧ OwnGlobals st a.pid a.op) :
    ∃ st', pidStep st a = some ((absPidStep A a).1, st') ∧ IsoInv N st' (absPidStep A a).2 ∧
      ∀ p, p ≠ a.pid → SameFiles st.disk st'.disk p := by
  obtain ⟨p, op⟩ := a
  obtain ⟨⟨hp, hop, hknown⟩, hglob⟩ := hok
  have hacts : (∃ st', step p st op = some ((absStep (A p) op).1, st') ∧
      ActsAlone p N st st' (absStep (A p) op).2) →
      ∃ st', pidStep st ⟨p, op⟩ = some ((absPidStep A ⟨p, op⟩).1, st') ∧
        IsoInv N st' (absPidStep A ⟨p, op⟩).2 ∧ ∀ p', p' ≠ p → SameFiles st.disk st'.disk p' := by
    rintro ⟨st', hstep, hact⟩
    exact ⟨st', hstep, hI.of_actsAlone hact, fun _ hne => hact.own.files hne⟩
  have hloaded : Registered st p → (∀ place, op ≠ .restart place) → _ := fun hreg hne =>
    hacts (step_own hN (hI.storeInv hreg) (hI.loaded hreg).2.2 (hI.files.rep p) hop hglob hne)
  have hself : update A p (A p) = A := update_eq_self p A
  cases op with
  | mmap size addr =>
    rcases hI.registered_or_none p with hreg | hreg
    · exact hloaded hreg (fun _ h => by cases h)
    · obtain ⟨st', hstep, hI', ho⟩ := mmap_isolated hI hp hreg hop
      refine ⟨st', hstep, ?_, fun _ hne => ho.files hne⟩
      show IsoInv N st' (update A p (A p))
      rw [hself]
      exact hI'
  | alloc n bytes addr =>
    rcases hI.registered_or_none p with hreg | hreg
    · exact hloaded hreg (fun _ h => by cases h)
    · rcases hknown with hreg' | hnew
      · exact hloaded hreg' (fun _ h => by cases h)
      · exact hacts (alloc_isolated hN hI hp hreg hnew hop hglob)
  | read n place =>
    rcases hI.registered_or_none p with hreg | hreg
    · exact hloaded hreg (fun _ h => by cases h)
    · rcases hknown with hreg' | hplace
      · exact hloaded hreg' (fun _ h => by cases h)
      · exact hacts (read_isolated hN hI hp hreg hop hplace)
  | commit n size => exact hloaded hknown (fun _ h => by cases h)
  | delete n => exact hloaded hknown (fun _ h => by cases h)
  | write n off bs => exact hloaded hknown (fun _ h => by cases h)
  | rename s d => exact absurd hop id
  | restart place =>
    obtain ⟨st', hstep, hI', hfiles⟩ := restart_isolated hI.files hp hop
    refine ⟨st', hstep, ?_, hfiles⟩
    show IsoInv N st' (update A p (A p))
    rw [hself]
    exact hI'

end Isolation

/-! ## Whole runs -/

/-- **Isolation of processes.**  Start a program on files that hold the objects of any
processes.  In every run in which the shared globals belong to the process that gets a
region record, each process keeps its own objects, recovers them exactly, and has its
records in its own files. -/
theorem runIsolated_of_ownGlobals {N : Set ObjName} (hN : GoodNames N) {st₀ : Store}
    {A₀ : ℕ → AbsStore} (hfiles : FilesRep N st₀.disk A₀) (p : ℕ) (place : DataFile → ℕ)
    (calls : List PidOp)
    (hrun : AlongSim pidStep absPidStep (fun st A a => CallOk N st A a ∧ OwnGlobals st a.pid a.op)
      (⟨p, .restart place⟩ :: calls) st₀ A₀) :
    RunIsolated N (⟨p, .restart place⟩ :: calls) st₀ A₀ := by
  obtain ⟨⟨hok, -⟩, hrest⟩ := hrun
  obtain ⟨st₁, hstep, hI, hsame⟩ := restart_isolated hfiles hok.pid hok.placed
  have hfirst : pidStep st₀ ⟨p, .restart place⟩ = some (.done, st₁) := hstep
  have hspec : (absPidStep A₀ ⟨p, .restart place⟩).2 = A₀ := update_eq_self p A₀
  have hrest' := hrest _ st₁ hfirst
  rw [hspec] at hrest'
  obtain ⟨st, hst, hI'⟩ := runSteps_sim (R := IsoInv N)
    (fun hR hP => let ⟨st', hs, hI', _⟩ := pidStep_isolated hN hR hP; ⟨st', hs, hI'⟩) hI hrest'
  refine ⟨st, ?_, ?_, ?_⟩
  · rw [runSteps_cons hfirst, hst, runSpec, hspec]
    rfl
  · intro p' hp'
    rw [runSpec, hspec]
    exact ⟨recovers_of_filesRep hI'.files hp',
      ownRecords_of_shapeOk hI'.files.shape (hI'.files.rep p').regionIds⟩
  · intro r s' hs'
    rw [hfirst] at hs'
    cases hs'
    refine ⟨hsame, eachStep_of_sim (R := IsoInv N) ?_ hI hrest'⟩
    intro s A a r s' hR hP hs
    obtain ⟨s'', hs'', hI'', hfiles'⟩ := pidStep_isolated hN hR hP
    rw [hs] at hs''
    cases hs''
    exact ⟨hfiles', hI''⟩

theorem filesRep_empty (N : Set ObjName) : FilesRep N ({} : Disk) fun _ _ => none := by
  refine ⟨shapeOk_empty, fun p => ⟨(representsEmpty p N).2, ?_, (representsEmpty p N).1, ?_⟩⟩
  · intro q c hq
    exact absurd hq not_isRegion_empty
  · intro k c hk
    exact absurd hk.scan not_inScan_empty

/-! ## Two processes -/

instance (st : Store) (p : ℕ) : Decidable (Registered st p) :=
  inferInstanceAs (Decidable (st.findProcess p = some p))

instance (st : Store) (p : ℕ) : Decidable (NewHeader st p) :=
  decidable_of_iff ((st.disk.proc p).any fun h =>
      !h.mmapobjInitialized && h.mmapobjTree.isNone && h.pesistMmaps == 0) <| by
    simp [NewHeader, Option.any_eq_true, and_assoc]

instance (N : Set ObjName) [DecidablePred (· ∈ N)] (st : Store) (A : ℕ → AbsStore) (a : PidOp) :
    Decidable (CallOk N st A a) :=
  have : Decidable (KnownProcess st a.pid a.op) := by
    refine a.op.casesOn ?_ ?_ ?_ ?_ ?_ ?_ ?_ ?_ <;> intros <;> dsimp only [KnownProcess] <;>
      infer_instance
  decidable_of_iff (a.pid ≠ 0 ∧ Placed a.pid N st (A a.pid) a.op ∧ KnownProcess st a.pid a.op)
    ⟨fun h => ⟨h.1, h.2.1, h.2.2⟩, fun h => ⟨h.pid, h.placed, h.known⟩⟩

instance (st : Store) (p : ℕ) (op : Op) : Decidable (OwnGlobals st p op) := by
  refine op.casesOn ?_ ?_ ?_ ?_ ?_ ?_ ?_ ?_ <;> intros <;> dsimp only [OwnGlobals] <;>
    infer_instance

/-- The kernel's answers after a restart. -/
def apartPlace (f : DataFile) : ℕ := 4096 + 8192 * (2 * f.pid + f.vma)

/-- Two processes have an object each under the same name; after a restart of the first
one, a read loads the second one. -/
def twoProcessesRun : List PidOp :=
  [⟨1, .restart apartPlace⟩, ⟨1, .mmap 4096 4096⟩, ⟨1, .alloc nameA 16 4096⟩, ⟨2, .mmap 4096 12288⟩,
    ⟨2, .alloc nameA 16 12288⟩, ⟨1, .write nameA 2 [7]⟩, ⟨1, .restart apartPlace⟩,
    ⟨2, .read nameA apartPlace⟩, ⟨1, .delete nameA⟩]

theorem runIsolated_twoProcessesRun : RunIsolated {nameA} twoProcessesRun {} fun _ _ => none :=
  runIsolated_of_ownGlobals goodNames_nameA (filesRep_empty _) _ _ _ (by decide +kernel)

/-- Two processes take turns: when the first one gets a second region, `proc_map_start`
points to the header of the other one. -/
def alternatingRun : List PidOp :=
  [⟨1, .restart apartPlace⟩, ⟨1, .mmap 4096 4096⟩, ⟨1, .alloc nameA 16 4096⟩, ⟨2, .mmap 4096 12288⟩,
    ⟨2, .alloc nameA 16 12288⟩, ⟨1, .mmap 4096 20480⟩, ⟨1, .alloc nameB 16 20480⟩]

/-- The state this run ends in. -/
def alternatingEnd : Store := ((runSteps pidStep alternatingRun {}).map Prod.snd).getD {}

/-- The record of the second region goes into the header file of the other process, and
its object is gone after a restart. -/
theorem not_runIsolated_alternatingRun : GoodNames {nameA, nameB} ∧
    FilesRep {nameA, nameB} ({} : Store).disk (fun _ _ => none) ∧
    AlongSim pidStep absPidStep (CallOk {nameA, nameB}) alternatingRun {} (fun _ _ => none) ∧
    ¬ RunIsolated {nameA, nameB} alternatingRun {} fun _ _ => none := by
  refine ⟨goodNames_nameAB, filesRep_empty _, by decide +kernel, ?_⟩
  rintro ⟨st, hst, hall, -⟩
  have hend : st = alternatingEnd := by
    rw [alternatingEnd, hst]
    rfl
  have hplace : PlaceOk alternatingEnd.reboot apartPlace 1 := by decide +kernel
  have hlost : ((restart alternatingEnd apartPlace 1).bind fun s =>
      (step 1 s (.read nameB apartPlace)).map Prod.fst) = some (.object none) := by
    decide +kernel
  rw [hend] at hall
  obtain ⟨st', hrestart, hread, -⟩ := (hall 1 one_ne_zero).1 apartPlace hplace
  rw [hrestart, Option.bind_some, hread nameB (.inr rfl)] at hlost
  cases hlost
