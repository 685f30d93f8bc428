/-
# Loading through private copies

In the shadow-copy build `check_modify_access` returns 0, and `load_process` works on
copies that it makes with `malloc`: of the process record and of every region record that
the header counts.  The counters of the copies are advanced by later allocations and never
written back, and `meta_offset` is not copied at all, so a copy has what the memory held.

A copy is a record like any other, at a key that no file has (`privateProc`); a new run
starts without the copies.  The chunk records are used in place.  A request is taken to have
its `log_ptr`, which the allocations of this build assert.

`CopyRun` adds to the store the region records that the current run has written and the data
files it has set up although they existed.
-/
import NvMalloc.Routine
import NvMalloc.Decidability

open WriteM WriteGhost Function

/-! ## The copies -/

/-- Process ids are `int`s; the keys from here on are those of copies. -/
def heapBase : ℕ := 2 ^ 31

/-- The key of the copy of process record `x`. -/
def privateProc (x : ℕ) : ℕ := heapBase + x

/-- The address of the copy of a region record. -/
def privateMmapobj (proc : ℕ) (q : MmapPtr) : MmapPtr := ⟨proc, q.off⟩

/-- What the memory holds where `malloc` puts the `meta_offset` of a copy. -/
structure Garbage where
  proc : ℕ → ℕ
  mmapobj : MmapPtr → ℕ

/-- The copy of a process record in `load_process`. -/
def ProcObj.privateCopy (h : ProcObj) (garbage : ℕ) : ProcObj :=
  { pid := h.pid
    pesistMmaps := h.pesistMmaps
    numMmaps := h.numMmaps
    metaOffset := garbage }

/-- `copy_mmapobj`.  The pointers of the copy are set before they are followed. -/
def Mmapobj.privateCopy (m : Mmapobj) (garbage : ℕ) : Mmapobj :=
  { vmaId := m.vmaId
    length := m.length
    procId := m.procId
    numchunks := m.numchunks
    metaOffset := garbage }

/-- The loop of `load_process` over the region records of a process. -/
def restoreCopies (place : DataFile → ℕ) (heap : Garbage) (proc : ℕ) : List MmapPtr → NvM Unit
  | [] => return ()
  | q :: qs => do
    let st ← state
    let copy := (st.disk.mmapobj q).privateCopy (heap.mmapobj q)
    emit (.mmapobj (privateMmapobj proc q) fun _ => copy)
    addMmapobj (privateMmapobj proc q) proc
    restoreChunkObjs place (privateMmapobj proc q)
    restoreCopies place heap proc qs

/-- The copy of the process record. -/
def copyProcess (heap : Garbage) (nvProc : ℕ) : NvM ℕ := do
  let st ← state
  let h ← lift (st.disk.proc nvProc)
  emit (.procFile (privateProc nvProc))
  emit (.proc (privateProc nvProc) fun _ => h.privateCopy (heap.proc nvProc))
  return privateProc nvProc

/-- The part of `load_process` after `add_proc_obj`. -/
def restoreProcess (place : DataFile → ℕ) (heap : Garbage) (nvProc : ℕ) : NvM ℕ := do
  let proc := privateProc nvProc
  initializeMmapobjTree proc
  let st ← state
  let h ← lift (st.disk.proc proc)
  restoreCopies place heap proc (mmapobjSlots nvProc h.pesistMmaps)
  return proc

/-- `load_process` without write permission. -/
def copyLoadProcess (place : DataFile → ℕ) (heap : Garbage) (pid : ℕ) : NvM ℕ := do
  let st ← state
  assert (st.ram.gInitialized = true)
  let nvProc ← createOrLoadProcObj pid
  let proc ← copyProcess heap nvProc
  addProcObj proc
  restoreProcess place heap nvProc

/-- `nv_initialize` of this build. -/
def copyInitialize (place : DataFile → ℕ) (heap : Garbage) (pid : ℕ) : NvM Unit := do
  let st ← state
  if ¬ st.ram.gInitialized then
    emit (.ram fun r => { r with gInitialized := true })
    let _ ← copyLoadProcess place heap pid

/-- `nv_map_read` of this build, which copies the bytes of the object. -/
def copyReadObject (place : DataFile → ℕ) (heap : Garbage) (p : ℕ) (n : ObjName) :
    NvM (Option Obj) := do
  let st ← state
  let proc ← match st.findProcess p with
    | some proc => pure proc
    | none => copyLoadProcess place heap p
  match ← readFrom (request p n) proc with
  | none => return none
  | some r =>
    let st ← state
    let bs ← lift (st.loadBytes r.nvPtr r.bytes)
    return some ⟨r.bytes, r.commitsz, bs⟩

/-- `nv_commit` of this build, when the program has changed `bs` in its copy of the bytes. -/
def copyCommit (p : ℕ) (n : ObjName) (off : ℕ) (bs : List UInt8) : NvM Unit := do
  let found ← getChunk (request p n)
  let c ← lift found
  let st ← state
  assert ((st.disk.chunk c).length ≠ 0)
  let ws ← lift (st.storeBytes ((st.disk.chunk c).nvPtr + off) bs)
  emits ws

/-- The program of an operation in this build. -/
def copyProg (heap : Garbage) (p : ℕ) : Op → NvM Unit
  | .read n place => do let _ ← copyReadObject place heap p n
  | .write n off bs => copyCommit p n off bs
  | .restart place => copyInitialize place heap p
  | op => op.prog p

/-! ## Runs -/

/-- The region record in a write. -/
def Write.record : Write → Option MmapPtr
  | .mmapobj q _ => some q
  | _ => none

/-- The existing data file that a write truncates. -/
def Write.truncates (d : Disk) : Write → Option DataFile
  | .dataFile f _ => if (d.data f).isSome then some f else none
  | _ => none

/-- The store with the region records that were written in the current run and the data
files that were truncated in it. -/
structure CopyRun where
  store : Store := {}
  written : List MmapPtr := []
  truncated : List DataFile := []

/-- The effect of a write. -/
def CopyRun.apply (c : CopyRun) (w : Write) : CopyRun :=
  ⟨c.store.apply w, c.written ++ w.record.toList, c.truncated ++ (w.truncates c.store.disk).toList⟩

instance : WriteEffect CopyRun Write := ⟨CopyRun.apply⟩

instance : WriteGhost CopyRun Store Write := ⟨CopyRun.store, fun _ _ => rfl⟩

theorem CopyRun.store_applyAll (c : CopyRun) (ws : List Write) :
    (applyAll c ws).store = applyAll c.store ws := proj_applyAll c ws

/-- The files, without the copies. -/
def Disk.files (d : Disk) : Disk :=
  { d with
    proc := fun x => if x < heapBase then d.proc x else none
    mmapobj := fun q => if q.pid < heapBase then d.mmapobj q else {} }

/-- A new run starts: only the files are left. -/
def CopyRun.reboot (c : CopyRun) : CopyRun :=
  { store := ⟨c.store.disk.files, { run := c.store.ram.run + 1 }⟩ }

/-- The operation starts a new run. -/
def Op.isRestart : Op → Bool
  | .restart _ => true
  | _ => false

/-- The state in which an operation begins. -/
def CopyRun.begin (c : CopyRun) (op : Op) : CopyRun := if op.isRestart then c.reboot else c

/-- An operation of a process.  The memory of each run has garbage of its own. -/
def copyStep (heap : ℕ → Garbage) (c : CopyRun) (e : ℕ × Op) : Option (Unit × CopyRun) :=
  if e.1 < heapBase then
    (copyProg (heap (c.begin e.2).store.ram.run) e.1 e.2 (c.begin e.2).store).map
      fun r => ((), applyAll (c.begin e.2) r.2)
  else none

/-! ## The objects of a run -/

/-- The region records that the header of process `p` counts. -/
def countedRegions (d : Disk) (p : ℕ) : List MmapPtr :=
  match d.proc p with
  | none => []
  | some h => mmapobjSlots p h.pesistMmaps

/-- The chunk records that those region records count. -/
def countedChunks (d : Disk) (p : ℕ) : List ChunkPtr :=
  (countedRegions d p).flatMap fun q => (d.mmapobj q).scan

/-- The end of the header and of the region records that it counts. -/
def countedEnd (d : Disk) (p : ℕ) : ℕ := sizeofProc + (countedRegions d p).length * sizeofMmapobj

/-- The object was allocated in this run, and the request finds it. -/
structure AllocatedHere (c : CopyRun) (rqst : Rqst) (addr : ℕ) (k : ChunkPtr) : Prop where
  recorded : c.store.ram.chunkmap addr = some k
  valid : (c.store.disk.chunk k).valid = .VALID
  found : foundChunk c.store rqst = some k

/-- What is expected of an object of a run that started on the files `d` and ended in `c`, when
the next run starts in `c'`: it is found, the ids of the run's regions were not in use, and no
record of an earlier object was overwritten by those of the run. -/
structure Outlives (d : Disk) (c c' : CopyRun) (rqst : Rqst) (k : ChunkPtr) : Prop where
  found : foundChunk c'.store rqst = some k
  freshIds : c.truncated = []
  regions : ∀ q ∈ c.written, q.pid = rqst.pid → countedEnd d rqst.pid ≤ q.off
  chunk : k ∉ countedChunks d rqst.pid

/-! ## What the functions of this build keep -/

section Functions

variable {τ : Type} [WriteEffect τ Write] [WriteGhost τ Store Write]

/-- The invariant is kept by the writes that make and fill the copies for process `x`. -/
structure Copies (S : Scope) (I : τ → Prop) (x : ℕ) : Prop
    extends RestoresRegions S I (privateProc x) where
  file : ∀ {c}, I c → I (WriteEffect.apply c (.procFile (privateProc x)))
  record : ∀ {c} h, I c → I (WriteEffect.apply c (.proc (privateProc x) fun _ => h))
  mmapobj : ∀ {c} q m, I c →
    I (WriteEffect.apply c (.mmapobj (privateMmapobj (privateProc x) q) fun _ => m))
  register : ∀ {c} y, I c →
    I (WriteEffect.apply c
      (.ram fun r => { r with procTree := r.procTree.insert y (privateProc x) }))
  own : S.proc (privateProc x)

variable {S : Scope} {I : τ → Prop} {c : τ} {x : ℕ}

section

variable (hH : Harmless S I)
include hH

theorem Harmless.wpc_restoreCopies (hC : Copies S I x) (hI : I c) (place : DataFile → ℕ)
    (heap : Garbage) (qs : List MmapPtr) :
    Wpc (fun _ => I) I (restoreCopies place heap (privateProc x) qs) c := by
  induction qs generalizing c with
  | nil => exact wpc_pure hI hI
  | cons q qs ih =>
    refine wpc_state_bind (wpc_keep hI (hC.mmapobj q _ hI) fun c₁ h₁ => ?_)
    refine (hH.wpc_addMmapobj h₁ hC.own fun c' h' _ _ v => hC.enter v _ h').seq fun _ c₂ h₂ => ?_
    exact (hH.wpc_restoreChunkObjs hC.toRestoresRegions h₂ place _).seq fun _ c₃ h₃ => ih h₃

theorem Harmless.wpc_restoreProcess (hC : Copies S I x) (hI : I c) (place : DataFile → ℕ)
    (heap : Garbage) : Wpc (fun y c' => I c' ∧ S.proc y) I (restoreProcess place heap x) c := by
  refine (hH.wpc_initializeMmapobjTree hI hC.own).seq fun _ c₁ h₁ => ?_
  refine wpc_state_bind (wpc_lift_bind fun h _ => ?_)
  refine (hH.wpc_restoreCopies hC h₁ place heap _).seq fun _ c₂ h₂ => ?_
  exact wpc_pure h₂ ⟨h₂, hC.own⟩

theorem Harmless.wpc_copyLoadProcess (hA : Admits S I x) (hC : Copies S I x) (hI : I c)
    (hx : (proj c).findProcess x = none) (place : DataFile → ℕ) (heap : Garbage) :
    Wpc (fun y c' => I c' ∧ S.proc y) I (copyLoadProcess place heap x) c := by
  refine wpc_state_bind (wpc_assert_bind fun _ => ?_)
  refine (hH.wpc_createOrLoadProcObj hA hI).then fun y c₁ h₁ hy => ?_
  obtain ⟨-, hyx, -⟩ := hy
  rw [hx, Option.getD_none] at hyx
  subst hyx
  have hcopy : Wpc (fun z c' => I c' ∧ z = privateProc y) I (copyProcess heap y) c₁ := by
    refine wpc_state_bind (wpc_lift_bind fun h _ => ?_)
    refine wpc_keep h₁ (hC.file h₁) fun c₂ h₂ => wpc_keep h₂ (hC.record _ h₂) fun c₃ h₃ => ?_
    exact wpc_pure h₃ ⟨h₃, rfl⟩
  refine hcopy.then fun z c₂ h₂ hz => ?_
  subst hz
  have hadd : Wpc (fun _ => I) I (addProcObj (privateProc y)) c₂ :=
    wpc_state_bind (wpc_lift_bind fun h _ => wpc_emit h₂ (hC.register _ h₂) (hC.register _ h₂))
  exact hadd.seq fun _ c₃ h₃ => hH.wpc_restoreProcess hC h₃ place heap

theorem Harmless.wpc_copyReadObject (hA : Admits S I x) (hC : Copies S I x) (hI : I c)
    (place : DataFile → ℕ) (heap : Garbage) (n : ObjName) :
    Wpc (fun _ => I) I (copyReadObject place heap x n) c := by
  have hend : ∀ (y : ℕ) (c' : τ), I c' → S.proc y → Wpc (fun _ => I) I (do
      match ← readFrom (request x n) y with
      | none => return none
      | some r =>
        let st ← state
        let bs ← lift (st.loadBytes r.nvPtr r.bytes)
        return some ⟨r.bytes, r.commitsz, bs⟩ : NvM (Option Obj)) c' := by
    intro y c' h' hy
    refine (hH.wpc_readFrom h' hy _).then fun found c₁ h₁ _ => ?_
    cases found with
    | none => exact wpc_pure h₁ h₁
    | some r => exact wpc_state_bind (wpc_lift_bind fun bs _ => wpc_pure h₁ h₁)
  refine wpc_state_bind ?_
  cases hx : (proj c).findProcess x with
  | some y =>
    have hpure : Wpc (fun y c' => I c' ∧ S.proc y) I (pure y : NvM ℕ) c :=
      wpc_pure hI ⟨hI, hH.process hI hx⟩
    exact hpure.then hend
  | none => exact (hH.wpc_copyLoadProcess hA hC hI hx place heap).then hend

theorem Harmless.wpc_copyCommit (hI : I c) (n : ObjName) (off : ℕ) (bs : List UInt8) :
    Wpc (fun _ => I) I (copyCommit x n off bs) c := by
  refine (hH.wpc_getChunk hI _).seq fun found c₁ h₁ => wpc_lift_bind fun k _ => ?_
  refine wpc_state_bind (wpc_assert_bind fun _ => wpc_lift_bind fun ws hws => ?_)
  exact hH.wpc_storeBytes h₁ hws

end

/-- An operation within a run keeps the invariant. -/
theorem Ordinary.wpc_copyProg (hO : Ordinary S I) (hE : IgnoresChunks I) (hA : Admits S I x)
    (hC : Copies S I x) (hI : I c) (heap : Garbage) {op : Op} (hop : op.isRestart = false) :
    Wpc (fun _ => I) I (copyProg heap x op) c := by
  cases op with
  | mmap size addr => exact hO.wpc_mmapRegion hA hI size addr
  | alloc n bytes addr => exact hO.wpc_nvRecordChunk hE hA hI addr
  | commit n size => exact (hO.wpc_nvCommitLen hE hI _ size).seq fun _ c₁ h₁ => wpc_pure h₁ h₁
  | delete n => exact (hO.wpc_nvDelete hI _).seq fun _ c₁ h₁ => wpc_pure h₁ h₁
  | read n place =>
    exact (hO.wpc_copyReadObject hA hC hI place heap n).seq fun _ c₁ h₁ => wpc_pure h₁ h₁
  | write n off bs => exact hO.wpc_copyCommit hI n off bs
  | rename s d => exact hO.wpc_nvRename hI _ d
  | restart place => cases hop

end Functions

/-! ## Histories -/

/-- Every process record in a file has the pid of its file. -/
abbrev FilePids (c : CopyRun) : Prop := PidsIn (Set.Iio heapBase) c.store

namespace FilePids

variable {c : CopyRun}

/-- The copies are not in files. -/
theorem apply_private (h : FilePids c) (x : ℕ) (f : ProcObj → ProcObj) :
    FilePids (c.apply (.proc (privateProc x) f)) := by
  intro y hy r hr
  have hne : y ≠ privateProc x := (lt_of_lt_of_le hy (Nat.le_add_right _ _)).ne
  exact h y hy r ((update_of_ne (β := fun _ => Option ProcObj) hne ..).symm.trans hr)

theorem reboot (h : FilePids c) : FilePids c.reboot := by
  intro x hx r hr
  have hfile : (if x < heapBase then c.store.disk.proc x else none) = some r := hr
  rw [if_pos (Set.mem_Iio.mp hx)] at hfile
  exact h x hx r hfile

end FilePids

theorem filePids_copies (x : ℕ) : Copies {} FilePids x where
  enter _ _ h := h.apply_proc fun _ => rfl
  mapMeta _ _ h := h.of_proc rfl
  file h := h.apply_procFile _
  record _ h := h.apply_private x _
  mmapobj _ _ h := h.of_proc rfl
  register _ h := h.of_proc rfl
  own := trivial

variable {heap : ℕ → Garbage} {c : CopyRun} {p : ℕ}

/-- An operation runs in the state it begins in. -/
theorem copyStep_cases {c' : CopyRun} {e : ℕ × Op} {u : Unit} (h : copyStep heap c e = some (u, c'))
    : e.1 < heapBase ∧ ∃ v ws,
      copyProg (heap (c.begin e.2).store.ram.run) e.1 e.2 (c.begin e.2).store = some (v, ws) ∧
      c' = applyAll (c.begin e.2) ws := by
  unfold copyStep at h
  split at h
  · next hp =>
    obtain ⟨⟨v, ws⟩, hrun, heq⟩ := Option.map_eq_some_iff.mp h
    cases heq
    exact ⟨hp, v, ws, hrun, rfl⟩
  · cases h

theorem FilePids.wpc_copyInitialize (h : FilePids c) (hnone : ∀ x, c.store.findProcess x = none)
    (place : DataFile → ℕ) (heap : Garbage) (x : ℕ) :
    Wpc (fun _ => FilePids) FilePids (copyInitialize place heap x) c := by
  refine wpc_state_bind ?_
  split
  · have hinit : FilePids (c.apply (.ram fun r => { r with gInitialized := true })) := h.of_proc rfl
    refine wpc_emit_bind h (((pidsIn_ordinary _).wpc_copyLoadProcess (pidsIn_admits _ x)
      (filePids_copies x) hinit (hnone x) place heap).then fun _ c₁ h₁ _ => wpc_pure h₁ h₁)
  · exact wpc_pure h h

theorem CopyRun.findProcess_reboot (c : CopyRun) (x : ℕ) :
    c.reboot.store.findProcess x = none := rfl

/-- Throughout every history the process records in files have the pids of their files. -/
theorem filePids_of_run {es : List (ℕ × Op)} {us : List Unit}
    (hrun : runSteps (copyStep heap) es {} = some (us, c)) : FilePids c := by
  have hstep : ∀ {c e u c'}, FilePids c → True → copyStep heap c e = some (u, c') →
      FilePids c' := by
    rintro c ⟨x, op⟩ u c' h - hs
    obtain ⟨-, v, ws, hprog, rfl⟩ := copyStep_cases hs
    cases hop : op.isRestart with
    | false =>
      have hbegin : c.begin op = c := by rw [CopyRun.begin, hop]; rfl
      simp only [hbegin] at hprog ⊢
      exact ((pidsIn_ordinary _).wpc_copyProg (fun _ _ h => h.of_proc rfl) (pidsIn_admits _ x)
        (filePids_copies x) h _ hop v ws hprog).1
    | true =>
      cases op with
      | restart place =>
        exact (h.reboot.wpc_copyInitialize c.findProcess_reboot place _ x v ws hprog).1
      | _ => cases hop
  have hempty : FilePids {} := by
    intro x _ h hh
    cases hh
  exact runSteps_inv_of_some hstep hempty (along_of_forall (fun _ _ => trivial) es _) hrun

/-! ## The header of a process that was loaded -/

/-- Process `p` is in memory, through another record than the one in its file.  That one is as it
was, and so are the region records in the file that were not written in this run. -/
structure HeaderKept (p : ℕ) (h₀ : ProcObj) (m₀ : MmapPtr → Mmapobj) (c : CopyRun) : Prop where
  registered : (c.store.findProcess p).isSome
  apart : ∀ {x y}, c.store.findProcess x = some y → y ≠ p
  header : c.store.disk.proc p = some h₀
  records : ∀ {q}, q.pid = p → q ∈ c.written ∨ c.store.disk.mmapobj q = m₀ q

/-- The record in the file of process `p` is not worked on. -/
def offHeader (p : ℕ) : Scope := { proc := fun y => y ≠ p }

namespace HeaderKept

variable {p : ℕ} {h₀ : ProcObj} {m₀ : MmapPtr → Mmapobj} {c : CopyRun} (h : HeaderKept p h₀ m₀ c)
include h

theorem keep {w : Write} (htree : (c.store.ram.apply w).procTree = c.store.ram.procTree)
    (hproc : (c.store.disk.apply w).proc p = c.store.disk.proc p)
    (hrec : ∀ q, q.pid = p → w.record = some q ∨
      (c.store.disk.apply w).mmapobj q = c.store.disk.mmapobj q) :
    HeaderKept p h₀ m₀ (c.apply w) := by
  have hfind : ∀ x, (c.apply w).store.findProcess x = c.store.findProcess x := by
    intro x
    show (c.store.ram.apply w).procTree.find x = _
    rw [htree]
    rfl
  refine ⟨?_, ?_, hproc.trans h.header, ?_⟩
  · rw [hfind]
    exact h.registered
  · intro x y hy
    rw [hfind] at hy
    exact h.apart hy
  · intro q hq
    show q ∈ c.written ++ w.record.toList ∨ (c.store.disk.apply w).mmapobj q = m₀ q
    rcases hrec q hq with hw | hw
    · rw [hw]
      exact .inl (List.mem_append_right _ (List.mem_singleton_self q))
    · rcases h.records hq with hmem | hsame
      · exact .inl (List.mem_append_left _ hmem)
      · exact .inr (hw.trans hsame)

/-- A write that touches no process record, no region record and no registration. -/
theorem keep_rfl {w : Write} (htree : (c.store.ram.apply w).procTree = c.store.ram.procTree)
    (hproc : (c.store.disk.apply w).proc = c.store.disk.proc)
    (hrec : (c.store.disk.apply w).mmapobj = c.store.disk.mmapobj) :
    HeaderKept p h₀ m₀ (c.apply w) :=
  h.keep htree (congrFun hproc p) fun q _ => .inr (congrFun hrec q)

theorem keep_mmapobj (q : MmapPtr) (f : Mmapobj → Mmapobj) :
    HeaderKept p h₀ m₀ (c.apply (.mmapobj q f)) := by
  refine h.keep rfl rfl ?_
  intro q' _
  by_cases hq : q' = q
  · exact .inl (congrArg some hq.symm)
  · exact .inr (update_of_ne hq ..)

theorem keep_proc {x : ℕ} (hx : x ≠ p) (f : ProcObj → ProcObj) :
    HeaderKept p h₀ m₀ (c.apply (.proc x f)) :=
  h.keep rfl (update_of_ne (β := fun _ => Option ProcObj) hx.symm ..) fun _ _ => .inr rfl

theorem keep_procFile {x : ℕ} (hx : x ≠ p) : HeaderKept p h₀ m₀ (c.apply (.procFile x)) := by
  refine h.keep rfl (update_of_ne (β := fun _ => Option ProcObj) hx.symm ..) ?_
  intro q hq
  refine .inr ?_
  show (if q.pid = x then {} else c.store.disk.mmapobj q) = _
  rw [if_neg]
  intro hqx
  exact hx (hqx.symm.trans hq)

theorem keep_register (k : ℕ) {x : ℕ} (hx : x ≠ p) :
    HeaderKept p h₀ m₀ (c.apply (.ram fun r => { r with procTree := r.procTree.insert k x })) := by
  have hfind : ∀ y, (c.apply (.ram fun r =>
      { r with procTree := r.procTree.insert k x })).store.findProcess y =
        if y = k then some x else c.store.findProcess y := fun y => Rbtree.find_insert ..
  refine ⟨?_, ?_, h.header, ?_⟩
  · rw [hfind]
    split
    · rfl
    · exact h.registered
  · intro y z hz
    rw [hfind] at hz
    split at hz
    · cases hz
      exact hx
    · exact h.apart hz
  · intro q hq
    exact (h.records hq).imp_left fun hmem => List.mem_append_left _ hmem

end HeaderKept

section HeaderKept

variable (p : ℕ) (h₀ : ProcObj) (m₀ : MmapPtr → Mmapobj)

theorem headerKept_ordinary : Ordinary (offHeader p) (HeaderKept p h₀ m₀) where
  chunk _ _ _ h := h.keep_rfl rfl rfl rfl
  byte _ _ _ h := h.keep_rfl rfl rfl rfl
  names hf h := h.keep_rfl (congrArg Ram.procTree (hf _) :) rfl rfl
  chunkmap _ _ _ h := h.keep_rfl rfl rfl rfl
  mmapobj _ _ h := h.keep_mmapobj _ _
  chunkTree _ h := h.keep_mmapobj _ _
  newTree hx _ _ h := h.keep_proc hx _
  flag hx h := h.keep_proc hx _
  process h hy := h.apart hy
  fields hx _ h := h.keep_proc hx _
  metaFile _ h := h.keep_rfl rfl rfl rfl
  dataFile _ _ h := h.keep_rfl rfl rfl rfl
  mapTree _ _ _ h := h.keep_rfl rfl rfl rfl
  procVmas _ _ h := h.keep_rfl rfl rfl rfl
  strtAddr _ _ _ _ h := h.keep_mmapobj _ _
  insert _ hx _ _ _ h := h.keep_proc hx _

/-- A process that is not in memory is another one. -/
theorem HeaderKept.ne {c : CopyRun} (h : HeaderKept p h₀ m₀ c) {x : ℕ}
    (hx : c.store.findProcess x = none) : x ≠ p := by
  rintro rfl
  have hreg := h.registered
  rw [hx] at hreg
  cases hreg

theorem headerKept_admits (x : ℕ) : Admits (offHeader p) (HeaderKept p h₀ m₀) x where
  procFile hx _ h := h.keep_procFile (h.ne p h₀ m₀ hx)
  start _ h := h.keep_rfl rfl rfl rfl
  addProc hx _ h := h.keep_register _ (h.ne p h₀ m₀ hx)
  own hx h := h.ne p h₀ m₀ hx

theorem headerKept_copies {p : ℕ} (hp : p < heapBase) (x : ℕ) :
    Copies (offHeader p) (HeaderKept p h₀ m₀) x := by
  have hne : privateProc x ≠ p := (lt_of_lt_of_le hp (Nat.le_add_right _ _)).ne'
  exact
    { region := fun _ => trivial
      enter := fun _ _ h => h.keep_proc hne _
      mapMeta := fun _ _ h => h.keep_mmapobj _ _
      file := fun h => h.keep_procFile hne
      record := fun _ h => h.keep_proc hne _
      mmapobj := fun _ _ h => h.keep_mmapobj _ _
      register := fun _ h => h.keep_register _ hne
      own := hne }

end HeaderKept

/-! ## The start of a run -/

/-- The writes of a start up to `add_proc_obj`, for a process whose record is `h`. -/
def openWrites (p : ℕ) (h : ProcObj) (garbage : ℕ) : List Write :=
  [.ram fun r => { r with gInitialized := true },
    .ram fun r => { r with procMapStart := some p },
    .procFile (privateProc p),
    .proc (privateProc p) fun _ => h.privateCopy garbage,
    .ram fun r => { r with procTree := r.procTree.insert h.pid (privateProc p) }]

/-- A start for a process that has a record, from an empty memory. -/
theorem wpc_copyInitialize {Q : CopyRun → Prop}
    (hinit : c.store.ram.gInitialized = false) (hnone : c.store.findProcess p = none)
    (hh : c.store.disk.proc p = some h) (place : DataFile → ℕ) (heap : Garbage)
    (hrest : Wpc (fun _ => Q) (fun _ => True) (restoreProcess place heap p)
      (applyAll c (openWrites p h (heap.proc p)))) :
    Wpc (fun _ => Q) (fun _ => True) (copyInitialize place heap p) c := by
  refine wpc_state_bind ?_
  rw [if_pos (by rw [show proj c = c.store from rfl, hinit]; decide)]
  refine wpc_emit_bind trivial (wpc_bind (wpc_state_bind (wpc_assert_bind fun _ => ?_)))
  refine wpc_bind (wpc_state_bind ?_)
  have hfile : (proj (WriteEffect.apply c
      (Write.ram fun r => { r with gInitialized := true }))).findProcess p = none := hnone
  rw [hfile]
  dsimp only
  split
  · next hno =>
    have hsome : (c.store.disk.proc p).isNone = true := hno
    rw [hh] at hsome
    cases hsome
  · refine wpc_emit_bind trivial (wpc_pure trivial (wpc_bind (wpc_state_bind ?_)))
    refine wpc_lift_bind fun h' hh' => ?_
    obtain rfl : h = h' := Option.some.inj (hh.symm.trans hh')
    refine wpc_emit_bind trivial (wpc_emit_bind trivial (wpc_pure trivial ?_))
    refine wpc_bind (wpc_state_bind (wpc_lift_bind fun copy hcopy => ?_))
    have hset : some (h.privateCopy (heap.proc p)) = some copy := by
      rw [← hcopy]
      show _ = update (update c.store.disk.proc (privateProc p)
        (some { pid := privateProc p })) (privateProc p) ((update c.store.disk.proc
          (privateProc p) (some { pid := privateProc p }) (privateProc p)).map _) (privateProc p)
      rw [update_self, update_self]
      rfl
    cases hset
    refine wpc_emit trivial trivial ?_
    exact hrest.post_mono fun _ c' h' => wpc_pure trivial h'

section Open

variable (c : CopyRun) (p : ℕ) (h : ProcObj) (garbage : ℕ)

theorem proc_open (x : ℕ) : (applyAll c (openWrites p h garbage)).store.disk.proc x =
    if x = privateProc p then some (h.privateCopy garbage) else c.store.disk.proc x := by
  by_cases hx : x = privateProc p <;>
    simp [openWrites, WriteEffect.apply, CopyRun.apply, Store.apply, Disk.apply, hx]

theorem mmapobj_open (q : MmapPtr) : (applyAll c (openWrites p h garbage)).store.disk.mmapobj q =
    if q.pid = privateProc p then {} else c.store.disk.mmapobj q := by
  simp [openWrites, WriteEffect.apply, CopyRun.apply, Store.apply, Disk.apply]

theorem findProcess_open (x : ℕ) :
    (applyAll c (openWrites p h garbage)).store.findProcess x =
      if x = h.pid then some (privateProc p) else c.store.findProcess x := by
  simp [openWrites, WriteEffect.apply, CopyRun.apply, Store.apply, Ram.apply, Store.findProcess,
    Rbtree.find_insert]

end Open

/-- After the start the header in the file is left alone. -/
theorem headerKept_start (hp : p < heapBase) (hinit : c.store.ram.gInitialized = false)
    (hnone : ∀ x, c.store.findProcess x = none) (hh : c.store.disk.proc p = some h)
    (hpid : h.pid = p) (place : DataFile → ℕ) (heap : Garbage) :
    Wpc (fun _ => HeaderKept p h c.store.disk.mmapobj) (fun _ => True)
      (copyInitialize place heap p) c := by
  have hne : p ≠ privateProc p := (lt_of_lt_of_le hp (Nat.le_add_right _ _)).ne
  refine wpc_copyInitialize hinit (hnone p) hh place heap ?_
  have hopen : HeaderKept p h c.store.disk.mmapobj
      (applyAll c (openWrites p h (heap.proc p))) := by
    refine ⟨?_, ?_, ?_, ?_⟩
    · rw [findProcess_open, if_pos hpid.symm]
      rfl
    · intro x y hy
      rw [findProcess_open, hnone] at hy
      split at hy
      · cases hy
        exact hne.symm
      · cases hy
    · rw [proc_open, if_neg hne, hh]
    · intro q hq
      right
      rw [mmapobj_open, if_neg (by rw [hq]; exact hne)]
  exact (((headerKept_ordinary p h _).wpc_restoreProcess (headerKept_copies h _ hp p) hopen
    place heap).post_mono fun _ _ hc => hc.1).cut_mono fun _ _ => trivial

/-- The run leaves it alone. -/
theorem HeaderKept.run {h₀ : ProcObj} {m₀ : MmapPtr → Mmapobj} (hp : p < heapBase)
    {es : List (ℕ × Op)} (hes : ∀ e ∈ es, e.2.isRestart = false) {c' : CopyRun} {us : List Unit}
    (h : HeaderKept p h₀ m₀ c) (hrun : runSteps (copyStep heap) es c = some (us, c')) :
    HeaderKept p h₀ m₀ c' := by
  induction es generalizing c us with
  | nil =>
    cases hrun
    exact h
  | cons e es ih =>
    obtain ⟨u, c₁, us', hstep, hrest, -⟩ := runSteps_cons_eq_some.mp hrun
    refine ih (fun e' he' => hes e' (List.mem_cons_of_mem _ he')) ?_ hrest
    have hop := hes e List.mem_cons_self
    obtain ⟨-, v, ws, hprog, rfl⟩ := copyStep_cases hstep
    have hbegin : c.begin e.2 = c := by rw [CopyRun.begin, hop]; rfl
    rw [hbegin] at hprog ⊢
    exact ((headerKept_ordinary p h₀ m₀).wpc_copyProg (fun _ _ h => h.keep_rfl rfl rfl rfl)
      (headerKept_admits p h₀ m₀ e.1) (headerKept_copies h₀ m₀ hp e.1) h _ hop v ws hprog).1

/-! ## What the next start finds -/

/-- The counters of a process record that are copied. -/
def ProcObj.counters (h : ProcObj) : ℕ × ℕ := (h.numMmaps, h.pesistMmaps)

/-- The process is in memory through the copy with key `key`, whose counters are `n`.  The regions
in its tree are copies, whose trees hold chunk records of `K` only, and the counted region records
in the file are as in `m₀`. -/
structure CopiesHold (p key : ℕ) (n : ℕ × ℕ) (K : Set ChunkPtr) (qs : List MmapPtr)
    (m₀ : MmapPtr → Mmapobj) (c : CopyRun) : Prop where
  process : c.store.findProcess p = some key
  count : (c.store.disk.proc key).map ProcObj.counters = some n
  regions : ∀ {h t v q}, c.store.disk.proc key = some h → h.mmapobjTree = some t →
    t.tree.find v = some q → q.pid = key
  entries : ∀ {q t k k'}, q.pid = key → (c.store.disk.mmapobj q).chunkobjTree = some t →
    t.tree.find k = some k' → k' ∈ K
  files : ∀ q ∈ qs, c.store.disk.mmapobj q = m₀ q

namespace CopiesHold

variable {p key : ℕ} {n : ℕ × ℕ} {K : Set ChunkPtr} {qs : List MmapPtr} {m₀ : MmapPtr → Mmapobj}
  {c : CopyRun}

/-- A write that touches no process record, no region record and no registration. -/
theorem keep (h : CopiesHold p key n K qs m₀ c) {w : Write}
    (htree : (c.store.ram.apply w).procTree = c.store.ram.procTree)
    (hproc : (c.store.disk.apply w).proc = c.store.disk.proc)
    (hrec : (c.store.disk.apply w).mmapobj = c.store.disk.mmapobj) :
    CopiesHold p key n K qs m₀ (c.apply w) where
  process := by
    rw [← h.process]
    exact congrArg (fun t => Rbtree.find t p) htree
  count := by
    rw [← h.count]
    exact congrArg (fun f => (f key).map ProcObj.counters) hproc
  regions hh := h.regions ((congrFun hproc key).symm.trans hh)
  entries {q} _ _ _ hq ht :=
    h.entries hq ((congrArg (fun f => (f q).chunkobjTree) hrec).symm.trans ht)
  files q hq := (congrFun hrec q).trans (h.files q hq)

variable {q : MmapPtr} (h : CopiesHold p key n K qs m₀ c)
include h

/-- A write to the copy of a region record. -/
theorem keep_mmapobj (hq : q ∉ qs) {f : Mmapobj → Mmapobj}
    (hf : ∀ t k k', (f (c.store.disk.mmapobj q)).chunkobjTree = some t →
      t.tree.find k = some k' → k' ∈ K) : CopiesHold p key n K qs m₀ (c.apply (.mmapobj q f)) where
  process := h.process
  count := h.count
  regions := h.regions
  entries {q' t k k'} hpid ht hk := by
    by_cases hqq : q' = q
    · subst hqq
      exact hf t k k' ((congrArg Mmapobj.chunkobjTree (update_self ..)).symm.trans ht) hk
    · exact h.entries hpid
        ((congrArg Mmapobj.chunkobjTree (update_of_ne hqq ..)).symm.trans ht) hk
  files q' hq' := by
    have hne : q' ≠ q := by
      rintro rfl
      exact hq hq'
    exact (update_of_ne hne ..).trans (h.files q' hq')

/-- A write to the copy of the process record. -/
theorem keep_proc {f : ProcObj → ProcObj} (hcount : ∀ r, (f r).counters = r.counters)
    (htree : ∀ r t v q, c.store.disk.proc key = some r → (f r).mmapobjTree = some t →
      t.tree.find v = some q → q.pid = key) :
    CopiesHold p key n K qs m₀ (c.apply (.proc key f)) := by
  have hrec : (c.apply (.proc key f)).store.disk.proc key = (c.store.disk.proc key).map f :=
    update_self (β := fun _ => Option ProcObj) ..
  refine ⟨h.process, ?_, ?_, h.entries, h.files⟩
  · rw [hrec, Option.map_map, ← h.count]
    congr 1
    funext r
    exact hcount r
  · intro r t v q hr ht hq
    rw [hrec] at hr
    obtain ⟨r₀, hr₀, rfl⟩ := Option.map_eq_some_iff.mp hr
    exact htree r₀ t v q hr₀ ht hq

/-- A write to the copy of a region record that keeps its tree. -/
theorem keep_fields (hq : q ∉ qs) (hpid : q.pid = key) {f : Mmapobj → Mmapobj}
    (hf : ∀ m, (f m).chunkobjTree = m.chunkobjTree) :
    CopiesHold p key n K qs m₀ (c.apply (.mmapobj q f)) := by
  refine h.keep_mmapobj hq ?_
  intro t k k' ht hk
  rw [hf] at ht
  exact h.entries hpid ht hk

/-! The functions keep this wherever they are cut. -/

theorem wpc_initializeMmapobjTree :
    Wpc (fun _ => CopiesHold p key n K qs m₀) (CopiesHold p key n K qs m₀)
      (initializeMmapobjTree key) c := by
  refine wpc_state_bind (wpc_lift_bind fun r hr => ?_)
  split
  · refine wpc_keep h (h.keep_proc (fun _ => rfl) ?_) fun c₁ h₁ => ?_
    · intro r t v q _ ht hq
      cases ht
      cases hq
    · have hflag := h₁.keep_proc (f := fun r => { r with mmapobjInitialized := true })
        (fun _ => rfl) fun r t v q hr ht hq => h₁.regions hr ht hq
      exact wpc_emit h₁ hflag hflag
  · exact wpc_pure h h

theorem wpc_addMmapobj (hq : q.pid = key) :
    Wpc (fun _ => CopiesHold p key n K qs m₀) (CopiesHold p key n K qs m₀)
      (addMmapobj q key) c := by
  have hend : ∀ c' : CopyRun, CopiesHold p key n K qs m₀ c' →
      Wpc (fun _ => CopiesHold p key n K qs m₀) (CopiesHold p key n K qs m₀) (do
        let st ← state
        let h ← lift (st.disk.proc key)
        let t ← lift h.mmapobjTree
        let _ ← lift (t.deref st.ram.run)
        emit (.proc key fun h => h.insertMmapobj (st.disk.mmapobj q).vmaId q) : NvM Unit) c' := by
    intro c' h'
    refine wpc_state_bind (wpc_lift_bind fun r hr => wpc_lift_bind fun t ht => ?_)
    have hins := h'.keep_proc (f := fun r => r.insertMmapobj (c'.store.disk.mmapobj q).vmaId q)
      (fun _ => rfl) (by
        intro r' t' v q' hr' ht' hq'
        obtain rfl : r = r' := Option.some.inj (hr.symm.trans hr')
        rw [ProcObj.insertMmapobj, ht] at ht'
        cases ht'
        have hfind := Rbtree.find_insert t.tree (c'.store.disk.mmapobj q).vmaId q v
        rw [show (t.tree.insert (c'.store.disk.mmapobj q).vmaId q).find v = some q' from hq']
          at hfind
        split at hfind
        · cases hfind
          exact hq
        · exact h'.regions hr ht hfind.symm)
    exact wpc_lift_bind fun _ _ => wpc_emit h' hins hins
  refine wpc_state_bind (wpc_lift_bind fun r _ => ?_)
  split
  · exact h.wpc_initializeMmapobjTree.seq fun _ c' h' => hend c' h'
  · exact hend c h

theorem wpc_initChunkTree (hq : q ∉ qs) (hpid : q.pid = key) :
    Wpc (fun _ => CopiesHold p key n K qs m₀) (CopiesHold p key n K qs m₀) (initChunkTree q) c := by
  refine wpc_state_bind (wpc_keep h (h.keep_mmapobj hq ?_) fun c₁ h₁ => ?_)
  · intro t k k' ht hk
    cases ht
    cases hk
  · have hflag := h₁.keep_fields hq hpid (f := fun m => { m with chunkTreeInit := true })
      fun _ => rfl
    exact wpc_emit h₁ hflag hflag

theorem wpc_addChunkobj (hq : q ∉ qs) (hpid : q.pid = key) {k : ChunkPtr} (hk : k ∈ K) :
    Wpc (fun _ => CopiesHold p key n K qs m₀) (CopiesHold p key n K qs m₀) (addChunkobj q k) c := by
  refine wpc_state_bind (wpc_lift_bind fun t ht => wpc_assert_bind fun _ => ?_)
  refine wpc_lift_bind fun _ _ => wpc_keep h (h.keep_mmapobj hq ?_) fun c₁ h₁ => ?_
  · intro t' id k' ht' hk'
    have htree : (c.store.disk.mmapobj q).chunkobjTree = some t := ht
    rw [Mmapobj.insertEntry, htree] at ht'
    cases ht'
    have hfind := Rbtree.find_insert t.tree (c.store.disk.chunk k).chunkid k id
    rw [show (t.tree.insert (c.store.disk.chunk k).chunkid k).find id = some k' from hk'] at hfind
    split at hfind
    · cases hfind
      exact hk
    · exact h.entries hpid ht hfind.symm
  · exact wpc_emit h₁ (h₁.keep rfl rfl rfl) (h₁.keep rfl rfl rfl)

theorem wpc_restoreChunks (hq : q ∉ qs) (hpid : q.pid = key) (dataAddr : ℕ) {ks : List ChunkPtr}
    (hks : ∀ k ∈ ks, k ∈ K) :
    Wpc (fun _ => CopiesHold p key n K qs m₀) (CopiesHold p key n K qs m₀)
      (restoreChunks q dataAddr ks) c := by
  induction ks generalizing c with
  | nil => exact wpc_pure h h
  | cons k ks ih =>
    have hrest : ∀ k' ∈ ks, k' ∈ K := fun k' hk' => hks k' (List.mem_cons_of_mem _ hk')
    refine wpc_state_bind ?_
    split
    · exact ih h hrest
    · refine wpc_keep h (h.keep rfl rfl rfl) fun c₁ h₁ => ?_
      exact (h₁.wpc_addChunkobj hq hpid (hks k List.mem_cons_self)).seq fun _ c₂ h₂ => ih h₂ hrest

/-- The entries that a region gets are those its copy counts. -/
theorem wpc_restoreChunkObjs (hq : q ∉ qs) (hpid : q.pid = key) (place : DataFile → ℕ)
    (hscan : ∀ k ∈ (c.store.disk.mmapobj q).scan, k ∈ K) :
    Wpc (fun _ => CopiesHold p key n K qs m₀) (CopiesHold p key n K qs m₀)
      (restoreChunkObjs place q) c := by
  refine wpc_state_bind (wpc_keep h (h.keep_fields hq hpid fun _ => rfl) fun c₁ h₁ => ?_)
  refine wpc_keep h₁ (h₁.keep_fields hq hpid fun _ => rfl) fun c₂ h₂ => ?_
  dsimp only
  split
  · refine wpc_keep h₂ (h₂.keep rfl rfl rfl) fun c₃ h₃ => ?_
    refine wpc_keep h₃ (h₃.keep_fields hq hpid fun _ => rfl) fun c₄ h₄ => ?_
    refine wpc_assert_bind fun _ => ?_
    split
    · exact (h₄.wpc_initChunkTree hq hpid).seq fun _ c₅ h₅ => h₅.wpc_restoreChunks hq hpid _ hscan
    · exact h₄.wpc_restoreChunks hq hpid _ hscan
  · exact wpc_pure h₂ h₂

theorem wpc_restoreCopies (hqs : ∀ q ∈ qs, q.pid ≠ key) (hK : ∀ q ∈ qs, ∀ k ∈ (m₀ q).scan, k ∈ K)
    (place : DataFile → ℕ) (heap : Garbage) {rs : List MmapPtr} (hrs : ∀ q ∈ rs, q ∈ qs) :
    Wpc (fun _ => CopiesHold p key n K qs m₀) (CopiesHold p key n K qs m₀)
      (restoreCopies place heap key rs) c := by
  induction rs generalizing c with
  | nil => exact wpc_pure h h
  | cons q rs ih =>
    have hq := hrs q List.mem_cons_self
    have hnot : privateMmapobj key q ∉ qs := fun hmem => hqs _ hmem rfl
    refine wpc_state_bind (wpc_emit_bind h ?_)
    have hcopy := h.keep_mmapobj hnot (f := fun _ =>
      (c.store.disk.mmapobj q).privateCopy (heap.mmapobj q)) (by
        intro t k k' ht
        cases ht)
    -- the copy counts the chunks that the record in the file counts
    have hself : (c.apply (.mmapobj (privateMmapobj key q) fun _ =>
        (c.store.disk.mmapobj q).privateCopy (heap.mmapobj q))).store.disk.mmapobj
          (privateMmapobj key q) = (m₀ q).privateCopy (heap.mmapobj q) := by
      rw [← h.files q hq]
      exact update_self ..
    have hadd := (hcopy.wpc_addMmapobj (q := privateMmapobj key q) rfl).and_run
      (P := fun _ c' => ∀ k ∈ (c'.store.disk.mmapobj (privateMmapobj key q)).scan, k ∈ K) (by
        intro _ ws hws k hk
        rw [CopyRun.store_applyAll, (entered_addMmapobj _ _ hws).1.mmapobj, hself] at hk
        exact hK q hq k hk)
    refine hadd.then fun _ c₂ h₂ hscan => ?_
    refine (h₂.wpc_restoreChunkObjs hnot rfl place hscan).seq fun _ c₃ h₃ => ?_
    exact ih h₃ fun q' hq' => hrs q' (List.mem_cons_of_mem _ hq')

/-- A search finds only chunk records of `K`. -/
theorem foundChunk_mem {rqst : Rqst} (hp : rqst.pid = p) {k : ChunkPtr}
    (hk : foundChunk c.store rqst = some k) : k ∈ K := by
  have hget : Wpc (fun r _ => ∀ k, r = some k → k ∈ K) (fun _ => True) (getChunk rqst) c := by
    refine wpc_assert_bind fun _ => wpc_assert_bind fun _ => wpc_state_bind ?_
    have hproc : (proj c).findProcess rqst.pid = some key := by
      rw [hp]
      exact h.process
    rw [hproc]
    -- a search that finds a region has written nothing
    have hsearch : Wpc (fun r c' => ∀ q, r = some q → c' = c ∧ q.pid = key) (fun _ => True)
        (findMmapobjFromChunkid rqst.chunkId key) c := by
      refine wpc_state_bind (wpc_lift_bind fun r hr => ?_)
      split
      · split
        · exact wpc_pure trivial fun q hq => by cases hq
        · next t ht =>
          refine wpc_lift_bind fun tree htree => wpc_lift_bind fun vmid _ => wpc_pure trivial ?_
          intro q hq
          split at hq
          · cases hq
          · unfold TreeRef.deref at htree
            split at htree
            · cases htree
              exact ⟨rfl, h.regions hr ht hq⟩
            · cases htree
      · refine wpc_bind ((h.wpc_initializeMmapobjTree.post_mono fun _ _ _ => ?_).cut_mono
          fun _ _ => trivial)
        exact wpc_pure trivial fun q hq => by cases hq
    refine wpc_bind (hsearch.post_mono fun r c' hr => ?_)
    cases r with
    | none => exact wpc_pure trivial fun k hk => by cases hk
    | some q =>
      obtain ⟨rfl, hpid⟩ := hr q rfl
      refine wpc_state_bind (wpc_lift trivial fun r hr k hk => ?_)
      subst hk
      unfold Store.findChunk at hr
      split at hr
      · cases hr
      · next t ht =>
        obtain ⟨tree, htree, hfind⟩ := Option.map_eq_some_iff.mp hr
        unfold TreeRef.deref at htree
        split at htree
        · cases htree
          exact h.entries hpid ht hfind
        · cases htree
  obtain ⟨⟨r, ws⟩, hrun, rfl⟩ := Option.bind_eq_some_iff.mp hk
  exact (hget _ ws hrun).1 k rfl

end CopiesHold

/-- After the start the copies count what the files count, and every chunk record they lead to is
one that the files count. -/
theorem copiesHold_start (hp : p < heapBase) (hinit : c.store.ram.gInitialized = false)
    (hnone : c.store.findProcess p = none) (hh : c.store.disk.proc p = some h) (hpid : h.pid = p)
    {K : Set ChunkPtr}
    (hK : ∀ q ∈ mmapobjSlots p h.pesistMmaps, ∀ k ∈ (c.store.disk.mmapobj q).scan, k ∈ K)
    (place : DataFile → ℕ) (heap : Garbage) :
    Wpc (fun _ => CopiesHold p (privateProc p) h.counters K (mmapobjSlots p h.pesistMmaps)
      c.store.disk.mmapobj) (fun _ => True) (copyInitialize place heap p) c := by
  have hslots : ∀ q ∈ mmapobjSlots p h.pesistMmaps, q.pid ≠ privateProc p := by
    intro q hq
    obtain ⟨i, -, rfl⟩ := List.mem_map.mp hq
    exact (lt_of_lt_of_le hp (Nat.le_add_right _ _)).ne
  refine wpc_copyInitialize hinit hnone hh place heap ?_
  have hopen : CopiesHold p (privateProc p) h.counters K (mmapobjSlots p h.pesistMmaps)
      c.store.disk.mmapobj (applyAll c (openWrites p h (heap.proc p))) := by
    constructor
    · rw [findProcess_open, if_pos hpid.symm]
    · rw [proc_open, if_pos rfl]
      rfl
    · intro r t v q hr ht
      rw [proc_open, if_pos rfl] at hr
      cases hr
      cases ht
    · intro q t k k' hq ht
      rw [mmapobj_open, if_pos hq] at ht
      cases ht
    · intro q hq
      rw [mmapobj_open, if_neg (hslots q hq)]
  refine Wpc.cut_mono (C := CopiesHold p (privateProc p) h.counters K
    (mmapobjSlots p h.pesistMmaps) c.store.disk.mmapobj) ?_ fun _ _ => trivial
  refine hopen.wpc_initializeMmapobjTree.seq fun _ c₁ h₁ => ?_
  refine wpc_state_bind (wpc_lift_bind fun r hr => ?_)
  have hcount : r.pesistMmaps = h.pesistMmaps := by
    have hc := h₁.count
    rw [show c₁.store.disk.proc (privateProc p) = some r from hr] at hc
    exact congrArg Prod.snd (Option.some.inj hc)
  rw [hcount]
  refine (h₁.wpc_restoreCopies hslots hK place heap fun _ hq => hq).seq fun _ c₂ h₂ => ?_
  exact wpc_pure h₂ h₂

/-! ## Objects of a run that loaded its process -/

section Reboot

variable {heap : ℕ → Garbage} {c c' : CopyRun} {p : ℕ} {place : DataFile → ℕ}

theorem CopyRun.proc_reboot (c : CopyRun) (hp : p < heapBase) :
    c.reboot.store.disk.proc p = c.store.disk.proc p := if_pos hp

theorem CopyRun.mmapobj_reboot (c : CopyRun) {q : MmapPtr} (hq : q.pid < heapBase) :
    c.reboot.store.disk.mmapobj q = c.store.disk.mmapobj q := if_pos hq

/-- A restart runs `nv_initialize` on the files. -/
theorem copyStep_restart (h : copyStep heap c (p, .restart place) = some ((), c')) :
    p < heapBase ∧ ∃ g v ws, copyInitialize place g p c.reboot.store = some (v, ws) ∧
      c' = applyAll c.reboot ws := by
  obtain ⟨hp, v, ws, hprog, rfl⟩ := copyStep_cases h
  exact ⟨hp, _, v, ws, hprog, rfl⟩

end Reboot

theorem mem_countedChunks {d : Disk} (hh : d.proc p = some h) {k : ChunkPtr} :
    k ∈ countedChunks d p ↔
      ∃ q ∈ mmapobjSlots p h.pesistMmaps, k ∈ (d.mmapobj q).scan := by
  rw [countedChunks, countedRegions, hh]
  exact List.mem_flatMap

/-- The counted region records lie below the end of the counted part. -/
theorem lt_countedEnd {d : Disk} (hh : d.proc p = some h) {q : MmapPtr}
    (hq : q ∈ mmapobjSlots p h.pesistMmaps) : q.pid = p ∧ q.off < countedEnd d p := by
  obtain ⟨i, hi, rfl⟩ := List.mem_map.mp hq
  refine ⟨rfl, ?_⟩
  have hlen : (countedRegions d p).length = h.pesistMmaps := by
    rw [countedRegions, hh]
    simp [mmapobjSlots]
  rw [List.mem_range] at hi
  rw [countedEnd, hlen]
  simp only [sizeofMmapobj]
  omega

/-- **No object of a run that loaded its process through copies outlives the run**: whatever
garbage the copies hold, it is not found after the next start, or the run has overwritten records
of earlier objects.  (A record that the garbage puts below `sizeof(proc_s)` also lies over the
header; then the run has already written below the records that the header counts.) -/
theorem not_outlives_of_run {heap : ℕ → Garbage} {before es : List (ℕ × Op)} {us us' : List Unit}
    {c₀ c₁ c₂ c₃ : CopyRun} {p : ℕ} {h₀ : ProcObj} {place place' : DataFile → ℕ}
    (hbefore : runSteps (copyStep heap) before {} = some (us, c₀))
    (hh : c₀.store.disk.proc p = some h₀)
    (hstart : copyStep heap c₀ (p, .restart place) = some ((), c₁))
    (hes : ∀ e ∈ es, e.2.isRestart = false)
    (hrun : runSteps (copyStep heap) es c₁ = some (us', c₂))
    (hnext : copyStep heap c₂ (p, .restart place') = some ((), c₃)) :
    ∀ rqst addr k, rqst.pid = p → AllocatedHere c₂ rqst addr k →
      ¬ Outlives c₀.store.disk c₂ c₃ rqst k := by
  obtain ⟨hp, g, v, ws, hinit, rfl⟩ := copyStep_restart hstart
  obtain ⟨-, g', v', ws', hinit', rfl⟩ := copyStep_restart hnext
  have hpid : h₀.pid = p := filePids_of_run hbefore p hp h₀ hh
  -- the header and the records of the file at the start of the run
  have hh₀ : c₀.reboot.store.disk.proc p = some h₀ := (c₀.proc_reboot hp).trans hh
  have hkept : HeaderKept p h₀ c₀.reboot.store.disk.mmapobj c₂ :=
    (headerKept_start hp rfl c₀.findProcess_reboot hh₀ hpid place g v ws hinit).1.run hp hes hrun
  have hh₂ : c₂.reboot.store.disk.proc p = some h₀ := (c₂.proc_reboot hp).trans hkept.header
  rintro rqst addr k rfl - hout
  -- what the next start leaves: the chunks of the counted records
  have hload : CopiesHold rqst.pid (privateProc rqst.pid) h₀.counters
      { k | ∃ q ∈ mmapobjSlots rqst.pid h₀.pesistMmaps, k ∈ (c₀.store.disk.mmapobj q).scan }
      (mmapobjSlots rqst.pid h₀.pesistMmaps) c₂.reboot.store.disk.mmapobj
      (applyAll c₂.reboot ws') := by
    refine (copiesHold_start hp rfl (c₂.findProcess_reboot _) hh₂ hpid ?_ place' g' v' ws' hinit').1
    intro q hq k hk
    obtain ⟨hqp, hlt⟩ := lt_countedEnd hh hq
    have hqb : q.pid < heapBase := hqp ▸ hp
    -- the record was not written, so it is as it was
    rcases hkept.records hqp with hmem | hsame
    · exact absurd (hout.regions q hmem hqp) (Nat.not_le.mpr hlt)
    · rw [c₂.mmapobj_reboot hqb, hsame, c₀.mmapobj_reboot hqb] at hk
      exact ⟨q, hq, hk⟩
  exact hout.chunk ((mem_countedChunks hh).mpr (hload.foundChunk_mem rfl hout.found))

/-- The counters that the copies leave uninitialised. -/
def sampleHeap : ℕ → Garbage := fun _ => ⟨fun _ => sizeofProc + 7 * sizeofMmapobj, fun _ => 0⟩

/-- The process makes its files and allocates an object. -/
def firstRun : List (ℕ × Op) :=
  [(2, .restart fun _ => 0), (1, .mmap 4096 4096), (1, .alloc nameA 16 4096)]

/-- The process is loaded and allocates another object. -/
def secondRun : List (ℕ × Op) := [(1, .mmap 4096 12288), (1, .alloc nameB 16 12288)]

/-- An object of the second run outlives it no more than any other. -/
theorem not_outlives_secondRun : ∃ us us' c₀ c₁ c₂ c₃,
    runSteps (copyStep sampleHeap) firstRun {} = some (us, c₀) ∧
    copyStep sampleHeap c₀ (1, .restart fun _ => 4096) = some ((), c₁) ∧
    runSteps (copyStep sampleHeap) secondRun c₁ = some (us', c₂) ∧
    copyStep sampleHeap c₂ (1, .restart fun _ => 4096) = some ((), c₃) ∧
    AllocatedHere c₂ (request 1 nameB) 12288 ⟨metaOf 1 2, 0⟩ ∧
    ¬ Outlives c₀.store.disk c₂ c₃ (request 1 nameB) ⟨metaOf 1 2, 0⟩ := by
  have hseen : ((runSteps (copyStep sampleHeap) firstRun {}).bind fun x₀ =>
      (copyStep sampleHeap x₀.2 (1, .restart fun _ => 4096)).bind fun x₁ =>
      (runSteps (copyStep sampleHeap) secondRun x₁.2).bind fun x₂ =>
      (copyStep sampleHeap x₂.2 (1, .restart fun _ => 4096)).map fun _ =>
        ((x₀.2.store.disk.proc 1).isSome, x₂.2.store.ram.chunkmap 12288,
          (x₂.2.store.disk.chunk ⟨metaOf 1 2, 0⟩).valid,
          foundChunk x₂.2.store (request 1 nameB))) =
      some (true, some ⟨metaOf 1 2, 0⟩, .VALID, some ⟨metaOf 1 2, 0⟩) := by
    decide +kernel
  obtain ⟨⟨us, c₀⟩, h₀, hseen⟩ := Option.bind_eq_some_iff.mp hseen
  obtain ⟨⟨⟨⟩, c₁⟩, h₁, hseen⟩ := Option.bind_eq_some_iff.mp hseen
  obtain ⟨⟨us', c₂⟩, h₂, hseen⟩ := Option.bind_eq_some_iff.mp hseen
  obtain ⟨⟨⟨⟩, c₃⟩, h₃, hseen⟩ := Option.map_eq_some_iff.mp hseen
  simp only [Prod.mk.injEq] at hseen
  obtain ⟨hproc, hmap, hvalid, hfound⟩ := hseen
  obtain ⟨h, hh⟩ := Option.isSome_iff_exists.mp hproc
  have hhere : AllocatedHere c₂ (request 1 nameB) 12288 ⟨metaOf 1 2, 0⟩ := ⟨hmap, hvalid, hfound⟩
  exact ⟨us, us', c₀, c₁, c₂, c₃, h₀, h₁, h₂, h₃, hhere,
    not_outlives_of_run h₀ hh h₁ (by decide) h₂ h₃ _ _ _ rfl hhere⟩

/-- The object of the second run is found in it and not after the next start, and the third run
truncates its data file. -/
theorem secondRun_lost :
    ((runSteps (copyStep sampleHeap) firstRun {}).bind fun x₀ =>
      (copyStep sampleHeap x₀.2 (1, .restart fun _ => 4096)).bind fun x₁ =>
      (runSteps (copyStep sampleHeap) secondRun x₁.2).bind fun x₂ =>
      (copyStep sampleHeap x₂.2 (1, .restart fun _ => 4096)).bind fun x₃ =>
      (copyStep sampleHeap x₃.2 (1, .mmap 4096 20480)).map fun x₄ =>
        (foundChunk x₂.2.store (request 1 nameB), foundChunk x₃.2.store (request 1 nameB),
          x₄.2.truncated)) =
      some (some ⟨metaOf 1 2, 0⟩, none, [⟨1, 2⟩]) := by
  decide +kernel
