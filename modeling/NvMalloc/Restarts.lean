/-
# Pointers of earlier runs

A run of the swizzling build translates the pointers that an application loads from its
objects.  The pointer list of a run holds the addresses of the run just before it, and
nothing marks a pointer as translated.

So a pointer of this run is changed once more when it happens to lie in the old range of a
chunk that was moved, and a pointer that was stored two runs ago finds its object only when
the object had the same address in the run between.
-/
import NvMalloc.Regions
import NvMalloc.Translate

open WriteM Beside Option

/-! ## The program -/

/-- `load_ptr`. -/
def loadPtr (place : DataFile → ℕ) (ptr : Option ℕ) : SwizzM (ℕ × Option ℕ) :=
  loadValidAddr place ptr

/-- Nothing is stored, and nothing is recorded. -/
def SwizzStore.init : SwizzStore := ⟨{}, {}⟩

/-- One operation of a program with process id `p`.  When a new run starts the files are left, with
the field `old_nv_ptr` of the records in them. -/
def swizzStep (p : ℕ) (s : SwizzStore) (op : Op) : Option (Ret × SwizzStore) :=
  stepIn swizzling { oldNvPtr := s.side.oldNvPtr } p s op

/-- What the pointer `a` is after `load_ptr`, if the program goes on. -/
def loaded (s : SwizzStore) (place : DataFile → ℕ) (a : ℕ) : Option (Option ℕ) :=
  ((loadPtr place (some a)).exec s).map fun r => r.1.2

section Steps

variable {p : ℕ} {N : Set ObjName} {s s' : SwizzStore} {op : Op} {r : Ret}

/-- A restart restores the store, and records the chunks under the addresses they had. -/
theorem swizzStep_restart (hs : ShapeOk s.store.disk.shape) {place : DataFile → ℕ}
    (hplace : PlaceOk s.store.reboot place p) :
    swizzStep p s (.restart place) = (restart s.store place p).map fun st' =>
      (.done, ⟨st', PtrList.recordAll { oldNvPtr := s.side.oldNvPtr }
        (fun c => (s.store.disk.chunk c).nvPtr) (s.store.disk.restoredChunks p)⟩) := by
  show (restartIn swizzling { oldNvPtr := s.side.oldNvPtr } s place p).map _ = _
  rw [swizzHooks.restartIn_exec hs hplace, map_map, loaded_swizzHooks]
  rfl

/-- On the store a restart does what it does in the direct-mapped build. -/
theorem step_of_swizzStep_restart (hs : ShapeOk s.store.disk.shape) {place : DataFile → ℕ}
    (hplace : PlaceOk s.store.reboot place p)
    (h : swizzStep p s (.restart place) = some (r, s')) :
    step p s.store (.restart place) = some (r, s'.store) := by
  rw [swizzStep_restart hs hplace] at h
  obtain ⟨st', hst', heq⟩ := map_eq_some_iff.mp h
  cases heq
  rw [step, hst']
  rfl

/-- The other operations do what they do in the direct-mapped build. -/
theorem swizzStep_eq (hi : StoreInv s.store p) (hop : ∀ place, op ≠ .restart place) :
    swizzStep p s op = (step p s.store op).map fun x => (x.1, ⟨x.2, s.side⟩) := by
  refine stepIn_restoring hi.ram (fun hnone => ?_) hop
  cases hi.findProcess.symm.trans hnone

/-- So does an operation. -/
theorem step_of_swizzStep (hr : RunInv s.store p) (hop : Allowed p N s.store op)
    (h : swizzStep p s op = some (r, s')) : step p s.store op = some (r, s'.store) := by
  by_cases hrestart : ∃ place, op = .restart place
  · obtain ⟨place, rfl⟩ := hrestart
    exact step_of_swizzStep_restart hr.inv.shape hop h
  · push Not at hrestart
    rw [swizzStep_eq hr.inv hrestart] at h
    obtain ⟨x, hx, heq⟩ := map_eq_some_iff.mp h
    cases heq
    exact hx

theorem side_swizzStep (hi : StoreInv s.store p) (h : swizzStep p s op = some (r, s'))
    (hop : ∀ place, op ≠ .restart place) : s'.side = s.side := by
  rw [swizzStep_eq hi hop] at h
  obtain ⟨x, hx, heq⟩ := map_eq_some_iff.mp h
  cases heq
  rfl

end Steps

/-! ## Records along a run -/

/-- The records of `p` stay where they are and keep their lengths. -/
def KeepsRecords (d d' : Disk) (p : ℕ) : Prop := ∀ c, InScan d.shape p c →
  InScan d'.shape p c ∧ (d'.chunk c).length = (d.chunk c).length

section KeepsRecords

variable {p : ℕ} {st st' : Store} {d d' d'' : Disk}

theorem KeepsRecords.refl (d : Disk) (p : ℕ) : KeepsRecords d d p :=
  fun _ hc => ⟨hc, rfl⟩

theorem KeepsRecords.trans (h : KeepsRecords d d' p) (h' : KeepsRecords d' d'' p) :
    KeepsRecords d d'' p := by
  intro c hc
  obtain ⟨hc', hlen⟩ := h c hc
  obtain ⟨hc'', hlen'⟩ := h' c hc'
  exact ⟨hc'', hlen'.trans hlen⟩

theorem SameFrame.keepsRecords (h : SameFrame st st') : KeepsRecords st.disk st'.disk p := by
  intro c hc
  refine ⟨?_, (congrArg Chunkobj.length (h.chunk c) :)⟩
  rw [h.shape_eq]
  exact hc

theorem Grown.keepsRecords (h : Grown d d' p) : KeepsRecords d d' p :=
  fun _ hc => ⟨h.inScan.mpr hc, by rw [h.chunk hc]⟩

theorem keepsRecords_appendChunk (hi : StoreInv st p) {q : MmapPtr}
    (hq : IsRegion st.disk.shape p q)
    (r : Chunkobj) : KeepsRecords st.disk (st.appendChunk q r).disk p := by
  intro c hc
  refine ⟨?_, by rw [chunk_appendChunk hi.shape hq hc]⟩
  obtain ⟨q', hq', hqc⟩ := hc
  exact ⟨q', isRegion_appendChunk.mpr hq', isChunk_appendChunk.mpr (.inl hqc)⟩

theorem Loads.keepsRecords {place : DataFile → ℕ} (h : Loads st st' place p) :
    KeepsRecords st.disk st'.disk p :=
  fun _ hc => ⟨h.inScan.mpr hc, (congrArg Chunkobj.length (h.chunk _) :)⟩

theorem StepEffect.keepsRecords {op : Op} {r : Ret} (h : StepEffect p st op r st')
    (hr : RunInv st p) : KeepsRecords st.disk st'.disk p := by
  have hi := hr.inv
  cases h with
  | mmap hh hfresh => exact (grown_mapRegion hi.shape hh).keepsRecords
  | create hok hfree hfound =>
    exact hfound.grown.keepsRecords.trans
      (keepsRecords_appendChunk hfound.ready.inv (hfound.fits hok).region _)
  | @replace n bytes addr nd st₂ _ q₀ q qv old c v ws hok hf hv hre =>
    have hfits := hre.found.fits (allocOk_retag hok old (genIdFromStr n))
    have hretag : KeepsRecords st.disk (st.retag old (genIdFromStr n)).disk p :=
      (retag_effect st old _).frame.keepsRecords
    have h₂ : KeepsRecords st.disk st₂.disk p := by
      rw [hre.append]
      exact (hretag.trans hre.found.grown.keepsRecords).trans
        (keepsRecords_appendChunk hre.found.ready.inv hfits.region _)
    exact h₂.trans hre.effect.frame.keepsRecords
  | commit hf he => exact he.frame.keepsRecords
  | deleteMissing hm => exact .refl _ _
  | deleteLost hf hm => exact (invalidate_effect st _).frame.keepsRecords
  | delete hf hf' => exact (deleteChunk_effect st _ _ _).frame.keepsRecords
  | read => exact .refl _ _
  | write => exact fun _ hc => ⟨hc, rfl⟩
  | renameNothing => exact .refl _ _
  | rename hf hf' he => exact he.frame.keepsRecords
  | restart hl hinv => exact hl.keepsRecords

end KeepsRecords

/-! ## Ranges of objects -/

/-- The mappings lie in the address space. -/
def InSpace (st : Store) : Prop := ∀ m ∈ st.ram.maps, m.base + m.size < 2 ^ 64

section Ranges

variable {st : Store} {p : ℕ} {c c' : ChunkPtr}

theorem StoreInv.nvPtr_pos (hi : StoreInv st p) (hc : InScan st.disk.shape p c)
    (hv : (st.disk.chunk c).valid = .VALID) : 0 < (st.disk.chunk c).nvPtr := by
  obtain ⟨q, hq, hqc⟩ := hc
  have hbase := (hi.loaded.mapped hq).1
  rw [hi.loaded.nvPtr hq hqc (.inl hv)]
  omega

theorem StoreInv.range_lt (hi : StoreInv st p) (hspace : InSpace st)
    (hc : InScan st.disk.shape p c) (hv : (st.disk.chunk c).valid = .VALID) :
    (st.disk.chunk c).nvPtr + (st.disk.chunk c).length < 2 ^ 64 := by
  obtain ⟨m, _, hm, -, -, hptr, hle, -⟩ := hi.chunk_mapped hc (.inl hv)
  have hlt := hspace m hm
  omega

/-- Different objects have disjoint ranges. -/
theorem StoreInv.ranges_apart (hi : StoreInv st p) (hsep : Separate st.disk p)
    (hc : InScan st.disk.shape p c) (hv : (st.disk.chunk c).valid = .VALID)
    (hc' : InScan st.disk.shape p c') (hv' : (st.disk.chunk c').valid = .VALID) (hne : c ≠ c') :
    (st.disk.chunk c).nvPtr + (st.disk.chunk c).length ≤ (st.disk.chunk c').nvPtr ∨
      (st.disk.chunk c').nvPtr + (st.disk.chunk c').length ≤ (st.disk.chunk c).nvPtr := by
  obtain ⟨m, _, hm, hfile, -, hptr, hle, -⟩ := hi.chunk_mapped hc (.inl hv)
  obtain ⟨m', _, hm', hfile', -, hptr', hle', -⟩ := hi.chunk_mapped hc' (.inl hv')
  by_cases hmm : m = m'
  · -- one region: the blocks are apart
    subst hmm
    have hsame : c.file = c'.file := hc.file_inj hc' (hfile.symm.trans hfile')
    have hdis := hsep.apart ⟨hc, hv, rfl⟩ ⟨hc', hv', rfl⟩ hne hsame
    rcases hdis with hdis | hdis
    · left
      have : (st.disk.chunk c).offset + (st.disk.chunk c).length ≤ (st.disk.chunk c').offset :=
        hdis
      omega
    · right
      have : (st.disk.chunk c').offset + (st.disk.chunk c').length ≤ (st.disk.chunk c).offset :=
        hdis
      omega
  · -- two regions: the mappings are apart
    rcases hi.ram.maps.forall hm hm' hmm with hdis | hdis
    · left
      omega
    · right
      omega

end Ranges

/-! ## Histories -/

/-- An operation of the current run, which does not restart the program. -/
def SameRun (p : ℕ) (N : Set ObjName) (s : SwizzStore) (op : Op) : Prop :=
  Allowed p N s.store op ∧ ∀ place, op ≠ .restart place

/-- The states of a program with process id `p`: `s₁` in some run, `t` at the end of that run or
of a later one, and `s` in the run after it. -/
structure RunHistory (p : ℕ) (N : Set ObjName) (s₁ t s : SwizzStore) : Prop where
  first : ∃ place ops rs,
    Along (swizzStep p) (fun s => Allowed p N s.store) (.restart place :: ops) .init ∧
      runSteps (swizzStep p) (.restart place :: ops) .init = some (rs, s₁)
  later : ∃ ops rs, Along (swizzStep p) (fun s => Allowed p N s.store) ops s₁ ∧
    runSteps (swizzStep p) ops s₁ = some (rs, t)
  current : ∃ place ops rs r s', Allowed p N t.store (.restart place) ∧
    swizzStep p t (.restart place) = some (r, s') ∧ Along (swizzStep p) (SameRun p N) ops s' ∧
    runSteps (swizzStep p) ops s' = some (rs, s)

section History

variable {p : ℕ} {N : Set ObjName} {s s' s₁ t : SwizzStore}

theorem swizzStep_keeps {op : Op} {r : Ret} (hr : RunInv s.store p) (hop : Allowed p N s.store op)
    (h : swizzStep p s op = some (r, s')) :
    RunInv s'.store p ∧ KeepsRecords s.store.disk s'.store.disk p := by
  have he := step_effect hr hop (step_of_swizzStep hr hop h)
  exact ⟨he.runInv hr, he.keepsRecords hr⟩

/-- What the operations of a run keep. -/
theorem runSteps_keeps {ops : List Op} {rs : List Ret} (hr : RunInv s.store p)
    (hok : Along (swizzStep p) (fun s => Allowed p N s.store) ops s)
    (hrun : runSteps (swizzStep p) ops s = some (rs, s')) :
    RunInv s'.store p ∧ KeepsRecords s.store.disk s'.store.disk p := by
  refine @runSteps_inv_of_some _ _ _ _ _
    (fun x => RunInv x.store p ∧ KeepsRecords s.store.disk x.store.disk p) ?_ _ _
    ⟨hr, .refl _ _⟩ hok _ _ hrun
  rintro x op r x' ⟨hx, hkeep⟩ hop hstep
  obtain ⟨hx', hkeep'⟩ := swizzStep_keeps hx hop hstep
  exact ⟨hx', hkeep.trans hkeep'⟩

/-- A restart on consistent files. -/
theorem swizzStep_restart_loads (hp : p ≠ 0) (hs : ShapeOk s.store.disk.shape)
    {place : DataFile → ℕ} (hplace : PlaceOk s.store.reboot place p) {r : Ret}
    (h : swizzStep p s (.restart place) = some (r, s')) :
    Loads s.store.started s'.store place p ∧ RunInv s'.store p := by
  obtain ⟨st', hst', hl, hinv⟩ := restart_runInv hs hp hplace
  rw [swizzStep_restart hs hplace, hst'] at h
  cases h
  exact ⟨hl, hinv⟩

namespace RunHistory

variable (h : RunHistory p N s₁ t s)
include h

theorem runInv_first (hp : p ≠ 0) : RunInv s₁.store p := by
  obtain ⟨place, ops, rs, ⟨hplace, hok⟩, hrun⟩ := h.first
  obtain ⟨r, s₀, rs', hstep, hrun', -⟩ := runSteps_cons_eq_some.mp hrun
  obtain ⟨-, hinv⟩ := swizzStep_restart_loads hp shapeOk_empty hplace hstep
  exact (runSteps_keeps hinv (hok r s₀ hstep) hrun').1

theorem runInv_later (hp : p ≠ 0) : RunInv t.store p := by
  obtain ⟨ops, rs, hok, hrun⟩ := h.later
  exact (runSteps_keeps (h.runInv_first hp) hok hrun).1

theorem keepsRecords (hp : p ≠ 0) : KeepsRecords s₁.store.disk t.store.disk p := by
  obtain ⟨ops, rs, hok, hrun⟩ := h.later
  exact (runSteps_keeps (h.runInv_first hp) hok hrun).2

/-- In the current run the pointer list is that of the restart. -/
theorem recorded (hp : p ≠ 0) : RunInv s.store p ∧
    KeepsRecords t.store.disk s.store.disk p ∧ PtrsRecorded t.store.disk [p] s := by
  obtain ⟨place, ops, rs, r, s', hplace, hstep, hok, hrun⟩ := h.current
  have hr := h.runInv_later hp
  have hptrs : s'.side = PtrList.recordAll { oldNvPtr := t.side.oldNvPtr }
      (fun c => (t.store.disk.chunk c).nvPtr) (t.store.disk.restoredChunks p) := by
    rw [swizzStep_restart hr.inv.shape hplace] at hstep
    obtain ⟨st', -, heq⟩ := map_eq_some_iff.mp hstep
    cases heq
    rfl
  obtain ⟨hs, hkeep, hsame⟩ : RunInv s.store p ∧ KeepsRecords t.store.disk s.store.disk p ∧
      s.side = s'.side := by
    refine @runSteps_inv_of_some _ _ _ _ (SameRun p N)
      (fun x => RunInv x.store p ∧ KeepsRecords t.store.disk x.store.disk p ∧
        x.side = s'.side) ?_ _ _ ?_ hok _ _ hrun
    · rintro x op r x' ⟨hx, hkeep, hsame⟩ ⟨hop, hno⟩ hstep'
      obtain ⟨hx', hkeep'⟩ := swizzStep_keeps hx hop hstep'
      exact ⟨hx', hkeep.trans hkeep', (side_swizzStep hx.inv hstep' hno).trans hsame⟩
    · obtain ⟨hs', hkeep⟩ := swizzStep_keeps hr hplace hstep
      exact ⟨hs', hkeep, rfl⟩
  refine ⟨hs, hkeep, hr.inv.shape, ?_, t.side.oldNvPtr, ?_⟩
  · intro c hc
    obtain ⟨p', hp', hscan, -⟩ := (mem_restoredFor hr.inv.shape).mp hc
    rw [List.mem_singleton.mp hp'] at hscan
    exact (hkeep c hscan).2
  · rw [hsame, hptrs, Disk.restoredFor, List.flatMap_singleton]

end RunHistory

end History

/-! ## The two conditions -/

section Translation

variable {p : ℕ} {N : Set ObjName} {s s₁ t : SwizzStore} {c : ChunkPtr} {d : Disk} {a : ℕ}

theorem mem_restoredFor_singleton (hs : ShapeOk t.store.disk.shape) :
    c ∈ t.store.disk.restoredFor [p] ↔
      InScan t.store.disk.shape p c ∧ (t.store.disk.chunk c).valid = .VALID := by
  rw [mem_restoredFor hs]
  constructor
  · rintro ⟨p', hp', hc⟩
    rwa [List.mem_singleton.mp hp'] at hc
  · intro hc
    exact ⟨p, List.mem_singleton_self p, hc⟩

/-- The ranges of separate objects are apart. -/
theorem oldRanges_of_separate (hi : StoreInv t.store p) (hsep : Separate t.store.disk p)
    (hspace : InSpace t.store) : OldRanges t.store.disk [p] := by
  constructor
  · intro c hc c' hc' hne
    obtain ⟨hscan, hv⟩ := (mem_restoredFor_singleton hi.shape).mp hc
    obtain ⟨hscan', hv'⟩ := (mem_restoredFor_singleton hi.shape).mp hc'
    exact hi.ranges_apart hsep hscan hv hscan' hv' hne
  · intro c hc
    obtain ⟨hscan, hv⟩ := (mem_restoredFor_singleton hi.shape).mp hc
    exact hi.range_lt hspace hscan hv

section

variable (h : PtrsRecorded d [p] s) (hr : OldRanges d [p])
include h hr

/-- A pointer into the old range of a chunk goes to the object that now has the chunk's id. -/
theorem PtrsRecorded.loaded_of_holds (hi : StoreInv s.store p) (hclean : Clean s.store.disk p)
    (place : DataFile → ℕ) (ha : a ≠ 0) {c' : ChunkPtr} (hc : c ∈ d.restoredFor [p])
    (hold : d.OldRange c a) (hscan : InScan s.store.disk.shape p c)
    (hk : Holds s.store.disk p (s.store.disk.chunk c).chunkid c') :
    loaded s place a =
      some (some (((s.store.disk.chunk c').nvPtr + (a - (d.chunk c).nvPtr)) % 2 ^ 64)) := by
  have hpid : (s.store.disk.chunk c).pid = p := hi.shape.extent_pid hscan
  obtain ⟨q, hf⟩ := hclean.finds hk
  rw [loaded, loadPtr, h.loadValidAddr_inside hr place ha hc hold, hpid,
    swizzNvMapRead_of_finds hi hf, Chunkobj.read, hk.valid]
  rfl

/-- Without such an object the assertion of `load_valid_addr` fails. -/
theorem PtrsRecorded.loaded_of_not_holds (hi : StoreInv s.store p) (hclean : Clean s.store.disk p)
    (place : DataFile → ℕ) (ha : a ≠ 0) (hc : c ∈ d.restoredFor [p]) (hold : d.OldRange c a)
    (hscan : InScan s.store.disk.shape p c)
    (hk : ∀ c', ¬ Holds s.store.disk p (s.store.disk.chunk c).chunkid c') :
    loaded s place a = none := by
  have hpid : (s.store.disk.chunk c).pid = p := hi.shape.extent_pid hscan
  rw [loaded, loadPtr, h.loadValidAddr_inside hr place ha hc hold, hpid,
    swizzNvMapRead_of_missing hi (hclean.missing hk)]
  rfl

/-- A pointer into no old range stays, if there is a tree. -/
theorem PtrsRecorded.loaded_outside (place : DataFile → ℕ) (hne : a ≠ 0 → d.restoredFor [p] ≠ [])
    (hout : ∀ c ∈ d.restoredFor [p], ¬ d.OldRange c a) : loaded s place a = some (some a) := by
  by_cases ha : a = 0
  · subst ha
    rfl
  · rw [loaded, loadPtr, h.loadValidAddr_outside hr (hne ha) place ha hout]
    rfl

end

/-- Without a restored chunk there is none. -/
theorem PtrsRecorded.loaded_null (h : PtrsRecorded d [p] s) (hnil : d.restoredFor [p] = [])
    (place : DataFile → ℕ) (ha : a ≠ 0) :
    loaded s place a = none := by
  rw [loaded, loadPtr, h.loadValidAddr_null hnil place ha]
  rfl

/-- What the two conditions are proved from: the restart from `t`, and the current state `s`. -/
structure Restarted (p : ℕ) (t s : SwizzStore) : Prop where
  before : RunInv t.store p
  now : RunInv s.store p
  keeps : KeepsRecords t.store.disk s.store.disk p
  recorded : PtrsRecorded t.store.disk [p] s
  old : OldRanges t.store.disk [p]
  clean : Clean s.store.disk p
  space : InSpace s.store

namespace Restarted

variable (h : Restarted p t s)
include h

variable {c : ChunkPtr}

theorem scan (hc : c ∈ t.store.disk.restoredFor [p]) :
    InScan s.store.disk.shape p c := by
  obtain ⟨hscan, -⟩ := (mem_restoredFor_singleton h.before.inv.shape).mp hc
  exact (h.keeps c hscan).1

theorem ne_zero (hc : c ∈ t.store.disk.restoredFor [p]) {a : ℕ} (hold : t.store.disk.OldRange c a) :
    a ≠ 0 := by
  obtain ⟨hscan, hv⟩ := (mem_restoredFor_singleton h.before.inv.shape).mp hc
  have hpos := h.before.inv.nvPtr_pos hscan hv
  have hle := hold.1
  omega

/-- `load_ptr` leaves a pointer alone exactly when some chunk was restored, and the chunk in whose
old range it lies, if there is one, has its old address again. -/
theorem unchanged_iff (place : DataFile → ℕ) (a : ℕ) :
    loaded s place a = some (some a) ↔
      (a ≠ 0 → t.store.disk.restoredFor [p] ≠ []) ∧
      ∀ c ∈ t.store.disk.restoredFor [p], t.store.disk.OldRange c a →
        ∃ c', Holds s.store.disk p (s.store.disk.chunk c).chunkid c' ∧
          (s.store.disk.chunk c').nvPtr = (t.store.disk.chunk c).nvPtr := by
  constructor
  · intro heq
    refine ⟨?_, ?_⟩
    · intro ha hnil
      rw [h.recorded.loaded_null hnil place ha] at heq
      cases heq
    intro c hc hold
    by_cases hk : ∃ c', Holds s.store.disk p (s.store.disk.chunk c).chunkid c'
    · obtain ⟨c', hk⟩ := hk
      rw [h.recorded.loaded_of_holds h.old h.now.inv h.clean place (h.ne_zero hc hold) hc hold
        (h.scan hc) hk] at heq
      have hmod := some.inj (some.inj heq)
      have hlt := h.now.inv.range_lt h.space hk.scan hk.valid
      have hwrap := h.old.noWrap c hc
      obtain ⟨hle, hend⟩ := hold
      exact ⟨c', hk, by omega⟩
    · push Not at hk
      rw [h.recorded.loaded_of_not_holds h.old h.now.inv h.clean place (h.ne_zero hc hold) hc hold
        (h.scan hc) hk] at heq
      cases heq
  · rintro ⟨hne, hall⟩
    by_cases hin : ∃ c ∈ t.store.disk.restoredFor [p], t.store.disk.OldRange c a
    · obtain ⟨c, hc, hold⟩ := hin
      obtain ⟨c', hk, hptr⟩ := hall c hc hold
      rw [h.recorded.loaded_of_holds h.old h.now.inv h.clean place (h.ne_zero hc hold) hc hold
        (h.scan hc) hk, hptr]
      have hwrap := h.old.noWrap c hc
      obtain ⟨hle, hend⟩ := hold
      rw [Nat.add_sub_cancel' hle, Nat.mod_eq_of_lt (by omega)]
    · push Not at hin
      exact h.recorded.loaded_outside h.old place hne hin

/-- A pointer into the old range of a chunk that is still live goes to the chunk. -/
theorem loaded_of_live (place : DataFile → ℕ) (hc : c ∈ t.store.disk.restoredFor [p])
    (hv : (s.store.disk.chunk c).valid = .VALID) {a : ℕ} (hold : t.store.disk.OldRange c a) :
    loaded s place a =
      some (some ((s.store.disk.chunk c).nvPtr + (a - (t.store.disk.chunk c).nvPtr))) := by
  have hscan := h.scan hc
  rw [h.recorded.loaded_of_holds h.old h.now.inv h.clean place (h.ne_zero hc hold) hc hold hscan
    ⟨hscan, hv, rfl⟩]
  have hlt := h.now.inv.range_lt h.space hscan hv
  rw [h.recorded.length c hc] at hlt
  obtain ⟨hle, hend⟩ := hold
  rw [Nat.mod_eq_of_lt (by omega)]

/-- A pointer that was stored when the chunk was at `addr` follows it exactly when the chunk was
still there before the restart, or is there again and no other old range is in the way. -/
theorem follows_iff (place : DataFile → ℕ)
    (hlive : ∀ c ∈ t.store.disk.restoredFor [p], (s.store.disk.chunk c).valid = .VALID)
    (hc : c ∈ t.store.disk.restoredFor [p]) {addr o : ℕ} (ho : o < (t.store.disk.chunk c).length) :
    loaded s place (addr + o) = some (some ((s.store.disk.chunk c).nvPtr + o)) ↔
      (t.store.disk.chunk c).nvPtr = addr ∨
      (s.store.disk.chunk c).nvPtr = addr ∧
        ∀ c' ∈ t.store.disk.restoredFor [p], ¬ t.store.disk.OldRange c' (addr + o) := by
  have hhere : (t.store.disk.chunk c).nvPtr = addr → t.store.disk.OldRange c (addr + o) := by
    intro hptr
    unfold Disk.OldRange
    omega
  by_cases hin : ∃ d ∈ t.store.disk.restoredFor [p], t.store.disk.OldRange d (addr + o)
  · obtain ⟨d, hd, hold⟩ := hin
    rw [h.loaded_of_live place hd (hlive d hd) hold]
    constructor
    · intro heq
      have hsum := some.inj (some.inj heq)
      -- the new ranges are disjoint, so the chunk that was found is the right one
      obtain rfl : d = c := by
        by_contra hdc
        have happart := h.now.inv.ranges_apart h.clean.separate (h.scan hd) (hlive d hd)
          (h.scan hc) (hlive c hc) hdc
        rw [h.recorded.length d hd, h.recorded.length c hc] at happart
        obtain ⟨hle, hend⟩ := hold
        omega
      obtain ⟨hle, hend⟩ := hold
      exact .inl (by omega)
    · rintro (hptr | ⟨-, hout⟩)
      · obtain rfl : d = c := by
          by_contra hdc
          have happart := h.old.apart d hd c hc hdc
          have hold' := hhere hptr
          unfold Disk.OldRange at hold hold'
          omega
        rw [hptr, Nat.add_sub_cancel_left]
      · exact absurd hold (hout d hd)
  · push Not at hin
    rw [h.recorded.loaded_outside h.old place (fun _ => List.ne_nil_of_mem hc) hin]
    constructor
    · intro heq
      have hsum := some.inj (some.inj heq)
      exact .inr ⟨by omega, hin⟩
    · rintro (hptr | ⟨hptr, -⟩)
      · exact absurd (hhere hptr) (hin c hc)
      · rw [hptr]

end Restarted

/-- **Pointers over several runs.**  In the current run `load_ptr` leaves a pointer alone
precisely when some chunk was restored, and the chunk in whose old range it lies, if there is one,
has its old address.  While the restored objects are live, a pointer stored in an earlier run
follows its object precisely when the object had the same address in the run before this one, or
has it again now and the pointer lies in no old range. -/
theorem loadPtr_iff_of_history (hp : p ≠ 0) (h : RunHistory p N s₁ t s)
    (hsep : Separate t.store.disk p) (hclean : Clean s.store.disk p) (hold : InSpace t.store)
    (hnew : InSpace s.store) (place : DataFile → ℕ) :
    (∀ a, loaded s place a = some (some a) ↔
      (a ≠ 0 → t.store.disk.restoredFor [p] ≠ []) ∧
      ∀ c ∈ t.store.disk.restoredFor [p], t.store.disk.OldRange c a →
        ∃ c', Holds s.store.disk p (s.store.disk.chunk c).chunkid c' ∧
          (s.store.disk.chunk c').nvPtr = (t.store.disk.chunk c).nvPtr) ∧
    ((∀ c ∈ t.store.disk.restoredFor [p], (s.store.disk.chunk c).valid = .VALID) →
      ∀ k c o, Holds s₁.store.disk p k c → c ∈ t.store.disk.restoredFor [p] →
        o < (s₁.store.disk.chunk c).length →
        (loaded s place ((s₁.store.disk.chunk c).nvPtr + o) =
            some (some ((s.store.disk.chunk c).nvPtr + o)) ↔
          (t.store.disk.chunk c).nvPtr = (s₁.store.disk.chunk c).nvPtr ∨
          (s.store.disk.chunk c).nvPtr = (s₁.store.disk.chunk c).nvPtr ∧
            ∀ c' ∈ t.store.disk.restoredFor [p],
              ¬ t.store.disk.OldRange c' ((s₁.store.disk.chunk c).nvPtr + o))) := by
  have ht := h.runInv_later hp
  obtain ⟨hs, hkeep, hrec⟩ := h.recorded hp
  have hr : Restarted p t s :=
    ⟨ht, hs, hkeep, hrec, oldRanges_of_separate ht.inv hsep hold, hclean, hnew⟩
  refine ⟨hr.unchanged_iff place, ?_⟩
  intro hlive k c o hk hc ho
  rw [← (h.keepsRecords hp c hk.scan).2] at ho
  exact hr.follows_iff place hlive hc ho

end Translation

/-! ## Examples -/

/-- The conditions on a run are those of the direct-mapped build. -/
theorem along_swizzStep {p : ℕ} {N : Set ObjName} {s : SwizzStore} {ops : List Op}
    (hr : RunInv s.store p) (h : Along (step p) (Allowed p N) ops s.store) :
    Along (swizzStep p) (fun s => Allowed p N s.store) ops s := by
  induction ops generalizing s with
  | nil => exact True.intro
  | cons op ops ih =>
    refine ⟨h.1, ?_⟩
    intro r s' hstep
    exact ih (swizzStep_keeps hr h.1 hstep).1 (h.2 r _ (step_of_swizzStep hr h.1 hstep))

theorem along_swizzStep_twoObjectsRun :
    Along (swizzStep 1) (fun s => Allowed 1 {nameA, nameB} s.store) twoObjectsRun .init := by
  obtain ⟨hop, hrest⟩ := allowed_twoObjectsRun
  have hplace : PlaceOk SwizzStore.init.store.reboot (fun _ => 0) 1 := hop
  refine ⟨hop, ?_⟩
  intro r s' hstep
  obtain ⟨-, hinv⟩ := swizzStep_restart_loads (by decide) shapeOk_empty hplace hstep
  exact along_swizzStep hinv (hrest r _ (step_of_swizzStep_restart shapeOk_empty hplace hstep))

instance (d : Disk) (p : ℕ) : Decidable (Separate d p) :=
  decidable_of_iff (∀ q ∈ d.regions p, ∀ c ∈ d.chunks q, (d.chunk c).valid = .VALID →
      ∀ q' ∈ d.regions p, ∀ c' ∈ d.chunks q', (d.chunk c').valid = .VALID → c ≠ c' →
        (d.chunk c).chunkid ≠ (d.chunk c').chunkid ∧ (c.file = c'.file →
          (d.chunk c).offset + (d.chunk c).length ≤ (d.chunk c').offset ∨
            (d.chunk c').offset + (d.chunk c').length ≤ (d.chunk c).offset)) <| by
    constructor
    · intro h
      constructor
      · intro k c c' hk hk'
        obtain ⟨q, hq, hqc, hv, hid⟩ := holds_iff_mem.mp hk
        obtain ⟨q', hq', hqc', hv', hid'⟩ := holds_iff_mem.mp hk'
        by_contra hne
        exact (h q hq c hqc hv q' hq' c' hqc' hv' hne).1 (hid.trans hid'.symm)
      · intro k k' c c' hk hk' hne
        obtain ⟨q, hq, hqc, hv, -⟩ := holds_iff_mem.mp hk
        obtain ⟨q', hq', hqc', hv', -⟩ := holds_iff_mem.mp hk'
        exact (h q hq c hqc hv q' hq' c' hqc' hv' hne).2
    · intro h q hq c hqc hv q' hq' c' hqc' hv' hne
      have hk : Holds d p (d.chunk c).chunkid c := holds_iff_mem.mpr ⟨q, hq, hqc, hv, rfl⟩
      have hk' : Holds d p (d.chunk c').chunkid c' := holds_iff_mem.mpr ⟨q', hq', hqc', hv', rfl⟩
      refine ⟨?_, h.apart hk hk' hne⟩
      intro hid
      exact hne (h.id hk (hid ▸ hk'))

instance (st : Store) : Decidable (InSpace st) :=
  inferInstanceAs (Decidable (∀ m ∈ st.ram.maps, _))

/-- The kernel maps the regions of `twoObjectsRun` where they were. -/
def inPlace (f : DataFile) : ℕ := if f.vma = 1 then 4096 else 12288

/-- After a restart at the same addresses all pointers stay as they are, and those into the first
object lead to it. -/
theorem loadPtr_inPlace : ∃ t s c, RunHistory 1 {nameA, nameB} t t s ∧
    Holds t.store.disk 1 (genIdFromStr nameA) c ∧ (∀ a, loaded s inPlace a = some (some a)) ∧
    loaded s inPlace ((t.store.disk.chunk c).nvPtr + 4) =
      some (some ((s.store.disk.chunk c).nvPtr + 4)) := by
  have hcheck : ((runSteps (swizzStep 1) twoObjectsRun .init).bind fun x =>
      (swizzStep 1 x.2 (.restart inPlace)).map fun y =>
        decide (PlaceOk x.2.store.reboot inPlace 1 ∧ Separate x.2.store.disk 1 ∧
          InSpace x.2.store ∧ InSpace y.2.store ∧
          (∀ c ∈ x.2.store.disk.restoredFor [1],
            (y.2.store.disk.chunk c).nvPtr = (x.2.store.disk.chunk c).nvPtr) ∧
          ∃ c ∈ x.2.store.disk.restoredFor [1], 4 < (x.2.store.disk.chunk c).length ∧
            Holds x.2.store.disk 1 (genIdFromStr nameA) c)) = some true := by decide +kernel
  obtain ⟨⟨rs, t⟩, hrun, hrest⟩ := bind_eq_some_iff.mp hcheck
  obtain ⟨⟨r, s⟩, hstep, hdec⟩ := map_eq_some_iff.mp hrest
  obtain ⟨hplace, hsep, hold, hnew, hsame, c, hc, hlen, hk⟩ := of_decide_eq_true hdec
  have hist : RunHistory 1 {nameA, nameB} t t s :=
    ⟨⟨_, _, rs, along_swizzStep_twoObjectsRun, hrun⟩, ⟨[], [], True.intro, rfl⟩,
      ⟨inPlace, [], [], r, s, hplace, hstep, True.intro, rfl⟩⟩
  have ht := hist.runInv_later (by decide)
  obtain ⟨hl, -⟩ := swizzStep_restart_loads (by decide) ht.inv.shape hplace hstep
  have hsep₀ : Separate t.store.started.disk 1 := hsep
  have hmem : ∀ {c}, c ∈ t.store.disk.restoredFor [1] →
      Holds s.store.disk 1 (s.store.disk.chunk c).chunkid c := by
    intro c hc
    obtain ⟨hscan, hv⟩ := (mem_restoredFor_singleton ht.inv.shape).mp hc
    have hv' : (s.store.disk.chunk c).valid = .VALID :=
      (congrArg Chunkobj.valid (hl.chunk c)).trans hv
    exact ⟨hl.inScan.mpr hscan, hv', rfl⟩
  obtain ⟨hunchanged, hfollows⟩ :=
    loadPtr_iff_of_history (by decide) hist hsep (hl.clean hsep₀) hold hnew inPlace
  refine ⟨t, s, c, hist, hk, ?_, ?_⟩
  · intro a
    refine (hunchanged a).mpr ⟨fun _ => List.ne_nil_of_mem hc, ?_⟩
    intro c hc _
    exact ⟨c, hmem hc, hsame c hc⟩
  · exact (hfollows (fun c hc => (hmem hc).valid) _ c 4 hk hc hlen).mpr (.inl rfl)

/-- The places of the two regions in a second and a third run. -/
def secondPlace (f : DataFile) : ℕ := if f.vma = 1 then 20480 else 28672

@[inherit_doc secondPlace]
def thirdPlace (f : DataFile) : ℕ := if f.vma = 1 then 36864 else 45056

/-- The end of a run that allocates nothing. -/
def emptyRun : SwizzStore := nextState (swizzStep 1) .init (.restart inPlace)

/-- The start of the run after it. -/
def emptyRunNext : SwizzStore := nextState (swizzStep 1) emptyRun (.restart inPlace)

/-- The first object of the program. -/
def firstObject : List Op := [.mmap 4096 4096, .alloc nameA 16 4096]

theorem along_firstObject :
    Along (swizzStep 1) (SameRun 1 {nameA, nameB}) firstObject emptyRunNext := by
  refine .next (by decide +kernel) ⟨?_, nofun⟩ ?_
  · show FreshRange _ _ _
    decide +kernel
  refine .next (by decide +kernel) ⟨⟨.inl rfl, ⟨4096, 8192, 1, 1⟩, ?_⟩, nofun⟩ trivial
  decide +kernel

theorem runHistory_firstObject {rs : List Ret} {s : SwizzStore}
    (hrun : runSteps (swizzStep 1) firstObject emptyRunNext = some (rs, s)) :
    RunHistory 1 {nameA, nameB} emptyRun emptyRun s := by
  obtain ⟨r₁, hfirst⟩ := @step_nextState _ _ _ (swizzStep 1) .init (.restart inPlace)
    (by decide +kernel)
  obtain ⟨r₂, hsecond⟩ := @step_nextState _ _ _ (swizzStep 1) emptyRun (.restart inPlace)
    (by decide +kernel)
  have hplace₁ : PlaceOk SwizzStore.init.store.reboot inPlace 1 := by decide +kernel
  have hplace₂ : PlaceOk emptyRun.store.reboot inPlace 1 := by decide +kernel
  exact ⟨⟨inPlace, [], [r₁], ⟨hplace₁, fun _ _ _ => True.intro⟩,
      runSteps_cons_eq_some.mpr ⟨r₁, emptyRun, [], hfirst, rfl, rfl⟩⟩,
    ⟨[], [], True.intro, rfl⟩,
    ⟨inPlace, firstObject, rs, r₂, emptyRunNext, hplace₂, hsecond, along_firstObject, hrun⟩⟩

/-- When the regions of two objects exchange their places, a pointer into the first object that
was translated is translated back.  When nothing was restored, `load_ptr` of the pointer to an
object of the current run reads a null pointer.  When both regions move in two restarts, a pointer
of the first run is not translated in the third. -/
theorem not_loadPtr_twoObjectsRun :
    (∃ t s, RunHistory 1 {nameA, nameB} t t s ∧ loaded s exchanged 4100 = some (some 12292) ∧
      loaded s exchanged 12292 = some (some 4100)) ∧
    (∃ t s c, RunHistory 1 {nameA, nameB} t t s ∧
      Holds s.store.disk 1 (genIdFromStr nameA) c ∧ (s.store.disk.chunk c).nvPtr = 4096 ∧
      loaded s inPlace 4096 = none) ∧
    ∃ s₁ t s c, RunHistory 1 {nameA, nameB} s₁ t s ∧
      Holds s₁.store.disk 1 (genIdFromStr nameA) c ∧ Holds s.store.disk 1 (genIdFromStr nameA) c ∧
      (s₁.store.disk.chunk c).nvPtr = 4096 ∧ (s.store.disk.chunk c).nvPtr = 36864 ∧
      loaded s thirdPlace 4096 = some (some 4096) := by
  refine ⟨?_, ?_, ?_⟩
  · have hcheck : ((runSteps (swizzStep 1) twoObjectsRun .init).bind fun x =>
        (swizzStep 1 x.2 (.restart exchanged)).map fun y =>
          decide (PlaceOk x.2.store.reboot exchanged 1 ∧
            loaded y.2 exchanged 4100 = some (some 12292) ∧
            loaded y.2 exchanged 12292 = some (some 4100))) = some true := by decide +kernel
    obtain ⟨⟨rs, t⟩, hrun, hrest⟩ := bind_eq_some_iff.mp hcheck
    obtain ⟨⟨r, s⟩, hstep, hdec⟩ := map_eq_some_iff.mp hrest
    obtain ⟨hplace, hloaded, hback⟩ := of_decide_eq_true hdec
    exact ⟨t, s, ⟨⟨_, _, rs, along_swizzStep_twoObjectsRun, hrun⟩, ⟨[], [], True.intro, rfl⟩,
      ⟨exchanged, [], [], r, s, hplace, hstep, True.intro, rfl⟩⟩, hloaded, hback⟩
  · have hcheck : ((runSteps (swizzStep 1) firstObject emptyRunNext).map fun x =>
        decide ((∃ c ∈ x.2.store.disk.restoredChunks 1,
          Holds x.2.store.disk 1 (genIdFromStr nameA) c ∧
          (x.2.store.disk.chunk c).nvPtr = 4096) ∧ loaded x.2 inPlace 4096 = none)) =
        some true := by decide +kernel
    obtain ⟨⟨rs, s⟩, hrun, hdec⟩ := map_eq_some_iff.mp hcheck
    obtain ⟨⟨c, -, hk, hptr⟩, hloaded⟩ := of_decide_eq_true hdec
    exact ⟨emptyRun, s, c, runHistory_firstObject hrun, hk, hptr, hloaded⟩
  · have hcheck : ((runSteps (swizzStep 1) twoObjectsRun .init).bind fun x =>
        (swizzStep 1 x.2 (.restart secondPlace)).bind fun y =>
          (swizzStep 1 y.2 (.restart thirdPlace)).map fun z =>
            decide (PlaceOk x.2.store.reboot secondPlace 1 ∧ PlaceOk y.2.store.reboot thirdPlace 1 ∧
              (∃ c ∈ x.2.store.disk.restoredFor [1],
                Holds x.2.store.disk 1 (genIdFromStr nameA) c ∧
                Holds z.2.store.disk 1 (genIdFromStr nameA) c ∧
                (x.2.store.disk.chunk c).nvPtr = 4096 ∧
                (z.2.store.disk.chunk c).nvPtr = 36864) ∧
              loaded z.2 thirdPlace 4096 = some (some 4096))) = some true := by decide +kernel
    obtain ⟨⟨rs, s₁⟩, hrun, hrest⟩ := bind_eq_some_iff.mp hcheck
    obtain ⟨⟨r₁, t⟩, hstep₁, hrest⟩ := bind_eq_some_iff.mp hrest
    obtain ⟨⟨r₂, s⟩, hstep₂, hdec⟩ := map_eq_some_iff.mp hrest
    obtain ⟨hplace₁, hplace₂, ⟨c, -, hk₁, hk, hptr₁, hptr⟩, hloaded⟩ := of_decide_eq_true hdec
    have hlater : Along (swizzStep 1) (fun s => Allowed 1 {nameA, nameB} s.store)
        [.restart secondPlace] s₁ := ⟨hplace₁, fun _ _ _ => True.intro⟩
    exact ⟨s₁, t, s, c, ⟨⟨_, _, rs, along_swizzStep_twoObjectsRun, hrun⟩,
      ⟨[.restart secondPlace], [r₁], hlater,
      runSteps_cons_eq_some.mpr ⟨r₁, t, [], hstep₁, rfl, rfl⟩⟩,
      ⟨thirdPlace, [], [], r₂, s, hplace₂, hstep₂, True.intro, rfl⟩⟩, hk₁, hk, hptr₁, hptr, hloaded⟩
