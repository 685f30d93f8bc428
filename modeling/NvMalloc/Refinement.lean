/-
# The store as a finite map

As long as a name is allocated only when it is not live, the store of one process
behaves as a map from names to objects, through deletes, re-creations, new regions
and restarts, and it never gets stuck.  The one thing the code needs beyond its
allocator's promises is that each block lies in the part of its region that the
region's file covers: `setup_map_file` takes the size of the file as a 32-bit number,
so a region of `2^32` bytes gets a file of length `0`.
-/
import NvMalloc.Decidability

open WriteM Function

/-! ## The abstract store -/

/-- The object after an allocation of `bytes` bytes: the old contents, as far as they
fit, and zeros. -/
def Obj.resize (old : Option Obj) (bytes : ℕ) : Obj :=
  match old with
  | none => ⟨bytes, 0, List.replicate bytes 0⟩
  | some o => ⟨bytes, o.commitsz, o.bytes.take bytes ++ List.replicate (bytes - o.length) 0⟩

/-- The operations on the abstract store. -/
def absStep (A : AbsStore) : Op → Ret × AbsStore
  | .mmap _ _ => (.done, A)
  | .alloc n bytes _ => (.done, update A n (some (Obj.resize (A n) bytes)))
  | .commit n size =>
    (.status 0, update A n ((A n).map fun o => { o with commitsz := toUint size }))
  | .delete n => (.status (if (A n).isSome then 0 else -1), update A n none)
  | .read n _ => (.object (A n), A)
  | .write n off bs =>
    (.done, update A n ((A n).map fun o => { o with bytes := overwrite o.bytes off bs }))
  | .rename s d => (.done,
    if (A s).isSome then update (update A s none) d (A s) else A)
  | .restart _ => (.done, A)

/-- The operations of a run with names in `N`: the kernel and the allocator keep
their promises, the metadata files have room, a name is allocated only when it is
not live and committed only when it is, stores stay inside the object, and nothing
is renamed. -/
def Admissible (p : ℕ) (N : Set ObjName) (st : Store) (A : AbsStore) : Op → Prop
  | .mmap size addr => FreshRange st addr size
  | .alloc n bytes addr => n ∈ N ∧ A n = none ∧
    ∃ nd, BlockOf st p nd addr bytes ∧ MetaRoom st p nd ∧ Unused st p addr bytes
  | .commit n _ => n ∈ N ∧ A n ≠ none
  | .delete n => n ∈ N
  | .read n _ => n ∈ N
  | .write n off bs => n ∈ N ∧ ∃ o, A n = some o ∧ off + bs.length ≤ o.length
  | .rename _ _ => False
  | .restart place => PlaceOk st.reboot place p

/-- Allocated blocks lie in the part of their region that the file covers. -/
def BackedOp (st : Store) : Op → Prop
  | .alloc _ bytes addr => ∀ nd ∈ st.locateMmapobjNode addr, Backed nd addr bytes
  | _ => True

instance decidableExistsSome {α : Type} {o : Option α} {P : α → Prop} [DecidablePred P] :
    Decidable (∃ a, o = some a ∧ P a) :=
  inferInstanceAs (Decidable (∃ a ∈ o, P a))

instance (p : ℕ) (N : Set ObjName) [DecidablePred (· ∈ N)] (st : Store) (A : AbsStore) (op : Op) :
    Decidable (Admissible p N st A op) := by
  refine op.casesOn ?_ ?_ ?_ ?_ ?_ ?_ ?_ ?_ <;> intros <;> dsimp only [Admissible] <;>
    infer_instance

instance (st : Store) (op : Op) : Decidable (BackedOp st op) := by
  refine op.casesOn ?_ ?_ ?_ ?_ ?_ ?_ ?_ ?_ <;> intros <;> dsimp only [BackedOp] <;> infer_instance

/-! ## The simulation -/

/-- The store represents the abstract store `A`. -/
structure StoreRep (p : ℕ) (N : Set ObjName) (st : Store) (A : AbsStore) : Prop where
  inv : RunInv st p
  clean : Clean st.disk p
  objects : Represents st.disk p N A

section Simulation

variable {p : ℕ} {N : Set ObjName} {st : Store} {A : AbsStore} {n : ObjName}

/-- The chunk of a live name. -/
theorem StoreRep.holds (hR : StoreRep p N st A) (hn : n ∈ N) {o : Obj} (ho : A n = some o) :
    ∃ c, Holds st.disk p (genIdFromStr n) c ∧ st.disk.value c = o := (hR.objects n hn o).mp ho

/-- A step that keeps the frame and updates the object of one name. -/
theorem StoreRep.update (hR : StoreRep p N st A) (hN : GoodNames N) (hn : n ∈ N) {st' : Store}
    {v : Option Obj} (hframe : st'.ram.frame = st.ram.frame) (hi : StoreInv st' p)
    (hup : Updates st.disk st'.disk p (genIdFromStr n) v) (hc : Clean st'.disk p) :
    StoreRep p N st' (update A n v) :=
  ⟨⟨hi, hR.inv.solo.of_ram hframe⟩, hc, hR.objects.update hN hn hup⟩

theorem step_restart (hs : ShapeOk st.disk.shape) (hp : p ≠ 0) (hsep : Separate st.disk p)
    (hr : Represents st.disk p N A) {place : DataFile → ℕ} (hplace : PlaceOk st.reboot place p) :
    ∃ st', step p st (.restart place) = some (.done, st') ∧
      Loads (st.reboot.apply (.ram fun r => { r with gInitialized := true })) st' place p ∧
      StoreRep p N st' A := by
  obtain ⟨st', hexec, hl, hinv⟩ := restart_runInv hs hp hplace
  refine ⟨st', by rw [step, hexec]; rfl, hl, hinv, hl.clean hsep, ?_⟩
  exact hr.of_same hl.sameObjects

/-- A read returns the object of the abstract store and changes nothing. -/
theorem step_read_of_clean (hi : StoreInv st p) (hc : Clean st.disk p)
    (hr : Represents st.disk p N A) (hn : n ∈ N) (place : DataFile → ℕ) :
    step p st (.read n place) = some (.object (A n), st) := by
  cases hA : A n with
  | none =>
    rw [step, readObject_of_dead hi hc place ((hr.eq_none hn).mp hA)]
    rfl
  | some o =>
    obtain ⟨c, hk, rfl⟩ := (hr n hn o).mp hA
    rw [step, readObject_of_holds hi hc place hk]
    rfl

theorem StoreRep.step_read (hR : StoreRep p N st A) (hn : n ∈ N) (place : DataFile → ℕ) :
    step p st (.read n place) = some (.object (A n), st) :=
  step_read_of_clean hR.inv.inv hR.clean hR.objects hn place

/-- One operation of the store does what it does on the abstract store. -/
theorem step_sim (hN : GoodNames N) {op : Op} (hR : StoreRep p N st A)
    (hadm : Admissible p N st A op ∧ BackedOp st op) :
    ∃ st', step p st op = some ((absStep A op).1, st') ∧ StoreRep p N st' (absStep A op).2 := by
  obtain ⟨hadm, hback⟩ := hadm
  have hi := hR.inv.inv
  cases op with
  | mmap size addr =>
    obtain ⟨st', hstep, hinv, hgrown⟩ := step_mmap hR.inv hadm
    exact ⟨st', hstep, hinv, hgrown.clean hR.clean, hR.objects.of_same hgrown.sameObjects⟩
  | alloc n bytes addr =>
    obtain ⟨hn, hdead, nd, hb, hroom, hun⟩ := hadm
    have hok : AllocOk st (allocRqst p n bytes) nd addr :=
      ⟨rfl, hN.pos n hn, hb, hback nd (locateMmapobjNode_of_block hi.ram hb), hroom, fun _ =>
      hR.inv.solo.globals hb.node⟩
    obtain ⟨st', hexec, hi', hram, -, hup, hc⟩ :=
      alloc_of_dead hi hR.clean hok ((hR.objects.eq_none hn).mp hdead) hun
    refine ⟨st', by rw [step, hexec]; rfl, ?_⟩
    simp only [absStep, hdead, Obj.resize]
    exact hR.update hN hn hram hi' hup hc
  | commit n size =>
    obtain ⟨hn, hlive⟩ := hadm
    obtain ⟨o, ho⟩ := Option.ne_none_iff_exists'.mp hlive
    obtain ⟨c, hk, rfl⟩ := hR.holds hn ho
    obtain ⟨st', hexec, hframe, hi', -, hup, hc⟩ :=
      nvCommitLen_of_holds hi hR.clean (hN.pos n hn) hk size
    refine ⟨st', by rw [step, hexec]; rfl, ?_⟩
    simp only [absStep, ho, Option.map_some]
    exact hR.update hN hn hframe.ram hi' hup hc
  | delete n =>
    cases hA : A n with
    | none =>
      have hexec := nvDelete_of_dead hi hR.clean (hN.pos n hadm) ((hR.objects.eq_none hadm).mp hA)
      refine ⟨st, by rw [step, hexec]; simp [absStep, hA], ?_⟩
      simp only [absStep, ← hA, update_eq_self]
      exact hR
    | some o =>
      obtain ⟨c, hk, -⟩ := hR.holds hadm hA
      obtain ⟨st', hexec, hframe, hi', -, hup, hc⟩ :=
        nvDelete_of_holds hi hR.clean (hN.pos n hadm) hk
      exact ⟨st', by rw [step, hexec]; simp [absStep, hA], hR.update hN hadm hframe.ram hi' hup hc⟩
  | read n place => exact ⟨st, hR.step_read hadm place, hR⟩
  | write n off bs =>
    obtain ⟨hn, o, ho, hoff⟩ := hadm
    obtain ⟨c, hk, rfl⟩ := hR.holds hn ho
    obtain ⟨st', hexec, hframe, hi', -, hup, hc⟩ := writeObject_of_holds hi hR.clean hk hoff
    refine ⟨st', by rw [step, hexec]; rfl, ?_⟩
    simp only [absStep, ho, Option.map_some]
    exact hR.update hN hn hframe.ram hi' hup hc
  | rename s d => exact absurd hadm id
  | restart place =>
    obtain ⟨st', hstep, -, hR'⟩ :=
      step_restart hi.shape hi.pidPos hR.clean.separate hR.objects hadm
    exact ⟨st', hstep, hR'⟩

end Simulation

/-! ## Whole runs -/

/-- The store does what the abstract store does on the operations `ops`, from the
beginning, and afterwards a delete of a name that is not live returns `-1` and changes
nothing. -/
def BehavesAsMap (p : ℕ) (N : Set ObjName) (ops : List Op) : Prop :=
  ∃ st, runSteps (step p) ops {} = some ((runSpec absStep ops fun _ => none).1, st) ∧
    ∀ n ∈ N, (runSpec absStep ops fun _ => none).2 n = none →
      step p st (.delete n) = some (.status (-1), st)

theorem representsEmpty (p : ℕ) (N : Set ObjName) :
    Represents ({} : Disk) p N (fun _ => none) ∧ Separate ({} : Disk) p := by
  have hno : ∀ {k c}, ¬ Holds ({} : Disk) p k c := by
    intro k c hk
    exact not_inScan_empty hk.scan
  refine ⟨?_, fun hk => absurd hk hno, fun hk => absurd hk hno⟩
  intro n _ o
  constructor
  · intro h
    cases h
  · rintro ⟨c, hk, -⟩
    exact absurd hk hno

/-- **The store is a finite map.**  Every run of admissible operations that starts on
an empty store behaves as the map from names to objects, as long as the blocks it is
given are backed by their files. -/
theorem behavesAsMap_of_backed {p : ℕ} (hp : p ≠ 0) {N : Set ObjName} (hN : GoodNames N)
    (place : DataFile → ℕ) (ops : List Op)
    (hrun : AlongSim (step p) absStep (fun st A op => Admissible p N st A op ∧ BackedOp st op)
      (.restart place :: ops) {} fun _ => none) :
    BehavesAsMap p N (.restart place :: ops) := by
  obtain ⟨hr, hsep⟩ := representsEmpty p N
  obtain ⟨⟨hplace, -⟩, hrest⟩ := hrun
  obtain ⟨st₀, hstep, -, hR⟩ := step_restart shapeOk_empty hp hsep hr hplace
  obtain ⟨st, hst, hR'⟩ := runSteps_sim (step_sim hN) hR (hrest _ st₀ hstep)
  refine ⟨st, by rw [runSteps_cons hstep, hst]; rfl, ?_⟩
  intro n hn hdead
  have hexec := nvDelete_of_dead hR'.inv.inv hR'.clean (hN.pos n hn)
    ((hR'.objects.eq_none hn).mp hdead)
  rw [step, hexec]
  rfl

/-- A run with two restarts, a store and deletes. -/
def sampleRun : List Op :=
  [.restart fun _ => 0, .mmap 4096 4096, .alloc nameA 16 4096, .write nameA 2 [7],
    .restart fun _ => 12288, .read nameA fun _ => 0, .delete nameA, .delete nameA]

theorem goodNames_nameA : GoodNames {nameA} := by
  refine ⟨Set.injOn_singleton _ _, ?_⟩
  rintro _ rfl
  decide

theorem goodNames_nameAB : GoodNames {nameA, nameB} := by
  refine ⟨?_, ?_⟩
  · rintro _ (rfl | rfl) _ (rfl | rfl) h
    · rfl
    · exact absurd h (by decide)
    · exact absurd h (by decide)
    · rfl
  · rintro _ (rfl | rfl) <;> decide

theorem behavesAsMap_sampleRun : BehavesAsMap 1 {nameA} sampleRun :=
  behavesAsMap_of_backed (by decide) goodNames_nameA _ _ (by decide +kernel)

/-- A region of `2^32` bytes, and a block of all but its last byte. -/
def largeRegionRun : List Op :=
  [.restart fun _ => 0, .mmap (2 ^ 32) 4096, .alloc nameA (2 ^ 32 - 1) 4096]

/-- The file of such a region is empty, and clearing the block goes past its end. -/
theorem not_behavesAsMap_largeRegionRun : GoodNames {nameA} ∧
    AlongSim (step 1) absStep (Admissible 1 {nameA}) largeRegionRun {} (fun _ => none) ∧
      ¬ BehavesAsMap 1 {nameA} largeRegionRun := by
  refine ⟨goodNames_nameA, by decide +kernel, ?_⟩
  rintro ⟨st, hrun, -⟩
  have hstuck : (runSteps (step 1) largeRegionRun {}).isSome = false := by decide +kernel
  rw [hrun] at hstuck
  cases hstuck
