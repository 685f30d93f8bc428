/-
# Renaming an object

`nv_rename` is meant to move an object: afterwards the store is that of a map in which
the old name is gone and the new name has its object (`MovesObject`).  It never does:
the tree entry of the old name stays, so the old name can still be read after every
rename of a name that can be read before it.
-/
import NvMalloc.StepEffect
import NvMalloc.Keeps

open WriteM Function

/-- The objects a program reads under the names. -/
def observe (p : ℕ) (st : Store) : AbsStore := fun n =>
  match step p st (.read n fun _ => 0) with
  | some (.object o, _) => o
  | _ => none

/-- After `nv_rename` from `s` to `d`, every continuation behaves as on the map in
which `s` is gone and `d` has the object of `s`. -/
def MovesObject (p : ℕ) (N : Set ObjName) (st : Store) (s d : ObjName) : Prop :=
  ∃ st', step p st (.rename s d) = some (.done, st') ∧
    ∀ ops, AlongSim (step p) absStep (fun st A op => Admissible p N st A op ∧ BackedOp st op) ops
    st'
        (absStep (observe p st) (.rename s d)).2 →
      ∃ st'', runSteps (step p) ops st' =
        some ((runSpec absStep ops (absStep (observe p st) (.rename s d)).2).1, st'')

section Rename

variable {p : ℕ} {N : Set ObjName} {st : Store} {s d : ObjName}

/-- A read returns what is observed and changes nothing. -/
theorem step_read_observe (hi : StoreInv st p) (n : ObjName) (place : DataFile → ℕ) :
    step p st (.read n place) = some (.object (observe p st n), st) := by
  rcases finds_or_missing hi (genIdFromStr n) with ⟨q, c, hf⟩ | hm
  · rw [observe, step, step, readObject_of_finds hi hf, readObject_of_finds hi hf]
    rfl
  · rw [observe, step, step, readObject_of_missing hi hm, readObject_of_missing hi hm]
    rfl

/-- A name can be read when a valid chunk is found for it. -/
theorem observe_eq_some (hi : StoreInv st p) {n : ObjName} {o : Obj} :
    observe p st n = some o ↔ ∃ q c, Finds st.disk p (genIdFromStr n) q c ∧
      (st.disk.chunk c).valid = .VALID ∧ st.disk.value c = o := by
  rcases finds_or_missing hi (genIdFromStr n) with ⟨q, c, hf⟩ | hm
  · have hobs : observe p st n =
        if (st.disk.chunk c).valid = .INVALID then none else some (st.disk.value c) := by
      rw [observe, step, readObject_of_finds hi hf]
      rfl
    rw [hobs]
    constructor
    · intro h
      cases hv : (st.disk.chunk c).valid with
      | VALID =>
        rw [hv] at h
        exact ⟨q, c, hf, hv, Option.some.inj h⟩
      | INVALID =>
        rw [hv] at h
        cases h
    · rintro ⟨q', c', hf', hv, rfl⟩
      obtain ⟨-, rfl⟩ := hf'.unique hi.shape hf
      rw [hv]
      rfl
  · have hobs : observe p st n = none := by
      rw [observe, step, readObject_of_missing hi hm]
      rfl
    rw [hobs]
    constructor
    · intro h
      cases h
    · rintro ⟨q', c', hf', -⟩
      exact absurd hm hf'.not_missing

/-- The entry under which the source of a rename is found stays. -/
theorem finds_rename {st' : Store} {q q' : MmapPtr} {c : ChunkPtr} {k : ℕ} {r : Chunkobj}
    {data : DataFile → Option DataContent} (hk : k ≠ genIdFromStr d)
    (he : Effect st st' (update st.disk.chunk c r)
      (fun q'' k' => if q'' = q' ∧ k' = genIdFromStr d then some c else st.disk.entry q'' k') data)
    {c' : ChunkPtr} (hf : Finds st.disk p k q c') : Finds st'.disk p k q c' := by
  have hentry : ∀ q'', st'.disk.entry q'' k = st.disk.entry q'' k := by
    intro q''
    rw [he.entry, if_neg fun h => hk h.2]
  refine ⟨?_, (hentry q).trans hf.entry, ?_⟩
  · rw [he.frame.shape_eq]
    exact hf.region
  · intro q'' hq'' hlt
    rw [he.frame.shape_eq] at hq''
    rw [he.frame.vmaId_eq, he.frame.vmaId_eq] at hlt
    rw [hentry]
    exact hf.greatest hq'' hlt

/-- After a rename the source can still be read. -/
theorem observe_rename (hr : RunInv st p)
    (hne : genIdFromStr s ≠ genIdFromStr d) {o : Obj} (ho : observe p st s = some o) {r : Ret}
    {st' : Store} (h : step p st (.rename s d) = some (r, st')) :
    RunInv st' p ∧ ∃ o', observe p st' s = some o' := by
  have heff := rename_effect hr.inv h
  have hr' := heff.runInv hr
  refine ⟨hr', ?_⟩
  obtain ⟨q, c, hf, hv, hval⟩ := (observe_eq_some hr.inv).mp ho
  cases heff with
  | renameNothing => exact ⟨o, ho⟩
  | @rename _ _ q₁ q₂ c₁ c₂ _ hf₁ hf₂ he =>
    obtain ⟨-, rfl⟩ := hf₁.unique hr.inv.shape hf
    refine ⟨_, (observe_eq_some hr'.inv).mpr ⟨q, c₁, finds_rename hne he hf, ?_, rfl⟩⟩
    rw [he.chunk, update_self]
    rfl

end Rename

/-- **A rename never moves an object.**  After every run, a rename of a name that can
be read, to a different name, leaves the old name readable. -/
theorem not_movesObject {p : ℕ} (hp : p ≠ 0) {N : Set ObjName} (hN : GoodNames N)
    (place : DataFile → ℕ) (ops : List Op)
    (hrun : Along (step p) (Allowed p N) (.restart place :: ops) {}) {rs : List Ret} {st : Store}
    (hst : runSteps (step p) (.restart place :: ops) {} = some (rs, st)) {s d : ObjName}
    (hs : s ∈ N)
    (hd : d ∈ N) (hne : s ≠ d) (hlive : observe p st s ≠ none) : ¬ MovesObject p N st s d := by
  rintro ⟨st', hstep, hmoves⟩
  have hr := runInv_of_run hp hrun hst
  obtain ⟨o, ho⟩ := Option.ne_none_iff_exists'.mp hlive
  have hid : genIdFromStr s ≠ genIdFromStr d := fun h => hne (hN.inj hs hd h)
  obtain ⟨hr', o', ho'⟩ := observe_rename hr hid ho hstep
  -- a read of the source tells the store from the map
  obtain ⟨st'', hread⟩ := hmoves [.read s fun _ => 0] ⟨⟨hs, trivial⟩, fun _ _ _ => trivial⟩
  rw [runSteps_cons (step_read_observe hr'.inv s _), ho'] at hread
  have hgone : (absStep (observe p st) (.rename s d)).2 s = none := by
    simp only [absStep, ho, Option.isSome_some, if_true]
    rw [update_of_ne hne, update_self]
  simp only [runSpec, absStep, runSteps_nil, Option.map_some, Option.some.injEq, Prod.mk.injEq,
    List.cons.injEq, Ret.object.injEq, and_true] at hread hgone
  rw [hgone] at hread
  exact absurd hread.1 (by simp)

/-- Two objects in two regions. -/
def twoObjectsRun : List Op :=
  [.restart fun _ => 0, .mmap 4096 4096, .mmap 4096 12288, .alloc nameA 16 4096,
    .alloc nameB 8 12288]

theorem allowed_twoObjectsRun : Along (step 1) (Allowed 1 {nameA, nameB}) twoObjectsRun {} := by
  decide +kernel

/-- A rename onto a live name in another region. -/
theorem not_movesObject_twoObjectsRun : observe 1 (reached 1 twoObjectsRun) nameA ≠ none ∧
    ¬ MovesObject 1 {nameA, nameB} (reached 1 twoObjectsRun) nameA nameB := by
  have hlive : observe 1 (reached 1 twoObjectsRun) nameA ≠ none := by decide +kernel
  refine ⟨hlive, ?_⟩
  have hsome : (runSteps (step 1) twoObjectsRun {}).isSome = true := by decide +kernel
  obtain ⟨⟨rs, st⟩, hst⟩ := Option.isSome_iff_exists.mp hsome
  rw [reached_eq hst] at hlive ⊢
  exact not_movesObject (by decide) goodNames_nameAB _ _ allowed_twoObjectsRun hst (Or.inl rfl)
    (Or.inr rfl)
    (by decide) hlive

/-- One object is renamed to a name that is not live, and can still be read under its
old name. -/
theorem not_movesObject_oneRegionRun :
    Along (step 1) (Allowed 1 {nameA, nameB}) oneRegionRun {} ∧
      (observe 1 (reached 1 oneRegionRun) nameA).isSome = true ∧
      ¬ MovesObject 1 {nameA, nameB} (reached 1 oneRegionRun) nameA nameB := by
  refine ⟨by decide +kernel, by decide +kernel, ?_⟩
  rintro ⟨st', hstep, hmoves⟩
  obtain ⟨st'', hread⟩ :=
    hmoves [.read nameA fun _ => 0] ⟨⟨Or.inl rfl, trivial⟩, fun _ _ _ => trivial⟩
  have hresults : ((step 1 (reached 1 oneRegionRun) (.rename nameA nameB)).bind fun x =>
      (runSteps (step 1) [.read nameA fun _ => 0] x.2).map Prod.fst) =
      some [.object (some ⟨16, 0, List.replicate 16 0⟩)] := by decide +kernel
  rw [hstep, Option.bind_some, hread] at hresults
  have hspec : (runSpec absStep [.read nameA fun _ => 0]
      (absStep (observe 1 (reached 1 oneRegionRun)) (.rename nameA nameB)).2).1 =
      [.object none] := by decide +kernel
  rw [hspec] at hresults
  cases hresults
