/-
# What one operation can do

Outside clean states too, every operation of a run with one process id has one of a
few effects (`StepEffect`): it maps a region, appends a chunk, replaces one, changes
one record, one entry or some bytes, or does nothing.  What holds in all runs is read
off these effects; the first such fact is that `RunInv` holds throughout.
-/
import NvMalloc.Decidability
import NvMalloc.Steps

open WriteM

/-- The operations on names in `N` for which the kernel and the allocator keep their
promises, and in which stores stay inside the object. -/
def Allowed (p : ℕ) (N : Set ObjName) (st : Store) : Op → Prop
  | .mmap size addr => FreshRange st addr size
  | .alloc n bytes addr => n ∈ N ∧ ∃ nd, BlockOf st p nd addr bytes ∧ MetaRoom st p nd
  | .commit n _ => n ∈ N
  | .delete n => n ∈ N
  | .read n _ => n ∈ N
  | .write n off bs => n ∈ N ∧ ∀ {q c}, Finds st.disk p (genIdFromStr n) q c →
    off + bs.length ≤ (st.disk.chunk c).length
  | .rename s d => s ∈ N ∧ d ∈ N
  | .restart place => PlaceOk st.reboot place p

instance (p : ℕ) (N : Set ObjName) [DecidablePred (· ∈ N)] (st : Store) (op : Op) :
    Decidable (Allowed p N st op) := by
  refine op.casesOn ?_ ?_ ?_ ?_ ?_ ?_ ?_ ?_ <;> intros <;> dsimp only [Allowed] <;> infer_instance

/-- What an operation did. -/
inductive StepEffect (p : ℕ) (st : Store) : Op → Ret → Store → Prop
  | mmap {size addr : ℕ} {h : ProcObj} (hh : st.disk.proc p = some h)
      (hfresh : FreshRange st addr size) :
      StepEffect p st (.mmap size addr) .done (st.mapRegion p size addr h)
  | create {n : ObjName} {bytes addr : ℕ} {nd : MmapobjNode} {q : MmapPtr} {ws : List Write}
      (hok : AllocOk st (allocRqst p n bytes) nd addr)
      (hfree : Missing st.disk p (genIdFromStr n) ∨ ∃ q c, Finds st.disk p (genIdFromStr n) q c ∧
        (st.disk.chunk c).valid = .INVALID)
      (hfound : RegionFound st p nd q ws) :
      StepEffect p st (.alloc n bytes addr) .done
        ((applyAll st ws).recordChunk q (allocChunk (allocRqst p n bytes) nd addr) addr)
  | replace {n : ObjName} {bytes addr : ℕ} {nd : MmapobjNode} {st₂ st' : Store}
      {q₀ q qv : MmapPtr} {old c v : ChunkPtr} {ws : List Write}
      (hok : AllocOk st (allocRqst p n bytes) nd addr)
      (hf : Finds st.disk p (genIdFromStr n) q₀ old) (hv : (st.disk.chunk old).valid = .VALID)
      (hre : Reallocated st st₂ st' (allocRqst p n bytes) nd addr q₀ q qv old c v ws) :
      StepEffect p st (.alloc n bytes addr) .done st'
  | commit {n : ObjName} {size : ℕ} {q : MmapPtr} {c : ChunkPtr} {st' : Store}
      (hf : Finds st.disk p (genIdFromStr n) q c)
      (he : Effect st st' (Function.update st.disk.chunk c
        { st.disk.chunk c with commitsz := toUint size }) st.disk.entry st.disk.data) :
      StepEffect p st (.commit n size) (.status 0) st'
  | deleteMissing {n : ObjName} (hm : Missing st.disk p (genIdFromStr n)) :
      StepEffect p st (.delete n) (.status (-1)) st
  | deleteLost {n : ObjName} {q : MmapPtr} {c : ChunkPtr}
      (hf : Finds st.disk p (genIdFromStr n) q c)
      (hm : Missing st.disk p (st.disk.chunk c).chunkid) :
      StepEffect p st (.delete n) (.status (-1)) (st.invalidate c)
  | delete {n : ObjName} {q q' : MmapPtr} {c c' : ChunkPtr}
      (hf : Finds st.disk p (genIdFromStr n) q c)
      (hf' : Finds st.disk p (st.disk.chunk c).chunkid q' c') :
      StepEffect p st (.delete n) (.status 0) (st.deleteChunk c q' n)
  | read {n : ObjName} {place : DataFile → ℕ} {o : Option Obj} :
      StepEffect p st (.read n place) (.object o) st
  | write {n : ObjName} {off : ℕ} {bs : List UInt8} {f : DataFile} {o : ℕ} :
      StepEffect p st (.write n off bs) .done ⟨st.disk.blitFile f o bs, st.ram⟩
  | renameNothing {s d : ObjName} : StepEffect p st (.rename s d) .done st
  | rename {s d : ObjName} {q q' : MmapPtr} {c c' : ChunkPtr} {st' : Store}
      (hf : Finds st.disk p (genIdFromStr s) q c)
      (hf' : Finds st.disk p (st.disk.chunk c).chunkid q' c')
      (he : Effect st st' (Function.update st.disk.chunk c ((st.disk.chunk c).rename d))
        (fun q'' k => if q'' = q' ∧ k = genIdFromStr d then some c else st.disk.entry q'' k)
        st.disk.data) :
      StepEffect p st (.rename s d) .done st'
  | restart {place : DataFile → ℕ} {st' : Store}
      (hl : Loads (st.reboot.apply (.ram fun r => { r with gInitialized := true })) st' place p)
      (hinv : RunInv st' p) : StepEffect p st (.restart place) .done st'

section Effect

variable {p : ℕ} {N : Set ObjName} {st st' : Store} {r : Ret}
  {rqst : Rqst} {n : ObjName} {place : DataFile → ℕ} {ops : List Op} {rs : List Ret}

/-- `get_chunk` asserts that it has an id to look for. -/
theorem chunkId_ne_of_getChunk {x : Option ChunkPtr × List Write} (h : getChunk rqst st = some x) :
    rqst.chunkId ≠ 0 := by
  obtain ⟨_, _, _, hassert, -, -⟩ := run_bind_eq_some.mp h
  rw [run_assert] at hassert
  split at hassert
  · assumption
  · cases hassert

/-- So does every function that begins with it. -/
theorem chunkId_ne_of_exec {α : Type} {f : Option ChunkPtr → NvM α} {x : α × Store}
    (h : (getChunk rqst >>= f).exec st = some x) : rqst.chunkId ≠ 0 := by
  obtain ⟨_, hrun, -⟩ := Option.map_eq_some_iff.mp h
  obtain ⟨_, _, _, hget, -, -⟩ := run_bind_eq_some.mp hrun
  exact chunkId_ne_of_getChunk hget

theorem chunkId_ne_of_nvDelete {x : ℤ × Store} (h : (nvDelete rqst).exec st = some x) :
    rqst.chunkId ≠ 0 := by
  obtain ⟨_, hrun, -⟩ := Option.map_eq_some_iff.mp h
  obtain ⟨_, _, _, -, hrun, -⟩ := run_bind_eq_some.mp hrun
  obtain ⟨_, _, _, -, hrun, -⟩ := run_bind_eq_some.mp hrun
  obtain ⟨_, _, _, -, hrun, -⟩ := run_bind_eq_some.mp hrun
  obtain ⟨_, _, _, hget, -, -⟩ := run_bind_eq_some.mp hrun
  exact chunkId_ne_of_getChunk hget

theorem chunkId_ne_of_nvRecordChunk {addr : ℕ} {x : Unit × List Write}
    (h : nvRecordChunk rqst addr st = some x) : rqst.chunkId ≠ 0 := by
  obtain ⟨_, _, _, -, hrun, -⟩ := run_bind_eq_some.mp h
  obtain ⟨_, _, _, -, hrun, -⟩ := run_bind_eq_some.mp hrun
  obtain ⟨_, _, _, -, hrun, -⟩ := run_bind_eq_some.mp hrun
  obtain ⟨_, _, _, hcheck, -, -⟩ := run_bind_eq_some.mp hrun
  obtain ⟨_, _, _, hget, -, -⟩ := run_bind_eq_some.mp hcheck
  exact chunkId_ne_of_getChunk hget

/-- An allocation creates a chunk, or replaces the one that is found. -/
theorem alloc_effect (hr : RunInv st p) {bytes addr : ℕ}
    (hop : Allowed p N st (.alloc n bytes addr))
    (h : step p st (.alloc n bytes addr) = some (r, st')) :
    StepEffect p st (.alloc n bytes addr) r st' := by
  obtain ⟨hn, nd, hb, hroom⟩ := hop
  have hi : StoreInv st (allocRqst p n bytes).pid := hr.inv
  obtain ⟨⟨⟩, hexec, heq⟩ := Option.map_eq_some_iff.mp h
  cases heq
  obtain ⟨⟨⟩, hrun, -⟩ := Option.map_eq_some_iff.mp hexec
  have hid : genIdFromStr n ≠ 0 := chunkId_ne_of_nvRecordChunk hrun
  have hback : Backed nd addr bytes := backed_of_alloc hi rfl hid hb hroom
    (fun _ => hr.solo.globals hb.node) (Option.isSome_iff_exists.mpr ⟨_, hrun⟩)
  have hok : AllocOk st (allocRqst p n bytes) nd addr :=
    ⟨rfl, hid, hb, hback, hroom, fun _ => hr.solo.globals hb.node⟩
  rcases checkIfChunkExists_cases hi hid with ⟨hnone, hfree⟩ | ⟨q₀, old, hf, hv, -⟩
  · obtain ⟨q, ws, hfound, hexec'⟩ := nvRecordChunk_exec_of_free hi hok hnone
    rw [hexec] at hexec'
    cases hexec'
    exact .create hok hfree hfound
  · obtain ⟨st₂, st₃, q, qv, c, v, ws, hexec', hre, -⟩ := nvRecordChunk_exec_of_live hi hok hf hv
    rw [hexec] at hexec'
    cases hexec'
    exact .replace hok hf hv hre

/-- An allocation in a block that the data file backs succeeds. -/
theorem alloc_isSome (hr : RunInv st p) (hid : genIdFromStr n ≠ 0) {bytes addr : ℕ}
    {nd : MmapobjNode} (hb : BlockOf st p nd addr bytes) (hback : Backed nd addr bytes)
    (hroom : MetaRoom st p nd) : (step p st (.alloc n bytes addr)).isSome := by
  have hi : StoreInv st (allocRqst p n bytes).pid := hr.inv
  have hok : AllocOk st (allocRqst p n bytes) nd addr :=
    ⟨rfl, hid, hb, hback, hroom, fun _ => hr.solo.globals hb.node⟩
  rcases checkIfChunkExists_cases hi hid with ⟨hnone, -⟩ | ⟨q, c, hf, hv, -⟩
  · obtain ⟨_, _, -, hexec⟩ := nvRecordChunk_exec_of_free hi hok hnone
    rw [step, hexec]
    rfl
  · obtain ⟨_, _, _, _, _, _, _, hexec, -⟩ := nvRecordChunk_exec_of_live hi hok hf hv
    rw [step, hexec]
    rfl

section

variable (hi : StoreInv st p)
include hi

theorem delete_effect (h : step p st (.delete n) = some (r, st')) :
    StepEffect p st (.delete n) r st' := by
  have hi₁ : StoreInv st (request p n).pid := hi
  obtain ⟨_, hexec, -⟩ := Option.map_eq_some_iff.mp h
  have hid : genIdFromStr n ≠ 0 := chunkId_ne_of_nvDelete hexec
  rcases finds_or_missing hi (genIdFromStr n) with ⟨q, c, hf⟩ | hm
  · rcases finds_or_missing hi (st.disk.chunk c).chunkid with ⟨q', c', hf'⟩ | hm
    · rw [step, nvDelete_of_finds hi₁ hid hf hf'] at h
      cases h
      exact .delete hf hf'
    · rw [step, nvDelete_of_lost hi₁ hid hf hm] at h
      cases h
      exact .deleteLost hf hm
  · rw [step, nvDelete_of_missing hi₁ hid hm] at h
    cases h
    exact .deleteMissing hm

theorem rename_effect {s d : ObjName} (h : step p st (.rename s d) = some (r, st')) :
    StepEffect p st (.rename s d) r st' := by
  have hi₁ : StoreInv st (request p s).pid := hi
  obtain ⟨_, hexec, -⟩ := Option.map_eq_some_iff.mp h
  have hid : genIdFromStr s ≠ 0 := chunkId_ne_of_exec hexec
  rcases finds_or_missing hi (genIdFromStr s) with ⟨q, c, hf⟩ | hm
  · rcases finds_or_missing hi (st.disk.chunk c).chunkid with ⟨q', c', hf'⟩ | hm
    · obtain ⟨st₁, hexec, he⟩ := nvRename_of_finds hi₁ hid hf hf' d
      rw [step, hexec] at h
      cases h
      exact .rename hf hf' he
    · rw [step, nvRename_of_lost hi₁ hid hf hm] at h
      cases h
      exact .renameNothing
  · rw [step, nvRename_of_missing hi₁ hid hm] at h
    cases h
    exact .renameNothing

theorem read_effect (h : step p st (.read n place) = some (r, st')) :
    StepEffect p st (.read n place) r st' := by
  rcases finds_or_missing hi (genIdFromStr n) with ⟨q, c, hf⟩ | hm
  · rw [step, readObject_of_finds hi hf] at h
    cases h
    exact .read
  · rw [step, readObject_of_missing hi hm] at h
    cases h
    exact .read

theorem write_effect {off : ℕ} {bs : List UInt8} (hop : Allowed p N st (.write n off bs))
    (h : step p st (.write n off bs) = some (r, st')) :
    StepEffect p st (.write n off bs) r st' := by
  rcases finds_or_missing hi (genIdFromStr n) with ⟨q, c, hf⟩ | hm
  · cases hv : (st.disk.chunk c).valid with
    | VALID =>
      rw [step, writeObject_of_finds hi hf hv (hop.2 hf)] at h
      cases h
      exact .write
    | INVALID =>
      rw [step, writeObject_stuck hi (.inr ⟨q, c, hf, hv⟩)] at h
      cases h
  · rw [step, writeObject_stuck hi (.inl hm)] at h
    cases h

theorem commit_effect {size : ℕ} (h : step p st (.commit n size) = some (r, st')) :
    StepEffect p st (.commit n size) r st' := by
  have hi₁ : StoreInv st (request p n).pid := hi
  obtain ⟨_, hexec, -⟩ := Option.map_eq_some_iff.mp h
  have hid : genIdFromStr n ≠ 0 := chunkId_ne_of_exec hexec
  rcases finds_or_missing hi (genIdFromStr n) with ⟨q, c, hf⟩ | hm
  · obtain ⟨st₁, hexec, he⟩ := nvCommitLen_of_finds hi₁ hid hf size
    rw [step, hexec] at h
    cases h
    exact .commit hf he
  · have hget := getChunk_of_missing hi₁ hid hm
    simp [step, nvCommitLen, exec_bind, exec_of_run_nil hget] at h

end

/-- Every operation has one of the effects. -/
theorem step_effect (hr : RunInv st p) {op : Op} (hop : Allowed p N st op)
    (h : step p st op = some (r, st')) : StepEffect p st op r st' := by
  cases op with
  | mmap size addr =>
    obtain ⟨hd, hh, hexec⟩ := mmap_exec hr.inv hop
    rw [step, hexec] at h
    cases h
    exact .mmap hh hop
  | alloc n bytes addr => exact alloc_effect hr hop h
  | commit n size => exact commit_effect hr.inv h
  | delete n => exact delete_effect hr.inv h
  | read n place => exact read_effect hr.inv h
  | write n off bs => exact write_effect hr.inv hop h
  | rename s d => exact rename_effect hr.inv h
  | restart place =>
    obtain ⟨st₁, hexec, hl, hinv⟩ := restart_runInv hr.inv.shape hr.inv.pidPos hop
    rw [step, hexec] at h
    cases h
    exact .restart hl hinv

/-! ## The invariant of runs -/

theorem Effect.runInv {chunk : ChunkPtr → Chunkobj} {entry : MmapPtr → ℕ → Option ChunkPtr}
    {data : DataFile → Option DataContent} (he : Effect st st' chunk entry data) (hr : RunInv st p)
    (hi : StoreInv st' p) : RunInv st' p := ⟨hi, hr.solo.of_ram he.frame.ram⟩

/-- Every operation keeps the invariant. -/
theorem StepEffect.runInv {op : Op} (h : StepEffect p st op r st') (hr : RunInv st p) :
    RunInv st' p := by
  have hi := hr.inv
  cases h with
  | mmap hh hfresh => exact ⟨storeInv_mapRegion hi hh hfresh, solo_mapRegion hr hh⟩
  | create hok hfree hfound =>
    refine ⟨storeInv_recordChunk hok hfound, hr.solo.of_ram ?_⟩
    rw [← hfound.ram]
    rfl
  | replace hok hf hv hre => exact ⟨hre.storeInv, hr.solo.of_ram hre.ram⟩
  | commit hf he =>
    exact he.runInv hr (he.storeInv_at hi (.inr hf.indexed) fun hq hc => ⟨_, _, hq, hc⟩)
  | deleteMissing hm => exact hr
  | deleteLost hf hm =>
    exact (invalidate_effect _ _).runInv hr (invalidate_storeInv hi _)
  | @delete n q q' c c' hf hf' =>
    have he := deleteChunk_effect st c q' n
    refine he.runInv hr (he.storeInv_at hi (.inr hf.indexed) ?_)
    intro q₁ k c₁ hq hentry
    split at hentry
    · cases hentry
    · exact ⟨q₁, k, hq, hentry⟩
  | read => exact hr
  | @write n off bs f o =>
    have hframe := SameFrame.blitFile (SameFrame.refl st) f o bs
    exact ⟨hi.of_sameFrame hframe (fun _ hc => hc) (fun _ hv => .inl hv), hr.solo.of_ram rfl⟩
  | renameNothing => exact hr
  | rename hf hf' he =>
    refine he.runInv hr (he.storeInv_at hi (.inr hf.indexed) ?_)
    intro q k c hq hentry
    split at hentry
    · cases hentry
      exact hf.indexed
    · exact ⟨q, k, hq, hentry⟩
  | restart hl hinv => exact hinv

/-- A run on an empty store starts with a load, and goes on from there. -/
theorem run_first (hp : p ≠ 0) {P : Store → Op → Prop}
    (hrun : Along (step p) P (.restart place :: ops) {})
    (hplace : PlaceOk (Store.reboot {}) place p)
    (hst : runSteps (step p) (.restart place :: ops) {} = some (rs, st)) :
    ∃ st₀ rs', restart {} place p = some st₀ ∧ Loads (Store.started {}) st₀ place p ∧ RunInv st₀ p ∧
      Along (step p) P ops st₀ ∧ runSteps (step p) ops st₀ = some (rs', st) := by
  obtain ⟨st₀, hexec, hl, hinv⟩ := restart_runInv shapeOk_empty hp hplace
  have hfirst : step p {} (.restart place) = some (.done, st₀) := by
    rw [step, hexec]
    rfl
  obtain ⟨_, _, rs', hfirst', hst', -⟩ := runSteps_cons_eq_some.mp hst
  rw [hfirst] at hfirst'
  cases hfirst'
  exact ⟨st₀, rs', hexec, hl, hinv, hrun.2 _ st₀ hfirst, hst'⟩

/-- What holds after the first start and is kept by every operation holds throughout every run
that starts on an empty store. -/
theorem effect_induction (hp : p ≠ 0) {N : Set ObjName} {P : Store → Op → Prop} {Inv : Store → Prop}
    (hallowed : ∀ {st op}, P st op → Allowed p N st op)
    (hstart : ∀ {st}, Loads (Store.started {}) st place p → Inv st)
    (hkeep : ∀ {st op r st'}, RunInv st p → Inv st → P st op → StepEffect p st op r st' → Inv st')
    (hrun : Along (step p) P (.restart place :: ops) {})
    (hst : runSteps (step p) (.restart place :: ops) {} = some (rs, st)) :
    RunInv st p ∧ Inv st := by
  obtain ⟨st₀, rs', -, hl, hinv, hrest, hst'⟩ := run_first hp hrun (hallowed hrun.1) hst
  have hstep : ∀ {s op r s'}, RunInv s p ∧ Inv s → P s op → step p s op = some (r, s') →
      RunInv s' p ∧ Inv s' := by
    intro s op r s' hs hop h
    have heff := step_effect hs.1 (hallowed hop) h
    exact ⟨heff.runInv hs.1, hkeep hs.1 hs.2 hop heff⟩
  exact runSteps_inv_of_some hstep ⟨hinv, hstart hl⟩ hrest hst'

/-- Every run that starts on an empty store keeps the invariant. -/
theorem runInv_of_run (hp : p ≠ 0) {N : Set ObjName}
    (hrun : Along (step p) (Allowed p N) (.restart place :: ops) {})
    (hst : runSteps (step p) (.restart place :: ops) {} = some (rs, st)) : RunInv st p := by
  have hall : RunInv st p ∧ True :=
    effect_induction hp (fun hop => hop) (fun _ => trivial) (fun _ _ _ _ => trivial) hrun hst
  exact hall.1

end Effect
