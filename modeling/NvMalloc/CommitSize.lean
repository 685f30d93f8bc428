/-
# The committed size of an object

`nv_commit_len` stores the size it is given, and a re-allocation copies the committed size of
the old chunk to the new one; neither looks at the length of the object.  All other writes to
chunk records keep the length and do not raise the committed size, so in a run of any processes
in which those two are given sizes that fit, no committed size ever exceeds the length.
-/
import NvMalloc.Keeps
import NvMalloc.Routine

open WriteM WriteGhost Function

/-- An operation of process `p`. -/
def procStep (st : Store) (e : ℕ × Op) : Option (Ret × Store) := step e.1 st e.2

/-- The search of `nv_record_chunk` for a live object of the name. -/
def searchOld (p : ℕ) (n : ObjName) (bytes : ℕ) : NvM (Option ChunkPtr) := do
  let _ ← findOrCreateProcess p
  checkIfChunkExists (allocRqst p n bytes)

/-- The chunk that an allocation takes the contents of the object from. -/
def oldChunk (st : Store) (p : ℕ) (n : ObjName) (bytes : ℕ) : Option ChunkPtr :=
  (searchOld p n bytes st).bind Prod.fst

/-- The committed size of every object is within its length, and so is the size that a read
reports. -/
structure CommitsWithin (st : Store) : Prop where
  chunk : ∀ c, (st.disk.chunk c).valid = .VALID →
    (st.disk.chunk c).commitsz ≤ (st.disk.chunk c).length
  read : ∀ {p n place o st'}, step p st (.read n place) = some (.object (some o), st') →
    o.commitsz ≤ o.bytes.length

/-- The size passed to a commit is within the object, and the size passed to an allocation is
not below what is committed of the object so far. -/
def SizeFits (st : Store) : ℕ × Op → Prop
  | (p, .commit n size) => ∀ c ∈ foundChunk st (request p n), toUint size ≤ (st.disk.chunk c).length
  | (p, .alloc n bytes _) => ∀ c ∈ oldChunk st p n bytes, (st.disk.chunk c).commitsz ≤ toUint bytes
  | _ => True

instance (st : Store) : (e : ℕ × Op) → Decidable (SizeFits st e) := by
  rintro ⟨p, op⟩
  refine op.casesOn ?_ ?_ ?_ ?_ ?_ ?_ ?_ ?_ <;> intros <;> dsimp only [SizeFits] <;> infer_instance

/-- No committed size exceeds the length in the same record, valid or not: `nv_rename` makes a
deleted chunk valid again. -/
def Sized (st : Store) : Prop := ∀ c, (st.disk.chunk c).commitsz ≤ (st.disk.chunk c).length

/-- No committed size exceeds the length, nor what it was in `st₀`. -/
def SizedSince (st₀ st : Store) : Prop :=
  ∀ c, (st.disk.chunk c).commitsz ≤ (st.disk.chunk c).length ∧
    (st.disk.chunk c).commitsz ≤ (st₀.disk.chunk c).commitsz

/-! ## Writes that keep sizes -/

section Records

variable {R : ChunkPtr → Chunkobj → Prop}

/-- A property of chunk records that writes which keep sizes keep, and that blank records have. -/
structure SizeProperty (R : ChunkPtr → Chunkobj → Prop) : Prop where
  edit : ∀ {k f r}, KeepsSizes f → R k r → R k (f r)
  blank : ∀ k, R k {}

theorem SizeProperty.update (hR : SizeProperty R) {chunk : ChunkPtr → Chunkobj} {k : ChunkPtr}
    {f : Chunkobj → Chunkobj} (hf : KeepsSizes f) (h : ∀ k, R k (chunk k)) (k' : ChunkPtr) :
    R k' (update chunk k (f (chunk k)) k') := by
  by_cases hk : k' = k
  · subst hk
    rw [update_self]
    exact hR.edit hf (h k')
  · rw [update_of_ne hk]
    exact h k'

theorem SizeProperty.ordinary (hR : SizeProperty R) :
    Ordinary {} fun st : Store => ∀ k, R k (st.disk.chunk k) where
  chunk _ _ hf h := hR.update hf h
  byte _ _ _ h := h
  names _ h := h
  chunkmap _ _ _ h := h
  mmapobj _ _ h := h
  chunkTree _ h := h
  newTree _ _ _ h := h
  flag _ h := h
  fields _ _ h := h
  metaFile {st} m h k := by
    show R k (if k.file = m then {} else st.disk.chunk k)
    split
    · exact hR.blank k
    · exact h k
  dataFile _ _ h := h
  mapTree _ _ _ h := h
  procVmas _ _ h := h
  strtAddr _ _ _ _ h := h
  insert _ _ _ _ _ h := h

variable (R) in
theorem admits_records (x : ℕ) : Admits {} (fun st : Store => ∀ k, R k (st.disk.chunk k)) x where
  procFile _ _ h := h
  start _ h := h
  addProc _ _ h := h

variable (R) in
theorem reopens_records (x : ℕ) : Reopens {} (fun st : Store => ∀ k, R k (st.disk.chunk k)) x where
  enter _ _ h := h
  mapMeta _ _ h := h
  close h := h
  dropTree h := h
  register _ h := h

end Records

theorem sizeProperty_sized : SizeProperty fun _ r => r.commitsz ≤ r.length where
  edit {_ f r} hf h := by
    rw [hf.length]
    exact (hf.commitsz r).trans h
  blank _ := le_rfl

theorem sizeProperty_sizedSince (st₀ : Store) : SizeProperty fun k r =>
    r.commitsz ≤ r.length ∧ r.commitsz ≤ (st₀.disk.chunk k).commitsz where
  edit {_ f r} hf h := by
    rw [hf.length]
    exact ⟨(hf.commitsz r).trans h.1, (hf.commitsz r).trans h.2⟩
  blank _ := ⟨le_rfl, Nat.zero_le _⟩

theorem sized_ordinary : Ordinary {} Sized := sizeProperty_sized.ordinary

theorem sized_admits (x : ℕ) : Admits {} Sized x :=
  admits_records (fun _ r => r.commitsz ≤ r.length) x

theorem sized_reopens (x : ℕ) : Reopens {} Sized x :=
  reopens_records (fun _ r => r.commitsz ≤ r.length) x

theorem sizedSince_ordinary (st₀ : Store) : Ordinary {} (SizedSince st₀) :=
  (sizeProperty_sizedSince st₀).ordinary

theorem sizedSince_admits (st₀ : Store) (x : ℕ) : Admits {} (SizedSince st₀) x :=
  admits_records (fun k r => r.commitsz ≤ r.length ∧ r.commitsz ≤ (st₀.disk.chunk k).commitsz) x

section Sizes

variable {st st' st₀ : Store} {p : ℕ}

theorem Sized.wpc_loadProcess (h : Sized st) (place : DataFile → ℕ) (x : ℕ) :
    Wpc (fun _ st' => Sized st' ∧ True) Sized (loadProcess place x) st :=
  sized_ordinary.wpc_loadProcess (sized_admits x) h (sized_reopens _) place

/-! ## The new chunk of an allocation -/

/-- The record of chunk `k` now says `bytes` bytes, of which none is committed. -/
structure Filled (st st' : Store) (k : ChunkPtr) (bytes : ℕ) : Prop where
  other : ∀ {k'}, k' ≠ k → st'.disk.chunk k' = st.disk.chunk k'
  length : (st'.disk.chunk k).length = toUint bytes
  commitsz : (st'.disk.chunk k).commitsz = 0

variable {k : ChunkPtr} {bytes : ℕ}

theorem Filled.of_chunk {st₁ : Store} (h : Filled st st₁ k bytes)
    (hsame : st'.disk.chunk = st₁.disk.chunk) : Filled st st' k bytes := by
  refine ⟨fun hk => ?_, ?_, ?_⟩
  · rw [hsame, h.other hk]
  · rw [hsame, h.length]
  · rw [hsame, h.commitsz]

/-- Storing bytes changes no chunk record. -/
theorem filled_storeBytes {st₁ st₂ : Store} {a : ℕ} {bs : List UInt8} {ws : List Write}
    (h : Filled st st₁ k bytes) (hws : st₂.storeBytes a bs = some ws) :
    Wpc (fun _ st' => Filled st st' k bytes) (fun _ => True) (emits ws : NvM Unit) st₁ := by
  have hkeep : Wpc (fun _ st' => Filled st st' k bytes) (fun st' => Filled st st' k bytes)
      (emits ws : NvM Unit) st₁ := by
    refine wpc_emits (fun w hw c hc => ?_) h
    obtain ⟨f, o, b, rfl⟩ := mem_storeBytes hws hw
    exact hc.of_chunk rfl
  exact hkeep.cut_mono fun _ _ => trivial

theorem filled_updateChunkobj (rqst : Rqst) (offset nvPtr : ℕ) (q : MmapPtr) (k : ChunkPtr) :
    Wpc (fun _ st' => Filled st st' k rqst.bytes) (fun _ => True)
      (updateChunkobj rqst offset nvPtr q k) st := by
  refine wpc_state_bind ?_
  iterate 8 refine wpc_emit_bind trivial ?_
  refine wpc_lift_bind fun ws hws => wpc_bind (Wpc.post_mono
    (Q := fun _ st' => Filled st st' k rqst.bytes) (filled_storeBytes ?_ hws) ?_)
  · refine ⟨fun hk => ?_, ?_, ?_⟩ <;>
      simp [WriteEffect.apply, Store.apply, Disk.apply, update_of_ne, *]
  · intro _ c hc
    refine wpc_assert_bind fun _ => wpc_emit trivial trivial ⟨fun hk => ?_, ?_, ?_⟩
    · exact (update_of_ne hk ..).trans (hc.other hk)
    · show (update c.disk.chunk k _ k).length = _
      rw [update_self]
      exact hc.length
    · show (update c.disk.chunk k _ k).commitsz = _
      rw [update_self]
      exact hc.commitsz

theorem filled_addChunkToMmapobj (rqst : Rqst) (offset nvPtr : ℕ) (q : MmapPtr) :
    Wpc (fun k st' => Filled st st' k rqst.bytes) (fun _ => True)
      (addChunkToMmapobj rqst offset nvPtr q) st := by
  have hcreate : Wpc (fun k st' => Filled st st' k rqst.bytes) (fun _ => True)
      (createChunkobj rqst offset nvPtr q) st := by
    refine wpc_state_bind (wpc_lift_bind fun file _ => wpc_assert_bind fun _ => ?_)
    refine wpc_emit_bind trivial (wpc_bind ((filled_updateChunkobj _ _ _ _ _).post_mono ?_))
    intro _ c hc
    exact wpc_pure trivial ⟨hc.other, hc.length, hc.commitsz⟩
  refine wpc_bind (hcreate.post_mono fun k c hc => wpc_bind ?_)
  refine wpc_state_bind
    (wpc_lift_bind fun _ _ => wpc_assert_bind fun _ => wpc_lift_bind fun _ _ => ?_)
  refine wpc_emit_bind trivial (wpc_emit trivial trivial (wpc_pure trivial ?_))
  exact hc.of_chunk rfl

/-- The contents move to a chunk that is long enough for what is committed of them. -/
theorem sized_replaceChunk (h : Sized st) (id : ℕ) {old : Option ChunkPtr}
    (hold : ∀ o ∈ old, (st.disk.chunk o).commitsz ≤ (st.disk.chunk k).length) :
    Wpc (fun _ => Sized) (fun _ => True) (replaceChunk id k old) st := by
  cases old with
  | none => exact wpc_pure trivial h
  | some o =>
    have hle := hold o rfl
    refine wpc_state_bind (wpc_lift_bind fun _ _ => wpc_lift_bind fun ws hws => ?_)
    have hsame : Wpc (fun _ st' => st'.disk.chunk = st.disk.chunk)
        (fun st' => st'.disk.chunk = st.disk.chunk) (emits ws : NvM Unit) st := by
      refine wpc_emits (fun w hw c hc => ?_) rfl
      obtain ⟨f, o, b, rfl⟩ := mem_storeBytes hws hw
      exact hc
    refine wpc_bind ((hsame.cut_mono fun _ _ => trivial).post_mono fun _ c hc => ?_)
    let c' : Store := WriteEffect.apply c
      (Write.chunk k fun r => { r with commitsz := (st.disk.chunk o).commitsz })
    have hcopied : Sized c' := by
      intro k'
      by_cases hk : k' = k
      · subst hk
        rw [show c'.disk.chunk k' =
          { c.disk.chunk k' with commitsz := (st.disk.chunk o).commitsz } from
          update_self .., hc]
        exact hle
      · rw [show c'.disk.chunk k' = c.disk.chunk k' from update_of_ne hk .., hc]
        exact h k'
    refine wpc_emit_bind trivial (wpc_bind ?_)
    exact ((sized_ordinary.wpc_nvDelete hcopied _).cut_mono fun _ _ => trivial).post_mono
      fun _ c' hc' => wpc_pure trivial hc'

/-- The second part of an allocation. -/
theorem sized_recordBlock (h : SizedSince st₀ st) (rqst : Rqst) (addr : ℕ) (q : MmapPtr)
    (node : MmapobjNode) {old : Option ChunkPtr}
    (hold : ∀ o ∈ old, (st₀.disk.chunk o).commitsz ≤ toUint rqst.bytes) :
    Wpc (fun _ => Sized) (fun _ => True) (recordBlock rqst addr (q, node, old)) st := by
  refine wpc_assert_bind fun _ => wpc_bind ((filled_addChunkToMmapobj _ _ _ _).post_mono ?_)
  intro k c hc
  have hsized : Sized c := by
    intro k'
    by_cases hk : k' = k
    · subst hk
      rw [hc.commitsz]
      exact Nat.zero_le _
    · rw [hc.other hk]
      exact (h k').1
  refine wpc_emit_bind trivial (wpc_bind ((sized_replaceChunk ?_ _ ?_).post_mono ?_))
  · exact hsized
  · intro o ho
    show (c.disk.chunk o).commitsz ≤ (c.disk.chunk k).length
    rw [hc.length]
    by_cases hk : o = k
    · subst hk
      rw [hc.commitsz]
      exact Nat.zero_le _
    · rw [hc.other hk]
      exact (h o).2.trans (hold o ho)
  · intro _ c' hc'
    exact wpc_emit trivial trivial hc'

/-! ## Operations -/

/-- The chunk that `nv_record_chunk` finds. -/
theorem old_recordRegion (n : ObjName) (bytes addr : ℕ) :
    Wpc (fun r _ => oldChunk st p n bytes = r.2.2) (fun _ => True)
      (recordRegion (allocRqst p n bytes) addr) st := by
  refine wpc_state_bind (wpc_assert_bind fun _ => wpc_bind ?_)
  intro x ws₁ hproc
  refine ⟨wpc_bind ?_, fun _ => trivial⟩
  intro old ws₂ hcheck
  have hsearch : searchOld p n bytes st = some (old, ws₁ ++ ws₂) := run_bind hproc hcheck
  have hold : oldChunk st p n bytes = old := by
    rw [oldChunk, hsearch]
    rfl
  refine ⟨wpc_state_bind (wpc_lift_bind fun node _ => wpc_assert_bind fun _ => ?_), fun _ =>
    trivial⟩
  refine wpc_assert_bind fun _ => wpc_bind ?_
  intro q ws₃ _
  exact ⟨wpc_pure trivial hold, fun _ => trivial⟩

theorem sized_alloc (h : Sized st) {n : ObjName} {addr : ℕ} {r : Ret}
    (hfit : SizeFits st (p, .alloc n bytes addr))
    (hs : step p st (.alloc n bytes addr) = some (r, st')) : Sized st' := by
  obtain ⟨⟨⟩, hexec, heq⟩ := Option.map_eq_some_iff.mp hs
  cases heq
  rw [nvRecordChunk_eq] at hexec
  obtain ⟨⟨_, us⟩, hrun, heq⟩ := Option.map_eq_some_iff.mp hexec
  cases heq
  obtain ⟨⟨q, node, old⟩, ws, ws', hregion, hblock, rfl⟩ := run_bind_eq_some.mp hrun
  have hstart : SizedSince st st := fun c => ⟨h c, le_rfl⟩
  have hmid : SizedSince st (applyAll st ws) :=
    ((sizedSince_ordinary st).wpc_recordRegion (sizedSince_admits st p) hstart addr _ ws
    hregion).1.1
  rw [applyAll_append]
  refine (sized_recordBlock hmid (allocRqst p n bytes) addr q node ?_ _ ws' hblock).1
  intro o ho
  refine hfit o ?_
  rw [(old_recordRegion n bytes addr _ ws hregion).1]
  exact ho

/-- The search for a chunk changes no chunk record. -/
theorem chunk_getChunk (rqst : Rqst) :
    Wpc (fun _ st' => st'.disk.chunk = st.disk.chunk) (fun _ => True) (getChunk rqst) st := by
  refine wpc_assert_bind fun _ => wpc_assert_bind fun _ => wpc_state_bind ?_
  split
  · exact wpc_pure trivial rfl
  · refine wpc_bind (wpc_state_bind (wpc_lift_bind fun h _ => ?_))
    split
    · split
      · exact wpc_pure trivial (wpc_pure trivial rfl)
      · refine wpc_lift_bind fun tree _ => wpc_lift_bind fun v _ => wpc_pure trivial ?_
        split
        · exact wpc_pure trivial rfl
        · exact wpc_state_bind (wpc_lift trivial fun _ _ => rfl)
    · refine wpc_bind (wpc_state_bind (wpc_lift_bind fun h _ => ?_))
      split
      · exact wpc_emit_bind trivial
          (wpc_emit trivial trivial (wpc_pure trivial (wpc_pure trivial rfl)))
      · exact wpc_pure trivial (wpc_pure trivial (wpc_pure trivial rfl))

theorem sized_commit (h : Sized st) {n : ObjName} {size : ℕ} {r : Ret}
    (hfit : SizeFits st (p, .commit n size))
    (hs : step p st (.commit n size) = some (r, st')) : Sized st' := by
  obtain ⟨⟨a, st₁⟩, hexec, heq⟩ := Option.map_eq_some_iff.mp hs
  cases heq
  refine Wpc.final (Q := fun _ => Sized) (C := fun _ => True) (wpc_bind ?_) hexec
  intro found ws hget
  have hsame : (applyAll st ws).disk.chunk = st.disk.chunk := (chunk_getChunk _ _ ws hget).1
  refine ⟨wpc_lift_bind fun k hk => ?_, fun _ => trivial⟩
  have hsize : toUint size ≤ (st.disk.chunk k).length := by
    refine hfit k ?_
    rw [foundChunk, show getChunk (request p n) st = some (found, ws) from hget, hk]
    rfl
  refine wpc_emit_bind trivial (wpc_state_bind (wpc_assert_bind fun _ => wpc_pure trivial ?_))
  intro k'
  by_cases hkk : k' = k
  · subst hkk
    show (update (applyAll st ws).disk.chunk k' _ k').commitsz ≤
      (update (applyAll st ws).disk.chunk k' _ k').length
    rw [update_self, hsame]
    exact hsize
  · show (update (applyAll st ws).disk.chunk k _ k').commitsz ≤
      (update (applyAll st ws).disk.chunk k _ k').length
    rw [update_of_ne hkk, hsame]
    exact h k'

/-- Every operation whose sizes fit keeps the committed sizes within the lengths. -/
theorem Sized.step (h : Sized st) {op : Op} {r : Ret} (hfit : SizeFits st (p, op))
    (hs : step p st op = some (r, st')) : Sized st' := by
  cases op with
  | alloc n bytes addr => exact sized_alloc h hfit hs
  | commit n size => exact sized_commit h hfit hs
  | mmap size addr =>
    obtain ⟨⟨a, st₁⟩, hexec, heq⟩ := Option.map_eq_some_iff.mp hs
    cases heq
    exact (sized_ordinary.wpc_mmapRegion (sized_admits p) h size addr).final hexec
  | delete n =>
    obtain ⟨⟨a, st₁⟩, hexec, heq⟩ := Option.map_eq_some_iff.mp hs
    cases heq
    exact (sized_ordinary.wpc_nvDelete h _).final hexec
  | read n place =>
    obtain ⟨⟨a, st₁⟩, hexec, heq⟩ := Option.map_eq_some_iff.mp hs
    cases heq
    exact ((sized_ordinary.wpc_readObject h (fun _ => h.wpc_loadProcess place p) n).final hexec).1
  | write n off bs =>
    obtain ⟨⟨a, st₁⟩, hexec, heq⟩ := Option.map_eq_some_iff.mp hs
    cases heq
    exact (sized_ordinary.wpc_writeObject h (fun _ => h.wpc_loadProcess _ p) n off bs).final hexec
  | rename s d =>
    obtain ⟨⟨a, st₁⟩, hexec, heq⟩ := Option.map_eq_some_iff.mp hs
    cases heq
    exact (sized_ordinary.wpc_nvRename h _ d).final hexec
  | restart place =>
    obtain ⟨st₁, hrestart, heq⟩ := Option.map_eq_some_iff.mp hs
    cases heq
    obtain ⟨⟨a, st₁⟩, hexec, heq⟩ := Option.map_eq_some_iff.mp hrestart
    cases heq
    have hreboot : Sized st.reboot := h
    exact (sized_ordinary.wpc_nvInitialize (sized_admits p) hreboot (fun h => h) (sized_reopens _)
      place).final hexec

theorem Sized.commitsWithin (h : Sized st) : CommitsWithin st := by
  refine ⟨fun c _ => h c, ?_⟩
  intro p n place o st' hs
  obtain ⟨⟨a, st₁⟩, hexec, heq⟩ := Option.map_eq_some_iff.mp hs
  cases heq
  obtain ⟨hsized, hread⟩ :=
    (sized_ordinary.wpc_readObject h (fun _ => h.wpc_loadProcess place p) n).final hexec
  obtain ⟨k, hlength, hcommit, hbytes⟩ := hread o rfl
  rw [hbytes, hlength, hcommit]
  exact hsized k

end Sizes

/-- **Committed sizes stay within the objects.**  In every run of any processes in which each
commit is given a size within its object, and no object is allocated anew with less than what
is committed of it, every state has its committed sizes within the lengths. -/
theorem commitsWithin_of_run (es : List (ℕ × Op)) (hrun : Along procStep SizeFits es {})
    {rs : List Ret} {st : Store} (hst : runSteps procStep es {} = some (rs, st)) :
    CommitsWithin st := by
  have hstart : Sized {} := fun _ => le_rfl
  have hstep : ∀ {s : Store} {e : ℕ × Op} {r : Ret} {s' : Store}, Sized s → SizeFits s e →
      procStep s e = some (r, s') → Sized s' := fun h hfit hs => h.step hfit hs
  exact (runSteps_inv_of_some hstep hstart hrun hst).commitsWithin

/-- An object of 64 bytes, committed in full, and allocated anew with 80 bytes in another region. -/
def growRun : List (ℕ × Op) :=
  [(1, .restart fun _ => 0), (1, .mmap 4096 4096), (1, .mmap 4096 12288),
    (1, .alloc nameA 64 12288),
    (1, .commit nameA 64), (1, .alloc nameA 80 4096)]

/-- The assumptions are met by a run. -/
theorem commitsWithin_growRun :
    ∃ rs st, runSteps procStep growRun {} = some (rs, st) ∧ CommitsWithin st := by
  have hsome : (runSteps procStep growRun {}).isSome = true := by decide +kernel
  obtain ⟨⟨rs, st⟩, hst⟩ := Option.isSome_iff_exists.mp hsome
  exact ⟨rs, st, hst, commitsWithin_of_run growRun (by decide +kernel) hst⟩

/-- An object of 16 bytes with 100 bytes committed. -/
def commitRun : List (ℕ × Op) :=
  [(1, .restart fun _ => 0), (1, .mmap 4096 4096), (1, .alloc nameA 16 4096),
    (1, .commit nameA 100)]

/-- An object of 64 bytes, committed in full, and allocated anew with 16 bytes. -/
def shrinkRun : List (ℕ × Op) :=
  [(1, .restart fun _ => 0), (1, .mmap 4096 4096), (1, .mmap 4096 12288),
    (1, .alloc nameA 64 12288),
    (1, .commit nameA 64), (1, .alloc nameA 16 4096)]

/-- What the record of a chunk says after a run. -/
def recordAfter (es : List (ℕ × Op)) (k : ChunkPtr) : Option Chunkobj :=
  (runSteps procStep es {}).map fun x => x.2.disk.chunk k

theorem not_commitsWithin_of_record {es : List (ℕ × Op)} (k : ChunkPtr)
    (h : (recordAfter es k).any fun r => r.valid = .VALID ∧ r.length < r.commitsz) :
    ∃ rs st, runSteps procStep es {} = some (rs, st) ∧ ¬ CommitsWithin st := by
  cases hrun : runSteps procStep es {} with
  | none =>
    rw [recordAfter, hrun] at h
    cases h
  | some x =>
    obtain ⟨rs, st⟩ := x
    rw [recordAfter, hrun] at h
    obtain ⟨hv, hlt⟩ := of_decide_eq_true h
    exact ⟨rs, st, rfl, fun hc => absurd (hc.chunk k hv) (Nat.not_le.mpr hlt)⟩

/-- A commit of more than the object has, and an allocation of less than is committed. -/
theorem not_commitsWithin_runs :
    (∃ rs st, runSteps procStep commitRun {} = some (rs, st) ∧ ¬ CommitsWithin st) ∧
      ∃ rs st, runSteps procStep shrinkRun {} = some (rs, st) ∧ ¬ CommitsWithin st := by
  refine ⟨not_commitsWithin_of_record ⟨metaOf 1 1, 0⟩ ?_,
    not_commitsWithin_of_record ⟨metaOf 1 1, 0⟩ ?_⟩
  · decide +kernel
  · decide +kernel
