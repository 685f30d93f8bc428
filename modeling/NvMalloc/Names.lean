/-
# Distinct names

Objects are found by the 32-bit hash of their name alone (`get_chunk` never compares the
stored `objname`), and the id `0` is refused.  So two names with one hash are one object,
and a name with hash `0` cannot be allocated.

On names with different hashes that are not `0` the store keeps them apart
(`Distinct`), as long as every tree entry is under the id in the record of its chunk
(`Keyed`).  All operations but a rename keep it so, and a restart restores it.
-/
import NvMalloc.Rename

open WriteM Function

/-! ## The property -/

/-- The allocator hands out a block of a region of the process that overlaps no object,
and there is room for the records. -/
def Promised (p : ℕ) (st : Store) (bytes addr : ℕ) : Prop :=
  ∃ nd, BlockOf st p nd addr bytes ∧ Backed nd addr bytes ∧ MetaRoom st p nd ∧
    Unused st p addr bytes

/-- The operations that are about name `m`, and not about name `n`. -/
def Concerns (p : ℕ) (N : Set ObjName) (st : Store) (m n : ObjName) : Op → Prop
  | .alloc m' bytes addr => m' = m ∧ Promised p st bytes addr
  | .commit m' _ => m' = m
  | .delete m' => m' = m
  | .rename s d => s = m ∧ d ∈ N ∧ d ≠ n
  | _ => False

/-- Allocating, committing, renaming or deleting one name of `N` never changes what
reading another one returns, and allocating a name of `N` succeeds. -/
def Distinct (p : ℕ) (N : Set ObjName) (st : Store) : Prop :=
  (∀ n ∈ N, ∀ m ∈ N, n ≠ m → ∀ op r st', Concerns p N st m n op →
    step p st op = some (r, st') → observe p st' n = observe p st n) ∧
  ∀ m ∈ N, ∀ bytes addr, Promised p st bytes addr → (step p st (.alloc m bytes addr)).isSome

/-- Under id `k` the same chunk is found in both stores, and it holds the same object. -/
structure SameAt (d d' : Disk) (p k : ℕ) : Prop where
  finds : ∀ {q c}, Finds d p k q c → Finds d' p k q c
  missing : Missing d p k → Missing d' p k
  valid : ∀ {q c}, Finds d p k q c → (d'.chunk c).valid = (d.chunk c).valid
  value : ∀ {q c}, Finds d p k q c → (d.chunk c).valid = .VALID → d'.value c = d.value c

/-- Every tree entry is under the id in the record of its chunk. -/
def Keyed (d : Disk) (p : ℕ) : Prop :=
  ∀ ⦃q k c⦄, IsRegion d.shape p q → d.entry q k = some c → (d.chunk c).chunkid = k

variable {p : ℕ}

theorem SameAt.trans {d d' d'' : Disk} {k : ℕ} (h : SameAt d d' p k) (h' : SameAt d' d'' p k) :
    SameAt d d'' p k := by
  refine ⟨fun hf => h'.finds (h.finds hf), fun hm => h'.missing (h.missing hm), ?_, ?_⟩
  · intro q c hf
    rw [h'.valid (h.finds hf), h.valid hf]
  · intro q c hf hv
    rw [h'.value (h.finds hf) ((h.valid hf).trans hv), h.value hf hv]

/-- What is read under a name depends on the chunk found for it. -/
theorem SameAt.observe_eq {st st' : Store} {n : ObjName} (hi : StoreInv st p) (hi' : StoreInv st' p)
    (h : SameAt st.disk st'.disk p (genIdFromStr n)) :
    observe p st' n = observe p st n := by
  rcases finds_or_missing hi (genIdFromStr n) with ⟨q, c, hf⟩ | hm
  · rw [observe, observe, step, step, readObject_of_finds hi hf,
      readObject_of_finds hi' (h.finds hf), h.valid hf]
    cases hv : (st.disk.chunk c).valid with
    | VALID =>
      rw [h.value hf hv]
      rfl
    | INVALID => rfl
  · rw [observe, observe, step, step, readObject_of_missing hi hm,
      readObject_of_missing hi' (h.missing hm)]
    rfl

section Effects

variable {p k : ℕ} {st st' : Store}
  {q : MmapPtr} {c : ChunkPtr} {entry : MmapPtr → ℕ → Option ChunkPtr} {r : Chunkobj}

theorem Keyed.holds (hk : Keyed st.disk p) (hi : StoreInv st p) (hf : Finds st.disk p k q c)
    (hv : (st.disk.chunk c).valid = .VALID) :
    Holds st.disk p k c := ⟨hi.loaded.indexed hf.indexed, hv, hk hf.region hf.entry⟩

/-- Chunks found under different ids are different. -/
theorem Keyed.ne (hk : Keyed st.disk p) {k' : ℕ} (hne : k ≠ k') {q' : MmapPtr} {c' : ChunkPtr}
    (hf : Finds st.disk p k q c) (hf' : Finds st.disk p k' q' c') : c ≠ c' := by
  rintro rfl
  exact hne ((hk hf.region hf.entry).symm.trans (hk hf'.region hf'.entry))

/-! ## Changes of one chunk -/

/-- A change that leaves the entries under `k` and the chunk found there alone. -/
theorem Effect.sameAt {chunk : ChunkPtr → Chunkobj}
    {data : DataFile → Option DataContent} (he : Effect st st' chunk entry data)
    (hentry : ∀ q, entry q k = st.disk.entry q k)
    (hvalid : ∀ {q c}, Finds st.disk p k q c → (chunk c).valid = (st.disk.chunk c).valid)
    (hvalue : ∀ {q c}, Finds st.disk p k q c → (st.disk.chunk c).valid = .VALID →
      st'.disk.value c = st.disk.value c) : SameAt st.disk st'.disk p k := by
  refine ⟨?_, ?_, ?_, hvalue⟩
  · intro q c hf
    refine ⟨?_, ?_, ?_⟩
    · rw [he.frame.shape_eq]
      exact hf.region
    · rw [he.entry, hentry]
      exact hf.entry
    · intro q' hq' hlt
      rw [he.frame.shape_eq] at hq'
      rw [he.frame.vmaId_eq, he.frame.vmaId_eq] at hlt
      rw [he.entry, hentry]
      exact hf.greatest hq' hlt
  · intro hm q hq
    rw [he.frame.shape_eq] at hq
    rw [he.entry, hentry]
    exact hm q hq
  · intro q c hf
    rw [he.chunk]
    exact hvalid hf

/-- The same for a change of the record of a chunk found under another id. -/
theorem Effect.sameAt_update
    (he : Effect st st' (update st.disk.chunk c r) entry st.disk.data)
    (hk : Keyed st.disk p) {k' : ℕ} (hne : k ≠ k') (hf : Finds st.disk p k' q c)
    (hentry : ∀ q, entry q k = st.disk.entry q k) : SameAt st.disk st'.disk p k := by
  have hother : ∀ {q' c'}, Finds st.disk p k q' c' →
      update st.disk.chunk c r c' = st.disk.chunk c' :=
    fun hf' => update_of_ne (hk.ne hne hf' hf) ..
  refine he.sameAt hentry (fun hf' => by rw [hother hf']) ?_
  intro q' c' hf' _
  exact he.value_eq (hother hf') rfl

/-- A change that enters nothing and keeps the ids. -/
theorem Effect.keyed {chunk : ChunkPtr → Chunkobj} {data : DataFile → Option DataContent}
    (he : Effect st st' chunk entry data) (hk : Keyed st.disk p)
    (hentry : ∀ {q k c}, entry q k = some c → st.disk.entry q k = some c)
    (hid : ∀ c, (chunk c).chunkid = (st.disk.chunk c).chunkid) : Keyed st'.disk p := by
  intro q k c hq hqc
  rw [he.frame.shape_eq] at hq
  rw [he.entry] at hqc
  rw [he.chunk, hid]
  exact hk hq (hentry hqc)

theorem chunkid_update (hr : r.chunkid = (st.disk.chunk c).chunkid) (c' : ChunkPtr) :
    (update st.disk.chunk c r c').chunkid = (st.disk.chunk c').chunkid := by
  by_cases hcc : c' = c
  · subst hcc
    rw [update_self, hr]
  · rw [update_of_ne hcc]

/-! ## Room and new chunks -/

theorem Grown.sameAt {d d' : Disk} (h : Grown d d' p)
    (hscan : ∀ {q c}, Finds d p k q c → InScan d.shape p c) : SameAt d d' p k := by
  refine ⟨h.finds, ?_, ?_, ?_⟩
  · intro hm q hq
    rcases h.blank hq with hq' | ⟨-, hno⟩
    · rw [h.entry hq']
      exact hm q hq'
    · exact hno k
  · intro q c hf
    rw [h.chunk (hscan hf)]
  · intro q c hf _
    rw [Disk.value, Disk.value, h.chunk (hscan hf), h.bytes (hscan hf)]

theorem Grown.keyed {d d' : Disk} (h : Grown d d' p) (hk : Keyed d p)
    (hscan : ∀ {q k c}, IsRegion d.shape p q → d.entry q k = some c → InScan d.shape p c) :
    Keyed d' p := by
  intro q k c hq hqc
  obtain ⟨hq', hqc'⟩ := h.indexed hq hqc
  rw [h.chunk (hscan hq' hqc')]
  exact hk hq' hqc'

/-- A new chunk under another id, in a block that is apart from the objects. -/
theorem sameAt_appendChunk (hi : StoreInv st p) (hk : Keyed st.disk p)
    (hfits : ChunkFits st p q r) (hne : k ≠ r.chunkid)
    (hapart : ∀ {c}, Holds st.disk p k c → c.file = (st.disk.shape.nextChunk q).file →
      (st.disk.chunk c).extent.Disjoint r.extent) :
    SameAt st.disk (st.appendChunk q r).disk p k := by
  obtain ⟨t, ht⟩ := hi.loaded.chunkTree hfits.region hfits.init
  have hentry : ∀ q', (st.appendChunk q r).disk.entry q' k = st.disk.entry q' k := by
    intro q'
    rw [entry_appendChunk hfits.init ht, if_neg fun h => hne h.2]
  have hvma : ∀ q', ((st.appendChunk q r).disk.mmapobj q').vmaId = (st.disk.mmapobj q').vmaId := by
    intro q'
    obtain ⟨_, _, _, hm⟩ := mmapobj_appendChunk st q r q'
    rw [hm]
  have hchunk : ∀ {q' c}, Finds st.disk p k q' c →
      (st.appendChunk q r).disk.chunk c = st.disk.chunk c :=
    fun hf => chunk_appendChunk hi.shape hfits.region (hi.loaded.indexed hf.indexed)
  refine ⟨?_, ?_, ?_, ?_⟩
  · intro q' c hf
    refine ⟨isRegion_appendChunk.mpr hf.region, (hentry q').trans hf.entry, ?_⟩
    intro q'' hq'' hlt
    rw [hvma, hvma] at hlt
    rw [hentry]
    exact hf.greatest (isRegion_appendChunk.mp hq'') hlt
  · intro hm q' hq'
    rw [hentry]
    exact hm q' (isRegion_appendChunk.mp hq')
  · intro q' c hf
    rw [hchunk hf]
  · intro q' c hf hv
    exact value_appendChunk hi hfits (hk.holds hi hf hv) (hapart (hk.holds hi hf hv))

theorem keyed_appendChunk (hi : StoreInv st p) (hk : Keyed st.disk p) (hfits : ChunkFits st p q r) :
    Keyed (st.appendChunk q r).disk p := by
  obtain ⟨t, ht⟩ := hi.loaded.chunkTree hfits.region hfits.init
  intro q' k c hq' hqc
  rw [isRegion_appendChunk] at hq'
  rw [entry_appendChunk hfits.init ht] at hqc
  split at hqc
  · next hnew =>
    cases hqc
    rw [chunk_appendChunk_self, hnew.2]
  · rw [chunk_appendChunk hi.shape hfits.region (hi.loaded.indexed ⟨q', k, hq', hqc⟩)]
    exact hk hq' hqc

/-- Loading a process enters every chunk under the id in its record. -/
theorem Loads.keyed {place : DataFile → ℕ} (h : Loads st st' place p) : Keyed st'.disk p := by
  intro q k c hq hqc
  rw [h.isRegion] at hq
  obtain ⟨-, -, hid⟩ := h.entryIn hq hqc
  exact (congrArg Chunkobj.chunkid (h.chunk c) :).trans hid

end Effects

/-! ## One operation -/

section Step

variable {p k : ℕ} {N : Set ObjName} {st st' : Store} {op : Op} {r : Ret}

theorem Keyed.grown (hk : Keyed st.disk p) (hi : StoreInv st p) {d : Disk} (h : Grown st.disk d p) :
    Keyed d p := h.keyed hk fun hq hqc => hi.loaded.indexed ⟨_, _, hq, hqc⟩

variable {q q₀ qv : MmapPtr} {c old v : ChunkPtr} {n : ObjName} {bytes : ℕ} {nd : MmapobjNode}
  {st₂ : Store} {ws : List Write}

/-- A re-allocation finds the chunk of the name, so its record gets the id it has. -/
theorem Keyed.retag (hk : Keyed st.disk p) (hf : Finds st.disk p k q c) :
    st.retag c k = st := retag_self (hk hf.region hf.entry)

/-- A re-allocation of a live name on any such process. -/
theorem Keyed.moved (hk : Keyed st.disk p) (hi : StoreInv st p) {addr : ℕ}
    (hok : AllocOk st (allocRqst p n bytes) nd addr) (hun : Unused st p addr bytes)
    (hf : Finds st.disk p (genIdFromStr n) q₀ old) (hv : (st.disk.chunk old).valid = .VALID)
    (hre : Reallocated st st₂ st' (allocRqst p n bytes) nd addr q₀ q qv old c v ws) :
    Moved st st₂ st' p n bytes addr nd q₀ q qv old c v ws := by
  have hfound := hre.found
  rw [show (allocRqst p n bytes).varName = n from rfl, hk.retag hf] at hfound
  exact ⟨hi, hok, hk.holds hi hf hv, hf, hun, hfound, hre⟩

theorem keyed_replace (hk : Keyed st.disk p) (hi : StoreInv st p) {addr : ℕ}
    (hok : AllocOk st (allocRqst p n bytes) nd addr) (hf : Finds st.disk p (genIdFromStr n) q₀ old)
    (hre : Reallocated st st₂ st' (allocRqst p n bytes) nd addr q₀ q qv old c v ws) :
    Keyed st₂.disk p ∧ Keyed st'.disk p := by
  have hfound := hre.found
  have hst₂ := hre.append
  rw [show (allocRqst p n bytes).varName = n from rfl, hk.retag hf] at hfound hst₂
  have hk₂ : Keyed st₂.disk p := by
    rw [hst₂]
    exact keyed_appendChunk hfound.ready.inv (hk.grown hi hfound.grown) (hfound.fits hok)
  refine ⟨hk₂, hre.effect.keyed hk₂ ?_ chunkid_replaced⟩
  intro q' k c' hqc
  split at hqc
  · cases hqc
  · exact hqc

/-- The trees stay keyed by the ids in the records, unless an object is renamed. -/
theorem StepEffect.keyed (h : StepEffect p st op r st') (hr : RunInv st p) (hk : Keyed st.disk p)
    (hop : ∀ s d, op ≠ .rename s d) : Keyed st'.disk p := by
  have hi := hr.inv
  cases h with
  | mmap hh hfresh => exact hk.grown hi (grown_mapRegion hi.shape hh)
  | create hok hfree hfound =>
    exact keyed_appendChunk hfound.ready.inv (hk.grown hi hfound.grown) (hfound.fits hok)
  | replace hok hf hv hre => exact (keyed_replace hk hi hok hf hre).2
  | commit hf he => exact he.keyed hk (fun hqc => hqc) (chunkid_update rfl)
  | deleteMissing hm => exact hk
  | deleteLost hf hm =>
    exact (invalidate_effect st _).keyed hk (fun hqc => hqc) (chunkid_update rfl)
  | delete hf hf' =>
    refine (deleteChunk_effect st _ _ _).keyed hk ?_ (chunkid_update rfl)
    intro q' k c' hqc
    split at hqc
    · cases hqc
    · exact hqc
  | read => exact hk
  | write => exact hk
  | renameNothing => exact hk
  | rename hf hf' he => exact absurd rfl (hop _ _)
  | restart hl hinv => exact hl.keyed

/-- A re-allocation of another name. -/
theorem Moved.sameAt {addr : ℕ} (h : Moved st st₂ st' p n bytes addr nd q₀ q qv old c v ws)
    (hk : Keyed st.disk p) (hne : k ≠ genIdFromStr n) : SameAt st.disk st'.disk p k := by
  obtain ⟨hk₂, -⟩ := keyed_replace hk h.inv h.ok h.finds h.realloc
  have hgrown : SameAt st.disk (applyAll st ws).disk p k :=
    h.found.grown.sameAt fun hf => h.inv.loaded.indexed hf.indexed
  have happend : SameAt (applyAll st ws).disk st₂.disk p k := by
    rw [h.st₂_eq]
    exact sameAt_appendChunk h.found.ready.inv (hk.grown h.inv h.found.grown) h.fits hne
      fun hk' hfile => h.found.disjoint h.ok h.unused hk' hfile
  refine (hgrown.trans happend).trans ?_
  -- the chunk of another name is neither the new one nor the victim
  have hvictim : ∀ {q' c'}, Finds st₂.disk p k q' c' → c' ≠ v :=
    fun hf => hk₂.ne hne hf h.realloc.finds
  refine h.realloc.effect.sameAt ?_ ?_ ?_
  · intro q'
    exact if_neg fun hq => hne hq.2
  · intro q' c' hf
    rw [update_of_ne (hvictim hf), valid_copyChunk]
  · intro q' c' hf hv
    have hholds : Holds st.disk p k c' := by
      rcases h.holds₂.mp (hk₂.holds h.realloc.inv hf hv) with hold | ⟨-, hid⟩
      · exact hold
      · exact absurd hid.symm hne
    rw [h.value' hholds (hvictim hf), h.value₂ hholds]

/-- An operation on one name leaves the others alone. -/
theorem StepEffect.sameAt (h : StepEffect p st op r st') (hr : RunInv st p) (hk : Keyed st.disk p)
    (hN : GoodNames N) {m : ObjName} (hn : n ∈ N) (hm : m ∈ N) (hne : n ≠ m)
    (hop : Concerns p N st m n op) : SameAt st.disk st'.disk p (genIdFromStr n) := by
  have hi := hr.inv
  have hid : genIdFromStr n ≠ genIdFromStr m := fun heq => hne (hN.inj hn hm heq)
  have hrefl : SameAt st.disk st.disk p (genIdFromStr n) :=
    ⟨fun hf => hf, fun hmiss => hmiss, fun _ => rfl, fun _ _ => rfl⟩
  cases h with
  | mmap hh hfresh => exact hop.elim
  | create hok hfree hfound =>
    obtain ⟨rfl, _, -, -, -, hun⟩ := hop
    have hgrown := hfound.grown.sameAt (k := genIdFromStr n)
      fun hf => hi.loaded.indexed hf.indexed
    exact hgrown.trans (sameAt_appendChunk hfound.ready.inv (hk.grown hi hfound.grown)
      (hfound.fits hok) hid fun hk' hfile => hfound.disjoint hok hun hk' hfile)
  | replace hok hf hv hre =>
    obtain ⟨rfl, _, -, -, -, hun⟩ := hop
    exact (hk.moved hi hok hun hf hv hre).sameAt hk hid
  | commit hf he =>
    obtain rfl := hop
    exact he.sameAt_update hk hid hf fun _ => rfl
  | deleteMissing hmiss => exact hrefl
  | deleteLost hf hmiss =>
    obtain rfl := hop
    exact (invalidate_effect st _).sameAt_update hk hid hf fun _ => rfl
  | delete hf hf' =>
    obtain rfl := hop
    refine (deleteChunk_effect st _ _ _).sameAt_update hk hid hf fun q => if_neg ?_
    rintro ⟨-, heq⟩
    exact hid (heq.trans (hk hf.region hf.entry))
  | read => exact hop.elim
  | write => exact hop.elim
  | renameNothing => exact hrefl
  | rename hf hf' he =>
    obtain ⟨rfl, hd, hdn⟩ := hop
    refine he.sameAt_update hk hid hf fun q => if_neg ?_
    rintro ⟨-, heq⟩
    exact hdn (hN.inj hd hn heq.symm)
  | restart hl hinv => exact hop.elim

theorem Concerns.allowed {m : ObjName} (hm : m ∈ N) (hop : Concerns p N st m n op) :
    Allowed p N st op := by
  cases op with
  | alloc m' bytes addr =>
    obtain ⟨rfl, nd, hb, -, hroom, -⟩ := hop
    exact ⟨hm, nd, hb, hroom⟩
  | commit m' size => exact hop ▸ hm
  | delete m' => exact hop ▸ hm
  | rename s d =>
    obtain ⟨rfl, hd, -⟩ := hop
    exact ⟨hm, hd⟩
  | mmap | read | write | restart => exact hop.elim

theorem Keyed.distinct (hr : RunInv st p) (hk : Keyed st.disk p) (hN : GoodNames N) :
    Distinct p N st := by
  refine ⟨?_, ?_⟩
  · intro n hn m hm hne op r st' hop hstep
    have heff := step_effect hr (hop.allowed hm) hstep
    exact (heff.sameAt hr hk hN hn hm hne hop).observe_eq hr.inv (heff.runInv hr).inv
  · rintro m hm bytes addr ⟨nd, hb, hback, hroom, -⟩
    exact alloc_isSome hr (hN.pos m hm) hb hback hroom

end Step

/-! ## Whole runs -/

/-- Whether an object was renamed since the last restart, after one more operation. -/
def Op.marks (renamed : Bool) : Op → Bool
  | .restart _ => false
  | .rename _ _ => true
  | _ => renamed

section Run

variable {p : ℕ} {N : Set ObjName}

theorem StepEffect.marks {st st' : Store} {op : Op} {r : Ret} (h : StepEffect p st op r st')
    (hr : RunInv st p) {renamed : Bool} (hk : renamed = false → Keyed st.disk p)
    (hmarks : op.marks renamed = false) : Keyed st'.disk p := by
  cases op with
  | rename s d => cases hmarks
  | restart place =>
    cases h with
    | restart hl hinv => exact hl.keyed
  | mmap | alloc | commit | delete | read | write =>
    exact h.keyed hr (hk hmarks) (by intro s d hop; cases hop)

theorem keyed_of_run {ops : List Op} {renamed : Bool} {st st' : Store}
    {rs : List Ret} (hr : RunInv st p) (hk : renamed = false → Keyed st.disk p)
    (hrun : Along (step p) (Allowed p N) ops st)
    (hst : runSteps (step p) ops st = some (rs, st')) :
    RunInv st' p ∧ (ops.foldl Op.marks renamed = false → Keyed st'.disk p) := by
  induction ops generalizing st renamed rs with
  | nil =>
    cases hst
    exact ⟨hr, hk⟩
  | cons op ops ih =>
    obtain ⟨hop, hrest⟩ := hrun
    obtain ⟨r, st₁, rs', hstep, hst', -⟩ := runSteps_cons_eq_some.mp hst
    have heff := step_effect hr hop hstep
    exact ih (heff.runInv hr) (heff.marks hr hk) (hrest r st₁ hstep) hst'

/-- **When names are kept apart.**  After every run on names with different ids that are
not `0`, in which no object was renamed since the last restart, the names are distinct
objects. -/
theorem distinct_of_goodNames (hp : p ≠ 0) (hN : GoodNames N) (place : DataFile → ℕ) (ops : List Op)
    (hrun : Along (step p) (Allowed p N) (.restart place :: ops) {}) {rs : List Ret} {st : Store}
    (hst : runSteps (step p) (.restart place :: ops) {} = some (rs, st))
    (hren : ops.foldl Op.marks false = false) : Distinct p N st := by
  obtain ⟨st₀, rs', -, hl, hinv, hrest, hst'⟩ := run_first hp hrun hrun.1 hst
  obtain ⟨hr, hk⟩ := keyed_of_run hinv (fun _ => hl.keyed) hrest hst'
  exact (hk hren).distinct hr hN

end Run

/-- Two objects in two regions are kept apart. -/
theorem distinct_twoObjectsRun : (observe 1 (reached 1 twoObjectsRun) nameB).isSome ∧
    Distinct 1 {nameA, nameB} (reached 1 twoObjectsRun) := by
  refine ⟨by decide +kernel, ?_⟩
  have hsome : (runSteps (step 1) twoObjectsRun {}).isSome = true := by decide +kernel
  obtain ⟨⟨rs, st⟩, hst⟩ := Option.isSome_iff_exists.mp hsome
  rw [reached_eq hst]
  exact distinct_of_goodNames (by decide) goodNames_nameAB _ _ allowed_twoObjectsRun hst rfl

/-! ## Names with one hash, and names with hash `0` -/

/-- Two names with one hash are one object. -/
theorem observe_eq_of_id {st : Store} (hi : StoreInv st p) {n m : ObjName}
    (hid : genIdFromStr n = genIdFromStr m) : observe p st n = observe p st m := by
  apply Option.ext
  intro o
  rw [observe_eq_some hi, observe_eq_some hi, hid]

/-- A name with hash `0` cannot be allocated. -/
theorem alloc_of_zero {st : Store} {m : ObjName} (hid : genIdFromStr m = 0) (bytes addr : ℕ) :
    step p st (.alloc m bytes addr) = none := by
  have hget : ∀ st', getChunk (allocRqst p m bytes) st' = none := by
    intro st'
    simp [getChunk, run_bind_eq, Rqst.chunkId, allocRqst, hid]
  have hcheck : ∀ st', checkIfChunkExists (allocRqst p m bytes) st' = none := by
    intro st'
    rw [checkIfChunkExists, run_bind_eq, hget]
    rfl
  cases h : step p st (.alloc m bytes addr) with
  | none => rfl
  | some x =>
    -- the call gets no further than `check_if_chunk_exists`
    obtain ⟨_, hexec, -⟩ := Option.map_eq_some_iff.mp h
    obtain ⟨_, hrun, -⟩ := Option.map_eq_some_iff.mp hexec
    obtain ⟨_, _, _, -, hrun, -⟩ := run_bind_eq_some.mp hrun
    obtain ⟨_, _, _, -, hrun, -⟩ := run_bind_eq_some.mp hrun
    obtain ⟨_, _, _, -, hrun, -⟩ := run_bind_eq_some.mp hrun
    obtain ⟨_, _, _, hstuck, -⟩ := run_bind_eq_some.mp hrun
    rw [hcheck] at hstuck
    cases hstuck

-- there are such names: `xgtgbjj`
example : ∃ m : ObjName, genIdFromStr m = 0 :=
  ⟨⟨[120, 103, 116, 103, 98, 106, 106], by decide, by decide⟩, by decide⟩

/-- `axjgjz`. -/
def nameAx : ObjName := ⟨[97, 120, 106, 103, 106, 122], by decide, by decide⟩

/-- `ziieqj`, which has the same hash. -/
def nameZi : ObjName := ⟨[122, 105, 105, 101, 113, 106], by decide, by decide⟩

/-- One object. -/
def collidingRun : List Op :=
  [.restart fun _ => 0, .mmap 4096 4096, .alloc nameAx 16 4096]

/-- An allocation of the other name loses the object. -/
theorem not_distinct_collidingRun :
    ¬ Distinct 1 { n | n.bytes ≠ [] } (reached 1 collidingRun) := by
  rintro ⟨hreads, -⟩
  have hpromised : Promised 1 (reached 1 collidingRun) 8 4112 :=
    ⟨⟨4096, 8192, 1, 1⟩, by decide +kernel⟩
  have hsome : (step 1 (reached 1 collidingRun) (.alloc nameZi 8 4112)).isSome := by decide +kernel
  obtain ⟨⟨r, st'⟩, hstep⟩ := Option.isSome_iff_exists.mp hsome
  have hsame := hreads nameAx (by decide) nameZi (by decide) (by decide)
    (.alloc nameZi 8 4112) r st'
    ⟨rfl, hpromised⟩ hstep
  have hafter : ((step 1 (reached 1 collidingRun) (.alloc nameZi 8 4112)).map fun x =>
    observe 1 x.2 nameAx) = some none := by decide +kernel
  have hbefore : (observe 1 (reached 1 collidingRun) nameAx).isSome := by decide +kernel
  rw [hstep, Option.map_some, hsame, Option.some.injEq] at hafter
  rw [hafter] at hbefore
  cases hbefore
