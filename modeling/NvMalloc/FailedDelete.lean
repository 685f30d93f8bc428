/-
# Deletes that fail

`nv_delete` marks the chunk it finds as invalid before it looks for the region of the chunk,
by the id in the record.  When a rename and a re-allocation have left the chunk with an id that
is in no tree, that search fails and the delete returns `-1`, with the object gone.  In every
other case a delete that returns `-1` leaves what can be read as it was.
-/
import NvMalloc.Names

open WriteM Function

/-- Reading any name gives in `st'` what it gives in `st`, at once and after every restart. -/
structure ReadsSame (p : ℕ) (st st' : Store) : Prop where
  now : ∀ n, observe p st' n = observe p st n
  restarted : ∀ place, PlaceOk st.reboot place p → ∃ st₁ st₁', restart st place p = some st₁ ∧
    restart st' place p = some st₁' ∧ ∀ n, observe p st₁' n = observe p st₁ n

/-- The keys of the trees and the ids in the records of a process are hashes of names. -/
structure HashedIds (d : Disk) (p : ℕ) : Prop where
  entry : ∀ {q k c}, IsRegion d.shape p q → d.entry q k = some c → ∃ n, genIdFromStr n = k
  chunk : ∀ {c}, InScan d.shape p c → ∃ n, genIdFromStr n = (d.chunk c).chunkid

/-! ## Every id is the hash of a name -/

section Hashed

variable {p : ℕ} {st st' : Store}

theorem HashedIds.grown {d d' : Disk} (hd : HashedIds d p) (h : Grown d d' p) : HashedIds d' p := by
  refine ⟨?_, ?_⟩
  · intro q k c hq hqc
    obtain ⟨hq', hqc'⟩ := h.indexed hq hqc
    exact hd.entry hq' hqc'
  · intro c hc
    rw [h.chunk (h.inScan.mp hc)]
    exact hd.chunk (h.inScan.mp hc)

theorem HashedIds.effect {chunk : ChunkPtr → Chunkobj} {entry : MmapPtr → ℕ → Option ChunkPtr}
    {data : DataFile → Option DataContent} (hd : HashedIds st.disk p)
    (he : Effect st st' chunk entry data)
    (hentry : ∀ {q k c}, entry q k = some c → st.disk.entry q k = some c ∨ ∃ n, genIdFromStr n = k)
    (hid : ∀ c, (chunk c).chunkid = (st.disk.chunk c).chunkid ∨
      ∃ n, genIdFromStr n = (chunk c).chunkid) : HashedIds st'.disk p := by
  refine ⟨?_, ?_⟩
  · intro q k c hq hqc
    rw [he.frame.shape_eq] at hq
    rw [he.entry] at hqc
    rcases hentry hqc with hqc | hn
    · exact hd.entry hq hqc
    · exact hn
  · intro c hc
    rw [he.frame.shape_eq] at hc
    rw [he.chunk]
    rcases hid c with hsame | hn
    · rw [hsame]
      exact hd.chunk hc
    · exact hn

/-- A change of one record that keeps its id, or gives it the hash of a name. -/
theorem chunkid_update_hashed {c : ChunkPtr} {r : Chunkobj}
    (hr : r.chunkid = (st.disk.chunk c).chunkid ∨ ∃ n, genIdFromStr n = r.chunkid) (c' : ChunkPtr) :
    (update st.disk.chunk c r c').chunkid = (st.disk.chunk c').chunkid ∨
      ∃ n, genIdFromStr n = (update st.disk.chunk c r c').chunkid := by
  by_cases hcc : c' = c
  · subst hcc
    rw [update_self]
    exact hr
  · rw [update_of_ne hcc]
    exact .inl rfl

theorem HashedIds.appendChunk (hd : HashedIds st.disk p) (hi : StoreInv st p) {q : MmapPtr}
    {r : Chunkobj} (hfits : ChunkFits st p q r) (hr : ∃ n, genIdFromStr n = r.chunkid) :
    HashedIds (st.appendChunk q r).disk p := by
  obtain ⟨t, ht⟩ := hi.loaded.chunkTree hfits.region hfits.init
  refine ⟨?_, ?_⟩
  · intro q' k c hq' hqc
    rw [isRegion_appendChunk] at hq'
    rw [entry_appendChunk hfits.init ht] at hqc
    split at hqc
    · next hnew =>
      rw [hnew.2]
      exact hr
    · exact hd.entry hq' hqc
  · rintro c ⟨q', hq', hqc⟩
    rw [isRegion_appendChunk] at hq'
    rcases isChunk_appendChunk.mp hqc with hqc | ⟨-, rfl⟩
    · rw [chunk_appendChunk hi.shape hfits.region ⟨q', hq', hqc⟩]
      exact hd.chunk ⟨q', hq', hqc⟩
    · rw [chunk_appendChunk_self]
      exact hr

theorem HashedIds.loads {place : DataFile → ℕ} (hd : HashedIds st.disk p)
    (h : Loads st st' place p) :
    HashedIds st'.disk p := by
  have hid : ∀ c, (st'.disk.chunk c).chunkid = (st.disk.chunk c).chunkid :=
    fun c => (congrArg Chunkobj.chunkid (h.chunk c) :)
  refine ⟨?_, ?_⟩
  · intro q k c hq hqc
    rw [h.isRegion] at hq
    obtain ⟨hqc', -, rfl⟩ := h.entryIn hq hqc
    exact hd.chunk ⟨q, hq, hqc'⟩
  · intro c hc
    rw [hid]
    exact hd.chunk (h.inScan.mp hc)

theorem StepEffect.hashedIds {op : Op} {r : Ret} (h : StepEffect p st op r st') (hr : RunInv st p)
    (hd : HashedIds st.disk p) : HashedIds st'.disk p := by
  have hi := hr.inv
  cases h with
  | mmap hh hfresh => exact hd.grown (grown_mapRegion hi.shape hh)
  | @create n _ _ _ _ _ hok hfree hfound =>
    exact (hd.grown hfound.grown).appendChunk hfound.ready.inv (hfound.fits hok) ⟨n, rfl⟩
  | @replace n bytes addr nd st₂ _ q₀ q qv old c v ws hok hf hv hre =>
    have hretag : HashedIds (st.retag old (genIdFromStr n)).disk p :=
      hd.effect (retag_effect st old _) .inl (chunkid_update_hashed (.inr ⟨n, rfl⟩))
    have hfits := hre.found.fits (allocOk_retag hok old (genIdFromStr n))
    have h₂ : HashedIds st₂.disk p := by
      rw [hre.append]
      exact (hretag.grown hre.found.grown).appendChunk hre.found.ready.inv hfits ⟨n, rfl⟩
    refine h₂.effect hre.effect ?_ fun c' => .inl (chunkid_replaced c')
    intro q' k c' hqc
    split at hqc
    · cases hqc
    · exact .inl hqc
  | commit hf he => exact hd.effect he .inl (chunkid_update_hashed (.inl rfl))
  | deleteMissing hm => exact hd
  | deleteLost hf hm =>
    exact hd.effect (invalidate_effect st _) .inl (chunkid_update_hashed (.inl rfl))
  | delete hf hf' =>
    refine hd.effect (deleteChunk_effect st _ _ _) ?_ (chunkid_update_hashed (.inl rfl))
    intro q' k c' hqc
    split at hqc
    · cases hqc
    · exact .inl hqc
  | read => exact hd
  | write => exact ⟨fun hq hqc => hd.entry hq hqc, fun hc => hd.chunk hc⟩
  | renameNothing => exact hd
  | @rename s d _ _ _ _ _ hf hf' he =>
    refine hd.effect he ?_ (chunkid_update_hashed (.inr ⟨d, rfl⟩))
    intro q' k c' hqc
    split at hqc
    · next hk => exact .inr ⟨d, hk.2.symm⟩
    · exact .inl hqc
  | restart hl hinv =>
    have hstarted : HashedIds st.started.disk p := hd
    exact hstarted.loads hl

theorem hashedIds_of_run (hp : p ≠ 0) {N : Set ObjName} {place : DataFile → ℕ} {ops : List Op}
    (hrun : Along (step p) (Allowed p N) (.restart place :: ops) {}) {rs : List Ret}
    (hst : runSteps (step p) (.restart place :: ops) {} = some (rs, st)) :
    RunInv st p ∧ HashedIds st.disk p := by
  refine effect_induction hp (fun hop => hop) ?_ (fun hr hd _ heff => heff.hashedIds hr hd) hrun hst
  intro st₀ hl
  have hempty : HashedIds (Store.started {}).disk p :=
    ⟨fun hq => absurd hq not_isRegion_empty, fun hc => absurd hc not_inScan_empty⟩
  exact hempty.loads hl

end Hashed

/-! ## What a restart finds -/

section Restart

variable {p k : ℕ} {st st' st₁ st₁' : Store} {place : DataFile → ℕ}

/-- Two stores with the same regions and the same valid chunks are the same after a restart. -/
theorem Loads.sameAt (hl : Loads st st₁ place p) (hl' : Loads st' st₁' place p)
    (hshape : st'.disk.shape = st.disk.shape) (hregion : st'.disk.mmapobj = st.disk.mmapobj)
    (hdata : st'.disk.data = st.disk.data)
    (hvalid : ∀ c, (st'.disk.chunk c).valid = (st.disk.chunk c).valid)
    (hid : ∀ c, (st'.disk.chunk c).chunkid = (st.disk.chunk c).chunkid)
    (hchunk : ∀ {c}, (st.disk.chunk c).valid = .VALID → st'.disk.chunk c = st.disk.chunk c) :
    SameAt st₁.disk st₁'.disk p k := by
  have hisRegion : ∀ {q}, IsRegion st₁'.disk.shape p q ↔ IsRegion st₁.disk.shape p q := by
    intro q
    rw [hl.isRegion, hl'.isRegion, hshape]
  have hentry : ∀ {q}, IsRegion st₁.disk.shape p q → st₁'.disk.entry q k = st₁.disk.entry q k := by
    intro q hq
    rw [hl.isRegion] at hq
    rw [hl.entry hq, hl'.entry (by rw [hshape]; exact hq), hregion, lastChunk_congr hvalid hid]
  have hvma : ∀ {q}, IsRegion st₁.disk.shape p q →
      (st₁'.disk.mmapobj q).vmaId = (st₁.disk.mmapobj q).vmaId := by
    intro q hq
    rw [hl.isRegion] at hq
    rw [hl.vmaId hq, hl'.vmaId (by rw [hshape]; exact hq), hregion]
  have hrec : ∀ c, (st.disk.chunk c).valid = .VALID →
      { st₁'.disk.chunk c with nvPtr := 0 } = { st₁.disk.chunk c with nvPtr := 0 } := by
    intro c hv
    rw [hl.chunk, hl'.chunk, hchunk hv]
  refine ⟨?_, ?_, ?_, ?_⟩
  · intro q c hf
    refine ⟨hisRegion.mpr hf.region, (hentry hf.region).trans hf.entry, ?_⟩
    intro q' hq' hlt
    rw [hisRegion] at hq'
    rw [hvma hq', hvma hf.region] at hlt
    rw [hentry hq']
    exact hf.greatest hq' hlt
  · intro hm q hq
    rw [hisRegion] at hq
    rw [hentry hq]
    exact hm q hq
  · intro q c _
    have h : (st₁.disk.chunk c).valid = (st.disk.chunk c).valid :=
      (congrArg Chunkobj.valid (hl.chunk c) :)
    have h' : (st₁'.disk.chunk c).valid = (st'.disk.chunk c).valid :=
      (congrArg Chunkobj.valid (hl'.chunk c) :)
    rw [h, h', hvalid]
  · intro q c _ hv
    have h : (st₁.disk.chunk c).valid = (st.disk.chunk c).valid :=
      (congrArg Chunkobj.valid (hl.chunk c) :)
    have hsame := hrec c (h.symm.trans hv)
    have hlength : (st₁'.disk.chunk c).length = (st₁.disk.chunk c).length :=
      (congrArg Chunkobj.length hsame :)
    have hoffset : (st₁'.disk.chunk c).offset = (st₁.disk.chunk c).offset :=
      (congrArg Chunkobj.offset hsame :)
    have hcommitsz : (st₁'.disk.chunk c).commitsz = (st₁.disk.chunk c).commitsz :=
      (congrArg Chunkobj.commitsz hsame :)
    rw [Disk.value, Disk.value, hlength, hoffset, hcommitsz, Disk.bytesOf, Disk.bytesOf, hl.data,
      hl'.data, hdata]

end Restart

/-! ## Deletes -/

section Delete

variable {p : ℕ} {st st' : Store}

theorem ReadsSame.refl (hr : RunInv st p) : ReadsSame p st st := by
  refine ⟨fun _ => rfl, fun place hplace => ?_⟩
  obtain ⟨st₁, hexec, -, -⟩ := restart_runInv hr.inv.shape hr.inv.pidPos hplace
  exact ⟨st₁, st₁, hexec, hexec, fun _ => rfl⟩

/-- Marking a chunk invalid that is invalid already changes no read. -/
theorem readsSame_invalidate (hr : RunInv st p) {c : ChunkPtr}
    (hc : (st.disk.chunk c).valid = .INVALID) : ReadsSame p st (st.invalidate c) := by
  have he := invalidate_effect st c
  have hi' := invalidate_storeInv hr.inv c
  have hvalid : ∀ c', ((st.invalidate c).disk.chunk c').valid = (st.disk.chunk c').valid := by
    intro c'
    rw [he.chunk]
    by_cases hcc : c' = c
    · subst hcc
      rw [update_self, hc]
      rfl
    · rw [update_of_ne hcc]
  have hid : ∀ c', ((st.invalidate c).disk.chunk c').chunkid = (st.disk.chunk c').chunkid := by
    intro c'
    rw [he.chunk]
    apply chunkid_update
    rfl
  have hchunk : ∀ {c'}, (st.disk.chunk c').valid = .VALID →
      (st.invalidate c).disk.chunk c' = st.disk.chunk c' := by
    intro c' hv
    rw [he.chunk]
    refine update_of_ne ?_ ..
    rintro rfl
    rw [hc] at hv
    cases hv
  refine ⟨?_, ?_⟩
  · intro n
    have hsame : SameAt st.disk (st.invalidate c).disk p (genIdFromStr n) := by
      refine he.sameAt (fun _ => rfl) ?_ ?_
      · intro q c' _
        rw [← he.chunk, hvalid]
      · intro q c' _ hv
        exact he.value_eq (by rw [← he.chunk, hchunk hv]) rfl
    exact hsame.observe_eq hr.inv hi'
  · intro place hplace
    have hplace' : PlaceOk (st.invalidate c).reboot place p :=
      ⟨fun hq => hplace.pos hq, fun hq => hplace.apart hq, fun hq hq' => hplace.pairwise hq hq'⟩
    obtain ⟨st₁, hexec, hl, hr₁⟩ := restart_runInv hr.inv.shape hr.inv.pidPos hplace
    obtain ⟨st₁', hexec', hl', hr₁'⟩ := restart_runInv hi'.shape hr.inv.pidPos hplace'
    refine ⟨st₁, st₁', hexec, hexec', fun n => ?_⟩
    have hsame : SameAt st₁.disk st₁'.disk p (genIdFromStr n) :=
      hl.sameAt hl' he.frame.shape_eq rfl he.data hvalid hid hchunk
    exact hsame.observe_eq hr₁.inv hr₁'.inv

/-- What a delete that returns `-1` did. -/
theorem nvDelete_failed (hr : RunInv st p) {rqst : Rqst} (hpid : rqst.pid = p)
    (h : (nvDelete rqst).exec st = some (-1, st')) :
    foundChunk st rqst = none ∧ st' = st ∨
      ∃ q c, Finds st.disk p rqst.chunkId q c ∧ foundChunk st rqst = some c ∧
      st' = st.invalidate c := by
  subst hpid
  have hi := hr.inv
  have hid := chunkId_ne_of_nvDelete h
  rcases finds_or_missing hi rqst.chunkId with ⟨q, c, hf⟩ | hm
  · right
    have hget := getChunk_of_finds hi hid hf
    refine ⟨q, c, hf, by rw [foundChunk, hget]; rfl, ?_⟩
    rcases finds_or_missing hi (st.disk.chunk c).chunkid with ⟨q', c', hf'⟩ | hm
    · rw [nvDelete_of_finds hi hid hf hf'] at h
      cases h
    · rw [nvDelete_of_lost hi hid hf hm] at h
      cases h
      rfl
  · left
    have hget := getChunk_of_missing hi hid hm
    rw [nvDelete_of_missing hi hid hm] at h
    cases h
    exact ⟨by rw [foundChunk, hget]; rfl, rfl⟩

/-- Marking a valid chunk invalid makes the name unreadable under whose hash it is found. -/
theorem not_readsSame_invalidate (hr : RunInv st p) (hd : HashedIds st.disk p) {k : ℕ} {q : MmapPtr}
    {c : ChunkPtr} (hf : Finds st.disk p k q c) (hv : (st.disk.chunk c).valid = .VALID) :
    ¬ ReadsSame p st (st.invalidate c) := by
  intro hsame
  obtain ⟨n, rfl⟩ := hd.entry hf.region hf.entry
  have hbefore : observe p st n = some (st.disk.value c) :=
    (observe_eq_some hr.inv).mpr ⟨q, c, hf, hv, rfl⟩
  have hafter := hsame.now n
  rw [hbefore, observe_eq_some (invalidate_storeInv hr.inv c)] at hafter
  obtain ⟨q', c', hf', hv', -⟩ := hafter
  have he := invalidate_effect st c
  have hf₁ : Finds (st.invalidate c).disk p (genIdFromStr n) q c :=
    ⟨hf.region, hf.entry, hf.greatest⟩
  obtain ⟨-, rfl⟩ := hf₁.unique (invalidate_storeInv hr.inv c).shape hf'
  rw [he.chunk, update_self] at hv'
  cases hv'

end Delete

/-- **When a failed delete changes nothing.**  After every run, a delete that returns `-1`
leaves the reads of all names as they were, at once and after every restart, exactly when the
request leads to no valid chunk. -/
theorem readsSame_iff_of_run {p : ℕ} (hp : p ≠ 0) (place : DataFile → ℕ) (ops : List Op)
    (hrun : Along (step p) (Allowed p Set.univ) (.restart place :: ops) {}) {rs : List Ret}
    {st : Store} (hst : runSteps (step p) (.restart place :: ops) {} = some (rs, st)) {rqst : Rqst}
    (hpid : rqst.pid = p) {st' : Store} (hfail : (nvDelete rqst).exec st = some (-1, st')) :
    ReadsSame p st st' ↔ ∀ c ∈ foundChunk st rqst, (st.disk.chunk c).valid = .INVALID := by
  obtain ⟨hr, hd⟩ := hashedIds_of_run hp hrun hst
  rcases nvDelete_failed hr hpid hfail with ⟨hnone, rfl⟩ | ⟨q, c, hf, hsome, rfl⟩
  · rw [hnone]
    simp only [Option.mem_def, reduceCtorEq, false_implies, implies_true, iff_true]
    exact .refl hr
  · rw [hsome]
    simp only [Option.mem_def, Option.some.injEq, forall_eq']
    constructor
    · intro hsame
      by_contra hv
      exact not_readsSame_invalidate hr hd hf (Validity.ne_INVALID.mp hv) hsame
    · exact readsSame_invalidate hr

/-- An object that is renamed, and another one under its old name. -/
def aliasedRun : List Op :=
  [.restart fun _ => 0, .mmap 4096 4096, .alloc nameA 16 4096, .rename nameA nameB,
    .alloc nameA 16 4112]

theorem allowed_aliasedRun : Along (step 1) (Allowed 1 Set.univ) aliasedRun {} := by
  decide +kernel

/-- The store after the run, and what deleting a name in it does. -/
theorem exists_aliasedRun (n : ObjName)
    (hn : ((nvDelete (request 1 n)).exec (reached 1 aliasedRun)).map Prod.fst = some (-1)) :
    ∃ rs st st', runSteps (step 1) aliasedRun {} = some (rs, st) ∧ reached 1 aliasedRun = st ∧
      (nvDelete (request 1 n)).exec st = some (-1, st') := by
  have hsome : (runSteps (step 1) aliasedRun {}).isSome = true := by decide +kernel
  obtain ⟨⟨rs, st⟩, hst⟩ := Option.isSome_iff_exists.mp hsome
  rw [reached_eq hst] at hn
  obtain ⟨⟨r, st'⟩, hexec, hr⟩ := Option.map_eq_some_iff.mp hn
  obtain rfl : r = -1 := hr
  exact ⟨rs, st, st', hst, reached_eq hst, hexec⟩

/-- Deleting the old name again fails, and changes nothing. -/
theorem readsSame_aliasedRun : ∃ rs st st', runSteps (step 1) aliasedRun {} = some (rs, st) ∧
    (nvDelete (request 1 nameA)).exec st = some (-1, st') ∧ ReadsSame 1 st st' := by
  obtain ⟨rs, st, st', hst, hreached, hexec⟩ := exists_aliasedRun nameA (by decide +kernel)
  refine ⟨rs, st, st', hst, hexec, (readsSame_iff_of_run (by decide) _ _ allowed_aliasedRun hst rfl
    hexec).mpr ?_⟩
  rw [← hreached]
  decide +kernel

/-- Deleting the new name fails, and the object is gone. -/
theorem not_readsSame_aliasedRun : ∃ rs st st', runSteps (step 1) aliasedRun {} = some (rs, st) ∧
    (nvDelete (request 1 nameB)).exec st = some (-1, st') ∧ ¬ ReadsSame 1 st st' := by
  obtain ⟨rs, st, st', hst, hreached, hexec⟩ := exists_aliasedRun nameB (by decide +kernel)
  refine ⟨rs, st, st', hst, hexec, fun hsame => ?_⟩
  have hgone : (((nvDelete (request 1 nameB)).exec (reached 1 aliasedRun)).map
      fun x => observe 1 x.2 nameB) = some none := by decide +kernel
  have hlive : (observe 1 (reached 1 aliasedRun) nameB).isSome = true := by decide +kernel
  rw [hreached, hexec] at hgone
  rw [hreached, ← hsame.now nameB,
    show observe 1 st' nameB = none from Option.some.inj hgone] at hlive
  cases hlive
