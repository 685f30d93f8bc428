/-
# Allocation by number

`nvalloc_` can be given a number in place of a name, and `p_c_nvread_len` then looks for the
number.  On the way `je_malloc_` sets the id of the request to `0`, and `nv_record_chunk` takes the
id from the name buffer, whose address it tests instead of its contents: the object is entered
under the hash of whatever the buffer happens to hold.  So the number leads to the object exactly
when the buffer hashes to it.
-/
import NvMalloc.Narrowing

open WriteM

/-! ## The interface -/

/-- `je_malloc_`; `addr` is the block that the allocator hands out. -/
def jeMalloc (rqst : Rqst) (addr : ℕ) : NvM ℕ := do
  nvRecordChunk { rqst with id := 0, bytes := jeMallocSize rqst.bytes } addr
  return addr

/-- `p_c_nvalloc_`; `stale` is what the name buffer of the request holds if it is not set. -/
def pCNvalloc (p size : ℕ) (var : Option ObjName) (rqstid : ℕ) (stale : ObjName) (addr : ℕ) :
    NvM ℕ :=
  match var with
  | some n => jeMalloc { pid := p, bytes := size, varName := n } addr
  | none => jeMalloc { pid := p, id := rqstid, bytes := size, varName := stale } addr

/-- `p_c_nvread_len`: the pointer, and the size it reports. -/
def pCNvreadLen (place : DataFile → ℕ) (p : ℕ) (var : ObjName) (id : ℕ) (stale : ObjName) :
    NvM (Option (ℕ × ℕ)) := do
  let r ← nvMapRead place
    (if id = 0 then { pid := p, varName := var } else { pid := p, id := id, varName := stale })
  return r.map fun r => (r.nvPtr, r.commitsz)

/-- Reading number `id` gives the pointer `ptr`. -/
def ReadsById (p : ℕ) (st : Store) (id ptr : ℕ) : Prop :=
  ∀ place var stale, ∃ len, (pCNvreadLen place p var id stale).exec st = some (some (ptr, len), st)

/-- The allocation returns, and its number leads to the object, and no other number does. -/
def ReachedById (p : ℕ) (st : Store) (size id : ℕ) (stale : ObjName) (addr : ℕ) : Prop :=
  ∃ st', (pCNvalloc p size none id stale addr).exec st = some (addr, st') ∧
    ∀ id' ≠ 0, ReadsById p st' id' addr ↔ id' = id

/-- A new chunk with id `k` in the region of `nd` is the one that is found afterwards: an invalid
chunk that is found now is in no later region, and a valid one, which the allocation replaces, is
in a later region and the only one there. -/
def Lands (d : Disk) (p k : ℕ) (nd : MmapobjNode) : Prop := ∀ {q c}, Finds d p k q c →
  match (d.chunk c).valid with
  | .INVALID => (d.mmapobj q).vmaId ≤ nd.mapId
  | .VALID => nd.mapId < (d.mmapobj q).vmaId ∧
    ∀ {q' c'}, EntryAt d p q' k c' → q' ≠ q → (d.mmapobj q').vmaId ≤ nd.mapId

section Reads

variable {p k : ℕ} {st : Store}

theorem readsById_iff (hi : StoreInv st p) {id ptr : ℕ} (hid : id ≠ 0) : ReadsById p st id ptr ↔
    ∃ q c, Finds st.disk p id q c ∧ (st.disk.chunk c).valid = .VALID ∧
      (st.disk.chunk c).nvPtr = ptr := by
  have hread : ∀ place var stale, (pCNvreadLen place p var id stale).exec st =
      ((nvMapRead place ⟨p, id, 0, stale⟩).exec st).map fun x =>
        (x.1.map fun r => (r.nvPtr, r.commitsz), x.2) := by
    intro place var stale
    rw [pCNvreadLen, if_neg hid, exec_bind, Option.map_eq_bind]
    rfl
  have hchunkId : ∀ stale, (⟨p, id, 0, stale⟩ : Rqst).chunkId = id := fun _ => if_neg hid
  rcases finds_or_missing hi id with ⟨q, c, hf⟩ | hm
  · have hfound : ∀ place stale, (nvMapRead place ⟨p, id, 0, stale⟩).exec st =
        some ((st.disk.chunk c).read, st) := by
      intro place stale
      have hi' : StoreInv st (⟨p, id, 0, stale⟩ : Rqst).pid := hi
      exact nvMapRead_of_finds hi' (by rw [hchunkId]; exact hf) place
    constructor
    · intro h
      obtain ⟨len, hlen⟩ := h (fun _ => 0) nameA nameA
      rw [hread, hfound] at hlen
      refine ⟨q, c, hf, ?_⟩
      cases hv : (st.disk.chunk c).valid with
      | INVALID =>
        rw [Chunkobj.read, if_pos hv] at hlen
        cases hlen
      | VALID =>
        rw [Chunkobj.read, if_neg (by rw [hv]; decide)] at hlen
        cases hlen
        exact ⟨rfl, rfl⟩
    · rintro ⟨q', c', hf', hv, hptr⟩ place var stale
      obtain ⟨rfl, rfl⟩ := hf.unique hi.shape hf'
      refine ⟨(st.disk.chunk c).commitsz, ?_⟩
      rw [hread, hfound, Chunkobj.read, if_neg (by rw [hv]; decide), ← hptr]
      rfl
  · constructor
    · intro h
      obtain ⟨len, hlen⟩ := h (fun _ => 0) nameA nameA
      have hi' : StoreInv st (⟨p, id, 0, nameA⟩ : Rqst).pid := hi
      rw [hread, nvMapRead_of_missing hi' (by rw [hchunkId]; exact hm)] at hlen
      cases hlen
    · rintro ⟨q, c, hf, -⟩
      exact (hf.not_missing hm).elim

/-- The allocation is the one under the name in the buffer. -/
theorem pCNvalloc_exec (p : ℕ) (st : Store) (size id : ℕ) (stale : ObjName) (addr : ℕ) :
    (pCNvalloc p size none id stale addr).exec st =
      (step p st (.alloc stale (jeMallocSize size) addr)).map fun x => (addr, x.2) := by
  rw [pCNvalloc, jeMalloc, exec_bind, step, Option.map_map, Option.map_eq_bind]
  rfl

end Reads

/-! ## What an allocation leaves in the trees -/

/-- Chunk `c` has been entered under `k`, for the block at `addr` and in the region of `nd`, and
the entries of the regions `gone` under `k` have been removed. -/
structure EnteredUnder (p k : ℕ) (d d' : Disk) (nd : MmapobjNode) (addr : ℕ) (q : MmapPtr)
    (c : ChunkPtr) (gone : Set MmapPtr) : Prop where
  vmaId : (d'.mmapobj q).vmaId = nd.mapId
  vmaIds : ∀ {q'}, IsRegion d.shape p q' →
    (d'.mmapobj q').vmaId = (d.mmapobj q').vmaId
  entry : ∀ q' k' c', EntryAt d' p q' k' c' ↔ ¬ (q' ∈ gone ∧ k' = k) ∧
    (q' = q ∧ k' = k ∧ c = c' ∨ ¬ (q' = q ∧ k' = k) ∧ EntryAt d p q' k' c')
  nvPtr : (d'.chunk c).nvPtr = addr
  nvPtrs : ∀ {c'}, InScan d.shape p c' →
    (d'.chunk c').nvPtr = (d.chunk c').nvPtr
  valids : ∀ {c'}, InScan d.shape p c' → (d'.chunk c').valid = .VALID →
    (d.chunk c').valid = .VALID

section EnteredUnder

variable {p k bytes addr : ℕ} {st st' : Store} {nd : MmapobjNode} {q q₀ qv : MmapPtr}
  {c old v : ChunkPtr} {gone : Set MmapPtr} {n : ObjName} {ws : List Write}

section

variable (h : EnteredUnder p k st.disk st'.disk nd addr q c gone)
include h

/-- The block is at the place of no other object, so its pointer is found under `k` only. -/
theorem EnteredUnder.only (hi : StoreInv st p) (hun : Unused st p addr bytes) (hpos : 0 < bytes)
    {k' : ℕ} {q' : MmapPtr} {c' : ChunkPtr} (hf : Finds st'.disk p k' q' c')
    (hv : (st'.disk.chunk c').valid = .VALID) (hptr : (st'.disk.chunk c').nvPtr = addr) :
    q' = q ∧ k' = k ∧ c' = c := by
  obtain ⟨-, ⟨rfl, rfl, rfl⟩ | ⟨-, he⟩⟩ := (h.entry q' k' c').mp hf.entryAt
  · exact ⟨rfl, rfl, rfl⟩
  · have hindexed : Indexed st.disk p c' := ⟨q', k', he⟩
    have hscan := hi.loaded.indexed hindexed
    rw [h.nvPtrs hscan] at hptr
    have hlength := hi.length_ne hindexed
    have hapart := hun ⟨hscan, h.valids hscan hv, rfl⟩
    omega

theorem EnteredUnder.ne {q' : MmapPtr} (hq' : IsRegion st.disk.shape p q')
    (hne : (st.disk.mmapobj q').vmaId ≠ nd.mapId) : q' ≠ q := by
  rintro rfl
  exact hne ((h.vmaIds hq').symm.trans h.vmaId)

/-- The new chunk, if its entry stays, is found exactly when no later region has an entry. -/
theorem EnteredUnder.finds_iff (hq : q ∉ gone) :
    Finds st'.disk p k q c ↔
      ∀ {q' c'}, EntryAt st.disk p q' k c' → q' ∉ gone → (st.disk.mmapobj q').vmaId ≤ nd.mapId := by
  rw [finds_iff_entryAt, h.vmaId]
  constructor
  · rintro ⟨-, hmax⟩ q' c' he hgone
    by_cases hqq : q' = q
    · rw [← h.vmaIds he.1, hqq, h.vmaId]
    · rw [← h.vmaIds he.1]
      exact hmax ((h.entry q' k c').mpr ⟨fun hg => hgone hg.1, Or.inr ⟨fun hg => hqq hg.1, he⟩⟩)
  · intro hmax
    refine ⟨(h.entry q k c).mpr ⟨fun hg => hq hg.1, Or.inl ⟨rfl, rfl, rfl⟩⟩, ?_⟩
    intro q' c' he
    obtain ⟨hgone, ⟨rfl, -, -⟩ | ⟨-, he⟩⟩ := (h.entry q' k c').mp he
    · exact h.vmaId.le
    · rw [h.vmaIds he.1]
      exact hmax he fun hg => hgone ⟨hg, rfl⟩

end

/-- A new chunk. -/
theorem EnteredUnder.lands_of_create (h : EnteredUnder p k st.disk st'.disk nd addr q c ∅)
    (hi : StoreInv st p)
    (hfree : Missing st.disk p k ∨ ∃ q c, Finds st.disk p k q c ∧
      (st.disk.chunk c).valid = .INVALID) :
    Finds st'.disk p k q c ↔ Lands st.disk p k nd := by
  rw [h.finds_iff (Set.notMem_empty q)]
  constructor
  · intro hmax q' c' hf
    rcases hfree with hm | ⟨q₁, c₁, hf₁, hv₁⟩
    · exact (hf.not_missing hm).elim
    · obtain ⟨rfl, rfl⟩ := hf.unique hi.shape hf₁
      rw [hv₁]
      exact hmax hf.entryAt (Set.notMem_empty _)
  · intro hlands q' c' he _
    rcases hfree with hm | ⟨q₁, c₁, hf₁, hv₁⟩
    · have hnone := hm q' he.1
      rw [he.2] at hnone
      cases hnone
    · have hle : (st.disk.mmapobj q').vmaId ≤ (st.disk.mmapobj q₁).vmaId :=
        (finds_iff_entryAt.mp hf₁).2 he
      have hland := hlands hf₁
      rw [hv₁] at hland
      exact hle.trans hland

/-- A new chunk for the name of a valid one. -/
theorem EnteredUnder.lands_of_replace (h : EnteredUnder p k st.disk st'.disk nd addr q c {qv})
    (hi : StoreInv st p)
    (hf : Finds st.disk p k q₀ old) (hv : (st.disk.chunk old).valid = .VALID)
    (hvictim : Victim st.disk nd q₀ q old c qv v) :
    Finds st'.disk p k q c ↔ Lands st.disk p k nd := by
  cases hvictim with
  | new hle =>
    -- the entry of the new chunk is the one that the second lookup removes
    constructor
    · intro hf'
      exact absurd ⟨rfl, rfl⟩ ((h.entry q k c).mp hf'.entryAt).1
    · intro hlands
      have hland := hlands hf
      rw [hv] at hland
      exact absurd hland.1 (Nat.not_lt.mpr hle)
  | old hlt =>
    have hne : q₀ ≠ q := h.ne hf.region hlt.ne'
    rw [h.finds_iff fun hq => hne (Set.mem_singleton_iff.mp hq).symm]
    constructor
    · intro hmax q' c' hf'
      obtain ⟨rfl, rfl⟩ := hf.unique hi.shape hf'
      rw [hv]
      exact ⟨hlt, fun he hqq => hmax he hqq⟩
    · intro hlands q' c' he hgone
      have hland := hlands hf
      rw [hv] at hland
      exact hland.2 he hgone

theorem enteredUnder_appendChunk {st₁ : Store} {r : Chunkobj} (hg : Grown st.disk st₁.disk p)
    (hi : StoreInv st₁ p) (hfits : ChunkFits st₁ p q r)
    (hvma : (st₁.disk.mmapobj q).vmaId = nd.mapId) :
    EnteredUnder p r.chunkid st.disk (st₁.appendChunk q r).disk nd r.nvPtr q
    (st₁.disk.shape.nextChunk q) ∅ := by
  have hvmas : ∀ q', ((st₁.appendChunk q r).disk.mmapobj q').vmaId =
    (st₁.disk.mmapobj q').vmaId := by
    intro q'
    obtain ⟨_, _, _, hm⟩ := mmapobj_appendChunk st₁ q r q'
    rw [hm]
  have hchunk : ∀ {c'}, InScan st.disk.shape p c' →
      (st₁.appendChunk q r).disk.chunk c' = st.disk.chunk c' := by
    intro c' hc'
    rw [chunk_appendChunk hi.shape hfits.region (hg.inScan.mpr hc'), hg.chunk hc']
  refine ⟨(hvmas q).trans hvma, ?_, ?_, ?_, ?_, ?_⟩
  · intro q' hq'
    rw [hvmas, hg.mmapobj hq']
  · intro q' k' c'
    rw [entryAt_appendChunk hi.loaded hfits, hg.entryAt_iff]
    exact ⟨fun he => ⟨fun hgone => hgone.1.elim, he⟩, And.right⟩
  · rw [chunk_appendChunk_self]
  · intro c' hc'
    rw [hchunk hc']
  · intro c' hc' hv
    rw [← hchunk hc']
    exact hv

theorem EnteredUnder.of_retag
    (h : EnteredUnder p k (st.retag old k).disk st'.disk nd addr q c gone) :
    EnteredUnder p k st.disk st'.disk nd addr q c gone := by
  have hptr : ∀ c', ((st.retag old k).disk.chunk c').nvPtr = (st.disk.chunk c').nvPtr := by
    intro c'
    rw [(retag_effect st old k).chunk]
    by_cases hcc : c' = old
    · subst hcc
      rw [Function.update_self]
    · rw [Function.update_of_ne hcc]
  have hshape := (retag_effect st old k).frame.shape_eq
  refine ⟨h.vmaId, h.vmaIds, h.entry, h.nvPtr, ?_, ?_⟩
  · intro c' hc'
    rw [← hptr]
    exact h.nvPtrs (by rw [hshape]; exact hc')
  · intro c' hc' hv
    rw [← valid_retag old c' k]
    exact h.valids (by rw [hshape]; exact hc') hv

/-- The copy and the second lookup of a re-allocation take away the entry of the victim. -/
theorem EnteredUnder.realloc {st₂ : Store}
    (h : EnteredUnder p (genIdFromStr n) st.disk st₂.disk nd addr q c ∅)
    (hre : Reallocated st st₂ st' (allocRqst p n bytes) nd addr q₀ q qv old c v ws) :
    EnteredUnder p (genIdFromStr n) st.disk st'.disk nd addr q c {qv} := by
  have hvmas := hre.effect.frame.vmaId_eq
  refine ⟨(hvmas q).trans h.vmaId, fun hq' => (hvmas _).trans (h.vmaIds hq'), ?_, ?_, ?_, ?_⟩
  · intro q' k' c'
    rw [hre.effect.entryAt_iff, Set.mem_singleton_iff,
      show (allocRqst p n bytes).varName = n from rfl]
    have hentry := h.entry q' k' c'
    by_cases hgone : q' = qv ∧ k' = genIdFromStr n
    · rw [if_pos hgone]
      exact ⟨fun hcon => absurd hcon.2 (by simp), fun hcon => absurd hgone hcon.1⟩
    · rw [if_neg hgone]
      show EntryAt st₂.disk p q' k' c' ↔ _
      rw [hentry]
      exact ⟨fun he => ⟨hgone, he.2⟩, fun he => ⟨fun hg => hg.1.elim, he.2⟩⟩
  · obtain ⟨_, hrec⟩ := hre.chunk_eq c
    rw [hrec]
    exact h.nvPtr
  · intro c' hc'
    obtain ⟨_, hrec⟩ := hre.chunk_eq c'
    rw [hrec]
    exact h.nvPtrs hc'
  · intro c' hc' hv
    obtain ⟨_, hrec⟩ := hre.chunk_eq c'
    rw [hrec] at hv
    refine h.valids hc' ?_
    by_cases hcv : c' = v
    · rw [if_pos hcv] at hv
      cases hv
    · rwa [if_neg hcv] at hv

/-- An allocation enters a chunk under the hash of its name, which is found afterwards, and then
valid, exactly when it lands. -/
theorem StepEffect.enteredUnder {r : Ret} (h : StepEffect p st (.alloc n bytes addr) r st')
    (hi : StoreInv st p) (hnd : st.locateMmapobjNode addr = some nd) : ∃ q c gone,
      EnteredUnder p (genIdFromStr n) st.disk st'.disk nd addr q c gone ∧
      (Finds st'.disk p (genIdFromStr n) q c ↔ Lands st.disk p (genIdFromStr n) nd) ∧
      (Lands st.disk p (genIdFromStr n) nd → (st'.disk.chunk c).valid = .VALID) := by
  cases h with
  | @create _ _ _ nd' q ws hok hfree hfound =>
    obtain rfl : nd' = nd :=
      Option.some.inj ((locateMmapobjNode_of_block hi.ram hok.block).symm.trans hnd)
    have hent : EnteredUnder p (genIdFromStr n) st.disk
        ((applyAll st ws).appendChunk q (allocChunk (allocRqst p n bytes) nd' addr)).disk nd' addr q
        ((applyAll st ws).disk.shape.nextChunk q) ∅ :=
      enteredUnder_appendChunk hfound.grown hfound.ready.inv (hfound.fits hok) hfound.ready.vmaId
    refine ⟨q, _, ∅, hent, hent.lands_of_create hi hfree, fun _ => ?_⟩
    have hrec : ((applyAll st ws).recordChunk q (allocChunk (allocRqst p n bytes) nd' addr)
        addr).disk.chunk ((applyAll st ws).disk.shape.nextChunk q) =
        allocChunk (allocRqst p n bytes) nd' addr := chunk_appendChunk_self
    rw [hrec]
    rfl
  | @replace _ _ _ nd' st₂ _ q₀ q qv old c v ws hok hf hv hre =>
    obtain rfl : nd' = nd :=
      Option.some.inj ((locateMmapobjNode_of_block hi.ram hok.block).symm.trans hnd)
    have hent₂ : EnteredUnder p (genIdFromStr n) st.disk st₂.disk nd' addr q c ∅ := by
      have hretag : EnteredUnder p (genIdFromStr n) (st.retag old (genIdFromStr n)).disk st₂.disk
          nd' addr q c ∅ := by
        rw [hre.append, hre.next]
        exact enteredUnder_appendChunk hre.found.grown hre.found.ready.inv
          (hre.found.fits (allocOk_retag hok _ _)) hre.found.ready.vmaId
      exact hretag.of_retag
    have hent := hent₂.realloc hre
    have hlands := hent.lands_of_replace hi hf hv hre.victim
    refine ⟨q, c, {qv}, hent, hlands, fun hl => ?_⟩
    -- the entry of the new chunk stays, so it is not the victim
    have hcv : c ≠ v := by
      have hgone := ((hent.entry q _ c).mp (hlands.mpr hl).entryAt).1
      cases hre.victim with
      | new _ => exact absurd ⟨rfl, rfl⟩ hgone
      | old hlt =>
        have hfound := hre.found.grown.finds (finds_retag hf)
        obtain ⟨q', hq', hqc⟩ := hre.found.ready.inv.loaded.indexed hfound.indexed
        intro hco
        have hnext := hco.symm.trans hre.next
        exact nextChunk_not_isChunk hre.found.ready.inv.shape hre.found.ready.region hq'
          (hnext ▸ hqc)
    obtain ⟨_, hrec⟩ := hre.chunk_eq c
    have hrec₂ : st₂.disk.chunk c = allocChunk (allocRqst p n bytes) nd' addr := by
      rw [hre.append, hre.next]
      exact chunk_appendChunk_self
    rw [hrec, hrec₂, if_neg hcv]
    rfl

/-- The number leads to the new object, and no other does, exactly when the name buffer hashes to
it and the new chunk lands. -/
theorem reachedById_iff (hr : RunInv st p) {size id : ℕ} (hid : id ≠ 0) (stale : ObjName)
    (hb : BlockOf st p nd addr (jeMallocSize size)) (hback : Backed nd addr (jeMallocSize size))
    (hroom : MetaRoom st p nd) (hun : Unused st p addr (jeMallocSize size)) :
    ReachedById p st size id stale addr ↔ genIdFromStr stale = id ∧ Lands st.disk p id nd := by
  have hnd := locateMmapobjNode_of_block hr.inv.ram hb
  have hallowed : Allowed p Set.univ st (.alloc stale (jeMallocSize size) addr) :=
    ⟨trivial, nd, hb, hroom⟩
  -- the numbers that lead to the new object, once the allocation has returned
  have hreads : ∀ {r st'}, step p st (.alloc stale (jeMallocSize size) addr) = some (r, st') →
      ∀ id' ≠ 0, ReadsById p st' id' addr ↔
        id' = genIdFromStr stale ∧ Lands st.disk p (genIdFromStr stale) nd := by
    intro r st' hs id' hid'
    have heff := step_effect hr hallowed hs
    obtain ⟨q, c, gone, hent, hlands, hvalid⟩ := heff.enteredUnder hr.inv hnd
    rw [readsById_iff (heff.runInv hr).inv hid']
    constructor
    · rintro ⟨q', c', hf, hv, hptr⟩
      obtain ⟨rfl, rfl, rfl⟩ := hent.only hr.inv hun hb.pos hf hv hptr
      exact ⟨rfl, hlands.mp hf⟩
    · rintro ⟨rfl, hl⟩
      exact ⟨q, c, hlands.mpr hl, hvalid hl, hent.nvPtr⟩
  constructor
  · rintro ⟨st', hexec, hall⟩
    rw [pCNvalloc_exec] at hexec
    obtain ⟨⟨r, _⟩, hs, heq⟩ := Option.map_eq_some_iff.mp hexec
    cases heq
    obtain ⟨hhash, hl⟩ := (hreads hs id hid).mp ((hall id hid).mpr rfl)
    exact ⟨hhash.symm, hhash ▸ hl⟩
  · rintro ⟨rfl, hl⟩
    obtain ⟨⟨r, st'⟩, hs⟩ := Option.isSome_iff_exists.mp (alloc_isSome hr hid hb hback hroom)
    refine ⟨st', ?_, ?_⟩
    · rw [pCNvalloc_exec, hs]
      rfl
    · intro id' hid'
      rw [hreads hs id' hid']
      exact ⟨And.left, fun heq => ⟨heq, hl⟩⟩

end EnteredUnder

/-! ## Runs -/

/-- **Where numbers lead to objects.**  After every run, and for every number, size and block that
the allocator may hand out, the allocation by number returns, and the number and no other leads to
the new object, exactly when the name buffer hashes to the number and the new chunk lands. -/
theorem reachedById_iff_of_run {p : ℕ} (hp : p ≠ 0) (place : DataFile → ℕ) (ops : List Op)
    (hrun : Along (step p) (Allowed p Set.univ) (.restart place :: ops) {}) {rs : List Ret}
    {st : Store} (hst : runSteps (step p) (.restart place :: ops) {} = some (rs, st))
    {size id : ℕ} (hid : id ≠ 0) (stale : ObjName) {addr : ℕ} {nd : MmapobjNode}
    (hb : BlockOf st p nd addr (jeMallocSize size)) (hback : Backed nd addr (jeMallocSize size))
    (hroom : MetaRoom st p nd) (hun : Unused st p addr (jeMallocSize size)) :
    ReachedById p st size id stale addr ↔ genIdFromStr stale = id ∧ Lands st.disk p id nd :=
  reachedById_iff (runInv_of_run hp hrun hst) hid stale hb hback hroom hun

/-- An object whose name buffer held `nameA`. -/
def unnamedRun : List Op := [.restart fun _ => 0, .mmap 4096 4096, .alloc nameA 16 4096]

/-- The node of the region. -/
def unnamedNode : MmapobjNode := ⟨4096, 8192, 1, 1⟩

theorem allowed_unnamedRun : Along (step 1) (Allowed 1 Set.univ) unnamedRun {} := by
  decide +kernel

/-- The next block, of 16 bytes. -/
theorem block_unnamedRun : BlockOf (reached 1 unnamedRun) 1 unnamedNode 4112 (jeMallocSize 16) ∧
    Backed unnamedNode 4112 (jeMallocSize 16) ∧ MetaRoom (reached 1 unnamedRun) 1 unnamedNode ∧
    Unused (reached 1 unnamedRun) 1 4112 (jeMallocSize 16) := by decide +kernel

/-- With `nameB` in the buffer the object has the number 98, the hash of `nameB`. -/
theorem reachedById_unnamedRun : ∃ rs st, runSteps (step 1) unnamedRun {} = some (rs, st) ∧
    ReachedById 1 st 16 98 nameB 4112 := by
  have hsome : (runSteps (step 1) unnamedRun {}).isSome = true := by decide +kernel
  obtain ⟨⟨rs, st⟩, hst⟩ := Option.isSome_iff_exists.mp hsome
  have hblock := block_unnamedRun
  have hmissing : Missing (reached 1 unnamedRun).disk 1 98 := by decide +kernel
  rw [reached_eq hst] at hblock hmissing
  obtain ⟨hb, hback, hroom, hun⟩ := hblock
  have hiff := reachedById_iff_of_run (by decide) _ _ allowed_unnamedRun hst (by decide : 98 ≠ 0)
    nameB
    hb hback hroom hun
  exact ⟨rs, st, hst, hiff.mpr ⟨by decide, fun hf => (hf.not_missing hmissing).elim⟩⟩

/-- With `nameA` in the buffer, the numbers 1 and 2 lead to no object. -/
theorem not_reachedById_unnamedRun : ∃ rs st, runSteps (step 1) unnamedRun {} = some (rs, st) ∧
    ∀ id ∈ [1, 2], ¬ ReachedById 1 st 16 id nameA 4112 := by
  have hsome : (runSteps (step 1) unnamedRun {}).isSome = true := by decide +kernel
  obtain ⟨⟨rs, st⟩, hst⟩ := Option.isSome_iff_exists.mp hsome
  have hr := runInv_of_run (by decide) allowed_unnamedRun hst
  have hblock := block_unnamedRun
  rw [reached_eq hst] at hblock
  obtain ⟨hb, hback, hroom, hun⟩ := hblock
  refine ⟨rs, st, hst, ?_⟩
  intro id hid
  have hpos : id ≠ 0 := by
    rintro rfl
    exact absurd hid (by decide)
  rw [reachedById_iff hr hpos nameA hb hback hroom hun]
  rintro ⟨rfl, -⟩
  exact absurd hid (by decide)
