/-
# When a re-allocation keeps the object

A re-allocation of a live name on a clean process.  When the new block lies in a
region with a smaller id than the old chunk, the search for the victim hits the old
chunk, the new one takes its place, and the process stays clean.  When it does not,
the victim is the new chunk: within one region the name is lost (until a restart
finds the old chunk again), and in a region with a greater id the old chunk stays the
one that is read.
-/
import NvMalloc.Refinement

open WriteM Function

section Resize

variable {st st₂ st' : Store} {p bytes addr : ℕ} {n : ObjName} {nd : MmapobjNode}
  {q₀ q qv : MmapPtr} {old c v : ChunkPtr} {ws : List Write}

/-- A re-allocation on a clean process, where the chunk that is found holds the object. -/
structure ResizeOk (st st₂ st' : Store) (p : ℕ) (n : ObjName) (bytes addr : ℕ) (nd : MmapobjNode)
    (q₀ q qv : MmapPtr) (old c v : ChunkPtr) (ws : List Write) : Prop where
  inv : StoreInv st p
  clean : Clean st.disk p
  ok : AllocOk st (allocRqst p n bytes) nd addr
  holds : Holds st.disk p (genIdFromStr n) old
  finds : Finds st.disk p (genIdFromStr n) q₀ old
  unused : Unused st p addr bytes
  found : RegionFound st p nd q ws
  realloc : Reallocated st st₂ st' (allocRqst p n bytes) nd addr q₀ q qv old c v ws

/-- A re-allocation of a live name, of which one chunk is found, on any process. -/
structure Moved (st st₂ st' : Store) (p : ℕ) (n : ObjName) (bytes addr : ℕ) (nd : MmapobjNode)
    (q₀ q qv : MmapPtr) (old c v : ChunkPtr) (ws : List Write) : Prop where
  inv : StoreInv st p
  ok : AllocOk st (allocRqst p n bytes) nd addr
  holds : Holds st.disk p (genIdFromStr n) old
  finds : Finds st.disk p (genIdFromStr n) q₀ old
  unused : Unused st p addr bytes
  found : RegionFound st p nd q ws
  realloc : Reallocated st st₂ st' (allocRqst p n bytes) nd addr q₀ q qv old c v ws

theorem ResizeOk.moved (h : ResizeOk st st₂ st' p n bytes addr nd q₀ q qv old c v ws) :
    Moved st st₂ st' p n bytes addr nd q₀ q qv old c v ws :=
  ⟨h.inv, h.ok, h.holds, h.finds, h.unused, h.found, h.realloc⟩

/-- Every re-allocation of a live name runs to its end. -/
theorem exists_resize (hi : StoreInv st p) (hc : Clean st.disk p)
    (hok : AllocOk st (allocRqst p n bytes) nd addr) (hk : Holds st.disk p (genIdFromStr n) old)
    (hun : Unused st p addr bytes) :
    ∃ st₂ st' q₀ q qv c v ws, step p st (.alloc n bytes addr) = some (.done, st') ∧
      ResizeOk st st₂ st' p n bytes addr nd q₀ q qv old c v ws ∧
      ∀ {p'}, p' ≠ p → SameFiles st.disk st'.disk p' := by
  obtain ⟨q₀, hf⟩ := hc.finds hk
  have hi₁ : StoreInv st (allocRqst p n bytes).pid := hi
  obtain ⟨st₂, st', q, qv, c, v, ws, hexec, hre, hfiles⟩ :=
    nvRecordChunk_exec_of_live hi₁ hok hf hk.valid
  have hfound := hre.found
  rw [show (allocRqst p n bytes).varName = n from rfl, retag_self hk.id] at hfound
  exact ⟨st₂, st', q₀, q, qv, c, v, ws, by rw [step, hexec]; rfl,
    ⟨hi, hc, hok, hk, hf, hun, hfound, hre⟩, hfiles⟩

namespace Moved

variable (h : Moved st st₂ st' p n bytes addr nd q₀ q qv old c v ws)
include h

theorem st₂_eq : st₂ =
    (applyAll st ws).appendChunk q (allocChunk (allocRqst p n bytes) nd addr) := by
  have := h.realloc.append
  rwa [show (allocRqst p n bytes).varName = n from rfl, retag_self h.holds.id] at this

theorem c_eq : c = (applyAll st ws).disk.shape.nextChunk q := by
  have := h.realloc.next
  rwa [show (allocRqst p n bytes).varName = n from rfl, retag_self h.holds.id] at this

theorem fits : ChunkFits (applyAll st ws) p q (allocChunk (allocRqst p n bytes) nd addr) :=
  h.found.fits h.ok

theorem length_eq : (allocChunk (allocRqst p n bytes) nd addr).length = bytes :=
  toUint_bytes h.ok.block

/-- The record of the new chunk. -/
theorem newRecord : st₂.disk.chunk c = allocChunk (allocRqst p n bytes) nd addr := by
  rw [h.st₂_eq, h.c_eq]
  exact chunk_appendChunk_self

variable {c' : ChunkPtr} {k : ℕ}

/-- Chunks of the process before the call are not touched until the copy. -/
theorem chunk_eq (hc' : InScan st.disk.shape p c') :
    st₂.disk.chunk c' = st.disk.chunk c' := by
  rw [h.st₂_eq, chunk_appendChunk h.found.ready.inv.shape h.found.ready.region
    (h.found.grown.inScan.mpr hc'), h.found.grown.chunk hc']

theorem ne_new (hc' : InScan st.disk.shape p c') : c' ≠ c := by
  rw [h.c_eq]
  exact nextChunk_ne h.found.ready.inv.shape h.found.ready.region (h.found.grown.inScan.mpr hc')

/-- Before the old chunk is deleted the id has two chunks. -/
theorem holds₂ :
    Holds st₂.disk p k c' ↔ Holds st.disk p k c' ∨ c' = c ∧ genIdFromStr n = k := by
  rw [h.st₂_eq, holds_appendChunk h.found.ready.inv.shape h.found.ready.region rfl,
    h.found.grown.sameObjects.holds, h.c_eq]
  rfl

/-- The new block is apart from the blocks of all objects. -/
theorem apart (hk : Holds st.disk p k c') (hfile : c'.file = c.file) :
    (st.disk.chunk c').extent.Disjoint (st₂.disk.chunk c).extent := by
  rw [h.c_eq] at hfile
  have := h.found.disjoint h.ok h.unused (h.found.grown.sameObjects.holds.mpr hk) hfile
  rwa [h.found.grown.chunk hk.scan, ← h.newRecord] at this

theorem value₂ (hk : Holds st.disk p k c') :
    st₂.disk.value c' = st.disk.value c' := by
  have hk₁ := h.found.grown.sameObjects.holds.mpr hk
  rw [h.st₂_eq, value_appendChunk h.found.ready.inv h.fits hk₁, h.found.grown.sameObjects.value hk]
  intro hfile
  rw [← h.c_eq] at hfile
  rw [h.found.grown.chunk hk.scan, ← h.newRecord]
  exact h.apart hk hfile

/-- After the call, the valid chunks are those there were with the new one, less the
victim. -/
theorem holds' : Holds st'.disk p k c' ↔
    (Holds st.disk p k c' ∨ c' = c ∧ genIdFromStr n = k) ∧ c' ≠ v := by
  rw [h.realloc.effect.holds_iff, ← h.holds₂]
  by_cases hcv : c' = v
  · subst hcv
    simp [Chunkobj.invalidate]
  · rw [update_of_ne hcv, valid_copyChunk, chunkid_copyChunk]
    constructor
    · rintro ⟨hs, hv, hid⟩
      exact ⟨⟨hs, hv, hid⟩, hcv⟩
    · rintro ⟨⟨hs, hv, hid⟩, -⟩
      exact ⟨hs, hv, hid⟩

/-- The objects that are neither copied nor deleted. -/
theorem value' (hk : Holds st.disk p k c') (hcv : c' ≠ v) :
    st'.disk.value c' = st.disk.value c' := by
  have hcc := h.ne_new hk.scan
  have hblit : st'.disk.value c' = (st₂.disk.blitFile (dataOf c.file) (st₂.disk.chunk c).offset
      (st₂.disk.kept old c)).value c' := by
    rw [Disk.value, Disk.value, h.realloc.effect.chunk, update_of_ne hcv,
      (copyChunk_effect st₂ old c).chunk, update_of_ne hcc, Disk.bytesOf, Disk.bytesOf,
      h.realloc.effect.data]
    rfl
  have hcscan : InScan st₂.disk.shape p c :=
    (h.holds₂.mpr (.inr ⟨rfl, rfl⟩)).scan
  rw [hblit, ← h.value₂ hk]
  apply value_blitFile (h.realloc.inv.data_isSome hcscan)
  intro hfile
  have hk₂ := h.holds₂.mpr (.inl hk)
  have hdis := h.apart hk (hk₂.scan.file_inj hcscan hfile)
  have hlen : (st₂.disk.kept old c).length ≤ (st₂.disk.chunk c).length := by simp [Disk.kept]
  rw [h.chunk_eq hk.scan]
  simp only [Extent.Disjoint, Chunkobj.extent] at hdis
  omega

/-- The object in the new chunk, when it is not the victim. -/
theorem value_new (hcv : c ≠ v) :
    st'.disk.value c = Obj.resize (some (st.disk.value old)) bytes := by
  have hcscan : InScan st₂.disk.shape p c := (h.holds₂.mpr (.inr ⟨rfl, rfl⟩)).scan
  have hsome := h.realloc.inv.data_isSome hcscan
  have hlen : (st₂.disk.chunk c).length = bytes := by
    rw [h.newRecord]
    exact h.length_eq
  have hold := h.chunk_eq h.holds.scan
  -- before the copy the block holds zeros, and the old bytes are still there
  have hzero : (st₂.disk.value c).bytes = List.replicate bytes 0 := by
    rw [h.st₂_eq, h.c_eq, value_nextChunk h.fits, h.length_eq]
  have hkept : st₂.disk.kept old c = (st.disk.value old).bytes.take bytes := by
    have hval := congrArg Obj.bytes (h.value₂ h.holds)
    rw [← hval]
    show _ = (slice _ _ _).take bytes
    rw [take_slice, Disk.kept, hlen, min_comm]
  have hrec : st'.disk.chunk c =
    { st₂.disk.chunk c with commitsz := (st.disk.chunk old).commitsz } := by
    rw [h.realloc.effect.chunk, update_of_ne hcv, (copyChunk_effect st₂ old c).chunk,
      update_self, hold]
  have hbytes : st'.disk.bytesOf (dataOf c.file) = blit (st₂.disk.bytesOf (dataOf c.file))
      ((st₂.disk.chunk c).offset + 0) (st₂.disk.kept old c) := by
    have := bytesOf_blitFile hsome (st₂.disk.chunk c).offset (st₂.disk.kept old c) (dataOf c.file)
    rw [if_pos rfl] at this
    rw [Disk.bytesOf, h.realloc.effect.data]
    exact this
  have hfit : 0 + (st₂.disk.kept old c).length ≤ (st₂.disk.chunk c).length := by simp [Disk.kept]
  rw [Disk.value, hrec, hbytes]
  show Obj.mk (st₂.disk.chunk c).length _ (slice _ (st₂.disk.chunk c).offset _) = _
  rw [slice_blit_within hfit]
  show Obj.mk _ _ (overwrite (st₂.disk.value c).bytes 0 _) = _
  rw [hzero, hkept, hlen]
  simp only [Obj.resize, overwrite, List.take_zero, List.nil_append, Nat.zero_add,
    List.drop_replicate, List.length_take]
  have hl : (st.disk.value old).bytes.length = (st.disk.value old).length := length_slice _ _ _
  rw [hl]
  congr 3
  omega

/-- The entries after the call. -/
theorem entry' (q' : MmapPtr) (k : ℕ) :
    st'.disk.entry q' k = if q' = qv ∧ k = genIdFromStr n then none
      else if q' = q ∧ k = genIdFromStr n then some c else (applyAll st ws).disk.entry q' k := by
  obtain ⟨t, ht⟩ := h.found.ready.inv.loaded.chunkTree h.fits.region h.fits.init
  have hentry := entry_appendChunk (r := allocChunk (allocRqst p n bytes) nd addr) h.fits.init ht q'
    k
  rw [h.realloc.effect.entry]
  show (if q' = qv ∧ k = genIdFromStr n then none else st₂.disk.entry q' k) = _
  rw [h.st₂_eq, hentry, h.c_eq]
  rfl

theorem isRegion' {q' : MmapPtr} :
    IsRegion st'.disk.shape p q' ↔ IsRegion (applyAll st ws).disk.shape p q' := by
  rw [h.realloc.effect.frame.shape_eq, h.st₂_eq, isRegion_appendChunk]

theorem vmaId₁ : ((applyAll st ws).disk.mmapobj q₀).vmaId = (st.disk.mmapobj q₀).vmaId :=
  congrArg Mmapobj.vmaId (h.found.grown.mmapobj h.finds.region)

/-- The record of the new chunk, when it is not the victim. -/
theorem record_new (hcv : c ≠ v) : (st'.disk.chunk c).frame =
    (allocChunk (allocRqst p n bytes) nd addr).frame := by
  rw [h.realloc.effect.chunk, update_of_ne hcv, (copyChunk_effect st₂ old c).chunk,
    update_self, h.newRecord]
  rfl

/-! ### The new block in a smaller region -/

/-- A new chunk in a region of lower id leaves the old one to be deleted. -/
theorem victim_of_lower (hlt : nd.mapId < (st.disk.mmapobj q₀).vmaId) : qv = q₀ ∧ v = old := by
  cases h.realloc.victim with
  | new hle => omega
  | old _ => exact ⟨rfl, rfl⟩

theorem ne_victim_of_lower (hlt : nd.mapId < (st.disk.mmapobj q₀).vmaId) : c ≠ v := by
  rw [(h.victim_of_lower hlt).2]
  exact (h.ne_new h.holds.scan).symm

end Moved

namespace ResizeOk

variable (h : ResizeOk st st₂ st' p n bytes addr nd q₀ q qv old c v ws)
include h

/-- The new chunk takes the place of the old one. -/
theorem updates_of_lower (hlt : nd.mapId < (st.disk.mmapobj q₀).vmaId) :
    Updates st.disk st'.disk p (genIdFromStr n)
        (some (Obj.resize (some (st.disk.value old)) bytes)) ∧ Clean st'.disk p := by
  have hcv := h.moved.ne_victim_of_lower hlt
  obtain ⟨rfl, rfl⟩ := h.moved.victim_of_lower hlt
  have hsep := h.clean.separate
  have hne : ∀ {k c'}, Holds st.disk p k c' → (c' ≠ v ↔ k ≠ genIdFromStr n) := by
    intro k c' hk
    constructor
    · rintro hcc rfl
      exact hcc (hsep.id hk h.holds)
    · rintro hkn rfl
      exact hkn (hk.id.symm.trans h.holds.id)
  have hholds : ∀ {k c'}, Holds st'.disk p k c' ↔
      Holds st.disk p k c' ∧ k ≠ genIdFromStr n ∨ c' = c ∧ k = genIdFromStr n := by
    intro k c'
    rw [h.moved.holds']
    constructor
    · rintro ⟨hk | ⟨rfl, rfl⟩, hcc⟩
      · exact .inl ⟨hk, (hne hk).mp hcc⟩
      · exact .inr ⟨rfl, rfl⟩
    · rintro (⟨hk, hkn⟩ | ⟨rfl, rfl⟩)
      · exact ⟨.inl hk, (hne hk).mpr hkn⟩
      · exact ⟨.inr ⟨rfl, rfl⟩, hcv⟩
  have hchunk : ∀ {k c'}, Holds st.disk p k c' → k ≠ genIdFromStr n →
      st'.disk.chunk c' = st.disk.chunk c' := by
    intro k c' hk hkn
    rw [h.realloc.effect.chunk, update_of_ne ((hne hk).mpr hkn), (copyChunk_effect st₂ v c).chunk,
      update_of_ne (h.moved.ne_new hk.scan), h.moved.chunk_eq hk.scan]
  have hins := updates_insert hsep hholds
    (fun hk hkn => h.moved.value' hk ((hne hk).mpr hkn))
    (fun hk hkn => by rw [hchunk hk hkn])
    (fun hk hkn hfile => by
      have hext : (st'.disk.chunk c).extent = (st₂.disk.chunk c).extent := by
        rw [h.realloc.effect.chunk, update_of_ne hcv, (copyChunk_effect st₂ v c).chunk, update_self]
        rfl
      rw [hext]
      exact h.moved.apart hk hfile)
  rw [h.moved.value_new hcv] at hins
  refine ⟨hins.1, hins.2, ?_⟩
  -- the trees: the old entry is gone, the new one is there
  have hc₁ := h.found.grown.clean h.clean
  have hs₁ := h.found.ready.inv.shape
  have hsame := h.found.grown.sameObjects
  have hqq : qv ≠ q := by
    rintro rfl
    have := h.found.ready.vmaId
    rw [h.moved.vmaId₁] at this
    omega
  have hqold : IsChunk (applyAll st ws).disk.shape qv v := by
    have hf := h.found.grown.finds h.finds
    exact ((hc₁.indexes hf.region).mp hf.entry).1
  intro q' k c' hq'
  have hvalid : (IsChunk st'.disk.shape q' c' ∧ (st'.disk.chunk c').valid = .VALID ∧
      (st'.disk.chunk c').chunkid = k) ↔ IsChunk st'.disk.shape q' c' ∧ Holds st'.disk p k c' :=
    ⟨fun ⟨hqc, hv, hid⟩ => ⟨hqc, ⟨⟨q', hq', hqc⟩, hv, hid⟩⟩, fun ⟨hqc, hk⟩ =>
    ⟨hqc, hk.valid, hk.id⟩⟩
  rw [hvalid]
  rw [h.moved.isRegion'] at hq'
  have hisChunk : IsChunk st'.disk.shape q' c' ↔
      IsChunk (applyAll st ws).disk.shape q' c' ∨ q' = q ∧ c' = c := by
    rw [h.realloc.effect.frame.shape_eq, h.moved.st₂_eq, isChunk_appendChunk, h.moved.c_eq]
  rw [h.moved.entry', hisChunk, hholds]
  by_cases hold : q' = qv ∧ k = genIdFromStr n
  · obtain ⟨rfl, rfl⟩ := hold
    rw [if_pos ⟨rfl, rfl⟩]
    constructor
    · intro hcon
      cases hcon
    · rintro ⟨hqc | ⟨hqq', -⟩, ⟨-, hkn⟩ | ⟨rfl, -⟩⟩
      · exact absurd rfl hkn
      · rw [h.moved.c_eq] at hqc
        exact absurd hqc (nextChunk_not_isChunk hs₁ h.found.ready.region hq')
      · exact absurd rfl hkn
      · exact absurd hqq' hqq
  · rw [if_neg hold]
    by_cases hnew : q' = q ∧ k = genIdFromStr n
    · obtain ⟨rfl, rfl⟩ := hnew
      rw [if_pos ⟨rfl, rfl⟩]
      constructor
      · rintro ⟨⟩
        exact ⟨.inr ⟨rfl, rfl⟩, .inr ⟨rfl, rfl⟩⟩
      · rintro ⟨-, ⟨-, hkn⟩ | ⟨rfl, -⟩⟩
        · exact absurd rfl hkn
        · rfl
    · rw [if_neg hnew, hc₁.indexes hq']
      constructor
      · rintro ⟨hqc, hv, hid⟩
        have hk₁ : Holds (applyAll st ws).disk p k c' := ⟨⟨q', hq', hqc⟩, hv, hid⟩
        have hk := hsame.holds.mp hk₁
        refine ⟨.inl hqc, .inl ⟨hk, ?_⟩⟩
        rintro rfl
        obtain rfl := hsep.id hk h.holds
        exact hold ⟨hs₁.region_unique hq' (h.found.grown.isRegion h.finds.region) hqc hqold, rfl⟩
      · rintro ⟨hqc | ⟨rfl, rfl⟩, ⟨hk, hkn⟩ | ⟨hcc, rfl⟩⟩
        · have hk₁ := hsame.holds.mpr hk
          exact ⟨hqc, hk₁.valid, hk₁.id⟩
        · rw [hcc, h.moved.c_eq] at hqc
          exact absurd hqc (nextChunk_not_isChunk hs₁ h.found.ready.region hq')
        · exact absurd rfl (h.moved.ne_new hk.scan)
        · exact absurd ⟨rfl, rfl⟩ hnew

/-- In any other region the new chunk is the victim: what is found afterwards, if
anything, is the old chunk. -/
theorem finds_of_not_lower (hle : ¬ nd.mapId < (st.disk.mmapobj q₀).vmaId) {q' : MmapPtr}
    {c' : ChunkPtr} (hf : Finds st'.disk p (genIdFromStr n) q' c') : c' = old := by
  obtain ⟨rfl, rfl⟩ : qv = q ∧ v = c := by
    cases h.realloc.victim with
    | new _ => exact ⟨rfl, rfl⟩
    | old hlt => exact absurd hlt hle
  have hq' := h.moved.isRegion'.mp hf.region
  have hentry := hf.entry
  rw [h.moved.entry'] at hentry
  split at hentry
  · cases hentry
  · obtain ⟨hqc, hv, hid⟩ := ((h.found.grown.clean h.clean).indexes hq').mp hentry
    have hk := h.found.grown.sameObjects.holds.mp ⟨⟨q', hq', hqc⟩, hv, hid⟩
    exact h.clean.separate.id hk h.holds

end ResizeOk

end Resize
