/-
# Operations on a clean process

What each operation does to the objects of a clean process: `nv_delete` removes one,
`nv_commit_len` and a store through its pointer change one, an allocation under a
name that is not live adds one.  Each leaves the process clean.
-/
import NvMalloc.Steps

open WriteM Function

/-! ## Effects on the objects -/

section Effects

variable {st st' : Store} {p id : ℕ} {q : MmapPtr} {c : ChunkPtr}
  {chunk : ChunkPtr → Chunkobj} {entry : MmapPtr → ℕ → Option ChunkPtr}
  {data : DataFile → Option DataContent}

/-- Which chunk holds an id after a change of the records. -/
theorem Effect.holds_iff (he : Effect st st' chunk entry data) {k : ℕ} {c' : ChunkPtr} :
    Holds st'.disk p k c' ↔
      InScan st.disk.shape p c' ∧ (chunk c').valid = .VALID ∧ (chunk c').chunkid = k := by
  constructor
  · rintro ⟨hs, hv, hk⟩
    rw [he.frame.shape_eq] at hs
    rw [he.chunk] at hv hk
    exact ⟨hs, hv, hk⟩
  · rintro ⟨hs, hv, hk⟩
    refine ⟨?_, ?_, ?_⟩
    · rw [he.frame.shape_eq]
      exact hs
    · rw [he.chunk]
      exact hv
    · rw [he.chunk]
      exact hk

theorem Effect.value_eq (he : Effect st st' chunk entry data) {c' : ChunkPtr}
    (hchunk : chunk c' = st.disk.chunk c') (hdata : data = st.disk.data) :
    st'.disk.value c' = st.disk.value c' := by
  rw [Disk.value, Disk.value, he.chunk, hchunk, Disk.bytesOf, Disk.bytesOf, he.data, hdata]

/-- Invalidating the chunk of an id and dropping its entry removes the object. -/
theorem Effect.removes (he : Effect st st'
      (update st.disk.chunk c (st.disk.chunk c).invalidate)
      (fun q' k => if q' = q ∧ k = id then none else st.disk.entry q' k) st.disk.data)
    (hs : ShapeOk st.disk.shape) (hc : Clean st.disk p) (hk : Holds st.disk p id c)
    (hq : IsRegion st.disk.shape p q) (hqc : IsChunk st.disk.shape q c) :
    Updates st.disk st'.disk p id none ∧ Clean st'.disk p := by
  have hholds : ∀ {k c'}, Holds st'.disk p k c' ↔ Holds st.disk p k c' ∧ c' ≠ c := by
    intro k c'
    rw [he.holds_iff]
    by_cases hcc : c' = c
    · subst hcc
      simp [Chunkobj.invalidate]
    · rw [update_of_ne hcc]
      constructor
      · rintro ⟨hscan, hv, hid⟩
        exact ⟨⟨hscan, hv, hid⟩, hcc⟩
      · rintro ⟨⟨hscan, hv, hid⟩, -⟩
        exact ⟨hscan, hv, hid⟩
  have hother : ∀ {k c'}, k ≠ id → Holds st.disk p k c' → c' ≠ c := by
    rintro k c' hne hk' rfl
    exact hne (hk'.id.symm.trans hk.id)
  refine ⟨⟨?_, ?_, ?_⟩, ⟨?_, ?_⟩, ?_⟩
  · intro k c' hne
    rw [hholds]
    exact ⟨fun h => h.1, fun h => ⟨h, hother hne h⟩⟩
  · intro k c' hne hk'
    exact he.value_eq (update_of_ne (hother hne hk') ..) rfl
  · intro o
    constructor
    · intro h
      cases h
    rintro ⟨c', hk', -⟩
    obtain ⟨hk', hne⟩ := hholds.mp hk'
    exact absurd (hc.separate.id hk' hk) hne
  · intro k c₁ c₂ h₁ h₂
    exact hc.separate.id (hholds.mp h₁).1 (hholds.mp h₂).1
  · intro k k' c₁ c₂ h₁ h₂ hne hfile
    obtain ⟨h₁, hne₁⟩ := hholds.mp h₁
    obtain ⟨h₂, hne₂⟩ := hholds.mp h₂
    rw [he.chunk, update_of_ne hne₁, update_of_ne hne₂]
    exact hc.separate.apart h₁ h₂ hne hfile
  · intro q' k c' hq'
    rw [he.frame.shape_eq] at hq' ⊢
    rw [he.entry, he.chunk]
    by_cases hcc : c' = c
    · -- the removed chunk is neither indexed nor valid
      subst hcc
      rw [update_self]
      constructor
      · intro hentry
        split at hentry
        · cases hentry
        · rename_i hne
          obtain ⟨hqc', -, hid⟩ := (hc.indexes hq').mp hentry
          exact absurd ⟨hs.region_unique hq' hq hqc' hqc, hid.symm.trans hk.id⟩ hne
      · rintro ⟨-, hv, -⟩
        cases hv
    · rw [update_of_ne hcc]
      constructor
      · intro hentry
        split at hentry
        · cases hentry
        · exact (hc.indexes hq').mp hentry
      · rintro ⟨hqc', hv, hid⟩
        rw [if_neg]
        · exact (hc.indexes hq').mpr ⟨hqc', hv, hid⟩
        · rintro ⟨rfl, rfl⟩
          exact hcc (hc.separate.id ⟨⟨q', hq', hqc'⟩, hv, hid⟩ hk)

/-- Changing the record of a chunk, but not its id, validity or extent, and bytes
of its own block, changes its object only. -/
theorem Effect.changes {r : Chunkobj} (he : Effect st st' (update st.disk.chunk c r)
      st.disk.entry data) (hc : Clean st.disk p) (hk : Holds st.disk p id c)
    (hr : r.valid = .VALID ∧ r.chunkid = id ∧ r.extent = (st.disk.chunk c).extent)
    (hbytes : ∀ {k c'}, Holds st.disk p k c' → c' ≠ c → st'.disk.value c' = st.disk.value c') :
    Updates st.disk st'.disk p id (some (st'.disk.value c)) ∧ Clean st'.disk p := by
  obtain ⟨hrv, hrid, hrext⟩ := hr
  have hvalid : ∀ c', ((update st.disk.chunk c r) c').valid =
    (st.disk.chunk c').valid := by
    intro c'
    by_cases hcc : c' = c
    · subst hcc
      rw [update_self, hrv, hk.valid]
    · rw [update_of_ne hcc]
  have hchunkid : ∀ c', ((update st.disk.chunk c r) c').chunkid =
      (st.disk.chunk c').chunkid := by
    intro c'
    by_cases hcc : c' = c
    · subst hcc
      rw [update_self, hrid, hk.id]
    · rw [update_of_ne hcc]
  have hextent : ∀ c', ((update st.disk.chunk c r) c').extent =
    (st.disk.chunk c').extent := by
    intro c'
    by_cases hcc : c' = c
    · subst hcc
      rw [update_self, hrext]
    · rw [update_of_ne hcc]
  have hholds : ∀ {k c'}, Holds st'.disk p k c' ↔ Holds st.disk p k c' := by
    intro k c'
    rw [he.holds_iff, hvalid, hchunkid]
    exact ⟨fun ⟨hs, hv, hid⟩ => ⟨hs, hv, hid⟩, fun ⟨hs, hv, hid⟩ => ⟨hs, hv, hid⟩⟩
  refine ⟨⟨fun _ => hholds, ?_, ?_⟩, ⟨?_, ?_⟩, ?_⟩
  · intro k c' hne hk'
    apply hbytes hk'
    rintro rfl
    exact hne (hk'.id.symm.trans hk.id)
  · intro o
    constructor
    · rintro ⟨⟩
      exact ⟨c, hholds.mpr hk, rfl⟩
    · rintro ⟨c', hk', rfl⟩
      rw [hholds] at hk'
      rw [hc.separate.id hk' hk]
  · intro k c₁ c₂ h₁ h₂
    exact hc.separate.id (hholds.mp h₁) (hholds.mp h₂)
  · intro k k' c₁ c₂ h₁ h₂ hne hfile
    rw [he.chunk, hextent, hextent]
    exact hc.separate.apart (hholds.mp h₁) (hholds.mp h₂) hne hfile
  · intro q' k c' hq'
    rw [he.frame.shape_eq] at hq' ⊢
    rw [he.entry, he.chunk, hvalid, hchunkid]
    exact hc.indexes hq'

end Effects

/-! ## The operations on clean processes -/

section Ops

variable {st : Store} {p : ℕ} {n : ObjName} {c : ChunkPtr}

section

variable (hi : StoreInv st p) (hc : Clean st.disk p)
include hi hc

/-- `nv_delete` of a name without an object returns -1. -/
theorem nvDelete_of_dead (hid : genIdFromStr n ≠ 0)
    (hdead : ∀ c, ¬ Holds st.disk p (genIdFromStr n) c) :
    (nvDelete (request p n)).exec st = some (-1, st) := by
  have hi₁ : StoreInv st (request p n).pid := hi
  exact nvDelete_of_missing hi₁ hid (hc.missing hdead)

/-- `nv_delete` removes the object. -/
theorem nvDelete_of_holds (hid : genIdFromStr n ≠ 0) (hk : Holds st.disk p (genIdFromStr n) c) :
    ∃ st', (nvDelete (request p n)).exec st = some (0, st') ∧ SameFrame st st' ∧ StoreInv st' p ∧
      (∀ {p'}, p' ≠ p → SameFiles st.disk st'.disk p') ∧
      Updates st.disk st'.disk p (genIdFromStr n) none ∧ Clean st'.disk p := by
  obtain ⟨q, hf⟩ := hc.finds hk
  have hf' := hf
  rw [← hk.id] at hf'
  have hi₁ : StoreInv st (request p n).pid := hi
  have hexec := nvDelete_of_finds hi₁ hid hf hf'
  have he := deleteChunk_effect st c q n
  have hi' : StoreInv (st.deleteChunk c q n) p := by
    refine he.storeInv_at hi (.inl hk.valid) ?_
    intro q' k c' hq' hentry
    split at hentry
    · cases hentry
    · exact ⟨q', k, hq', hentry⟩
  rw [hk.id] at he
  obtain ⟨hqc, -, -⟩ := (hc.indexes hf.region).mp hf.entry
  exact ⟨_, hexec, he.frame, hi', sameFiles_deleteChunk hk.scan.pid_eq hf.region.pid_eq,
    he.removes hi.shape hc hk hf.region hqc⟩

theorem nvCommitLen_of_holds (hid : genIdFromStr n ≠ 0) (hk : Holds st.disk p (genIdFromStr n) c)
    (size : ℕ) :
    ∃ st', (nvCommitLen (request p n) size).exec st = some (0, st') ∧ SameFrame st st' ∧
      StoreInv st' p ∧ (∀ {p'}, p' ≠ p → SameFiles st.disk st'.disk p') ∧
      Updates st.disk st'.disk p (genIdFromStr n)
        (some { st.disk.value c with commitsz := toUint size }) ∧ Clean st'.disk p := by
  obtain ⟨q, hf⟩ := hc.finds hk
  have hi₁ : StoreInv st (request p n).pid := hi
  obtain ⟨st', hexec, he⟩ := nvCommitLen_of_finds hi₁ hid hf size
  have hfiles : ∀ {p'}, p' ≠ p → SameFiles st.disk st'.disk p' := by
    intro p' hne
    rw [nvCommitLen_exec hi₁ hid hf size] at hexec
    cases hexec
    exact sameFiles_applyChunk hk.scan.pid_eq _ hne
  have hi' : StoreInv st' p := he.storeInv_at hi (.inl hk.valid) (fun hq hc => ⟨_, _, hq, hc⟩)
  have hval : st'.disk.value c = { st.disk.value c with commitsz := toUint size } := by
    rw [Disk.value, he.chunk, update_self, Disk.bytesOf, he.data]
    rfl
  have hup := he.changes hc hk ⟨hk.valid, hk.id, rfl⟩ (fun _ hne =>
    he.value_eq (update_of_ne hne ..) rfl)
  rw [hval] at hup
  exact ⟨st', hexec, he.frame, hi', hfiles, hup⟩

theorem readObject_of_dead (place : DataFile → ℕ)
    (hdead : ∀ c, ¬ Holds st.disk p (genIdFromStr n) c) :
    (readObject place p n).exec st = some (none, st) :=
  readObject_of_missing hi (hc.missing hdead) place

/-- A read returns the object. -/
theorem readObject_of_holds (place : DataFile → ℕ) (hk : Holds st.disk p (genIdFromStr n) c) :
    (readObject place p n).exec st = some (some (st.disk.value c), st) := by
  obtain ⟨q, hf⟩ := hc.finds hk
  rw [readObject_of_finds hi hf, if_neg (by rw [hk.valid]; decide)]

end

/-- Chunks in the same data file are in the same metadata file. -/
theorem InScan.file_inj {s : Shape} {c c' : ChunkPtr} (hc : InScan s p c) (hc' : InScan s p c')
    (h : dataOf c.file = dataOf c'.file) : c.file = c'.file := by
  obtain ⟨q, hq, hqc⟩ := hc
  obtain ⟨q', hq', hqc'⟩ := hc'
  rw [hqc.file_eq, hqc'.file_eq, dataOf_metaOf, dataOf_metaOf] at h
  rw [hqc.file_eq, hqc'.file_eq]
  exact metaOf_inj.mpr (DataFile.mk.inj h)

variable {bs : List UInt8}

/-- A store outside the block of a chunk keeps its object. -/
theorem value_blitFile {d : Disk} {f : DataFile} (hf : (d.data f).isSome) {o : ℕ}
    (hdis : dataOf c.file = f → (d.chunk c).offset + (d.chunk c).length ≤ o ∨
      o + bs.length ≤ (d.chunk c).offset) : (d.blitFile f o bs).value c = d.value c := by
  rw [Disk.value, Disk.value, bytesOf_blitFile hf, chunk_blitFile]
  split
  · rename_i hfile
    rw [slice_blit_of_disjoint (hdis hfile), hfile]
  · rfl

/-- A store into one object keeps the others. -/
theorem value_blitFile_of_ne {c' : ChunkPtr} {k k' o : ℕ} (hi : StoreInv st p)
    (hc : Clean st.disk p) (hk : Holds st.disk p k c) (hk' : Holds st.disk p k' c') (hne : c' ≠ c)
    (ho : o + bs.length ≤ (st.disk.chunk c).length) :
    (st.disk.blitFile (dataOf c.file) ((st.disk.chunk c).offset + o) bs).value c' =
      st.disk.value c' := by
  apply value_blitFile (hi.data_isSome hk.scan)
  intro hfile
  have hdis := hc.separate.apart hk' hk hne (hk'.scan.file_inj hk.scan hfile)
  simp only [Extent.Disjoint, Chunkobj.extent] at hdis
  omega

theorem sameFiles_blitFile {d : Disk} {f : DataFile} (hf : f.pid = p) (o : ℕ) (bs : List UInt8)
    {p' : ℕ} (hne : p' ≠ p) : SameFiles d (d.blitFile f o bs) p' where
  proc := rfl
  mmapobj _ := rfl
  chunk _ := rfl
  data v := by
    apply update_of_ne
    rintro rfl
    exact hne hf

/-- Storing into an object. -/
theorem writeObject_of_holds (hi : StoreInv st p) (hc : Clean st.disk p)
    (hk : Holds st.disk p (genIdFromStr n) c) {off : ℕ}
    (hoff : off + bs.length ≤ (st.disk.chunk c).length) :
    ∃ st', (writeObject p n off bs).exec st = some ((), st') ∧ SameFrame st st' ∧ StoreInv st' p ∧
      (∀ {p'}, p' ≠ p → SameFiles st.disk st'.disk p') ∧
      Updates st.disk st'.disk p (genIdFromStr n)
        (some { st.disk.value c with bytes := overwrite (st.disk.value c).bytes off bs }) ∧
      Clean st'.disk p := by
  obtain ⟨q, hf⟩ := hc.finds hk
  let st' : Store :=
    ⟨st.disk.blitFile (dataOf c.file) ((st.disk.chunk c).offset + off) bs, st.ram⟩
  have he : Effect st st' (update st.disk.chunk c (st.disk.chunk c)) st.disk.entry
      st'.disk.data :=
    ⟨SameFrame.blitFile (SameFrame.refl st) _ _ _, by rw [update_eq_self]; rfl, fun _ _ =>
    rfl, rfl⟩
  have hval : st'.disk.value c =
      { st.disk.value c with bytes := overwrite (st.disk.value c).bytes off bs } := by
    show (st.disk.blitFile _ _ bs).value c = _
    rw [Disk.value, bytesOf_blitFile (hi.data_isSome hk.scan), if_pos rfl]
    show Obj.mk _ _ (slice _ (st.disk.chunk c).offset (st.disk.chunk c).length) = _
    rw [slice_blit_within hoff]
    rfl
  have hup := he.changes hc hk ⟨hk.valid, hk.id, rfl⟩
    (fun hk' hne => value_blitFile_of_ne hi hc hk hk' hne hoff)
  rw [hval] at hup
  exact ⟨st', writeObject_of_finds hi hf hk.valid hoff, he.frame,
    he.storeInv_at hi (.inl hk.valid) (fun hq hc => ⟨_, _, hq, hc⟩),
    sameFiles_blitFile hk.scan.pid_eq _ _, hup⟩

end Ops

/-! ## Allocation on clean processes -/

/-- The block at `addr` overlaps no object of `p`. -/
def Unused (st : Store) (p addr bytes : ℕ) : Prop := ∀ {k c}, Holds st.disk p k c →
  addr + bytes ≤ (st.disk.chunk c).nvPtr ∨
    (st.disk.chunk c).nvPtr + (st.disk.chunk c).length ≤ addr

section Append

variable {st : Store} {p : ℕ} {q : MmapPtr} {r : Chunkobj} {c : ChunkPtr}

theorem holds_appendChunk (hs : ShapeOk st.disk.shape) (hq : IsRegion st.disk.shape p q)
    (hv : r.valid = .VALID) {k : ℕ} : Holds (st.appendChunk q r).disk p k c ↔
      Holds st.disk p k c ∨ c = st.disk.shape.nextChunk q ∧ r.chunkid = k := by
  constructor
  · rintro ⟨⟨q', hq', hqc⟩, hvalid, hid⟩
    rw [isRegion_appendChunk] at hq'
    rcases isChunk_appendChunk.mp hqc with hqc | ⟨rfl, rfl⟩
    · rw [chunk_appendChunk hs hq ⟨q', hq', hqc⟩] at hvalid hid
      exact .inl ⟨⟨q', hq', hqc⟩, hvalid, hid⟩
    · rw [chunk_appendChunk_self] at hid
      exact .inr ⟨rfl, hid⟩
  · rintro (hk | ⟨rfl, rfl⟩)
    · obtain ⟨q', hq', hqc⟩ := hk.scan
      refine ⟨⟨q', isRegion_appendChunk.mpr hq', isChunk_appendChunk.mpr (.inl hqc)⟩, ?_, ?_⟩
      · rw [chunk_appendChunk hs hq hk.scan]
        exact hk.valid
      · rw [chunk_appendChunk hs hq hk.scan]
        exact hk.id
    · refine ⟨⟨q, isRegion_appendChunk.mpr hq, nextChunk_isChunk⟩, ?_, ?_⟩
      · rw [chunk_appendChunk_self]
        exact hv
      · rw [chunk_appendChunk_self]

/-- The next record is none of those in use. -/
theorem nextChunk_ne (hs : ShapeOk st.disk.shape) (hq : IsRegion st.disk.shape p q)
    (hc : InScan st.disk.shape p c) : c ≠ st.disk.shape.nextChunk q := by
  rintro rfl
  obtain ⟨q', hq', hqc⟩ := hc
  exact nextChunk_not_isChunk hs hq hq' hqc

theorem dataOf_nextChunk (hq : IsRegion st.disk.shape p q) :
    dataOf (st.disk.shape.nextChunk q).file = ⟨p, (st.disk.mmapobj q).vmaId⟩ := by
  rw [← hq.pid_eq]
  exact dataOf_metaOf _ _

theorem file_eq_nextChunk (hq : IsRegion st.disk.shape p q) (hc : InScan st.disk.shape p c)
    (hfile : dataOf c.file = dataOf (st.disk.shape.nextChunk q).file) :
    c.file = (st.disk.shape.nextChunk q).file := by
  obtain ⟨q', hq', hqc⟩ := hc
  rw [dataOf_nextChunk hq, hqc.file_eq, dataOf_metaOf] at hfile
  rw [hqc.file_eq]
  exact metaOf_inj.mpr ⟨hq'.pid_eq.trans hq.pid_eq.symm, (DataFile.mk.inj hfile).2⟩

theorem data_isSome_nextChunk (hfits : ChunkFits st p q r) :
    (st.disk.data (dataOf (st.disk.shape.nextChunk q).file)).isSome := by
  obtain ⟨n, hn, -⟩ := hfits.inFile
  obtain ⟨x, hx, -⟩ := Option.map_eq_some_iff.mp hn
  rw [dataOf_nextChunk hfits.region]
  exact Option.isSome_iff_exists.mpr ⟨x, hx⟩

theorem bytesOf_appendChunk (hfits : ChunkFits st p q r) (f : DataFile) :
    (st.appendChunk q r).disk.bytesOf f = if f = dataOf (st.disk.shape.nextChunk q).file then
      blit (st.disk.bytesOf (dataOf (st.disk.shape.nextChunk q).file)) r.offset
        (List.replicate r.length 0) else st.disk.bytesOf f :=
  bytesOf_blitFile (data_isSome_nextChunk hfits) r.offset (List.replicate r.length 0) f

/-- The object in a new chunk: zeros. -/
theorem value_nextChunk (hfits : ChunkFits st p q r) :
    (st.appendChunk q r).disk.value (st.disk.shape.nextChunk q) =
      ⟨r.length, r.commitsz, List.replicate r.length 0⟩ := by
  rw [Disk.value, chunk_appendChunk_self, bytesOf_appendChunk hfits, if_pos rfl]
  congr 1
  have := slice_blit_self (st.disk.bytesOf (dataOf (st.disk.shape.nextChunk q).file)) r.offset
    (List.replicate r.length 0)
  rwa [List.length_replicate] at this

/-- The other objects keep their contents when the new block is apart from them. -/
theorem value_appendChunk (hi : StoreInv st p) (hfits : ChunkFits st p q r) {k : ℕ}
    (hk : Holds st.disk p k c)
    (hapart : c.file = (st.disk.shape.nextChunk q).file →
      (st.disk.chunk c).extent.Disjoint r.extent) :
    (st.appendChunk q r).disk.value c = st.disk.value c := by
  have hchunk := chunk_appendChunk (r := r) hi.shape hfits.region hk.scan
  have hblit : (st.appendChunk q r).disk.value c = (st.disk.blitFile
      (dataOf (st.disk.shape.nextChunk q).file) r.offset (List.replicate r.length 0)).value c := by
    rw [Disk.value, Disk.value, hchunk]
    rfl
  rw [hblit]
  apply value_blitFile (data_isSome_nextChunk hfits)
  intro hfile
  have hdis := hapart (file_eq_nextChunk hfits.region hk.scan hfile)
  simp only [Extent.Disjoint, Chunkobj.extent] at hdis
  rw [List.length_replicate]
  exact hdis

end Append

section Insert

variable {d d' : Disk} {p id : ℕ} {c : ChunkPtr}

/-- When chunk `c` has taken the place of whatever held `id`, and the other valid
chunks are as they were, the object of `id` is the one in `c`. -/
theorem updates_insert (hsep : Separate d p)
    (hholds : ∀ {k c'}, Holds d' p k c' ↔ Holds d p k c' ∧ k ≠ id ∨ c' = c ∧ k = id)
    (hvalue : ∀ {k c'}, Holds d p k c' → k ≠ id → d'.value c' = d.value c')
    (hextent : ∀ {k c'}, Holds d p k c' → k ≠ id → (d'.chunk c').extent = (d.chunk c').extent)
    (hapart : ∀ {k c'}, Holds d p k c' → k ≠ id → c'.file = c.file →
      (d.chunk c').extent.Disjoint (d'.chunk c).extent) :
    Updates d d' p id (some (d'.value c)) ∧ Separate d' p := by
  refine ⟨⟨?_, ?_, ?_⟩, ?_, ?_⟩
  · intro k c' hk
    rw [hholds]
    simp [hk]
  · exact fun hk h => hvalue h hk
  · intro o
    constructor
    · rintro ⟨⟩
      exact ⟨c, hholds.mpr (.inr ⟨rfl, rfl⟩), rfl⟩
    · rintro ⟨c', hk, rfl⟩
      rcases hholds.mp hk with ⟨-, hne⟩ | ⟨rfl, -⟩
      · exact absurd rfl hne
      · rfl
  · intro k c₁ c₂ h₁ h₂
    rcases hholds.mp h₁ with ⟨h₁, hk⟩ | ⟨rfl, hk⟩ <;>
      rcases hholds.mp h₂ with ⟨h₂, hk'⟩ | ⟨rfl, hk'⟩
    · exact hsep.id h₁ h₂
    · exact absurd hk' hk
    · exact absurd hk hk'
    · rfl
  · intro k k' c₁ c₂ h₁ h₂ hcc hfile
    rcases hholds.mp h₁ with ⟨h₁, hk⟩ | ⟨rfl, -⟩ <;> rcases hholds.mp h₂ with ⟨h₂, hk'⟩ | ⟨rfl, -⟩
    · rw [hextent h₁ hk, hextent h₂ hk']
      exact hsep.apart h₁ h₂ hcc hfile
    · rw [hextent h₁ hk]
      exact hapart h₁ hk hfile
    · rw [hextent h₂ hk']
      exact (hapart h₂ hk' hfile.symm).symm
    · exact absurd rfl hcc

end Insert

section Append

variable {st : Store} {p : ℕ} {q : MmapPtr} {r : Chunkobj}

/-- Appending a chunk with an id that is not live creates its object. -/
theorem appendChunk_updates (hi : StoreInv st p) (hfits : ChunkFits st p q r)
    (hc : Clean st.disk p) (hv : r.valid = .VALID)
    (hdead : ∀ c, ¬ Holds st.disk p r.chunkid c)
    (hapart : ∀ {k c}, Holds st.disk p k c → c.file = (st.disk.shape.nextChunk q).file →
      (st.disk.chunk c).extent.Disjoint r.extent) :
    Updates st.disk (st.appendChunk q r).disk p r.chunkid
        (some ⟨r.length, r.commitsz, List.replicate r.length 0⟩) ∧
      Clean (st.appendChunk q r).disk p := by
  have hholds : ∀ {k c}, Holds (st.appendChunk q r).disk p k c ↔
      Holds st.disk p k c ∧ k ≠ r.chunkid ∨ c = st.disk.shape.nextChunk q ∧ k = r.chunkid := by
    intro k c
    rw [holds_appendChunk hi.shape hfits.region hv]
    constructor
    · rintro (hk | ⟨rfl, rfl⟩)
      · refine .inl ⟨hk, ?_⟩
        rintro rfl
        exact hdead c hk
      · exact .inr ⟨rfl, rfl⟩
    · rintro (⟨hk, -⟩ | ⟨rfl, rfl⟩)
      · exact .inl hk
      · exact .inr ⟨rfl, rfl⟩
  have hins := updates_insert hc.separate hholds
    (fun hk _ => value_appendChunk hi hfits hk (hapart hk))
    (fun hk _ => congrArg Chunkobj.extent (chunk_appendChunk hi.shape hfits.region hk.scan))
    (fun hk _ hfile => by rw [chunk_appendChunk_self]; exact hapart hk hfile)
  rw [value_nextChunk hfits] at hins
  refine ⟨hins.1, hins.2, ?_⟩
  · intro q' k c hq'
    obtain ⟨t, ht⟩ := hi.loaded.chunkTree hfits.region hfits.init
    rw [isRegion_appendChunk] at hq'
    rw [entry_appendChunk hfits.init ht, isChunk_appendChunk]
    by_cases hqk : q' = q ∧ k = r.chunkid
    · obtain ⟨rfl, rfl⟩ := hqk
      rw [if_pos ⟨rfl, rfl⟩]
      constructor
      · rintro ⟨⟩
        rw [chunk_appendChunk_self]
        exact ⟨.inr ⟨rfl, rfl⟩, hv, rfl⟩
      · rintro ⟨hqc | ⟨-, rfl⟩, hcv, hid⟩
        · rw [chunk_appendChunk hi.shape hfits.region ⟨q', hq', hqc⟩] at hcv hid
          exact absurd ⟨⟨q', hq', hqc⟩, hcv, hid⟩ (hdead c)
        · rfl
    · rw [if_neg hqk, hc.indexes hq']
      constructor
      · rintro ⟨hqc, hr⟩
        rw [chunk_appendChunk hi.shape hfits.region ⟨q', hq', hqc⟩]
        exact ⟨.inl hqc, hr⟩
      · rintro ⟨hqc | ⟨rfl, rfl⟩, hr⟩
        · rw [chunk_appendChunk hi.shape hfits.region ⟨q', hq', hqc⟩] at hr
          exact ⟨hqc, hr⟩
        · rw [chunk_appendChunk_self] at hr
          exact absurd ⟨rfl, hr.2.symm⟩ hqk

end Append

section Alloc

variable {st : Store} {p bytes addr : ℕ} {n : ObjName} {nd : MmapobjNode}
  {q : MmapPtr} {ws : List Write}

/-- Blocks at disjoint addresses of one region have disjoint extents. -/
theorem extent_disjoint (hi : StoreInv st p) {r : Chunkobj} (hfits : ChunkFits st p q r)
    (hun : Unused st p r.nvPtr r.length) {k : ℕ} {c : ChunkPtr} (hk : Holds st.disk p k c)
    (hfile : c.file = (st.disk.shape.nextChunk q).file) :
    (st.disk.chunk c).extent.Disjoint r.extent := by
  obtain ⟨q', hq', hqc⟩ := hk.scan
  have hqq : q' = q := by
    rw [hqc.file_eq] at hfile
    exact hi.shape.vmaInj hq' hfits.region (metaOf_inj.mp hfile).2
  subst hqq
  have hptr := hi.loaded.nvPtr hq' hqc (.inl hk.valid)
  have hdis := hun hk
  rw [hptr, hfits.nvPtr] at hdis
  simp only [Extent.Disjoint, Chunkobj.extent]
  omega

/-- What the allocator promises, once the region of the block is found. -/
theorem RegionFound.fits (hfound : RegionFound st p nd q ws)
    (hok : AllocOk st (allocRqst p n bytes) nd addr) :
    ChunkFits (applyAll st ws) p q (allocChunk (allocRqst p n bytes) nd addr) := by
  have hb : BlockOf (applyAll st ws) p nd addr (allocRqst p n bytes).bytes :=
    { hok.block with node := by rw [hfound.ram]; exact hok.block.node }
  exact chunkFits_alloc hfound.ready hb rfl hok.backed

theorem RegionFound.disjoint (hfound : RegionFound st p nd q ws)
    (hok : AllocOk st (allocRqst p n bytes) nd addr) (hun : Unused st p addr bytes) {k : ℕ}
    {c : ChunkPtr} (hk : Holds (applyAll st ws).disk p k c)
    (hfile : c.file = ((applyAll st ws).disk.shape.nextChunk q).file) :
    ((applyAll st ws).disk.chunk c).extent.Disjoint
      (allocChunk (allocRqst p n bytes) nd addr).extent := by
  have hlen : (allocChunk (allocRqst p n bytes) nd addr).length = bytes := toUint_bytes hok.block
  refine extent_disjoint hfound.ready.inv (hfound.fits hok) ?_ hk hfile
  intro k' c' hk'
  rw [hfound.grown.sameObjects.holds] at hk'
  rw [hfound.grown.chunk hk'.scan, hlen]
  exact hun hk'

/-- Recording a block under a name that is not live creates an object of zeros. -/
theorem recordChunk_updates (hc : Clean st.disk p) (hok : AllocOk st (allocRqst p n bytes) nd addr)
    (hdead : ∀ c, ¬ Holds st.disk p (genIdFromStr n) c) (hun : Unused st p addr bytes)
    (hfound : RegionFound st p nd q ws) :
    Updates st.disk
        ((applyAll st ws).appendChunk q (allocChunk (allocRqst p n bytes) nd addr)).disk p
        (genIdFromStr n) (some ⟨bytes, 0, List.replicate bytes 0⟩) ∧
      Clean ((applyAll st ws).appendChunk q (allocChunk (allocRqst p n bytes) nd addr)).disk p := by
  have hsame := hfound.grown.sameObjects
  have hlen : (allocChunk (allocRqst p n bytes) nd addr).length = bytes := toUint_bytes hok.block
  obtain ⟨hup, hclean⟩ := appendChunk_updates hfound.ready.inv (hfound.fits hok)
    (hfound.grown.clean hc) rfl (fun c hk => hdead c (hsame.holds.mp hk)) (hfound.disjoint hok hun)
  rw [hlen] at hup
  exact ⟨hup.of_same hsame, hclean⟩

theorem alloc_of_dead (hi : StoreInv st p) (hc : Clean st.disk p)
    (hok : AllocOk st (allocRqst p n bytes) nd addr)
    (hdead : ∀ c, ¬ Holds st.disk p (genIdFromStr n) c) (hun : Unused st p addr bytes) :
    ∃ st', (nvRecordChunk (allocRqst p n bytes) addr).exec st = some ((), st') ∧ StoreInv st' p ∧
      st'.ram.frame = st.ram.frame ∧ (∀ {p'}, p' ≠ p → SameFiles st.disk st'.disk p') ∧
      Updates st.disk st'.disk p (genIdFromStr n) (some ⟨bytes, 0, List.replicate bytes 0⟩) ∧
      Clean st'.disk p := by
  have hi₁ : StoreInv st (allocRqst p n bytes).pid := hi
  have hfree := checkIfChunkExists_of_missing hi₁ hok.named (hc.missing hdead)
  obtain ⟨q, ws, hfound, hexec⟩ := nvRecordChunk_exec_of_free hi₁ hok hfree
  refine ⟨_, hexec, storeInv_recordChunk hok hfound, ?_, ?_,
    recordChunk_updates hc hok hdead hun hfound⟩
  · rw [← hfound.ram]
    rfl
  · intro p' hne
    exact (hfound.files hne).trans (sameFiles_appendChunk hfound.ready.region.pid_eq hne)

end Alloc
