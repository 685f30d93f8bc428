/-
# Appending to the persistent layout

The four ways in which the layout grows: a process header is created, a data file
is created, a region record is appended to a header file, and a chunk record is
appended to a metadata file.  Each keeps `ShapeOk`, and each adds exactly one
record to a scan.
-/
import NvMalloc.FrameOps

open Function

namespace Shape

/-- A new process header. -/
def addHeader (s : Shape) (p : ℕ) : Shape :=
  { s with
    header := update s.header p (some ⟨p, 0, 0, sizeofProc⟩)
    region := fun q => if q.pid = p then ⟨0, 0, 0, 0, 0⟩ else s.region q }

/-- A new data file for the next region id of process `p`. -/
def addFile (s : Shape) (p : ℕ) (h : HeaderShape) (n : ℕ) : Shape :=
  { s with
    header := update s.header p (some { h with numMmaps := h.numMmaps + 1 })
    fileSize := update s.fileSize ⟨p, h.numMmaps + 1⟩ (some n) }

/-- A new region record of process `p`, with id `v` and an empty metadata file. -/
def addRegion (s : Shape) (p : ℕ) (h : HeaderShape) (v len : ℕ) : Shape :=
  { s with
    header := update s.header p
      (some ⟨h.pid, h.pesistMmaps + 1, h.numMmaps, h.metaOffset + sizeofMmapobj⟩)
    region := update s.region (mmapobjSlot p h.pesistMmaps) ⟨p, v, len, 0, 0⟩
    extent := fun c => if c.file = metaOf p v then ⟨0, 0, 0⟩ else s.extent c }

/-- The slot of the next chunk record of region `q`. -/
def nextChunk (s : Shape) (q : MmapPtr) : ChunkPtr :=
  ⟨metaOf q.pid (s.region q).vmaId, (s.region q).numchunks * sizeofChunkobj⟩

/-- A new chunk record of region `q`. -/
def addChunk (s : Shape) (q : MmapPtr) (metaOffset : ℕ) (e : Extent) : Shape :=
  let m := s.region q
  { s with
    region := update s.region q ⟨m.procId, m.vmaId, m.length, m.numchunks + 1, metaOffset⟩
    extent := update s.extent (s.nextChunk q) e }

theorem addFile_fileSize (s : Shape) (p : ℕ) (h : HeaderShape) (n : ℕ) :
    (s.addFile p h n).fileSize = update s.fileSize ⟨p, h.numMmaps + 1⟩ (some n) := rfl

end Shape

open Shape

variable {s : Shape} {p : ℕ}

/-! ## The scans afterwards -/

variable {p' : ℕ} {q : MmapPtr} {h : HeaderShape}

theorem isRegion_addHeader (hnone : s.header p = none) :
    IsRegion (s.addHeader p) p' q ↔ IsRegion s p' q := by
  unfold IsRegion
  by_cases h : p' = p
  · subst h
    simp [addHeader, hnone, mmapobjSlots]
  · simp [addHeader, h]

theorem isRegion_addFile (hh : s.header p = some h) {n : ℕ} :
    IsRegion (s.addFile p h n) p' q ↔ IsRegion s p' q := by
  unfold IsRegion
  by_cases hp : p' = p
  · subst hp
    simp [addFile, hh]
  · simp [addFile, hp]

/-- One region is added to the scan of `p`, none to any other. -/
theorem isRegion_addRegion (hh : s.header p = some h) {v len : ℕ} :
    IsRegion (s.addRegion p h v len) p' q ↔
      IsRegion s p' q ∨ p' = p ∧ q = mmapobjSlot p h.pesistMmaps := by
  unfold IsRegion
  by_cases hp : p' = p
  · subst hp
    simp [addRegion, hh, mem_mmapobjSlots_succ]
  · simp [addRegion, hp]

theorem isRegion_addChunk {q₀ : MmapPtr} {o : ℕ} {e : Extent} :
    IsRegion (s.addChunk q₀ o e) p' q ↔ IsRegion s p' q := Iff.rfl

/-- One chunk is added to the scan of `q₀`, none to any other. -/
theorem isChunk_addChunk {q₀ : MmapPtr} {o : ℕ} {e : Extent} {c : ChunkPtr} :
    IsChunk (s.addChunk q₀ o e) q c ↔ IsChunk s q c ∨ q = q₀ ∧ c = s.nextChunk q₀ := by
  unfold IsChunk
  by_cases hq : q = q₀
  · subst hq
    simp [addChunk, mem_chunkSlots_succ, nextChunk]
  · simp [addChunk, hq]

/-- The next chunk slot is not scanned yet. -/
theorem nextChunk_not_isChunk (hs : ShapeOk s) (hq : IsRegion s p q) {q' : MmapPtr}
    (hq' : IsRegion s p' q') : ¬ IsChunk s q' (s.nextChunk q) := by
  intro hc
  obtain ⟨hp, hv⟩ := metaOf_inj.mp hc.file_eq
  rw [hq.pid_eq, hq'.pid_eq] at hp
  subst hp
  have := hs.vmaInj hq hq' hv
  subst this
  exact chunkSlot_notMem hc

/-- Records from `pesist_mmaps` on are not scanned. -/
theorem not_isRegion_slot (hh : s.header p = some h) {i : ℕ} (hi : h.pesistMmaps ≤ i) :
    ¬ IsRegion s p' (mmapobjSlot p i) := by
  intro hq
  have hp : p = p' := hq.pid_eq
  subst hp
  obtain ⟨h', hh', hmem⟩ := hq
  rw [hh] at hh'
  cases hh'
  exact mmapobjSlot_notMem hi hmem

/-! ## The layout stays consistent -/

theorem ShapeOk.addHeader (hs : ShapeOk s) (hnone : s.header p = none) :
    ShapeOk (s.addHeader p) := by
  have hreg : ∀ {p' q}, IsRegion s p' q → (s.addHeader p).region q = s.region q := by
    intro p' q hq
    have hne : q.pid ≠ p := by
      intro hpid
      obtain ⟨h, hh, -⟩ := (hq.pid_eq.symm.trans hpid) ▸ hq
      rw [hnone] at hh
      cases hh
    simp [Shape.addHeader, hne]
  have hhead : ∀ {p' h}, (s.addHeader p).header p' = some h →
      p' = p ∧ h = ⟨p, 0, 0, sizeofProc⟩ ∨ p' ≠ p ∧ s.header p' = some h := by
    intro p' h hh
    by_cases hp : p' = p
    · subst hp
      simp only [Shape.addHeader, update_self, Option.some.injEq] at hh
      exact .inl ⟨rfl, hh.symm⟩
    · simp only [Shape.addHeader, update_of_ne hp] at hh
      exact .inr ⟨hp, hh⟩
  constructor
  · intro p' h hh
    rcases hhead hh with ⟨rfl, rfl⟩ | ⟨-, hh⟩
    · rfl
    · exact hs.pid hh
  · intro p' h hh
    rcases hhead hh with ⟨rfl, rfl⟩ | ⟨-, hh⟩
    · simp
    · exact hs.append hh
  · intro p' q hq
    rw [isRegion_addHeader hnone] at hq
    rw [hreg hq]
    exact hs.procId hq
  · intro p' q hq
    rw [isRegion_addHeader hnone] at hq
    rw [hreg hq]
    exact hs.vmaPos hq
  · intro p' q h hq hh
    rw [isRegion_addHeader hnone] at hq
    rw [hreg hq]
    rcases hhead hh with ⟨rfl, rfl⟩ | ⟨-, hh⟩
    · obtain ⟨h, hh, -⟩ := hq
      rw [hnone] at hh
      cases hh
    · exact hs.vmaLe hq hh
  · intro p' q q' hq hq' hv
    rw [isRegion_addHeader hnone] at hq hq'
    rw [hreg hq, hreg hq'] at hv
    exact hs.vmaInj hq hq' hv
  · intro p' q hq
    rw [isRegion_addHeader hnone] at hq
    rw [hreg hq]
    exact hs.file hq
  · intro p' q c n hq hc hn
    rw [isRegion_addHeader hnone] at hq
    unfold IsChunk at hc
    rw [hreg hq] at hc hn
    exact hs.extent hq hc hn
  · intro p' h i hh hi
    rcases hhead hh with ⟨rfl, rfl⟩ | ⟨hp, hh⟩
    · simp [Shape.addHeader, mmapobjSlot]
    · have hne : (mmapobjSlot p' i).pid ≠ p := hp
      simp only [Shape.addHeader, if_neg hne]
      exact hs.blank hh hi
  · intro p' v hv
    obtain ⟨h, hh, hle⟩ := hs.fileOwner hv
    have hp : p' ≠ p := by
      rintro rfl
      rw [hnone] at hh
      cases hh
    exact ⟨h, by simp only [Shape.addHeader, update_of_ne hp]; exact hh, hle⟩

theorem ShapeOk.addFile (hs : ShapeOk s) (hh : s.header p = some h) (n : ℕ) :
    ShapeOk (s.addFile p h n) := by
  -- the new file has an id above all regions, so no region changes its file
  have hfile : ∀ {p' q}, IsRegion s p' q → (s.addFile p h n).fileSize ⟨p', (s.region q).vmaId⟩ =
      s.fileSize ⟨p', (s.region q).vmaId⟩ := by
    intro p' q hq
    apply update_of_ne
    intro heq
    obtain ⟨rfl, hv⟩ := DataFile.mk.inj heq
    have := hs.vmaLe hq hh
    omega
  have hhead : ∀ {p' h'}, (s.addFile p h n).header p' = some h' →
      p' = p ∧ h' = { h with numMmaps := h.numMmaps + 1 } ∨ p' ≠ p ∧ s.header p' = some h' := by
    intro p' h' hh'
    by_cases hp : p' = p
    · subst hp
      simp only [Shape.addFile, update_self, Option.some.injEq] at hh'
      exact .inl ⟨rfl, hh'.symm⟩
    · simp only [Shape.addFile, update_of_ne hp] at hh'
      exact .inr ⟨hp, hh'⟩
  constructor
  · intro p' h' hh'
    rcases hhead hh' with ⟨rfl, rfl⟩ | ⟨-, hh'⟩
    · exact (hs.pid hh :)
    · exact hs.pid hh'
  · intro p' h' hh'
    rcases hhead hh' with ⟨rfl, rfl⟩ | ⟨-, hh'⟩
    · exact (hs.append hh :)
    · exact hs.append hh'
  · intro p' q hq
    exact hs.procId ((isRegion_addFile hh).mp hq)
  · intro p' q hq
    exact hs.vmaPos ((isRegion_addFile hh).mp hq)
  · intro p' q h' hq hh'
    rw [isRegion_addFile hh] at hq
    rcases hhead hh' with ⟨rfl, rfl⟩ | ⟨-, hh'⟩
    · exact (hs.vmaLe hq hh).trans (Nat.le_succ _)
    · exact hs.vmaLe hq hh'
  · intro p' q q' hq hq' hv
    exact hs.vmaInj ((isRegion_addFile hh).mp hq) ((isRegion_addFile hh).mp hq') hv
  · intro p' q hq
    rw [isRegion_addFile hh] at hq
    have hf := hs.file hq
    rw [← hfile hq] at hf
    exact hf
  · intro p' q c m hq hc hm
    rw [isRegion_addFile hh] at hq
    have hm' := (hfile hq).symm.trans hm
    exact hs.extent hq hc hm'
  · intro p' h' i hh' hi
    rcases hhead hh' with ⟨rfl, rfl⟩ | ⟨-, hh'⟩
    · exact hs.blank hh hi
    · exact hs.blank hh' hi
  · intro p' v hv
    by_cases hp : p' = p
    · subst hp
      refine ⟨_, update_self .., ?_⟩
      by_cases hv' : v = h.numMmaps + 1
      · exact hv'.le
      · have hne : s.fileSize ⟨p', v⟩ ≠ none := by
          have hk : (⟨p', v⟩ : DataFile) ≠ ⟨p', h.numMmaps + 1⟩ := fun heq =>
            hv' (DataFile.mk.inj heq).2
          rwa [addFile_fileSize, update_of_ne hk] at hv
        obtain ⟨h', hh', hle⟩ := hs.fileOwner hne
        rw [hh] at hh'
        cases hh'
        exact hle.trans (Nat.le_succ _)
    · have hk : (⟨p', v⟩ : DataFile) ≠ ⟨p, h.numMmaps + 1⟩ := fun heq => hp (DataFile.mk.inj heq).1
      rw [addFile_fileSize, update_of_ne hk] at hv
      obtain ⟨h', hh', hle⟩ := hs.fileOwner hv
      exact ⟨h', (update_of_ne hp ..).trans hh', hle⟩

theorem ShapeOk.addChunk (hs : ShapeOk s) (hq : IsRegion s p q) {n o : ℕ} {e : Extent}
    (hn : s.fileSize ⟨p, (s.region q).vmaId⟩ = some n) (hpid : e.pid = p) (hpos : 0 < e.length)
    (hle : e.offset + e.length ≤ n) : ShapeOk (s.addChunk q o e) := by
  have hprocId : ∀ q', ((s.addChunk q o e).region q').procId = (s.region q').procId := by
    intro q'
    by_cases h : q' = q <;> simp [Shape.addChunk, h]
  have hvma : ∀ q', ((s.addChunk q o e).region q').vmaId = (s.region q').vmaId := by
    intro q'
    by_cases h : q' = q <;> simp [Shape.addChunk, h]
  have hlength : ∀ q', ((s.addChunk q o e).region q').length = (s.region q').length := by
    intro q'
    by_cases h : q' = q <;> simp [Shape.addChunk, h]
  constructor
  · exact fun hh => hs.pid hh
  · exact fun hh => hs.append hh
  · intro p' q' hq'
    rw [hprocId]
    exact hs.procId hq'
  · intro p' q' hq'
    rw [hvma]
    exact hs.vmaPos hq'
  · intro p' q' h hq' hh
    rw [hvma]
    exact hs.vmaLe hq' hh
  · intro p' q₁ q₂ hq₁ hq₂ hv
    rw [hvma, hvma] at hv
    exact hs.vmaInj hq₁ hq₂ hv
  · intro p' q' hq'
    rw [hvma, hlength]
    exact hs.file hq'
  · intro p' q' c m hq' hc hm
    rw [hvma] at hm
    rcases isChunk_addChunk.mp hc with hc | ⟨rfl, rfl⟩
    · have hne : c ≠ s.nextChunk q := by
        rintro rfl
        exact nextChunk_not_isChunk hs hq hq' hc
      simp only [Shape.addChunk, update_of_ne hne]
      exact hs.extent hq' hc hm
    · have hp : p' = p := hq'.pid_eq.symm.trans hq.pid_eq
      subst hp
      have hmn : m = n := Option.some.inj (hm.symm.trans hn)
      subst hmn
      simp only [Shape.addChunk, update_self]
      exact ⟨hpid, hpos, hle⟩
  · intro p' h i hh hi
    have hne : mmapobjSlot p' i ≠ q := by
      rintro rfl
      exact not_isRegion_slot hh hi hq
    simp only [Shape.addChunk, update_of_ne hne]
    exact hs.blank hh hi
  · exact fun hv => hs.fileOwner hv

/-- The region record of an appended region, and those of all others. -/
theorem region_addRegion (hh : s.header p = some h) {v len : ℕ} (hq : IsRegion s p' q) :
    (s.addRegion p h v len).region q = s.region q := by
  apply update_of_ne
  rintro rfl
  exact not_isRegion_slot hh le_rfl hq

theorem ShapeOk.addRegion (hs : ShapeOk s) (hh : s.header p = some h) {v len n : ℕ} (hpos : 0 < v)
    (hle : v ≤ h.numMmaps) (hfresh : ∀ {q}, IsRegion s p q → (s.region q).vmaId ≠ v)
    (hn : s.fileSize ⟨p, v⟩ = some n) (hlen : n ≤ len) : ShapeOk (s.addRegion p h v len) := by
  have hold : ∀ {p' q}, IsRegion s p' q → (s.addRegion p h v len).region q = s.region q :=
    fun hq => region_addRegion hh hq
  have hnew : (s.addRegion p h v len).region (mmapobjSlot p h.pesistMmaps) = ⟨p, v, len, 0, 0⟩ :=
    update_self ..
  have hhead : ∀ {p' h'}, (s.addRegion p h v len).header p' = some h' →
      p' = p ∧ h' = ⟨h.pid, h.pesistMmaps + 1, h.numMmaps, h.metaOffset + sizeofMmapobj⟩ ∨
        p' ≠ p ∧ s.header p' = some h' := by
    intro p' h' hh'
    by_cases hp : p' = p
    · subst hp
      simp only [Shape.addRegion, update_self, Option.some.injEq] at hh'
      exact .inl ⟨rfl, hh'.symm⟩
    · simp only [Shape.addRegion, update_of_ne hp] at hh'
      exact .inr ⟨hp, hh'⟩
  constructor
  · intro p' h' hh'
    rcases hhead hh' with ⟨rfl, rfl⟩ | ⟨-, hh'⟩
    · exact (hs.pid hh :)
    · exact hs.pid hh'
  · intro p' h' hh'
    rcases hhead hh' with ⟨rfl, rfl⟩ | ⟨-, hh'⟩
    · have := hs.append hh
      simp only [sizeofMmapobj] at this ⊢
      omega
    · exact hs.append hh'
  · intro p' q hq₀
    rcases (isRegion_addRegion hh).mp hq₀ with hq | ⟨rfl, rfl⟩
    · rw [hold hq]
      exact hs.procId hq
    · rw [hnew]
  · intro p' q hq₀
    rcases (isRegion_addRegion hh).mp hq₀ with hq | ⟨rfl, rfl⟩
    · rw [hold hq]
      exact hs.vmaPos hq
    · rw [hnew]
      exact hpos
  · intro p' q h' hq₀ hh'
    rcases (isRegion_addRegion hh).mp hq₀ with hq | ⟨rfl, rfl⟩
    · rw [hold hq]
      rcases hhead hh' with ⟨rfl, rfl⟩ | ⟨-, hh'⟩
      · exact (hs.vmaLe hq hh :)
      · exact hs.vmaLe hq hh'
    · rw [hnew]
      rcases hhead hh' with ⟨-, rfl⟩ | ⟨hne, -⟩
      · exact hle
      · exact absurd rfl hne
  · intro p' q q' hq₀ hq₀' hv
    rcases (isRegion_addRegion hh).mp hq₀ with hq | ⟨rfl, rfl⟩ <;>
      rcases (isRegion_addRegion hh).mp hq₀' with hq' | ⟨hp, rfl⟩
    · rw [hold hq, hold hq'] at hv
      exact hs.vmaInj hq hq' hv
    · subst hp
      rw [hold hq, hnew] at hv
      exact absurd hv (hfresh hq)
    · rw [hold hq', hnew] at hv
      exact absurd hv.symm (hfresh hq')
    · rfl
  · intro p' q hq₀
    rcases (isRegion_addRegion hh).mp hq₀ with hq | ⟨rfl, rfl⟩
    · rw [hold hq]
      exact hs.file hq
    · rw [hnew]
      exact ⟨n, hn, hlen⟩
  · intro p' q c m hq₀ hc hm
    unfold IsChunk at hc
    rcases (isRegion_addRegion hh).mp hq₀ with hq | ⟨rfl, rfl⟩
    · rw [hold hq] at hc hm
      -- the emptied metadata file belongs to no older region
      have hne : c.file ≠ metaOf p v := by
        rw [IsChunk.file_eq hc]
        intro heq
        obtain ⟨hp, hv⟩ := metaOf_inj.mp heq
        rw [hq.pid_eq] at hp
        subst hp
        exact hfresh hq hv
      simp only [Shape.addRegion, if_neg hne]
      exact hs.extent hq hc hm
    · rw [hnew] at hc
      simp [chunkSlots] at hc
  · intro p' h' i hh' hi
    rcases hhead hh' with ⟨rfl, rfl⟩ | ⟨hp, hh'⟩
    · have hne : mmapobjSlot p' i ≠ mmapobjSlot p' h.pesistMmaps := by
        rw [ne_eq, mmapobjSlot_inj]
        simp only at hi
        omega
      simp only [Shape.addRegion, update_of_ne hne]
      exact hs.blank hh (by simp only at hi; omega)
    · have hne : mmapobjSlot p' i ≠ mmapobjSlot p h.pesistMmaps := fun heq =>
        hp (congrArg MmapPtr.pid heq)
      simp only [Shape.addRegion, update_of_ne hne]
      exact hs.blank hh' hi
  · intro p' v' hv
    obtain ⟨h', hh', hle'⟩ := hs.fileOwner hv
    by_cases hp : p' = p
    · subst hp
      rw [hh] at hh'
      cases hh'
      exact ⟨_, update_self .., hle'⟩
    · exact ⟨h', (update_of_ne hp ..).trans hh', hle'⟩
