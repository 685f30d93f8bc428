/-
# What the lookups of a loaded process find

`Loaded st p` says that the memory of the run holds the indexes of process `p`:
a tree of exactly its regions and, for each region, a tree whose entries are
chunks of the process.  The entries of the chunk trees are read through
`Disk.entry`.

On a loaded process, a search for an id finds the entry of the region with the
greatest id that has one (`Finds`), or no region has one (`Missing`), and it
neither writes nor fails.
-/
import NvMalloc.Mapped
import NvMalloc.TreeWalk

open WriteM

/-- What the chunk tree of region `q` holds under key `k`. -/
def Disk.entry (d : Disk) (q : MmapPtr) (k : ℕ) : Option ChunkPtr :=
  if (d.mmapobj q).chunkTreeInit then (d.mmapobj q).chunkobjTree.bind fun t => t.tree.find k
  else none

@[simp] theorem shape_region_vmaId (d : Disk) (q : MmapPtr) :
    (d.shape.region q).vmaId = (d.mmapobj q).vmaId := rfl

@[simp] theorem shape_region_length (d : Disk) (q : MmapPtr) :
    (d.shape.region q).length = (d.mmapobj q).length := rfl

@[simp] theorem shape_region_numchunks (d : Disk) (q : MmapPtr) :
    (d.shape.region q).numchunks = (d.mmapobj q).numchunks := rfl

/-- Process `p` is in the process tree. -/
def Registered (st : Store) (p : ℕ) : Prop := st.findProcess p = some p

/-- Some chunk tree of process `p` has an entry for chunk `c`. -/
def Indexed (d : Disk) (p : ℕ) (c : ChunkPtr) : Prop :=
  ∃ q k, IsRegion d.shape p q ∧ d.entry q k = some c

/-- The indexes of process `p` are in memory. -/
structure Loaded (st : Store) (p : ℕ) : Prop where
  header : ∃ h t, st.disk.proc p = some h ∧ h.mmapobjInitialized = true ∧
    h.mmapobjTree = some ⟨st.ram.run, t⟩ ∧
    ∀ v q, t.find v = some q ↔ IsRegion st.disk.shape p q ∧ (st.disk.mmapobj q).vmaId = v
  mapped : ∀ {q}, IsRegion st.disk.shape p q → (st.disk.mmapobj q).dataAddr ≠ 0 ∧
    ⟨(st.disk.mmapobj q).dataAddr, (st.disk.mmapobj q).length, p, (st.disk.mmapobj q).vmaId⟩ ∈
      st.ram.maps
  strtAddr : ∀ {q}, IsRegion st.disk.shape p q →
    (st.disk.mmapobj q).strtAddr = some (metaOf p (st.disk.mmapobj q).vmaId)
  chunkTree : ∀ {q}, IsRegion st.disk.shape p q → (st.disk.mmapobj q).chunkTreeInit = true →
    ∃ t, (st.disk.mmapobj q).chunkobjTree = some ⟨st.ram.run, t⟩
  indexed : ∀ {c}, Indexed st.disk p c → InScan st.disk.shape p c
  nvPtr : ∀ {q c}, IsRegion st.disk.shape p q → IsChunk st.disk.shape q c →
    (st.disk.chunk c).valid = .VALID ∨ Indexed st.disk p c →
    (st.disk.chunk c).nvPtr = (st.disk.mmapobj q).dataAddr + (st.disk.chunk c).offset

/-- The search for `id` ends at chunk `c` of region `q`. -/
structure Finds (d : Disk) (p id : ℕ) (q : MmapPtr) (c : ChunkPtr) : Prop where
  region : IsRegion d.shape p q
  entry : d.entry q id = some c
  greatest : ∀ {q'}, IsRegion d.shape p q' → (d.mmapobj q).vmaId < (d.mmapobj q').vmaId →
    d.entry q' id = none

/-- No region of `p` has an entry for `id`. -/
def Missing (d : Disk) (p id : ℕ) : Prop := ∀ q, IsRegion d.shape p q → d.entry q id = none

/-- The tree of region `q` of process `p` has chunk `c` under `k`. -/
def EntryAt (d : Disk) (p : ℕ) (q : MmapPtr) (k : ℕ) (c : ChunkPtr) : Prop :=
  IsRegion d.shape p q ∧ d.entry q k = some c

variable {d : Disk} {p id : ℕ} {q : MmapPtr} {c : ChunkPtr}

theorem Finds.entryAt {k : ℕ} (hf : Finds d p k q c) :
    EntryAt d p q k c := ⟨hf.region, hf.entry⟩

/-- The entry that is found is that of the region with the greatest id. -/
theorem finds_iff_entryAt {k : ℕ} :
    Finds d p k q c ↔ EntryAt d p q k c ∧
      ∀ {q' c'}, EntryAt d p q' k c' → (d.mmapobj q').vmaId ≤ (d.mmapobj q).vmaId := by
  constructor
  · intro hf
    refine ⟨hf.entryAt, ?_⟩
    intro q' c' he
    by_contra hlt
    have hnone := hf.greatest he.1 (Nat.lt_of_not_le hlt)
    rw [he.2] at hnone
    cases hnone
  · rintro ⟨he, hmax⟩
    refine ⟨he.1, he.2, ?_⟩
    intro q' hq' hlt
    by_contra hne
    obtain ⟨c', hc'⟩ := Option.ne_none_iff_exists'.mp hne
    have hle := hmax ⟨hq', hc'⟩
    omega

/-- A search has one result. -/
theorem Finds.unique (hs : ShapeOk d.shape) {q' : MmapPtr} {c' : ChunkPtr} (h : Finds d p id q c)
    (h' : Finds d p id q' c') : q = q' ∧ c = c' := by
  have hq : q = q' := by
    rcases lt_trichotomy (d.mmapobj q).vmaId (d.mmapobj q').vmaId with hlt | heq | hgt
    · have := h.greatest h'.region hlt
      rw [h'.entry] at this
      cases this
    · exact hs.vmaInj h.region h'.region heq
    · have := h'.greatest h.region hgt
      rw [h.entry] at this
      cases this
  subst hq
  exact ⟨rfl, Option.some.inj (h.entry.symm.trans h'.entry)⟩

theorem Finds.not_missing (h : Finds d p id q c) (hmiss : Missing d p id) : False := by
  have := hmiss q h.region
  rw [h.entry] at this
  cases this

/-! ## The walk over the region tree -/

/-- `find_chunk` behind the test of `chunk_tree_init` reads the entry. -/
theorem searchRegion_eq_entry {st : Store}
    (hq : (st.disk.mmapobj q).chunkTreeInit = true →
      ∃ t, (st.disk.mmapobj q).chunkobjTree = some ⟨st.ram.run, t⟩) (id : ℕ) :
    st.searchRegion q id = some (st.disk.entry q id) := by
  by_cases hinit : (st.disk.mmapobj q).chunkTreeInit = true
  · obtain ⟨t, ht⟩ := hq hinit
    simp [Store.searchRegion, Store.findChunk, Disk.entry, hinit, ht, TreeRef.deref]
  · simp [Store.searchRegion, Disk.entry, hinit]

/-- The walk returns the id of the first region from the right that has an entry. -/
theorem findVmaidFromChunk_eq {st : Store} {t : RbtreeNode MmapPtr}
    (hne : ∀ e ∈ t.toList, (st.disk.mmapobj e.2).vmaId ≠ 0)
    (htree : ∀ e ∈ t.toList, (st.disk.mmapobj e.2).chunkTreeInit = true →
      ∃ t, (st.disk.mmapobj e.2).chunkobjTree = some ⟨st.ram.run, t⟩) :
    st.findVmaidFromChunk id t =
      some (((t.lastMatch fun q => (st.disk.entry q id).isSome).map fun e =>
        (st.disk.mmapobj e.2).vmaId).getD 0) := by
  induction t with
  | nil => rfl
  | node c l k q r ihl ihr =>
    simp only [RbtreeNode.toList, List.mem_append, List.mem_cons] at hne htree
    have hright := ihr (fun e he => hne e (.inr (.inr he)))
      (fun e he => htree e (.inr (.inr he)))
    have hleft := ihl (fun e he => hne e (.inl he)) (fun e he => htree e (.inl he))
    have hchunk : st.searchRegion q id = some (st.disk.entry q id) :=
      searchRegion_eq_entry (htree (k, q) (.inr (.inl rfl))) id
    rw [RbtreeNode.lastMatch_node, Store.findVmaidFromChunk, hright]
    cases hr : r.lastMatch fun q => (st.disk.entry q id).isSome with
    | some e =>
      -- the right subtree already has the answer
      have hpos := hne e (.inr (.inr (RbtreeNode.mem_of_lastMatch hr)))
      simp [hpos]
    | none =>
      cases hentry : st.disk.entry q id with
      | some c' => simp [hchunk, hentry]
      | none => simp [hchunk, hentry, hleft]

/-- The walk from the greatest region id downwards stops at the first region
with an entry, and returns `0` when there is none. -/
theorem findVmaidFromChunk_spec {st : Store} {t : RbtreeNode MmapPtr}
    (hord : t.Ordered)
    (hvma : ∀ e ∈ t.toList, (st.disk.mmapobj e.2).vmaId = e.1 ∧ e.1 ≠ 0)
    (htree : ∀ e ∈ t.toList, (st.disk.mmapobj e.2).chunkTreeInit = true →
      ∃ t, (st.disk.mmapobj e.2).chunkobjTree = some ⟨st.ram.run, t⟩) :
    (st.findVmaidFromChunk id t = some 0 ∧ ∀ e ∈ t.toList, st.disk.entry e.2 id = none) ∨
    ∃ e ∈ t.toList, st.findVmaidFromChunk id t = some e.1 ∧ (st.disk.entry e.2 id).isSome ∧
      ∀ e' ∈ t.toList, e.1 < e'.1 → st.disk.entry e'.2 id = none := by
  rw [findVmaidFromChunk_eq (fun e he => by rw [(hvma e he).1]; exact (hvma e he).2) htree]
  cases hmatch : t.lastMatch fun q => (st.disk.entry q id).isSome with
  | none =>
    refine .inl ⟨rfl, fun e he => ?_⟩
    simpa using RbtreeNode.lastMatch_eq_none_iff.mp hmatch e he
  | some e =>
    obtain ⟨he, hsome, hmax⟩ := RbtreeNode.greatest_of_lastMatch hord hmatch
    refine .inr ⟨e, he, by simp [(hvma e he).1], hsome, fun e' he' hlt => ?_⟩
    by_contra hentry
    exact absurd (hmax e' he' (Option.isSome_iff_ne_none.mpr hentry)) (by omega)

/-! ## The lookups of a loaded process -/

section Loaded

variable {st : Store} {p id : ℕ}

/-- `find_mmapobj_from_chunkid` on a loaded process. -/
theorem findMmapobjFromChunkid_run (hs : ShapeOk st.disk.shape) (hl : Loaded st p) (id : ℕ) :
    (Missing st.disk p id ∧ findMmapobjFromChunkid id p st = some (none, [])) ∨
    ∃ q c, Finds st.disk p id q c ∧ findMmapobjFromChunkid id p st = some (some q, []) := by
  obtain ⟨h, t, hproc, hinit, htree, hfind⟩ := hl.header
  have hmem : ∀ e ∈ t.root.toList, IsRegion st.disk.shape p e.2 ∧
    (st.disk.mmapobj e.2).vmaId = e.1 :=
    fun e he => (hfind e.1 e.2).mp ((t.find_eq_some_iff e.1 e.2).mpr he)
  have hback : ∀ {q}, IsRegion st.disk.shape p q → ((st.disk.mmapobj q).vmaId, q) ∈ t.root.toList :=
    fun hq => (t.find_eq_some_iff _ _).mp ((hfind _ _).mpr ⟨hq, rfl⟩)
  have hrun : ∀ {vmid}, st.findVmaidFromChunk id t.root = some vmid →
      findMmapobjFromChunkid id p st = some (if vmid = 0 then none else t.find vmid, []) := by
    intro vmid hv
    simp [findMmapobjFromChunkid, run_bind_eq, hproc, hinit, htree, TreeRef.deref, hv]
  have hpos : ∀ e ∈ t.root.toList, (st.disk.mmapobj e.2).vmaId = e.1 ∧ e.1 ≠ 0 := by
    intro e he
    have hv := hs.vmaPos (hmem e he).1
    rw [shape_region_vmaId, (hmem e he).2] at hv
    exact ⟨(hmem e he).2, by omega⟩
  rcases findVmaidFromChunk_spec t.ordered hpos
      (fun e he => hl.chunkTree (hmem e he).1) with ⟨hv, hnone⟩ | ⟨e, he, hv, hsome, hgt⟩
  · refine .inl ⟨fun q hq => hnone _ (hback hq), ?_⟩
    rw [hrun hv, if_pos rfl]
  · obtain ⟨c, hc⟩ := Option.isSome_iff_exists.mp hsome
    refine .inr ⟨e.2, c, ⟨(hmem e he).1, hc, ?_⟩, ?_⟩
    · intro q' hq' hlt
      rw [(hmem e he).2] at hlt
      exact hgt _ (hback hq') hlt
    · rw [hrun hv, if_neg (hpos e he).2, (t.find_eq_some_iff e.1 e.2).mpr he]

variable {q : MmapPtr} {c : ChunkPtr}

/-- The tree of a region in which something was found. -/
theorem Finds.tree (hl : Loaded st p) (hf : Finds st.disk p id q c) :
    ∃ t, (st.disk.mmapobj q).chunkobjTree = some ⟨st.ram.run, t⟩ ∧ t.find id = some c := by
  have hentry := hf.entry
  unfold Disk.entry at hentry
  by_cases hinit : (st.disk.mmapobj q).chunkTreeInit = true
  · obtain ⟨t, ht⟩ := hl.chunkTree hf.region hinit
    rw [if_pos hinit, ht] at hentry
    exact ⟨t, ht, hentry⟩
  · rw [if_neg hinit] at hentry
    cases hentry

theorem Finds.indexed (hf : Finds st.disk p id q c) :
    Indexed st.disk p c := ⟨q, id, hf.region, hf.entry⟩

end Loaded
