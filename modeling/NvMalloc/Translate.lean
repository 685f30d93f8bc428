/-
# Pointers of the run before

`load_valid_addr` searches the pointer list with a comparison that reads the length of each
chunk it meets, and then looks the chunk up a second time, by its id and without a name.

For chunks whose old ranges are disjoint the search finds the chunk that contained the
pointer, whatever the shape of the tree, and the second lookup finds it again among chunks with
different ids.  Only when no chunk was restored there is no tree, and `load_valid_addr` reads a
null pointer.
-/
import NvMalloc.RangeTree
import NvMalloc.Rename
import NvMalloc.Swizzle

open WriteM Beside Option

/-! ## The search in the pointer list -/

/-- The address lies in the range that the chunk had in the run before. -/
def Disk.OldRange (d : Disk) (c : ChunkPtr) (a : ℕ) : Prop :=
  (d.chunk c).nvPtr ≤ a ∧ a < (d.chunk c).nvPtr + (d.chunk c).length

/-- The restored chunks have different ids. -/
def DistinctIds (d : Disk) (ps : List ℕ) : Prop :=
  ∀ c ∈ d.restoredFor ps, ∀ c' ∈ d.restoredFor ps,
    (d.chunk c).chunkid = (d.chunk c').chunkid → c = c'

/-- Their ranges in the run before were disjoint and did not wrap. -/
structure OldRanges (d : Disk) (ps : List ℕ) : Prop where
  apart : ∀ c ∈ d.restoredFor ps, ∀ c' ∈ d.restoredFor ps, c ≠ c' →
    (d.chunk c).nvPtr + (d.chunk c).length ≤ (d.chunk c').nvPtr ∨
      (d.chunk c').nvPtr + (d.chunk c').length ≤ (d.chunk c).nvPtr
  noWrap : ∀ c ∈ d.restoredFor ps, (d.chunk c).nvPtr + (d.chunk c).length < 2 ^ 64

instance (d : Disk) (c : ChunkPtr) (a : ℕ) : Decidable (d.OldRange c a) :=
  inferInstanceAs (Decidable (_ ∧ _))

instance (d : Disk) (ps : List ℕ) : Decidable (DistinctIds d ps) :=
  inferInstanceAs (Decidable (∀ c ∈ d.restoredFor ps, ∀ c' ∈ d.restoredFor ps, _ → c = c'))

instance (d : Disk) (ps : List ℕ) : Decidable (OldRanges d ps) :=
  decidable_of_iff ((∀ c ∈ d.restoredFor ps, ∀ c' ∈ d.restoredFor ps, c ≠ c' →
      (d.chunk c).nvPtr + (d.chunk c).length ≤ (d.chunk c').nvPtr ∨
        (d.chunk c').nvPtr + (d.chunk c').length ≤ (d.chunk c).nvPtr) ∧
      ∀ c ∈ d.restoredFor ps, (d.chunk c).nvPtr + (d.chunk c).length < 2 ^ 64)
    ⟨fun h => ⟨h.1, h.2⟩, fun h => ⟨h.apart, h.noWrap⟩⟩

variable {ps : List ℕ}

theorem mem_restoredFor {d : Disk} (hs : ShapeOk d.shape) {c : ChunkPtr} :
    c ∈ d.restoredFor ps ↔ ∃ p ∈ ps, InScan d.shape p c ∧ (d.chunk c).valid = .VALID := by
  simp only [Disk.restoredFor, List.mem_flatMap, mem_restoredChunks hs]

/-- `CompPtrLstRange` compares as `CompRange` does. -/
theorem compPtrLstRange_eq (st : Store) (a b : ℕ) (c : ChunkPtr) :
    compPtrLstRange st a b c =
      compRange a b ⟨b, ((st.disk.chunk c).length + b) % 2 ^ 64, 0, 0⟩ := by
  unfold compPtrLstRange compRange
  simp only
  by_cases hab : a = b
  · subst hab
    simp
  · have hle : b ≤ a ↔ b < a := by omega
    simp only [hle]

/-- The pointer list is that of the chunks restored from the files `d`, which keep their lengths. -/
structure PtrsRecorded (d : Disk) (ps : List ℕ) (s : SwizzStore) : Prop where
  files : ShapeOk d.shape
  length : ∀ c ∈ d.restoredFor ps, (s.store.disk.chunk c).length = (d.chunk c).length
  ptrs : ∃ old : ChunkPtr → ℕ, s.side = PtrList.recordAll { oldNvPtr := old }
    (fun c => (d.chunk c).nvPtr) (d.restoredFor ps)

theorem RestoredFrom.recorded {d : Disk} {s : SwizzStore} (h : RestoredFrom d ps s) :
    PtrsRecorded d ps s :=
  ⟨h.files, fun c _ => (congrArg Chunkobj.length (h.chunk c) :), h.ptrs⟩

namespace PtrsRecorded

variable {d : Disk} {ps : List ℕ} {s : SwizzStore} (h : PtrsRecorded d ps s)
include h

theorem length_pos {c : ChunkPtr} (hc : c ∈ d.restoredFor ps) : 0 < (d.chunk c).length := by
  obtain ⟨p, -, hscan, -⟩ := (mem_restoredFor h.files).mp hc
  exact h.files.length_pos hscan

theorem oldNvPtr_eq {c : ChunkPtr} (hc : c ∈ d.restoredFor ps) :
    s.side.oldNvPtr c = (d.chunk c).nvPtr := by
  obtain ⟨old, hptrs⟩ := h.ptrs
  rw [hptrs, PtrList.oldNvPtr_recordAll, if_pos hc]

/-- The tree holds the restored chunks under their old addresses, and there is none without
such chunks. -/
theorem tree_eq : s.side.tree =
    if d.restoredFor ps = [] then none
    else some ((d.restoredFor ps).foldl (fun t c => t.insert (d.chunk c).nvPtr c) .empty) := by
  obtain ⟨old, hptrs⟩ := h.ptrs
  rw [hptrs, PtrList.tree_recordAll]
  rfl

theorem mem_foldl_insert (hr : OldRanges d ps) {e : ℕ × ChunkPtr} :
    e ∈ ((d.restoredFor ps).foldl (fun t c => t.insert (d.chunk c).nvPtr c)
        Rbtree.empty).root.toList ↔
      ∃ c ∈ d.restoredFor ps, e = ((d.chunk c).nvPtr, c) := by
  refine Rbtree.mem_foldl_insert ?_
  intro c hc c' hc' hkey
  by_contra hne
  have hpos := h.length_pos hc
  have hpos' := h.length_pos hc'
  rcases hr.apart c hc c' hc' hne with hle | hle <;> omega

/-- `find_from_ptrlst` finds the chunk whose old range contains the address. -/
theorem findFromPtrlst_eq (hr : OldRanges d ps) (hne : d.restoredFor ps ≠ []) {a : ℕ} (ha : a ≠ 0) :
    ∃ found, findFromPtrlst s a = some found ∧
      ∀ c, found = some c ↔ c ∈ d.restoredFor ps ∧ d.OldRange c a := by
  let t := (d.restoredFor ps).foldl (fun t c => t.insert (d.chunk c).nvPtr c) Rbtree.empty
  have htree : s.side.tree = some t := h.tree_eq.trans (if_neg hne)
  have hmem : ∀ {e}, e ∈ t.root.toList ↔ ∃ c ∈ d.restoredFor ps, e = ((d.chunk c).nvPtr, c) :=
    h.mem_foldl_insert hr
  have hend : ∀ {c}, c ∈ d.restoredFor ps →
      ((s.store.disk.chunk c).length + (d.chunk c).nvPtr) % 2 ^ 64 =
        (d.chunk c).nvPtr + (d.chunk c).length := by
    intro c hc
    rw [h.length c hc, Nat.add_comm, Nat.mod_eq_of_lt (hr.noWrap c hc)]
  -- along the tree the ranges do not overlap
  have hmono : RbtreeNode.Monotone (compPtrLstRange s.store a) t.root.toList := by
    let node : ℕ × ChunkPtr → ℕ × MmapobjNode := fun e =>
      (e.1, ⟨e.1, ((s.store.disk.chunk e.2).length + e.1) % 2 ^ 64, 0, 0⟩)
    have hpair : (t.root.toList.map node).Pairwise fun x y => x.1 < y.1 ∧ x.2.endAddr ≤ y.1 := by
      rw [List.pairwise_map]
      refine List.Pairwise.imp_of_mem ?_ t.ordered
      intro x y hx hy hlt
      obtain ⟨c, hc, rfl⟩ := hmem.mp hx
      obtain ⟨c', hc', rfl⟩ := hmem.mp hy
      simp only at hlt
      refine ⟨hlt, ?_⟩
      show ((s.store.disk.chunk c).length + (d.chunk c).nvPtr) % 2 ^ 64 ≤ (d.chunk c').nvPtr
      rw [hend hc]
      have hne : c ≠ c' := by
        rintro rfl
        exact lt_irrefl _ hlt
      rcases hr.apart c hc c' hc' hne with hle | hle
      · exact hle
      · omega
    have hcomp := monotone_compRange hpair a
    unfold RbtreeNode.Monotone at hcomp ⊢
    rw [List.pairwise_map] at hcomp
    simp only [compPtrLstRange_eq]
    exact hcomp
  have hcmp : ∀ {c}, c ∈ d.restoredFor ps →
      (compPtrLstRange s.store a (d.chunk c).nvPtr c = .eq ↔ d.OldRange c a) := by
    intro c hc
    have hpos := h.length_pos hc
    rw [compPtrLstRange_eq, hend hc]
    exact @compRange_eq_iff_of_lt a ⟨_, _, 0, 0⟩ (Nat.lt_add_of_pos_right hpos)
  refine ⟨t.findBy (compPtrLstRange s.store a), ?_, fun c => ?_⟩
  · rw [findFromPtrlst, if_neg ha, htree]
    rfl
  rw [Rbtree.findBy, RbtreeNode.lookupBy_eq_some_iff hmono]
  constructor
  · rintro ⟨k, hk, heq⟩
    obtain ⟨c', hc', hkc⟩ := hmem.mp hk
    cases hkc
    exact ⟨hc', (hcmp hc').mp heq⟩
  · rintro ⟨hc, hold⟩
    exact ⟨_, hmem.mpr ⟨c, hc, rfl⟩, (hcmp hc).mpr hold⟩

end PtrsRecorded

/-! ## The second lookup -/

section Lookup

variable {s : SwizzStore} {p id : ℕ}

/-- The request is for the id, also when that is 0: this is the hash of the empty name. -/
theorem chunkId_idRqst (p id : ℕ) : (idRqst p id).chunkId = id := by
  show (if id = 0 then genIdFromStr ObjName.empty else id) = id
  split
  · next hid =>
    rw [hid]
    rfl
  · rfl

/-- For a process that is in memory the lookup is that of the direct-mapped build. -/
theorem nvMapReadIn_exec (hi : StoreInv s.store p) (place : DataFile → ℕ) :
    (nvMapReadIn swizzling place (idRqst p id)).exec s =
      ((nvMapRead place (idRqst p id)).exec s.store).map fun r => (r.1, ⟨r.2, s.side⟩) := by
  refine mirrors_nvMapRead place (idRqst p id) fun hnone => ?_
  cases hi.findProcess.symm.trans hnone

theorem swizzNvMapRead_of_finds {q : MmapPtr} {c : ChunkPtr} (hi : StoreInv s.store p)
    (hf : Finds s.store.disk p id q c) (place : DataFile → ℕ) :
    (nvMapReadIn swizzling place (idRqst p id)).exec s = some ((s.store.disk.chunk c).read, s) := by
  have hf' : Finds s.store.disk (idRqst p id).pid (idRqst p id).chunkId q c := by
    rw [chunkId_idRqst]
    exact hf
  rw [nvMapReadIn_exec hi, nvMapRead_of_finds hi hf' place]
  rfl

theorem swizzNvMapRead_of_missing (hi : StoreInv s.store p) (hm : Missing s.store.disk p id)
    (place : DataFile → ℕ) :
    (nvMapReadIn swizzling place (idRqst p id)).exec s = some (none, s) := by
  have hm' : Missing s.store.disk (idRqst p id).pid (idRqst p id).chunkId := by
    rw [chunkId_idRqst]
    exact hm
  rw [nvMapReadIn_exec hi, nvMapRead_of_missing hi hm' place]
  rfl

end Lookup

namespace PtrsRecorded

variable {d : Disk} {ps : List ℕ} {s : SwizzStore}

/-- For a pointer into the old range of a chunk the lookup by the id in the record decides. -/
theorem loadValidAddr_inside (h : PtrsRecorded d ps s) (hr : OldRanges d ps) (place : DataFile → ℕ)
    {a : ℕ} (ha : a ≠ 0) {c : ChunkPtr} (hc : c ∈ d.restoredFor ps) (hold : d.OldRange c a) :
    (loadValidAddr place (some a)).exec s =
      ((nvMapReadIn swizzling place (idRqst (s.store.disk.chunk c).pid
        (s.store.disk.chunk c).chunkid)).exec s).bind fun x => x.1.map fun r =>
          (((r.nvPtr + (a - (d.chunk c).nvPtr)) % 2 ^ 64,
            some ((r.nvPtr + (a - (d.chunk c).nvPtr)) % 2 ^ 64)), x.2) := by
  obtain ⟨found, hfind, hfound⟩ := h.findFromPtrlst_eq hr (List.ne_nil_of_mem hc) ha
  rw [(hfound c).mpr ⟨hc, hold⟩] at hfind
  have hoff : (a + 2 ^ 64 - (d.chunk c).nvPtr) % 2 ^ 64 = a - (d.chunk c).nvPtr := by
    have hwrap := hr.noWrap c hc
    obtain ⟨hle, hlt⟩ := hold
    omega
  rw [loadValidAddr]
  simp only [if_neg ha, exec_bind, exec_state, exec_lift, map_some, bind_some, hfind,
    h.oldNvPtr_eq hc, hoff]
  congr 1
  funext x
  cases hx : x.1 with
  | none => rfl
  | some r => simp only [map_some, bind_some, exec_pure]

/-- A pointer into no old range, when there is a tree. -/
theorem loadValidAddr_outside (h : PtrsRecorded d ps s) (hr : OldRanges d ps)
    (hne : d.restoredFor ps ≠ []) (place : DataFile → ℕ) {a : ℕ} (ha : a ≠ 0)
    (hout : ∀ c ∈ d.restoredFor ps, ¬ d.OldRange c a) :
    (loadValidAddr place (some a)).exec s = some ((0, some a), s) := by
  obtain ⟨found, hfind, hfound⟩ := h.findFromPtrlst_eq hr hne ha
  have hnone : found = none := by
    rw [eq_none_iff_forall_ne_some]
    intro c hc
    obtain ⟨hmem, hold⟩ := (hfound c).mp hc
    exact hout c hmem hold
  rw [hnone] at hfind
  rw [loadValidAddr]
  simp only [if_neg ha, exec_bind, exec_state, exec_lift, map_some, bind_some, hfind, exec_pure]

/-- Without a restored chunk the search reads the null pointer. -/
theorem loadValidAddr_null (h : PtrsRecorded d ps s) (hnil : d.restoredFor ps = [])
    (place : DataFile → ℕ) {a : ℕ} (ha : a ≠ 0) : (loadValidAddr place (some a)).exec s = none := by
  have htree : s.side.tree = none := h.tree_eq.trans (if_pos hnil)
  have hfind : findFromPtrlst s a = none := by
    rw [findFromPtrlst, if_neg ha, htree]
    rfl
  rw [loadValidAddr]
  simp only [if_neg ha, exec_bind, exec_state, exec_lift, map_none, bind_some, bind_none, hfind]

end PtrsRecorded

namespace RestoredFrom

variable {d : Disk} {ps : List ℕ} {s : SwizzStore}

/-- Among chunks with different ids a search by id finds the chunk. -/
theorem finds (h : RestoredFrom d ps s) (hids : DistinctIds d ps) {p : ℕ} (hp : p ∈ ps)
    {c : ChunkPtr} (hc : InScan s.store.disk.shape p c)
    (hv : (s.store.disk.chunk c).valid = .VALID) :
    ∃ q, Finds s.store.disk p (s.store.disk.chunk c).chunkid q c := by
  have hmem : ∀ {c}, InScan s.store.disk.shape p c → (s.store.disk.chunk c).valid = .VALID →
      c ∈ d.restoredFor ps := by
    intro c hc hv
    have hv' : (d.chunk c).valid = .VALID := (congrArg Chunkobj.valid (h.chunk c)).symm.trans hv
    exact (mem_restoredFor h.files).mpr ⟨p, hp, h.inScan.mp hc, hv'⟩
  have hid : ∀ c, (s.store.disk.chunk c).chunkid = (d.chunk c).chunkid :=
    fun c => (congrArg Chunkobj.chunkid (h.chunk c) :)
  have huniq : ∀ {q' c'}, IsRegion s.store.disk.shape p q' →
      s.store.disk.entry q' (s.store.disk.chunk c).chunkid = some c' →
      IsChunk s.store.disk.shape q' c' ∧ c' = c := by
    intro q' c' hq' hc'
    obtain ⟨hqc', hv', hid'⟩ := h.entryIn hp hq' hc'
    rw [hid, hid] at hid'
    exact ⟨hqc', hids c' (hmem ⟨q', hq', hqc'⟩ hv') c (hmem hc hv) hid'⟩
  obtain ⟨q, hq, hqc⟩ := hc
  obtain ⟨c', hc'⟩ := isSome_iff_exists.mp (h.found hp hq hqc hv)
  obtain rfl := (huniq hq hc').2
  refine ⟨q, hq, hc', ?_⟩
  intro q' hq' hlt
  by_contra hne
  obtain ⟨c'', hc''⟩ := Option.ne_none_iff_exists'.mp hne
  obtain ⟨hqc'', rfl⟩ := huniq hq' hc''
  rw [h.shape.region_unique hq hq' hqc hqc''] at hlt
  exact lt_irrefl _ hlt

end RestoredFrom

/-! ## Exact translation -/

/-- A pointer of the run before that lay in a restored chunk becomes the pointer to the same
offset of the chunk, and is returned; for any other pointer `load_valid_addr` returns null and
leaves it as it is. -/
structure TranslatesExactly (d : Disk) (ps : List ℕ) (s : SwizzStore) (place : DataFile → ℕ)
    (a : ℕ) : Prop where
  inside : ∀ c ∈ d.restoredFor ps, d.OldRange c a →
    ((loadValidAddr place (some a)).exec s).map Prod.fst =
      some ((s.store.disk.chunk c).nvPtr + (a - (d.chunk c).nvPtr),
        some ((s.store.disk.chunk c).nvPtr + (a - (d.chunk c).nvPtr)))
  outside : (∀ c ∈ d.restoredFor ps, ¬ d.OldRange c a) →
    ((loadValidAddr place (some a)).exec s).map Prod.fst = some (0, some a)

/-- A pointer into the old range of a chunk, after the loads. -/
theorem RestoredFrom.loadValidAddr_eq {d : Disk} {s : SwizzStore} (h : RestoredFrom d ps s)
    (hids : DistinctIds d ps) (hr : OldRanges d ps) (place : DataFile → ℕ) {a : ℕ} (ha : a ≠ 0)
    {c : ChunkPtr} (hc : c ∈ d.restoredFor ps) (hold : d.OldRange c a) :
    (loadValidAddr place (some a)).exec s =
      some (((s.store.disk.chunk c).nvPtr + (a - (d.chunk c).nvPtr),
        some ((s.store.disk.chunk c).nvPtr + (a - (d.chunk c).nvPtr))), s) := by
  obtain ⟨p, hp, hscan, hv⟩ := (mem_restoredFor h.files).mp hc
  have hi := h.inv p hp
  have hscan' := h.inScan.mpr hscan
  have hv' : (s.store.disk.chunk c).valid = .VALID := (congrArg Chunkobj.valid (h.chunk c)).trans hv
  have hpid : (s.store.disk.chunk c).pid = p := h.shape.extent_pid hscan'
  have hnew : ((s.store.disk.chunk c).nvPtr + (a - (d.chunk c).nvPtr)) % 2 ^ 64 =
      (s.store.disk.chunk c).nvPtr + (a - (d.chunk c).nvPtr) := by
    have hspace := h.space hp hscan' hv'
    rw [h.recorded.length c hc] at hspace
    obtain ⟨hle, hlt⟩ := hold
    exact Nat.mod_eq_of_lt (by omega)
  rw [h.recorded.loadValidAddr_inside hr place ha hc hold, hpid]
  obtain ⟨q, hf⟩ := h.finds hids hp hscan' hv'
  have hread : (s.store.disk.chunk c).read = some ⟨(s.store.disk.chunk c).nvPtr,
      (s.store.disk.chunk c).length, (s.store.disk.chunk c).commitsz⟩ := by
    rw [Chunkobj.read, hv']
    rfl
  rw [swizzNvMapRead_of_finds hi hf, hread]
  simp only [bind_some, map_some, hnew]

/-- **Pointer translation.**  A run starts on consistent files and loads some processes.  For
every non-null pointer the translation is exact precisely when some chunk was restored. -/
theorem translatesExactly_iff {s₀ s : SwizzStore} {loads : List (ℕ × (DataFile → ℕ))}
    {us : List Unit} (hs : ShapeOk s₀.store.disk.shape)
    (hok : Along loadCall LoadOk loads s₀.started)
    (hrun : runSteps loadCall loads s₀.started = some (us, s))
    (hids : DistinctIds s₀.store.disk (loads.map Prod.fst))
    (hr : OldRanges s₀.store.disk (loads.map Prod.fst)) (place : DataFile → ℕ) {a : ℕ}
    (ha : a ≠ 0) :
    TranslatesExactly s₀.store.disk (loads.map Prod.fst) s place a ↔
      s₀.store.disk.restoredFor (loads.map Prod.fst) ≠ [] := by
  have h : RestoredFrom s₀.store.disk (loads.map Prod.fst) s := by
    simpa using restoredFrom_of_run (restoredFrom_started hs) hok hrun
  constructor
  · intro hexact hnil
    have heq := hexact.outside (by simp [hnil])
    rw [h.recorded.loadValidAddr_null hnil place ha] at heq
    cases heq
  · intro hne
    constructor
    · intro c hc hold
      rw [h.loadValidAddr_eq hids hr place ha hc hold]
      rfl
    · intro hout
      rw [h.recorded.loadValidAddr_outside hr hne place ha hout]
      rfl

/-- The files with two objects in two regions. -/
def twoObjectsStore : SwizzStore := ⟨reached 1 twoObjectsRun, {}⟩

theorem shapeOk_twoObjectsStore : ShapeOk twoObjectsStore.store.disk.shape := by
  have hsome : (runSteps (step 1) twoObjectsRun {}).isSome = true := by decide +kernel
  obtain ⟨⟨rs, st⟩, hst⟩ := isSome_iff_exists.mp hsome
  show ShapeOk (reached 1 twoObjectsRun).disk.shape
  rw [reached_eq hst]
  exact (runInv_of_run (by decide) allowed_twoObjectsRun hst).inv.shape

/-- The kernel exchanges the places of the two regions. -/
def exchanged (f : DataFile) : ℕ := if f.vma = 1 then 12288 else 4096

/-- A pointer into the first object follows it. -/
theorem translatesExactly_twoObjectsStore :
    ∃ us s, runSteps loadCall [(1, exchanged)] twoObjectsStore.started = some (us, s) ∧
      TranslatesExactly twoObjectsStore.store.disk [1] s exchanged 4100 := by
  have hsome : (runSteps loadCall [(1, exchanged)] twoObjectsStore.started).isSome = true := by
    decide +kernel
  obtain ⟨⟨us, s⟩, hrun⟩ := isSome_iff_exists.mp hsome
  have hload : LoadOk twoObjectsStore.started (1, exchanged) := by decide +kernel
  have hok : Along loadCall LoadOk [(1, exchanged)] twoObjectsStore.started :=
    ⟨hload, fun _ _ _ => True.intro⟩
  exact ⟨us, s, hrun, (translatesExactly_iff shapeOk_twoObjectsStore hok hrun (by decide +kernel)
    (by decide +kernel) exchanged (by decide)).mpr (by decide +kernel)⟩

/-- In the first run of a program nothing is restored, and `load_valid_addr` reads the null
pointer `pntrlst_tree`. -/
theorem not_translatesExactly_firstRun :
    LoadOk (SwizzStore.started ⟨{}, {}⟩) (1, fun _ => 0) ∧
      ∃ us s, runSteps loadCall [(1, fun _ => 0)] (SwizzStore.started ⟨{}, {}⟩) = some (us, s) ∧
        (loadValidAddr (fun _ => 0) (some 4096)).exec s = none ∧
        ¬ TranslatesExactly ({} : Store).disk [1] s (fun _ => 0) 4096 := by
  have hcheck : (runSteps loadCall [(1, fun _ => 0)] (SwizzStore.started ⟨{}, {}⟩)).map
      (fun x => ((loadValidAddr (fun _ => 0) (some 4096)).exec x.2).isNone) = some true := by
    decide +kernel
  obtain ⟨⟨us, s⟩, hrun, hnone⟩ := map_eq_some_iff.mp hcheck
  have hload := isNone_iff_eq_none.mp hnone
  refine ⟨by decide +kernel, us, s, hrun, hload, fun hexact => ?_⟩
  have heq := hexact.outside (by decide +kernel)
  rw [hload] at heq
  cases heq
