/-
# The swizzling build

In the swizzling build an object may contain pointers to other objects.  When the chunks of a
process are restored, `create_chunk_record` keeps the address that each one had in the run
before (`old_nv_ptr`) and enters the chunk under it into `pntrlst_tree`.  `load_valid_addr`
then takes a pointer of that run to this run: it searches the tree for the chunk whose old
range contains the pointer (`CompPtrLstRange`), asks `nv_map_read` for the chunk's address,
and adds the offset.

Only `restore_chunk_objs` is changed, by the call of `create_chunk_record`.  On the store a load
does what it does in the direct-mapped build; beside it it leaves the list of the chunks that were
restored, under the addresses that their records had (`swizzHooks`).
-/
import NvMalloc.Reloads

open WriteM Beside

/-! ## The swizzling build -/

/-- The field `old_nv_ptr` of the chunk records, and `pntrlst_tree`, which is null as long as no
chunk was restored. -/
structure PtrList where
  oldNvPtr : ChunkPtr → ℕ := fun _ => 0
  tree : Option (Rbtree ChunkPtr) := none

/-- The list after a chunk is recorded under its old address. -/
def PtrList.record (l : PtrList) (c : ChunkPtr) (v : ℕ) : PtrList where
  oldNvPtr := Function.update l.oldNvPtr c v
  tree := some ((l.tree.getD .empty).insert v c)

/-- The store and the pointer list. -/
abbrev SwizzStore := Beside Store PtrList

/-- The functions of the swizzling build. -/
abbrev SwizzM := BuildM PtrList

/-- `create_chunk_record`. -/
def createChunkRecord (c : ChunkPtr) (s : SwizzStore) : PtrList :=
  s.side.record c (s.store.disk.chunk c).nvPtr

/-- The build with `_ENABLE_SWIZZLING`: the record is made before the pointer is updated. -/
def swizzling : Build PtrList := restoring createChunkRecord

/-! ## Translating a pointer -/

/-- `CompPtrLstRange`, at a node with key `b` for chunk `c`; the end of the range is an
`unsigned long`. -/
def compPtrLstRange (st : Store) (a b : ℕ) (c : ChunkPtr) : Ordering :=
  if b ≤ a ∧ a < ((st.disk.chunk c).length + b) % 2 ^ 64 then .eq
  else if b < a then .gt
  else if a < b then .lt
  else .eq

/-- `find_from_ptrlst`, which is undefined when `pntrlst_tree` is null. -/
def findFromPtrlst (s : SwizzStore) (addr : ℕ) : Option (Option ChunkPtr) := do
  if addr = 0 then
    return none
  let t ← s.side.tree
  return t.findBy (compPtrLstRange s.store addr)

/-- The request of `load_valid_addr`.  The field `var_name` is an array, to which the source
assigns `NULL`; it is taken as the empty name. -/
def idRqst (pid id : ℕ) : Rqst := { pid := pid, id := id, varName := ObjName.empty }

/-- `load_valid_addr`, where `ptr` is what the argument points to, and none for a null argument:
what it returns, and what the argument points to then. -/
def loadValidAddr (place : DataFile → ℕ) : Option ℕ → SwizzM (ℕ × Option ℕ)
  | none => return (0, none)
  | some ptr => do
    if ptr = 0 then
      return (0, some ptr)
    else
      let s ← state
      match ← lift (findFromPtrlst s ptr) with
      | none => return (0, some ptr)
      | some oldchunk =>
        let offset := (ptr + 2 ^ 64 - s.side.oldNvPtr oldchunk) % 2 ^ 64
        let found ← nvMapReadIn swizzling place
          (idRqst (s.store.disk.chunk oldchunk).pid (s.store.disk.chunk oldchunk).chunkid)
        let r ← lift found
        let ptr := (r.nvPtr + offset) % 2 ^ 64
        return (ptr, some ptr)

/-! ## What the pointer list records -/

namespace PtrList

/-- The list after the chunks `cs`, whose addresses were `nv`, are recorded. -/
def recordAll (l : PtrList) (nv : ChunkPtr → ℕ) (cs : List ChunkPtr) : PtrList :=
  cs.foldl (fun l c => l.record c (nv c)) l

variable {l : PtrList} {nv nv' : ChunkPtr → ℕ} {cs : List ChunkPtr}

theorem recordAll_append (cs cs' : List ChunkPtr) :
    l.recordAll nv (cs ++ cs') = (l.recordAll nv cs).recordAll nv cs' := List.foldl_append

theorem recordAll_congr (h : ∀ c ∈ cs, nv c = nv' c) : l.recordAll nv cs = l.recordAll nv' cs := by
  induction cs generalizing l with
  | nil => rfl
  | cons c cs ih =>
    show (l.record c (nv c)).recordAll nv cs = (l.record c (nv' c)).recordAll nv' cs
    rw [h c List.mem_cons_self, ih fun c' hc' => h c' (List.mem_cons_of_mem _ hc')]

theorem oldNvPtr_recordAll (c : ChunkPtr) :
    (l.recordAll nv cs).oldNvPtr c = if c ∈ cs then nv c else l.oldNvPtr c := by
  induction cs generalizing l with
  | nil => simp [recordAll]
  | cons c' cs ih =>
    show ((l.record c' (nv c')).recordAll nv cs).oldNvPtr c = _
    rw [ih, record]
    by_cases hc : c = c'
    · subst hc
      simp
    · simp [hc]

theorem tree_recordAll : (l.recordAll nv cs).tree =
    if cs = [] then l.tree
    else some (cs.foldl (fun t c => t.insert (nv c) c) (l.tree.getD .empty)) := by
  induction cs generalizing l with
  | nil => rfl
  | cons c cs ih =>
    show ((l.record c (nv c)).recordAll nv cs).tree = _
    rw [ih, if_neg (List.cons_ne_nil c cs)]
    split
    · next hnil =>
      rw [hnil]
      rfl
    · rfl

end PtrList

/-! ## Loading a process -/

/-- A load records every chunk that is restored, under the address in its record. -/
def swizzHooks : LoadHooks swizzling where
  region _ _ l := l
  chunk c r l := l.record c r.nvPtr
  region_eq _ _ := rfl
  chunk_eq _ := rfl

theorem loaded_swizzHooks (d : Disk) (qs : List MmapPtr) (l : PtrList) :
    swizzHooks.loaded d qs l = l.recordAll (fun c => (d.chunk c).nvPtr) (d.restoredIn qs) :=
  List.foldl_flatMap.symm

/-! ## The restored chunks -/

/-- The chunks that are restored are decided by the files of the process. -/
theorem SameFiles.restoredChunks {d d' : Disk} {p : ℕ} (h : SameFiles d d' p)
    (hs : ShapeOk d.shape) : d'.restoredChunks p = d.restoredChunks p := by
  have hregions : d'.regions p = d.regions p := by
    unfold Disk.regions
    rw [h.proc]
  rw [Disk.restoredChunks, Disk.restoredChunks, hregions]
  apply List.flatMap_congr
  intro q hq
  have hq' := isRegion_iff_mem_regions.mpr hq
  rw [h.mmapobj hq'.pid_eq]
  apply List.filter_congr
  intro c hc
  have hscan := (@scan_eq ⟨d, {}⟩ p hs _ hq' c).mp hc
  rw [h.chunk (InScan.pid_eq ⟨q, hq', hscan⟩)]

/-- The chunks that are restored for the processes `ps`. -/
def Disk.restoredFor (d : Disk) (ps : List ℕ) : List ChunkPtr := ps.flatMap d.restoredChunks

/-! ## Runs that load some processes -/

/-- The store when a new run starts, with the flag that `nv_initialize` sets. -/
def SwizzStore.started (s : SwizzStore) : SwizzStore where
  store := s.store.started
  side := { oldNvPtr := s.side.oldNvPtr }

/-- Load a process, with the answers of the kernel. -/
def loadCall (s : SwizzStore) (call : ℕ × (DataFile → ℕ)) : Option (Unit × SwizzStore) :=
  ((loadProcessIn swizzling call.2 call.1).exec s).map fun r => ((), r.2)

/-- The process is not in memory, and the kernel finds free places in the address space. -/
structure LoadOk (s : SwizzStore) (call : ℕ × (DataFile → ℕ)) : Prop where
  pos : call.1 ≠ 0
  fresh : s.store.findProcess call.1 = none
  place : PlaceOk s.store call.2 call.1
  space : ∀ {q}, IsRegion s.store.disk.shape call.1 q →
    call.2 (s.store.disk.mmapobj q).dataFile + (s.store.disk.mmapobj q).length < 2 ^ 64

instance (s : SwizzStore) (call : ℕ × (DataFile → ℕ)) : Decidable (LoadOk s call) :=
  decidable_of_iff (call.1 ≠ 0 ∧ s.store.findProcess call.1 = none ∧
      PlaceOk s.store call.2 call.1 ∧ ∀ q ∈ s.store.disk.regions call.1,
        call.2 (s.store.disk.mmapobj q).dataFile + (s.store.disk.mmapobj q).length < 2 ^ 64) <| by
    simp only [← isRegion_iff_mem_regions]
    constructor
    · rintro ⟨hpos, hfresh, hplace, hspace⟩
      exact ⟨hpos, hfresh, hplace, fun hq => hspace _ hq⟩
    · rintro ⟨hpos, hfresh, hplace, hspace⟩
      exact ⟨hpos, hfresh, hplace, fun _ hq => hspace hq⟩

/-- The processes `ps` were loaded from the files `d`, which record the addresses of the run
before. -/
structure RestoredFrom (d : Disk) (ps : List ℕ) (s : SwizzStore) : Prop where
  files : ShapeOk d.shape
  shape : ShapeOk s.store.disk.shape
  ram : RamOk s.store
  initialized : s.store.ram.gInitialized = true
  mapTree : s.store.ram.mapTree = .empty
  inv : ∀ p ∈ ps, StoreInv s.store p
  same : ∀ {p}, p ∉ ps → SameFiles d s.store.disk p
  chunk : ∀ c, { s.store.disk.chunk c with nvPtr := 0 } = { d.chunk c with nvPtr := 0 }
  inScan : ∀ {p c}, InScan s.store.disk.shape p c ↔ InScan d.shape p c
  entryIn : ∀ {p q k c}, p ∈ ps → IsRegion s.store.disk.shape p q →
    s.store.disk.entry q k = some c → IsChunk s.store.disk.shape q c ∧
      (s.store.disk.chunk c).valid = .VALID ∧ (s.store.disk.chunk c).chunkid = k
  found : ∀ {p q c}, p ∈ ps → IsRegion s.store.disk.shape p q → IsChunk s.store.disk.shape q c →
    (s.store.disk.chunk c).valid = .VALID →
    (s.store.disk.entry q (s.store.disk.chunk c).chunkid).isSome
  space : ∀ {p c}, p ∈ ps → InScan s.store.disk.shape p c → (s.store.disk.chunk c).valid = .VALID →
    (s.store.disk.chunk c).nvPtr + (s.store.disk.chunk c).length < 2 ^ 64
  ptrs : ∃ old : ChunkPtr → ℕ, s.side = PtrList.recordAll { oldNvPtr := old }
    (fun c => (d.chunk c).nvPtr) (d.restoredFor ps)

variable {s : SwizzStore}

theorem restoredFrom_started (hs : ShapeOk s.store.disk.shape) :
    RestoredFrom s.store.disk [] s.started where
  files := hs
  shape := hs
  ram := ramOk_started s.store
  initialized := rfl
  mapTree := rfl
  inv p hp := by cases hp
  same _ := ⟨rfl, fun _ => rfl, fun _ => rfl, fun _ => rfl⟩
  chunk _ := rfl
  inScan := Iff.rfl
  entryIn hp := by cases hp
  found hp := by cases hp
  space hp := by cases hp
  ptrs := ⟨s.side.oldNvPtr, rfl⟩

/-- The chunks of a process lie in the address space when its regions do. -/
theorem Loads.space {st st' : Store} {place : DataFile → ℕ} {p : ℕ} (hl : Loads st st' place p)
    (hs : ShapeOk st.disk.shape)
    (hspace : ∀ {q}, IsRegion st.disk.shape p q →
      place (st.disk.mmapobj q).dataFile + (st.disk.mmapobj q).length < 2 ^ 64)
    {c : ChunkPtr} (hc : InScan st'.disk.shape p c) (hv : (st'.disk.chunk c).valid = .VALID) :
    (st'.disk.chunk c).nvPtr + (st'.disk.chunk c).length < 2 ^ 64 := by
  obtain ⟨q, hq', hqc'⟩ := hc
  have hq := hl.isRegion.mp hq'
  have hqc := (hl.isChunk hq).mp hqc'
  have hptr : (st'.disk.chunk c).nvPtr = place (st.disk.mmapobj q).dataFile +
      (st'.disk.chunk c).offset := by
    rw [hl.inv.loaded.nvPtr hq' hqc' (Or.inl hv), hl.dataAddr hq, dataFile_eq hs hq]
  have hoff : (st'.disk.chunk c).offset = (st.disk.chunk c).offset :=
    (congrArg Chunkobj.offset (hl.chunk c) :)
  have hlen : (st'.disk.chunk c).length = (st.disk.chunk c).length :=
    (congrArg Chunkobj.length (hl.chunk c) :)
  obtain ⟨n, hn, hle⟩ := hs.file hq
  have hext : (st.disk.chunk c).offset + (st.disk.chunk c).length ≤ n :=
    (hs.extent hq hqc hn).2.2
  have hregion := hspace hq
  rw [shape_region_length] at hle
  rw [hptr, hoff, hlen]
  omega

/-- One more process is loaded. -/
theorem RestoredFrom.load {d : Disk} {ps : List ℕ} (h : RestoredFrom d ps s)
    {call : ℕ × (DataFile → ℕ)} (hok : LoadOk s call) :
    ∃ s', loadCall s call = some ((), s') ∧ RestoredFrom d (ps ++ [call.1]) s' := by
  obtain ⟨p, place⟩ := call
  obtain ⟨hp, hfresh, hplace, hspace⟩ := hok
  simp only at hp hfresh hplace hspace
  have hnot : p ∉ ps := by
    intro hmem
    have hreg : s.store.findProcess p = some p := (h.inv p hmem).registered
    rw [hfresh] at hreg
    cases hreg
  have hne : ∀ {p'}, p' ∈ ps → p' ≠ p := by
    rintro p' hp' rfl
    exact hnot hp'
  have hun : Unmapped s.store p := by
    intro a nd q hnd
    rw [h.mapTree] at hnd
    cases hnd
  obtain ⟨st', hexec, hl⟩ := load_exec h.shape h.ram h.initialized hfresh hp hplace hun
  let s' : SwizzStore := ⟨st', s.side.recordAll (fun c => (s.store.disk.chunk c).nvPtr)
    (s.store.disk.restoredChunks p)⟩
  have hswizz : loadCall s (p, place) = some ((), s') := by
    unfold loadCall
    rw [swizzHooks.loadProcessIn_exec h.shape h.initialized hfresh hplace, hexec, loaded_swizzHooks]
    rfl
  have hmem : ∀ {p'}, p' ∈ ps ++ [p] → p' ∈ ps ∨ p' = p := by
    intro p' hp'
    rcases List.mem_append.mp hp' with hp' | hp'
    · exact Or.inl hp'
    · exact Or.inr (List.mem_singleton.mp hp')
  have hvalid : ∀ c, (st'.disk.chunk c).valid = (s.store.disk.chunk c).valid :=
    fun c => (congrArg Chunkobj.valid (hl.chunk c) :)
  have hid : ∀ c, (st'.disk.chunk c).chunkid = (s.store.disk.chunk c).chunkid :=
    fun c => (congrArg Chunkobj.chunkid (hl.chunk c) :)
  refine ⟨s', hswizz, h.files, hl.inv.shape, hl.inv.ram, hl.inv.initialized,
    hl.mapTree.trans h.mapTree, ?_, ?_, ?_, ?_, ?_, ?_, ?_, ?_⟩
  · intro p' hp'
    rcases hmem hp' with hp' | rfl
    · have hi := h.inv p' hp'
      refine ⟨hl.inv.shape, hl.inv.ram, (hl.files (hne hp')).loaded hi.loaded hl.run hl.maps, ?_,
        hl.inv.initialized, hi.pidPos⟩
      show st'.findProcess p' = some p'
      rw [hl.findProcess, if_neg (hne hp')]
      exact hi.registered
    · exact hl.inv
  · intro p' hp'
    rw [List.mem_append, not_or] at hp'
    have hpp : p' ≠ p := fun heq => hp'.2 (List.mem_singleton.mpr heq)
    exact (h.same hp'.1).trans (hl.files hpp)
  · intro c
    exact (hl.chunk c).trans (h.chunk c)
  · intro p' c
    by_cases hpp : p' = p
    · subst hpp
      exact hl.inScan.trans h.inScan
    · exact (hl.files hpp).inScan.trans h.inScan
  · intro p' q k c hp' hq hc
    rcases hmem hp' with hp' | rfl
    · have hsame := hl.files (hne hp')
      rw [hsame.isRegion] at hq
      rw [hsame.entry hq.pid_eq] at hc
      rw [hsame.isChunk hq.pid_eq, hvalid, hid]
      exact h.entryIn hp' hq hc
    · rw [hl.isRegion] at hq
      rw [hl.isChunk hq, hvalid, hid]
      exact hl.entryIn hq hc
  · intro p' q c hp' hq hqc hv
    rw [hvalid] at hv
    rw [hid]
    rcases hmem hp' with hp' | rfl
    · have hsame := hl.files (hne hp')
      rw [hsame.isRegion] at hq
      rw [hsame.isChunk hq.pid_eq] at hqc
      rw [hsame.entry hq.pid_eq]
      exact h.found hp' hq hqc hv
    · rw [hl.isRegion] at hq
      rw [hl.isChunk hq] at hqc
      exact hl.found hq hqc hv
  · intro p' c hp' hc hv
    rcases hmem hp' with hp' | rfl
    · have hsame := hl.files (hne hp')
      rw [hsame.inScan] at hc
      rw [hsame.chunk hc.pid_eq] at hv ⊢
      exact h.space hp' hc hv
    · exact hl.space h.shape hspace hc hv
  · obtain ⟨old, hptrs⟩ := h.ptrs
    have hsame := h.same hnot
    refine ⟨old, ?_⟩
    show s.side.recordAll _ (s.store.disk.restoredChunks p) = _
    rw [hsame.restoredChunks h.files, Disk.restoredFor, List.flatMap_append,
      PtrList.recordAll_append, ← Disk.restoredFor, ← hptrs, List.flatMap_singleton]
    apply PtrList.recordAll_congr
    intro c hc
    obtain ⟨hscan, -⟩ := (mem_restoredChunks h.files).mp hc
    rw [hsame.chunk hscan.pid_eq]

theorem restoredFrom_of_run {d : Disk} {ps : List ℕ} {s' : SwizzStore}
    {loads : List (ℕ × (DataFile → ℕ))} {us : List Unit} (h : RestoredFrom d ps s)
    (hok : Along loadCall LoadOk loads s) (hrun : runSteps loadCall loads s = some (us, s')) :
    RestoredFrom d (ps ++ loads.map Prod.fst) s' := by
  induction loads generalizing ps s us with
  | nil =>
    cases hrun
    simpa using h
  | cons call loads ih =>
    obtain ⟨u, s₁, us₁, hcall, hrest, -⟩ := runSteps_cons_eq_some.mp hrun
    obtain ⟨s₂, hcall₂, h₂⟩ := h.load hok.1
    rw [hcall₂] at hcall
    cases hcall
    have h' := ih h₂ (hok.2 _ _ hcall₂) hrest
    rwa [List.append_assoc] at h'
