/-
# The build with caches

`_NVRAM_OPTIMIZE` sets `enable_optimze` and `use_map_cache`, and with them four caches come into
use at once:

* `chunkmap_cache`, from ids to chunks: `add_chunkobj` sets an entry, `nv_delete` erases the one
  of the chunk's current id, `get_chunk` returns a chunk that is cached and `nv_map_read` looks
  at the cache before it searches the trees;
* a ring of 128 regions, which `add_mmapobj` fills and `locate_mmapobj_node` searches before
  `map_tree`;
* the ring of region sizes that `record_vmas` fills and `get_vma_size` searches first;
* the process that `find_proc_obj` returned last, for the id of the last `nv_record_chunk`.
-/
import NvMalloc.Builds
import NvMalloc.RangeTree
import NvMalloc.VmaCache

open WriteM Beside Function

/-! ## The ring of regions -/

/-- `NUM_MMAP_CACHE_CNT`. -/
def numMmapCacheCnt : ℕ := 128

/-- `mmap_strt_addr_cache`, `mmap_size_cache`, `mmap_ref_cache` and `next_mmap_entry`. -/
structure MmapCache where
  strtAddr : ℕ → ℕ := fun _ => 0
  size : ℕ → ℕ := fun _ => 0
  ref : ℕ → Option MmapPtr := fun _ => none
  nextEntry : ℕ := 0

/-- `add_to_mmap_cache`, for the region record `m` at `q`. -/
def MmapCache.addToMmapCache (c : MmapCache) (q : MmapPtr) (m : Mmapobj) : MmapCache where
  strtAddr := update c.strtAddr c.nextEntry m.dataAddr
  size := update c.size c.nextEntry (toUint m.length)
  ref := update c.ref c.nextEntry (some q)
  nextEntry := (c.nextEntry + 1) % numMmapCacheCnt

/-- The test of one entry in `get_frm_mmap_cache`. -/
def MmapCache.Covers (c : MmapCache) (idx target : ℕ) : Prop :=
  c.strtAddr idx ≤ target ∧ target < (c.strtAddr idx + c.size idx) % 2 ^ 64

instance (c : MmapCache) (idx target : ℕ) : Decidable (c.Covers idx target) :=
  inferInstanceAs (Decidable (_ ∧ _))

/-- `get_frm_mmap_cache`. -/
def MmapCache.getFrmMmapCache (c : MmapCache) (addr : ℕ) : Option MmapPtr :=
  ((List.range numMmapCacheCnt).find? fun idx => c.Covers idx addr).bind c.ref

/-! ## The caches -/

/-- The caches.  `vmas` also has `proc_vmas`, with the widths of the C types; in
`chunkmap_cache` a null pointer counts as no entry. -/
structure Caches where
  chunkmapCache : ℕ → Option ChunkPtr := fun _ => none
  mmaps : MmapCache := {}
  vmas : VmaSizes := {}
  prevProcId : ℕ := 0
  prevProcObj : Option ℕ := none

/-- The rings of regions and of their sizes are as before. -/
def SameRings (t t' : Caches) : Prop := t'.mmaps = t.mmaps ∧ t'.vmas = t.vmas

instance : IsPreorder Caches SameRings where
  refl _ := ⟨rfl, rfl⟩
  trans _ _ _ h h' := ⟨h'.1.trans h.1, h'.2.trans h.2⟩

/-- The store and the caches. -/
abbrev CachedStore := Beside Store Caches

/-- Programs of the cached build. -/
abbrev CachedM := BuildM Caches

/-- `find_proc_obj`.  As long as there is no `proc_tree` the cached object is null too. -/
def cachedFindProcObj (pid : ℕ) (s : CachedStore) : Option ℕ × Caches :=
  if pid ≠ 0 ∧ pid = s.side.prevProcId ∧ s.side.prevProcObj.isSome then (s.side.prevProcObj, s.side)
  else (s.store.findProcess pid, { s.side with prevProcObj := s.store.findProcess pid })

/-- The chunk that is cached for an id, if its length and its id are set. -/
def usableChunk (s : CachedStore) (id : ℕ) : Option ChunkPtr :=
  (s.side.chunkmapCache id).filter fun c =>
    (s.store.disk.chunk c).length ≠ 0 ∧ (s.store.disk.chunk c).chunkid ≠ 0

/-- `map_tree`, which is null as long as nothing was inserted. -/
def Store.mapTreePtr (st : Store) : Option (Rbtree MmapobjNode) :=
  match st.ram.mapTree.root with
  | .nil => none
  | .node _ _ _ _ _ => some st.ram.mapTree

/-- `locate_mmapobj_node`: the id, 0 when there is none, the contents of `*map_strt_addr`, which
were `strtAddr` before, and the region record if it comes from the ring. -/
def cachedLocateMmapobjNode (addr strtAddr : ℕ) (s : CachedStore) :
    Option (ℕ × ℕ × Option MmapPtr) :=
  match s.side.mmaps.getFrmMmapCache addr with
  | some q => some ((s.store.disk.mmapobj q).vmaId, (s.store.disk.mmapobj q).dataAddr, some q)
  | none => (locateMmapobjId s.store.mapTreePtr addr strtAddr).map fun r => (r.1, r.2, none)

/-- The build with `_NVRAM_OPTIMIZE`.  `nv_map_read` tests `chunkmap_cache` the other way around
than `get_chunk`: it searches the trees when there is a chunk to use, and goes on with what is
cached when there is none. -/
def optimized : Build Caches where
  findProcObj := cachedFindProcObj
  cachedChunk id s := usableChunk s id
  unsearched id s :=
    if (usableChunk s id).isSome then none else some (s.side.chunkmapCache id)
  locateMmapobjNode addr s := cachedLocateMmapobjNode addr 0 s
  getVmaSize vmaId s := (getVmaSize s.side.vmas (Int32.ofNat vmaId)).toNat
  recordVmas vmaId size s :=
    { s.side with vmas := recordVmas s.side.vmas (Int32.ofNat vmaId) (UInt64.ofNat size) }
  addedMmapobj q s :=
    { s.side with mmaps := s.side.mmaps.addToMmapCache q (s.store.disk.mmapobj q) }
  addedChunkobj c s :=
    { s.side with
      chunkmapCache := update s.side.chunkmapCache (s.store.disk.chunk c).chunkid (some c) }
  deletingChunk c s :=
    if (s.store.disk.chunk c).length ≠ 0 ∧ (s.store.disk.chunk c).chunkid ≠ 0 then
      { s.side with
        chunkmapCache := update s.side.chunkmapCache (s.store.disk.chunk c).chunkid none }
    else s.side
  recordingChunk pid s := { s.side with prevProcId := pid }
