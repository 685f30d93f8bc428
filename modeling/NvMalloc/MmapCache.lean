/-
# The ring of regions

In the build with caches a region that is registered with its process (`add_mmapobj`) is also put
into a ring of 128 entries: its address, its length in 32 bits and its record.
`locate_mmapobj_node` searches the ring before the tree `map_tree` of the ranges that `_mmap`
made, and then reads the id and the address from the record.

`load_process` registers a region before it is mapped, so its entry has the address of the run
before, and a region that is restored later moves under its entry.  The ring and the tree agree
on all mapped addresses as long as nothing is mapped where an entry still lies, regions are
restored only when the tree is there, and a region that is registered is recorded with its own
size in a record of its own.
-/
import NvMalloc.Optimized
import NvMalloc.Regions
import NvMalloc.Decidability

open WriteM WriteGhost Beside Function Option

/-! ## The calls -/

/-- The calls of a program. -/
inductive RegionCall where
  /-- `_mmap`; the kernel answers with `addr`. -/
  | mmap (pid size addr : ℕ)
  /-- `nv_record_chunk` for a block at `addr`. -/
  | alloc (rqst : Rqst) (addr : ℕ)
  /-- `load_process`; the kernel maps the data files at `place`. -/
  | load (pid : ℕ) (place : DataFile → ℕ)

/-- One call. -/
def regionCall (s : CachedStore) : RegionCall → Option (Unit × CachedStore)
  | .mmap pid size addr => (mmapRegionIn optimized pid size addr).exec s
  | .alloc rqst addr => (nvRecordChunkIn optimized rqst addr).exec s
  | .load pid place => ((loadProcessIn optimized place pid).exec s).map fun r => ((), r.2)

/-- The store when a new run starts, with the flag that `nv_initialize` sets and empty caches. -/
def Store.cachedStart (st : Store) : CachedStore := ⟨st.started, {}⟩

theorem quiet_optimized : optimized.Quiet SameRings where
  findProcObj pid s := by
    show SameRings s.side (cachedFindProcObj pid s).2
    unfold cachedFindProcObj
    split <;> exact ⟨rfl, rfl⟩
  addedChunkobj _ _ := ⟨rfl, rfl⟩
  restoringChunk _ _ := ⟨rfl, rfl⟩
  deletingChunk c s := by
    unfold optimized
    dsimp only
    split <;> exact ⟨rfl, rfl⟩
  recordingChunk _ _ := ⟨rfl, rfl⟩

/-! ## Agreement -/

/-- The address lies in the mapping. -/
def Mapping.Contains (m : Mapping) (a : ℕ) : Prop := m.base ≤ a ∧ a < m.base + m.size

/-- For every address that is mapped in this run `locate_mmapobj_node` returns an id and a start
address, and the search of the tree returns the same. -/
def RegionsAgree (s : CachedStore) : Prop := ∀ m ∈ s.store.ram.maps, ∀ a, m.Contains a →
  ∀ strtAddr, ∃ v start found, cachedLocateMmapobjNode a strtAddr s = some (v, start, found) ∧
    locateMmapobjId s.store.mapTreePtr a strtAddr = some (v, start)

/-- No entry of the ring covers an address of a range. -/
def MmapCache.Avoids (c : MmapCache) (base size : ℕ) : Prop :=
  ∀ idx < numMmapCacheCnt, ∀ a, c.Covers idx a → ¬ (base ≤ a ∧ a < base + size)

/-- An entry made from the region record covers no address of a range. -/
def Mmapobj.Avoids (r : Mmapobj) (base size : ℕ) : Prop :=
  ∀ a, r.dataAddr ≤ a ∧ a < (r.dataAddr + toUint r.length) % 2 ^ 64 →
    ¬ (base ≤ a ∧ a < base + size)

/-- Where `create_mmapobj` puts the next region record for a process id. -/
def nextRegion (pid : ℕ) (s : CachedStore) : Option MmapPtr := do
  let start ← (optimized.opened pid s).ram.procMapStart
  let h ← (optimized.opened pid s).disk.proc (optimized.procOf pid s)
  return ⟨start, h.metaOffset⟩

/-- The kernel maps at free addresses. -/
def KernelOk (s : CachedStore) : RegionCall → Prop
  | .mmap _ size addr => FreshRange s.store addr size ∧ addr + size < 2 ^ 64
  | .alloc _ _ => True
  | .load pid place => PlaceOk s.store place (s.store.procOf pid)

/-- The condition on a call.  Nothing is mapped over an entry of the ring; a load of regions
finds `map_tree` made by an `_mmap`, and the entries that it makes, at the old addresses, cover
nothing that is mapped then; and a region that has to be registered gets a record that no entry
refers to, and from `get_vma_size` a size not above its own. -/
def CacheClear (s : CachedStore) : RegionCall → Prop
  | .mmap _ size addr => s.side.mmaps.Avoids addr size
  | .alloc rqst addr => s.side.mmaps.getFrmMmapCache addr = none →
    (∀ idx < numMmapCacheCnt, ∀ q ∈ nextRegion rqst.pid s, s.side.mmaps.ref idx ≠ some q) ∧
    ∀ nd ∈ s.store.locateMmapobjNode addr,
      toUint (optimized.getVmaSize nd.mapId s) ≤ nd.endAddr - nd.startAddr
  | .load pid place => ∀ {q}, IsRegion s.store.disk.shape (s.store.procOf pid) q →
    s.store.mapTreePtr.isSome ∧
    s.side.mmaps.Avoids (place (s.store.disk.mmapobj q).dataFile) (s.store.disk.mmapobj q).length ∧
    (∀ m ∈ s.store.ram.maps, (s.store.disk.mmapobj q).Avoids m.base m.size) ∧
    ∀ {q'}, IsRegion s.store.disk.shape (s.store.procOf pid) q' →
      (s.store.disk.mmapobj q).Avoids (place (s.store.disk.mmapobj q').dataFile)
        (s.store.disk.mmapobj q').length

/-- The entry refers to the region in whose range the address lies, and was made from its
record as it is. -/
structure EntryOf (s : CachedStore) (idx : ℕ) (r : RangeCall) (q : MmapPtr) : Prop where
  ref : s.side.mmaps.ref idx = some q
  id : (s.store.disk.mmapobj q).vmaId = r.id
  start : (s.store.disk.mmapobj q).dataAddr = r.start
  entryStart : s.side.mmaps.strtAddr idx = r.start
  entrySize : s.side.mmaps.size idx = toUint (s.store.disk.mmapobj q).length

/-- The tree holds the ranges `rs`, which are mapped and end below `2 ^ 64`, and an entry that
covers a mapped address is that of the range with the address. -/
structure MapInv (rs : List RangeCall) (s : CachedStore) : Prop where
  maps : s.store.ram.maps.Pairwise Mapping.Disjoint
  tree : s.store.ram.mapTree = rangeTree rs
  ranges : rs.Pairwise RangeCall.Disjoint
  below : ∀ r ∈ rs, r.start + r.size < 2 ^ 64
  made : ∀ m ∈ s.store.ram.maps, rs ≠ []
  mapped : ∀ r ∈ rs, ∃ f, ⟨r.start, r.size, f⟩ ∈ s.store.ram.maps
  start : ∀ p, s.store.ram.procMapStart = some p → (s.store.disk.proc p).isSome
  header : ∀ idx < numMmapCacheCnt, ∀ q, s.side.mmaps.ref idx = some q →
    (s.store.disk.proc q.pid).isSome
  entry : ∀ idx < numMmapCacheCnt, ∀ a, s.side.mmaps.Covers idx a → ∀ m ∈ s.store.ram.maps,
    m.Contains a → ∃ r ∈ rs, r.Contains a ∧ ∃ q, EntryOf s idx r q

namespace MapInv

variable {rs : List RangeCall} {s : CachedStore} (h : MapInv rs s)
include h

/-- `map_tree` is the one of the calls of `insert_mmapobj_node`. -/
theorem mapTreePtr_eq : s.store.mapTreePtr = mapTreeOf rs := by
  cases rs with
  | nil =>
    rw [Store.mapTreePtr, h.tree]
    rfl
  | cons r rs =>
    have hmem := (mem_rangeTree h.ranges).mpr ⟨r, List.mem_cons_self, rfl⟩
    rw [mapTreeOf_eq (List.cons_ne_nil _ _), Store.mapTreePtr, h.tree]
    cases hroot : (rangeTree (r :: rs)).root with
    | nil =>
      rw [hroot] at hmem
      cases hmem
    | node c l k v t => rfl

theorem found {r : RangeCall} (hr : r ∈ rs) (a : ℕ) : r.Found a :=
  .inr (h.below r hr)

/-- The search of the tree is exact. -/
theorem locatesExactly (hne : rs ≠ []) (a : ℕ) : LocatesExactly rs a :=
  locatesExactly_of_found h.ranges hne fun _ hr _ => h.found hr a

/-- The invariant implies agreement. -/
theorem regionsAgree : RegionsAgree s := by
  intro m hm a ha strtAddr
  have hexact := h.locatesExactly (h.made m hm) a strtAddr
  rw [← h.mapTreePtr_eq] at hexact
  cases hfind : s.side.mmaps.getFrmMmapCache a with
  | none =>
    -- the answer comes from the tree, which has one
    have hsome : ∃ v start, locateMmapobjId s.store.mapTreePtr a strtAddr = some (v, start) := by
      by_cases hout : ∀ r ∈ rs, ¬ r.Contains a
      · exact ⟨_, _, hexact.2 hout⟩
      · push Not at hout
        obtain ⟨r, hr, hin⟩ := hout
        exact ⟨_, _, hexact.1 r hr hin⟩
    obtain ⟨v, start, hloc⟩ := hsome
    refine ⟨v, start, none, ?_, hloc⟩
    simp only [cachedLocateMmapobjNode, hfind, hloc, map_some]
  | some q =>
    obtain ⟨idx, hidx, href⟩ := bind_eq_some_iff.mp hfind
    have hlt : idx < numMmapCacheCnt := List.mem_range.mp (List.mem_of_find?_eq_some hidx)
    have hcov : s.side.mmaps.Covers idx a := by
      simpa using List.find?_some hidx
    obtain ⟨r, hr, hin, q', he⟩ := h.entry idx hlt a hcov m hm ha
    obtain rfl : q' = q := some.inj (he.ref.symm.trans href)
    refine ⟨r.id, r.start, some q', ?_, hexact.1 r hr hin⟩
    simp only [cachedLocateMmapobjNode, hfind, he.id, he.start]

/-- A change that keeps the ranges and the ring, and the records that entries over mapped
addresses refer to. -/
theorem of_regions {s' : CachedStore} (hring : s'.side.mmaps = s.side.mmaps)
    (htree : s'.store.ram.mapTree = s.store.ram.mapTree)
    (hmaps : s'.store.ram.maps = s.store.ram.maps)
    (hstart : ∀ p, s'.store.ram.procMapStart = some p → (s'.store.disk.proc p).isSome)
    (hheader : ∀ p, (s.store.disk.proc p).isSome → (s'.store.disk.proc p).isSome)
    (hregion : ∀ idx < numMmapCacheCnt, ∀ q, s.side.mmaps.ref idx = some q →
      (∃ a, s.side.mmaps.Covers idx a ∧ ∃ m ∈ s.store.ram.maps, m.Contains a) →
      (s'.store.disk.mmapobj q).range = (s.store.disk.mmapobj q).range) : MapInv rs s' where
  maps := by
    rw [hmaps]
    exact h.maps
  tree := htree.trans h.tree
  ranges := h.ranges
  below := h.below
  made m hm := h.made m (hmaps ▸ hm)
  mapped r hr := by
    rw [hmaps]
    exact h.mapped r hr
  start := hstart
  header idx hidx q hq := hheader _ (h.header idx hidx q (hring ▸ hq))
  entry idx hidx a hcov m hm ha := by
    rw [hmaps] at hm
    rw [hring] at hcov
    obtain ⟨r, hr, hin, q, he⟩ := h.entry idx hidx a hcov m hm ha
    have hrange := hregion idx hidx q he.ref ⟨a, hcov, m, hm, ha⟩
    simp only [Mmapobj.range, Prod.mk.injEq] at hrange
    obtain ⟨hid, hstart, hlen, -⟩ := hrange
    refine ⟨r, hr, hin, q, ?_, hid.trans he.id, hstart.trans he.start, ?_, ?_⟩
    · rw [hring]
      exact he.ref
    · rw [hring]
      exact he.entryStart
    · rw [hring, hlen]
      exact he.entrySize

/-- The functions that leave the regions alone keep the invariant. -/
theorem keeps {s' : CachedStore} (hk : KeepsMaps SameRings s s') : MapInv rs s' := by
  refine h.of_regions hk.tables.1 hk.regions.mapTree hk.regions.maps ?_ ?_
    fun _ _ q _ _ => hk.regions.region q
  · intro p hp
    rw [hk.regions.isSome_proc]
    exact h.start p (hk.regions.start.symm.trans hp)
  · intro p hp
    rw [hk.regions.isSome_proc]
    exact hp

/-- Opening a header keeps it: a new header file takes the place of no record in an existing
one. -/
theorem joined (pid : ℕ) : MapInv rs ⟨s.store.joined pid, s.side⟩ := by
  unfold Store.joined
  split
  · exact h
  · have hproc : ∀ p, (s.store.disk.proc p).isSome ∨ p = pid →
        ((s.store.ensureHeader pid).disk.proc p).isSome := by
      intro p hp
      unfold Store.ensureHeader
      split
      · show (update s.store.disk.proc pid _ p).isSome
        by_cases hpp : p = pid
        · rw [hpp, update_self]
          rfl
        · rw [update_of_ne hpp]
          exact hp.resolve_right hpp
      · next hsome =>
        rcases hp with hp | rfl
        · exact hp
        · exact isSome_iff_ne_none.mpr fun hnone =>
            hsome (isNone_iff_eq_none.mpr hnone)
    refine h.of_regions rfl ?_ ?_ ?_ (fun p hp => hproc p (.inl hp)) ?_
    · show ((s.store.ensureHeader pid).apply _).ram.mapTree = _
      unfold Store.ensureHeader
      split <;> rfl
    · show ((s.store.ensureHeader pid).apply _).ram.maps = _
      unfold Store.ensureHeader
      split <;> rfl
    · intro p hp
      cases hp
      exact hproc _ (.inr rfl)
    · intro idx hidx q hq _
      have hsome := h.header idx hidx q hq
      show ((s.store.ensureHeader pid).disk.mmapobj q).range = _
      unfold Store.ensureHeader
      split
      · next hnone =>
        have hne : q.pid ≠ pid := by
          rintro rfl
          rw [isNone_iff_eq_none.mp hnone] at hsome
          cases hsome
        show (if q.pid = pid then ({} : Mmapobj) else s.store.disk.mmapobj q).range = _
        rw [if_neg hne]
      · rfl

/-- Finding or opening a process keeps it. -/
theorem opened (pid : ℕ) : MapInv rs ⟨optimized.opened pid s, (optimized.findProcObj pid s).2⟩ := by
  have hring := (quiet_optimized.findProcObj pid s).1
  unfold Build.opened
  split
  · exact h.of_regions hring rfl rfl h.start (fun _ hp => hp) fun _ _ _ _ _ => rfl
  · have hj := h.joined pid
    exact hj.of_regions hring rfl rfl hj.start (fun _ hp => hp) fun _ _ _ _ _ => rfl

/-- A new mapping that no entry covers, with a range in the tree or to come. -/
theorem addMap {m : Mapping} (hm : ∀ m' ∈ s.store.ram.maps, m.Disjoint m')
    (hc : s.side.mmaps.Avoids m.base m.size) (hne : rs ≠ []) :
    MapInv rs ⟨s.store.apply (.ram fun r => { r with maps := m :: r.maps }), s.side⟩ where
  maps := List.pairwise_cons.mpr ⟨hm, h.maps⟩
  tree := h.tree
  ranges := h.ranges
  below := h.below
  made _ _ := hne
  mapped r hr := by
    obtain ⟨f, hf⟩ := h.mapped r hr
    exact ⟨f, List.mem_cons_of_mem m hf⟩
  start := h.start
  header := h.header
  entry idx hidx a hcov m' hm' ha := by
    rcases List.mem_cons.mp hm' with rfl | hm'
    · exact absurd ha (hc idx hidx a hcov)
    · obtain ⟨r, hr, hin, q, he⟩ := h.entry idx hidx a hcov m' hm' ha
      exact ⟨r, hr, hin, q, he.ref, he.id, he.start, he.entryStart, he.entrySize⟩

/-- A new mapping that no entry covers, and its range in the tree. -/
theorem addRange (r : RangeCall) (hlow : r.start + r.size < 2 ^ 64) (f : DataFile)
    (hm : ∀ m ∈ s.store.ram.maps, (⟨r.start, r.size, f⟩ : Mapping).Disjoint m)
    (hc : s.side.mmaps.Avoids r.start r.size) :
    MapInv (rs ++ [r]) ⟨(s.store.apply
      (.ram fun ram => { ram with maps := ⟨r.start, r.size, f⟩ :: ram.maps })).apply
      (.ram fun ram => { ram with mapTree := ram.mapTree.insert r.start r.node }), s.side⟩ where
  maps := List.pairwise_cons.mpr ⟨hm, h.maps⟩
  tree := by
    show s.store.ram.mapTree.insert r.start r.node = _
    rw [h.tree, rangeTree, rangeTree, List.foldl_append]
    rfl
  ranges := by
    rw [List.pairwise_append]
    refine ⟨h.ranges, List.pairwise_singleton _ _, ?_⟩
    intro r' hr' r'' hr''
    rw [List.mem_singleton.mp hr'']
    rintro a ⟨⟨hle, hlt⟩, ⟨hle', hlt'⟩⟩
    obtain ⟨f', hf'⟩ := h.mapped r' hr'
    rcases hm _ hf' with hap | hap
    · have hap' : r.start + r.size ≤ r'.start := hap
      omega
    · have hap' : r'.start + r'.size ≤ r.start := hap
      omega
  below r' hr' := by
    rcases List.mem_append.mp hr' with hr' | hr'
    · exact h.below r' hr'
    · rw [List.mem_singleton.mp hr']
      exact hlow
  made _ _ := by simp
  mapped r' hr' := by
    rcases List.mem_append.mp hr' with hr' | hr'
    · obtain ⟨f', hf'⟩ := h.mapped r' hr'
      exact ⟨f', List.mem_cons_of_mem _ hf'⟩
    · rw [List.mem_singleton.mp hr']
      exact ⟨f, List.mem_cons_self⟩
  start := h.start
  header := h.header
  entry idx hidx a hcov m hm' ha := by
    rcases List.mem_cons.mp hm' with rfl | hm'
    · exact absurd ha (hc idx hidx a hcov)
    · obtain ⟨r', hr', hin, q, he⟩ := h.entry idx hidx a hcov m hm' ha
      exact ⟨r', List.mem_append_left _ hr', hin, q, he.ref, he.id, he.start, he.entryStart,
        he.entrySize⟩

/-- A new entry, which is right wherever it covers a mapped address. -/
theorem addEntry {q : MmapPtr} (hq : (s.store.disk.proc q.pid).isSome)
    (hentry : ∀ a, (s.store.disk.mmapobj q).dataAddr ≤ a ∧
        a < ((s.store.disk.mmapobj q).dataAddr + toUint (s.store.disk.mmapobj q).length) % 2 ^ 64 →
      ∀ m ∈ s.store.ram.maps, m.Contains a → ∃ r ∈ rs, r.Contains a ∧
        (s.store.disk.mmapobj q).vmaId = r.id ∧ (s.store.disk.mmapobj q).dataAddr = r.start) :
    MapInv rs ⟨s.store, optimized.addedMmapobj q s⟩ where
  maps := h.maps
  tree := h.tree
  ranges := h.ranges
  below := h.below
  made := h.made
  mapped := h.mapped
  start := h.start
  header idx hidx q' hq' := by
    have hupdate : update s.side.mmaps.ref s.side.mmaps.nextEntry (some q) idx =
      some q' := hq'
    by_cases hnext : idx = s.side.mmaps.nextEntry
    · rw [hnext, update_self] at hupdate
      cases hupdate
      exact hq
    · rw [update_of_ne hnext] at hupdate
      exact h.header idx hidx q' hupdate
  entry idx hidx a hcov m hm ha := by
    unfold MmapCache.Covers at hcov
    by_cases hnext : idx = s.side.mmaps.nextEntry
    · subst hnext
      simp only [optimized, MmapCache.addToMmapCache, update_self] at hcov
      obtain ⟨r, hr, hin, hid, hstart⟩ := hentry a hcov m hm ha
      refine ⟨r, hr, hin, q, ?_, hid, hstart, ?_, ?_⟩
      · simp only [optimized, MmapCache.addToMmapCache, update_self]
      · simp only [optimized, MmapCache.addToMmapCache, update_self, hstart]
      · simp only [optimized, MmapCache.addToMmapCache, update_self]
    · simp only [optimized, MmapCache.addToMmapCache, update_of_ne hnext] at hcov
      obtain ⟨r, hr, hin, q', he⟩ := h.entry idx hidx a hcov m hm ha
      refine ⟨r, hr, hin, q', ?_, he.id, he.start, ?_, ?_⟩
      · simp only [optimized, MmapCache.addToMmapCache, update_of_ne hnext]
        exact he.ref
      · simp only [optimized, MmapCache.addToMmapCache, update_of_ne hnext]
        exact he.entryStart
      · simp only [optimized, MmapCache.addToMmapCache, update_of_ne hnext]
        exact he.entrySize

end MapInv

/-! ## What the calls do -/

section Calls

variable {rs : List RangeCall} {s s' : CachedStore}
  {st : Store} {pid addr x : ℕ} {u : Unit} {q : MmapPtr} {place : DataFile → ℕ}

theorem keepsRegions_dataFile (f : DataFile) (n : ℕ) :
    KeepsRegions st (st.apply (.dataFile f n)) :=
  ⟨rfl, rfl, rfl, rfl, fun _ => rfl, fun _ => rfl⟩

/-- A header was there before, with the same counts. -/
theorem KeepsRegions.header_back {st' : Store} (hk : KeepsRegions st st') {p : ℕ} {h' : ProcObj}
    (hp : st'.disk.proc p = some h') : ∃ h, st.disk.proc p = some h ∧
      h.metaOffset = h'.metaOffset ∧ h.pesistMmaps = h'.pesistMmaps := by
  have hcounts := hk.header p
  rw [hp] at hcounts
  obtain ⟨h, hh, heq⟩ := map_eq_some_iff.mp hcounts.symm
  exact ⟨h, hh, congrArg Prod.fst heq, congrArg Prod.snd heq⟩

/-- A program of which only the state after it matters. -/
theorem wpc_of_exec {α : Type} {m : CachedM α} {Q : α → CachedStore → Prop}
    (h : ∀ a s', m.exec s = some (a, s') → Q a s') : Wpc Q (fun _ => True) m s :=
  fun a _ hm => ⟨h a _ (exec_eq_some hm), fun _ => trivial⟩

/-- After a part that leaves the regions alone, the rest needs only that. -/
theorem wpc_of_keeps {α β : Type} {m : CachedM α} {f : α → CachedM β} {Q : β → CachedStore → Prop}
    (hm : Stays (KeepsMaps SameRings) m s)
    (hf : ∀ a s', KeepsMaps SameRings s s' → Wpc Q (fun _ => True) (f a) s') :
    Wpc Q (fun _ => True) (m >>= f) s :=
  wpc_bind (wpc_of_exec fun a s' hexec => hf a s' (KeepsMaps.of_exec hm hexec))

theorem WriteM.Wpc.exec {α : Type} {m : CachedM α} {Q : α → CachedStore → Prop}
    (h : Wpc Q (fun _ => True) m s) {a : α} (hm : m.exec s = some (a, s')) : Q a s' := by
  obtain ⟨⟨_, ws⟩, hrun, heq⟩ := map_eq_some_iff.mp hm
  cases heq
  exact (h _ ws hrun).1

/-- `_mmap` at addresses that no entry covers. -/
theorem MapInv.mmap (h : MapInv rs s) {size : ℕ} (hk : KernelOk s (.mmap pid size addr))
    (hc : CacheClear s (.mmap pid size addr))
    (hcall : (mmapRegionIn optimized pid size addr).exec s = some (u, s')) :
    ∃ rs', MapInv rs' s' := by
  obtain ⟨hfresh, hspace⟩ := hk
  have hw : Wpc (fun _ s' => ∃ rs', MapInv rs' s') (fun _ => True)
      (mmapRegionIn optimized pid size addr) s := by
    refine wpc_assert_bind fun _ => wpc_bind (wpc_of_exec fun x s₁ hx => ?_)
    rw [findOrLoadProcessIn_exec] at hx
    cases hx
    refine wpc_state_bind (wpc_lift_bind fun hd _ => ?_)
    refine wpc_emit_bind trivial (wpc_emit_bind trivial (wpc_emit_bind trivial ?_))
    refine wpc_assert_bind fun _ => wpc_emit_bind trivial (wpc_emit_bind trivial ?_)
    refine wpc_state_bind (wpc_emit trivial trivial ?_)
    have hopen := (h.opened pid).keeps (keepsMaps_write (keepsRegions_proc
      (p := optimized.procOf pid s) (f := fun h => { h with numMmaps := h.numMmaps + 1 })
      fun _ => rfl))
    have hfile := hopen.keeps (keepsMaps_write
      (keepsRegions_dataFile ⟨pid, hd.numMmaps + 1⟩ (toUint size)))
    let r : RangeCall := ⟨addr, size, hd.numMmaps + 1, pid, hfresh.sizePos, hspace.le,
      Nat.succ_ne_zero _⟩
    have hnode : r.node = ⟨addr, addr + size, hd.numMmaps + 1, pid⟩ := by
      show (⟨addr, (addr + size) % 2 ^ 64, _, _⟩ : MmapobjNode) = _
      rw [Nat.mod_eq_of_lt hspace]
    have hrange := hfile.addRange r hspace ⟨pid, hd.numMmaps + 1⟩ (by
      intro m hm
      have hm' : m ∈ (optimized.opened pid s).ram.maps := hm
      rw [(optimized.opened_ram pid s).1] at hm'
      exact hfresh.apart m hm') (by
      show ((optimized.findProcObj pid s).2).mmaps.Avoids addr size
      rw [(quiet_optimized.findProcObj pid s).1]
      exact hc)
    rw [hnode] at hrange
    exact ⟨_, hrange.of_regions rfl rfl rfl hrange.start (fun _ hp => hp) fun _ _ _ _ _ => rfl⟩
  exact hw.exec hcall

/-- A new region record. -/
structure RegionMade (st st' : Store) (x : ℕ) (q : MmapPtr) (range : ℕ × ℕ × ℕ × ℕ) : Prop where
  slot : ∃ start h, st.ram.procMapStart = some start ∧ st.disk.proc x = some h ∧
    q = ⟨start, h.metaOffset⟩
  ram : st'.ram = st.ram
  header : ∀ p, (st.disk.proc p).isSome → (st'.disk.proc p).isSome
  made : (st'.disk.mmapobj q).range = range
  others : ∀ q', q' ≠ q → st'.disk.mmapobj q' = st.disk.mmapobj q'

theorem isSome_proc_apply (x : ℕ) (f : ProcObj → ProcObj) {p : ℕ} (hp : (st.disk.proc p).isSome) :
    ((st.apply (.proc x f)).disk.proc p).isSome := by
  show (update st.disk.proc x ((st.disk.proc x).map f) p).isSome
  by_cases hpx : p = x
  · subst hpx
    rw [update_self, isSome_map]
    exact hp
  · rw [update_of_ne hpx]
    exact hp

theorem regionMade_createMmapobj {st' : Store} {v bytes : ℕ}
    (h : (createMmapobj x pid v bytes addr).exec st = some (q, st')) :
    RegionMade st st' x q (v, addr, bytes, pid) := by
  have hw : Wpc (fun q st' => RegionMade st st' x q (v, addr, bytes, pid)) (fun _ => True)
      (createMmapobj x pid v bytes addr) st := by
    refine wpc_state_bind (wpc_lift_bind fun start hstart => wpc_lift_bind fun hd hhd => ?_)
    refine wpc_assert_bind fun _ => ?_
    iterate 7 refine wpc_emit_bind trivial ?_
    refine wpc_bind (wpc_state_bind (wpc_emit_bind trivial (wpc_emit trivial trivial ?_)))
    refine wpc_pure trivial ⟨⟨start, hd, hstart, hhd, rfl⟩, rfl, ?_, ?_, ?_⟩
    · intro p hp
      exact isSome_proc_apply x _ hp
    · simp only [WriteEffect.apply, Store.apply, Disk.apply, update_self, Mmapobj.range]
    · intro q' hq'
      simp only [WriteEffect.apply, Store.apply, Disk.apply, update_of_ne hq']
  exact hw.final h

/-- `add_mmapobj`, for a region whose entry is right wherever it covers a mapped address. -/
theorem MapInv.addRegion (h : MapInv rs s)
    (hq : (s.store.disk.proc q.pid).isSome)
    (hentry : ∀ a, (s.store.disk.mmapobj q).dataAddr ≤ a ∧
        a < ((s.store.disk.mmapobj q).dataAddr + toUint (s.store.disk.mmapobj q).length) % 2 ^ 64 →
      ∀ m ∈ s.store.ram.maps, m.Contains a → ∃ r ∈ rs, r.Contains a ∧
        (s.store.disk.mmapobj q).vmaId = r.id ∧ (s.store.disk.mmapobj q).dataAddr = r.start)
    (hadd : (addMmapobjIn optimized q x).exec s = some (u, s')) :
    MapInv rs s' ∧ KeepsRegions s.store s'.store ∧
      s'.side.mmaps = s.side.mmaps.addToMmapCache q (s'.store.disk.mmapobj q) := by
  simp only [addMmapobjIn, exec_bind, exec_inStore, exec_note, bind_eq_some_iff,
    map_eq_some_iff] at hadd
  obtain ⟨_, ⟨⟨_, st⟩, hexec, rfl⟩, heq⟩ := hadd
  cases heq
  have hkeep := (stays_addMmapobj q x).exec hexec
  have hrange := hkeep.region q
  simp only [Mmapobj.range, Prod.mk.injEq] at hrange
  obtain ⟨hid, hstart, hlen, -⟩ := hrange
  have hinv : MapInv rs ⟨st, s.side⟩ := h.keeps ⟨hkeep, refl s.side⟩
  refine ⟨hinv.addEntry ?_ ?_, hkeep, rfl⟩
  · rw [hkeep.isSome_proc]
    exact hq
  · intro a ha m hm hin
    simp only [hid, hstart, hlen] at ha ⊢
    exact hentry a ha m (hkeep.maps ▸ hm) hin

/-- A region of the tree is registered, with a size not above its own, in a record that no entry
refers to. -/
theorem MapInv.register (h : MapInv rs s) {bytes : ℕ} {r : RangeCall} (hr : r ∈ rs)
    (hsize : toUint bytes ≤ r.size)
    (hfree : ∀ start hd, s.store.ram.procMapStart = some start → s.store.disk.proc x = some hd →
      ∀ idx < numMmapCacheCnt, s.side.mmaps.ref idx ≠ some ⟨start, hd.metaOffset⟩)
    (hadd : (addMmapobjToProcIn optimized x pid r.id bytes r.start).exec s = some (q, s')) :
    MapInv rs s' := by
  simp only [addMmapobjToProcIn, exec_bind, exec_inStore, exec_emit, exec_pure,
    bind_some, bind_eq_some_iff, map_eq_some_iff] at hadd
  obtain ⟨_, ⟨⟨q', st⟩, hcreate, rfl⟩, ⟨_, s₁⟩, hentry, heq⟩ := hadd
  cases heq
  have hmade := regionMade_createMmapobj hcreate
  obtain ⟨start, hd, hstart, hhd, rfl⟩ := hmade.slot
  have hcreated : MapInv rs ⟨st, s.side⟩ := by
    refine h.of_regions rfl (by rw [hmade.ram]) (by rw [hmade.ram]) ?_ hmade.header ?_
    · intro p hp
      rw [hmade.ram] at hp
      exact hmade.header p (h.start p hp)
    · intro idx hidx q' hq' _
      rw [hmade.others q']
      rintro rfl
      exact hfree start hd hstart hhd idx hidx hq'
  have hrange := hmade.made
  simp only [Mmapobj.range, Prod.mk.injEq] at hrange
  obtain ⟨hid, hdata, hlen, -⟩ := hrange
  obtain ⟨hdone, -, -⟩ := hcreated.addRegion (hmade.header _ (h.start start hstart)) (by
    intro a ha m _ _
    have hbelow := h.below r hr
    simp only [hid, hdata, hlen] at ha ⊢
    refine ⟨r, hr, ⟨ha.1, ?_⟩, rfl, rfl⟩
    have hlt := ha.2
    rw [Nat.mod_eq_of_lt (by omega)] at hlt
    omega) hentry
  refine hdone.of_regions rfl rfl rfl ?_ (fun p hp => isSome_proc_apply _ _ hp)
    fun _ _ _ _ _ => rfl
  intro p hp
  exact isSome_proc_apply _ _ (hdone.start p hp)

/-- The record of the next region, when the header of the process is open. -/
theorem nextRegion_eq {start : ℕ} {hd : ProcObj}
    (hstart : (optimized.opened pid s).ram.procMapStart = some start)
    (hhd : (optimized.opened pid s).disk.proc (optimized.procOf pid s) = some hd) :
    nextRegion pid s = some ⟨start, hd.metaOffset⟩ := by
  rw [nextRegion, hstart, hhd]
  rfl

/-- The region of an allocation. -/
theorem MapInv.findRegion (h : MapInv rs s) {v start : ℕ} {found : Option MmapPtr}
    (hloc : cachedLocateMmapobjNode addr 0 s = some (v, start, found)) (hv : v ≠ 0)
    (hclear : s.side.mmaps.getFrmMmapCache addr = none →
      (∀ start hd, s.store.ram.procMapStart = some start → s.store.disk.proc x = some hd →
        ∀ idx < numMmapCacheCnt, s.side.mmaps.ref idx ≠ some ⟨start, hd.metaOffset⟩) ∧
      ∀ nd ∈ s.store.locateMmapobjNode addr,
        toUint (optimized.getVmaSize nd.mapId s) ≤ nd.endAddr - nd.startAddr)
    (hfind : (findOrAddMmapobjIn optimized x pid v start found).exec s = some (q, s')) :
    MapInv rs s' := by
  unfold cachedLocateMmapobjNode at hloc
  cases hring : s.side.mmaps.getFrmMmapCache addr with
  | some q' =>
    rw [hring] at hloc
    cases hloc
    refine h.keeps (KeepsMaps.of_exec ?_ hfind)
    exact stays_state_bind (stays_assert_bind fun _ => stays_pure _)
  | none =>
    obtain ⟨hfree, hsize⟩ := hclear hring
    rw [hring] at hloc
    obtain ⟨⟨v', start'⟩, htree, heq⟩ := map_eq_some_iff.mp hloc
    cases heq
    simp only [findOrAddMmapobjIn, exec_bind, exec_inStore, bind_eq_some_iff,
      map_eq_some_iff] at hfind
    obtain ⟨_, ⟨⟨o, st⟩, hlook, rfl⟩, hrest⟩ := hfind
    have hkeep := (stays_findMmapobj _ _).exec hlook
    have hinv : MapInv rs ⟨st, s.side⟩ := h.keeps ⟨hkeep, refl s.side⟩
    cases o with
    | some q' =>
      refine hinv.keeps (KeepsMaps.of_exec ?_ hrest)
      exact stays_state_bind (stays_assert_bind fun _ => stays_pure _)
    | none =>
      rw [h.mapTreePtr_eq] at htree
      have hne : rs ≠ [] := by
        rintro rfl
        cases htree
      have hexact := h.locatesExactly hne addr 0
      by_cases hout : ∀ r ∈ rs, ¬ r.Contains addr
      · rw [hexact.2 hout] at htree
        cases htree
        exact absurd rfl hv
      · push Not at hout
        obtain ⟨r, hr, hin⟩ := hout
        rw [hexact.1 r hr hin] at htree
        cases htree
        have hnode : r.node ∈ s.store.locateMmapobjNode addr := by
          rw [mem_def, Store.locateMmapobjNode, h.tree]
          exact (findBy_rangeTree h.ranges).mpr ⟨r, hr, rfl, hin, h.found hr addr⟩
        simp only [exec_bind, exec_state, bind_some] at hrest
        refine hinv.register hr ?_ ?_ hrest
        · refine (hsize r.node hnode).trans ?_
          show (r.start + r.size) % 2 ^ 64 - r.start ≤ r.size
          rw [Nat.mod_eq_of_lt (h.below r hr)]
          omega
        · intro start' hd' hstart' hhd'
          obtain ⟨hd, hhd, hoff, -⟩ := hkeep.header_back hhd'
          rw [← hoff]
          exact hfree start' hd (hkeep.start.symm.trans hstart') hhd

/-- An allocation, from the ring or with a region that it may register. -/
theorem MapInv.alloc (h : MapInv rs s) {rqst : Rqst} (hc : CacheClear s (.alloc rqst addr))
    (hcall : (nvRecordChunkIn optimized rqst addr).exec s = some (u, s')) : MapInv rs s' := by
  have hw : Wpc (fun _ s' => MapInv rs s') (fun _ => True) (nvRecordChunkIn optimized rqst addr)
      s := by
    refine wpc_state_bind (wpc_assert_bind fun _ => wpc_bind (wpc_of_exec fun x s₁ h₁ => ?_))
    refine wpc_bind (wpc_of_exec fun old s₂ h₂ => wpc_state_bind ?_)
    obtain ⟨rfl, hkeep, hrings⟩ := prologue_exec quiet_optimized h₁ h₂
    have hopen : MapInv rs s₂ := by
      have hfind := quiet_optimized.findProcObj rqst.pid s
      exact (h.opened rqst.pid).keeps
        ⟨hkeep, hrings.1.trans hfind.1.symm, hrings.2.trans hfind.2.symm⟩
    obtain ⟨-, htree, -⟩ := optimized.opened_ram rqst.pid s
    refine wpc_lift_bind fun loc hloc => ?_
    obtain ⟨v, start, found⟩ := loc
    refine wpc_assert_bind fun hv => wpc_assert_bind fun _ => ?_
    refine wpc_bind (wpc_of_exec fun q s₃ h₃ => ?_)
    have hfound : MapInv rs s₃ := hopen.findRegion hloc hv ?_ h₃
    · refine wpc_assert_bind fun _ => wpc_of_exec fun _ s₄ h₄ => ?_
      refine hfound.keeps (KeepsMaps.of_exec ?_ h₄)
      refine stays_note_bind (quiet_optimized.recordingChunk _ _) fun _ => ?_
      refine stays_then (stays_addChunkToMmapobjIn quiet_optimized _ _ _ _) fun c _ => ?_
      refine stays_emit_bind (keepsMaps_write (keepsRegions_mmapobj fun _ => rfl)) ?_
      refine stays_then (stays_replaceChunkIn quiet_optimized _ _ _) fun _ _ => ?_
      exact stays_emit (keepsMaps_write
        (keepsRegions_ram (fun _ => rfl) (fun _ => rfl) (fun _ => rfl) fun _ => rfl))
    · intro hring
      rw [hrings.1] at hring
      obtain ⟨hfree, hsize⟩ := hc hring
      refine ⟨?_, ?_⟩
      · intro start' hd' hstart' hhd' idx hidx
        obtain ⟨hd, hhd, hoff, -⟩ := hkeep.header_back hhd'
        rw [← hoff, hrings.1]
        exact hfree idx hidx _ (nextRegion_eq (hkeep.start.symm.trans hstart') hhd)
      · intro nd hnd
        have hvma : optimized.getVmaSize nd.mapId s₂ = optimized.getVmaSize nd.mapId s := by
          show (getVmaSize s₂.side.vmas _).toNat = (getVmaSize s.side.vmas _).toNat
          rw [hrings.2]
        rw [hvma]
        refine hsize nd ?_
        rw [Store.locateMmapobjNode, hkeep.mapTree, htree] at hnd
        exact hnd
  exact hw.exec hcall

theorem stays_initChunkTree (q : MmapPtr) :
    Stays KeepsRegions (initChunkTree q) st :=
  stays_state_bind (stays_emit_bind (keepsRegions_mmapobj fun _ => rfl)
    (stays_emit (keepsRegions_mmapobj fun _ => rfl)))

/-- What `restore_chunk_objs` does for the other regions. -/
structure RegionPlaced (s s' : CachedStore) (place : DataFile → ℕ) (q : MmapPtr) : Prop where
  maps : ∀ m ∈ s'.store.ram.maps, m ∈ s.store.ram.maps ∨
    m = (s.store.disk.mmapobj q).mapping place
  header : ∀ p, (s'.store.disk.proc p).isSome = (s.store.disk.proc p).isSome
  others : ∀ q', q' ≠ q → (s'.store.disk.mmapobj q').range = (s.store.disk.mmapobj q').range
  ring : s'.side.mmaps = s.side.mmaps

theorem RegionPlaced.keeps {s'' : CachedStore} (h : RegionPlaced s s' place q)
    (hk : KeepsMaps SameRings s' s'') :
    RegionPlaced s s'' place q where
  maps m hm := h.maps m (hk.regions.maps ▸ hm)
  header p := (hk.regions.isSome_proc p).trans (h.header p)
  others q' hq' := (hk.regions.region q').trans (h.others q' hq')
  ring := hk.tables.1.trans h.ring

theorem regionPlaced_mapped {place : DataFile → ℕ} (hk : KeepsMaps SameRings s s')
    {q : MmapPtr} (f : Mmapobj → Mmapobj) :
    RegionPlaced s ⟨(s'.store.apply (.ram fun r =>
      { r with maps := (s.store.disk.mmapobj q).mapping place :: r.maps })).apply (.mmapobj q f),
      s'.side⟩ place q where
  maps m hm := by
    rcases List.mem_cons.mp hm with rfl | hm
    · exact .inr rfl
    · exact .inl (hk.regions.maps ▸ hm)
  header := hk.regions.isSome_proc
  others q' hne := by
    refine Eq.trans ?_ (hk.regions.region q')
    exact congrArg Mmapobj.range (update_of_ne hne _ _)
  ring := hk.tables.1

/-- The entries of a record that covers nothing mapped cover nothing mapped. -/
theorem MapInv.not_covers (h : MapInv rs s)
    (hmaps : ∀ m ∈ s.store.ram.maps, (s.store.disk.mmapobj q).Avoids m.base m.size) {idx a : ℕ}
    (hidx : idx < numMmapCacheCnt) (href : s.side.mmaps.ref idx = some q)
    (hcov : s.side.mmaps.Covers idx a) {m : Mapping} (hm : m ∈ s.store.ram.maps) :
    ¬ m.Contains a := by
  intro hin
  obtain ⟨r, -, -, q', he⟩ := h.entry idx hidx a hcov m hm hin
  obtain rfl : q' = q := some.inj (he.ref.symm.trans href)
  refine hmaps m hm a ?_ hin
  rw [he.start, ← he.entryStart, ← he.entrySize]
  exact hcov

/-- A record may change when its entries cover nothing that is mapped. -/
theorem MapInv.setRegion (h : MapInv rs s) {f : Mmapobj → Mmapobj}
    (hq : ∀ idx < numMmapCacheCnt, s.side.mmaps.ref idx = some q → ∀ a, s.side.mmaps.Covers idx a →
      ∀ m ∈ s.store.ram.maps, ¬ m.Contains a) :
    MapInv rs ⟨s.store.apply (.mmapobj q f), s.side⟩ := by
  refine h.of_regions rfl rfl rfl h.start (fun _ hp => hp) ?_
  rintro idx hidx q' href ⟨a, hcov, m, hm, hin⟩
  have hne : q' ≠ q := by
    rintro rfl
    exact hq idx hidx href a hcov m hm hin
  exact congrArg Mmapobj.range (update_of_ne hne _ _)

/-- A region is mapped where no entry lies, and its record is one whose entries cover nothing that
is mapped. -/
theorem MapInv.restoreRegion (h : MapInv rs s) (hne : rs ≠ [])
    (hdis : ∀ m ∈ s.store.ram.maps, ((s.store.disk.mmapobj q).mapping place).Disjoint m)
    (hring : s.side.mmaps.Avoids (place (s.store.disk.mmapobj q).dataFile)
      (s.store.disk.mmapobj q).length)
    (hmaps : ∀ m ∈ s.store.ram.maps, (s.store.disk.mmapobj q).Avoids m.base m.size)
    (hexec : (restoreChunkObjsIn optimized place q).exec s = some (u, s')) :
    MapInv rs s' ∧ RegionPlaced s s' place q := by
  have hw : Wpc (fun _ s' => MapInv rs s' ∧ RegionPlaced s s' place q)
      (fun _ => True) (restoreChunkObjsIn optimized place q) s := by
    refine wpc_state_bind (wpc_of_keeps (stays_emit (keepsMaps_write
      (keepsRegions_mmapobj fun _ => rfl))) fun _ s₁ h₁ => ?_)
    refine wpc_of_keeps (stays_emit (keepsMaps_write
      (keepsRegions_mmapobj fun _ => rfl))) fun _ s₂ h₂ => ?_
    replace h₂ : KeepsMaps SameRings s s₂ := IsTrans.trans _ _ _ h₁ h₂
    dsimp only
    split
    · refine wpc_emit_bind trivial (wpc_emit_bind trivial (wpc_assert_bind fun _ => ?_))
      have hmapped := (h.keeps h₂).addMap (m := (s.store.disk.mmapobj q).mapping place)
        (fun m hm => hdis m (h₂.regions.maps ▸ hm)) (h₂.tables.1 ▸ hring) hne
      have hmoved := hmapped.setRegion (q := q) (f := fun m =>
        { m with dataAddr := place (s.store.disk.mmapobj q).dataFile }) (by
          intro idx hidx href a hcov m hm hin
          have href' := h₂.tables.1 ▸ href
          have hcov' := h₂.tables.1 ▸ hcov
          rcases List.mem_cons.mp hm with rfl | hm
          · exact hring idx hidx a hcov' hin
          · exact h.not_covers hmaps hidx href' hcov' (h₂.regions.maps ▸ hm) hin)
      have hplaced := @regionPlaced_mapped _ _ place h₂ q
        fun m => { m with dataAddr := place (s.store.disk.mmapobj q).dataFile }
      split
      · refine wpc_of_exec fun _ s₃ h₃ => ?_
        have htail := KeepsMaps.of_exec (stays_then (stays_inStore (stays_initChunkTree q))
          fun _ _ => stays_restoreChunksIn quiet_optimized _ _ _) h₃
        exact ⟨hmoved.keeps htail, hplaced.keeps htail⟩
      · refine wpc_of_exec fun _ s₃ h₃ => ?_
        have htail := KeepsMaps.of_exec (stays_restoreChunksIn quiet_optimized _ _ _) h₃
        exact ⟨hmoved.keeps htail, hplaced.keeps htail⟩
    · exact wpc_pure trivial ⟨h.keeps h₂, fun m hm => .inl (h₂.regions.maps ▸ hm),
        h₂.regions.isSome_proc, fun q' _ => h₂.regions.region q', h₂.tables.1⟩
  exact hw.exec hexec

theorem Mmapobj.mapping_congr {r r' : Mmapobj} (h : r.range = r'.range) (place : DataFile → ℕ) :
    r.mapping place = r'.mapping place := by
  simp only [Mmapobj.range, Prod.mk.injEq] at h
  obtain ⟨hid, -, hlen, hpid⟩ := h
  rw [Mmapobj.mapping, Mmapobj.mapping, Mmapobj.dataFile, Mmapobj.dataFile, hid, hlen, hpid]

theorem Mmapobj.avoids_congr {r r' : Mmapobj} (h : r.range = r'.range) (base size : ℕ) :
    r.Avoids base size ↔ r'.Avoids base size := by
  simp only [Mmapobj.range, Prod.mk.injEq] at h
  obtain ⟨-, hdata, hlen, -⟩ := h
  rw [Mmapobj.Avoids, Mmapobj.Avoids, hdata, hlen]

theorem MmapCache.Avoids.add {c : MmapCache} {base size : ℕ} (h : c.Avoids base size) (q : MmapPtr)
    {r : Mmapobj} (hr : r.Avoids base size) : (c.addToMmapCache q r).Avoids base size := by
  intro idx hidx a hcov
  unfold MmapCache.Covers at hcov
  by_cases hnext : idx = c.nextEntry
  · simp only [MmapCache.addToMmapCache, hnext, update_self] at hcov
    exact hr a hcov
  · simp only [MmapCache.addToMmapCache, update_of_ne hnext] at hcov
    exact h idx hidx a hcov

/-- What the loop of `load_process` needs of the regions that are still to come. -/
structure LoadClear (place : DataFile → ℕ) (x : ℕ) (qs : List MmapPtr) (s : CachedStore) :
    Prop where
  header : (s.store.disk.proc x).isSome
  owner : ∀ q ∈ qs, q.pid = x
  nodup : qs.Nodup
  apart : ∀ q ∈ qs, ∀ m ∈ s.store.ram.maps, ((s.store.disk.mmapobj q).mapping place).Disjoint m
  pairwise : ∀ q ∈ qs, ∀ q' ∈ qs, q ≠ q' → ((s.store.disk.mmapobj q).mapping place).Disjoint
    ((s.store.disk.mmapobj q').mapping place)
  ring : ∀ q ∈ qs, s.side.mmaps.Avoids ((s.store.disk.mmapobj q).mapping place).base
    ((s.store.disk.mmapobj q).mapping place).size
  maps : ∀ q ∈ qs, ∀ m ∈ s.store.ram.maps, (s.store.disk.mmapobj q).Avoids m.base m.size
  places : ∀ q ∈ qs, ∀ q' ∈ qs, (s.store.disk.mmapobj q).Avoids
    ((s.store.disk.mmapobj q').mapping place).base ((s.store.disk.mmapobj q').mapping place).size

namespace LoadClear

variable {place : DataFile → ℕ} {x : ℕ} {q : MmapPtr} {qs : List MmapPtr}

/-- One of the regions gets its entry. -/
theorem entry (h : LoadClear place x qs s) (hq : q ∈ qs) (hk : KeepsRegions s.store s'.store)
    (hcache : s'.side.mmaps = s.side.mmaps.addToMmapCache q (s'.store.disk.mmapobj q)) :
    LoadClear place x qs s' := by
  have hmapping := fun q => Mmapobj.mapping_congr (hk.region q) place
  have havoids := fun q => Mmapobj.avoids_congr (hk.region q)
  refine ⟨?_, h.owner, h.nodup, ?_, ?_, ?_, ?_, ?_⟩
  · rw [hk.isSome_proc]
    exact h.header
  · intro q' hq' m hm
    rw [hmapping]
    exact h.apart q' hq' m (hk.maps ▸ hm)
  · intro q' hq' q'' hq'' hne
    rw [hmapping, hmapping]
    exact h.pairwise q' hq' q'' hq'' hne
  · intro q' hq'
    rw [hcache, hmapping]
    exact (h.ring q' hq').add q ((havoids q _ _).mpr (h.places q hq q' hq'))
  · intro q' hq' m hm
    rw [havoids]
    exact h.maps q' hq' m (hk.maps ▸ hm)
  · intro q' hq' q'' hq''
    rw [havoids, hmapping]
    exact h.places q' hq' q'' hq''

/-- The first region is mapped. -/
theorem placed (h : LoadClear place x (q :: qs) s) (hp : RegionPlaced s s' place q) :
    LoadClear place x qs s' := by
  have hmem : ∀ {q'}, q' ∈ qs → q' ∈ q :: qs := fun hq' => List.mem_cons_of_mem q hq'
  have hne : ∀ q' ∈ qs, q' ≠ q := by
    rintro q' hq' rfl
    exact (List.nodup_cons.mp h.nodup).1 hq'
  have hmapping := fun q' hq' => Mmapobj.mapping_congr (hp.others q' (hne q' hq')) place
  have havoids := fun q' hq' => Mmapobj.avoids_congr (hp.others q' (hne q' hq'))
  refine ⟨?_, fun q' hq' => h.owner q' (hmem hq'), (List.nodup_cons.mp h.nodup).2, ?_, ?_, ?_, ?_,
    ?_⟩
  · rw [hp.header]
    exact h.header
  · intro q' hq' m hm
    rw [hmapping q' hq']
    rcases hp.maps m hm with hm | rfl
    · exact h.apart q' (hmem hq') m hm
    · exact h.pairwise q' (hmem hq') q List.mem_cons_self (hne q' hq')
  · intro q' hq' q'' hq'' hne'
    rw [hmapping q' hq', hmapping q'' hq'']
    exact h.pairwise q' (hmem hq') q'' (hmem hq'') hne'
  · intro q' hq'
    rw [hmapping q' hq', hp.ring]
    exact h.ring q' (hmem hq')
  · intro q' hq' m hm
    rw [havoids q' hq']
    rcases hp.maps m hm with hm | rfl
    · exact h.maps q' (hmem hq') m hm
    · exact h.places q' (hmem hq') q List.mem_cons_self
  · intro q' hq' q'' hq''
    rw [havoids q' hq', hmapping q'' hq'']
    exact h.places q' (hmem hq') q'' (hmem hq'')

end LoadClear

/-- The loop of `load_process`. -/
theorem MapInv.restoreRegions {qs : List MmapPtr} (h : MapInv rs s) (hne : qs ≠ [] → rs ≠ [])
    (hc : LoadClear place x qs s)
    (hloop : (restoreMmapobjsIn optimized place x qs).exec s = some (u, s')) : MapInv rs s' := by
  induction qs generalizing s with
  | nil =>
    cases hloop
    exact h
  | cons q qs ih =>
    simp only [restoreMmapobjsIn, exec_bind, bind_eq_some_iff] at hloop
    obtain ⟨⟨_, s₁⟩, hadd, ⟨_, s₂⟩, hrestore, hrest⟩ := hloop
    have hq : q ∈ q :: qs := List.mem_cons_self
    obtain ⟨h₁, hkeep, hcache⟩ := h.addRegion (by
      rw [hc.owner q hq]
      exact hc.header) (fun a ha m hm hin => absurd hin (hc.maps q hq m hm a ha)) hadd
    have hc₁ := hc.entry hq hkeep hcache
    have hmade := hne (List.cons_ne_nil q qs)
    obtain ⟨h₂, hplaced⟩ := h₁.restoreRegion hmade (hc₁.apart q hq) (hc₁.ring q hq)
      (hc₁.maps q hq) hrestore
    exact ih h₂ (fun _ => hmade) (hc₁.placed hplaced) hrest

/-- A process has the regions that its header counts, and none when the header is new. -/
theorem joined_disk {hd : ProcObj} (hhd : (st.joined pid).disk.proc (st.procOf pid) = some hd) :
    (st.joined pid).disk = st.disk ∨ hd.pesistMmaps = 0 := by
  unfold Store.joined Store.procOf at *
  cases hreg : st.findProcess pid with
  | some x => exact .inl rfl
  | none =>
    simp only [hreg, isSome_none, Bool.false_eq_true, if_false, getD_none] at hhd ⊢
    unfold Store.ensureHeader at hhd ⊢
    split
    · next hnew =>
      rw [if_pos hnew] at hhd
      have hself : some ({ pid := pid } : ProcObj) = some hd :=
        (update_self pid _ st.disk.proc).symm.trans hhd
      cases hself
      exact .inr rfl
    · exact .inl rfl

/-- `load_process` at addresses that no entry covers, of regions whose entries cover nothing that
is mapped then. -/
theorem MapInv.load (h : MapInv rs s) (hk : KernelOk s (.load pid place))
    (hc : CacheClear s (.load pid place))
    (hcall : (loadProcessIn optimized place pid).exec s = some (x, s')) : MapInv rs s' := by
  simp only [loadProcessIn, exec_bind, exec_inStore, exec_state, exec_lift, exec_pure,
    bind_some, bind_eq_some_iff, map_eq_some_iff] at hcall
  obtain ⟨_, ⟨⟨y, st⟩, hheader, rfl⟩, _, ⟨hd, hhd, rfl⟩, ⟨_, s₁⟩, hloop, heq⟩ := hcall
  cases heq
  obtain ⟨rfl, hkeep⟩ := loadHeader_exec hheader
  obtain ⟨hd₀, hhd₀, -, hcount⟩ := hkeep.header_back hhd
  -- the regions of the loop are regions of the store before the call
  have hregion : ∀ q ∈ mmapobjSlots (s.store.procOf pid) hd.pesistMmaps,
      IsRegion s.store.disk.shape (s.store.procOf pid) q ∧
      (st.disk.mmapobj q).range = (s.store.disk.mmapobj q).range := by
    intro q hq
    rw [← hcount] at hq
    rcases joined_disk hhd₀ with hdisk | hzero
    · rw [hdisk] at hhd₀
      refine ⟨(isRegion_iff_mem hhd₀).mpr hq, ?_⟩
      rw [hkeep.region, hdisk]
    · rw [hzero] at hq
      cases hq
  have hmade : mmapobjSlots (s.store.procOf pid) hd.pesistMmaps ≠ [] → rs ≠ [] := by
    rintro hslots rfl
    obtain ⟨q, hq⟩ := List.exists_mem_of_ne_nil _ hslots
    have hsome := (hc (hregion q hq).1).1
    rw [h.mapTreePtr_eq] at hsome
    cases hsome
  have hinv : MapInv rs ⟨st, s.side⟩ := (h.joined pid).keeps ⟨hkeep, refl s.side⟩
  refine hinv.restoreRegions hmade ?_ hloop
  have hmaps : st.ram.maps = s.store.ram.maps := hkeep.maps.trans (joined_ram s.store pid).1
  have hmapping := fun q hq => Mmapobj.mapping_congr (hregion q hq).2 place
  have havoids := fun q hq => Mmapobj.avoids_congr (hregion q hq).2
  refine ⟨?_, ?_, nodup_mmapobjSlots _ _, ?_, ?_, ?_, ?_, ?_⟩
  · exact isSome_iff_exists.mpr ⟨hd, hhd⟩
  · intro q hq
    obtain ⟨i, -, rfl⟩ := mem_mmapobjSlots.mp hq
    rfl
  · intro q hq m hm
    rw [hmapping q hq]
    exact hk.apart (hregion q hq).1 m (hmaps ▸ hm)
  · intro q hq q' hq' hne
    rw [hmapping q hq, hmapping q' hq']
    exact hk.pairwise (hregion q hq).1 (hregion q' hq').1 hne
  · intro q hq
    rw [hmapping q hq]
    exact (hc (hregion q hq).1).2.1
  · intro q hq m hm
    rw [havoids q hq]
    exact (hc (hregion q hq).1).2.2.1 m (hmaps ▸ hm)
  · intro q hq q' hq'
    rw [havoids q hq, hmapping q' hq']
    exact (hc (hregion q hq).1).2.2.2 (hregion q' hq').1

/-- Every call that meets the condition. -/
theorem MapInv.call (h : MapInv rs s) {c : RegionCall} (hk : KernelOk s c) (hc : CacheClear s c)
    (hcall : regionCall s c = some (u, s')) : ∃ rs', MapInv rs' s' := by
  cases c with
  | mmap pid size addr => exact h.mmap hk hc hcall
  | alloc rqst addr => exact ⟨rs, h.alloc hc hcall⟩
  | load pid place =>
    obtain ⟨⟨x, s₁⟩, hload, heq⟩ := map_eq_some_iff.mp hcall
    cases heq
    exact ⟨rs, h.load hk hc hload⟩

theorem mapInv_cachedStart (st : Store) : MapInv [] st.cachedStart where
  maps := List.Pairwise.nil
  tree := rfl
  ranges := List.Pairwise.nil
  below _ hr := nomatch hr
  made _ hm := nomatch hm
  mapped _ hr := nomatch hr
  start _ hp := nomatch hp
  header _ _ _ hq := nomatch hq
  entry _ _ _ _ _ hm := nomatch hm

end Calls

/-! ## Runs -/

/-- In a run in which nothing is mapped over an entry of the ring, no entry of a load covers a
mapping, regions are restored only after an `_mmap`, and no record of an entry is overwritten,
the ring and the tree agree. -/
theorem regionsAgree_of_run (st : Store) {calls : List RegionCall} {us : List Unit}
    {s : CachedStore}
    (hcalls : Along regionCall (fun s c => KernelOk s c ∧ CacheClear s c) calls st.cachedStart)
    (hrun : runSteps regionCall calls st.cachedStart = some (us, s)) : RegionsAgree s := by
  have hinv : ∃ rs, MapInv rs s :=
    @runSteps_inv_of_some _ _ _ _ _ (fun s => ∃ rs, MapInv rs s)
      (fun ⟨_, h⟩ ⟨hk, hc⟩ hcall => h.call hk hc hcall) _ _ ⟨[], mapInv_cachedStart st⟩ hcalls _ _
      hrun
  obtain ⟨rs, h⟩ := hinv
  exact h.regionsAgree

/-- Two half-open intervals without a common element. -/
theorem interval_apart_iff {lo hi lo' hi' : ℕ} :
    (∀ a, lo ≤ a ∧ a < hi → ¬ (lo' ≤ a ∧ a < hi')) ↔ min hi hi' ≤ max lo lo' := by
  constructor
  · intro h
    by_contra hlt
    exact h (max lo lo') (by omega) (by omega)
  · intro h a ha ha'
    omega

instance (c : MmapCache) (base size : ℕ) : Decidable (c.Avoids base size) :=
  decidable_of_iff (∀ idx < numMmapCacheCnt,
      min ((c.strtAddr idx + c.size idx) % 2 ^ 64) (base + size) ≤ max (c.strtAddr idx) base)
    (forall₂_congr fun _ _ => interval_apart_iff.symm)

instance (r : Mmapobj) (base size : ℕ) : Decidable (r.Avoids base size) :=
  decidable_of_iff _ interval_apart_iff.symm

instance (s : CachedStore) (c : RegionCall) : Decidable (KernelOk s c) :=
  match c with
  | .mmap _ _ _ => inferInstanceAs (Decidable (_ ∧ _))
  | .alloc _ _ => inferInstanceAs (Decidable True)
  | .load _ _ => inferInstanceAs (Decidable (PlaceOk _ _ _))

instance (s : CachedStore) (c : RegionCall) : Decidable (CacheClear s c) :=
  match c with
  | .mmap _ _ _ => inferInstanceAs (Decidable (MmapCache.Avoids _ _ _))
  | .alloc _ _ => inferInstanceAs (Decidable (_ → _ ∧ _))
  | .load pid place => decidable_of_iff (∀ q ∈ s.store.disk.regions (s.store.procOf pid),
      s.store.mapTreePtr.isSome ∧
      s.side.mmaps.Avoids (place (s.store.disk.mmapobj q).dataFile)
        (s.store.disk.mmapobj q).length ∧
      (∀ m ∈ s.store.ram.maps, (s.store.disk.mmapobj q).Avoids m.base m.size) ∧
      ∀ q' ∈ s.store.disk.regions (s.store.procOf pid),
        (s.store.disk.mmapobj q).Avoids (place (s.store.disk.mmapobj q').dataFile)
          (s.store.disk.mmapobj q').length) <| by
    simp only [← isRegion_iff_mem_regions]
    exact ⟨fun h _ hq => ⟨(h _ hq).1, (h _ hq).2.1, (h _ hq).2.2.1,
        fun hq' => (h _ hq).2.2.2 _ hq'⟩,
      fun h _ hq => ⟨(h hq).1, (h hq).2.1, (h hq).2.2.1, fun _ hq' => (h hq).2.2.2 hq'⟩⟩

/-- The files after a run with one region and one object in it. -/
def oneRegionFiles : Store :=
  (((runSteps regionCall [.mmap 1 4096 4096, .alloc ⟨1, 0, 16, nameA⟩ 4096]
    ({} : Store).cachedStart).map fun r => r.2.store).getD {})

/-- A second region is mapped, the first is restored at another address, and the second is
used. -/
theorem regionsAgree_oneRegionFiles : ∃ us s, RegionsAgree s ∧ runSteps regionCall
    [.mmap 1 4096 16384, .load 1 fun _ => 8192, .alloc ⟨1, 0, 16, nameB⟩ 16400]
      oneRegionFiles.cachedStart = some (us, s) ∧
    cachedLocateMmapobjNode 16400 0 s =
      some (2, 16384, some ⟨1, sizeofProc + sizeofMmapobj⟩) := by
  have hsome : (runSteps regionCall
      [.mmap 1 4096 16384, .load 1 fun _ => 8192, .alloc ⟨1, 0, 16, nameB⟩ 16400]
      oneRegionFiles.cachedStart).map (fun r => cachedLocateMmapobjNode 16400 0 r.2) =
        some (some (2, 16384, some ⟨1, sizeofProc + sizeofMmapobj⟩)) := by decide +kernel
  obtain ⟨⟨us, s⟩, hrun, hlocate⟩ := map_eq_some_iff.mp hsome
  exact ⟨us, s, regionsAgree_of_run oneRegionFiles (by decide +kernel) hrun, hrun, hlocate⟩

/-- Two answers for a mapped address, of which that of the tree may be a crash. -/
theorem not_regionsAgree {s : CachedStore} {m : Mapping} (hm : m ∈ s.store.ram.maps) {a : ℕ}
    (ha : m.Contains a) {v start : ℕ} {found : Option MmapPtr}
    (hring : cachedLocateMmapobjNode a 0 s = some (v, start, found))
    (htree : locateMmapobjId s.store.mapTreePtr a 0 ≠ some (v, start)) : ¬ RegionsAgree s := by
  intro hagree
  obtain ⟨v', start', found', hring', htree'⟩ := hagree m hm a ha 0
  cases hring.symm.trans hring'
  exact htree htree'

/-- When the region is restored where it was, the ring gives it for its addresses, and the search
of the tree reads the null pointer `map_tree`.  When it is restored elsewhere and a second region
is mapped where it was, the ring gives the first region for the addresses of the second. -/
theorem not_regionsAgree_oneRegionFiles :
    (∃ us s, runSteps regionCall [.load 1 fun _ => 4096] oneRegionFiles.cachedStart =
        some (us, s) ∧
      Along regionCall KernelOk [.load 1 fun _ => 4096] oneRegionFiles.cachedStart ∧
      cachedLocateMmapobjNode 4100 0 s = some (1, 4096, some ⟨1, sizeofProc⟩) ∧
      locateMmapobjId s.store.mapTreePtr 4100 0 = none ∧ ¬ RegionsAgree s) ∧
    ∃ us s, runSteps regionCall [.load 1 fun _ => 8192, .mmap 1 4096 4096]
        oneRegionFiles.cachedStart = some (us, s) ∧
      Along regionCall KernelOk [.load 1 fun _ => 8192, .mmap 1 4096 4096]
        oneRegionFiles.cachedStart ∧
      cachedLocateMmapobjNode 4100 0 s = some (1, 8192, some ⟨1, sizeofProc⟩) ∧
      locateMmapobjId s.store.mapTreePtr 4100 0 = some (2, 4096) ∧ ¬ RegionsAgree s := by
  constructor
  · have hcheck : (runSteps regionCall [.load 1 fun _ => 4096] oneRegionFiles.cachedStart).map
        (fun r => decide (cachedLocateMmapobjNode 4100 0 r.2 =
            some (1, 4096, some ⟨1, sizeofProc⟩) ∧
          locateMmapobjId r.2.store.mapTreePtr 4100 0 = none ∧
          (⟨4096, 4096, ⟨1, 1⟩⟩ : Mapping) ∈ r.2.store.ram.maps)) = some true := by decide +kernel
    obtain ⟨⟨us, s⟩, hrun, hdec⟩ := map_eq_some_iff.mp hcheck
    obtain ⟨hring, htree, hmap⟩ := of_decide_eq_true hdec
    refine ⟨us, s, hrun, by decide +kernel, hring, htree, ?_⟩
    refine not_regionsAgree hmap ⟨by decide, by decide⟩ hring ?_
    rw [htree]
    exact nofun
  · have hcheck : (runSteps regionCall [.load 1 fun _ => 8192, .mmap 1 4096 4096]
        oneRegionFiles.cachedStart).map
        (fun r => decide (cachedLocateMmapobjNode 4100 0 r.2 =
            some (1, 8192, some ⟨1, sizeofProc⟩) ∧
          locateMmapobjId r.2.store.mapTreePtr 4100 0 = some (2, 4096) ∧
          (⟨4096, 4096, ⟨1, 2⟩⟩ : Mapping) ∈ r.2.store.ram.maps)) = some true := by decide +kernel
    obtain ⟨⟨us, s⟩, hrun, hdec⟩ := map_eq_some_iff.mp hcheck
    obtain ⟨hring, htree, hmap⟩ := of_decide_eq_true hdec
    refine ⟨us, s, hrun, by decide +kernel, hring, htree, ?_⟩
    refine not_regionsAgree hmap ⟨by decide, by decide⟩ hring ?_
    rw [htree]
    decide
