/-
# The search for the region of an object

`find_vmaid_from_chunk` walks over the tree of regions from the right to the left and returns the
id of the first region whose tree of chunks has the searched id; `find_mmapobj_from_chunkid` then
looks that id up in the tree of regions.  The trees have any shape, as long as they are ordered.

The id of a region is an `unsigned int`, but the walk returns it as an `int`, and the caller
extends that `int` to an unsigned `long` with its sign.  The result of the walk is right for every
tree, and it is found again exactly when it is less than `2^31` (`finds_iff_lt`).  The ids come
from `num_mmaps`, which is an `int`, so for ids that are positive there the search is right.
-/
import NvMalloc.Lookup

/-! ## The code -/

/-- The fields of an `mmapobj_s` that the search uses. -/
structure SearchRegion (κ : Type) where
  vmaId : UInt32
  chunkTreeInit : Bool
  chunkobjTree : Option (RbtreeNode κ)
  ordered : ∀ t ∈ chunkobjTree, t.Ordered

/-- The fields of a `proc_s` that the search uses.  `add_mmapobj` keys a region by its id, and the
tree is created when the process is initialised. -/
structure SearchProc (κ : Type) where
  mmapobjInitialized : Bool
  mmapobjTree : Option (RbtreeNode (SearchRegion κ))
  ordered : ∀ t ∈ mmapobjTree, t.Ordered
  keyed : ∀ t ∈ mmapobjTree, ∀ e ∈ t.toList, e.1 = e.2.vmaId.toNat
  uninitialised : mmapobjInitialized = false → mmapobjTree = none

section Code

variable {κ : Type}

/-- `find_chunk`. -/
def SearchRegion.findChunk (m : SearchRegion κ) (chunkid : UInt32) : Option κ :=
  m.chunkobjTree.bind fun t => t.lookup chunkid.toNat

/-- The test of `find_vmaid_from_chunk` at a node. -/
def SearchRegion.matches (chunkid : UInt32) (m : SearchRegion κ) : Bool :=
  m.chunkTreeInit && (m.findChunk chunkid).isSome

namespace SearchProc

/-- `find_vmaid_from_chunk`. -/
def findVmaidFromChunk (chunkid : UInt32) : RbtreeNode (SearchRegion κ) → Int32
  | .nil => 0
  | .node _ l _ m r =>
    let ret := if r.isNil then 0 else findVmaidFromChunk chunkid r
    if ret ≠ 0 then ret
    else if m.matches chunkid then m.vmaId.toInt32
    else if l.isNil then 0
    else findVmaidFromChunk chunkid l

/-- `initialize_mmapobj_tree`. -/
def initializeMmapobjTree (p : SearchProc κ) : SearchProc κ :=
  match p.mmapobjTree with
  | some _ => p
  | none => ⟨true, some .nil, by simp [RbtreeNode.Ordered, RbtreeNode.toList],
      by simp [RbtreeNode.toList], by simp⟩

/-- `find_mmapobj_from_chunkid`, with the process it leaves. -/
def findMmapobjFromChunkid (chunkid : UInt32) (p : SearchProc κ) :
    Option (SearchRegion κ) × SearchProc κ :=
  if p.mmapobjInitialized then
    match p.mmapobjTree with
    | none => (none, p)
    | some t =>
      let vmidL : UInt64 := (findVmaidFromChunk chunkid t).toInt64.toUInt64
      (if vmidL = 0 then none else t.lookup vmidL.toNat, p)
  else (none, p.initializeMmapobjTree)

/-- The regions of a process. -/
def regions (p : SearchProc κ) : List (SearchRegion κ) :=
  (p.mmapobjTree.map RbtreeNode.descending).getD []

end SearchProc

end Code

/-! ## What the search should find -/

section Search

variable {κ : Type} {p : SearchProc κ} {c : UInt32}

/-- An initialised region whose tree of chunks contains an id. -/
def SearchRegion.Contains (m : SearchRegion κ) (c : UInt32) : Prop :=
  m.chunkTreeInit = true ∧ ∃ t, m.chunkobjTree = some t ∧ ∃ v, (c.toNat, v) ∈ t.toList

/-- A region contains an id and no region that contains it has a greater id. -/
def SearchProc.Greatest (p : SearchProc κ) (c : UInt32) (m : SearchRegion κ) : Prop :=
  m ∈ p.regions ∧ m.Contains c ∧ ∀ m' ∈ p.regions, m'.Contains c → m'.vmaId ≤ m.vmaId

/-- The search returns NULL when no region contains the id, and otherwise the one with the
greatest id that does. -/
def SearchProc.Finds (p : SearchProc κ) (c : UInt32) : Prop :=
  ((p.findMmapobjFromChunkid c).1 = none ↔ ∀ m ∈ p.regions, ¬ m.Contains c) ∧
    ∀ m, (p.findMmapobjFromChunkid c).1 = some m → p.Greatest c m

/-- No region has the id 0. -/
def SearchProc.NonzeroIds (p : SearchProc κ) : Prop := ∀ m ∈ p.regions, 0 < m.vmaId

/-- The ids are positive as the `int` that `num_mmaps` is. -/
def SearchProc.PositiveIds (p : SearchProc κ) : Prop := ∀ m ∈ p.regions, 0 < m.vmaId.toInt32

theorem SearchRegion.matches_iff {m : SearchRegion κ} : m.matches c = true ↔ m.Contains c := by
  obtain ⟨vmaId, init, tree, hord⟩ := m
  unfold SearchRegion.matches SearchRegion.findChunk SearchRegion.Contains
  rw [Bool.and_eq_true, Option.isSome_iff_exists]
  cases tree with
  | none => simp
  | some t =>
    simp only [Option.bind_some, RbtreeNode.lookup_eq_some_iff (hord t rfl), Option.some.injEq,
      exists_eq_left']

/-! ## The walk -/

theorem toInt32_ne_zero {id : UInt32} (h : 0 < id) : id.toInt32 ≠ 0 := by
  intro hzero
  have hid : id = 0 := congrArg Int32.toUInt32 hzero
  rw [hid] at h
  exact absurd h (by decide)

/-- The walk returns the id of the first match from the right, as an `int`. -/
theorem findVmaidFromChunk_eq_lastMatch {t : RbtreeNode (SearchRegion κ)}
    (hpos : ∀ e ∈ t.toList, 0 < e.2.vmaId) :
    SearchProc.findVmaidFromChunk c t =
      ((t.lastMatch (SearchRegion.matches c)).map fun e => e.2.vmaId.toInt32).getD 0 := by
  induction t with
  | nil => rfl
  | node col l k m r ihl ihr =>
    simp only [RbtreeNode.toList, List.mem_append, List.mem_cons] at hpos
    -- the tests for NULL change nothing, as the walk returns 0 there
    have hskip : ∀ t : RbtreeNode (SearchRegion κ),
        (if t.isNil then 0 else SearchProc.findVmaidFromChunk c t) =
          SearchProc.findVmaidFromChunk c t := by
      intro t
      cases t <;> rfl
    rw [SearchProc.findVmaidFromChunk, hskip, hskip, RbtreeNode.lastMatch_node,
      ihr fun e he => hpos e (.inr (.inr he)), ihl fun e he => hpos e (.inl he)]
    cases hr : r.lastMatch (SearchRegion.matches c) with
    | some e =>
      have hne := toInt32_ne_zero (hpos e (.inr (.inr (RbtreeNode.mem_of_lastMatch hr))))
      simp [hne]
    | none =>
      cases m.matches c <;> simp

/-- The id of a region after its way through an `int` to an unsigned `long`. -/
theorem toNat_signExtended (id : UInt32) :
    id.toInt32.toInt64.toUInt64.toNat =
      if id.toNat < 2 ^ 31 then id.toNat else id.toNat + (2 ^ 64 - 2 ^ 32) := by
  show (id.toBitVec.signExtend 64).toNat = _
  rw [BitVec.toNat_signExtend, BitVec.msb_eq_decide]
  have hlt := id.toNat_lt
  have htoNat : id.toBitVec.toNat = id.toNat := rfl
  simp only [BitVec.toNat_setWidth, htoNat, decide_eq_true_eq]
  by_cases hsmall : id.toNat < 2 ^ 31
  · rw [if_pos hsmall, if_neg (by omega)]
    omega
  · rw [if_neg hsmall, if_pos (by omega)]
    omega

/-! ## The whole search -/

namespace SearchProc

theorem mem_regions {t : RbtreeNode (SearchRegion κ)} (ht : p.mmapobjTree = some t)
    {m : SearchRegion κ} : m ∈ p.regions ↔ (m.vmaId.toNat, m) ∈ t.toList := by
  rw [regions, ht, Option.map_some, Option.getD_some, RbtreeNode.mem_descending]
  constructor
  · rintro ⟨k, hk⟩
    have hkey := p.keyed t ht _ hk
    exact hkey ▸ hk
  · exact fun hm => ⟨_, hm⟩

/-- A process has no region without a tree. -/
theorem regions_of_none (ht : p.mmapobjTree = none) : p.regions = [] := by
  rw [regions, ht]
  rfl

theorem find_of_none (ht : p.mmapobjTree = none) : (p.findMmapobjFromChunkid c).1 = none := by
  unfold findMmapobjFromChunkid
  rw [ht]
  split <;> rfl

/-- The search in a process with a tree, by the first match from the right. -/
theorem find_of_tree (hpos : p.NonzeroIds) {t : RbtreeNode (SearchRegion κ)}
    (ht : p.mmapobjTree = some t) :
    (p.findMmapobjFromChunkid c).1 =
      (t.lastMatch (SearchRegion.matches c)).bind fun e =>
        if e.2.vmaId.toNat < 2 ^ 31 then some e.2 else none := by
  have hinit : p.mmapobjInitialized = true := by
    by_contra hinit
    have hnone := p.uninitialised (Bool.eq_false_of_not_eq_true hinit)
    rw [ht] at hnone
    cases hnone
  have hposTree : ∀ e ∈ t.toList, 0 < e.2.vmaId := fun e he =>
    hpos e.2 ((mem_regions ht).mpr (p.keyed t ht e he ▸ he))
  unfold findMmapobjFromChunkid
  rw [if_pos hinit, ht]
  simp only [findVmaidFromChunk_eq_lastMatch hposTree]
  cases hmatch : t.lastMatch (SearchRegion.matches c) with
  | none => rfl
  | some e =>
    have hmem := RbtreeNode.mem_of_lastMatch hmatch
    have hid := toNat_signExtended e.2.vmaId
    have hlt := e.2.vmaId.toNat_lt
    have hpos' : 0 < e.2.vmaId.toNat := hposTree e hmem
    simp only [Option.map_some, Option.getD_some, Option.bind_some]
    rw [if_neg (fun hzero => by
      rw [hzero] at hid
      have hz : (0 : UInt64).toNat = 0 := rfl
      rw [hz] at hid
      split at hid <;> omega)]
    split
    · next hsmall =>
      rw [hid, if_pos hsmall, RbtreeNode.lookup_eq_some_iff (p.ordered t ht)]
      exact p.keyed t ht e hmem ▸ hmem
    · next hlarge =>
      rw [hid, if_neg hlarge, Option.eq_none_iff_forall_ne_some]
      -- every key is the id of a region, and so less than `2^32`
      intro m hm
      have hkey := p.keyed t ht _ ((RbtreeNode.lookup_eq_some_iff (p.ordered t ht) _ _).mp hm)
      have hm' := m.vmaId.toNat_lt
      simp only at hkey
      omega

/-- The first match from the right is the greatest region that contains the id. -/
theorem greatest_iff {t : RbtreeNode (SearchRegion κ)} (ht : p.mmapobjTree = some t)
    {m : SearchRegion κ} :
    p.Greatest c m ↔ t.lastMatch (SearchRegion.matches c) = some (m.vmaId.toNat, m) := by
  rw [RbtreeNode.lastMatch_eq_some_iff (p.ordered t ht), Greatest, mem_regions ht,
    SearchRegion.matches_iff]
  refine and_congr_right fun _ => and_congr_right fun _ => ?_
  constructor
  · intro hmax e he hcontains
    have hkey := p.keyed t ht e he
    rw [hkey]
    exact hmax e.2 ((mem_regions ht).mpr (hkey ▸ he)) (SearchRegion.matches_iff.mp hcontains)
  · intro hmax m' hm' hcontains
    exact hmax (_, m') ((mem_regions ht).mp hm') (SearchRegion.matches_iff.mpr hcontains)

/-- In a process without the id 0 the search is right exactly when the greatest region that
contains the id, if there is one, has an id less than `2^31`. -/
theorem finds_iff_lt (p : SearchProc κ) (c : UInt32) (hpos : p.NonzeroIds) :
    p.Finds c ↔ ∀ m, p.Greatest c m → m.vmaId.toNat < 2 ^ 31 := by
  unfold Finds
  cases ht : p.mmapobjTree with
  | none =>
    rw [find_of_none ht]
    unfold Greatest
    simp [regions_of_none ht]
  | some t =>
    rw [find_of_tree hpos ht]
    cases hmatch : t.lastMatch (SearchRegion.matches c) with
    | none =>
      have hnone : ∀ m ∈ p.regions, ¬ m.Contains c := by
        intro m hm hcontains
        exact RbtreeNode.lastMatch_eq_none_iff.mp hmatch _ ((mem_regions ht).mp hm)
          (SearchRegion.matches_iff.mpr hcontains)
      refine iff_of_true ⟨iff_of_true rfl hnone, fun m hm => by cases hm⟩ fun m hm => ?_
      exact absurd hm.2.1 (hnone m hm.1)
    | some e =>
      obtain ⟨k, m⟩ := e
      have hkey : k = m.vmaId.toNat := p.keyed t ht _ (RbtreeNode.mem_of_lastMatch hmatch)
      subst hkey
      have hgreatest : p.Greatest c m := (greatest_iff ht).mpr hmatch
      have hunique : ∀ m', p.Greatest c m' → m' = m := by
        intro m' hm'
        rw [greatest_iff ht, hmatch] at hm'
        exact (Prod.mk.inj (Option.some.inj hm')).2.symm
      have hsome : ¬ ∀ m ∈ p.regions, ¬ m.Contains c :=
        fun hnone => hnone m hgreatest.1 hgreatest.2.1
      rw [Option.bind_some]
      by_cases hsmall : m.vmaId.toNat < 2 ^ 31
      · rw [if_pos hsmall]
        refine iff_of_true ⟨iff_of_false (by simp) hsome, fun m' hm' => ?_⟩ fun m' hm' => ?_
        · cases hm'
          exact hgreatest
        · rw [hunique m' hm']
          exact hsmall
      · rw [if_neg hsmall]
        exact iff_of_false (fun hfinds => hsome (hfinds.1.mp rfl)) fun hall =>
          hsmall (hall m hgreatest)

/-- A positive `int` is positive and less than `2^31` as an `unsigned int`. -/
theorem toInt32_pos_iff {id : UInt32} :
    0 < id.toInt32 ↔ 0 < id.toNat ∧ id.toNat < 2 ^ 31 := by
  have hlt := id.toNat_lt
  rw [Int32.lt_iff_toInt_lt]
  show 0 < id.toBitVec.toInt ↔ _
  rw [BitVec.toInt_eq_toNat_cond]
  have htoNat : id.toBitVec.toNat = id.toNat := rfl
  rw [htoNat]
  split <;> omega

/-- **The search for a region.**  In a process whose ids are positive, for every shape of its trees
and every id, the search returns NULL exactly when no initialised region contains the id, and
otherwise the region with the greatest id that does. -/
theorem finds_of_positiveIds (p : SearchProc κ) (c : UInt32) (hpos : p.PositiveIds) :
    p.Finds c := by
  have hnonzero : p.NonzeroIds := fun m hm => (toInt32_pos_iff.mp (hpos m hm)).1
  refine (finds_iff_lt p c hnonzero).mpr ?_
  intro m hm
  exact (toInt32_pos_iff.mp (hpos m hm.1)).2

end SearchProc

/-- A region with the one chunk 7. -/
def regionOfSeven (vmaId : UInt32) : SearchRegion Unit where
  vmaId := vmaId
  chunkTreeInit := true
  chunkobjTree := some (.node .black .nil 7 () .nil)
  ordered := by simp [RbtreeNode.Ordered, RbtreeNode.toList]

/-- Regions 1 and 2, both with a chunk 7. -/
def duplicatedSeven : SearchProc Unit where
  mmapobjInitialized := true
  mmapobjTree := some (.node .black .nil 1 (regionOfSeven 1)
    (.node .red .nil 2 (regionOfSeven 2) .nil))
  ordered := by simp [RbtreeNode.Ordered, RbtreeNode.toList]
  keyed := by
    rintro t ⟨⟩
    decide
  uninitialised := by simp

theorem finds_duplicatedSeven : duplicatedSeven.PositiveIds ∧ duplicatedSeven.Finds 7 := by
  have hpos : duplicatedSeven.PositiveIds := by
    unfold SearchProc.PositiveIds
    decide
  exact ⟨hpos, SearchProc.finds_of_positiveIds duplicatedSeven 7 hpos⟩

end Search

/-! ## The search of the store

The model of the store keeps ids as natural numbers.  Its walk is this one, as long as the ids fit
the types: the id of a chunk an `unsigned int` and the id of a region a positive `int`. -/

section OfStore

variable {st : Store} {id : ℕ} {t : RbtreeNode MmapPtr}

/-- The fields of a region of the store that the search uses. -/
def Store.searchFields (st : Store) (q : MmapPtr) : SearchRegion ChunkPtr where
  vmaId := UInt32.ofNat (st.disk.mmapobj q).vmaId
  chunkTreeInit := (st.disk.mmapobj q).chunkTreeInit
  chunkobjTree := (st.disk.mmapobj q).chunkobjTree.map fun t => t.tree.root
  ordered := by
    intro t ht
    obtain ⟨t', -, rfl⟩ := Option.map_eq_some_iff.mp ht
    exact t'.tree.ordered

theorem matches_searchFields (hid : id < 2 ^ 32) (q : MmapPtr) :
    (st.searchFields q).matches (UInt32.ofNat id) = (st.disk.entry q id).isSome := by
  unfold SearchRegion.matches SearchRegion.findChunk Store.searchFields Disk.entry
  rw [UInt32.toNat_ofNat_of_lt' hid, Option.bind_map]
  cases (st.disk.mmapobj q).chunkTreeInit <;> rfl

theorem toInt_ofNat_toInt32 {v : ℕ} (hv : v < 2 ^ 31) :
    (UInt32.ofNat v).toInt32.toInt = v := by
  rw [UInt32.toInt32_ofNat', Int32.toInt_ofNat_of_lt hv]

theorem findVmaidFromChunk_toInt (hid : id < 2 ^ 32)
    (hvma : ∀ e ∈ t.toList, 0 < (st.disk.mmapobj e.2).vmaId ∧ (st.disk.mmapobj e.2).vmaId < 2 ^ 31)
    (htree : ∀ e ∈ t.toList, (st.disk.mmapobj e.2).chunkTreeInit = true →
      ∃ t, (st.disk.mmapobj e.2).chunkobjTree = some ⟨st.ram.run, t⟩) :
    st.findVmaidFromChunk id t =
      some (SearchProc.findVmaidFromChunk (UInt32.ofNat id)
        (t.map st.searchFields)).toInt.toNat := by
  have hpos : ∀ e ∈ (t.map st.searchFields).toList, 0 < e.2.vmaId := by
    intro e he
    rw [RbtreeNode.toList_map] at he
    obtain ⟨e', he', rfl⟩ := List.mem_map.mp he
    obtain ⟨hlo, hhi⟩ := hvma e' he'
    show 0 < (UInt32.ofNat (st.disk.mmapobj e'.2).vmaId).toNat
    rw [UInt32.toNat_ofNat_of_lt' (lt_trans hhi (by decide))]
    exact hlo
  rw [findVmaidFromChunk_eq (fun e he => (hvma e he).1.ne') htree,
    findVmaidFromChunk_eq_lastMatch hpos, RbtreeNode.lastMatch_map]
  simp only [matches_searchFields hid]
  cases hmatch : t.lastMatch fun q => (st.disk.entry q id).isSome with
  | none => rfl
  | some e =>
    have hlt := (hvma e (RbtreeNode.mem_of_lastMatch hmatch)).2
    simp only [Option.map_some, Option.getD_some, Prod.map_snd]
    rw [show (st.searchFields e.2).vmaId = UInt32.ofNat (st.disk.mmapobj e.2).vmaId from rfl,
      toInt_ofNat_toInt32 hlt, Int.toNat_natCast]

end OfStore
