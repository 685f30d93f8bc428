/-
# The objects of a process

What the store is for: under each name an object with a length, a committed size
and bytes.  An object is held by a valid chunk record that a restart would scan
(`Holds`), so which objects there are is decided by the files alone.

* `Separate`: different valid chunks have different ids and disjoint blocks.
* `Clean`: moreover the chunk trees of the run hold exactly the valid chunks.
* `Updates`: a step changes the object under one id and no other.
* `Represents`: the files hold the objects of an abstract map of names.
-/
import NvMalloc.StoreInv

open Function

/-- An object: what the store keeps under a name. -/
structure Obj where
  length : ℕ
  commitsz : ℕ
  bytes : List UInt8
  deriving DecidableEq, Repr

/-- The object that a chunk record describes. -/
def Disk.value (d : Disk) (c : ChunkPtr) : Obj where
  length := (d.chunk c).length
  commitsz := (d.chunk c).commitsz
  bytes := slice (d.bytesOf (dataOf c.file)) (d.chunk c).offset (d.chunk c).length

/-- Chunk `c` of process `p` is valid and has id `k`. -/
structure Holds (d : Disk) (p k : ℕ) (c : ChunkPtr) : Prop where
  scan : InScan d.shape p c
  valid : (d.chunk c).valid = .VALID
  id : (d.chunk c).chunkid = k

/-- Two extents do not overlap. -/
def Extent.Disjoint (e e' : Extent) : Prop :=
  e.offset + e.length ≤ e'.offset ∨ e'.offset + e'.length ≤ e.offset

theorem Extent.Disjoint.symm {e e' : Extent} (h : e.Disjoint e') : e'.Disjoint e := Or.symm h

/-- The valid chunks of `p` have their own ids and their own blocks. -/
structure Separate (d : Disk) (p : ℕ) : Prop where
  id : ∀ {k c c'}, Holds d p k c → Holds d p k c' → c = c'
  apart : ∀ {k k' c c'}, Holds d p k c → Holds d p k' c' → c ≠ c' → c.file = c'.file →
    (d.chunk c).extent.Disjoint (d.chunk c').extent

/-- The chunk trees of `p` hold the valid chunks of their regions. -/
def Indexes (d : Disk) (p : ℕ) : Prop := ∀ {q k c}, IsRegion d.shape p q →
  (d.entry q k = some c ↔ IsChunk d.shape q c ∧ (d.chunk c).valid = .VALID ∧
    (d.chunk c).chunkid = k)

/-- The state of a process whose names were never reused while they were live. -/
structure Clean (d : Disk) (p : ℕ) : Prop where
  separate : Separate d p
  indexes : Indexes d p

/-! ## Lookups in a clean process -/

section Lookups

variable {d : Disk} {p k : ℕ} {c : ChunkPtr}

/-- What a search finds in a clean process holds the object of that id. -/
theorem Clean.holds (hc : Clean d p) {q : MmapPtr} (hf : Finds d p k q c) : Holds d p k c := by
  obtain ⟨hqc, hv, hid⟩ := (hc.indexes hf.region).mp hf.entry
  exact ⟨⟨q, hf.region, hqc⟩, hv, hid⟩

/-- In a clean process a search finds the object. -/
theorem Clean.finds (hc : Clean d p) (hk : Holds d p k c) : ∃ q, Finds d p k q c := by
  obtain ⟨q, hq, hqc⟩ := hk.scan
  refine ⟨q, hq, (hc.indexes hq).mpr ⟨hqc, hk.valid, hk.id⟩, ?_⟩
  intro q' hq' hlt
  by_contra hne
  obtain ⟨c', hc'⟩ := Option.ne_none_iff_exists'.mp hne
  obtain ⟨hqc', hv', hid'⟩ := (hc.indexes hq').mp hc'
  obtain rfl : c' = c := hc.separate.id ⟨⟨q', hq', hqc'⟩, hv', hid'⟩ hk
  have hfile := hqc.file_eq.symm.trans hqc'.file_eq
  have hvma := (metaOf_inj.mp hfile).2
  simp only [shape_region_vmaId] at hvma
  omega

/-- No chunk is found for an id that no valid chunk has. -/
theorem Clean.missing (hc : Clean d p) (hk : ∀ c, ¬ Holds d p k c) : Missing d p k := by
  intro q hq
  by_contra hne
  obtain ⟨c, hqc⟩ := Option.ne_none_iff_exists'.mp hne
  obtain ⟨hqc, hv, hid⟩ := (hc.indexes hq).mp hqc
  exact hk c ⟨⟨q, hq, hqc⟩, hv, hid⟩

end Lookups

/-! ## Steps that keep the objects -/

/-- The same chunks are valid, with the same ids, extents and contents. -/
structure SameObjects (d d' : Disk) (p : ℕ) : Prop where
  holds : ∀ {k c}, Holds d' p k c ↔ Holds d p k c
  extent : ∀ {k c}, Holds d p k c → (d'.chunk c).extent = (d.chunk c).extent
  value : ∀ {k c}, Holds d p k c → d'.value c = d.value c

variable {d d' : Disk} {p : ℕ}

theorem SameObjects.trans {d'' : Disk} (h : SameObjects d d' p) (h' : SameObjects d' d'' p) :
    SameObjects d d'' p where
  holds := h'.holds.trans h.holds
  extent hk := (h'.extent (h.holds.mpr hk)).trans (h.extent hk)
  value hk := (h'.value (h.holds.mpr hk)).trans (h.value hk)

theorem SameObjects.separate (h : SameObjects d d' p) (hs : Separate d p) :
    Separate d' p where
  id hk hk' := hs.id (h.holds.mp hk) (h.holds.mp hk')
  apart hk hk' hne hfile := by
    rw [h.extent (h.holds.mp hk), h.extent (h.holds.mp hk')]
    exact hs.apart (h.holds.mp hk) (h.holds.mp hk') hne hfile

/-- Records that are scanned in the same places and agree up to their pointers
hold the same objects. -/
theorem SameObjects.of_records
    (hscan : ∀ {c}, InScan d'.shape p c ↔ InScan d.shape p c)
    (hchunk : ∀ {c}, InScan d.shape p c →
      { d'.chunk c with nvPtr := 0 } = { d.chunk c with nvPtr := 0 })
    (hbytes : ∀ {c}, InScan d.shape p c → d'.bytesOf (dataOf c.file) = d.bytesOf (dataOf c.file)) :
    SameObjects d d' p where
  holds := by
    intro k c
    constructor
    · rintro ⟨hs, hv, hid⟩
      rw [hscan] at hs
      have hr := hchunk hs
      exact ⟨hs, (congrArg Chunkobj.valid hr).symm.trans hv,
        (congrArg Chunkobj.chunkid hr).symm.trans hid⟩
    · rintro ⟨hs, hv, hid⟩
      have hr := hchunk hs
      exact ⟨hscan.mpr hs, (congrArg Chunkobj.valid hr).trans hv,
        (congrArg Chunkobj.chunkid hr).trans hid⟩
  extent hk := (congrArg Chunkobj.extent (hchunk hk.scan) :)
  value := by
    intro k c hk
    have hr := hchunk hk.scan
    have hoff : (d'.chunk c).offset = (d.chunk c).offset := (congrArg Chunkobj.offset hr :)
    have hlen : (d'.chunk c).length = (d.chunk c).length := (congrArg Chunkobj.length hr :)
    have hcom : (d'.chunk c).commitsz = (d.chunk c).commitsz := (congrArg Chunkobj.commitsz hr :)
    rw [Disk.value, Disk.value, hoff, hlen, hcom, hbytes hk.scan]

/-! ## Steps that change one object -/

/-- The object under id `k` becomes `v`; every other object stays. -/
structure Updates (d d' : Disk) (p k : ℕ) (v : Option Obj) : Prop where
  other : ∀ {k' c}, k' ≠ k → (Holds d' p k' c ↔ Holds d p k' c)
  value : ∀ {k' c}, k' ≠ k → Holds d p k' c → d'.value c = d.value c
  self : ∀ o, v = some o ↔ ∃ c, Holds d' p k c ∧ d'.value c = o

theorem Updates.of_same {d₁ : Disk} {k : ℕ} {v : Option Obj} (h : SameObjects d d₁ p)
    (h' : Updates d₁ d' p k v) : Updates d d' p k v where
  other hne := (h'.other hne).trans h.holds
  value hne hk := (h'.value hne (h.holds.mpr hk)).trans (h.value hk)
  self := h'.self

/-- An abstract store: the object under each name. -/
abbrev AbsStore := ObjName → Option Obj

/-- The files hold, under the names in `N`, the objects of `A`. -/
def Represents (d : Disk) (p : ℕ) (N : Set ObjName) (A : AbsStore) : Prop :=
  ∀ n ∈ N, ∀ o, A n = some o ↔ ∃ c, Holds d p (genIdFromStr n) c ∧ d.value c = o

/-- Names that the store can tell apart. -/
structure GoodNames (N : Set ObjName) : Prop where
  inj : Set.InjOn genIdFromStr N
  pos : ∀ n ∈ N, genIdFromStr n ≠ 0

section Represents

variable {d d' : Disk} {p : ℕ} {N : Set ObjName} {A : AbsStore}

/-- The objects represented are those on disk. -/
theorem Represents.of_same (hr : Represents d p N A) (h : SameObjects d d' p) :
    Represents d' p N A := by
  intro n hn o
  rw [hr n hn]
  constructor
  · rintro ⟨c, hk, hval⟩
    exact ⟨c, h.holds.mpr hk, (h.value hk).trans hval⟩
  · rintro ⟨c, hk, hval⟩
    rw [h.holds] at hk
    exact ⟨c, hk, (h.value hk).symm.trans hval⟩

theorem Represents.update (hr : Represents d p N A) (hN : GoodNames N) {n : ObjName} (hn : n ∈ N)
    {v : Option Obj} (h : Updates d d' p (genIdFromStr n) v) :
    Represents d' p N (update A n v) := by
  intro n' hn' o
  by_cases heq : n' = n
  · subst heq
    rw [update_self]
    exact h.self o
  · rw [update_of_ne heq, hr n' hn']
    have hid : genIdFromStr n' ≠ genIdFromStr n := fun he => heq (hN.inj hn' hn he)
    constructor
    · rintro ⟨c, hk, hval⟩
      exact ⟨c, (h.other hid).mpr hk, (h.value hid hk).trans hval⟩
    · rintro ⟨c, hk, hval⟩
      rw [h.other hid] at hk
      exact ⟨c, hk, (h.value hid hk).symm.trans hval⟩

/-- A name is live in the abstract store when a chunk holds its object. -/
theorem Represents.eq_none (hr : Represents d p N A) {n : ObjName} (hn : n ∈ N) :
    A n = none ↔ ∀ c, ¬ Holds d p (genIdFromStr n) c := by
  constructor
  · intro hnone c hk
    have := (hr n hn (d.value c)).mpr ⟨c, hk, rfl⟩
    rw [hnone] at this
    cases this
  · intro hno
    by_contra hne
    obtain ⟨o, ho⟩ := Option.ne_none_iff_exists'.mp hne
    obtain ⟨c, hk, -⟩ := (hr n hn o).mp ho
    exact hno c hk

end Represents

/-! ## Steps that leave the files of a process alone -/

/-- The files of process `p` are the same. -/
structure SameFiles (d d' : Disk) (p : ℕ) : Prop where
  proc : d'.proc p = d.proc p
  mmapobj : ∀ {q}, q.pid = p → d'.mmapobj q = d.mmapobj q
  chunk : ∀ {c}, c.file.pid = p → d'.chunk c = d.chunk c
  data : ∀ v, d'.data ⟨p, v⟩ = d.data ⟨p, v⟩

theorem InScan.pid_eq {s : Shape} {c : ChunkPtr} (h : InScan s p c) : c.file.pid = p := by
  obtain ⟨q, hq, hqc⟩ := h
  rw [hqc.file_eq]
  exact hq.pid_eq

namespace SameFiles

variable {d d' d'' : Disk} {p : ℕ}

theorem refl (d : Disk) (p : ℕ) : SameFiles d d p := ⟨rfl, fun _ => rfl, fun _ => rfl, fun _ => rfl⟩

theorem trans (h : SameFiles d d' p) (h' : SameFiles d' d'' p) : SameFiles d d'' p where
  proc := h'.proc.trans h.proc
  mmapobj hq := (h'.mmapobj hq).trans (h.mmapobj hq)
  chunk hc := (h'.chunk hc).trans (h.chunk hc)
  data v := (h'.data v).trans (h.data v)

variable {q : MmapPtr}

section

variable (h : SameFiles d d' p)
include h

theorem isRegion : IsRegion d'.shape p q ↔ IsRegion d.shape p q := by
  have hheader : d'.shape.header p = d.shape.header p := congrArg (Option.map ProcObj.shape) h.proc
  unfold IsRegion
  rw [hheader]

theorem isChunk (hq : q.pid = p) {c : ChunkPtr} : IsChunk d'.shape q c ↔ IsChunk d.shape q c := by
  unfold IsChunk
  simp only [shape_region_vmaId, shape_region_numchunks, h.mmapobj hq]

theorem inScan {c : ChunkPtr} : InScan d'.shape p c ↔ InScan d.shape p c := by
  constructor
  · rintro ⟨q, hq, hqc⟩
    rw [h.isRegion] at hq
    exact ⟨q, hq, (h.isChunk hq.pid_eq).mp hqc⟩
  · rintro ⟨q, hq, hqc⟩
    exact ⟨q, h.isRegion.mpr hq, (h.isChunk hq.pid_eq).mpr hqc⟩

/-- The objects of a process are decided by its own files. -/
theorem sameObjects : SameObjects d d' p := by
  refine SameObjects.of_records h.inScan ?_ ?_
  · intro c hc
    rw [h.chunk hc.pid_eq]
  · intro c hc
    have hfile : dataOf c.file = ⟨p, (dataOf c.file).vma⟩ := by
      rw [← hc.pid_eq]
      rfl
    rw [hfile, Disk.bytesOf, Disk.bytesOf, h.data]

theorem entry (hq : q.pid = p) (k : ℕ) : d'.entry q k = d.entry q k := by
  rw [Disk.entry, Disk.entry, h.mmapobj hq]

theorem clean (hc : Clean d p) : Clean d' p where
  separate := h.sameObjects.separate hc.separate
  indexes := by
    intro q k c hq
    rw [h.isRegion] at hq
    rw [h.entry hq.pid_eq, hc.indexes hq, h.isChunk hq.pid_eq]
    constructor
    · rintro ⟨hqc, hr⟩
      rw [h.chunk (InScan.pid_eq ⟨q, hq, hqc⟩)]
      exact ⟨hqc, hr⟩
    · rintro ⟨hqc, hr⟩
      rw [h.chunk (InScan.pid_eq ⟨q, hq, hqc⟩)] at hr
      exact ⟨hqc, hr⟩

end

/-- A process stays loaded while its files and its mappings stay. -/
theorem loaded {st st' : Store} (h : SameFiles st.disk st'.disk p) (hl : Loaded st p)
    (hrun : st'.ram.run = st.ram.run) (hmaps : st.ram.maps ⊆ st'.ram.maps) : Loaded st' p := by
  refine hl.of_agree ?_ (fun _ => h.isRegion) ?_ ?_ hrun hmaps
  · intro hd hp
    exact ⟨hd, h.proc.trans hp, rfl, rfl⟩
  · intro q hq
    exact h.mmapobj hq.pid_eq
  · intro c hc
    exact h.chunk hc.pid_eq

end SameFiles

/-! ## Steps that only make room -/

/-- Process `p` may have got new regions, which are empty; its old regions and
their chunks are as before. -/
structure Grown (d d' : Disk) (p : ℕ) : Prop where
  isRegion : ∀ {q}, IsRegion d.shape p q → IsRegion d'.shape p q
  mmapobj : ∀ {q}, IsRegion d.shape p q → d'.mmapobj q = d.mmapobj q
  blank : ∀ {q}, IsRegion d'.shape p q → IsRegion d.shape p q ∨
    (∀ c, ¬ IsChunk d'.shape q c) ∧ ∀ k, d'.entry q k = none
  chunk : ∀ {c}, InScan d.shape p c → d'.chunk c = d.chunk c
  bytes : ∀ {c}, InScan d.shape p c → d'.bytesOf (dataOf c.file) = d.bytesOf (dataOf c.file)

namespace Grown

variable {d d' : Disk} {p : ℕ}

theorem refl (d : Disk) (p : ℕ) : Grown d d p :=
  ⟨id, fun _ => rfl, fun hq => Or.inl hq, fun _ => rfl, fun _ => rfl⟩

variable (h : Grown d d' p)
include h

variable {q : MmapPtr} {c : ChunkPtr}

theorem isChunk (hq : IsRegion d.shape p q) :
    IsChunk d'.shape q c ↔ IsChunk d.shape q c := by
  unfold IsChunk
  simp only [shape_region_vmaId, shape_region_numchunks, h.mmapobj hq]

theorem entry (hq : IsRegion d.shape p q) (k : ℕ) : d'.entry q k = d.entry q k := by
  rw [Disk.entry, Disk.entry, h.mmapobj hq]

/-- Every chunk of a region is a chunk it had before. -/
theorem scanned (hq : IsRegion d'.shape p q) (hqc : IsChunk d'.shape q c) :
    IsRegion d.shape p q ∧ IsChunk d.shape q c := by
  rcases h.blank hq with hq' | ⟨hno, -⟩
  · exact ⟨hq', (h.isChunk hq').mp hqc⟩
  · exact absurd hqc (hno c)

/-- Every entry of a region is an entry it had before. -/
theorem indexed {k : ℕ} (hq : IsRegion d'.shape p q) (hk : d'.entry q k = some c) :
    IsRegion d.shape p q ∧ d.entry q k = some c := by
  rcases h.blank hq with hq' | ⟨-, hno⟩
  · exact ⟨hq', (h.entry hq' k).symm.trans hk⟩
  · rw [hno k] at hk
    cases hk

theorem entryAt_iff (q : MmapPtr) (k : ℕ) (c : ChunkPtr) : EntryAt d' p q k c ↔ EntryAt d p q k c :=
  ⟨fun he => h.indexed he.1 he.2, fun he => ⟨h.isRegion he.1, (h.entry he.1 k).trans he.2⟩⟩

theorem inScan : InScan d'.shape p c ↔ InScan d.shape p c := by
  constructor
  · rintro ⟨q, hq, hqc⟩
    exact ⟨q, h.scanned hq hqc⟩
  · rintro ⟨q, hq, hqc⟩
    exact ⟨q, h.isRegion hq, (h.isChunk hq).mpr hqc⟩

/-- New files hold no objects. -/
theorem sameObjects : SameObjects d d' p := by
  refine SameObjects.of_records h.inScan ?_ h.bytes
  intro c hc
  rw [h.chunk hc]

theorem clean (hc : Clean d p) : Clean d' p where
  separate := h.sameObjects.separate hc.separate
  indexes := by
    intro q k c hq
    constructor
    · intro hk
      obtain ⟨hq', hk'⟩ := h.indexed hq hk
      obtain ⟨hqc, hr⟩ := (hc.indexes hq').mp hk'
      rw [h.chunk ⟨q, hq', hqc⟩]
      exact ⟨(h.isChunk hq').mpr hqc, hr⟩
    · rintro ⟨hqc, hr⟩
      obtain ⟨hq', hqc'⟩ := h.scanned hq hqc
      rw [h.chunk ⟨q, hq', hqc'⟩] at hr
      rw [h.entry hq']
      exact (hc.indexes hq').mpr ⟨hqc', hr⟩

theorem finds {k : ℕ} (hf : Finds d p k q c) : Finds d' p k q c where
  region := h.isRegion hf.region
  entry := (h.entry hf.region k).trans hf.entry
  greatest := by
    intro q' hq' hlt
    rcases h.blank hq' with hold | ⟨-, hno⟩
    · rw [h.mmapobj hf.region, h.mmapobj hold] at hlt
      exact (h.entry hold k).trans (hf.greatest hold hlt)
    · exact hno k

end Grown
