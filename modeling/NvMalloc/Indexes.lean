/-
# The indexes of the live objects

Besides the id trees a run keeps two more indexes of its objects: `chunkmap`, from the
address of a block to its chunk, and `objnamemap`, whose keys `get_object_list` lists.
They should describe the same objects (`IndexesAgree`).

The names are kept up by every operation but a rename and a second allocation of a live
name: the first keeps the old name readable and takes it off the list, the second takes
the name off the list when it deletes the old chunk.  The addresses are only ever added:
a deleted chunk stays in `chunkmap`, and a restart does not fill `chunkmap` again.  In runs
without these steps all three indexes agree in every state.
-/
import NvMalloc.Rename
import NvMalloc.Routine

open WriteM Function

/-- `get_object_list`: the keys of `objnamemap`. -/
def getObjectList (st : Store) : Finset ObjName := st.ram.objnamemap

/-- The id trees of process `p` lead to the valid chunk `c`. -/
def Live (d : Disk) (p : ℕ) (c : ChunkPtr) : Prop :=
  ∃ k q, Finds d p k q c ∧ (d.chunk c).valid = .VALID

/-- What is listed can be read, and what can be read under a name in `N` is listed. -/
structure NamesAgree (p : ℕ) (N : Set ObjName) (st : Store) : Prop where
  readable : ∀ n ∈ getObjectList st, (observe p st n).isSome
  listed : ∀ n ∈ N, (observe p st n).isSome → n ∈ getObjectList st

/-- `chunkmap` has every live chunk under its address, and no other chunk. -/
structure AddressesAgree (p : ℕ) (st : Store) : Prop where
  registered : ∀ c, Live st.disk p c → st.ram.chunkmap (st.disk.chunk c).nvPtr = some c
  live : ∀ a c, st.ram.chunkmap a = some c → Live st.disk p c

/-- The three indexes describe the same objects. -/
structure IndexesAgree (p : ℕ) (N : Set ObjName) (st : Store) : Prop extends
  NamesAgree p N st, AddressesAgree p st

/-! ## The names after a restart -/

/-- A step that concerns neither the names, nor the addresses, nor the records of chunks. -/
structure Neutral (st st' : Store) : Prop where
  names : st'.ram.objnamemap = st.ram.objnamemap
  chunkmap : st'.ram.chunkmap = st.ram.chunkmap
  chunk : st'.disk.chunk = st.disk.chunk
  region : ∀ q, (st'.disk.mmapobj q).shape = (st.disk.mmapobj q).shape
  data : st'.disk.data = st.disk.data

/-- Restoring the chunks `cs` adds the names of the valid ones to the list. -/
structure Listed (st st' : Store) (cs : List ChunkPtr) : Prop where
  names : ∀ n, n ∈ st'.ram.objnamemap ↔ n ∈ st.ram.objnamemap ∨
    ∃ c ∈ cs, (st.disk.chunk c).valid = .VALID ∧ (st.disk.chunk c).objname = n
  chunkmap : st'.ram.chunkmap = st.ram.chunkmap
  chunk : ∀ c, { st'.disk.chunk c with nvPtr := 0 } = { st.disk.chunk c with nvPtr := 0 }
  region : ∀ q, (st'.disk.mmapobj q).shape = (st.disk.mmapobj q).shape
  data : st'.disk.data = st.disk.data

section Restore

variable {st st' st₁ : Store} {p : ℕ} {q : MmapPtr} {c : ChunkPtr} {cs cs' : List ChunkPtr}
  {place : DataFile → ℕ}

instance : IsPreorder Store Neutral where
  refl _ := ⟨rfl, rfl, rfl, fun _ => rfl, rfl⟩
  trans _ _ _ h h' := ⟨h'.names.trans h.names, h'.chunkmap.trans h.chunkmap, h'.chunk.trans h.chunk,
    fun q => (h'.region q).trans (h.region q), h'.data.trans h.data⟩

theorem Neutral.listed (h : Neutral st st') : Listed st st' [] where
  names n := by simp [h.names]
  chunkmap := h.chunkmap
  chunk c := by rw [h.chunk]
  region := h.region
  data := h.data

theorem Listed.trans (h : Listed st st₁ cs) (h' : Listed st₁ st' cs') :
    Listed st st' (cs ++ cs') where
  names n := by
    have hvalid : ∀ c, (st₁.disk.chunk c).valid = (st.disk.chunk c).valid :=
      fun c => (congrArg Chunkobj.valid (h.chunk c) :)
    have hname : ∀ c, (st₁.disk.chunk c).objname = (st.disk.chunk c).objname :=
      fun c => (congrArg Chunkobj.objname (h.chunk c) :)
    rw [h'.names, h.names]
    simp only [hvalid, hname, List.mem_append, or_and_right, exists_or, or_assoc]
  chunkmap := h'.chunkmap.trans h.chunkmap
  chunk c := (h'.chunk c).trans (h.chunk c)
  region q := (h'.region q).trans (h.region q)
  data := h'.data.trans h.data

theorem Listed.scan_eq (h : Listed st st' cs) (q : MmapPtr) :
    (st'.disk.mmapobj q).scan = (st.disk.mmapobj q).scan := by
  have hp : (st'.disk.mmapobj q).procId = (st.disk.mmapobj q).procId :=
    (congrArg RegionShape.procId (h.region q) :)
  have hv : (st'.disk.mmapobj q).vmaId = (st.disk.mmapobj q).vmaId :=
    (congrArg RegionShape.vmaId (h.region q) :)
  have hn : (st'.disk.mmapobj q).numchunks = (st.disk.mmapobj q).numchunks :=
    (congrArg RegionShape.numchunks (h.region q) :)
  rw [Mmapobj.scan, Mmapobj.scan, hp, hv, hn]

theorem Listed.dataFile_eq (h : Listed st st' cs) (q : MmapPtr) :
    (st'.disk.mmapobj q).dataFile = (st.disk.mmapobj q).dataFile := by
  have hp : (st'.disk.mmapobj q).procId = (st.disk.mmapobj q).procId :=
    (congrArg RegionShape.procId (h.region q) :)
  have hv : (st'.disk.mmapobj q).vmaId = (st.disk.mmapobj q).vmaId :=
    (congrArg RegionShape.vmaId (h.region q) :)
  rw [Mmapobj.dataFile, Mmapobj.dataFile, hp, hv]

/-- A change of the trees of a region. -/
theorem neutral_mmapobj {f : Mmapobj → Mmapobj} (hf : ∀ m, (f m).shape = m.shape) :
    Neutral st (st.apply (.mmapobj q f)) where
  names := rfl
  chunkmap := rfl
  chunk := rfl
  region q' := by
    by_cases hq : q' = q
    · subst hq
      exact (congrArg Mmapobj.shape (update_self ..)).trans (hf _)
    · exact congrArg Mmapobj.shape (update_of_ne hq ..)
  data := rfl

theorem neutral_proc {f : ProcObj → ProcObj} : Neutral st (st.apply (.proc p f)) :=
  ⟨rfl, rfl, rfl, fun _ => rfl, rfl⟩

theorem neutral_initializeMmapobjTree : Stays Neutral (initializeMmapobjTree p) st := by
  refine stays_state_bind (stays_lift_bind fun h _ => ?_)
  split
  · exact stays_emit_bind neutral_proc (stays_emit neutral_proc)
  · exact stays_pure _

theorem neutral_addMmapobj : Stays Neutral (addMmapobj q p) st := by
  have hend : ∀ st' : Store, Stays Neutral (do
      let st ← state
      let h ← lift (st.disk.proc p)
      let t ← lift h.mmapobjTree
      let _ ← lift (t.deref st.ram.run)
      emit (.proc p fun h => h.insertMmapobj (st.disk.mmapobj q).vmaId q)) st' := fun st' =>
    stays_state_bind (stays_lift_bind fun _ _ => stays_lift_bind fun _ _ =>
    stays_lift_bind fun _ _ =>
      stays_emit neutral_proc)
  refine stays_state_bind (stays_lift_bind fun h _ => ?_)
  split
  · exact stays_then neutral_initializeMmapobjTree fun _ st' => hend st'
  · exact hend st

/-- `add_chunkobj` of a valid chunk lists its name. -/
theorem listed_addChunkobj (hv : (st.disk.chunk c).valid = .VALID) :
    Wpc (fun _ st' => Listed st st' [c]) (fun _ => True) (addChunkobj q c) st := by
  refine wpc_state_bind
    (wpc_lift_bind fun _ _ => wpc_assert_bind fun _ => wpc_lift_bind fun _ _ => ?_)
  refine wpc_bind (wpc_emit trivial trivial (wpc_emit trivial trivial ?_))
  have hregion : Neutral st
    (st.apply (.mmapobj q fun m => m.insertEntry (st.disk.chunk c).chunkid c)) :=
    neutral_mmapobj fun _ => rfl
  refine ⟨?_, rfl, fun _ => rfl, hregion.region, rfl⟩
  intro n
  show n ∈ insert (st.disk.chunk c).objname st.ram.objnamemap ↔ _
  rw [Finset.mem_insert, or_comm]
  simp [hv, eq_comm]

theorem listed_restoreChunks (dataAddr : ℕ) (cs : List ChunkPtr) :
    Wpc (fun _ st' => Listed st st' cs) (fun _ => True) (restoreChunks q dataAddr cs) st := by
  induction cs generalizing st with
  | nil => exact wpc_pure trivial (Neutral.listed (refl st))
  | cons c cs ih =>
    refine wpc_state_bind ?_
    split
    · next hv =>
      -- an invalid record is skipped, and its name is not listed
      refine ih.post_mono fun _ st' hrest =>
        ⟨?_, hrest.chunkmap, hrest.chunk, hrest.region, hrest.data⟩
      intro n
      have hno : ¬ (st.disk.chunk c).valid = .VALID := by
        rw [show (st.disk.chunk c).valid = .INVALID from hv]
        decide
      rw [hrest.names]
      simp [hno]
    · next hv =>
      let st₁ := st.apply (.chunk c fun r => { r with nvPtr := dataAddr + r.offset })
      have hchunk : ∀ c', { st₁.disk.chunk c' with nvPtr := 0 } =
          { st.disk.chunk c' with nvPtr := 0 } := by
        intro c'
        by_cases hc : c' = c
        · subst hc
          simp [st₁, Store.apply, Disk.apply]
        · simp [st₁, Store.apply, Disk.apply, hc]
      have hptr : Listed st st₁ [] :=
        ⟨by simp [st₁, Store.apply, Ram.apply], rfl, hchunk, fun _ => rfl, rfl⟩
      have hvalid : (st₁.disk.chunk c).valid = .VALID :=
        (congrArg Chunkobj.valid (hchunk c) :).trans (Validity.ne_INVALID.mp hv)
      refine wpc_bind (wpc_emit trivial trivial (wpc_bind ?_))
      refine (listed_addChunkobj hvalid).post_mono fun _ st₂ hadd => ?_
      exact ih.post_mono fun _ st' hrest => (hptr.trans hadd).trans hrest

/-- `restore_chunk_objs` lists the names of the valid chunks of the region. -/
theorem listed_restoreChunkObjs (hdata : (st.disk.data (st.disk.mmapobj q).dataFile).isSome)
    (hplace : place (st.disk.mmapobj q).dataFile ≠ 0)
    (hst : (restoreChunkObjs place q).exec st = some ((), st')) :
    Listed st st' (st.disk.mmapobj q).scan := by
  rw [restoreChunkObjs_exec_eq hdata hplace, exec] at hst
  obtain ⟨⟨_, ws⟩, hrun, heq⟩ := Option.map_eq_some_iff.mp hst
  cases heq
  have hmap : Neutral st (st.mapChunks place q) := by
    refine ⟨rfl, rfl, rfl, ?_, rfl⟩
    intro q'
    by_cases hq : q' = q
    · subst hq
      rw [mmapobj_mapChunks_self]
      rfl
    · exact congrArg Mmapobj.shape (update_of_ne hq ..)
  exact hmap.listed.trans (listed_restoreChunks _ _ _ _ hrun).1

/-- The region loop lists the names of the valid chunks of all regions. -/
theorem listed_restoreMmapobjs (qs : List MmapPtr)
    (hdata : ∀ q ∈ qs, (st.disk.data (st.disk.mmapobj q).dataFile).isSome)
    (hplace : ∀ q ∈ qs, place (st.disk.mmapobj q).dataFile ≠ 0)
    (hst : (restoreMmapobjs place p qs).exec st = some ((), st')) :
    Listed st st' (qs.flatMap fun q => (st.disk.mmapobj q).scan) := by
  induction qs generalizing st with
  | nil =>
    cases hst
    exact Neutral.listed (refl st)
  | cons q qs ih =>
    rw [restoreMmapobjs, exec_bind] at hst
    obtain ⟨⟨_, st₁⟩, hadd, hst⟩ := Option.bind_eq_some_iff.mp hst
    rw [exec_bind] at hst
    obtain ⟨⟨_, st₂⟩, hchunks, hrest⟩ := Option.bind_eq_some_iff.mp hst
    obtain ⟨⟨_, ws⟩, hrun, heq⟩ := Option.map_eq_some_iff.mp hadd
    cases heq
    have h₁ : Listed st (applyAll st ws) [] := (neutral_addMmapobj.final hrun).listed
    have h₂ : Listed (applyAll st ws) st₂ ((applyAll st ws).disk.mmapobj q).scan := by
      refine listed_restoreChunkObjs ?_ ?_ hchunks
      · rw [h₁.dataFile_eq, h₁.data]
        exact hdata q List.mem_cons_self
      · rw [h₁.dataFile_eq]
        exact hplace q List.mem_cons_self
    rw [h₁.scan_eq] at h₂
    have h₁₂ := h₁.trans h₂
    have h₃ : Listed st₂ st' (qs.flatMap fun q => (st₂.disk.mmapobj q).scan) := by
      refine ih ?_ ?_ hrest
      · intro q' hq'
        rw [h₁₂.dataFile_eq, h₁₂.data]
        exact hdata q' (List.mem_cons_of_mem _ hq')
      · intro q' hq'
        rw [h₁₂.dataFile_eq]
        exact hplace q' (List.mem_cons_of_mem _ hq')
    have hscan : (fun q => (st₂.disk.mmapobj q).scan) = fun q => (st.disk.mmapobj q).scan :=
      funext fun q' => h₁₂.scan_eq q'
    rw [hscan] at h₃
    exact h₁₂.trans h₃

/-- The region loop of a load comes by the chunks in the scan. -/
theorem mem_scans {h : ProcObj} (hs : ShapeOk st.disk.shape)
    (hh : (st.ensureHeader p).disk.proc p = some h) :
    (c ∈ (mmapobjSlots p h.pesistMmaps).flatMap fun q =>
      ((st.ensureHeader p).disk.mmapobj q).scan) ↔
      InScan st.disk.shape p c := by
  have hs₁ := shapeOk_ensureHeader (p := p) hs
  rw [List.mem_flatMap, ← inScan_ensureHeader (p := p)]
  constructor
  · rintro ⟨q, hq, hc⟩
    have hq' := (isRegion_iff_mem hh).mpr hq
    exact ⟨q, hq', (scan_eq hs₁ hq').mp hc⟩
  · rintro ⟨q, hq, hqc⟩
    exact ⟨q, (isRegion_iff_mem hh).mp hq, (scan_eq hs₁ hq).mpr hqc⟩

/-- After a restart the valid chunks are listed, and `chunkmap` is empty. -/
theorem restart_listed (hs : ShapeOk st.disk.shape) (hplace : PlaceOk st.reboot place p)
    (hst : restart st place p = some st') :
    (∀ n, n ∈ st'.ram.objnamemap ↔
      ∃ c, InScan st.disk.shape p c ∧ (st.disk.chunk c).valid = .VALID ∧
      (st.disk.chunk c).objname = n) ∧
    ∀ a, st'.ram.chunkmap a = none := by
  let st₀ := st.started
  have hs₀ : ShapeOk st₀.disk.shape := hs
  have hplace₀ : PlaceOk st₀ place p := ⟨hplace.pos, hplace.apart, hplace.pairwise⟩
  obtain ⟨h, hh⟩ := exists_header st₀ p
  rw [restart_eq, loadProcess_exec_eq place rfl (findProcess_started st p) hh] at hst
  obtain ⟨⟨_, st₂⟩, hload, rfl⟩ := Option.map_eq_some_iff.mp hst
  obtain ⟨⟨_, st₁⟩, hexec, heq⟩ := Option.map_eq_some_iff.mp hload
  cases heq
  have hs₁ := shapeOk_ensureHeader (p := p) hs₀
  have hplace₁ := placeOk_ensureHeader hplace₀
  have hrest : ∀ q ∈ mmapobjSlots p h.pesistMmaps, Restorable (st₀.ensureHeader p) place q :=
    fun q hq => restorable hs₁ hplace₁ ((isRegion_iff_mem hh).mpr hq)
  have hl : Listed ((st₀.ensureHeader p).openProcess p h) st₁ _ :=
    listed_restoreMmapobjs _ (fun q hq => (hrest q hq).data) (fun q hq => (hrest q hq).place) hexec
  have hram : (st₀.ensureHeader p).ram = st₀.ram := ram_ensureHeader st₀ p
  refine ⟨?_, ?_⟩
  · intro n
    have hnil : n ∉ ((st₀.ensureHeader p).openProcess p h).ram.objnamemap := by
      show n ∉ (st₀.ensureHeader p).ram.objnamemap
      rw [hram]
      exact Finset.notMem_empty n
    rw [hl.names, or_iff_right hnil]
    have hscan : ∀ c, (c ∈ (mmapobjSlots p h.pesistMmaps).flatMap
        fun q => (((st₀.ensureHeader p).openProcess p h).disk.mmapobj q).scan) ↔
        InScan st.disk.shape p c := fun c => mem_scans hs₀ hh
    have hchunk : ((st₀.ensureHeader p).openProcess p h).disk.chunk = st.disk.chunk :=
      chunk_ensureHeader st₀ p
    simp only [hscan, hchunk]
  · intro a
    rw [hl.chunkmap]
    show (st₀.ensureHeader p).ram.chunkmap a = none
    rw [hram]
    rfl

end Restore

/-! ## What each operation does to the indexes -/

/-- An operation that keeps the objects, their names and addresses, and the indexes. -/
structure KeepsIndexes (p : ℕ) (st st' : Store) : Prop where
  holds : ∀ {k c}, Holds st'.disk p k c ↔ Holds st.disk p k c
  objname : ∀ {k c}, Holds st.disk p k c → (st'.disk.chunk c).objname = (st.disk.chunk c).objname
  nvPtr : ∀ {k c}, Holds st.disk p k c → (st'.disk.chunk c).nvPtr = (st.disk.chunk c).nvPtr
  names : st'.ram.objnamemap = st.ram.objnamemap
  chunkmap : st'.ram.chunkmap = st.ram.chunkmap

/-- The chunk `c` at `addr` becomes the object of `n`. -/
structure AddsIndex (p : ℕ) (st st' : Store) (n : ObjName) (addr : ℕ) (c : ChunkPtr) : Prop where
  holds : ∀ {k c'}, Holds st'.disk p k c' ↔ Holds st.disk p k c' ∨ c' = c ∧ genIdFromStr n = k
  other : ∀ {k c'}, Holds st.disk p k c' →
    st'.disk.chunk c' = st.disk.chunk c' ∧ (st.disk.chunk c').nvPtr ≠ addr
  objname : (st'.disk.chunk c).objname = n
  nvPtr : (st'.disk.chunk c).nvPtr = addr
  names : st'.ram.objnamemap = insert n st.ram.objnamemap
  chunkmap : st'.ram.chunkmap = update st.ram.chunkmap addr (some c)

/-- The chunk `c` of `n` is deleted. -/
structure RemovesIndex (p : ℕ) (st st' : Store) (n : ObjName) (c : ChunkPtr) : Prop where
  found : Holds st.disk p (genIdFromStr n) c
  holds : ∀ {k c'}, Holds st'.disk p k c' ↔ Holds st.disk p k c' ∧ c' ≠ c
  other : ∀ {c'}, c' ≠ c → st'.disk.chunk c' = st.disk.chunk c'
  names : st'.ram.objnamemap = st.ram.objnamemap.erase n

/-- The objects are kept, their names are listed again and the addresses are forgotten. -/
structure ReloadsIndex (p : ℕ) (st st' : Store) : Prop where
  holds : ∀ {k c}, Holds st'.disk p k c ↔ Holds st.disk p k c
  objname : ∀ c, (st'.disk.chunk c).objname = (st.disk.chunk c).objname
  names : ∀ n, n ∈ st'.ram.objnamemap ↔
    ∃ k c, Holds st.disk p k c ∧ (st.disk.chunk c).objname = n
  chunkmap : ∀ a, st'.ram.chunkmap a = none

/-- What an operation did to the indexes. -/
inductive IndexStep (p : ℕ) (st : Store) : Op → Store → Prop
  | keeps {op : Op} {st' : Store} (h : KeepsIndexes p st st') : IndexStep p st op st'
  | adds {n : ObjName} {bytes addr : ℕ} {c : ChunkPtr} {st' : Store}
      (h : AddsIndex p st st' n addr c) : IndexStep p st (.alloc n bytes addr) st'
  | removes {n : ObjName} {c : ChunkPtr} {st' : Store} (h : RemovesIndex p st st' n c) :
      IndexStep p st (.delete n) st'
  | reloads {place : DataFile → ℕ} {st' : Store} (h : ReloadsIndex p st st') :
      IndexStep p st (.restart place) st'

/-- The operations that keep the list of names: no live name is allocated again or renamed,
and a new block overlaps no object. -/
def KeepsNames (p : ℕ) (st : Store) : Op → Prop
  | .alloc n bytes addr => observe p st n = none ∧ Unused st p addr bytes
  | .rename s _ => observe p st s = none
  | _ => True

instance (p : ℕ) (st : Store) (op : Op) : Decidable (KeepsNames p st op) := by
  refine op.casesOn ?_ ?_ ?_ ?_ ?_ ?_ ?_ ?_ <;> intros <;> dsimp only [KeepsNames] <;>
    infer_instance

section IndexStep

variable {p : ℕ} {N : Set ObjName} {st st' : Store} {op : Op} {r : Ret}

theorem KeepsIndexes.refl (p : ℕ) (st : Store) : KeepsIndexes p st st :=
  ⟨Iff.rfl, fun _ => rfl, fun _ => rfl, rfl, rfl⟩

variable {n : ObjName}

/-- In a clean process a name can be read when a chunk holds its object. -/
theorem isSome_observe (hi : StoreInv st p) (hc : Clean st.disk p) :
    (observe p st n).isSome ↔ ∃ c, Holds st.disk p (genIdFromStr n) c := by
  rw [Option.isSome_iff_exists]
  constructor
  · rintro ⟨o, ho⟩
    obtain ⟨q, c, hf, -⟩ := (observe_eq_some hi).mp ho
    exact ⟨c, hc.holds hf⟩
  · rintro ⟨c, hk⟩
    obtain ⟨q, hf⟩ := hc.finds hk
    exact ⟨_, (observe_eq_some hi).mpr ⟨q, c, hf, hk.valid, rfl⟩⟩

theorem not_holds_of_observe (hi : StoreInv st p) (hc : Clean st.disk p)
    (ho : observe p st n = none) (c : ChunkPtr) : ¬ Holds st.disk p (genIdFromStr n) c := by
  intro hk
  have hsome := (isSome_observe hi hc).mpr ⟨c, hk⟩
  rw [ho] at hsome
  cases hsome

theorem keepsIndexes_of_grown (hg : Grown st.disk st'.disk p)
    (hnames : st'.ram.objnamemap = st.ram.objnamemap) (hmap : st'.ram.chunkmap = st.ram.chunkmap) :
    KeepsIndexes p st st' where
  holds := hg.sameObjects.holds
  objname hk := by rw [hg.chunk hk.scan]
  nvPtr hk := by rw [hg.chunk hk.scan]
  names := hnames
  chunkmap := hmap

/-- A store into a data file leaves the records and the entries alone. -/
theorem Effect.holds_same {data : DataFile → Option DataContent}
    (he : Effect st st' st.disk.chunk st.disk.entry data) {k : ℕ} {c : ChunkPtr} :
    Holds st'.disk p k c ↔ Holds st.disk p k c := by
  rw [he.holds_iff]
  exact ⟨fun ⟨hs, hv, hid⟩ => ⟨hs, hv, hid⟩, fun ⟨hs, hv, hid⟩ => ⟨hs, hv, hid⟩⟩

theorem Effect.clean {data : DataFile → Option DataContent}
    (he : Effect st st' st.disk.chunk st.disk.entry data) (hc : Clean st.disk p) :
    Clean st'.disk p := by
  refine ⟨⟨?_, ?_⟩, ?_⟩
  · intro k c c' hk hk'
    exact hc.separate.id (he.holds_same.mp hk) (he.holds_same.mp hk')
  · intro k k' c c' hk hk' hne hfile
    rw [he.chunk]
    exact hc.separate.apart (he.holds_same.mp hk) (he.holds_same.mp hk') hne hfile
  · intro q k c hq
    rw [he.frame.shape_eq] at hq ⊢
    rw [he.entry, he.chunk]
    exact hc.indexes hq

/-- A new chunk for a name that is not live. -/
theorem addsIndex_recordChunk {bytes addr : ℕ} {nd : MmapobjNode} {q : MmapPtr} {ws : List Write}
    (hok : AllocOk st (allocRqst p n bytes) nd addr) (hfound : RegionFound st p nd q ws)
    (hi : StoreInv st p) (hun : Unused st p addr bytes) :
    AddsIndex p st ((applyAll st ws).recordChunk q (allocChunk (allocRqst p n bytes) nd addr) addr)
    n
      addr ((applyAll st ws).disk.shape.nextChunk q) where
  holds := by
    intro k c'
    show Holds ((applyAll st ws).appendChunk q _).disk p k c' ↔ _
    rw [holds_appendChunk hfound.ready.inv.shape hfound.ready.region rfl,
      hfound.grown.sameObjects.holds]
    rfl
  other := by
    intro k c' hk
    have hk' : InScan (applyAll st ws).disk.shape p c' :=
      (hfound.grown.sameObjects.holds.mpr hk).scan
    refine ⟨?_, ?_⟩
    · show ((applyAll st ws).appendChunk q _).disk.chunk c' = _
      rw [chunk_appendChunk hfound.ready.inv.shape hfound.ready.region hk',
        hfound.grown.chunk hk.scan]
    · intro haddr
      have hlen : 0 < (st.disk.chunk c').length := hi.shape.length_pos hk.scan
      have hpos : 0 < bytes := hok.block.pos
      have := hun hk
      omega
  objname := (congrArg Chunkobj.objname chunk_appendChunk_self :)
  nvPtr := (congrArg Chunkobj.nvPtr chunk_appendChunk_self :)
  names := by
    rw [← hfound.ram]
    rfl
  chunkmap := by
    rw [← hfound.ram]
    rfl

theorem removesIndex_deleteChunk {c : ChunkPtr} (hk : Holds st.disk p (genIdFromStr n) c)
    (q : MmapPtr) :
    RemovesIndex p st (st.deleteChunk c q n) n c where
  found := hk
  holds := by
    intro k c'
    rw [(deleteChunk_effect st c q n).holds_iff]
    by_cases hcc : c' = c
    · subst hcc
      simp [Chunkobj.invalidate]
    · rw [update_of_ne hcc]
      constructor
      · rintro ⟨hs, hv, hid⟩
        exact ⟨⟨hs, hv, hid⟩, hcc⟩
      · rintro ⟨⟨hs, hv, hid⟩, -⟩
        exact ⟨hs, hv, hid⟩
  other hne := by
    rw [(deleteChunk_effect st c q n).chunk]
    exact update_of_ne hne ..
  names := rfl

/-- A commit changes the committed size of one record. -/
theorem keepsIndexes_commit (c : ChunkPtr) (size : ℕ) :
    KeepsIndexes p st (st.apply (.chunk c fun r => { r with commitsz := toUint size })) := by
  have hrec : ∀ c', { (st.apply (.chunk c fun r =>
      { r with commitsz := toUint size })).disk.chunk c' with commitsz := 0 } =
      { st.disk.chunk c' with commitsz := 0 } := by
    intro c'
    by_cases hcc : c' = c
    · subst hcc
      simp [Store.apply, Disk.apply]
    · simp [Store.apply, Disk.apply, hcc]
  have hframe : SameFrame st (st.apply (.chunk c fun r => { r with commitsz := toUint size })) :=
    SameFrame.chunk_apply (SameFrame.refl st) fun _ => rfl
  refine ⟨?_, fun {k c'} _ => (congrArg Chunkobj.objname (hrec c') :),
    fun {k c'} _ => (congrArg Chunkobj.nvPtr (hrec c') :), rfl, rfl⟩
  intro k c'
  have hv := congrArg Chunkobj.valid (hrec c')
  have hid := congrArg Chunkobj.chunkid (hrec c')
  simp only at hv hid
  constructor
  · rintro ⟨hs, hvalid, hk⟩
    rw [hframe.shape_eq] at hs
    exact ⟨hs, hv.symm.trans hvalid, hid.symm.trans hk⟩
  · rintro ⟨hs, hvalid, hk⟩
    rw [← hframe.shape_eq] at hs
    exact ⟨hs, hv.trans hvalid, hid.trans hk⟩

theorem reloadsIndex_restart {place : DataFile → ℕ} (hi : StoreInv st p)
    (hplace : PlaceOk st.reboot place p)
    (hl : Loads (st.reboot.apply (.ram fun r => { r with gInitialized := true })) st' place p)
    (hst : restart st place p = some st') : ReloadsIndex p st st' := by
  obtain ⟨hnames, hmap⟩ := restart_listed hi.shape hplace hst
  refine ⟨hl.sameObjects.holds, fun c => (congrArg Chunkobj.objname (hl.chunk c) :), ?_, hmap⟩
  intro n
  rw [hnames]
  constructor
  · rintro ⟨c, hs, hv, hn⟩
    exact ⟨_, c, ⟨hs, hv, rfl⟩, hn⟩
  · rintro ⟨k, c, hk, hn⟩
    exact ⟨c, hk.scan, hk.valid, hn⟩

/-- The effect of an operation on the indexes of a clean process, which stays clean. -/
theorem index_step (hN : GoodNames N) (hr : RunInv st p) (hc : Clean st.disk p)
    (hop : Allowed p N st op) (hkeep : KeepsNames p st op) (h : step p st op = some (r, st')) :
    Clean st'.disk p ∧ IndexStep p st op st' := by
  have hi := hr.inv
  have heff := step_effect hr hop h
  cases heff with
  | mmap hh hfresh =>
    refine ⟨(grown_mapRegion hi.shape hh).clean hc, .keeps ?_⟩
    exact keepsIndexes_of_grown (grown_mapRegion hi.shape hh) rfl rfl
  | create hok hfree hfound =>
    obtain ⟨ho, hun⟩ := hkeep
    have hdead := not_holds_of_observe hi hc ho
    exact ⟨(recordChunk_updates hc hok hdead hun hfound).2,
      .adds (addsIndex_recordChunk hok hfound hi hun)⟩
  | replace hok hf hv hre => exact absurd (hc.holds hf) (not_holds_of_observe hi hc hkeep.1 _)
  | @commit n size q c _ hf he =>
    have hk := hc.holds hf
    have hi₁ : StoreInv st (request p n).pid := hi
    rw [step, nvCommitLen_exec hi₁ (hN.pos n hop) hf size] at h
    cases h
    exact ⟨(he.changes hc hk ⟨hk.valid, hk.id, rfl⟩ fun _ hne =>
      he.value_eq (update_of_ne hne ..) rfl).2, .keeps (keepsIndexes_commit c size)⟩
  | deleteMissing hm => exact ⟨hc, .keeps (KeepsIndexes.refl p st)⟩
  | @deleteLost n q c hf hm =>
    have hk := hc.holds hf
    rw [hk.id] at hm
    exact absurd hm hf.not_missing
  | @delete n q q' c c' hf hf' =>
    have hk := hc.holds hf
    rw [hk.id] at hf'
    obtain ⟨rfl, -⟩ := hf'.unique hi.shape hf
    obtain ⟨hqc, -, -⟩ := (hc.indexes hf.region).mp hf.entry
    have he := deleteChunk_effect st c q' n
    rw [hk.id] at he
    exact ⟨(he.removes hi.shape hc hk hf.region hqc).2, .removes (removesIndex_deleteChunk hk q')⟩
  | read => exact ⟨hc, .keeps (KeepsIndexes.refl p st)⟩
  | @write n off bs f o =>
    have he : Effect st ⟨st.disk.blitFile f o bs, st.ram⟩ st.disk.chunk st.disk.entry
        (st.disk.blitFile f o bs).data :=
      ⟨SameFrame.blitFile (SameFrame.refl st) f o bs, rfl, fun _ _ => rfl, rfl⟩
    exact ⟨he.clean hc, .keeps ⟨he.holds_same, fun _ => rfl, fun _ => rfl, rfl, rfl⟩⟩
  | renameNothing => exact ⟨hc, .keeps (KeepsIndexes.refl p st)⟩
  | rename hf hf' he => exact absurd (hc.holds hf) (not_holds_of_observe hi hc hkeep _)
  | restart hl hinv =>
    obtain ⟨st₁, hst, heq⟩ := Option.map_eq_some_iff.mp h
    cases heq
    exact ⟨hl.clean hc.separate, .reloads (reloadsIndex_restart hi hop hl hst)⟩

end IndexStep

/-! ## The indexes along a run -/

/-- The names of the objects are the listed ones, they are in `N` and have the ids of
their chunks. -/
structure NamesInv (p : ℕ) (N : Set ObjName) (st : Store) : Prop where
  inv : RunInv st p
  clean : Clean st.disk p
  named : ∀ {k c}, Holds st.disk p k c →
    (st.disk.chunk c).objname ∈ N ∧ genIdFromStr (st.disk.chunk c).objname = k
  listed : ∀ n, n ∈ st.ram.objnamemap ↔
    ∃ k c, Holds st.disk p k c ∧ (st.disk.chunk c).objname = n

/-- `chunkmap` has the objects at their addresses. -/
def Addressed (p : ℕ) (st : Store) : Prop :=
  ∀ a c, st.ram.chunkmap a = some c ↔ ∃ k, Holds st.disk p k c ∧ (st.disk.chunk c).nvPtr = a

/-- The operations that keep `chunkmap`: no live object is deleted, and the program is
restarted only when there is none. -/
def KeepsAddresses (p : ℕ) (N : Set ObjName) (st : Store) : Op → Prop
  | .delete n => observe p st n = none
  | .restart _ => ∀ n ∈ N, observe p st n = none
  | _ => True

instance {N : Set ObjName} [Fintype N] {P : ObjName → Prop} [DecidablePred P] :
    Decidable (∀ n ∈ N, P n) :=
  decidable_of_iff (∀ n : N, P n) Subtype.forall

instance (p : ℕ) (N : Set ObjName) [Fintype N] (st : Store) (op : Op) :
    Decidable (KeepsAddresses p N st op) := by
  refine op.casesOn ?_ ?_ ?_ ?_ ?_ ?_ ?_ ?_ <;> intros <;> dsimp only [KeepsAddresses] <;>
    infer_instance

section Along

variable {p : ℕ} {N : Set ObjName} {st st' : Store} {op : Op} {r : Ret}

theorem NamesInv.namesAgree (h : NamesInv p N st) (hN : GoodNames N) : NamesAgree p N st where
  readable n hn := by
    obtain ⟨k, c, hk, hname⟩ := (h.listed n).mp hn
    have hid := (h.named hk).2
    rw [hname] at hid
    exact (isSome_observe h.inv.inv h.clean).mpr ⟨c, by rw [hid]; exact hk⟩
  listed n hn hsome := by
    obtain ⟨c, hk⟩ := (isSome_observe h.inv.inv h.clean).mp hsome
    obtain ⟨hmem, hid⟩ := h.named hk
    exact (h.listed n).mpr ⟨_, c, hk, hN.inj hmem hn hid⟩

theorem NamesInv.addressesAgree (h : NamesInv p N st) (ha : Addressed p st) :
    AddressesAgree p st where
  registered := by
    rintro c ⟨k, q, hf, -⟩
    exact (ha _ c).mpr ⟨k, h.clean.holds hf, rfl⟩
  live := by
    intro a c hac
    obtain ⟨k, hk, -⟩ := (ha a c).mp hac
    obtain ⟨q, hf⟩ := h.clean.finds hk
    exact ⟨k, q, hf, hk.valid⟩

/-- One operation keeps the names. -/
theorem NamesInv.step (hN : GoodNames N) (h : NamesInv p N st)
    (hop : Allowed p N st op ∧ KeepsNames p st op) (hstep : step p st op = some (r, st')) :
    NamesInv p N st' := by
  have hr' := (step_effect h.inv hop.1 hstep).runInv h.inv
  obtain ⟨hc', hidx⟩ := index_step hN h.inv h.clean hop.1 hop.2 hstep
  refine ⟨hr', hc', ?_, ?_⟩
  · intro k c hk
    cases hidx with
    | keeps hx =>
      have hk' := hx.holds.mp hk
      rw [hx.objname hk']
      exact h.named hk'
    | adds hx =>
      rcases hx.holds.mp hk with hk' | ⟨rfl, rfl⟩
      · rw [(hx.other hk').1]
        exact h.named hk'
      · rw [hx.objname]
        exact ⟨hop.1.1, rfl⟩
    | removes hx =>
      obtain ⟨hk', hne⟩ := hx.holds.mp hk
      rw [hx.other hne]
      exact h.named hk'
    | reloads hx =>
      rw [hx.objname]
      exact h.named (hx.holds.mp hk)
  · intro m
    cases hidx with
    | keeps hx =>
      rw [hx.names, h.listed]
      constructor
      · rintro ⟨k, c, hk, hm⟩
        exact ⟨k, c, hx.holds.mpr hk, (hx.objname hk).trans hm⟩
      · rintro ⟨k, c, hk, hm⟩
        have hk' := hx.holds.mp hk
        exact ⟨k, c, hk', (hx.objname hk').symm.trans hm⟩
    | @adds n bytes addr c₀ _ hx =>
      rw [hx.names, Finset.mem_insert, h.listed]
      constructor
      · rintro (rfl | ⟨k, c, hk, hm⟩)
        · exact ⟨_, c₀, hx.holds.mpr (.inr ⟨rfl, rfl⟩), hx.objname⟩
        · exact ⟨k, c, hx.holds.mpr (.inl hk), by rw [(hx.other hk).1]; exact hm⟩
      · rintro ⟨k, c, hk, hm⟩
        rcases hx.holds.mp hk with hk' | ⟨rfl, -⟩
        · exact .inr ⟨k, c, hk', by rw [← (hx.other hk').1]; exact hm⟩
        · exact .inl (hm.symm.trans hx.objname)
    | @removes n c₀ _ hx =>
      have hn : n ∈ N := hop.1
      rw [hx.names, Finset.mem_erase, h.listed]
      constructor
      · rintro ⟨hmn, k, c, hk, hm⟩
        -- the record of the deleted chunk has the name of the request
        have hne : c ≠ c₀ := by
          rintro rfl
          obtain ⟨hmem, hid⟩ := h.named hx.found
          exact hmn (hm.symm.trans (hN.inj hmem hn hid))
        exact ⟨k, c, hx.holds.mpr ⟨hk, hne⟩, by rw [hx.other hne]; exact hm⟩
      · rintro ⟨k, c, hk, hm⟩
        obtain ⟨hk', hne⟩ := hx.holds.mp hk
        rw [hx.other hne] at hm
        refine ⟨?_, k, c, hk', hm⟩
        rintro rfl
        have hid := (h.named hk').2
        rw [hm] at hid
        rw [← hid] at hk'
        exact hne (h.clean.separate.id hk' hx.found)
    | reloads hx =>
      rw [hx.names]
      constructor
      · rintro ⟨k, c, hk, hm⟩
        exact ⟨k, c, hx.holds.mpr hk, (hx.objname c).trans hm⟩
      · rintro ⟨k, c, hk, hm⟩
        exact ⟨k, c, hx.holds.mp hk, (hx.objname c).symm.trans hm⟩

/-- One operation keeps the addresses. -/
theorem Addressed.step (hN : GoodNames N) (h : NamesInv p N st) (ha : Addressed p st)
    (hop : Allowed p N st op ∧ KeepsNames p st op) (hkeep : KeepsAddresses p N st op)
    (hstep : step p st op = some (r, st')) : Addressed p st' := by
  obtain ⟨-, hidx⟩ := index_step hN h.inv h.clean hop.1 hop.2 hstep
  intro a c
  cases hidx with
  | keeps hx =>
    rw [hx.chunkmap, ha]
    constructor
    · rintro ⟨k, hk, hptr⟩
      exact ⟨k, hx.holds.mpr hk, (hx.nvPtr hk).trans hptr⟩
    · rintro ⟨k, hk, hptr⟩
      have hk' := hx.holds.mp hk
      exact ⟨k, hk', (hx.nvPtr hk').symm.trans hptr⟩
  | @adds n bytes addr c₀ _ hx =>
    rw [hx.chunkmap]
    by_cases haddr : a = addr
    · subst haddr
      rw [update_self]
      constructor
      · rintro ⟨⟩
        exact ⟨_, hx.holds.mpr (.inr ⟨rfl, rfl⟩), hx.nvPtr⟩
      · rintro ⟨k, hk, hptr⟩
        rcases hx.holds.mp hk with hk' | ⟨rfl, -⟩
        · rw [(hx.other hk').1] at hptr
          exact absurd hptr (hx.other hk').2
        · rfl
    · rw [update_of_ne haddr, ha]
      constructor
      · rintro ⟨k, hk, hptr⟩
        exact ⟨k, hx.holds.mpr (.inl hk), by rw [(hx.other hk).1]; exact hptr⟩
      · rintro ⟨k, hk, hptr⟩
        rcases hx.holds.mp hk with hk' | ⟨rfl, -⟩
        · exact ⟨k, hk', by rw [← (hx.other hk').1]; exact hptr⟩
        · exact absurd (hptr.symm.trans hx.nvPtr) haddr
  | removes hx => exact absurd hx.found (not_holds_of_observe h.inv.inv h.clean hkeep _)
  | reloads hx =>
    rw [hx.chunkmap]
    constructor
    · intro hnone
      cases hnone
    · rintro ⟨k, hk, -⟩
      -- nothing is live when the program is restarted
      have hk' := hx.holds.mp hk
      obtain ⟨hmem, rfl⟩ := h.named hk'
      exact absurd hk' (not_holds_of_observe h.inv.inv h.clean (hkeep _ hmem) c)

/-- The first restart, on empty files. -/
theorem namesInv_first {place : DataFile → ℕ} (hplace : PlaceOk (Store.reboot {}) place p)
    (hexec : restart {} place p = some st) (hl : Loads (Store.started {}) st place p)
    (hinv : RunInv st p) : NamesInv p N st ∧ Addressed p st := by
  obtain ⟨hnames, hmap⟩ := restart_listed shapeOk_empty hplace hexec
  have hempty : ∀ {k c}, ¬ Holds st.disk p k c := fun hk =>
    not_inScan_empty (hl.sameObjects.holds.mp hk).scan
  refine ⟨⟨hinv, hl.clean (representsEmpty p N).2, fun hk => absurd hk hempty, ?_⟩, ?_⟩
  · intro n
    rw [hnames]
    constructor
    · rintro ⟨c, hs, -⟩
      exact absurd hs not_inScan_empty
    · rintro ⟨k, c, hk, -⟩
      exact absurd hk hempty
  · intro a c
    rw [hmap]
    constructor
    · intro hnone
      cases hnone
    · rintro ⟨k, hk, -⟩
      exact absurd hk hempty

end Along

/-- In runs in which no live name is allocated again or renamed, the listed names are
the ones that can be read. -/
theorem namesAgree_of_run {p : ℕ} (hp : p ≠ 0) {N : Set ObjName} (hN : GoodNames N)
    (place : DataFile → ℕ) (ops : List Op)
    (hrun : Along (step p) (fun st op => Allowed p N st op ∧ KeepsNames p st op)
      (.restart place :: ops) {}) {rs : List Ret} {st : Store}
    (hst : runSteps (step p) (.restart place :: ops) {} = some (rs, st)) : NamesAgree p N st := by
  have hplace := hrun.1.1
  obtain ⟨st₀, rs', hexec, hl, hr, hrest, hrun'⟩ := run_first hp hrun hplace hst
  have hinv : NamesInv p N st₀ := (namesInv_first hplace hexec hl hr).1
  have hstep' : ∀ {s op r s'}, NamesInv p N s → Allowed p N s op ∧ KeepsNames p s op →
      step p s op = some (r, s') → NamesInv p N s' := fun h hop hs => h.step hN hop hs
  exact (runSteps_inv_of_some hstep' hinv hrest hrun').namesAgree hN

/-- **The indexes agree.**  In every state of a run in which no live name is allocated
again, renamed or deleted, and which is restarted only when nothing is live, the id trees,
`chunkmap` and the listed names describe the same objects. -/
theorem indexesAgree_of_run {p : ℕ} (hp : p ≠ 0) {N : Set ObjName} (hN : GoodNames N)
    (place : DataFile → ℕ) (ops : List Op)
    (hrun : Along (step p)
      (fun st op => (Allowed p N st op ∧ KeepsNames p st op) ∧ KeepsAddresses p N st op)
      (.restart place :: ops) {}) {rs : List Ret} {st : Store}
    (hst : runSteps (step p) (.restart place :: ops) {} = some (rs, st)) : IndexesAgree p N st := by
  have hplace := hrun.1.1.1
  obtain ⟨st₀, rs', hexec, hl, hr, hrest, hrun'⟩ := run_first hp hrun hplace hst
  have hinv : NamesInv p N st₀ ∧ Addressed p st₀ := namesInv_first hplace hexec hl hr
  have hstep' : ∀ {s op r s'}, NamesInv p N s ∧ Addressed p s →
      (Allowed p N s op ∧ KeepsNames p s op) ∧ KeepsAddresses p N s op →
      step p s op = some (r, s') → NamesInv p N s' ∧ Addressed p s' :=
    fun h hop hs => ⟨h.1.step hN hop.1 hs, h.2.step hN h.1 hop.1 hop.2 hs⟩
  obtain ⟨hnames, haddr⟩ := runSteps_inv_of_some hstep' hinv hrest hrun'
  exact ⟨hnames.namesAgree hN, hnames.addressesAgree haddr⟩

/-- The two objects of `twoObjectsRun` are in all indexes. -/
theorem indexesAgree_twoObjectsRun : ∃ rs st, runSteps (step 1) twoObjectsRun {} = some (rs, st) ∧
    getObjectList st = {nameA, nameB} ∧ IndexesAgree 1 {nameA, nameB} st := by
  have hlist : (runSteps (step 1) twoObjectsRun {}).map (fun x => getObjectList x.2) =
      some {nameA, nameB} := by decide +kernel
  obtain ⟨⟨rs, st⟩, hst, hnames⟩ := Option.map_eq_some_iff.mp hlist
  exact ⟨rs, st, hst, hnames,
    indexesAgree_of_run (by decide) goodNames_nameAB _ _ (by decide +kernel) hst⟩

/-- One object, which is deleted. -/
def deletedRun : List Op :=
  [.restart fun _ => 0, .mmap 4096 4096, .alloc nameA 16 4096, .delete nameA]

/-- The deleted chunk is still in `chunkmap`. -/
theorem not_indexesAgree_deletedRun : Along (step 1) (Allowed 1 {nameA}) deletedRun {} ∧
    ∃ rs st, runSteps (step 1) deletedRun {} = some (rs, st) ∧ ¬ IndexesAgree 1 {nameA} st := by
  refine ⟨by decide +kernel, ?_⟩
  have hmap : (runSteps (step 1) deletedRun {}).map (fun x =>
      (x.2.ram.chunkmap 4096, (x.2.disk.chunk ⟨metaOf 1 1, 0⟩).valid)) =
      some (some ⟨metaOf 1 1, 0⟩, .INVALID) := by decide +kernel
  obtain ⟨⟨rs, st⟩, hst, heq⟩ := Option.map_eq_some_iff.mp hmap
  obtain ⟨hchunk, hinvalid⟩ := Prod.mk.inj heq
  refine ⟨rs, st, hst, ?_⟩
  intro hagree
  obtain ⟨k, q, -, hvalid⟩ := hagree.live 4096 _ hchunk
  rw [hinvalid] at hvalid
  cases hvalid
