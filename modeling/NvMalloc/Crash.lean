/-
# Crashes inside an allocation

Persistent writes become durable in program order, so a crash inside `nv_record_chunk`
leaves the files as they are after some number of its writes.  A restart then goes by
the counters: `pesist_mmaps` says how many region records are scanned, `numchunks` how
many chunk records of a region.

Everything an allocation writes before it counts the new chunk is out of the sight of a
restart (`Hidden`), and the append position of the region, which is advanced first, is
not used again, because a new run gets new regions.  The append position of the process
header is: when the crash falls between its advance and the count of the new region,
later regions go to a slot that is never scanned.
-/
import NvMalloc.Rename

open WriteM

/-- The part of a region record that a restart goes by. -/
def Mmapobj.scanned (m : Mmapobj) : RegionShape := { m.shape with metaOffset := 0 }

/-- The files differ at most in what a restart does not look at while chunk `c` of
region `q` is not counted: the append position and the tree of `q`, the record at `c`
and the block of `r`. -/
structure Hidden (d d' : Disk) (q : MmapPtr) (c : ChunkPtr) (r : Chunkobj) : Prop where
  proc : d'.proc = d.proc
  scanned : ∀ q', (d'.mmapobj q').scanned = (d.mmapobj q').scanned
  region : ∀ {q'}, q' ≠ q → d'.mmapobj q' = d.mmapobj q'
  chunk : ∀ {c'}, c' ≠ c → d'.chunk c' = d.chunk c'
  size : ∀ f, (d'.data f).map DataContent.size = (d.data f).map DataContent.size
  bytes : ∀ {f o}, ¬ (f = dataOf c.file ∧ r.offset ≤ o ∧ o < r.offset + r.length) →
    d'.bytesOf f o = d.bytesOf f o

namespace Hidden

variable {d d' : Disk} {p : ℕ} {q : MmapPtr} {c : ChunkPtr} {r : Chunkobj}

theorem refl (d : Disk) (q : MmapPtr) (c : ChunkPtr) (r : Chunkobj) : Hidden d d q c r :=
  ⟨rfl, fun _ => rfl, fun _ => rfl, fun _ => rfl, fun _ => rfl, fun _ => rfl⟩

variable (h : Hidden d d' q c r)
include h

theorem apply_mmapobj {f : Mmapobj → Mmapobj} (hf : ∀ m, (f m).scanned = m.scanned) :
    Hidden d (d'.apply (.mmapobj q f)) q c r := by
  refine ⟨h.proc, ?_, ?_, h.chunk, h.size, h.bytes⟩
  · intro q'
    by_cases hq : q' = q
    · subst hq
      simp [Disk.apply, hf, h.scanned]
    · simp [Disk.apply, hq, h.scanned]
  · intro q' hq
    simp [Disk.apply, hq, h.region hq]

theorem apply_chunk (f : Chunkobj → Chunkobj) : Hidden d (d'.apply (.chunk c f)) q c r := by
  refine ⟨h.proc, h.scanned, h.region, ?_, h.size, h.bytes⟩
  intro c' hc
  simp [Disk.apply, hc, h.chunk hc]

theorem apply_byte {o : ℕ} {b : UInt8} (ho : r.offset ≤ o ∧ o < r.offset + r.length) :
    Hidden d (d'.apply (.byte (dataOf c.file) o b)) q c r := by
  refine ⟨h.proc, h.scanned, h.region, h.chunk, ?_, ?_⟩
  · intro f
    rw [← h.size f]
    exact congrFun (congrArg Shape.fileSize (shape_apply_byte d' _ o b)) f
  · intro f o' hout
    rw [← h.bytes hout]
    by_cases hf : f = dataOf c.file
    · subst hf
      have hne : o' ≠ o := by
        rintro rfl
        exact hout ⟨rfl, ho⟩
      cases hd : d'.data (dataOf c.file) with
      | none => simp [Disk.bytesOf, Disk.apply, hd]
      | some x => simp [Disk.bytesOf, Disk.apply, hd, DataContent.setByte, hne]
    · simp [Disk.bytesOf, Disk.apply, hf]

/-! ### What a restart sees -/

theorem isRegion {p' : ℕ} {q' : MmapPtr} : IsRegion d'.shape p' q' ↔ IsRegion d.shape p' q' := by
  have hheader : d'.shape.header = d.shape.header := by
    funext p'
    simp only [Disk.shape, h.proc]
  unfold IsRegion
  rw [hheader]

theorem isChunk {q' : MmapPtr} {c' : ChunkPtr} :
    IsChunk d'.shape q' c' ↔ IsChunk d.shape q' c' := by
  have hvma : (d'.mmapobj q').vmaId = (d.mmapobj q').vmaId :=
    (congrArg RegionShape.vmaId (h.scanned q') :)
  have hnum : (d'.mmapobj q').numchunks = (d.mmapobj q').numchunks :=
    (congrArg RegionShape.numchunks (h.scanned q') :)
  unfold IsChunk
  simp only [shape_region_vmaId, shape_region_numchunks, hvma, hnum]

theorem inScan {p' : ℕ} {c' : ChunkPtr} : InScan d'.shape p' c' ↔ InScan d.shape p' c' := by
  unfold InScan
  simp only [h.isRegion, h.isChunk]

theorem shapeOk (hs : ShapeOk d.shape) (hq : IsRegion d.shape p q)
    (hc : ∀ {p'}, ¬ InScan d.shape p' c) : ShapeOk d'.shape := by
  have hheader : d'.shape.header = d.shape.header := by
    funext p'
    simp only [Disk.shape, h.proc]
  have hsize : d'.shape.fileSize = d.shape.fileSize := funext h.size
  have hvma : ∀ q', (d'.shape.region q').vmaId = (d.shape.region q').vmaId :=
    fun q' => (congrArg RegionShape.vmaId (h.scanned q') :)
  have hproc : ∀ q', (d'.shape.region q').procId = (d.shape.region q').procId :=
    fun q' => (congrArg RegionShape.procId (h.scanned q') :)
  have hlen : ∀ q', (d'.shape.region q').length = (d.shape.region q').length :=
    fun q' => (congrArg RegionShape.length (h.scanned q') :)
  constructor
  · rw [hheader]
    exact hs.pid
  · rw [hheader]
    exact hs.append
  · intro p' q' hq'
    rw [hproc]
    exact hs.procId (h.isRegion.mp hq')
  · intro p' q' hq'
    rw [hvma]
    exact hs.vmaPos (h.isRegion.mp hq')
  · intro p' q' hd hq' hhd
    rw [hheader] at hhd
    rw [hvma]
    exact hs.vmaLe (h.isRegion.mp hq') hhd
  · intro p' q₁ q₂ h₁ h₂ heq
    rw [hvma, hvma] at heq
    exact hs.vmaInj (h.isRegion.mp h₁) (h.isRegion.mp h₂) heq
  · intro p' q' hq'
    rw [hsize, hvma, hlen]
    exact hs.file (h.isRegion.mp hq')
  · intro p' q' c' n hq' hqc hn
    have hne : c' ≠ c := by
      rintro rfl
      exact hc ⟨q', h.isRegion.mp hq', h.isChunk.mp hqc⟩
    rw [hsize, hvma] at hn
    have hext : d'.shape.extent c' = d.shape.extent c' := congrArg Chunkobj.extent (h.chunk hne)
    rw [hext]
    exact hs.extent (h.isRegion.mp hq') (h.isChunk.mp hqc) hn
  · intro p' hd i hhd hi
    rw [hheader] at hhd
    have hne : mmapobjSlot p' i ≠ q := by
      rintro rfl
      exact not_isRegion_slot hhd hi hq
    have hreg : d'.shape.region (mmapobjSlot p' i) = d.shape.region (mmapobjSlot p' i) :=
      congrArg Mmapobj.shape (h.region hne)
    rw [hreg]
    exact hs.blank hhd hi
  · rw [hsize, hheader]
    exact hs.fileOwner

theorem sameObjects (hc : ¬ InScan d.shape p c)
    (hapart : ∀ {k c'}, Holds d p k c' → dataOf c'.file = dataOf c.file →
      (d.chunk c').extent.Disjoint r.extent) : SameObjects d d' p := by
  have hchunk : ∀ {c'}, InScan d.shape p c' → d'.chunk c' = d.chunk c' := by
    intro c' hc'
    apply h.chunk
    rintro rfl
    exact hc hc'
  refine ⟨?_, ?_, ?_⟩
  · intro k c'
    constructor
    · rintro ⟨hs, hv, hid⟩
      rw [h.inScan] at hs
      rw [hchunk hs] at hv hid
      exact ⟨hs, hv, hid⟩
    · intro hk
      exact ⟨h.inScan.mpr hk.scan, by rw [hchunk hk.scan]; exact hk.valid,
        by rw [hchunk hk.scan]; exact hk.id⟩
  · intro k c' hk
    rw [hchunk hk.scan]
  · intro k c' hk
    have hslice : slice (d'.bytesOf (dataOf c'.file)) (d.chunk c').offset (d.chunk c').length =
        slice (d.bytesOf (dataOf c'.file)) (d.chunk c').offset (d.chunk c').length := by
      apply slice_congr
      intro i hi
      apply h.bytes
      rintro ⟨hfile, hlo, hhi⟩
      have hdis := hapart hk hfile
      simp only [Extent.Disjoint, Chunkobj.extent] at hdis
      omega
    rw [Disk.value, Disk.value, hchunk hk.scan, hslice]

end Hidden

/-! ## The writes before the count -/

theorem mem_byteWrites {f : DataFile} {o : ℕ} {bs : List UInt8} {w : Write}
    (hw : w ∈ byteWrites f o bs) : ∃ o' b, w = .byte f o' b ∧ o ≤ o' ∧ o' < o + bs.length := by
  induction bs generalizing o with
  | nil => cases hw
  | cons b bs ih =>
    rw [List.length_cons]
    rcases List.mem_cons.mp hw with rfl | hw
    · exact ⟨o, b, rfl, by omega, by omega⟩
    · obtain ⟨o', b', rfl, hlo, hhi⟩ := ih hw
      exact ⟨o', b', rfl, by omega, by omega⟩

/-- Each write of `add_chunk_to_mmapobj` is hidden. -/
theorem hidden_appendWrites {d : Disk} {q : MmapPtr} {c : ChunkPtr} {r : Chunkobj} {w : Write}
    (hw : w ∈ appendWrites q c r) {d' : Disk} (h : Hidden d d' q c r) :
    Hidden d (d'.apply w) q c r := by
  simp only [appendWrites, createWrites, fieldWrites, addChunkobjWrites, List.mem_append,
    List.mem_cons, List.not_mem_nil, or_false] at hw
  rcases hw with (((rfl | hw) | hw) | rfl) | (rfl | rfl)
  · refine h.apply_mmapobj ?_
    exact fun _ => rfl
  · rcases hw with rfl | rfl | rfl | rfl | rfl | rfl | rfl | rfl <;> exact h.apply_chunk _
  · obtain ⟨o, b, rfl, hlo, hhi⟩ := mem_byteWrites hw
    rw [List.length_replicate] at hhi
    exact h.apply_byte ⟨hlo, hhi⟩
  · exact h.apply_chunk _
  · refine h.apply_mmapobj ?_
    exact fun _ => rfl
  · exact h

/-- The files after any number of these writes. -/
theorem hidden_take (st : Store) (q : MmapPtr) (c : ChunkPtr) (r : Chunkobj) (j : ℕ) :
    Hidden st.disk (applyAll st ((appendWrites q c r).take j)).disk q c r := by
  have hstep : ∀ w ∈ appendWrites q c r, ∀ s : Store, Hidden st.disk s.disk q c r →
      Hidden st.disk (WriteEffect.apply s w).disk q c r := fun _ hw _ h => hidden_appendWrites hw h
  exact applyAll_take_of_forall (P := fun s : Store => Hidden st.disk s.disk q c r) hstep
    (Hidden.refl st.disk q c r) j

/-- A cut among the writes that follow the registration of the region: before the count
the new chunk is hidden, after it the chunk is there. -/
theorem disk_cut (st : Store) (q : MmapPtr) (r : Chunkobj) (addr j : ℕ) :
    Hidden st.disk (applyAll st ((appendWrites q (st.disk.shape.nextChunk q) r ++ [countWrite q] ++
        [chunkmapWrite addr (st.disk.shape.nextChunk q)]).take j)).disk q
      (st.disk.shape.nextChunk q) r ∨
    (applyAll st ((appendWrites q (st.disk.shape.nextChunk q) r ++ [countWrite q] ++
        [chunkmapWrite addr (st.disk.shape.nextChunk q)]).take j)).disk =
      (st.appendChunk q r).disk := by
  rcases Nat.lt_or_ge (appendWrites q (st.disk.shape.nextChunk q) r).length j with hlt | hle
  · right
    have hlen : (appendWrites q (st.disk.shape.nextChunk q) r ++ [countWrite q]).length ≤ j := by
      rw [List.length_append]
      exact hlt
    rw [List.take_append, List.take_of_length_le hlen, applyAll_append, applyAll_appendWrites]
    cases j - (appendWrites q (st.disk.shape.nextChunk q) r ++ [countWrite q]).length with
    | zero => rfl
    | succ i =>
      rw [List.take_of_length_le (by simp)]
      rfl
  · left
    rw [List.append_assoc, List.take_append_of_le_length hle]
    exact hidden_take st q _ r j

/-! ## The cut allocation -/

/-- The store when the program stops after `k` writes of an allocation. -/
def crash (p : ℕ) (st : Store) (n : ObjName) (bytes addr k : ℕ) : Option Store :=
  (nvRecordChunk (allocRqst p n bytes) addr st).map fun r => applyAll st (r.2.take k)

/-- The number of writes of `add_mmapobj_to_proc`, of which the first advances the append
position of the header and the last counts the region. -/
def regionWrites : ℕ := 11

theorem length_addRegionWrites (p v bytes addr run : ℕ) (q : MmapPtr) :
    (addRegionWrites p v bytes addr run q).length = regionWrites := rfl

/-- The cut does not separate the append position of the header from the count. -/
def CutSafe (st : Store) (p : ℕ) (nd : MmapobjNode) (k : ℕ) : Prop :=
  Unregistered st p nd → k = 0 ∨ regionWrites ≤ k

section Cut

variable {p : ℕ} {N : Set ObjName} {st : Store} {A : AbsStore} {n : ObjName} {bytes addr k : ℕ}
  {nd : MmapobjNode}

/-- After a safe cut the files hold the objects there were, and possibly the new one. -/
theorem crash_represents (hN : GoodNames N) (hR : StoreRep p N st A) (hn : n ∈ N)
    (hb : BlockOf st p nd addr bytes) (hback : Backed nd addr bytes) (hroom : MetaRoom st p nd)
    (hun : Unused st p addr bytes) (hdead : ∀ c, ¬ Holds st.disk p (genIdFromStr n) c)
    (hcut : CutSafe st p nd k) :
    ∃ st₁ B, crash p st n bytes addr k = some st₁ ∧ (∀ m, m ≠ n → B m = A m) ∧
      ShapeOk st₁.disk.shape ∧ Separate st₁.disk p ∧ Represents st₁.disk p N B := by
  have hi : StoreInv st (allocRqst p n bytes).pid := hR.inv.inv
  have hok : AllocOk st (allocRqst p n bytes) nd addr :=
    ⟨rfl, hN.pos n hn, hb, hback, hroom, fun _ => hR.inv.solo.globals hb.node⟩
  have hfree := checkIfChunkExists_of_missing hi hok.named (hR.clean.missing hdead)
  obtain ⟨q, ws, hfound, hrun⟩ := nvRecordChunk_run_of_free hi hok hfree
  have hcrash := congrArg (Option.map fun r : Unit × List Write => applyAll st (r.2.take k)) hrun
  rcases Nat.eq_zero_or_pos k with rfl | hk
  · exact ⟨st, A, hcrash, fun _ _ => rfl, hi.shape, hR.clean.separate, hR.objects⟩
  have hlen : ws.length ≤ k := by
    rcases hfound.writes with rfl | ⟨h, -, hunreg, -, rfl⟩
    · simp
    · rw [length_addRegionWrites]
      rcases hcut hunreg with rfl | hle
      · omega
      · exact hle
  have htake : (ws ++ (appendWrites q ((applyAll st ws).disk.shape.nextChunk q)
      (allocChunk (allocRqst p n bytes) nd addr) ++ [countWrite q]) ++
      [chunkmapWrite addr ((applyAll st ws).disk.shape.nextChunk q)]).take k =
      ws ++ (appendWrites q ((applyAll st ws).disk.shape.nextChunk q)
        (allocChunk (allocRqst p n bytes) nd addr) ++ [countWrite q] ++
        [chunkmapWrite addr ((applyAll st ws).disk.shape.nextChunk q)]).take (k - ws.length) := by
    rw [List.append_assoc, List.take_append, List.take_of_length_le hlen]
  rw [Option.map_some, htake, applyAll_append] at hcrash
  have hs₁ := hfound.ready.inv.shape
  rcases disk_cut (applyAll st ws) q (allocChunk (allocRqst p n bytes) nd addr) addr
    (k - ws.length) with hhidden | hdisk
  · -- the new chunk is not counted
    have hscan : ∀ {p'}, ¬ InScan (applyAll st ws).disk.shape p'
        ((applyAll st ws).disk.shape.nextChunk q) := by
      rintro p' ⟨q', hq', hqc⟩
      exact nextChunk_not_isChunk hs₁ hfound.ready.region hq' hqc
    have hsame := hfound.grown.sameObjects.trans (hhidden.sameObjects hscan fun hk hfile =>
      hfound.disjoint hok hun hk (file_eq_nextChunk hfound.ready.region hk.scan hfile))
    exact ⟨_, A, hcrash, fun _ _ => rfl, hhidden.shapeOk hs₁ hfound.ready.region hscan,
      hsame.separate hR.clean.separate, hR.objects.of_same hsame⟩
  · -- it is counted, and only a write to memory may be missing
    obtain ⟨hup, hclean⟩ := recordChunk_updates hR.clean hok hdead hun hfound
    have hshape : ShapeOk ((applyAll st ws).appendChunk q
        (allocChunk (allocRqst p n bytes) nd addr)).disk.shape :=
      (storeInv_appendChunk hfound.ready.inv (hfound.fits hok)).shape
    rw [← hdisk] at hup hclean hshape
    exact ⟨_, _, hcrash, fun _ hne => Function.update_of_ne hne .., hshape, hclean.separate,
      hR.objects.update hN hn hup⟩

end Cut

/-! ## Runs over a crash -/

/-- The operations of a run in which live names are re-allocated only into regions with
smaller ids, in terms of the store alone. -/
def Careful (p : ℕ) (N : Set ObjName) (st : Store) : Op → Prop
  | .mmap size addr => FreshRange st addr size
  | .alloc n bytes addr => n ∈ N ∧ ∃ nd, BlockOf st p nd addr bytes ∧ Backed nd addr bytes ∧
    MetaRoom st p nd ∧ Unused st p addr bytes ∧ BelowOld st.disk p (genIdFromStr n) nd
  | .commit n _ => n ∈ N ∧ ∃ c, Holds st.disk p (genIdFromStr n) c
  | .delete n => n ∈ N
  | .read n _ => n ∈ N
  | .write n off bs => n ∈ N ∧ ∃ c, Holds st.disk p (genIdFromStr n) c ∧
    off + bs.length ≤ (st.disk.chunk c).length
  | .rename _ _ => False
  | .restart place => PlaceOk st.reboot place p

instance (p : ℕ) (N : Set ObjName) [DecidablePred (· ∈ N)] (st : Store) (op : Op) :
    Decidable (Careful p N st op) := by
  refine op.casesOn ?_ ?_ ?_ ?_ ?_ ?_ ?_ ?_ <;> intros <;> dsimp only [Careful] <;> infer_instance

/-- The allocation during which the program stops is one of a name that is not live. -/
structure InFlight (p : ℕ) (N : Set ObjName) (st : Store) (n : ObjName) (bytes addr : ℕ)
    (nd : MmapobjNode) : Prop where
  name : n ∈ N
  dead : ∀ c, ¬ Holds st.disk p (genIdFromStr n) c
  block : BlockOf st p nd addr bytes
  backed : Backed nd addr bytes
  room : MetaRoom st p nd
  unused : Unused st p addr bytes

/-- The program does `ops`, stops after `k` writes of an allocation of `n`, and goes on
with `ops'`.  Every object of the time before the crash is still there, and what the
program does afterwards, and what it reads in the end, is what the map of objects says. -/
def SurvivesCrash (p : ℕ) (N : Set ObjName) (ops : List Op) (n : ObjName) (bytes addr k : ℕ)
    (ops' : List Op) : Prop :=
  ∃ rs st st₁ st₂ B, runSteps (step p) ops {} = some (rs, st) ∧
    crash p st n bytes addr k = some st₁ ∧
    (∀ m ∈ N, B m = (runSpec absStep ops fun _ => none).2 m ∨
      m = n ∧ (runSpec absStep ops fun _ => none).2 n = none) ∧
    runSteps (step p) ops' st₁ = some ((runSpec absStep ops' B).1, st₂) ∧
    ∀ m ∈ N, ∀ place,
      step p st₂ (.read m place) = some (.object ((runSpec absStep ops' B).2 m), st₂)

section Runs

variable {p : ℕ} {N : Set ObjName} {st : Store} {A : AbsStore}

theorem Careful.placed (hR : StoreRep p N st A) {op : Op} (h : Careful p N st op) :
    Placed p N st A op := by
  cases op with
  | commit n size =>
    obtain ⟨hn, c, hk⟩ := h
    refine ⟨hn, ?_⟩
    rw [(hR.objects n hn _).mpr ⟨c, hk, rfl⟩]
    exact Option.some_ne_none _
  | write n off bs =>
    obtain ⟨hn, c, hk, hoff⟩ := h
    exact ⟨hn, _, (hR.objects n hn _).mpr ⟨c, hk, rfl⟩, hoff⟩
  | mmap | alloc | delete | read | rename | restart => exact h

/-- A careful run on a store that represents `A` does what it does on `A`. -/
theorem StoreRep.run (hN : GoodNames N) (hR : StoreRep p N st A) {ops : List Op}
    (hops : Along (step p) (Careful p N) ops st) :
    ∃ st', runSteps (step p) ops st = some ((runSpec absStep ops A).1, st') ∧
      StoreRep p N st' (runSpec absStep ops A).2 := by
  have hstep : ∀ {s B op}, StoreRep p N s B → Careful p N s op →
      ∃ s', step p s op = some ((absStep B op).1, s') ∧ StoreRep p N s' (absStep B op).2 :=
    fun hR hop => step_sim_placed hN hR (hop.placed hR)
  exact runSteps_sim hstep hR hops.toSim

/-- The same from a store that is restarted first. -/
theorem run_restart (hN : GoodNames N) (hs : ShapeOk st.disk.shape) (hp : p ≠ 0)
    (hsep : Separate st.disk p) (hr : Represents st.disk p N A) {place : DataFile → ℕ}
    {ops : List Op} (hops : Along (step p) (Careful p N) (.restart place :: ops) st) :
    ∃ st', runSteps (step p) (.restart place :: ops) st =
        some ((runSpec absStep (.restart place :: ops) A).1, st') ∧
      StoreRep p N st' (runSpec absStep (.restart place :: ops) A).2 := by
  obtain ⟨hplace, hrest⟩ := hops
  obtain ⟨st₀, hstep, -, hR⟩ := step_restart hs hp hsep hr hplace
  obtain ⟨st', hrun, hR'⟩ := hR.run hN (hrest _ st₀ hstep)
  refine ⟨st', ?_, hR'⟩
  rw [runSteps_cons hstep, hrun]
  rfl

end Runs

/-- **Crashes lose no object**, as long as the cut does not fall between the advance of
the header's append position and the count of a new region. -/
theorem survivesCrash_of_cutSafe {p : ℕ} (hp : p ≠ 0) {N : Set ObjName} (hN : GoodNames N)
    (place place' : DataFile → ℕ) (ops ops' : List Op) (n : ObjName) (bytes addr k : ℕ)
    (hops : Along (step p) (Careful p N) (.restart place :: ops) {})
    (hcut : ∀ {rs st}, runSteps (step p) (.restart place :: ops) {} = some (rs, st) →
      ∃ nd, InFlight p N st n bytes addr nd ∧ CutSafe st p nd k)
    (hops' : ∀ {rs st st₁}, runSteps (step p) (.restart place :: ops) {} = some (rs, st) →
      crash p st n bytes addr k = some st₁ →
      Along (step p) (Careful p N) (.restart place' :: ops') st₁) :
    SurvivesCrash p N (.restart place :: ops) n bytes addr k (.restart place' :: ops') := by
  obtain ⟨hr, hsep⟩ := representsEmpty p N
  obtain ⟨st, hrun, hR⟩ := run_restart hN shapeOk_empty hp hsep hr hops
  obtain ⟨nd, hfl, hsafe⟩ := hcut hrun
  obtain ⟨st₁, B, hcrash, hB, hs₁, hsep₁, hr₁⟩ := crash_represents hN hR hfl.name hfl.block
    hfl.backed hfl.room hfl.unused hfl.dead hsafe
  obtain ⟨st₂, hrun', hR'⟩ := run_restart hN hs₁ hp hsep₁ hr₁ (hops' hrun hcrash)
  refine ⟨_, st, st₁, st₂, B, hrun, hcrash, ?_, hrun', fun m hm => hR'.step_read hm⟩
  intro m hm
  by_cases hmn : m = n
  · subst hmn
    exact .inr ⟨rfl, (hR.objects.eq_none hm).mpr hfl.dead⟩
  · exact .inl (hB m hmn)

/-- A region, before the crash. -/
def beforeCrash : List Op := [.restart fun _ => 0, .mmap 4096 4096]

/-- A region and an allocation of `nameB`, after the crash. -/
def afterCrash : List Op :=
  [.restart fun _ => 12288, .mmap 4096 4096, .alloc nameB 16 4096,
    .restart fun f => 12288 * f.vma]

/-- The store after `k` writes of the allocation of `nameA`. -/
def crashed (k : ℕ) : Store := (crash 1 (reached 1 beforeCrash) nameA 16 4096 k).getD {}

theorem crashed_eq {k : ℕ} {st : Store}
    (h : crash 1 (reached 1 beforeCrash) nameA 16 4096 k = some st) :
    crashed k = st := by
  rw [crashed, h]
  rfl

theorem careful_beforeCrash : Along (step 1) (Careful 1 {nameA, nameB}) beforeCrash {} := by
  decide +kernel

theorem inFlight_beforeCrash :
    InFlight 1 {nameA, nameB} (reached 1 beforeCrash) nameA 16 4096 ⟨4096, 8192, 1, 1⟩ := by
  refine ⟨.inl rfl, ?_, by decide +kernel, by decide +kernel, by decide +kernel,
    by decide +kernel⟩
  intro c hk
  have hnone : (reached 1 beforeCrash).disk.regions 1 = [] := by decide +kernel
  have hmem := holds_iff_mem.mp hk
  simp [hnone] at hmem

/-- After the last write the allocation is complete, and both objects are there. -/
theorem survivesCrash_lateCut :
    SurvivesCrash 1 {nameA, nameB} beforeCrash nameA 16 4096 40 afterCrash := by
  refine survivesCrash_of_cutSafe (by decide) goodNames_nameAB _ _ _ _ _ _ _ _ careful_beforeCrash
    ?_ ?_
  · intro rs st hst
    obtain rfl := reached_eq hst
    exact ⟨_, inFlight_beforeCrash, fun _ => .inr (by decide)⟩
  · intro rs st st₁ hst hcrash
    obtain rfl := reached_eq hst
    obtain rfl := crashed_eq hcrash
    decide +kernel

/-- The crash falls between the advance of the append position and the count of the
first region.  The region of `nameB` then goes to the second slot, is counted as the
first, and is not found after the next restart. -/
theorem not_survivesCrash_earlyCut :
    Along (step 1) (Careful 1 {nameA, nameB}) beforeCrash {} ∧
      InFlight 1 {nameA, nameB} (reached 1 beforeCrash) nameA 16 4096 ⟨4096, 8192, 1, 1⟩ ∧
      Along (step 1) (Careful 1 {nameA, nameB}) afterCrash (crashed 5) ∧
      ¬ SurvivesCrash 1 {nameA, nameB} beforeCrash nameA 16 4096 5 afterCrash := by
  refine ⟨careful_beforeCrash, inFlight_beforeCrash, by decide +kernel, ?_⟩
  rintro ⟨rs, st, st₁, st₂, B, hrun, hcrash, -, hrun', hread⟩
  obtain rfl := reached_eq hrun
  obtain rfl := crashed_eq hcrash
  have hlost : ((runSteps (step 1) afterCrash (crashed 5)).bind fun x =>
      (step 1 x.2 (.read nameB fun _ => 0)).map Prod.fst) = some (.object none) := by
    decide +kernel
  rw [hrun', Option.bind_some, hread nameB (.inr rfl), Option.map_some, Option.some_inj,
    Ret.object.injEq] at hlost
  simp [afterCrash, runSpec, absStep] at hlost
