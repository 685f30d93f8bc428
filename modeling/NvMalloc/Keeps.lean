/-
# Re-allocations of live names in runs

`KeepsObject` is what re-allocating a live name is for: the name gets the new block
with its old contents, as far as they fit, and nothing else changes, now and after
every restart.

`nv_record_chunk` enters the new chunk under the id of the name before it looks the
old one up by that id.  The lookup searches the regions from the greatest id down, so
the object is kept exactly when the new block lies in a region with a smaller id than
the old chunk's, and can be cleared.
-/
import NvMalloc.Resize

open WriteM Function

/-- Name `n` has the object of `A` resized to `bytes` bytes, in one chunk, with its
block at `ptr`; the other names have the objects of `A`. -/
structure Keeps (p : ℕ) (N : Set ObjName) (A : AbsStore) (n : ObjName) (bytes ptr : ℕ)
    (st : Store) : Prop where
  pointer : ∀ place, (nvMapRead place (request p n)).exec st =
    some (some ⟨ptr, bytes, (Obj.resize (A n) bytes).commitsz⟩, st)
  object : ∀ place, step p st (.read n place) = some (.object (some (Obj.resize (A n) bytes)), st)
  unique : ∃! c, Holds st.disk p (genIdFromStr n) c
  others : ∀ n' ∈ N, n' ≠ n → ∀ place, step p st (.read n' place) = some (.object (A n'), st)

/-- An allocation of `bytes` bytes at `addr`, in the region of `nd`, under the live
name `n` keeps its object, until the next restart and after it. -/
def KeepsObject (p : ℕ) (N : Set ObjName) (st : Store) (A : AbsStore) (n : ObjName)
    (bytes addr : ℕ) (nd : MmapobjNode) : Prop :=
  ∃ st', step p st (.alloc n bytes addr) = some (.done, st') ∧ Keeps p N A n bytes addr st' ∧
    ∀ place, PlaceOk st'.reboot place p → ∃ st'', step p st' (.restart place) = some (.done, st'') ∧
      Keeps p N A n bytes (place ⟨p, nd.mapId⟩ + (addr - nd.startAddr)) st''

/-- The operations of a run in which live names may be allocated again, into a region
with a smaller id. -/
def Placed (p : ℕ) (N : Set ObjName) (st : Store) (A : AbsStore) : Op → Prop
  | .alloc n bytes addr => n ∈ N ∧ ∃ nd, BlockOf st p nd addr bytes ∧ Backed nd addr bytes ∧
    MetaRoom st p nd ∧ Unused st p addr bytes ∧ BelowOld st.disk p (genIdFromStr n) nd
  | op => Admissible p N st A op

instance (p : ℕ) (N : Set ObjName) [DecidablePred (· ∈ N)] (st : Store) (A : AbsStore) (op : Op) :
    Decidable (Placed p N st A op) := by
  refine op.casesOn ?_ ?_ ?_ ?_ ?_ ?_ ?_ ?_ <;> intros <;> dsimp only [Placed] <;> infer_instance

theorem Obj.length_resize (old : Option Obj) (bytes : ℕ) :
    (Obj.resize old bytes).length = bytes := by
  cases old <;> rfl

section Step

variable {p : ℕ} {N : Set ObjName} {st : Store} {A : AbsStore} {n : ObjName} {bytes addr : ℕ}
  {nd : MmapobjNode} {old : ChunkPtr}

/-- A store that represents the resized object in chunk `c` keeps it. -/
theorem Keeps.of_rep {ptr : ℕ} {c : ChunkPtr} (hn : n ∈ N)
    (hR : StoreRep p N st (update A n (some (Obj.resize (A n) bytes))))
    (hk : Holds st.disk p (genIdFromStr n) c) (hptr : (st.disk.chunk c).nvPtr = ptr) :
    Keeps p N A n bytes ptr st := by
  have hval : st.disk.value c = Obj.resize (A n) bytes := by
    have := (hR.objects n hn _).mpr ⟨c, hk, rfl⟩
    rw [update_self] at this
    exact (Option.some.inj this).symm
  have hlen : (st.disk.chunk c).length = bytes :=
    (congrArg Obj.length hval).trans (Obj.length_resize _ _)
  have hcom : (st.disk.chunk c).commitsz = (Obj.resize (A n) bytes).commitsz :=
    congrArg Obj.commitsz hval
  refine ⟨?_, ?_, ⟨c, hk, fun c' hk' => hR.clean.separate.id hk' hk⟩, ?_⟩
  · intro place
    obtain ⟨q, hf⟩ := hR.clean.finds hk
    have hi : StoreInv st (request p n).pid := hR.inv.inv
    rw [nvMapRead_of_finds hi hf, Chunkobj.read, if_neg (by rw [hk.valid]; decide), hptr, hlen,
      hcom]
  · intro place
    rw [hR.step_read hn, update_self]
  · intro n' hn' hne place
    rw [hR.step_read hn', update_of_ne hne]

/-- A chunk lies in the data file of its region. -/
theorem Finds.vma_eq (hc : Clean st.disk p) {q : MmapPtr} {k : ℕ} {c : ChunkPtr}
    (hf : Finds st.disk p k q c) : (dataOf c.file).vma = (st.disk.mmapobj q).vmaId := by
  obtain ⟨hqc, -, -⟩ := (hc.indexes hf.region).mp hf.entry
  rw [hqc.file_eq, dataOf_metaOf]
  rfl

section

variable (hN : GoodNames N) (hR : StoreRep p N st A) (hn : n ∈ N) (hb : BlockOf st p nd addr bytes)
include hN hR hn hb

/-- A re-allocation into a region with a smaller id does what it is for. -/
theorem step_resize (hback : Backed nd addr bytes) (hroom : MetaRoom st p nd)
    (hun : Unused st p addr bytes) (hk : Holds st.disk p (genIdFromStr n) old)
    (hlow : nd.mapId < (dataOf old.file).vma) :
    ∃ st' c q, step p st (.alloc n bytes addr) = some (.done, st') ∧
      StoreRep p N st' (update A n (some (Obj.resize (A n) bytes))) ∧
      Holds st'.disk p (genIdFromStr n) c ∧ IsRegion st'.disk.shape p q ∧
      IsChunk st'.disk.shape q c ∧ (st'.disk.mmapobj q).vmaId = nd.mapId ∧
      (st'.disk.chunk c).nvPtr = addr ∧ (st'.disk.chunk c).offset = addr - nd.startAddr := by
  have hi := hR.inv.inv
  have hok : AllocOk st (allocRqst p n bytes) nd addr :=
    ⟨rfl, hN.pos n hn, hb, hback, hroom, fun _ => hR.inv.solo.globals hb.node⟩
  obtain ⟨st₂, st', q₀, q, qv, c, v, ws, hstep, hre, -⟩ := exists_resize hi hR.clean hok hk hun
  rw [hre.finds.vma_eq hR.clean] at hlow
  obtain ⟨hup, hc⟩ := hre.updates_of_lower hlow
  have hcv := hre.moved.ne_victim_of_lower hlow
  have hA : A n = some (st.disk.value old) := (hR.objects n hn _).mpr ⟨old, hk, rfl⟩
  rw [← hA] at hup
  have hrec := hre.moved.record_new hcv
  have hchunk : IsChunk st₂.disk.shape q c := by
    rw [hre.moved.st₂_eq, hre.moved.c_eq]
    exact nextChunk_isChunk
  refine ⟨st', c, q, hstep, hR.update hN hn hre.realloc.ram hre.realloc.storeInv hup hc, ?_, ?_, ?_,
    ?_, ?_, ?_⟩
  · exact hre.moved.holds'.mpr ⟨Or.inr ⟨rfl, rfl⟩, hcv⟩
  · exact hre.moved.isRegion'.mpr hre.found.ready.region
  · rw [hre.realloc.effect.frame.shape_eq]
    exact hchunk
  · obtain ⟨_, _, _, hm⟩ := mmapobj_appendChunk (applyAll st ws) q
      (allocChunk (allocRqst p n bytes) nd addr) q
    rw [hre.realloc.effect.frame.vmaId_eq, hre.moved.st₂_eq, hm]
    exact hre.found.ready.vmaId
  · exact (congrArg Chunkobj.nvPtr hrec :)
  · exact (congrArg Chunkobj.offset hrec :).trans (toUint_offset hok.block hback)

theorem keepsObject_of_lower (hback : Backed nd addr bytes) (hroom : MetaRoom st p nd)
    (hun : Unused st p addr bytes) (hk : Holds st.disk p (genIdFromStr n) old)
    (hlow : nd.mapId < (dataOf old.file).vma) : KeepsObject p N st A n bytes addr nd := by
  obtain ⟨st', c, q, hstep, hR', hk', hq, hqc, hvma, hptr, hoff⟩ :=
    step_resize hN hR hn hb hback hroom hun hk hlow
  refine ⟨st', hstep, Keeps.of_rep hn hR' hk' hptr, ?_⟩
  intro place hplace
  obtain ⟨st'', hstep', hl, hR''⟩ := step_restart hR'.inv.inv.shape hR'.inv.inv.pidPos
    hR'.clean.separate hR'.objects hplace
  have hk'' : Holds st''.disk p (genIdFromStr n) c := hl.sameObjects.holds.mpr hk'
  refine ⟨st'', hstep', Keeps.of_rep hn hR'' hk'' ?_⟩
  have hq₁ : IsRegion (st'.reboot.apply (.ram fun r => { r with gInitialized := true })).disk.shape
    p q := hq
  have hoff' : (st''.disk.chunk c).offset = (st'.disk.chunk c).offset :=
    (congrArg Chunkobj.offset (hl.chunk c) :)
  rw [hl.inv.loaded.nvPtr (hl.isRegion.mpr hq₁) ((hl.isChunk hq₁).mpr hqc) (Or.inl hk''.valid),
    hl.dataAddr hq₁, hoff', hoff, ← hvma]
  rfl

/-- In every other case the object is not kept: without a backed block the call does
not end, and otherwise the new block is not the one that is read. -/
theorem lower_of_keepsObject (hroom : MetaRoom st p nd) (hun : Unused st p addr bytes)
    (hk : Holds st.disk p (genIdFromStr n) old) (h : KeepsObject p N st A n bytes addr nd) :
    Backed nd addr bytes ∧ nd.mapId < (dataOf old.file).vma := by
  have hi := hR.inv.inv
  obtain ⟨st', hstep, hkeeps, -⟩ := h
  have hi₁ : StoreInv st (allocRqst p n bytes).pid := hi
  have hback : Backed nd addr bytes := by
    refine backed_of_alloc hi₁ rfl (hN.pos n hn) hb hroom (fun _ => hR.inv.solo.globals hb.node) ?_
    obtain ⟨_, hexec, -⟩ := Option.map_eq_some_iff.mp hstep
    obtain ⟨r, hrun, -⟩ := Option.map_eq_some_iff.mp hexec
    exact Option.isSome_iff_exists.mpr ⟨r, hrun⟩
  refine ⟨hback, ?_⟩
  have hok : AllocOk st (allocRqst p n bytes) nd addr :=
    ⟨rfl, hN.pos n hn, hb, hback, hroom, fun _ => hR.inv.solo.globals hb.node⟩
  obtain ⟨st₂, st₃, q₀, q, qv, c, v, ws, hstep₃, hre, -⟩ := exists_resize hi hR.clean hok hk hun
  rw [hstep] at hstep₃
  cases hstep₃
  rw [hre.finds.vma_eq hR.clean]
  by_contra hle
  have hi' : StoreInv st' (request p n).pid := hre.realloc.storeInv
  have hread := hkeeps.pointer fun _ => 0
  rcases finds_or_missing hi' (genIdFromStr n) with ⟨q', c', hf⟩ | hmiss
  · -- the old chunk is found, at an address that is not the new one
    obtain rfl := hre.finds_of_not_lower hle hf
    rw [nvMapRead_of_finds hi' hf, Chunkobj.read] at hread
    split at hread
    · cases hread
    · have hptr : (st'.disk.chunk c').nvPtr = addr := by
        have := (Option.some.inj hread)
        have := Option.some.inj (Prod.mk.inj this).1
        exact congrArg ReadResult.nvPtr this
      have hptr' : (st'.disk.chunk c').nvPtr = (st.disk.chunk c').nvPtr := by
        rw [hre.realloc.effect.frame.nvPtr_eq, hre.moved.chunk_eq hk.scan]
      have hlen := hi.shape.length_pos hk.scan
      have hdis := hun hk
      have hpos := hb.pos
      simp only [Disk.shape, Chunkobj.extent] at hlen
      omega
  · rw [nvMapRead_of_missing hi' hmiss] at hread
    cases hread

end

/-- One operation of a run with such re-allocations. -/
theorem step_sim_placed (hN : GoodNames N) {op : Op} (hR : StoreRep p N st A)
    (hop : Placed p N st A op) :
    ∃ st', step p st op = some ((absStep A op).1, st') ∧ StoreRep p N st' (absStep A op).2 := by
  cases op with
  | alloc n bytes addr =>
    obtain ⟨hn, nd, hb, hback, hroom, hun, hlow⟩ := hop
    cases hA : A n with
    | none =>
      refine step_sim hN hR ⟨⟨hn, hA, nd, hb, hroom, hun⟩, ?_⟩
      intro nd' hnd'
      rw [locateMmapobjNode_of_block hR.inv.inv.ram hb] at hnd'
      cases hnd'
      exact hback
    | some o =>
      obtain ⟨old, hk, -⟩ := hR.holds hn hA
      obtain ⟨st', _, _, hstep, hR', -⟩ := step_resize hN hR hn hb hback hroom hun hk (hlow hk)
      exact ⟨st', hstep, hR'⟩
  | mmap size addr => exact step_sim hN hR ⟨hop, trivial⟩
  | commit n size => exact step_sim hN hR ⟨hop, trivial⟩
  | delete n => exact step_sim hN hR ⟨hop, trivial⟩
  | read n place => exact step_sim hN hR ⟨hop, trivial⟩
  | write n off bs => exact step_sim hN hR ⟨hop, trivial⟩
  | rename s d => exact step_sim hN hR ⟨hop, trivial⟩
  | restart place => exact step_sim hN hR ⟨hop, trivial⟩

end Step

/-! ## Whole runs -/

/-- **When a re-allocation keeps the object.**  After every run in which live names
were only re-allocated into regions with smaller ids, a re-allocation of a live name
keeps its object exactly when its block can be cleared and lies in a region with a
smaller id than the region of the old chunk. -/
theorem keepsObject_iff {p : ℕ} (hp : p ≠ 0) {N : Set ObjName} (hN : GoodNames N)
    (place : DataFile → ℕ) (ops : List Op)
    (hrun : AlongSim (step p) absStep (Placed p N) (.restart place :: ops) {} fun _ => none) :
    ∃ rs st, runSteps (step p) (.restart place :: ops) {} = some (rs, st) ∧
      ∀ n ∈ N, ∀ old, Holds st.disk p (genIdFromStr n) old → ∀ bytes addr nd,
        BlockOf st p nd addr bytes → MetaRoom st p nd → Unused st p addr bytes →
        (runSpec absStep (.restart place :: ops) fun _ => none).2 n = some (st.disk.value old) ∧
        (KeepsObject p N st (runSpec absStep (.restart place :: ops) fun _ => none).2 n bytes
            addr nd ↔
          Backed nd addr bytes ∧ nd.mapId < (dataOf old.file).vma) := by
  obtain ⟨hr, hsep⟩ := representsEmpty p N
  obtain ⟨hplace, hrest⟩ := hrun
  obtain ⟨st₀, hstep, -, hR⟩ := step_restart shapeOk_empty hp hsep hr hplace
  obtain ⟨st, hst, hR'⟩ := runSteps_sim (step_sim_placed hN) hR (hrest _ st₀ hstep)
  refine ⟨_, st, by rw [runSteps_cons hstep, hst]; rfl, ?_⟩
  intro n hn old hk bytes addr nd hb hroom hun
  refine ⟨(hR'.objects n hn _).mpr ⟨old, hk, rfl⟩, ?_, ?_⟩
  · exact lower_of_keepsObject hN hR' hn hb hroom hun hk
  · rintro ⟨hback, hlow⟩
    exact keepsObject_of_lower hN hR' hn hb hback hroom hun hk hlow

/-- The state a run ends in. -/
def reached (p : ℕ) (ops : List Op) : Store := ((runSteps (step p) ops {}).map Prod.snd).getD {}

theorem reached_eq {p : ℕ} {ops : List Op} {rs : List Ret} {st : Store}
    (h : runSteps (step p) ops {} = some (rs, st)) : reached p ops = st := by
  rw [reached, h]
  rfl

/-- Two regions, and an object in the second one. -/
def twoRegionsRun : List Op :=
  [.restart fun _ => 0, .mmap 4096 4096, .mmap 4096 12288, .alloc nameA 16 12288,
    .write nameA 2 [7]]

/-- The object is kept when it moves to the first region. -/
theorem keepsObject_twoRegionsRun : KeepsObject 1 {nameA} (reached 1 twoRegionsRun)
    (runSpec absStep twoRegionsRun fun _ => none).2 nameA 32 4096 ⟨4096, 8192, 1, 1⟩ := by
  have hrun : AlongSim (step 1) absStep (Placed 1 {nameA}) twoRegionsRun {} fun _ => none := by
    decide +kernel
  obtain ⟨rs, st, hst, hiff⟩ := keepsObject_iff (by decide) goodNames_nameA _ _ hrun
  obtain rfl := reached_eq hst
  refine (hiff nameA rfl ⟨metaOf 1 2, 0⟩ ?_ 32 4096 ⟨4096, 8192, 1, 1⟩ ?_ ?_ ?_).2.mpr ?_
  all_goals decide +kernel

/-- One region, and an object in it. -/
def oneRegionRun : List Op := [.restart fun _ => 0, .mmap 4096 4096, .alloc nameA 16 4096]

/-- A re-allocation in the region of the old chunk deletes the new chunk, and the name
cannot be read any more. -/
theorem not_keepsObject_oneRegionRun :
    AlongSim (step 1) absStep (Placed 1 {nameA}) oneRegionRun {} (fun _ => none) ∧
      Holds (reached 1 oneRegionRun).disk 1 (genIdFromStr nameA) ⟨metaOf 1 1, 0⟩ ∧
      BlockOf (reached 1 oneRegionRun) 1 ⟨4096, 8192, 1, 1⟩ 4112 32 ∧
      MetaRoom (reached 1 oneRegionRun) 1 ⟨4096, 8192, 1, 1⟩ ∧
      Unused (reached 1 oneRegionRun) 1 4112 32 ∧
      ¬ KeepsObject 1 {nameA} (reached 1 oneRegionRun)
        (runSpec absStep oneRegionRun fun _ => none).2 nameA 32 4112 ⟨4096, 8192, 1, 1⟩ := by
  refine ⟨by decide +kernel, by decide +kernel, by decide +kernel, by decide +kernel,
    by decide +kernel, ?_⟩
  rintro ⟨st', hstep, hkeeps, -⟩
  have hread : ((step 1 (reached 1 oneRegionRun) (.alloc nameA 32 4112)).bind fun r =>
      ((nvMapRead (fun _ => 0) (request 1 nameA)).exec r.2).map Prod.fst) = some none := by
    decide +kernel
  rw [hstep, Option.bind_some, hkeeps.pointer] at hread
  cases hread
