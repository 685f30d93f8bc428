/-
# Sizes beyond 32 bits

Sizes and offsets are `size_t` in the interface and `unsigned int` behind it: the size that
`je_malloc_` takes from the request, the length and the offset of a chunk, its committed size, and
the size that `setup_map_file` gives a data file.  Below `2^32` nothing is lost.  Beyond it the
record or the file is shorter than what was asked for, and stores past the end of the file have no
byte to go to.
-/
import NvMalloc.Keeps
import NvMalloc.StepEffect

open WriteM Function

/-- The size that `je_malloc_` allocates and records for a request of `size` bytes: it takes it
from the 32-bit field `commitsz`, and makes a `0` a `1`. -/
def jeMallocSize (size : ℕ) : ℕ := if toUint size = 0 then 1 else toUint size

/-- The calls that pass sizes; `addr` is the answer of the kernel or of the allocator. -/
inductive SizeCall where
  | mmap (size addr : ℕ)
  | nvalloc (n : ObjName) (size addr : ℕ)
  | commitLen (n : ObjName) (size : ℕ)

/-- What a call does to the store. -/
def SizeCall.op : SizeCall → Op
  | .mmap size addr => .mmap size addr
  | .nvalloc n size addr => .alloc n (jeMallocSize size) addr
  | .commitLen n size => .commit n size

/-- The chunk recorded for a block of `bytes` bytes at `addr`, in a region that starts at `start`,
has the length and the offset of the block, and after every restart its pointer leads to the same
bytes of the same file. -/
def RecordExact (p : ℕ) (st : Store) (start addr bytes : ℕ) : Prop :=
  ∃ c, st.ram.chunkmap addr = some c ∧ (st.disk.chunk c).length = bytes ∧
    (st.disk.chunk c).offset = addr - start ∧
    ((st.disk.chunk c).valid = .VALID → ∀ place, PlaceOk st.reboot place p →
      ∃ st₁ f, restart st place p = some st₁ ∧ (st₁.disk.chunk c).length = bytes ∧
        ∀ i < bytes, st.resolve (addr + i) = some (f, addr - start + i) ∧
          st₁.resolve ((st₁.disk.chunk c).nvPtr + i) = some (f, addr - start + i))

/-- The sizes that the call is given are those in the records and of the files after it. -/
def SizesExact (p : ℕ) (st st' : Store) : SizeCall → Prop
  | .mmap size _ => ∀ h, st'.disk.proc p = some h →
    (st'.disk.data ⟨p, h.numMmaps⟩).map DataContent.size = some size
  | .nvalloc _ size addr =>
    ∀ nd ∈ st.locateMmapobjNode addr, RecordExact p st' nd.startAddr addr size
  | .commitLen n size => ∀ c ∈ foundChunk st (request p n), (st'.disk.chunk c).commitsz = size

/-- The kernel, the allocator and the store can serve the call: the name has a hash, there is room
for the records, and what is committed exists. -/
def Served (p : ℕ) (st : Store) : SizeCall → Prop
  | .mmap size addr => FreshRange st addr size
  | .nvalloc n size addr => genIdFromStr n ≠ 0 ∧
    ∃ nd, BlockOf st p nd addr (jeMallocSize size) ∧ MetaRoom st p nd
  | .commitLen n _ => genIdFromStr n ≠ 0 ∧ (foundChunk st (request p n)).isSome

/-- The sizes are below `2^32`, that of an object is not `0`, and its block is in the part of the
region that the data file has. -/
def SizesBelow (st : Store) : SizeCall → Prop
  | .mmap size _ => size < 2 ^ 32
  | .nvalloc _ size addr => 0 < size ∧ size < 2 ^ 32 ∧
    ∀ nd ∈ st.locateMmapobjNode addr, Backed nd addr size
  | .commitLen _ size => size < 2 ^ 32

/-- `je_malloc_` keeps the sizes that 32 bits can hold, but for `0`. -/
theorem jeMallocSize_eq_iff {size : ℕ} : jeMallocSize size = size ↔ 0 < size ∧ size < 2 ^ 32 := by
  rw [jeMallocSize, ← toUint_eq_iff]
  split
  · next h =>
    constructor
    · rintro rfl
      cases h
    · rintro ⟨hpos, heq⟩
      omega
  · next h =>
    constructor
    · intro heq
      omega
    · exact And.right

section Exact

variable {p : ℕ} {st st' : Store} {n : ObjName} {bytes addr size : ℕ} {r : Ret}

/-- The pointer of a valid chunk leads to its extent in the data file. -/
theorem resolve_chunk (hi : StoreInv st p) {c : ChunkPtr} (hc : InScan st.disk.shape p c)
    (hv : (st.disk.chunk c).valid = .VALID) {i : ℕ} (hlt : i < (st.disk.chunk c).length) :
    st.resolve ((st.disk.chunk c).nvPtr + i) =
      some (dataOf c.file, (st.disk.chunk c).offset + i) := by
  obtain ⟨m, x, hm, hfile, hx, hptr, hsize, hsize'⟩ := hi.chunk_mapped hc (Or.inl hv)
  rw [hptr, Nat.add_assoc, resolve_of_mem hi.ram.maps hm hx (by omega) (by omega), hfile]

/-- The chunk of an allocation. -/
structure Recorded (p : ℕ) (st : Store) (nd : MmapobjNode) (addr bytes : ℕ) (c : ChunkPtr) :
    Prop where
  mapped : st.ram.chunkmap addr = some c
  length : (st.disk.chunk c).length = bytes
  offset : (st.disk.chunk c).offset = addr - nd.startAddr
  nvPtr : (st.disk.chunk c).nvPtr = addr
  scan : InScan st.disk.shape p c

theorem StepEffect.recorded (h : StepEffect p st (.alloc n bytes addr) r st') (hr : RunInv st p) :
    ∃ nd c, st.locateMmapobjNode addr = some nd ∧ Recorded p st' nd addr bytes c := by
  cases h with
  | @create _ _ _ nd q ws hok hfree hfound =>
    refine ⟨nd, (applyAll st ws).disk.shape.nextChunk q,
      locateMmapobjNode_of_block hr.inv.ram hok.block, ?_⟩
    have hrec : ((applyAll st ws).recordChunk q (allocChunk (allocRqst p n bytes) nd addr)
        addr).disk.chunk ((applyAll st ws).disk.shape.nextChunk q) =
        allocChunk (allocRqst p n bytes) nd addr := chunk_appendChunk_self
    refine ⟨update_self .., ?_, ?_, ?_, ?_⟩
    · rw [hrec]
      exact toUint_bytes hok.block
    · rw [hrec]
      exact toUint_offset hok.block hok.backed
    · rw [hrec]
      rfl
    · exact ⟨q, isRegion_appendChunk.mpr hfound.ready.region, nextChunk_isChunk⟩
  | @replace _ _ _ nd st₂ _ q₀ q qv old c v ws hok hf hv hre =>
    refine ⟨nd, c, locateMmapobjNode_of_block hr.inv.ram hok.block, ?_⟩
    have hrec₂ : st₂.disk.chunk c = allocChunk (allocRqst p n bytes) nd addr := by
      rw [hre.append, hre.next]
      exact chunk_appendChunk_self
    obtain ⟨_, hrec⟩ := hre.chunk_eq c
    rw [hrec₂] at hrec
    refine ⟨hre.mapped, ?_, ?_, ?_, ?_⟩
    · rw [hrec]
      exact toUint_bytes hok.block
    · rw [hrec]
      exact toUint_offset hok.block hok.backed
    · rw [hrec]
      rfl
    · rw [hre.effect.frame.shape_eq, hre.append, hre.next]
      exact ⟨q, isRegion_appendChunk.mpr hre.found.ready.region, nextChunk_isChunk⟩

/-- A recorded chunk is exact. -/
theorem Recorded.exact {nd : MmapobjNode} {c : ChunkPtr} (h : Recorded p st nd addr bytes c)
    (hr : RunInv st p) : RecordExact p st nd.startAddr addr bytes := by
  refine ⟨c, h.mapped, h.length, h.offset, ?_⟩
  intro hv place hplace
  obtain ⟨st₁, hexec, hl, hr₁⟩ := restart_runInv hr.inv.shape hr.inv.pidPos hplace
  have hlength : (st₁.disk.chunk c).length = bytes :=
    (congrArg Chunkobj.length (hl.chunk c) :).trans h.length
  have hoffset : (st₁.disk.chunk c).offset = addr - nd.startAddr :=
    (congrArg Chunkobj.offset (hl.chunk c) :).trans h.offset
  have hvalid : (st₁.disk.chunk c).valid = .VALID :=
    (congrArg Chunkobj.valid (hl.chunk c) :).trans hv
  refine ⟨st₁, dataOf c.file, hexec, hlength, fun i hlt => ⟨?_, ?_⟩⟩
  · rw [← h.offset, ← resolve_chunk hr.inv h.scan hv (by rw [h.length]; exact hlt), h.nvPtr]
  · rw [← hoffset]
    exact resolve_chunk hr₁.inv (hl.inScan.mpr h.scan) hvalid (by rw [hlength]; exact hlt)

/-- `_mmap` makes a data file of the size, if that is below `2^32`. -/
theorem sizesExact_mmap (hr : RunInv st p) (hfresh : FreshRange st addr size) :
    (∃ r st', step p st (.mmap size addr) = some (r, st') ∧ SizesExact p st st' (.mmap size addr)) ↔
      size < 2 ^ 32 := by
  obtain ⟨h, hh, hexec⟩ := mmap_exec hr.inv hfresh
  have hstep : step p st (.mmap size addr) = some (.done, st.mapRegion p size addr h) := by
    rw [step, hexec]
    rfl
  have hproc : (st.mapRegion p size addr h).disk.proc p =
    some { h with numMmaps := h.numMmaps + 1 } :=
    update_self ..
  have hfile : ((st.mapRegion p size addr h).disk.data ⟨p, h.numMmaps + 1⟩).map DataContent.size =
      some (toUint size) := by
    rw [show (st.mapRegion p size addr h).disk.data ⟨p, h.numMmaps + 1⟩ = _ from
      update_self ..]
    rfl
  rw [← toUint_eq_iff]
  constructor
  · rintro ⟨r, st', hs, hexact⟩
    rw [hstep] at hs
    cases hs
    have := hexact _ hproc
    rw [hfile] at this
    exact Option.some.inj this
  · intro heq
    refine ⟨_, _, hstep, fun h' hh' => ?_⟩
    rw [hproc] at hh'
    cases hh'
    rw [hfile, heq]

theorem sizesExact_commit (hr : RunInv st p) (hid : genIdFromStr n ≠ 0)
    (hfound : (foundChunk st (request p n)).isSome) :
    (∃ r st', step p st (.commit n size) = some (r, st') ∧
      SizesExact p st st' (.commitLen n size)) ↔
      size < 2 ^ 32 := by
  have hi : StoreInv st (request p n).pid := hr.inv
  rcases finds_or_missing hi (genIdFromStr n) with ⟨q, c, hf⟩ | hm
  · have hget := getChunk_of_finds hi hid hf
    obtain ⟨st₁, hexec, he⟩ := nvCommitLen_of_finds hi hid hf size
    have hstep : step p st (.commit n size) = some (.status 0, st₁) := by
      rw [step, hexec]
      rfl
    have hchunk : foundChunk st (request p n) = some c := by
      rw [foundChunk, hget]
      rfl
    have hcommitsz : (st₁.disk.chunk c).commitsz = toUint size := by
      rw [he.chunk, update_self]
    rw [← toUint_eq_iff, ← hcommitsz]
    constructor
    · rintro ⟨r, st', hs, hexact⟩
      rw [hstep] at hs
      cases hs
      exact hexact c hchunk
    · intro heq
      refine ⟨_, _, hstep, fun c' hc' => ?_⟩
      rw [hchunk] at hc'
      cases hc'
      exact heq
  · have hget := getChunk_of_missing hi hid hm
    rw [foundChunk, hget] at hfound
    cases hfound

/-- An allocation succeeds and is recorded as it was asked for exactly when 32 bits hold its size
and the file backs its block. -/
theorem sizesExact_nvalloc (hr : RunInv st p) (hid : genIdFromStr n ≠ 0) {nd : MmapobjNode}
    (hb : BlockOf st p nd addr (jeMallocSize size)) (hroom : MetaRoom st p nd) :
    (∃ r st', step p st (.alloc n (jeMallocSize size) addr) = some (r, st') ∧
      SizesExact p st st' (.nvalloc n size addr)) ↔ SizesBelow st (.nvalloc n size addr) := by
  have hlocate := locateMmapobjNode_of_block hr.inv.ram hb
  have hallowed : Allowed p Set.univ st (.alloc n (jeMallocSize size) addr) :=
    ⟨trivial, nd, hb, hroom⟩
  simp only [SizesExact, SizesBelow, hlocate, Option.mem_def, Option.some.injEq, forall_eq']
  constructor
  · rintro ⟨r, st', hs, c, hmapped, hlength, -⟩
    obtain ⟨_, c', -, hrec⟩ := (step_effect hr hallowed hs).recorded hr
    obtain rfl : c = c' := Option.some.inj (hmapped.symm.trans hrec.mapped)
    have hsize : jeMallocSize size = size := hrec.length.symm.trans hlength
    obtain ⟨hpos, hsmall⟩ := jeMallocSize_eq_iff.mp hsize
    refine ⟨hpos, hsmall, ?_⟩
    obtain ⟨_, hexec, -⟩ := Option.map_eq_some_iff.mp hs
    obtain ⟨_, hrun, -⟩ := Option.map_eq_some_iff.mp hexec
    have hi : StoreInv st (allocRqst p n (jeMallocSize size)).pid := hr.inv
    have hback : Backed nd addr (jeMallocSize size) := backed_of_alloc hi rfl hid hb hroom
      (fun _ => hr.solo.globals hb.node) (Option.isSome_iff_exists.mpr ⟨_, hrun⟩)
    rwa [hsize] at hback
  · rintro ⟨hpos, hsmall, hback⟩
    have hsize : jeMallocSize size = size := jeMallocSize_eq_iff.mpr ⟨hpos, hsmall⟩
    rw [← hsize] at hback
    obtain ⟨⟨r, st'⟩, hs⟩ := Option.isSome_iff_exists.mp (alloc_isSome hr hid hb hback hroom)
    have heff := step_effect hr hallowed hs
    obtain ⟨nd', c, hlocate', hrec⟩ := heff.recorded hr
    obtain rfl : nd = nd' := Option.some.inj (hlocate.symm.trans hlocate')
    have hexact := hrec.exact (heff.runInv hr)
    rw [hsize] at hexact
    exact ⟨r, st', hs, hexact⟩

end Exact

/-- **Where sizes are kept.**  After every run, a mapping, an allocation or a commit that can be
served succeeds and leaves the sizes it was given in the records and the files, and an allocated
object at the same bytes of its file after every restart, exactly when the sizes are below `2^32`,
that of an object is not `0`, and its block is backed. -/
theorem sizesExact_iff_of_run {p : ℕ} (hp : p ≠ 0) (place : DataFile → ℕ) (ops : List Op)
    (hrun : Along (step p) (Allowed p Set.univ) (.restart place :: ops) {}) {rs : List Ret}
    {st : Store} (hst : runSteps (step p) (.restart place :: ops) {} = some (rs, st))
    {call : SizeCall} (hcall : Served p st call) :
    (∃ r st', step p st call.op = some (r, st') ∧ SizesExact p st st' call) ↔
      SizesBelow st call := by
  have hr := runInv_of_run hp hrun hst
  cases call with
  | mmap size addr => exact sizesExact_mmap hr hcall
  | nvalloc n size addr =>
    obtain ⟨hid, nd, hb, hroom⟩ := hcall
    exact sizesExact_nvalloc hr hid hb hroom
  | commitLen n size => exact sizesExact_commit hr hcall.1 hcall.2

/-- A region of more than `2^32` bytes, with an object at its start. -/
def wideRun : List Op :=
  [.restart fun _ => 0, .mmap (2 ^ 32 + 4096) 4096, .alloc nameA 16 4096]

/-- The node of the region. -/
def wideNode : MmapobjNode := ⟨4096, 2 ^ 32 + 8192, 1, 1⟩

theorem allowed_wideRun : Along (step 1) (Allowed 1 Set.univ) wideRun {} := by
  decide +kernel

/-- Another object of 16 bytes is recorded as it was asked for. -/
theorem sizesExact_wideRun : ∃ rs st, runSteps (step 1) wideRun {} = some (rs, st) ∧
    ∃ r st', step 1 st (SizeCall.nvalloc nameB 16 4112).op = some (r, st') ∧
      SizesExact 1 st st' (.nvalloc nameB 16 4112) := by
  have hsome : (runSteps (step 1) wideRun {}).isSome = true := by decide +kernel
  obtain ⟨⟨rs, st⟩, hst⟩ := Option.isSome_iff_exists.mp hsome
  have hserved : Served 1 (reached 1 wideRun) (.nvalloc nameB 16 4112) :=
    ⟨by decide, wideNode, by decide +kernel⟩
  have hbelow : SizesBelow (reached 1 wideRun) (.nvalloc nameB 16 4112) :=
    ⟨by decide, by decide, by decide +kernel⟩
  rw [reached_eq hst] at hserved hbelow
  exact ⟨rs, st, hst, (sizesExact_iff_of_run (by decide) _ _ allowed_wideRun hst hserved).mpr
    hbelow⟩

/-- A file, an object and a committed size of more than `2^32` bytes, and an object beyond the end
of the file. -/
theorem not_sizesExact_wideRun : ∃ rs st, runSteps (step 1) wideRun {} = some (rs, st) ∧
    ∀ call ∈ [SizeCall.mmap (2 ^ 32 + 4096) (2 ^ 32 + 8192), .nvalloc nameB (2 ^ 32 + 16) 4112,
      .commitLen nameA (2 ^ 32 + 8), .nvalloc nameB 16 (2 ^ 32 + 4096)],
      ¬ ∃ r st', step 1 st call.op = some (r, st') ∧ SizesExact 1 st st' call := by
  have hsome : (runSteps (step 1) wideRun {}).isSome = true := by decide +kernel
  obtain ⟨⟨rs, st⟩, hst⟩ := Option.isSome_iff_exists.mp hsome
  refine ⟨rs, st, hst, ?_⟩
  have hr := runInv_of_run (by decide) allowed_wideRun hst
  have hreached := reached_eq hst
  intro call hcall
  simp only [List.mem_cons, List.not_mem_nil, or_false] at hcall
  rcases hcall with rfl | rfl | rfl | rfl
  · have hfresh : FreshRange (reached 1 wideRun) (2 ^ 32 + 8192) (2 ^ 32 + 4096) := by
      decide +kernel
    rw [hreached] at hfresh
    rw [SizeCall.op, sizesExact_mmap hr hfresh]
    decide
  · have hb : BlockOf (reached 1 wideRun) 1 wideNode 4112 (jeMallocSize (2 ^ 32 + 16)) ∧
        MetaRoom (reached 1 wideRun) 1 wideNode := by decide +kernel
    rw [hreached] at hb
    rw [SizeCall.op, sizesExact_nvalloc hr (by decide) hb.1 hb.2]
    exact fun h => absurd h.2.1 (by decide)
  · have hfound : (foundChunk (reached 1 wideRun) (request 1 nameA)).isSome := by decide +kernel
    rw [hreached] at hfound
    rw [SizeCall.op, sizesExact_commit hr (by decide) hfound]
    decide
  · have hb : BlockOf (reached 1 wideRun) 1 wideNode (2 ^ 32 + 4096) (jeMallocSize 16) ∧
        MetaRoom (reached 1 wideRun) 1 wideNode := by decide +kernel
    rw [hreached] at hb
    rw [SizeCall.op, sizesExact_nvalloc hr (by decide) hb.1 hb.2]
    intro h
    exact absurd (h.2.2 wideNode (locateMmapobjNode_of_block hr.inv.ram hb.1)) (by decide)
