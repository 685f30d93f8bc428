/-
# The local checkpoint

`nv_chkpt_all` copies the chunks of a process from their DRAM buffers to persistent memory.
`chkpt_all_vmas` walks over the tree of regions and `chkpt_all_chunks` over the tree of chunks
of a region, from the right to the left.  The asynchronous build copies only dirty chunks and
clears their flag; at the end it protects all buffers again, which `set_chunkprot_using_map` does
over the map of all chunks.

Every chunk that needs it is copied.  The status, however, is that of one node: it starts at -1
in every call, the left subtree's replaces all others, and neither a clean chunk nor a region
without chunks sets it.

The trees hold no null pointers.
-/
import NvMalloc.Bytes
import NvMalloc.TreeWalk
import NvMalloc.PageProtection

open Function Option

/-! ## The code -/

/-- The fields of a `chunkobj_s` that a checkpoint uses. -/
structure CkptChunk where
  length : UInt32
  nvPtr : UInt64
  logPtr : UInt64
  logptrSz : UInt64
  dirty : Bool
  rmtNvdirtchunk : Bool := false
  deriving DecidableEq

/-- A region, with its `chunkobj_tree`. -/
structure CkptRegion (ι : Type) where
  chunkobjTree : Option (RbtreeNode ι) := none

/-- A process, with its `mmapobj_tree`. -/
structure CkptProc (ι : Type) where
  mmapobjTree : Option (RbtreeNode (CkptRegion ι)) := none

/-- The chunk records and the memory. -/
structure CkptState (ι : Type) where
  chunk : ι → CkptChunk
  mem : ℕ → UInt8

/-- `_ASYNC_LCL_CHK` and `_ASYNC_RMT_CHKPT`. -/
structure CkptBuild where
  asyncLclChk : Bool
  asyncRmtChkpt : Bool := false

/-- `prev_proc_id`, and the answers of `mprotect`. -/
structure CkptEnv where
  prevProcId : ℤ
  mprotect : ProtRange → Bool

section Code

variable {ι : Type} [DecidableEq ι] (b : CkptBuild) (env : CkptEnv)

/-- A chunk with this flag has to be copied. -/
def CkptBuild.needs (dirty : Bool) : Bool := !b.asyncLclChk || dirty

/-- The assertions on a chunk that is copied. -/
def CkptChunk.Copyable (ch : CkptChunk) : Prop := ch.logPtr ≠ 0 ∧ ch.nvPtr ≠ 0 ∧ ch.length ≠ 0

instance (ch : CkptChunk) : Decidable ch.Copyable := instDecidableAnd

/-- The bytes of the DRAM buffer. -/
def CkptState.logBytes (s : CkptState ι) (c : ι) : List UInt8 :=
  slice s.mem (s.chunk c).logPtr.toNat (s.chunk c).length.toNat

/-- The bytes in persistent memory. -/
def CkptState.nvBytes (s : CkptState ι) (c : ι) : List UInt8 :=
  slice s.mem (s.chunk c).nvPtr.toNat (s.chunk c).length.toNat

/-- Clear the flag of a chunk in the asynchronous build, mark it for the remote checkpoint, and
copy its DRAM buffer (`memcpy_delay`). -/
def CkptState.copyChunk (s : CkptState ι) (c : ι) : CkptState ι where
  chunk := update s.chunk c { s.chunk c with
    dirty := if b.asyncLclChk then false else (s.chunk c).dirty
    rmtNvdirtchunk := if b.asyncRmtChkpt then true else (s.chunk c).rmtNvdirtchunk }
  mem := blit s.mem (s.chunk c).nvPtr.toNat (s.logBytes c)

/-- `chkpt_all_chunks` at one node; `none` when an assertion fails. -/
def chkptChunk (c : ι) (s : CkptState ι) : Option (Option ℤ × CkptState ι) :=
  if b.needs (s.chunk c).dirty then
    if (s.chunk c).Copyable then some (some 0, s.copyChunk b c) else none
  else some (none, s)

/-- `chkpt_all_chunks`. -/
def chkptAllChunks (t : RbtreeNode ι) (s : CkptState ι) : Option (ℤ × CkptState ι) :=
  t.statusWalk (chkptChunk b) s

/-- `chkpt_all_vmas` at one node. -/
def chkptRegion (m : CkptRegion ι) (s : CkptState ι) : Option (Option ℤ × CkptState ι) :=
  match m.chunkobjTree with
  | none => some (none, s)
  | some t =>
    if t.isNil then some (none, s)
    else (chkptAllChunks b t s).map fun (ret, s) => (some ret, s)

/-- `chkpt_all_vmas`. -/
def chkptAllVmas (t : RbtreeNode (CkptRegion ι)) (s : CkptState ι) : Option (ℤ × CkptState ι) :=
  t.statusWalk (chkptRegion b) s

/-- A chunk passes the assertions of `set_chunkprot_using_map`, and `set_protection` does not
leave the program. -/
def CkptChunk.Protectable (ch : CkptChunk) : Prop :=
  ch.nvPtr ≠ 0 ∧ ch.logPtr ≠ 0 ∧
    (env.mprotect (setProtection ch.logPtr ch.logptrSz) = true ∨ env.prevProcId = 0)

instance (ch : CkptChunk) : Decidable (ch.Protectable env) := instDecidableAnd

/-- `set_chunkprot_using_map`, for one chunk. -/
def protectChunk (s : CkptState ι) (c : ι) : Option (CkptState ι) :=
  if (s.chunk c).Protectable env then
    some { s with chunk := update s.chunk c { s.chunk c with dirty := false } }
  else none

/-- `set_chunkprot_using_map`, for the chunks in the order of the map. -/
def setChunkprotUsingMap (chunkmap : List ι) (s : CkptState ι) : Option (CkptState ι) :=
  chunkmap.foldlM (protectChunk env) s

/-- `nv_chkpt_all`, for the process that `find_proc_obj` finds. -/
def nvChkptAll (proc : Option (CkptProc ι)) (chunkmap : List ι) (s : CkptState ι) :
    Option (ℤ × CkptState ι) :=
  match proc.bind CkptProc.mmapobjTree with
  | none => some (0, s)
  | some root =>
    if root.isNil then some (0, s)
    else
      (chkptAllVmas b root s).bind fun (ret, s) =>
        (if b.asyncLclChk then setChunkprotUsingMap env chunkmap s else some s).map fun s =>
          (if ret = 0 then ret else -1, s)

end Code

/-! ## What a walk does -/

section Walk

variable {ι : Type}

/-- The chunks of a region, in the order of the walk. -/
def CkptRegion.chunks (m : CkptRegion ι) : List ι :=
  (m.chunkobjTree.map RbtreeNode.descending).getD []

/-- The regions of a process, in the order of the walk. -/
def CkptProc.regions (p : CkptProc ι) : List (CkptRegion ι) :=
  (p.mmapobjTree.map RbtreeNode.descending).getD []

/-- The chunks of a process, in the order of the walk. -/
def CkptProc.chunks (p : CkptProc ι) : List ι := p.regions.flatMap CkptRegion.chunks

/-- An address in the persistent buffer of a chunk. -/
def CkptState.InNv (s : CkptState ι) (c : ι) (a : ℕ) : Prop :=
  (s.chunk c).nvPtr.toNat ≤ a ∧ a < (s.chunk c).nvPtr.toNat + (s.chunk c).length.toNat

/-- An address in the DRAM buffer of a chunk. -/
def CkptState.InLog (s : CkptState ι) (c : ι) (a : ℕ) : Prop :=
  (s.chunk c).logPtr.toNat ≤ a ∧ a < (s.chunk c).logPtr.toNat + (s.chunk c).length.toNat

/-- What the allocators give every chunk: no persistent buffer meets a DRAM buffer or the
persistent buffer of another chunk. -/
structure OwnBuffers (s : CkptState ι) (cs : List ι) : Prop where
  nv_log : ∀ c ∈ cs, ∀ c' ∈ cs, ∀ a, s.InNv c a → ¬ s.InLog c' a
  nv_nv : ∀ c ∈ cs, ∀ c' ∈ cs, c ≠ c' → ∀ a, s.InNv c a → ¬ s.InNv c' a

/-- Persistent memory holds what the DRAM buffer holds. -/
def CkptState.Saved (s : CkptState ι) (c : ι) : Prop := s.nvBytes c = s.logBytes c

/-- What the asynchronous build, or the synchronous one, does to chunks `cs`. -/
structure Checkpointed (b : CkptBuild) (cs : List ι) (s s' : CkptState ι) : Prop where
  buffers : ∀ c, (s'.chunk c).nvPtr = (s.chunk c).nvPtr ∧ (s'.chunk c).logPtr = (s.chunk c).logPtr ∧
    (s'.chunk c).length = (s.chunk c).length ∧ (s'.chunk c).logptrSz = (s.chunk c).logptrSz
  record : ∀ c, c ∉ cs ∨ b.needs (s.chunk c).dirty = false → s'.chunk c = s.chunk c
  cleared : b.asyncLclChk = true → ∀ c ∈ cs, (s'.chunk c).dirty = false
  frame : ∀ a, (∀ c ∈ cs, b.needs (s.chunk c).dirty = true → ¬ s.InNv c a) → s'.mem a = s.mem a
  saved : OwnBuffers s cs → ∀ c ∈ cs, b.needs (s.chunk c).dirty = true → s'.Saved c

variable {b : CkptBuild} {env : CkptEnv} {s s₁ s' : CkptState ι} {c : ι} {cs : List ι}

theorem CkptState.nvBytes_congr (hp : (s'.chunk c).nvPtr = (s.chunk c).nvPtr)
    (hl : (s'.chunk c).length = (s.chunk c).length) (hmem : ∀ a, s.InNv c a → s'.mem a = s.mem a) :
    s'.nvBytes c = s.nvBytes c := by
  unfold CkptState.nvBytes
  rw [hp, hl]
  exact slice_congr fun i hi => hmem _ ⟨by omega, by omega⟩

theorem CkptState.logBytes_congr (hp : (s'.chunk c).logPtr = (s.chunk c).logPtr)
    (hl : (s'.chunk c).length = (s.chunk c).length)
    (hmem : ∀ a, s.InLog c a → s'.mem a = s.mem a) : s'.logBytes c = s.logBytes c := by
  unfold CkptState.logBytes
  rw [hp, hl]
  exact slice_congr fun i hi => hmem _ ⟨by omega, by omega⟩

theorem OwnBuffers.subset {cs' : List ι} (h : OwnBuffers s cs) (hsub : ∀ c ∈ cs', c ∈ cs) :
    OwnBuffers s cs' :=
  ⟨fun c hc c' hc' => h.nv_log c (hsub c hc) c' (hsub c' hc'),
    fun c hc c' hc' => h.nv_nv c (hsub c hc) c' (hsub c' hc')⟩

namespace Checkpointed

section

variable (h : Checkpointed b cs s s')
include h

theorem inNv_iff {c : ι} {a : ℕ} : s'.InNv c a ↔ s.InNv c a := by
  obtain ⟨hnv, -, hlen, -⟩ := h.buffers c
  unfold CkptState.InNv
  rw [hnv, hlen]

theorem inLog_iff {c : ι} {a : ℕ} : s'.InLog c a ↔ s.InLog c a := by
  obtain ⟨-, hlog, hlen, -⟩ := h.buffers c
  unfold CkptState.InLog
  rw [hlog, hlen]

theorem ownBuffers {cs' : List ι} (hown : OwnBuffers s cs') : OwnBuffers s' cs' := by
  constructor
  · intro c hc c' hc' a
    rw [h.inNv_iff, h.inLog_iff]
    exact hown.nv_log c hc c' hc' a
  · intro c hc c' hc' hne a
    rw [h.inNv_iff, h.inNv_iff]
    exact hown.nv_nv c hc c' hc' hne a

/-- A chunk that needs copying afterwards needed it before. -/
theorem needs_of_needs (hn : b.needs (s'.chunk c).dirty = true) :
    b.needs (s.chunk c).dirty = true := by
  by_contra hclean
  have hclean := Bool.eq_false_of_not_eq_true hclean
  rw [h.record c (.inr hclean), hclean] at hn
  cases hn

/-- A chunk that is saved stays so, when the walk does not copy it again. -/
theorem saved_of_saved {cs' : List ι} (hown : OwnBuffers s cs') (hsub : ∀ c ∈ cs, c ∈ cs')
    (hc : c ∈ cs') (hother : ∀ c' ∈ cs, b.needs (s.chunk c').dirty = true → c' ≠ c)
    (hsaved : s.Saved c) : s'.Saved c := by
  obtain ⟨hnv, hlog, hlen, -⟩ := h.buffers c
  have hnvBytes : s'.nvBytes c = s.nvBytes c := by
    refine CkptState.nvBytes_congr hnv hlen fun a ha => h.frame a fun c' hc' hn hin => ?_
    exact hown.nv_nv c' (hsub c' hc') c hc (hother c' hc' hn) a hin ha
  have hlogBytes : s'.logBytes c = s.logBytes c := by
    refine CkptState.logBytes_congr hlog hlen fun a ha => h.frame a fun c' hc' _ hin => ?_
    exact hown.nv_log c' (hsub c' hc') c hc a hin ha
  rw [CkptState.Saved, hnvBytes, hlogBytes]
  exact hsaved

end

theorem refl (b : CkptBuild) (s : CkptState ι) : Checkpointed b [] s s where
  buffers _ := ⟨rfl, rfl, rfl, rfl⟩
  record _ _ := rfl
  cleared _ _ hc := absurd hc List.not_mem_nil
  frame _ _ := rfl
  saved _ _ hc := absurd hc List.not_mem_nil

/-- One chunk after the other. -/
theorem cons (h : Checkpointed b [c] s s₁) (hs : Checkpointed b cs s₁ s') :
    Checkpointed b (c :: cs) s s' where
  buffers c' := by
    obtain ⟨hnv, hlog, hlen, hsz⟩ := h.buffers c'
    obtain ⟨hnv', hlog', hlen', hsz'⟩ := hs.buffers c'
    exact ⟨hnv'.trans hnv, hlog'.trans hlog, hlen'.trans hlen, hsz'.trans hsz⟩
  record c' hc' := by
    have hfirst : s₁.chunk c' = s.chunk c' :=
      h.record c' (hc'.imp_left fun hmem hin => hmem (by simp_all))
    rw [hs.record c' (by
      rw [hfirst]
      exact hc'.imp_left fun hmem hin => hmem (List.mem_cons_of_mem c hin)), hfirst]
  cleared hasync c' hc' := by
    by_cases hin : c' ∈ cs
    · exact hs.cleared hasync c' hin
    · rw [hs.record c' (.inl hin)]
      exact h.cleared hasync c' (by simp_all)
  frame a ha := by
    rw [hs.frame a fun c' hc' hn => ?_, h.frame a fun c' hc' hn => ?_]
    · exact ha c' (by simp_all) hn
    · rw [h.inNv_iff]
      exact ha c' (List.mem_cons_of_mem c hc') (h.needs_of_needs hn)
  saved hown c' hc' hn := by
    have hown₁ : OwnBuffers s₁ (c :: cs) := h.ownBuffers hown
    have hsub : ∀ c' ∈ cs, c' ∈ c :: cs := fun c' hc' => List.mem_cons_of_mem c hc'
    -- a chunk that occurs again and is still to be copied is saved by the rest of the walk
    by_cases hagain : c' ∈ cs ∧ b.needs (s₁.chunk c').dirty = true
    · exact hs.saved (hown₁.subset hsub) c' hagain.1 hagain.2
    · have hsaved₁ : s₁.Saved c' := by
        rcases List.mem_cons.mp hc' with rfl | hin
        · exact h.saved (hown.subset fun d hd => by simp_all) c' (by simp) hn
        · have heq : c' = c := by
            by_contra hne
            exact hagain ⟨hin, by rwa [h.record c' (.inl (by simpa using hne))]⟩
          subst heq
          exact h.saved (hown.subset fun d hd => by simp_all) c' (by simp) hn
      refine hs.saved_of_saved hown₁ hsub hc' (fun d hd hnd => ?_) hsaved₁
      rintro rfl
      exact hagain ⟨hd, hnd⟩

end Checkpointed

variable [DecidableEq ι] {own : Option ℤ}

/-- What `chkpt_all_chunks` does at one node. -/
theorem chkptChunk_cases (h : chkptChunk b c s = some (own, s')) :
    (b.needs (s.chunk c).dirty = false ∧ own = none ∧ s' = s) ∨
      (b.needs (s.chunk c).dirty = true ∧ own = some 0 ∧ s' = s.copyChunk b c) := by
  unfold chkptChunk at h
  split at h
  · next hneeds =>
    split at h
    · cases h
      exact .inr ⟨hneeds, rfl, rfl⟩
    · cases h
  · next hneeds =>
    cases h
    exact .inl ⟨Bool.eq_false_of_not_eq_true hneeds, rfl, rfl⟩

theorem isSome_chkptChunk :
    (chkptChunk b c s).isSome = true ↔
      (b.needs (s.chunk c).dirty = true → (s.chunk c).Copyable) := by
  unfold chkptChunk
  split
  · next hneeds =>
    split
    · next hcopy => simp [hcopy]
    · next hcopy => simp [hneeds, hcopy]
  · next hneeds => simp [hneeds]

/-- Copying one chunk. -/
theorem checkpointed_copyChunk (hneeds : b.needs (s.chunk c).dirty = true) :
    Checkpointed b [c] s (s.copyChunk b c) := by
  have hmem : ∀ a, ¬ s.InNv c a → (s.copyChunk b c).mem a = s.mem a := by
    intro a ha
    refine blit_of_outside ?_
    unfold CkptState.InNv at ha
    rw [CkptState.logBytes, length_slice]
    omega
  have hself : (s.copyChunk b c).chunk c = { s.chunk c with
      dirty := if b.asyncLclChk then false else (s.chunk c).dirty
      rmtNvdirtchunk := if b.asyncRmtChkpt then true else (s.chunk c).rmtNvdirtchunk } :=
    update_self ..
  have hother : ∀ c', c' ≠ c → (s.copyChunk b c).chunk c' = s.chunk c' := fun c' hne =>
    update_of_ne hne ..
  refine ⟨fun c' => ?_, fun c' hc' => ?_, fun hasync c' hc' => ?_, fun a ha => ?_,
    fun hown c' hc' _ => ?_⟩
  · by_cases heq : c' = c
    · subst heq
      rw [hself]
      exact ⟨rfl, rfl, rfl, rfl⟩
    · rw [hother c' heq]
      exact ⟨rfl, rfl, rfl, rfl⟩
  · refine hother c' ?_
    rintro rfl
    rcases hc' with hc' | hc'
    · exact hc' (List.mem_singleton_self c')
    · rw [hneeds] at hc'
      cases hc'
  · rw [List.mem_singleton.mp hc', hself, hasync]
    rfl
  · exact hmem a (ha c (List.mem_singleton_self c) hneeds)
  · rw [List.mem_singleton.mp hc']
    have hlog : (s.copyChunk b c).logBytes c = s.logBytes c := by
      refine CkptState.logBytes_congr (by rw [hself]) (by rw [hself]) ?_
      intro a ha
      refine hmem a fun hin => ?_
      exact hown.nv_log c (List.mem_singleton_self c) c (List.mem_singleton_self c) a hin ha
    have hlen : (s.chunk c).length.toNat = (s.logBytes c).length := by
      rw [CkptState.logBytes, length_slice]
    rw [CkptState.Saved, hlog, CkptState.nvBytes, hself]
    show slice (blit s.mem (s.chunk c).nvPtr.toNat (s.logBytes c)) (s.chunk c).nvPtr.toNat
      (s.chunk c).length.toNat = s.logBytes c
    rw [hlen, slice_blit_self]

theorem chkptChunk_checkpointed (h : chkptChunk b c s = some (own, s')) :
    Checkpointed b [c] s s' := by
  obtain ⟨hclean, -, rfl⟩ | ⟨hneeds, -, rfl⟩ := chkptChunk_cases h
  · refine ⟨fun _ => ⟨rfl, rfl, rfl, rfl⟩, fun _ _ => rfl, fun hasync c' hc' => ?_,
      fun _ _ => rfl, fun _ c' hc' hn => ?_⟩
    · rw [List.mem_singleton.mp hc']
      simpa [CkptBuild.needs, hasync] using hclean
    · rw [List.mem_singleton.mp hc', hclean] at hn
      cases hn
  · exact checkpointed_copyChunk hneeds

/-- The state after one node of `chkpt_all_chunks`. -/
def ckptStep (b : CkptBuild) (s : CkptState ι) (c : ι) : Option (CkptState ι) :=
  (chkptChunk b c s).map Prod.snd

/-- What visiting the chunks one by one does. -/
theorem checkpointed_of_steps (h : cs.foldlM (ckptStep b) s = some s') :
    Checkpointed b cs s s' := by
  induction cs generalizing s with
  | nil =>
    cases h
    exact Checkpointed.refl b s'
  | cons c cs ih =>
    obtain ⟨s₁, hfirst, hrest⟩ := bind_eq_some_iff.mp h
    obtain ⟨⟨own, s₂⟩, hchunk, rfl⟩ := map_eq_some_iff.mp hfirst
    exact (chkptChunk_checkpointed hchunk).cons (ih hrest)

/-- No assertion fails when every chunk to be copied has both buffers and a length. -/
theorem isSome_steps :
    (cs.foldlM (ckptStep b) s).isSome = true ↔
      ∀ c ∈ cs, b.needs (s.chunk c).dirty = true → (s.chunk c).Copyable := by
  induction cs generalizing s with
  | nil => exact ⟨fun _ _ hc => absurd hc List.not_mem_nil, fun _ => rfl⟩
  | cons c cs ih =>
    rw [List.forall_mem_cons, ← isSome_chkptChunk, List.foldlM_cons, ckptStep]
    cases hchunk : chkptChunk b c s with
    | none => simp
    | some r =>
      obtain ⟨own, s₁⟩ := r
      have hck := chkptChunk_checkpointed hchunk
      have hfirst : b.needs (s.chunk c).dirty = true → (s.chunk c).Copyable :=
        isSome_chkptChunk.mp (by rw [hchunk]; rfl)
      simp only [map_some, bind_eq_bind, bind_some, isSome_some, true_and]
      rw [ih]
      refine forall₂_congr fun c' _ => ?_
      by_cases heq : c' = c
      · -- a second visit of the chunk passes when the first one does
        subst heq
        obtain ⟨hnv, hlog, hlen, -⟩ := hck.buffers c'
        refine iff_of_true (fun hn => ?_) hfirst
        rw [CkptChunk.Copyable, hnv, hlog, hlen]
        exact hfirst (hck.needs_of_needs hn)
      · rw [hck.record c' (.inl (by simpa using heq))]

/-! ## The whole checkpoint -/

theorem chkptRegion_state (m : CkptRegion ι) (s : CkptState ι) :
    (chkptRegion b m s).map Prod.snd = m.chunks.foldlM (ckptStep b) s := by
  unfold chkptRegion CkptRegion.chunks
  cases m.chunkobjTree with
  | none => rfl
  | some t =>
    by_cases hnil : t.isNil = true
    · rw [RbtreeNode.eq_nil_of_isNil hnil]
      rfl
    · simp only [hnil]
      refine Eq.trans ?_ (RbtreeNode.statusWalk_state (chkptChunk b) t s)
      rw [chkptAllChunks]
      simp [comp_def]

/-- `chkpt_all_vmas` visits every chunk of every region once. -/
theorem chkptAllVmas_steps (t : RbtreeNode (CkptRegion ι)) (s : CkptState ι) :
    (chkptAllVmas b t s).map Prod.snd =
      (t.descending.flatMap CkptRegion.chunks).foldlM (ckptStep b) s := by
  rw [chkptAllVmas, RbtreeNode.statusWalk_state]
  simp only [chkptRegion_state]
  induction t.descending generalizing s with
  | nil => rfl
  | cons m ms ih =>
    rw [List.flatMap_cons, List.foldlM_append, List.foldlM_cons]
    exact bind_congr fun s => ih s

theorem CkptProc.chkptAllVmas_state {p : CkptProc ι} {root : RbtreeNode (CkptRegion ι)}
    (hroot : p.mmapobjTree = some root) :
    (chkptAllVmas b root s).map Prod.snd = p.chunks.foldlM (ckptStep b) s := by
  rw [chunks, regions, hroot, map_some, getD_some]
  exact chkptAllVmas_steps root s

/-- What `set_chunkprot_using_map` does: some flags are cleared. -/
structure Reprotected (s s' : CkptState ι) : Prop where
  mem : s'.mem = s.mem
  chunk : ∀ c, s'.chunk c = s.chunk c ∨ s'.chunk c = { s.chunk c with dirty := false }

omit [DecidableEq ι] in
theorem Reprotected.refl (s : CkptState ι) : Reprotected s s := ⟨rfl, fun _ => .inl rfl⟩

omit [DecidableEq ι] in
theorem Reprotected.trans (h : Reprotected s s₁) (h' : Reprotected s₁ s') : Reprotected s s' := by
  refine ⟨h'.mem.trans h.mem, fun c => ?_⟩
  rcases h'.chunk c with heq | heq
  · rw [heq]
    exact h.chunk c
  · refine .inr ?_
    rw [heq]
    rcases h.chunk c with heq | heq <;> rw [heq]

omit [DecidableEq ι] in
/-- A record with a cleared flag is unchanged. -/
theorem Reprotected.chunk_of_clean (h : Reprotected s s') (hclean : (s.chunk c).dirty = false) :
    s'.chunk c = s.chunk c := by
  rcases h.chunk c with heq | heq
  · exact heq
  · rw [heq, ← hclean]

omit [DecidableEq ι] in
theorem Reprotected.nvBytes (h : Reprotected s s') (c : ι) : s'.nvBytes c = s.nvBytes c := by
  unfold CkptState.nvBytes
  rcases h.chunk c with heq | heq <;> rw [heq, h.mem]

omit [DecidableEq ι] in
theorem Reprotected.logBytes (h : Reprotected s s') (c : ι) : s'.logBytes c = s.logBytes c := by
  unfold CkptState.logBytes
  rcases h.chunk c with heq | heq <;> rw [heq, h.mem]

theorem protectChunk_reprotected (h : protectChunk env s c = some s') : Reprotected s s' := by
  unfold protectChunk at h
  split at h
  · cases h
    refine ⟨rfl, fun c' => ?_⟩
    by_cases heq : c' = c
    · rw [heq]
      exact .inr (update_self ..)
    · exact .inl (update_of_ne heq ..)
  · cases h

theorem setChunkprotUsingMap_reprotected {chunkmap : List ι}
    (h : setChunkprotUsingMap env chunkmap s = some s') : Reprotected s s' := by
  unfold setChunkprotUsingMap at h
  induction chunkmap generalizing s with
  | nil =>
    cases h
    exact Reprotected.refl s'
  | cons c cs ih =>
    obtain ⟨s₁, hfirst, hrest⟩ := bind_eq_some_iff.mp h
    exact (protectChunk_reprotected hfirst).trans (ih hrest)

omit [DecidableEq ι] in
theorem Reprotected.protectable_iff (h : Reprotected s s') :
    (s'.chunk c).Protectable env ↔ (s.chunk c).Protectable env := by
  rcases h.chunk c with heq | heq
  · rw [heq]
  · rw [heq]
    exact Iff.rfl

theorem isSome_setChunkprotUsingMap {chunkmap : List ι} :
    (setChunkprotUsingMap env chunkmap s).isSome = true ↔
      ∀ c ∈ chunkmap, (s.chunk c).Protectable env := by
  unfold setChunkprotUsingMap
  induction chunkmap generalizing s with
  | nil => exact ⟨fun _ _ hc => absurd hc List.not_mem_nil, fun _ => rfl⟩
  | cons c cs ih =>
    rw [List.forall_mem_cons, List.foldlM_cons]
    by_cases hfirst : (s.chunk c).Protectable env
    · have hstep : protectChunk env s c = some
          { s with chunk := update s.chunk c { s.chunk c with dirty := false } } :=
        if_pos hfirst
      have hsame := protectChunk_reprotected hstep
      rw [hstep]
      simp only [bind_eq_bind, bind_some, hfirst, true_and]
      rw [ih]
      exact forall₂_congr fun c' _ => hsame.protectable_iff
    · have hstep : protectChunk env s c = none := if_neg hfirst
      simp [hstep, hfirst]

/-- The chunks to be copied have both buffers and a length, and in the asynchronous build the
buffers of all chunks can be protected again. -/
def CkptProc.Completes (p : CkptProc ι) (b : CkptBuild) (env : CkptEnv) (chunkmap : List ι)
    (s : CkptState ι) : Prop :=
  (∀ c ∈ p.chunks, b.needs (s.chunk c).dirty = true → (s.chunk c).Copyable) ∧
    (p.regions ≠ [] → b.asyncLclChk = true → ∀ c ∈ chunkmap, (s.chunk c).Protectable env)

omit [DecidableEq ι] in
theorem CkptProc.regions_eq_nil_iff {p : CkptProc ι} :
    p.regions = [] ↔ ∀ root, p.mmapobjTree = some root → root.isNil = true := by
  unfold CkptProc.regions
  cases p.mmapobjTree with
  | none => simp
  | some root =>
    cases root with
    | nil => simp [RbtreeNode.isNil]
    | node => simp [RbtreeNode.isNil, RbtreeNode.descending_node]

/-- A process without regions has nothing to copy. -/
theorem nvChkptAll_of_regions_nil {p : CkptProc ι} (h : p.regions = []) (chunkmap : List ι) :
    nvChkptAll b env (some p) chunkmap s = some (0, s) := by
  rw [nvChkptAll, bind_some]
  cases hroot : p.mmapobjTree with
  | none => rfl
  | some root => exact if_pos (CkptProc.regions_eq_nil_iff.mp h root hroot)

/-- `nv_chkpt_all` on a process with a region. -/
theorem nvChkptAll_of_regions {p : CkptProc ι} (h : p.regions ≠ []) (b : CkptBuild)
    (env : CkptEnv) (chunkmap : List ι) (s : CkptState ι) :
    ∃ root, p.mmapobjTree = some root ∧ root.isNil = false ∧
      nvChkptAll b env (some p) chunkmap s = (chkptAllVmas b root s).bind fun r =>
        (if b.asyncLclChk then setChunkprotUsingMap env chunkmap r.2 else some r.2).map fun s =>
          (if r.1 = 0 then r.1 else -1, s) := by
  rw [Ne, CkptProc.regions_eq_nil_iff] at h
  push Not at h
  obtain ⟨root, hroot, hnil⟩ := h
  refine ⟨root, hroot, Bool.eq_false_of_not_eq_true hnil, ?_⟩
  rw [nvChkptAll, bind_some, hroot]
  exact if_neg hnil

/-- The states of a checkpoint that returns: after the walk, and after the protection. -/
theorem nvChkptAll_states {p : CkptProc ι} {chunkmap : List ι} {ret : ℤ}
    (h : nvChkptAll b env (some p) chunkmap s = some (ret, s')) :
    ∃ s₁, Checkpointed b p.chunks s s₁ ∧ Reprotected s₁ s' := by
  by_cases hreg : p.regions = []
  · rw [nvChkptAll_of_regions_nil hreg] at h
    cases h
    rw [CkptProc.chunks, hreg]
    exact ⟨s, Checkpointed.refl b s, Reprotected.refl s⟩
  · obtain ⟨root, hroot, -, hcall⟩ := nvChkptAll_of_regions hreg b env chunkmap s
    rw [hcall] at h
    obtain ⟨⟨ret₁, s₁⟩, hwalk, h⟩ := bind_eq_some_iff.mp h
    obtain ⟨s₂, hprot, hret⟩ := map_eq_some_iff.mp h
    cases hret
    refine ⟨s₁, checkpointed_of_steps ?_, ?_⟩
    · rw [← CkptProc.chkptAllVmas_state hroot, hwalk]
      rfl
    · split at hprot
      · exact setChunkprotUsingMap_reprotected hprot
      · cases hprot
        exact Reprotected.refl s₁

theorem isSome_nvChkptAll {p : CkptProc ι} {chunkmap : List ι} :
    (nvChkptAll b env (some p) chunkmap s).isSome = true ↔ p.Completes b env chunkmap s := by
  unfold CkptProc.Completes
  by_cases hreg : p.regions = []
  · rw [nvChkptAll_of_regions_nil hreg, CkptProc.chunks, hreg]
    simp
  · obtain ⟨root, hroot, -, hcall⟩ := nvChkptAll_of_regions hreg b env chunkmap s
    rw [hcall, ← isSome_steps, ← CkptProc.chkptAllVmas_state hroot]
    cases hwalk : chkptAllVmas b root s with
    | none => simp
    | some r =>
      obtain ⟨ret₁, s₁⟩ := r
      have hsteps : p.chunks.foldlM (ckptStep b) s = some s₁ := by
        rw [← CkptProc.chkptAllVmas_state hroot, hwalk]
        rfl
      -- the walk leaves the buffers of every chunk where they are
      have hprotectable : ∀ c, (s₁.chunk c).Protectable env ↔ (s.chunk c).Protectable env := by
        intro c
        obtain ⟨hnv, hlog, -, hsz⟩ := (checkpointed_of_steps hsteps).buffers c
        rw [CkptChunk.Protectable, CkptChunk.Protectable, hnv, hlog, hsz]
      cases hasync : b.asyncLclChk with
      | false => simp
      | true => simp [isSome_setChunkprotUsingMap, hprotectable, hreg]

/-- A checkpoint returns exactly when the chunks to be copied pass the assertions and the buffers
can be protected again.  When it returns, the synchronous build has saved every chunk of the
process; the asynchronous build has saved every chunk that was dirty and cleared its flag, and has
changed neither the record nor the persistent bytes of a clean one. -/
theorem nvChkptAll_copies (b : CkptBuild) (env : CkptEnv) (p : CkptProc ι) (chunkmap : List ι)
    (s : CkptState ι) (hown : OwnBuffers s p.chunks) :
    ((nvChkptAll b env (some p) chunkmap s).isSome = true ↔ p.Completes b env chunkmap s) ∧
    ∀ ret s', nvChkptAll b env (some p) chunkmap s = some (ret, s') → ∀ c ∈ p.chunks,
      s'.logBytes c = s.logBytes c ∧
      (b.asyncLclChk = false → s'.nvBytes c = s'.logBytes c) ∧
      (b.asyncLclChk = true →
        ((s.chunk c).dirty = true →
          s'.nvBytes c = s'.logBytes c ∧ (s'.chunk c).dirty = false) ∧
        ((s.chunk c).dirty = false →
          s'.nvBytes c = s.nvBytes c ∧ s'.chunk c = s.chunk c)) := by
  refine ⟨isSome_nvChkptAll, fun ret s' hcall c hc => ?_⟩
  obtain ⟨s₁, hck, hprot⟩ := nvChkptAll_states hcall
  obtain ⟨hnv, hlog, hlen, -⟩ := hck.buffers c
  have hsaved : b.needs (s.chunk c).dirty = true → s'.nvBytes c = s'.logBytes c := fun hn => by
    rw [hprot.nvBytes, hprot.logBytes]
    exact hck.saved hown c hc hn
  refine ⟨?_, fun hsync => hsaved (by simp [CkptBuild.needs, hsync]), fun hasync => ⟨fun hdirty =>
    ⟨hsaved (by simp [CkptBuild.needs, hdirty]), ?_⟩, fun hclean => ?_⟩⟩
  · rw [hprot.logBytes]
    refine CkptState.logBytes_congr hlog hlen fun a ha => hck.frame a fun c' hc' _ hin => ?_
    exact hown.nv_log c' hc' c hc a hin ha
  · rw [hprot.chunk_of_clean (hck.cleared hasync c hc)]
    exact hck.cleared hasync c hc
  · have hskip : b.needs (s.chunk c).dirty = false := by simp [CkptBuild.needs, hasync, hclean]
    have hrecord : s₁.chunk c = s.chunk c := hck.record c (.inr hskip)
    constructor
    · rw [hprot.nvBytes]
      refine CkptState.nvBytes_congr hnv hlen fun a ha => hck.frame a fun c' hc' hn hin => ?_
      refine hown.nv_nv c' hc' c hc ?_ a hin ha
      rintro rfl
      rw [hskip] at hn
      cases hn
    · rw [hprot.chunk_of_clean (by rw [hrecord]; exact hclean), hrecord]

/-- Two chunks, of which the first is dirty. -/
def twoChunks : CkptState Bool where
  chunk c := ⟨2, if c then 8192 else 12288, if c then 20480 else 24576, 2, c, false⟩
  mem a := if a < 20480 then 0 else 1

theorem ownBuffers_twoChunks (cs : List Bool) : OwnBuffers twoChunks cs := by
  constructor
  · rintro (_ | _) - (_ | _) - a ⟨hlo, hhi⟩ ⟨hlo', hhi'⟩ <;>
      simp [twoChunks] at hlo hhi hlo' hhi' <;> omega
  · rintro (_ | _) - (_ | _) - hne a ⟨hlo, hhi⟩ ⟨hlo', hhi'⟩ <;>
      simp [twoChunks] at hne hlo hhi hlo' hhi' <;> omega

/-- A region with one chunk. -/
def oneChunk (c : Bool) : CkptRegion Bool := ⟨some (.node .black .nil 1 c .nil)⟩

/-- Each of the two chunks in its region. -/
def twoRegions : CkptProc Bool where
  mmapobjTree :=
    some (.node .black (.node .red .nil 1 (oneChunk false) .nil) 2 (oneChunk true) .nil)

/-- A process in which `mprotect` succeeds. -/
def protects : CkptEnv := ⟨1, fun _ => true⟩

theorem completes_twoRegions (b : CkptBuild) (chunkmap : List Bool) :
    twoRegions.Completes b protects chunkmap twoChunks := by
  refine ⟨fun c _ _ => ?_, fun _ _ c _ => ?_⟩
  · cases c <;> decide
  · cases c <;> exact ⟨by decide, by decide, .inl rfl⟩

/-- The asynchronous build saves the dirty chunk and leaves the other one alone. -/
theorem nvChkptAll_copies_twoRegions :
    ∃ ret s', nvChkptAll ⟨true, false⟩ protects (some twoRegions) [true, false] twoChunks =
        some (ret, s') ∧
      s'.nvBytes true = s'.logBytes true ∧ (s'.chunk true).dirty = false ∧
      s'.nvBytes false = twoChunks.nvBytes false := by
  obtain ⟨hreturns, hcopies⟩ := nvChkptAll_copies ⟨true, false⟩ protects twoRegions [true, false]
    twoChunks (ownBuffers_twoChunks _)
  obtain ⟨⟨ret, s'⟩, hcall⟩ := isSome_iff_exists.mp
    (hreturns.mpr (completes_twoRegions _ _))
  obtain ⟨-, -, hdirty⟩ := hcopies ret s' hcall true (by decide)
  obtain ⟨-, -, hclean⟩ := hcopies ret s' hcall false (by decide)
  obtain ⟨hsaved, hflag⟩ := (hdirty rfl).1 rfl
  exact ⟨ret, s', hcall, hsaved, hflag, ((hclean rfl).2 rfl).1⟩

/-! ## The status -/

/-- The dirty flags. -/
def CkptState.flags (s : CkptState ι) : ι → Bool := fun c => (s.chunk c).dirty

/-- The flags after the visit of a chunk. -/
def clearFlag (b : CkptBuild) (d : ι → Bool) (c : ι) : ι → Bool :=
  if b.asyncLclChk then update d c false else d

/-- The flags after the visit of a region. -/
def clearFlags (b : CkptBuild) (d : ι → Bool) (m : CkptRegion ι) : ι → Bool :=
  m.chunks.foldl (clearFlag b) d

/-- The tree of chunks has a node. -/
def CkptRegion.hasChunks (m : CkptRegion ι) : Bool := m.chunkobjTree.any fun t => !t.isNil

/-- The chunk that decides on the status of a region, and the flags when it is reached. -/
def CkptRegion.decider (m : CkptRegion ι) (b : CkptBuild) (d : ι → Bool) :
    Option ((ι → Bool) × ι) :=
  m.chunkobjTree.bind fun t => t.decider (fun d c => b.needs (d c)) (clearFlag b) d

/-- The region that decides on the status of a process, and the flags when it is reached. -/
def CkptProc.decider (p : CkptProc ι) (b : CkptBuild) (d : ι → Bool) :
    Option ((ι → Bool) × CkptRegion ι) :=
  p.mmapobjTree.bind fun root => root.decider (fun _ m => m.hasChunks) (clearFlags b) d

/-- There is a deciding region, and in it a deciding chunk. -/
def CkptProc.decided (p : CkptProc ι) (b : CkptBuild) (d : ι → Bool) : Bool :=
  match p.decider b d with
  | none => false
  | some (d', m) => (m.decider b d').isSome

/-- The status of a region that has chunks. -/
def CkptRegion.status (b : CkptBuild) (d : ι → Bool) (m : CkptRegion ι) : ℤ :=
  if (m.decider b d).isSome then 0 else -1

theorem chkptChunk_flags (h : chkptChunk b c s = some (own, s')) :
    own = (if b.needs (s.flags c) then some 0 else none) ∧ s'.flags = clearFlag b s.flags c := by
  obtain ⟨hclean, rfl, rfl⟩ | ⟨hneeds, rfl, rfl⟩ := chkptChunk_cases h
  · refine ⟨by rw [CkptState.flags, hclean]; rfl, ?_⟩
    unfold clearFlag
    split
    · next hasync =>
      have hflag : s'.flags c = false := by
        simpa [CkptState.flags, CkptBuild.needs, hasync] using hclean
      rw [← hflag, update_eq_self]
    · rfl
  · refine ⟨by rw [CkptState.flags, hneeds]; rfl, ?_⟩
    funext c'
    unfold clearFlag CkptState.flags CkptState.copyChunk
    by_cases heq : c' = c
    · subst heq
      cases b.asyncLclChk <;> simp
    · cases b.asyncLclChk <;> simp [heq]

theorem chkptAllChunks_status {t : RbtreeNode ι} {ret : ℤ} (hnil : t.isNil = false)
    (h : chkptAllChunks b t s = some (ret, s')) :
    ret = CkptRegion.status b s.flags ⟨some t⟩ ∧
      s'.flags = clearFlags b s.flags ⟨some t⟩ := by
  obtain ⟨hret, hflags⟩ := RbtreeNode.statusWalk_status CkptState.flags
    (fun d c => b.needs (d c)) (fun _ _ => 0) (clearFlag b) chkptChunk_flags h
  refine ⟨?_, hflags⟩
  rw [hret hnil, CkptRegion.status, CkptRegion.decider, bind_some]
  cases t.decider (fun d c => b.needs (d c)) (clearFlag b) s.flags <;> rfl

theorem chkptRegion_status {m : CkptRegion ι} (h : chkptRegion b m s = some (own, s')) :
    own = (if m.hasChunks then some (CkptRegion.status b s.flags m) else none) ∧
      s'.flags = clearFlags b s.flags m := by
  obtain ⟨tree⟩ := m
  cases tree with
  | none =>
    cases h
    exact ⟨rfl, rfl⟩
  | some t =>
    simp only [chkptRegion] at h
    split at h
    · next hnil =>
      cases h
      rw [RbtreeNode.eq_nil_of_isNil hnil]
      exact ⟨rfl, rfl⟩
    · next hnil =>
      have hnil := Bool.eq_false_of_not_eq_true hnil
      obtain ⟨⟨ret, s₁⟩, hwalk, heq⟩ := map_eq_some_iff.mp h
      cases heq
      obtain ⟨hret, hflags⟩ := chkptAllChunks_status hnil hwalk
      rw [hret]
      exact ⟨by simp [CkptRegion.hasChunks, hnil], hflags⟩

/-- `nv_chkpt_all` returns 0 exactly when a chunk decides. -/
theorem nvChkptAll_status {p : CkptProc ι} {chunkmap : List ι} {ret : ℤ} (hreg : p.regions ≠ [])
    (h : nvChkptAll b env (some p) chunkmap s = some (ret, s')) :
    ret = 0 ↔ p.decided b s.flags = true := by
  obtain ⟨root, hroot, hnil, hcall⟩ := nvChkptAll_of_regions hreg b env chunkmap s
  rw [hcall] at h
  obtain ⟨⟨ret₁, s₁⟩, hwalk, h⟩ := bind_eq_some_iff.mp h
  obtain ⟨s₂, -, hret⟩ := map_eq_some_iff.mp h
  cases hret
  obtain ⟨hret₁, -⟩ := RbtreeNode.statusWalk_status CkptState.flags (fun _ m => m.hasChunks)
    (CkptRegion.status b) (clearFlags b) chkptRegion_status hwalk
  have hzero : (if ret₁ = 0 then ret₁ else -1) = 0 ↔ ret₁ = 0 := by split <;> simp_all
  rw [hzero, hret₁ hnil, CkptProc.decided, CkptProc.decider, hroot, bind_some]
  cases root.decider (fun _ m => m.hasChunks) (clearFlags b) s.flags with
  | none => simp
  | some r =>
    simp only [map_some, getD_some, CkptRegion.status]
    split <;> simp_all

/-- The status is 0 whenever every chunk that needed copying was copied. -/
def StatusTruthful (b : CkptBuild) (env : CkptEnv) (p : CkptProc ι) (chunkmap : List ι)
    (s : CkptState ι) : Prop :=
  ∀ ret s', nvChkptAll b env (some p) chunkmap s = some (ret, s') →
    (∀ c ∈ p.chunks, b.needs (s.chunk c).dirty = true → s'.Saved c) → ret = 0

theorem StatusTruthful.decided {p : CkptProc ι} {chunkmap : List ι}
    (h : StatusTruthful b env p chunkmap s) (hreg : p.regions ≠ [])
    (hown : OwnBuffers s p.chunks) (hcompletes : p.Completes b env chunkmap s) :
    p.decided b s.flags = true := by
  obtain ⟨⟨ret, s'⟩, hcall⟩ := isSome_iff_exists.mp (isSome_nvChkptAll.mpr hcompletes)
  refine (nvChkptAll_status hreg hcall).mp (h ret s' hcall fun c hc hn => ?_)
  obtain ⟨s₁, hck, hprot⟩ := nvChkptAll_states hcall
  rw [CkptState.Saved, hprot.nvBytes, hprot.logBytes]
  exact hck.saved hown c hc hn

/-- A checkpoint that returns has copied every chunk that needed it, so its status is truthful
exactly when it is 0: when from the root of the tree of regions, going to the left while possible
and from a region without chunks to the right, one comes to a region with chunks, and the same way
in its tree of chunks leads to a chunk that is still to be copied when it is reached. -/
theorem statusTruthful_iff (b : CkptBuild) (env : CkptEnv) (p : CkptProc ι) (chunkmap : List ι)
    (s : CkptState ι) (hreg : p.regions ≠ []) (hown : OwnBuffers s p.chunks) :
    StatusTruthful b env p chunkmap s ↔
      (p.Completes b env chunkmap s → p.decided b s.flags = true) := by
  constructor
  · exact fun htruthful => htruthful.decided hreg hown
  · intro hdecided ret s' hcall _
    refine (nvChkptAll_status hreg hcall).mpr (hdecided (isSome_nvChkptAll.mp ?_))
    rw [hcall]
    rfl

/-- The synchronous build reports the success on two regions with a chunk each. -/
theorem statusTruthful_twoRegions :
    StatusTruthful ⟨false, false⟩ protects twoRegions [] twoChunks :=
  (statusTruthful_iff _ _ _ _ _ (by decide) (ownBuffers_twoChunks _)).mpr fun _ => by decide

/-- A region with a chunk, and to the left of it one whose chunks were all deleted. -/
def emptiedRegion : CkptProc Bool where
  mmapobjTree := some (.node .black (.node .red .nil 1 ⟨some .nil⟩ .nil) 2 (oneChunk true) .nil)

/-- Both builds copy all they have to and report a failure: the synchronous one when the leftmost
region is empty, the asynchronous one when its chunk is clean. -/
theorem not_statusTruthful :
    ¬ StatusTruthful ⟨false, false⟩ protects emptiedRegion [true] twoChunks ∧
      ¬ StatusTruthful ⟨true, false⟩ protects twoRegions [true, false] twoChunks := by
  constructor
  · intro h
    have hcompletes : emptiedRegion.Completes ⟨false, false⟩ protects [true] twoChunks :=
      ⟨fun c _ _ => by cases c <;> decide, fun _ hasync => by cases hasync⟩
    exact absurd (h.decided (by decide) (ownBuffers_twoChunks _) hcompletes) (by decide)
  · intro h
    exact absurd (h.decided (by decide) (ownBuffers_twoChunks _) (completes_twoRegions _ _))
      (by decide)

end Walk
