/-
# The asynchronous local checkpointer

The checkpointer copies dirty chunks from their DRAM buffers to persistent memory while
the application runs.  It notices stores by page protection: a store to a protected page
faults, and the handler sets the dirty flag and takes the protection off.

`copy_dirty_chunk` clears the flag, copies, and only then protects the buffer again, so
a store between the copy and the protection is not noticed.  `set_protection` moreover
starts at the next page boundary, even when the buffer itself starts at one, so the
first page of a buffer is never protected.
-/
import NvMalloc.Runs

open Function

/-- Where `copy_dirty_chunk` is with a chunk. -/
inductive CopyPhase
  | idle
  | cleared
  | copied
  deriving DecidableEq, Repr

/-- The fields of a `chunkobj_s` that the checkpointer uses, the contents of its two
buffers, and whether the DRAM buffer is protected. -/
structure AsyncChunk where
  length : ℕ
  logPtr : ℕ
  logptrSz : ℕ
  dirty : Bool
  prot : Bool
  log : ℕ → UInt8
  nv : ℕ → UInt8
  phase : CopyPhase := .idle

/-- `MIN_ASYNC_DATA_LEN`. -/
def minAsyncDataLen : ℕ := 2 * 1024 * 1024

/-- The address from which `set_protection` protects. -/
def protStart (addr : ℕ) : ℕ := addr + (4096 - addr % 4096)

/-- The number of bytes that `set_protection` protects; the difference is a `size_t`. -/
def protLen (addr len : ℕ) : ℕ :=
  let protectLen := (len + 2 ^ 64 - (4096 - addr % 4096)) % 2 ^ 64
  protectLen - protectLen % 4096

namespace AsyncChunk

/-- Byte `off` of the buffer lies on a page that `set_protection` covers. -/
def Covered (ch : AsyncChunk) (off : ℕ) : Prop :=
  protStart ch.logPtr ≤ ch.logPtr + off ∧
    ch.logPtr + off < protStart ch.logPtr + protLen ch.logPtr ch.logptrSz

instance (ch : AsyncChunk) (off : ℕ) : Decidable (ch.Covered off) := instDecidableAnd

/-- The persistent copy is up to date. -/
def Saved (ch : AsyncChunk) : Prop := ∀ i, i < ch.length → ch.nv i = ch.log i

/-- `memcpy` of the whole chunk to persistent memory. -/
def memcpy (ch : AsyncChunk) : AsyncChunk :=
  { ch with nv := fun i => if i < ch.length then ch.log i else ch.nv i }

/-- A store of the application.  On a protected page it goes through
`remove_chunk_prot` first. -/
def store (ch : AsyncChunk) (off : ℕ) (b : UInt8) : AsyncChunk :=
  if ch.prot = true ∧ ch.Covered off then
    { ch with dirty := true, prot := false, log := update ch.log off b }
  else { ch with log := update ch.log off b }

/-- The checks at the start of `copy_dirty_chunk`, which clear the dirty flag of a chunk
that is going to be copied. -/
def startCopy (ch : AsyncChunk) : AsyncChunk :=
  if ch.dirty = false then ch
  else if ch.length < minAsyncDataLen then { ch with dirty := true }
  else { ch with dirty := false, phase := .cleared }

/-- What `chkpt_all_chunks` does to a chunk. -/
def chkpt (ch : AsyncChunk) : AsyncChunk :=
  if ch.dirty = true then { ch with dirty := false }.memcpy else ch

end AsyncChunk

section Steps

variable {ι : Type} [DecidableEq ι]

/-- The steps of the application and of the checkpointer. -/
inductive AsyncOp (ι : Type)
  | store (c : ι) (off : ℕ) (b : UInt8)
  | startCopy (c : ι)
  | copy (c : ι)
  | protect (c : ι)

/-- The chunk that a step is about. -/
def AsyncOp.chunk : AsyncOp ι → ι
  | .store c _ _ => c
  | .startCopy c => c
  | .copy c => c
  | .protect c => c

/-- What a step does to its chunk.  The steps of `copy_dirty_chunk` come in their order. -/
def chunkStep (ch : AsyncChunk) : AsyncOp ι → Option AsyncChunk
  | .store _ off b => some (ch.store off b)
  | .startCopy _ => if ch.phase = .idle then some ch.startCopy else none
  | .copy _ => if ch.phase = .cleared then some { ch.memcpy with phase := .copied } else none
  | .protect _ => if ch.phase = .copied then some { ch with prot := true, phase := .idle } else none

/-- One step, over all chunks. -/
def asyncStep (st : ι → AsyncChunk) (op : AsyncOp ι) : Option (Unit × (ι → AsyncChunk)) :=
  (chunkStep (st op.chunk) op).map fun ch => ((), update st op.chunk ch)

/-- Stores come at a time, and go to a page, at which they are noticed. -/
def InTime (st : ι → AsyncChunk) : AsyncOp ι → Prop
  | .store c off _ => ((st c).prot = true → (st c).Covered off) ∧ (st c).phase ≠ .copied
  | _ => True

/-- Between two copies a chunk is dirty, or protected and saved; after a copy it is
saved. -/
def AsyncChunk.Watched (ch : AsyncChunk) : Prop :=
  match ch.phase with
  | .idle => ch.dirty = true ∨ ch.prot = true ∧ ch.Saved
  | .cleared => True
  | .copied => ch.Saved

/-- Every chunk that is not being copied is dirty or saved, so the next checkpoint makes
every store durable. -/
def NoWriteLost (st : ι → AsyncChunk) : Prop :=
  ∀ c, (st c).phase = .idle → ((st c).dirty = true ∨ (st c).Saved) ∧ (st c).chkpt.Saved

theorem AsyncChunk.saved_memcpy (ch : AsyncChunk) : ch.memcpy.Saved := by
  intro i hi
  exact if_pos hi

theorem AsyncChunk.Watched.noWriteLost {ch : AsyncChunk} (h : ch.Watched)
    (hidle : ch.phase = .idle) :
    (ch.dirty = true ∨ ch.Saved) ∧ ch.chkpt.Saved := by
  rw [AsyncChunk.Watched, hidle] at h
  refine ⟨h.imp_right And.right, ?_⟩
  rw [AsyncChunk.chkpt]
  split
  · exact AsyncChunk.saved_memcpy _
  · rename_i hclean
    exact (h.resolve_left hclean).2

omit [DecidableEq ι] in
/-- One step keeps its chunk watched. -/
theorem AsyncChunk.Watched.step {ch ch' : AsyncChunk} (h : ch.Watched) {op : AsyncOp ι}
    (hop : ∀ c off b, op = .store c off b → (ch.prot = true → ch.Covered off) ∧ ch.phase ≠ .copied)
    (hstep : chunkStep ch op = some ch') : ch'.Watched := by
  cases op with
  | store c off b =>
    cases hstep
    obtain ⟨hcov, hphase⟩ := hop c off b rfl
    rw [AsyncChunk.store]
    split
    · rename_i hfault
      cases hp : ch.phase with
      | idle => simp [AsyncChunk.Watched]
      | cleared => simp [AsyncChunk.Watched]
      | copied => exact absurd hp hphase
    · rename_i hquiet
      -- the buffer is not protected, so the chunk is dirty already
      have hunprot : ¬ ch.prot = true := fun hprot => hquiet ⟨hprot, hcov hprot⟩
      cases hp : ch.phase with
      | idle =>
        simp only [AsyncChunk.Watched, hp] at h ⊢
        exact Or.inl (h.resolve_right fun hsaved => hunprot hsaved.1)
      | cleared => simp [AsyncChunk.Watched]
      | copied => exact absurd hp hphase
  | startCopy c =>
    rw [chunkStep] at hstep
    split at hstep
    · cases hstep
      rename_i hidle
      rw [AsyncChunk.startCopy]
      split
      · exact h
      · split
        · simp [AsyncChunk.Watched, hidle]
        · exact trivial
    · cases hstep
  | copy c =>
    rw [chunkStep] at hstep
    split at hstep
    · cases hstep
      exact ch.saved_memcpy
    · cases hstep
  | protect c =>
    rw [chunkStep] at hstep
    split at hstep
    · cases hstep
      rename_i hcopied
      rw [AsyncChunk.Watched, hcopied] at h
      exact Or.inr ⟨rfl, h⟩
    · cases hstep

theorem asyncStep_watched {st st' : ι → AsyncChunk} (h : ∀ c, (st c).Watched) {op : AsyncOp ι}
    (hop : InTime st op) {u : Unit} (hstep : asyncStep st op = some (u, st')) :
    ∀ c, (st' c).Watched := by
  obtain ⟨ch, hch, heq⟩ := Option.map_eq_some_iff.mp hstep
  cases heq
  intro c
  by_cases hc : c = op.chunk
  · subst hc
    rw [update_self]
    refine (h op.chunk).step ?_ hch
    rintro c off b rfl
    exact hop
  · rw [update_of_ne hc]
    exact h c

end Steps

/-- **No write is lost** by the asynchronous checkpointer, over any interleaving and any
number of rounds and chunks, as long as no store falls between a copy and the protection
that follows it, and none goes to a page of a protected buffer that is not covered. -/
theorem noWriteLost_of_inTime {ι : Type} [DecidableEq ι] (st : ι → AsyncChunk)
    (hstart : ∀ c, (st c).Watched) (ops : List (AsyncOp ι)) (hops : Along asyncStep InTime ops st)
    {rs : List Unit} {st' : ι → AsyncChunk} (hrun : runSteps asyncStep ops st = some (rs, st')) :
    NoWriteLost st' := by
  have hkeep : ∀ c, (st' c).Watched :=
    runSteps_inv_of_some (fun h hop hstep => asyncStep_watched h hop hstep) hstart hops hrun
  exact fun c hidle => (hkeep c).noWriteLost hidle

/-- A chunk of 2 MB, protected and saved. -/
def watchedChunk : AsyncChunk :=
    ⟨2097152, 4096, 2097152, false, true, fun _ => 0, fun _ => 0, .idle⟩

theorem watched_watchedChunk : watchedChunk.Watched := Or.inr ⟨rfl, fun _ _ => rfl⟩

/-- A store that faults, and a round of the checkpointer. -/
def quietRound : List (AsyncOp Unit) := [.store () 4096 7, .startCopy (), .copy (), .protect ()]

theorem noWriteLost_quietRound : ∃ rs st',
    runSteps asyncStep quietRound (fun _ => watchedChunk) = some (rs, st') ∧ NoWriteLost st' := by
  have hrun : (runSteps asyncStep quietRound fun _ => watchedChunk).isSome = true := by
    decide +kernel
  obtain ⟨⟨rs, st'⟩, hrun⟩ := Option.isSome_iff_exists.mp hrun
  refine ⟨rs, st', hrun, noWriteLost_of_inTime _ (fun _ => watched_watchedChunk) quietRound ?_ hrun⟩
  refine ⟨⟨fun _ => by decide +kernel, by decide⟩, fun _ _ _ => ?_⟩
  exact ⟨trivial, fun _ _ _ => ⟨trivial, fun _ _ _ => ⟨trivial, fun _ _ _ => trivial⟩⟩⟩

/-- A second store, between the copy and the protection. -/
def lateStore : List (AsyncOp Unit) :=
  [.store () 4096 7, .startCopy (), .copy (), .store () 4096 8, .protect ()]

/-- The second store is not noticed: the chunk is neither dirty nor saved. -/
theorem not_noWriteLost_lateStore : watchedChunk.Watched ∧ ∃ rs st',
    runSteps asyncStep lateStore (fun _ => watchedChunk) = some (rs, st') ∧ ¬ NoWriteLost st' := by
  refine ⟨watched_watchedChunk, ?_⟩
  have hend : (runSteps asyncStep lateStore fun _ => watchedChunk).map (fun x =>
      ((x.2 ()).phase, (x.2 ()).dirty, (x.2 ()).length, (x.2 ()).nv 4096, (x.2 ()).log 4096)) =
      some (.idle, false, 2097152, 7, 8) := by
    decide +kernel
  obtain ⟨⟨rs, st'⟩, hrun, heq⟩ := Option.map_eq_some_iff.mp hend
  simp only [Prod.mk.injEq] at heq
  obtain ⟨hphase, hdirty, hlen, hnv, hlog⟩ := heq
  refine ⟨rs, st', hrun, fun hlost => ?_⟩
  rcases (hlost () hphase).1 with hd | hsaved
  · rw [hdirty] at hd
    cases hd
  · have h4096 := hsaved 4096 (by rw [hlen]; decide)
    rw [hnv, hlog] at h4096
    exact absurd h4096 (by decide)
