/-
# A bin and its lock

A bin hands out regions from its current run and keeps the other runs with free regions in a tree.
When it has none it gives its lock back, gets a run from the arena and takes the lock again; another
thread may have given the bin a current run in the meantime.  A run without regions in use leaves
the bin and goes back to the arena without the lock.

`BinSys` is a bin with all threads that are between two lock regions: those that wait for a run,
those that got one or failed, and those that give one back.  The operations are what happens under
the lock once, so a run of operations is any interleaving of any number of threads.  No assertion
fails in it, no region is handed out twice, and no run is lost (`bin_regions_of_run`).
-/
import NvMalloc.RunRegions

open Function Finset

namespace Jemalloc

/-! ## Code -/

/-- `arena_bin_t`, with the headers of the runs by their addresses, and for every page its place in
the run it belongs to, from the page map.  The tree of runs is the set of their addresses. -/
structure Bin where
  runcur : Option ℕ
  runs : Finset ℕ
  headers : ℕ → RunHeader
  runind : ℕ → ℕ

namespace Bin

def setHeader (b : Bin) (run : ℕ) (h : RunHeader) : Bin :=
  { b with headers := update b.headers run h }

/-- `arena_bin_runs_insert`. -/
def runsInsert (b : Bin) (run : ℕ) : Option Bin :=
  if run ∈ b.runs then none else some { b with runs := insert run b.runs }

/-- `arena_bin_runs_remove`. -/
def runsRemove (b : Bin) (run : ℕ) : Option Bin :=
  if run ∈ b.runs then some { b with runs := b.runs.erase run } else none

/-- `arena_bin_nonfull_run_tryget`: the lowest run of the tree. -/
def nonfullRunTryget (b : Bin) : Option ℕ × Bin :=
  if h : b.runs.Nonempty then
    (some (b.runs.min' h), { b with runs := b.runs.erase (b.runs.min' h) })
  else (none, b)

/-- `bin->runcur != NULL && bin->runcur->nfree > 0`. -/
def usable (b : Bin) : Option ℕ := b.runcur.filter fun run => decide (0 < (b.headers run).nfree)

/-- A region of a run. -/
def regAlloc (info : BinInfo) (b : Bin) (run : ℕ) : Option (ℕ × Bin) := do
  let (ptr, h) ← arenaRunRegAlloc info run (b.headers run)
  some (ptr, b.setHeader run h)

/-- `arena_bin_lower_run`; `NULL` is below every run. -/
def lowerRun (b : Bin) (run : ℕ) : Option Bin :=
  match b.runcur with
  | some cur =>
    if run < cur then do
      let b ← if 0 < (b.headers cur).nfree then b.runsInsert cur else some b
      some { b with runcur := some run }
    else b.runsInsert run
  | none => b.runsInsert run

/-- `arena_dissociate_bin_run`: a run with one region is never in the tree. -/
def dissociateBinRun (info : BinInfo) (b : Bin) (run : ℕ) : Option Bin :=
  if b.runcur = some run then some { b with runcur := none }
  else if info.nregs ≠ 1 then b.runsRemove run
  else some b

/-- `arena_dalloc_bin_run`, up to the place where the lock is given back. -/
def dallocBinRun (b : Bin) (run : ℕ) : Option Bin := do
  guard (b.runcur ≠ some run ∧ run ∉ b.runs)
  some b

end Bin

/-- What `arena_malloc_small` does under the lock: it returns, perhaps with a run to give back, or
it gives the lock back to get a run. -/
inductive Malloced : Type where
  | ret (ptr back : Option ℕ)
  | unlocked
deriving DecidableEq, Repr

/-- The rest of `arena_bin_malloc_hard` after `arena_bin_nonfull_run_get` returned `run`. -/
def arenaBinMallocHard (info : BinInfo) (b : Bin) (run : Option ℕ) : Option (Malloced × Bin) :=
  match b.usable with
  | some cur => do
    let (ptr, b) ← b.regAlloc info cur
    match run with
    | none => some (.ret (some ptr) none, b)
    | some run =>
      if (b.headers run).nfree = info.nregs then do
        let b ← b.dallocBinRun run
        some (.ret (some ptr) (some run), b)
      else do
        let b ← b.lowerRun run
        some (.ret (some ptr) none, b)
  | none =>
    match run with
    | none => some (.ret none none, b)
    | some run => do
      let (ptr, b) ← ({ b with runcur := some run }).regAlloc info run
      some (.ret (some ptr) none, b)

/-- `arena_malloc_small`, up to the place where the lock is given back. -/
def arenaMallocSmall (info : BinInfo) (b : Bin) : Option (Malloced × Bin) :=
  match b.usable with
  | some cur => (b.regAlloc info cur).map fun x => (.ret (some x.1) none, x.2)
  | none =>
    match ({ b with runcur := none }).nonfullRunTryget with
    | (some run, b) => arenaBinMallocHard info b (some run)
    | (none, b) => some (.unlocked, b)

/-- `arena_dalloc_bin_locked`: the result is the run that leaves the bin, if there is one. -/
def arenaDallocBin (info : BinInfo) (b : Bin) (ptr : ℕ) : Option (Option ℕ × Bin) := do
  let run := (ptr / page - b.runind (ptr / page)) * page
  let h ← arenaRunRegDalloc info run (b.headers run) ptr
  let b := b.setHeader run h
  if h.nfree = info.nregs then do
    let b ← b.dissociateBinRun info run
    let b ← b.dallocBinRun run
    some (some run, b)
  else if h.nfree = 1 ∧ b.runcur ≠ some run then do
    let b ← b.lowerRun run
    some (none, b)
  else some (none, b)

/-! ## Threads -/

/-- A bin and the threads between two lock regions: `waiting` threads wait for a run, `failed` got
none, `fresh` are the runs that threads got, and `leaving` those that threads give back.  `held` are
all runs of the bin, and `live` are the regions that were handed out. -/
structure BinSys where
  bin : Bin
  waiting : ℕ
  failed : ℕ
  fresh : Finset ℕ
  leaving : Finset ℕ
  held : Finset ℕ
  live : Finset ℕ

/-- What happens without an interruption. -/
inductive BinOp : Type where
  /-- A call of `arena_malloc_small`. -/
  | malloc
  /-- `arena_run_alloc` returns for a waiting thread, which initializes the run; `old` is the memory
  of the bitmap. -/
  | newRun (run : Option ℕ) (old : Groups)
  /-- A thread takes the lock again with what `arena_run_alloc` returned. -/
  | resume (run : Option ℕ)
  /-- A call of `arena_dalloc_bin`. -/
  | free (ptr : ℕ)
  /-- `arena_run_dalloc` for a run that left the bin. -/
  | gone (run : ℕ)

namespace BinSys

/-- What is known after a call of the functions above. -/
def returned (s : BinSys) (b : Bin) : Malloced → BinSys
  | .ret ptr back =>
    { s with bin := b, live := s.live ∪ ptr.toFinset, leaving := s.leaving ∪ back.toFinset }
  | .unlocked => { s with bin := b, waiting := s.waiting + 1 }

/-- The entries of the page map of a new run, as `arena_run_split` writes them. -/
def runindOf (info : BinInfo) (old : ℕ → ℕ) (run : ℕ) : ℕ → ℕ := fun i =>
  if run / page ≤ i ∧ i < run / page + info.runSize / page then i - run / page else old i

def step (info : BinInfo) (s : BinSys) : BinOp → Option (Malloced × BinSys)
  | .malloc => (arenaMallocSmall info s.bin).map fun x => (x.1, s.returned x.2 x.1)
  | .newRun none _ =>
    some (.ret none none, { s with waiting := s.waiting - 1, failed := s.failed + 1 })
  | .newRun (some run) old =>
    some (.ret none none, { s with
      bin := { s.bin.setHeader run (RunHeader.init info old) with
        runind := runindOf info s.bin.runind run }
      waiting := s.waiting - 1
      fresh := insert run s.fresh
      held := insert run s.held })
  | .resume none =>
    let x := s.bin.nonfullRunTryget
    let s := { s with failed := s.failed - 1 }
    (arenaBinMallocHard info x.2 x.1).map fun x => (x.1, s.returned x.2 x.1)
  | .resume (some run) =>
    let s := { s with fresh := s.fresh.erase run }
    (arenaBinMallocHard info s.bin (some run)).map fun x => (x.1, s.returned x.2 x.1)
  | .free ptr =>
    (arenaDallocBin info s.bin ptr).map fun x => (.ret none x.1,
      { s with bin := x.2, live := s.live.erase ptr, leaving := s.leaving ∪ x.1.toFinset })
  | .gone run =>
    some (.ret none none, { s with leaving := s.leaving.erase run, held := s.held.erase run })

/-- An operation that can happen: threads go on with what they got, the arena hands out pages that
are not in use, and a pointer is freed that was handed out. -/
def OpOk (info : BinInfo) (s : BinSys) : BinOp → Prop
  | .malloc => True
  | .newRun none _ => 0 < s.waiting
  | .newRun (some run) _ => 0 < s.waiting ∧ page ∣ run ∧
    ∀ r ∈ s.held, run + info.runSize ≤ r ∨ r + info.runSize ≤ run
  | .resume none => 0 < s.failed
  | .resume (some run) => run ∈ s.fresh
  | .free ptr => ptr ∈ s.live
  | .gone run => run ∈ s.leaving

/-- A pointer that is returned was not in use. -/
def New (s : BinSys) : Malloced → Prop
  | .ret ptr _ => ∀ p ∈ ptr, p ∉ s.live
  | .unlocked => True

/-- The run is one of the bin and no thread has it. -/
def Shared (s : BinSys) (r : ℕ) : Prop := r ∈ s.held ∧ r ∉ s.fresh ∧ r ∉ s.leaving

/-- A bin without runs. -/
def init (headers : ℕ → RunHeader) (runind : ℕ → ℕ) : BinSys :=
  ⟨⟨none, ∅, headers, runind⟩, 0, 0, ∅, ∅, ∅, ∅⟩

end BinSys

/-! ## The invariant -/

/-- What holds of the bin `bi` when its lock is free and `hand` is `none`; `used` are the regions in
use of each run.  While a thread has the lock, `hand` may be a run that it took and that is neither
current nor in the tree. -/
structure BinInv (c : Config) (bi : ℕ) (s : BinSys) (hand : Option ℕ) (used : ℕ → Finset ℕ) :
    Prop where
  dvd : ∀ r ∈ s.held, page ∣ r
  apart : ∀ r ∈ s.held, ∀ r' ∈ s.held, r ≠ r' →
    r + (arenaBinInfo c bi).runSize ≤ r' ∨ r' + (arenaBinInfo c bi).runSize ≤ r
  runind : ∀ r ∈ s.held, ∀ j < (arenaBinInfo c bi).runSize / page, s.bin.runind (r / page + j) = j
  rep : ∀ r ∈ s.held, RunRep (arenaBinInfo c bi) (s.bin.headers r) (used r)
  fresh : ∀ r ∈ s.fresh, r ∈ s.held ∧ used r = ∅ ∧ r ∉ s.leaving
  leaving : ∀ r ∈ s.leaving, r ∈ s.held ∧ used r = ∅
  nonempty : ∀ r, s.Shared r → hand ≠ some r → used r ≠ ∅
  cur : ∀ r, s.bin.runcur = some r → s.Shared r ∧ hand ≠ some r
  tree : ∀ r, r ∈ s.bin.runs ↔ s.Shared r ∧ hand ≠ some r ∧ s.bin.runcur ≠ some r ∧
    used r ≠ range (arenaBinInfo c bi).nregs
  hand : ∀ r, hand = some r → s.Shared r ∧ used r ≠ range (arenaBinInfo c bi).nregs
  live : ∀ p, p ∈ s.live ↔ ∃ r ∈ s.held, ∃ k ∈ used r, p = (arenaBinInfo c bi).region r k

section Bins

variable {c : Config} {bi r k : ℕ} {s : BinSys} {hand : Option ℕ} {used : ℕ → Finset ℕ}

/-- Where a region of a run is. -/
theorem region_within (hb : bi < nbins) (hk : k < (arenaBinInfo c bi).nregs) (r : ℕ) :
    r + runHeaderSize ≤ (arenaBinInfo c bi).region r k ∧
      (arenaBinInfo c bi).region r k + regSize bi ≤ r + (arenaBinInfo c bi).runSize ∧
      0 < regSize bi := by
  have hok := layoutOk_arenaBinInfo c hb
  obtain ⟨hlow, hhigh, -⟩ := hok.region_bounds r hk
  have := hok.header
  exact ⟨by omega, hok.regSize_eq ▸ hhigh, (isClass_regSize bi hb).pos⟩

/-- Different regions of a run do not overlap. -/
theorem region_apart (hb : bi < nbins) {k' : ℕ} (hk : k < (arenaBinInfo c bi).nregs) (hlt : k < k')
    (r : ℕ) :
    (arenaBinInfo c bi).region r k + regSize bi ≤ (arenaBinInfo c bi).region r k' := by
  have hok := layoutOk_arenaBinInfo c hb
  obtain ⟨-, -, hnext⟩ := hok.region_bounds r hk
  rw [hok.regSize_eq] at hnext
  exact hnext.trans ((arenaBinInfo c bi).region_mono r hlt)

theorem BinSys.returned_ret_some (b : Bin) (p : ℕ) (back : Option ℕ) :
    s.returned b (.ret (some p) back) =
      { s with bin := b, live := insert p s.live, leaving := s.leaving ∪ back.toFinset } := by
  simp [BinSys.returned]

theorem BinSys.returned_ret_none (b : Bin) :
    s.returned b (.ret none none) = { s with bin := b } := by
  simp [BinSys.returned]

/-- The runs that a pointer still shows after `r` was taken: it showed another run. -/
theorem eq_some_iff_of_ne {o : Option ℕ} (h : o ≠ some r) (r' : ℕ) :
    o = some r' ↔ o = some r' ∧ r' ≠ r :=
  ⟨fun ho => ⟨ho, fun heq => h (heq ▸ ho)⟩, And.left⟩

/-- The runs that a pointer still shows after `r` was taken: it showed `r` and is `NULL`. -/
theorem none_iff_of_eq {o : Option ℕ} (h : o = some r) (r' : ℕ) :
    none = some r' ↔ o = some r' ∧ r' ≠ r :=
  ⟨nofun, fun ⟨ho, hne⟩ => absurd (Option.some.inj (ho.symm.trans h)) hne⟩

namespace BinInv

theorem lt (hb : bi < nbins) (h : BinInv c bi s hand used) (hr : r ∈ s.held) (hk : k ∈ used r) :
    k < (arenaBinInfo c bi).nregs :=
  (h.rep r hr).lt hb hk

variable {r' : ℕ} {h' : RunHeader}

/-- Regions of the runs do not overlap, unless they are the same. -/
theorem regions_apart (hb : bi < nbins) (h : BinInv c bi s hand used) {k' : ℕ} (hr : r ∈ s.held)
    (hk : k < (arenaBinInfo c bi).nregs) (hr' : r' ∈ s.held) (hk' : k' < (arenaBinInfo c bi).nregs)
    (hne : ¬ (r = r' ∧ k = k')) :
    (arenaBinInfo c bi).region r k + regSize bi ≤ (arenaBinInfo c bi).region r' k' ∨
      (arenaBinInfo c bi).region r' k' + regSize bi ≤ (arenaBinInfo c bi).region r k := by
  by_cases hrr : r = r'
  · subst hrr
    rcases Nat.lt_or_gt_of_ne fun hkk => hne ⟨rfl, hkk⟩ with hkk | hkk
    · exact .inl (region_apart hb hk hkk r)
    · exact .inr (region_apart hb hk' hkk r)
  · obtain ⟨hlow, hhigh, -⟩ := region_within (c := c) hb hk r
    obtain ⟨hlow', hhigh', -⟩ := region_within (c := c) hb hk' r'
    rcases h.apart r hr r' hr' hrr with hle | hle
    · exact .inl (by omega)
    · exact .inr (by omega)

/-- A region belongs to one run and has one index there. -/
theorem region_inj (hb : bi < nbins) (h : BinInv c bi s hand used) {k' : ℕ} (hr : r ∈ s.held)
    (hk : k < (arenaBinInfo c bi).nregs) (hr' : r' ∈ s.held) (hk' : k' < (arenaBinInfo c bi).nregs)
    (heq : (arenaBinInfo c bi).region r k = (arenaBinInfo c bi).region r' k') :
    r = r' ∧ k = k' := by
  by_contra hne
  have := (isClass_regSize bi hb).pos
  rcases h.regions_apart hb hr hk hr' hk' hne with hle | hle <;> omega

theorem region_notMem_live (hb : bi < nbins) (h : BinInv c bi s hand used) (hr : r ∈ s.held)
    (hk : k < (arenaBinInfo c bi).nregs) (hno : k ∉ used r) :
    (arenaBinInfo c bi).region r k ∉ s.live := by
  rw [h.live]
  rintro ⟨r', hr', k', hk', heq⟩
  obtain ⟨rfl, rfl⟩ := h.region_inj hb hr hk hr' (h.lt hb hr' hk') heq
  exact hno hk'

theorem shared_of_mem (h : BinInv c bi s hand used) (hr : r ∈ s.held) (hk : k ∈ used r) :
    s.Shared r := by
  refine ⟨hr, ?_, ?_⟩
  · intro hf
    rw [(h.fresh r hf).2.1] at hk
    cases hk
  · intro hl
    rw [(h.leaving r hl).2] at hk
    cases hk

/-- The current run, if it has a free region. -/
theorem usable_eq_some (hb : bi < nbins) (h : BinInv c bi s hand used)
    (hu : s.bin.usable = some r) :
    s.bin.runcur = some r ∧ used r ≠ range (arenaBinInfo c bi).nregs := by
  rw [Bin.usable, Option.filter_eq_some_iff] at hu
  obtain ⟨hcur, hfree⟩ := hu
  refine ⟨hcur, ((h.rep r (h.cur r hcur).1.1).nfree_pos_iff hb).mp ?_⟩
  simpa using hfree

theorem usable_eq_none (hb : bi < nbins) (h : BinInv c bi s hand used) (hu : s.bin.usable = none)
    (hcur : s.bin.runcur = some r) : used r = range (arenaBinInfo c bi).nregs := by
  by_contra hne
  have hpos := ((h.rep r (h.cur r hcur).1.1).nfree_pos_iff hb).mpr hne
  rw [Bin.usable, hcur] at hu
  simp [Option.filter, hpos] at hu

/-! ## One run changes -/

section

variable (h : BinInv c bi s hand used)
include h

theorem rep_update {A : Finset ℕ} (hrep : RunRep (arenaBinInfo c bi) h' A) (hr' : r' ∈ s.held) :
    RunRep (arenaBinInfo c bi) (update s.bin.headers r h' r') (update used r A r') := by
  by_cases hne : r' = r
  · subst hne
    rw [update_self, update_self]
    exact hrep
  · rw [update_of_ne hne, update_of_ne hne]
    exact h.rep r' hr'

/-- The runs that threads have are other runs. -/
theorem fresh_update (hr : s.Shared r) (A : Finset ℕ) (hr' : r' ∈ s.fresh) :
    r' ∈ s.held ∧ update used r A r' = ∅ ∧ r' ∉ s.leaving := by
  have hne : r' ≠ r := fun heq => hr.2.1 (heq ▸ hr')
  rw [update_of_ne hne]
  exact h.fresh r' hr'

theorem leaving_update (hr : s.Shared r) (A : Finset ℕ) (hr' : r' ∈ s.leaving) :
    r' ∈ s.held ∧ update used r A r' = ∅ := by
  have hne : r' ≠ r := fun heq => hr.2.2 (heq ▸ hr')
  rw [update_of_ne hne]
  exact h.leaving r' hr'

theorem mem_insert_live (hr : r ∈ s.held) (p : ℕ) :
    p ∈ insert ((arenaBinInfo c bi).region r k) s.live ↔
      ∃ r' ∈ s.held, ∃ k' ∈ update used r (insert k (used r)) r',
        p = (arenaBinInfo c bi).region r' k' := by
  rw [mem_insert, h.live]
  constructor
  · rintro (rfl | ⟨r', hr', k', hk', rfl⟩)
    · exact ⟨r, hr, k, by rw [update_self]; exact mem_insert_self _ _, rfl⟩
    · refine ⟨r', hr', k', ?_, rfl⟩
      by_cases hne : r' = r
      · subst hne
        rw [update_self]
        exact mem_insert_of_mem hk'
      · rwa [update_of_ne hne]
  · rintro ⟨r', hr', k', hk', rfl⟩
    by_cases hne : r' = r
    · subst hne
      rw [update_self] at hk'
      rcases mem_insert.mp hk' with rfl | hk'
      · exact .inl rfl
      · exact .inr ⟨r', hr', k', hk', rfl⟩
    · rw [update_of_ne hne] at hk'
      exact .inr ⟨r', hr', k', hk', rfl⟩

end

theorem mem_erase_live (hb : bi < nbins) (h : BinInv c bi s hand used) (hr : r ∈ s.held)
    (hk : k ∈ used r) (p : ℕ) :
    p ∈ s.live.erase ((arenaBinInfo c bi).region r k) ↔
      ∃ r' ∈ s.held, ∃ k' ∈ update used r ((used r).erase k) r',
        p = (arenaBinInfo c bi).region r' k' := by
  rw [mem_erase, h.live]
  constructor
  · rintro ⟨hp, r', hr', k', hk', rfl⟩
    refine ⟨r', hr', k', ?_, rfl⟩
    by_cases hne : r' = r
    · subst hne
      rw [update_self, mem_erase]
      exact ⟨fun heq => hp (heq ▸ rfl), hk'⟩
    · rwa [update_of_ne hne]
  · rintro ⟨r', hr', k', hk', rfl⟩
    by_cases hne : r' = r
    · subst hne
      rw [update_self, mem_erase] at hk'
      exact ⟨fun heq => hk'.1 (h.region_inj hb hr' (h.lt hb hr' hk'.2) hr' (h.lt hb hr' hk) heq).2,
        r', hr', k', hk'.2, rfl⟩
    · rw [update_of_ne hne] at hk'
      exact ⟨fun heq => hne (h.region_inj hb hr' (h.lt hb hr' hk') hr (h.lt hb hr hk) heq).1,
        r', hr', k', hk', rfl⟩

/-! ## What happens under the lock -/

/-- A region of the run `r` is handed out, and `r` is the current run then. -/
theorem take (hb : bi < nbins) (h : BinInv c bi s hand used) (hr : s.Shared r)
    (hfree : used r ≠ range (arenaBinInfo c bi).nregs) (hno : r ∉ s.bin.runs)
    (hcur : ∀ r', s.bin.runcur = some r' →
      r' = r ∨ used r' = range (arenaBinInfo c bi).nregs)
    (hand' : Option ℕ) (hhand : ∀ r', hand' = some r' ↔ hand = some r' ∧ r' ≠ r) :
    ∃ k b', ({ s.bin with runcur := some r }).regAlloc (arenaBinInfo c bi) r =
        some ((arenaBinInfo c bi).region r k, b') ∧
      (arenaBinInfo c bi).region r k ∉ s.live ∧
      ∃ used', BinInv c bi
        { s with bin := b', live := insert ((arenaBinInfo c bi).region r k) s.live } hand'
        used' := by
  obtain ⟨k, h', halloc, hleast, hrep⟩ := (h.rep r hr.1).arenaRunRegAlloc hb hfree r
  have hother : ∀ r', r' ≠ r → update used r (insert k (used r)) r' = used r' :=
    fun r' hne => update_of_ne hne _ _
  have hself : update used r (insert k (used r)) r = insert k (used r) :=
    update_self ..
  refine ⟨k, ({ s.bin with runcur := some r }).setHeader r h', ?_,
    h.region_notMem_live hb hr.1 hleast.1.1 hleast.1.2,
    update used r (insert k (used r)), ?_⟩
  · simp only [Bin.regAlloc, halloc, Option.bind_eq_bind, Option.bind_some]
  · refine
      { dvd := h.dvd
        apart := h.apart
        runind := h.runind
        rep := fun r' hr' => h.rep_update hrep hr'
        fresh := fun r' hr' => h.fresh_update hr _ hr'
        leaving := fun r' hr' => h.leaving_update hr _ hr'
        nonempty := ?_
        cur := ?_
        tree := ?_
        hand := ?_
        live := h.mem_insert_live hr.1 }
    · intro r' hs hh
      by_cases hne : r' = r
      · subst hne
        rw [hself]
        exact insert_ne_empty _ _
      · rw [hother r' hne]
        exact h.nonempty r' hs fun heq => hh ((hhand r').mpr ⟨heq, hne⟩)
    · intro r' hc
      cases hc
      exact ⟨hr, fun heq => ((hhand r).mp heq).2 rfl⟩
    · intro r'
      show r' ∈ s.bin.runs ↔ s.Shared r' ∧ hand' ≠ some r' ∧ some r ≠ some r' ∧ _
      by_cases hne : r' = r
      · subst hne
        simp [hno]
      · have hsome : some r ≠ some r' := fun heq => hne (Option.some.inj heq).symm
        rw [h.tree, hother r' hne]
        constructor
        · rintro ⟨hs, hh, -, hf⟩
          exact ⟨hs, fun hx => hh ((hhand r').mp hx).1, hsome, hf⟩
        · rintro ⟨hs, hh, -, hf⟩
          refine ⟨hs, fun hx => hh ((hhand r').mpr ⟨hx, hne⟩), ?_, hf⟩
          intro hc
          rcases hcur r' hc with heq | hfull
          · exact hne heq
          · exact hf hfull
    · intro r' hh
      obtain ⟨hh, hne⟩ := (hhand r').mp hh
      rw [hother r' hne]
      exact h.hand r' hh

/-- The run in the hand goes into the tree. -/
theorem putTree (h : BinInv c bi s (some r) used) (hne : used r ≠ ∅) :
    BinInv c bi { s with bin := { s.bin with runs := insert r s.bin.runs } } none used := by
  obtain ⟨hshared, hfree⟩ := h.hand r rfl
  have hcur : s.bin.runcur ≠ some r := fun hc => (h.cur r hc).2 rfl
  refine
    { dvd := h.dvd
      apart := h.apart
      runind := h.runind
      rep := h.rep
      fresh := h.fresh
      leaving := h.leaving
      nonempty := ?_
      cur := fun r' hc => ⟨(h.cur r' hc).1, by simp⟩
      tree := ?_
      hand := by simp
      live := h.live }
  · intro r' hs _
    by_cases heq : r' = r
    · exact heq ▸ hne
    · exact h.nonempty r' hs fun hx => heq (Option.some.inj hx).symm
  · intro r'
    show r' ∈ insert r s.bin.runs ↔ s.Shared r' ∧ _ ∧ s.bin.runcur ≠ some r' ∧ _
    rw [mem_insert, h.tree]
    by_cases heq : r' = r
    · subst heq
      simp [hshared, hfree, hcur]
    · have hsome : some r ≠ some r' := fun hx => heq (Option.some.inj hx).symm
      simp [heq, hsome]

/-- The run in the hand becomes the current one, where there is none with a free region outside of
the tree. -/
theorem putCur (h : BinInv c bi s (some r) used) (hne : used r ≠ ∅) (runs : Finset ℕ)
    (hruns : ∀ r', r' ∈ runs ↔ r' ∈ s.bin.runs ∨ s.bin.runcur = some r' ∧
      used r' ≠ range (arenaBinInfo c bi).nregs) :
    BinInv c bi { s with bin := { s.bin with runs := runs, runcur := some r } } none used := by
  obtain ⟨hshared, hfree⟩ := h.hand r rfl
  refine
    { dvd := h.dvd
      apart := h.apart
      runind := h.runind
      rep := h.rep
      fresh := h.fresh
      leaving := h.leaving
      nonempty := ?_
      cur := ?_
      tree := ?_
      hand := by simp
      live := h.live }
  · intro r' hs _
    by_cases heq : r' = r
    · exact heq ▸ hne
    · exact h.nonempty r' hs fun hx => heq (Option.some.inj hx).symm
  · intro r' hc
    cases hc
    exact ⟨hshared, by simp⟩
  · intro r'
    show r' ∈ runs ↔ s.Shared r' ∧ _ ∧ some r ≠ some r' ∧ _
    rw [hruns, h.tree]
    by_cases heq : r' = r
    · subst heq
      have : s.bin.runcur ≠ some r' := fun hc => (h.cur r' hc).2 rfl
      simp [this]
    · have hsome : some r ≠ some r' := fun hx => heq (Option.some.inj hx).symm
      constructor
      · rintro (⟨hs, -, -, hf⟩ | ⟨hc, hf⟩)
        · exact ⟨hs, by simp, hsome, hf⟩
        · exact ⟨(h.cur r' hc).1, by simp, hsome, hf⟩
      · rintro ⟨hs, -, -, hf⟩
        by_cases hc : s.bin.runcur = some r'
        · exact .inr ⟨hc, hf⟩
        · exact .inl ⟨hs, hsome, hc, hf⟩

theorem not_mem_runs (h : BinInv c bi s hand used) (hr : hand = some r ∨ s.bin.runcur = some r) :
    r ∉ s.bin.runs := by
  rw [h.tree]
  rintro ⟨-, hh, hc, -⟩
  rcases hr with hr | hr
  · exact hh hr
  · exact hc hr

/-- The run in the hand may leave. -/
theorem dallocBinRun (h : BinInv c bi s (some r) used) : s.bin.dallocBinRun r = some s.bin := by
  have hguard : s.bin.runcur ≠ some r ∧ r ∉ s.bin.runs :=
    ⟨fun hc => (h.cur r hc).2 rfl, h.not_mem_runs (.inl rfl)⟩
  simp only [Bin.dallocBinRun, guard, if_pos hguard, Option.pure_def, Option.bind_eq_bind,
    Option.bind_some]

/-- `arena_bin_lower_run` keeps the run in the hand. -/
theorem lowerRun (hb : bi < nbins) (h : BinInv c bi s (some r) used) (hne : used r ≠ ∅) :
    ∃ b', s.bin.lowerRun r = some b' ∧ BinInv c bi { s with bin := b' } none used := by
  have hno := h.not_mem_runs (r := r) (.inl rfl)
  have hinsert : s.bin.runsInsert r = some { s.bin with runs := insert r s.bin.runs } := if_neg hno
  cases hcur : s.bin.runcur with
  | none =>
    refine ⟨_, ?_, h.putTree hne⟩
    simp only [Bin.lowerRun, hcur, hinsert]
  | some cur =>
    by_cases hlt : r < cur
    · have hpos := (h.rep cur (h.cur cur hcur).1.1).nfree_pos_iff hb
      by_cases hfree : 0 < (s.bin.headers cur).nfree
      · have hnocur := h.not_mem_runs (.inr hcur)
        refine ⟨{ s.bin with runs := insert cur s.bin.runs, runcur := some r }, ?_,
          h.putCur hne _ ?_⟩
        · simp only [Bin.lowerRun, hcur, if_pos hlt, if_pos hfree, Bin.runsInsert, if_neg hnocur,
            Option.bind_eq_bind, Option.bind_some]
        · intro r'
          rw [mem_insert, hcur, Option.some.injEq]
          constructor
          · rintro (rfl | hx)
            · exact .inr ⟨rfl, hpos.mp hfree⟩
            · exact .inl hx
          · rintro (hx | ⟨rfl, -⟩)
            · exact .inr hx
            · exact .inl rfl
      · refine ⟨{ s.bin with runcur := some r }, ?_, h.putCur hne _ ?_⟩
        · simp only [Bin.lowerRun, hcur, if_pos hlt, if_neg hfree, Option.bind_eq_bind,
            Option.bind_some]
        · intro r'
          rw [hcur, Option.some.injEq]
          constructor
          · exact .inl
          · rintro (hx | ⟨rfl, hf⟩)
            · exact hx
            · exact absurd (hpos.mpr hf) hfree
    · refine ⟨_, ?_, h.putTree hne⟩
      simp only [Bin.lowerRun, hcur, if_neg hlt, hinsert]

/-- A run without regions in use leaves the bin. -/
theorem leave (h : BinInv c bi s (some r) used) (hempty : used r = ∅) :
    BinInv c bi { s with leaving := s.leaving ∪ (some r).toFinset } none used := by
  obtain ⟨hshared, hfree⟩ := h.hand r rfl
  have hmem : ∀ r', r' ∈ s.leaving ∪ (some r).toFinset ↔ r' ∈ s.leaving ∨ r' = r := by
    simp [or_comm]
  have hshare : ∀ r', ({ s with leaving := s.leaving ∪ (some r).toFinset } : BinSys).Shared r' ↔
      s.Shared r' ∧ some r ≠ some r' := by
    intro r'
    simp only [BinSys.Shared, hmem, ne_eq, Option.some.injEq, eq_comm (a := r)]
    tauto
  refine
    { dvd := h.dvd
      apart := h.apart
      runind := h.runind
      rep := h.rep
      fresh := ?_
      leaving := ?_
      nonempty := fun r' hs _ => h.nonempty r' ((hshare r').mp hs).1 ((hshare r').mp hs).2
      cur := fun r' hc => ⟨(hshare r').mpr ⟨(h.cur r' hc).1, (h.cur r' hc).2⟩, by simp⟩
      tree := ?_
      hand := by simp
      live := h.live }
  · intro r' hr'
    obtain ⟨hheld, he, hl⟩ := h.fresh r' hr'
    refine ⟨hheld, he, ?_⟩
    show r' ∉ s.leaving ∪ (some r).toFinset
    rw [hmem]
    rintro (hx | rfl)
    · exact hl hx
    · exact hshared.2.1 hr'
  · intro r' hr'
    rcases (hmem r').mp hr' with hx | rfl
    · exact h.leaving r' hx
    · exact ⟨hshared.1, hempty⟩
  · intro r'
    show r' ∈ s.bin.runs ↔ _
    rw [h.tree, hshare]
    simp [and_assoc]

/-- The numbers of threads do not matter. -/
theorem counts (h : BinInv c bi s hand used) (waiting failed : ℕ) :
    BinInv c bi { s with waiting := waiting, failed := failed } hand used :=
  ⟨h.dvd, h.apart, h.runind, h.rep, h.fresh, h.leaving, h.nonempty, h.cur, h.tree, h.hand, h.live⟩

/-- A full run need not be the current one. -/
theorem dropCur (hb : bi < nbins) (h : BinInv c bi s hand used) (hu : s.bin.usable = none) :
    BinInv c bi { s with bin := { s.bin with runcur := none } } hand used := by
  refine
    { dvd := h.dvd
      apart := h.apart
      runind := h.runind
      rep := h.rep
      fresh := h.fresh
      leaving := h.leaving
      nonempty := h.nonempty
      cur := fun r' hc => nomatch hc
      tree := ?_
      hand := h.hand
      live := h.live }
  intro r'
  show r' ∈ s.bin.runs ↔ s.Shared r' ∧ hand ≠ some r' ∧ none ≠ some r' ∧ _
  rw [h.tree]
  constructor
  · rintro ⟨hs, hh, -, hf⟩
    exact ⟨hs, hh, nofun, hf⟩
  · rintro ⟨hs, hh, -, hf⟩
    exact ⟨hs, hh, fun hc => hf (h.usable_eq_none hb hu hc), hf⟩

/-- `arena_bin_nonfull_run_tryget` takes a run out of the tree if there is one. -/
theorem tryget (h : BinInv c bi s none used) :
    BinInv c bi { s with bin := s.bin.nonfullRunTryget.2 } s.bin.nonfullRunTryget.1 used := by
  by_cases hne : s.bin.runs.Nonempty
  · have hmem := s.bin.runs.min'_mem hne
    simp only [Bin.nonfullRunTryget, dif_pos hne]
    generalize s.bin.runs.min' hne = r at hmem ⊢
    obtain ⟨hshared, -, hcur, hfree⟩ := (h.tree r).mp hmem
    refine
      { dvd := h.dvd
        apart := h.apart
        runind := h.runind
        rep := h.rep
        fresh := h.fresh
        leaving := h.leaving
        nonempty := fun r' hs _ => h.nonempty r' hs nofun
        cur := ?_
        tree := ?_
        hand := ?_
        live := h.live }
    · intro r' hc
      refine ⟨(h.cur r' hc).1, ?_⟩
      rintro heq
      cases heq
      exact hcur hc
    · intro r'
      show r' ∈ s.bin.runs.erase r ↔ s.Shared r' ∧ some r ≠ some r' ∧ s.bin.runcur ≠ some r' ∧ _
      rw [mem_erase, h.tree]
      constructor
      · rintro ⟨hne', hs, -, hc, hf⟩
        exact ⟨hs, fun heq => hne' (Option.some.inj heq).symm, hc, hf⟩
      · rintro ⟨hs, hh, hc, hf⟩
        exact ⟨fun heq => hh (congrArg some heq.symm), hs, nofun, hc, hf⟩
    · intro r' heq
      cases heq
      exact ⟨hshared, hfree⟩
  · simp only [Bin.nonfullRunTryget, dif_neg hne]
    exact h

section

variable (hb : bi < nbins) (h : BinInv c bi s none used)
include hb h

/-- A thread comes back with the run it got. -/
theorem takeFresh (hr : r ∈ s.fresh) :
    BinInv c bi { s with fresh := s.fresh.erase r } (some r) used := by
  obtain ⟨hheld, hempty, hleaving⟩ := h.fresh r hr
  have hshare : ∀ r', ({ s with fresh := s.fresh.erase r } : BinSys).Shared r' ↔
      s.Shared r' ∨ r' = r := by
    intro r'
    simp only [BinSys.Shared, mem_erase]
    by_cases heq : r' = r
    · subst heq
      simp [hheld, hleaving]
    · simp [heq]
  have hne : ∀ r', s.Shared r' → some r ≠ some r' := by
    rintro r' hs heq
    cases heq
    exact hs.2.1 hr
  refine
    { dvd := h.dvd
      apart := h.apart
      runind := h.runind
      rep := h.rep
      fresh := fun r' hr' => h.fresh r' (mem_of_mem_erase hr')
      leaving := h.leaving
      nonempty := ?_
      cur := fun r' hc => ⟨(hshare r').mpr (.inl (h.cur r' hc).1), hne r' (h.cur r' hc).1⟩
      tree := ?_
      hand := ?_
      live := h.live }
  · intro r' hs hh
    rcases (hshare r').mp hs with hs | rfl
    · exact h.nonempty r' hs nofun
    · exact absurd rfl hh
  · intro r'
    show r' ∈ s.bin.runs ↔ _ ∧ some r ≠ some r' ∧ s.bin.runcur ≠ some r' ∧ _
    rw [h.tree, hshare]
    constructor
    · rintro ⟨hs, -, hc, hf⟩
      exact ⟨.inl hs, hne r' hs, hc, hf⟩
    · rintro ⟨hs | rfl, hh, hc, hf⟩
      · exact ⟨hs, nofun, hc, hf⟩
      · exact absurd rfl hh
  · intro r' heq
    cases heq
    refine ⟨(hshare r).mpr (.inr rfl), ?_⟩
    have hpos := (layoutOk_arenaBinInfo c hb).nregs_pos
    rw [hempty]
    intro heq
    have := congrArg card heq
    rw [card_empty, card_range] at this
    omega

/-- A region of `r` is freed, and `r` is in the hand then. -/
theorem release (hr : r ∈ s.held) (hk : k ∈ used r)
    (hrep : RunRep (arenaBinInfo c bi) h' ((used r).erase k)) (b' : Bin)
    (hheaders : b'.headers = update s.bin.headers r h') (hind : b'.runind = s.bin.runind)
    (hruns : b'.runs = s.bin.runs.erase r)
    (hcur : ∀ r', b'.runcur = some r' ↔ s.bin.runcur = some r' ∧ r' ≠ r) :
    BinInv c bi { s with bin := b', live := s.live.erase ((arenaBinInfo c bi).region r k) } (some r)
      (update used r ((used r).erase k)) := by
  have hother : ∀ r', r' ≠ r → update used r ((used r).erase k) r' = used r' :=
    fun r' hne => update_of_ne hne _ _
  have hself : update used r ((used r).erase k) r = (used r).erase k :=
    update_self ..
  have hshared := h.shared_of_mem hr hk
  refine
    { dvd := h.dvd
      apart := h.apart
      runind := fun r' hr' j hj => hind ▸ h.runind r' hr' j hj
      rep := fun r' hr' => hheaders ▸ h.rep_update hrep hr'
      fresh := fun r' hr' => h.fresh_update hshared _ hr'
      leaving := fun r' hr' => h.leaving_update hshared _ hr'
      nonempty := ?_
      cur := ?_
      tree := ?_
      hand := ?_
      live := h.mem_erase_live hb hr hk }
  · intro r' hs hh
    have hne : r' ≠ r := fun heq => hh (congrArg some heq.symm)
    rw [hother r' hne]
    exact h.nonempty r' hs nofun
  · intro r' hc
    obtain ⟨hc, hne⟩ := (hcur r').mp hc
    exact ⟨(h.cur r' hc).1, fun heq => hne (Option.some.inj heq).symm⟩
  · intro r'
    show r' ∈ b'.runs ↔ s.Shared r' ∧ some r ≠ some r' ∧ b'.runcur ≠ some r' ∧ _
    rw [hruns, mem_erase, h.tree]
    by_cases hne : r' = r
    · subst hne
      simp
    · have hsome : some r ≠ some r' := fun heq => hne (Option.some.inj heq).symm
      rw [hother r' hne, ne_eq b'.runcur, hcur]
      simp [hne, hsome]
  · intro r' heq
    cases heq
    refine ⟨hshared, ?_⟩
    rw [hself]
    intro heq
    have hlt := mem_range.mpr (h.lt hb hr hk)
    rw [← heq] at hlt
    exact notMem_erase k _ hlt

/-- The arena gave a new run to a waiting thread. -/
theorem newRun (hdvd : page ∣ r) (hapart : ∀ r' ∈ s.held, r + (arenaBinInfo c bi).runSize ≤ r' ∨
      r' + (arenaBinInfo c bi).runSize ≤ r) (old : Groups) (waiting : ℕ) :
    BinInv c bi
      { s with
        bin := { s.bin.setHeader r (RunHeader.init (arenaBinInfo c bi) old) with
          runind := BinSys.runindOf (arenaBinInfo c bi) s.bin.runind r }
        waiting := waiting
        fresh := insert r s.fresh
        held := insert r s.held } none (update used r ∅) := by
  have hrun := (layoutOk_arenaBinInfo c hb).run_pos
  obtain ⟨n, hn⟩ := (layoutOk_arenaBinInfo c hb).page_dvd
  obtain ⟨q, rfl⟩ := hdvd
  have hno : page * q ∉ s.held := by
    intro hmem
    rcases hapart _ hmem with hle | hle <;> omega
  have hne : ∀ r' ∈ s.held, r' ≠ page * q := fun r' hr' heq => hno (heq ▸ hr')
  have hother : ∀ r' ∈ s.held, update used (page * q) ∅ r' = used r' :=
    fun r' hr' => update_of_ne (hne r' hr') _ _
  have hshare : ∀ r', (r' ∈ insert (page * q) s.held ∧ r' ∉ insert (page * q) s.fresh ∧
      r' ∉ s.leaving) ↔ s.Shared r' := by
    intro r'
    rw [BinSys.Shared, mem_insert, mem_insert]
    constructor
    · rintro ⟨heq | hr', hf, hl⟩
      · exact absurd (.inl heq) hf
      · exact ⟨hr', fun hx => hf (.inr hx), hl⟩
    · rintro ⟨hr', hf, hl⟩
      refine ⟨.inr hr', ?_, hl⟩
      rintro (heq | hx)
      · exact hne r' hr' heq
      · exact hf hx
  refine
    { dvd := ?_
      apart := ?_
      runind := ?_
      rep := ?_
      fresh := ?_
      leaving := ?_
      nonempty := ?_
      cur := fun r' hc => ⟨(hshare r').mpr (h.cur r' hc).1, nofun⟩
      tree := ?_
      hand := nofun
      live := ?_ }
  · intro r' hr'
    rcases mem_insert.mp hr' with rfl | hr'
    · exact Nat.dvd_mul_right page q
    · exact h.dvd r' hr'
  · intro r₁ hr₁ r₂ hr₂ hne'
    rcases mem_insert.mp hr₁ with rfl | hr₁ <;>
      rcases mem_insert.mp hr₂ with rfl | hr₂
    · exact absurd rfl hne'
    · exact hapart r₂ hr₂
    · exact (hapart r₁ hr₁).symm
    · exact h.apart r₁ hr₁ r₂ hr₂ hne'
  · intro r' hr' j hj
    show BinSys.runindOf _ s.bin.runind (page * q) (r' / page + j) = j
    rw [hn, Nat.mul_div_cancel_left _ page_pos] at hj
    rw [BinSys.runindOf, hn, Nat.mul_div_cancel_left _ page_pos, Nat.mul_div_cancel_left _ page_pos]
    rcases mem_insert.mp hr' with rfl | hr'
    · rw [Nat.mul_div_cancel_left _ page_pos, if_pos ⟨by omega, by omega⟩]
      omega
    · obtain ⟨q', rfl⟩ := h.dvd r' hr'
      have hpages : q + n ≤ q' ∨ q' + n ≤ q := by
        have := hapart _ hr'
        rw [hn, ← Nat.mul_add, ← Nat.mul_add] at this
        exact this.imp (fun hle => Nat.le_of_mul_le_mul_left hle page_pos)
          fun hle => Nat.le_of_mul_le_mul_left hle page_pos
      have hind := h.runind _ hr' j (by rw [hn, Nat.mul_div_cancel_left _ page_pos]; exact hj)
      rw [Nat.mul_div_cancel_left _ page_pos] at hind ⊢
      rw [if_neg (by omega)]
      exact hind
  · intro r' hr'
    show RunRep _ (update s.bin.headers (page * q) _ r') _
    by_cases heq : r' = page * q
    · subst heq
      rw [update_self, update_self]
      exact runRep_init hb old
    · have hr' := (mem_insert.mp hr').resolve_left heq
      rw [update_of_ne heq, hother r' hr']
      exact h.rep r' hr'
  · intro r' hr'
    by_cases heq : r' = page * q
    · subst heq
      exact ⟨mem_insert_self _ _, update_self .., fun hl => hno (h.leaving _ hl).1⟩
    · obtain ⟨hheld, he, hl⟩ := h.fresh r' ((mem_insert.mp hr').resolve_left heq)
      exact ⟨mem_insert_of_mem hheld, (hother r' hheld).trans he, hl⟩
  · intro r' hr'
    obtain ⟨hheld, he⟩ := h.leaving r' hr'
    exact ⟨mem_insert_of_mem hheld, (hother r' hheld).trans he⟩
  · intro r' hs hh
    have hs := (hshare r').mp hs
    rw [hother r' hs.1]
    exact h.nonempty r' hs hh
  · intro r'
    refine (h.tree r').trans ⟨?_, ?_⟩
    · rintro ⟨hs, hh, hc, hf⟩
      exact ⟨(hshare r').mpr hs, hh, hc, (hother r' hs.1).symm ▸ hf⟩
    · rintro ⟨hs, hh, hc, hf⟩
      have hs := (hshare r').mp hs
      exact ⟨hs, hh, hc, hother r' hs.1 ▸ hf⟩
  · intro p
    refine (h.live p).trans ⟨?_, ?_⟩
    · rintro ⟨r', hr', k', hk', hp⟩
      exact ⟨r', mem_insert_of_mem hr', k', (hother r' hr').symm ▸ hk', hp⟩
    · rintro ⟨r', hr', k', hk', hp⟩
      by_cases heq : r' = page * q
      · subst heq
        rw [update_self] at hk'
        cases hk'
      · have hr' := (mem_insert.mp hr').resolve_left heq
        exact ⟨r', hr', k', hother r' hr' ▸ hk', hp⟩

end

/-- The arena took a run back. -/
theorem gone (h : BinInv c bi s none used) (hr : r ∈ s.leaving) :
    BinInv c bi { s with leaving := s.leaving.erase r, held := s.held.erase r } none used := by
  obtain ⟨hheld, hempty⟩ := h.leaving r hr
  have hshare : ∀ r', (r' ∈ s.held.erase r ∧ r' ∉ s.fresh ∧ r' ∉ s.leaving.erase r) ↔
      s.Shared r' := by
    intro r'
    rw [BinSys.Shared, mem_erase, mem_erase]
    by_cases heq : r' = r
    · subst heq
      simp [hr]
    · simp [heq]
  refine
    { dvd := fun r' hr' => h.dvd r' (mem_of_mem_erase hr')
      apart := fun r₁ hr₁ r₂ hr₂ => h.apart r₁ (mem_of_mem_erase hr₁) r₂
        (mem_of_mem_erase hr₂)
      runind := fun r' hr' => h.runind r' (mem_of_mem_erase hr')
      rep := fun r' hr' => h.rep r' (mem_of_mem_erase hr')
      fresh := ?_
      leaving := ?_
      nonempty := fun r' hs => h.nonempty r' ((hshare r').mp hs)
      cur := fun r' hc => ⟨(hshare r').mpr (h.cur r' hc).1, nofun⟩
      tree := fun r' => (h.tree r').trans (and_congr_left' (hshare r').symm)
      hand := nofun
      live := ?_ }
  · intro r' hr'
    obtain ⟨hheld', he, hl⟩ := h.fresh r' hr'
    have hne : r' ≠ r := fun heq => hl (heq ▸ hr)
    exact ⟨mem_erase.mpr ⟨hne, hheld'⟩, he, fun hx => hl (mem_of_mem_erase hx)⟩
  · intro r' hr'
    obtain ⟨hne, hr'⟩ := mem_erase.mp hr'
    obtain ⟨hheld', he⟩ := h.leaving r' hr'
    exact ⟨mem_erase.mpr ⟨hne, hheld'⟩, he⟩
  · intro p
    refine (h.live p).trans ⟨?_, ?_⟩
    · rintro ⟨r', hr', k', hk', hp⟩
      refine ⟨r', mem_erase.mpr ⟨?_, hr'⟩, k', hk', hp⟩
      rintro rfl
      rw [hempty] at hk'
      cases hk'
    · rintro ⟨r', hr', hrest⟩
      exact ⟨r', mem_of_mem_erase hr', hrest⟩

/-! ## The operations -/

/-- `arena_bin_malloc_hard` with the run it got in the hand. -/
theorem arenaBinMallocHard (hb : bi < nbins) (h : BinInv c bi s hand used) :
    ∃ m b', Jemalloc.arenaBinMallocHard (arenaBinInfo c bi) s.bin hand = some (m, b') ∧ s.New m ∧
      ∃ used', BinInv c bi (s.returned b' m) none used' := by
  cases hu : s.bin.usable with
  | some cur =>
    obtain ⟨hcur, hfree⟩ := h.usable_eq_some hb hu
    obtain ⟨hshared, hhand⟩ := h.cur cur hcur
    -- the current run has a free region, so the run in the hand goes back
    obtain ⟨k, b', halloc, hnew, used', h'⟩ :=
      h.take hb hshared hfree (h.not_mem_runs (.inr hcur))
        (fun r' hc => .inl (Option.some.inj (hc.symm.trans hcur))) hand (eq_some_iff_of_ne hhand)
    rw [← hcur] at halloc
    have hnewp : s.New (.ret (some ((arenaBinInfo c bi).region cur k)) none) := by
      rintro p hp
      cases hp
      exact hnew
    cases hand with
    | none =>
      refine ⟨_, b', ?_, hnewp, used', ?_⟩
      · simp only [Jemalloc.arenaBinMallocHard, hu, halloc, Option.bind_eq_bind, Option.bind_some]
      · rw [BinSys.returned_ret_some, Option.toFinset_none, union_empty]
        exact h'
    | some r =>
      by_cases hall : (b'.headers r).nfree = (arenaBinInfo c bi).nregs
      · have hback : b'.dallocBinRun r = some b' := h'.dallocBinRun
        refine ⟨.ret (some ((arenaBinInfo c bi).region cur k)) (some r), b', ?_, hnewp,
          used', ?_⟩
        · simp only [Jemalloc.arenaBinMallocHard, hu, halloc, Option.bind_eq_bind,
            Option.bind_some, if_pos hall, hback]
        · have hempty := (h'.rep r (h'.hand r rfl).1.1).nfree_eq_iff.mp hall
          rw [BinSys.returned_ret_some]
          exact h'.leave hempty
      · have hempty := mt (h'.rep r (h'.hand r rfl).1.1).nfree_eq_iff.mpr hall
        obtain ⟨b'', hlower, h''⟩ := h'.lowerRun hb hempty
        refine ⟨_, b'', ?_, hnewp, used', ?_⟩
        · simp only [Jemalloc.arenaBinMallocHard, hu, halloc, Option.bind_eq_bind,
            Option.bind_some, if_neg hall]
          rw [show b'.lowerRun r = some b'' from hlower, Option.bind_some]
        · rw [BinSys.returned_ret_some, Option.toFinset_none, union_empty]
          exact h''
  | none =>
    cases hand with
    | none =>
      refine ⟨.ret none none, s.bin, ?_, nofun, used, ?_⟩
      · simp only [Jemalloc.arenaBinMallocHard, hu]
      · rw [BinSys.returned_ret_none]
        exact h
    | some r =>
      obtain ⟨hshared, hfree⟩ := h.hand r rfl
      obtain ⟨k, b', halloc, hnew, used', h'⟩ :=
        h.take hb hshared hfree (h.not_mem_runs (.inl rfl))
          (fun r' hc => .inr (h.usable_eq_none hb hu hc)) none (none_iff_of_eq rfl)
      refine ⟨.ret (some ((arenaBinInfo c bi).region r k)) none, b', ?_, ?_, used', ?_⟩
      · simp only [Jemalloc.arenaBinMallocHard, hu, halloc, Option.bind_eq_bind, Option.bind_some]
      · rintro p hp
        cases hp
        exact hnew
      · rw [BinSys.returned_ret_some, Option.toFinset_none, union_empty]
        exact h'

/-- `arena_malloc_small` returns a region that is not in use, or waits for a run. -/
theorem arenaMallocSmall (hb : bi < nbins) (h : BinInv c bi s none used) :
    ∃ m b', Jemalloc.arenaMallocSmall (arenaBinInfo c bi) s.bin = some (m, b') ∧ s.New m ∧
      ∃ used', BinInv c bi (s.returned b' m) none used' := by
  cases hu : s.bin.usable with
  | some cur =>
    obtain ⟨hcur, hfree⟩ := h.usable_eq_some hb hu
    obtain ⟨k, b', halloc, hnew, used', h'⟩ :=
      h.take hb (h.cur cur hcur).1 hfree (h.not_mem_runs (.inr hcur))
        (fun r' hc => .inl (Option.some.inj (hc.symm.trans hcur))) none (eq_some_iff_of_ne nofun)
    rw [← hcur] at halloc
    refine ⟨.ret (some ((arenaBinInfo c bi).region cur k)) none, b', ?_, ?_, used', ?_⟩
    · simp only [Jemalloc.arenaMallocSmall, hu, halloc, Option.map_some]
    · rintro p hp
      cases hp
      exact hnew
    · rw [BinSys.returned_ret_some, Option.toFinset_none, union_empty]
      exact h'
  | none =>
    have hdrop := (h.dropCur hb hu).tryget
    cases hget : ({ s.bin with runcur := none } : Bin).nonfullRunTryget with
    | mk run b =>
      simp only [hget] at hdrop
      cases run with
      | none =>
        refine ⟨.unlocked, b, ?_, trivial, used, hdrop.counts (s.waiting + 1) s.failed⟩
        simp only [Jemalloc.arenaMallocSmall, hu, hget]
      | some r =>
        obtain ⟨m, b', hhard, hnew, used', h'⟩ := hdrop.arenaBinMallocHard hb
        refine ⟨m, b', ?_, ?_, used', ?_⟩
        · simp only [Jemalloc.arenaMallocSmall, hu, hget]
          exact hhard
        · cases m <;> exact hnew
        · cases m <;> exact h'

/-- The run of a region, from the page map. -/
theorem run_of_region (hb : bi < nbins) (h : BinInv c bi s hand used) (hr : r ∈ s.held)
    (hk : k ∈ used r) :
    ((arenaBinInfo c bi).region r k / page -
      s.bin.runind ((arenaBinInfo c bi).region r k / page)) * page = r := by
  obtain ⟨n, hn⟩ := (layoutOk_arenaBinInfo c hb).page_dvd
  obtain ⟨q, rfl⟩ := h.dvd r hr
  obtain ⟨hlow, hhigh, hpos⟩ := region_within (c := c) hb (h.lt hb hr hk) (page * q)
  have hind := h.runind _ hr
  rw [hn] at hhigh hind
  rw [Nat.mul_div_cancel_left _ page_pos, Nat.mul_div_cancel_left _ page_pos] at hind
  generalize (arenaBinInfo c bi).region (page * q) k = p at hlow hhigh ⊢
  -- the page of the pointer is one of the pages of the run
  have hge : q ≤ p / page := (Nat.le_div_iff_mul_le page_pos).mpr (by rw [Nat.mul_comm]; omega)
  have hlt : p / page < q + n := by
    rw [Nat.div_lt_iff_lt_mul page_pos, Nat.mul_comm, Nat.mul_add]
    omega
  obtain ⟨j, hj⟩ := Nat.exists_eq_add_of_le hge
  rw [hj, hind j (by omega), Nat.add_sub_cancel, Nat.mul_comm]

/-- The freed region is the only free one when the run was full. -/
theorem nfree_eq_one_iff (hb : bi < nbins) (h : BinInv c bi s hand used) (hr : r ∈ s.held)
    (hk : k ∈ used r) (hrep : RunRep (arenaBinInfo c bi) h' ((used r).erase k)) :
    h'.nfree = 1 ↔ used r = range (arenaBinInfo c bi).nregs := by
  have hcount := (h.rep r hr).nfree
  have hcount' := hrep.nfree
  have hcard := card_pos.mpr ⟨k, hk⟩
  have hpos := (h.rep r hr).nfree_pos_iff hb
  rw [card_erase_of_mem hk] at hcount'
  rw [← not_iff_not, ← ne_eq (used r), ← hpos]
  omega

/-- A run whose last region was freed is the current one, in the tree, or has no other region. -/
theorem dissociateBinRun (hb : bi < nbins) (h : BinInv c bi s none used) (hr : r ∈ s.held)
    (hk : k ∈ used r) (hrep : RunRep (arenaBinInfo c bi) h' ((used r).erase k))
    (hall : h'.nfree = (arenaBinInfo c bi).nregs) :
    ∃ b', (s.bin.setHeader r h').dissociateBinRun (arenaBinInfo c bi) r = some b' ∧
      BinInv c bi { s with bin := b', live := s.live.erase ((arenaBinInfo c bi).region r k) }
        (some r) (update used r ((used r).erase k)) := by
  have hfirst := h.nfree_eq_one_iff hb hr hk hrep
  by_cases hcur : s.bin.runcur = some r
  · have hno := h.not_mem_runs (.inr hcur)
    exact ⟨{ s.bin.setHeader r h' with runcur := none }, if_pos hcur,
      h.release hb hr hk hrep _ rfl rfl (erase_eq_of_notMem hno).symm
        (none_iff_of_eq hcur)⟩
  · have hcur' := eq_some_iff_of_ne hcur
    by_cases hone : (arenaBinInfo c bi).nregs = 1
    · have hno : r ∉ s.bin.runs := fun hmem => ((h.tree r).mp hmem).2.2.2
        (hfirst.mp (hall.trans hone))
      refine ⟨s.bin.setHeader r h', ?_, h.release hb hr hk hrep _ rfl rfl
        (erase_eq_of_notMem hno).symm hcur'⟩
      exact (if_neg hcur).trans (if_neg (not_not.mpr hone))
    · have hmem : r ∈ s.bin.runs := (h.tree r).mpr ⟨h.shared_of_mem hr hk, nofun, hcur,
        mt hfirst.mpr (hall ▸ hone)⟩
      refine ⟨{ s.bin.setHeader r h' with runs := s.bin.runs.erase r }, ?_,
        h.release hb hr hk hrep _ rfl rfl rfl hcur'⟩
      exact (if_neg hcur).trans ((if_pos hone).trans (if_pos hmem))

/-- A run that has regions in use and free ones stays where it is. -/
theorem stay (hb : bi < nbins) (h : BinInv c bi s none used) (hr : r ∈ s.held) (hk : k ∈ used r)
    (hrep : RunRep (arenaBinInfo c bi) h' ((used r).erase k))
    (hne : update used r ((used r).erase k) r ≠ ∅)
    (hplace : s.bin.runcur = some r ∨ r ∈ s.bin.runs) :
    BinInv c bi
      { s with
        bin := s.bin.setHeader r h'
        live := s.live.erase ((arenaBinInfo c bi).region r k) } none
      (update used r ((used r).erase k)) := by
  by_cases hcur : s.bin.runcur = some r
  · have hno := h.not_mem_runs (.inr hcur)
    have hput := (h.release hb hr hk hrep { s.bin.setHeader r h' with runcur := none } rfl rfl
      (erase_eq_of_notMem hno).symm (none_iff_of_eq hcur)).putCur hne s.bin.runs
      (by simp [Bin.setHeader])
    simp only [← hcur] at hput
    exact hput
  · have hmem := hplace.resolve_left hcur
    have hput := (h.release hb hr hk hrep
      { s.bin.setHeader r h' with runs := s.bin.runs.erase r } rfl rfl rfl
      (eq_some_iff_of_ne hcur)).putTree hne
    simp only [insert_erase hmem] at hput
    exact hput

/-- `arena_dalloc_bin` frees the region, and its run leaves when it was the last one in use. -/
theorem arenaDallocBin (hb : bi < nbins) (h : BinInv c bi s none used) (hr : r ∈ s.held)
    (hk : k ∈ used r) :
    ∃ back b', Jemalloc.arenaDallocBin (arenaBinInfo c bi) s.bin ((arenaBinInfo c bi).region r k) =
        some (back, b') ∧
      BinInv c bi
        { s with
          bin := b'
          live := s.live.erase ((arenaBinInfo c bi).region r k)
          leaving := s.leaving ∪ back.toFinset } none
        (update used r ((used r).erase k)) := by
  obtain ⟨h', hdalloc, hrep⟩ := (h.rep r hr).arenaRunRegDalloc hb hk r
  have hfirst := h.nfree_eq_one_iff hb hr hk hrep
  have hrun := h.run_of_region hb hr hk
  have hself : update used r ((used r).erase k) r = (used r).erase k :=
    update_self ..
  by_cases hall : h'.nfree = (arenaBinInfo c bi).nregs
  · obtain ⟨b', hdis, hinv⟩ := h.dissociateBinRun hb hr hk hrep hall
    have hback : b'.dallocBinRun r = some b' := hinv.dallocBinRun
    refine ⟨some r, b', ?_, hinv.leave (hself.trans (hrep.nfree_eq_iff.mp hall))⟩
    simp only [Jemalloc.arenaDallocBin, hrun, hdalloc, Option.bind_eq_bind, Option.bind_some,
      if_pos hall, hdis, hback]
  · have hne : update used r ((used r).erase k) r ≠ ∅ :=
      hself.symm ▸ mt hrep.nfree_eq_iff.mpr hall
    by_cases hbranch : h'.nfree = 1 ∧ (s.bin.setHeader r h').runcur ≠ some r
    · -- the run was full, so it was not in the tree
      have hno : r ∉ s.bin.runs := fun hmem => ((h.tree r).mp hmem).2.2.2 (hfirst.mp hbranch.1)
      obtain ⟨b', hlower, hinv⟩ := (h.release hb hr hk hrep (s.bin.setHeader r h') rfl rfl
        (erase_eq_of_notMem hno).symm (eq_some_iff_of_ne hbranch.2)).lowerRun hb hne
      refine ⟨none, b', ?_, ?_⟩
      · simp only [Jemalloc.arenaDallocBin, hrun, hdalloc, Option.bind_eq_bind, Option.bind_some,
          if_neg hall, if_pos hbranch]
        rw [show (s.bin.setHeader r h').lowerRun r = some b' from hlower, Option.bind_some]
      · rw [Option.toFinset_none, union_empty]
        exact hinv
    · have hplace : s.bin.runcur = some r ∨ r ∈ s.bin.runs := by
        by_contra hnot
        obtain ⟨hcur, hno⟩ := not_or.mp hnot
        refine hno ((h.tree r).mpr ⟨h.shared_of_mem hr hk, nofun, hcur, ?_⟩)
        exact fun hfull => hbranch ⟨hfirst.mpr hfull, hcur⟩
      refine ⟨none, s.bin.setHeader r h', ?_, ?_⟩
      · simp only [Jemalloc.arenaDallocBin, hrun, hdalloc, Option.bind_eq_bind, Option.bind_some,
          if_neg hall, if_neg hbranch]
      · rw [Option.toFinset_none, union_empty]
        exact h.stay hb hr hk hrep hne hplace

/-- Every operation that can happen keeps the invariant. -/
theorem step (hb : bi < nbins) (h : BinInv c bi s none used) {op : BinOp}
    (hop : s.OpOk (arenaBinInfo c bi) op) :
    ∃ m s', s.step (arenaBinInfo c bi) op = some (m, s') ∧ s.New m ∧
      ∃ used', BinInv c bi s' none used' := by
  cases op with
  | malloc =>
    obtain ⟨m, b', hcall, hnew, used', h'⟩ := h.arenaMallocSmall hb
    exact ⟨m, _, by rw [BinSys.step, hcall]; rfl, hnew, used', h'⟩
  | newRun run old =>
    cases run with
    | none => exact ⟨_, _, rfl, nofun, used, h.counts (s.waiting - 1) (s.failed + 1)⟩
    | some r => exact ⟨_, _, rfl, nofun, _, h.newRun hb hop.2.1 hop.2.2 old (s.waiting - 1)⟩
  | resume run =>
    cases run with
    | none =>
      obtain ⟨m, b', hcall, hnew, used', h'⟩ :=
        (h.counts s.waiting (s.failed - 1)).tryget.arenaBinMallocHard hb
      refine ⟨m, BinSys.returned { s with failed := s.failed - 1 } b' m, ?_, ?_, used', ?_⟩
      · rw [BinSys.step]
        exact congrArg (Option.map _) hcall
      · cases m <;> exact hnew
      · cases m <;> exact h'
    | some r =>
      obtain ⟨m, b', hcall, hnew, used', h'⟩ := (h.takeFresh hb hop).arenaBinMallocHard hb
      refine ⟨m, BinSys.returned { s with fresh := s.fresh.erase r } b' m, ?_, ?_, used', h'⟩
      · rw [BinSys.step]
        exact congrArg (Option.map _) hcall
      · cases m <;> exact hnew
  | free ptr =>
    obtain ⟨r, hr, k, hk, rfl⟩ := (h.live ptr).mp hop
    obtain ⟨back, b', hcall, h'⟩ := h.arenaDallocBin hb hr hk
    exact ⟨.ret none back, _, by rw [BinSys.step, hcall]; rfl, nofun, _, h'⟩
  | gone run => exact ⟨_, _, rfl, nofun, used, h.gone hop⟩

/-- Every run of operations that can happen keeps the invariant. -/
theorem run (hb : bi < nbins) {ops : List BinOp} {s : BinSys} (h : ∃ used, BinInv c bi s none used)
    (hok : Along (BinSys.step (arenaBinInfo c bi)) (BinSys.OpOk (arenaBinInfo c bi)) ops s) :
    ∃ ms s', runSteps (BinSys.step (arenaBinInfo c bi)) ops s = some (ms, s') ∧
      ∃ used', BinInv c bi s' none used' := by
  induction ops generalizing s with
  | nil => exact ⟨[], s, rfl, h⟩
  | cons op ops ih =>
    obtain ⟨hop, hrest⟩ := hok
    obtain ⟨used, h⟩ := h
    obtain ⟨m, s₁, hstep, -, h₁⟩ := h.step hb hop
    obtain ⟨ms, s', hrun, h'⟩ := ih h₁ (hrest m s₁ hstep)
    exact ⟨m :: ms, s', by rw [runSteps_cons hstep, hrun]; rfl, h'⟩

/-- A bin without runs. -/
theorem init (c : Config) (bi : ℕ) (headers : ℕ → RunHeader) (runind : ℕ → ℕ) :
    BinInv c bi (BinSys.init headers runind) none fun _ => ∅ := by
  refine ⟨?_, ?_, ?_, ?_, ?_, ?_, ?_, ?_, ?_, ?_, ?_⟩ <;> simp [BinSys.init, BinSys.Shared]

/-! ## What the invariant says -/

/-- The regions in use inside a run. -/
theorem filter_live (hb : bi < nbins) (h : BinInv c bi s hand used) (hr : r ∈ s.held) :
    {p ∈ s.live | r ≤ p ∧ p < r + (arenaBinInfo c bi).runSize} =
      (used r).image ((arenaBinInfo c bi).region r) := by
  ext p
  rw [mem_filter, mem_image, h.live]
  constructor
  · rintro ⟨⟨r', hr', k, hk, rfl⟩, hlow, hhigh⟩
    obtain ⟨hlow', hhigh', hpos⟩ := region_within (c := c) hb (h.lt hb hr' hk) r'
    have heq : r' = r := by
      by_contra hne
      rcases h.apart r' hr' r hr hne with hle | hle <;> omega
    exact ⟨k, heq ▸ hk, by rw [heq]⟩
  · rintro ⟨k, hk, rfl⟩
    obtain ⟨hlow, hhigh, hpos⟩ := region_within (c := c) hb (h.lt hb hr hk) r
    exact ⟨⟨r, hr, k, hk, rfl⟩, by omega, by omega⟩

/-- The count in the header is the number of the regions that are not in use. -/
theorem nfree_add_card (hb : bi < nbins) (h : BinInv c bi s hand used) (hr : r ∈ s.held) :
    (s.bin.headers r).nfree +
        {p ∈ s.live | r ≤ p ∧ p < r + (arenaBinInfo c bi).runSize}.card =
      (arenaBinInfo c bi).nregs := by
  rw [h.filter_live hb hr, card_image_of_injOn]
  · exact (h.rep r hr).nfree
  · intro k hk k' hk' heq
    exact (h.region_inj hb hr (h.lt hb hr hk) hr (h.lt hb hr hk') heq).2

/-- No run is lost: one without regions in use is in the hands of a thread. -/
theorem nfree_eq_iff (h : BinInv c bi s none used) (hr : r ∈ s.held) :
    (s.bin.headers r).nfree = (arenaBinInfo c bi).nregs ↔ r ∈ s.fresh ∨ r ∈ s.leaving := by
  rw [(h.rep r hr).nfree_eq_iff]
  constructor
  · intro hempty
    by_contra hnot
    obtain ⟨hf, hl⟩ := not_or.mp hnot
    exact h.nonempty r ⟨hr, hf, hl⟩ nofun hempty
  · rintro (hf | hl)
    · exact (h.fresh r hf).2.1
    · exact (h.leaving r hl).2

/-- The tree has the other runs with free regions. -/
theorem mem_runs_iff (hb : bi < nbins) (h : BinInv c bi s none used) :
    r ∈ s.bin.runs ↔ r ∈ s.held ∧ s.bin.runcur ≠ some r ∧ 0 < (s.bin.headers r).nfree ∧
      (s.bin.headers r).nfree < (arenaBinInfo c bi).nregs := by
  rw [h.tree]
  constructor
  · rintro ⟨hs, -, hc, hf⟩
    have hrep := h.rep r hs.1
    have hempty := mt hrep.nfree_eq_iff.mp (h.nonempty r hs nofun)
    have := hrep.nfree
    exact ⟨hs.1, hc, (hrep.nfree_pos_iff hb).mpr hf, by omega⟩
  · rintro ⟨hr, hc, hpos, hlt⟩
    have hnot := mt (h.nfree_eq_iff hr).mpr hlt.ne
    obtain ⟨hf, hl⟩ := not_or.mp hnot
    exact ⟨⟨hr, hf, hl⟩, nofun, hc, ((h.rep r hr).nfree_pos_iff hb).mp hpos⟩

/-- Regions in use lie in the runs of the bin, after their headers. -/
theorem live_within (hb : bi < nbins) (h : BinInv c bi s hand used) {p : ℕ} (hp : p ∈ s.live) :
    ∃ r ∈ s.held, r + runHeaderSize ≤ p ∧ p + regSize bi ≤ r + (arenaBinInfo c bi).runSize := by
  obtain ⟨r, hr, k, hk, rfl⟩ := (h.live p).mp hp
  obtain ⟨hlow, hhigh, -⟩ := region_within (c := c) hb (h.lt hb hr hk) r
  exact ⟨r, hr, hlow, hhigh⟩

theorem live_apart (hb : bi < nbins) (h : BinInv c bi s hand used) {p q : ℕ} (hp : p ∈ s.live)
    (hq : q ∈ s.live) (hne : p ≠ q) : p + regSize bi ≤ q ∨ q + regSize bi ≤ p := by
  obtain ⟨r, hr, k, hk, rfl⟩ := (h.live p).mp hp
  obtain ⟨r', hr', k', hk', rfl⟩ := (h.live q).mp hq
  exact h.regions_apart hb hr (h.lt hb hr hk) hr' (h.lt hb hr' hk') fun ⟨hrr, hkk⟩ =>
    hne (by rw [hrr, hkk])

end BinInv

end Bins

/-- **The bins of an arena.**  From a bin without runs on, whatever threads do and however their
calls interleave where the lock is free, no assertion fails and no pointer is returned that is in
use.  Then the regions in use lie in the runs of the bin and apart from each other; the header of a
run counts those that are free; the tree has exactly the runs that are not current and have both
regions in use and free ones; and a run without regions in use is one that a thread just got or is
about to give back. -/
theorem bin_regions_of_run (c : Config) {bi : ℕ} (hb : bi < nbins) (headers : ℕ → RunHeader)
    (runind : ℕ → ℕ) {ops : List BinOp}
    (hok : Along (BinSys.step (arenaBinInfo c bi)) (BinSys.OpOk (arenaBinInfo c bi)) ops
      (BinSys.init headers runind)) :
    EachStep (BinSys.step (arenaBinInfo c bi)) (fun s _ m _ => s.New m) ops
        (BinSys.init headers runind) ∧
      ∃ ms s, runSteps (BinSys.step (arenaBinInfo c bi)) ops (BinSys.init headers runind) =
          some (ms, s) ∧
        (∀ p ∈ s.live, ∃ r ∈ s.held, r + runHeaderSize ≤ p ∧
          p + regSize bi ≤ r + (arenaBinInfo c bi).runSize) ∧
        (∀ p ∈ s.live, ∀ q ∈ s.live, p ≠ q → p + regSize bi ≤ q ∨ q + regSize bi ≤ p) ∧
        (∀ r ∈ s.held, (s.bin.headers r).nfree +
            {p ∈ s.live | r ≤ p ∧ p < r + (arenaBinInfo c bi).runSize}.card =
          (arenaBinInfo c bi).nregs) ∧
        (∀ r, r ∈ s.bin.runs ↔ r ∈ s.held ∧ s.bin.runcur ≠ some r ∧
          0 < (s.bin.headers r).nfree ∧ (s.bin.headers r).nfree < (arenaBinInfo c bi).nregs) ∧
        ∀ r ∈ s.held, (s.bin.headers r).nfree = (arenaBinInfo c bi).nregs ↔
          r ∈ s.fresh ∨ r ∈ s.leaving := by
  have hinit : ∃ used, BinInv c bi (BinSys.init headers runind) none used :=
    ⟨_, BinInv.init c bi headers runind⟩
  refine ⟨eachStep_of_along (I := fun s => ∃ used, BinInv c bi s none used) ?_ hinit hok, ?_⟩
  · rintro s op m s' ⟨used, h⟩ hop hstep
    obtain ⟨m₁, s₁, hstep₁, hnew, h₁⟩ := h.step hb hop
    rw [hstep] at hstep₁
    cases hstep₁
    exact ⟨hnew, h₁⟩
  · obtain ⟨ms, s, hrun, used, h⟩ := BinInv.run hb hinit hok
    exact ⟨ms, s, hrun, fun p hp => h.live_within hb hp,
      fun p hp q hq hne => h.live_apart hb hp hq hne, fun r hr => h.nfree_add_card hb hr,
      fun r => h.mem_runs_iff hb, fun r hr => h.nfree_eq_iff hr⟩

/-- Two threads wait for a run.  One gets a run and the other none, and comes back after the first
one. -/
theorem along_twoThreads (info : BinInfo) {run : ℕ} (hrun : page ∣ run) (headers : ℕ → RunHeader)
    (runind : ℕ → ℕ) (old : Groups) :
    Along (BinSys.step info) (BinSys.OpOk info)
      [.malloc, .malloc, .newRun (some run) old, .newRun none old, .resume (some run), .resume none]
      (BinSys.init headers runind) := by
  refine Along.next rfl trivial (Along.next rfl trivial (Along.next rfl ?_ (Along.next rfl ?_ ?_)))
  · exact ⟨Nat.two_pos, hrun, nofun⟩
  · exact Nat.one_pos
  · refine ⟨mem_insert_self _ _, ?_⟩
    intro m s hstep
    obtain ⟨⟨m', b⟩, -, heq⟩ := Option.map_eq_some_iff.mp hstep
    cases heq
    refine ⟨?_, fun _ _ _ => trivial⟩
    cases m' <;> exact Nat.one_pos

/-- The second thread finds the run of the first one, and no region is handed out twice. -/
theorem bin_regions_twoThreads :
    Along (BinSys.step (arenaBinInfo defaultConfig 3)) (BinSys.OpOk (arenaBinInfo defaultConfig 3))
        [.malloc, .malloc, .newRun (some page) fun _ => 0, .newRun none fun _ => 0,
          .resume (some page), .resume none]
        (BinSys.init (fun _ => ⟨0, 0, fun _ => 0⟩) fun _ => 0) ∧
      EachStep (BinSys.step (arenaBinInfo defaultConfig 3)) (fun s _ m _ => s.New m)
        [.malloc, .malloc, .newRun (some page) fun _ => 0, .newRun none fun _ => 0,
          .resume (some page), .resume none]
        (BinSys.init (fun _ => ⟨0, 0, fun _ => 0⟩) fun _ => 0) := by
  have hok := along_twoThreads (arenaBinInfo defaultConfig 3) (dvd_refl page)
    (fun _ => ⟨0, 0, fun _ => 0⟩) (fun _ => 0) fun _ => 0
  exact ⟨hok, (bin_regions_of_run defaultConfig (show 3 < nbins by decide) _ _ hok).1⟩

end Jemalloc
