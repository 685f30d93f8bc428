/-
# The cached process

With `enable_optimze` set `find_proc_obj` remembers the object that it last took from
`proc_tree`, and returns it without a search when it is asked for `prev_proc_id`.  This id is
set by `nv_record_chunk` alone, so the two globals fall out of step when another function looks
for another process.

The functions of the store are given here as far as they use the list of processes: which
objects they look for and enter, in which order, and where they stop.  Whether the chunk is in
`chunkmap_cache` and whether the trees have it are arguments, as are the process in the record of
a chunk that is found and the addresses at which process records are mapped or copied.

`chunkmap_cache` is keyed by ids alone.  So `nv_record_chunk` for a name that another process
uses finds the chunk of that process, and its closing `nv_delete` looks for that process.
-/
import NvMalloc.Rbtree
import NvMalloc.Runs

/-! ## The code -/

/-- A process object: its `pid` and where it lies. -/
structure ProcRef where
  pid : ℕ
  addr : ℕ
  deriving DecidableEq

/-- `proc_tree` (`none` until `proc_list_init` is set), `prev_proc_id` and `prev_proc_obj`. -/
structure ProcList where
  procTree : Option (Rbtree ProcRef) := none
  prevProcId : ℕ := 0
  prevProcObj : Option ProcRef := none

/-- What `get_chunk` meets: the id is in `chunkmap_cache`; or else the trees have a chunk. -/
structure ChunkSearch where
  cached : Bool
  known : Bool
  deriving DecidableEq

namespace ProcList

/-- `find_process`, the search of the tree. -/
def findProcess (s : ProcList) (pid : ℕ) : Option ProcRef := s.procTree.bind fun t => t.find pid

/-- `find_proc_obj`, with `enable_optimze`. -/
def findProcObj (s : ProcList) (procId : ℕ) : Option ProcRef × ProcList :=
  if procId ≠ 0 ∧ procId = s.prevProcId ∧ s.prevProcObj.isSome then (s.prevProcObj, s)
  else
    match s.procTree with
    | none => (none, { s with procTree := some .empty })
    | some t => (t.find procId, { s with prevProcObj := t.find procId })

/-- `add_proc_obj`. -/
def addProcObj (s : ProcList) (proc : ProcRef) : ProcList :=
  { s with procTree := some ((s.procTree.getD .empty).insert proc.pid proc) }

/-- `create_or_load_proc_obj`, which maps the record at `addr` if the process is not listed. -/
def createOrLoadProcObj (s : ProcList) (pid addr : ℕ) : ProcRef :=
  (s.findProcess pid).getD ⟨pid, addr⟩

/-- `create_new_process`. -/
def createNewProcess (s : ProcList) (pid addr : ℕ) : ProcList :=
  s.addProcObj (s.createOrLoadProcObj pid addr)

/-- `load_process`; without write permission the object is a copy at `copy`. -/
def loadProcess (wrtPerm : Bool) (s : ProcList) (pid addr copy : ℕ) : ProcList :=
  let nvProc := s.createOrLoadProcObj pid addr
  s.addProcObj (if wrtPerm then nvProc else ⟨nvProc.pid, copy⟩)

/-- `get_chunk`; returns whether it found a chunk. -/
def getChunk (s : ProcList) (pid : ℕ) (search : ChunkSearch) : Option (Bool × ProcList) :=
  if search.cached then some (true, s)
  else if pid = 0 then none
  else
    let (proc, s) := s.findProcObj pid
    some (proc.isSome && search.known, s)

/-- `nv_delete`. -/
def nvDelete (s : ProcList) (pid : ℕ) (search : ChunkSearch) : Option ProcList := do
  guard (pid ≠ 0)
  let (proc, s) := s.findProcObj pid
  guard proc.isSome
  let (_, s) ← s.getChunk pid search
  return s

/-- `nv_record_chunk`.  When the chunk that it finds under the name is valid, it is deleted at the
end: `old` has the process in its record, and what `get_chunk` meets then. -/
def nvRecordChunk (s : ProcList) (pid addr : ℕ) (search : ChunkSearch)
    (old : Option (ℕ × ChunkSearch)) : Option ProcList := do
  let (proc, s) := s.findProcObj pid
  let s := if proc.isSome then s else s.createNewProcess pid addr
  let (found, s) ← s.getChunk pid search
  let s := { s with prevProcId := pid }
  match if found then old else none with
  | none => return s
  | some (oldPid, search) => s.nvDelete oldPid search

/-- `nv_rename`. -/
def nvRename (s : ProcList) (pid : ℕ) (search : ChunkSearch) : Option ProcList := do
  let (found, s) ← s.getChunk pid search
  if found then
    let (proc, s) := s.findProcObj pid
    guard proc.isSome
    return s
  else
    return s

/-- `nv_map_read`, which loads a process that is not listed. -/
def nvMapRead (wrtPerm : Bool) (s : ProcList) (pid addr copy : ℕ) : ProcList :=
  if (s.findProcess pid).isSome then s else loadProcess wrtPerm s pid addr copy

/-- `_mmap`, which does not list the record that it maps. -/
def mmap (s : ProcList) (pid : ℕ) : Option ProcList := do
  guard (pid ≠ 0)
  return (s.findProcObj pid).2

end ProcList

/-- The calls of a program. -/
inductive ProcCall where
  | nvRecordChunk (pid addr : ℕ) (search : ChunkSearch) (old : Option (ℕ × ChunkSearch))
  | nvDelete (pid : ℕ) (search : ChunkSearch)
  | nvRename (pid : ℕ) (search : ChunkSearch)
  | getChunk (pid : ℕ) (search : ChunkSearch)
  | nvMapRead (pid addr copy : ℕ)
  | loadProcess (pid addr copy : ℕ)
  | mmap (pid : ℕ)

open ProcList
open Option hiding guard

/-- One call.  `wrtPerm` is what `check_modify_access` returns in the build. -/
def procCall (wrtPerm : Bool) (s : ProcList) (call : ProcCall) : Option (Unit × ProcList) :=
  match call with
  | .nvRecordChunk pid addr search old => (s.nvRecordChunk pid addr search old).map ((), ·)
  | .nvDelete pid search => (s.nvDelete pid search).map ((), ·)
  | .nvRename pid search => (s.nvRename pid search).map ((), ·)
  | .getChunk pid search => (s.getChunk pid search).map fun x => ((), x.2)
  | .nvMapRead pid addr copy => some ((), nvMapRead wrtPerm s pid addr copy)
  | .loadProcess pid addr copy => some ((), loadProcess wrtPerm s pid addr copy)
  | .mmap pid => (s.mmap pid).map ((), ·)

/-- `find_proc_obj` returns what is in the tree, for every process. -/
def ProcAgrees (s : ProcList) : Prop := ∀ pid, (s.findProcObj pid).1 = s.findProcess pid

/-- A search for `pid` leaves the cached object one of `prev_proc_id`, or none. -/
def KeepsCached (s : ProcList) (pid : ℕ) : Prop :=
  s.prevProcId = 0 ∨ pid = s.prevProcId ∨ s.findProcess pid = none

/-- The calls after which the cache still agrees with the tree: `nv_record_chunk` unless it deletes
the chunk of another process, loads that do not replace the cached object, and searches for the
process of the last `nv_record_chunk` or for one that is not listed. -/
def SafeCall (wrtPerm : Bool) (s : ProcList) : ProcCall → Prop
  | .nvRecordChunk pid _ search old => search.cached = true ∨ search.known = true →
    ∀ o ∈ old, pid = 0 ∨ o.1 = pid
  | .nvDelete pid _ => KeepsCached s pid
  | .nvRename pid _ => KeepsCached s pid
  | .getChunk pid search => search.cached = true ∨ KeepsCached s pid
  | .nvMapRead _ _ _ => True
  | .loadProcess pid _ copy => wrtPerm = true ∨ s.prevProcId = 0 ∨ pid ≠ s.prevProcId ∨
      s.prevProcObj = none ∨ s.prevProcObj = some ⟨pid, copy⟩
  | .mmap pid => KeepsCached s pid

/-! ## What a search leaves -/

namespace ProcList

variable {s s' : ProcList} {pid : ℕ} {proc : Option ProcRef}

/-- The three ways through `find_proc_obj`. -/
theorem findProcObj_cases (s : ProcList) (pid : ℕ) :
    (pid ≠ 0 ∧ pid = s.prevProcId ∧ ∃ o, s.prevProcObj = some o ∧ s.findProcObj pid = (some o, s)) ∨
    (s.procTree = none ∧ s.findProcObj pid = (none, { s with procTree := some .empty })) ∨
    ∃ t, s.procTree = some t ∧
      s.findProcObj pid = (t.find pid, { s with prevProcObj := t.find pid }) := by
  rw [findProcObj]
  split
  · next h =>
    obtain ⟨h0, hid, hsome⟩ := h
    obtain ⟨o, ho⟩ := isSome_iff_exists.mp hsome
    exact .inl ⟨h0, hid, o, ho, by rw [ho]⟩
  · right
    cases ht : s.procTree with
    | none => exact .inl ⟨rfl, rfl⟩
    | some t => exact .inr ⟨t, rfl, rfl⟩

/-- A search changes neither the tree's entries nor `prev_proc_id`. -/
theorem findProcObj_frame (s : ProcList) (pid : ℕ) :
    (s.findProcObj pid).2.prevProcId = s.prevProcId ∧
      (s.findProcObj pid).2.findProcess = s.findProcess := by
  rcases findProcObj_cases s pid with ⟨-, -, o, -, heq⟩ | ⟨ht, heq⟩ | ⟨t, ht, heq⟩
  · rw [heq]
    exact ⟨rfl, rfl⟩
  · rw [heq]
    refine ⟨rfl, ?_⟩
    funext k
    rw [findProcess, findProcess, ht, bind_some, Rbtree.find_empty, bind_none]
  · rw [heq]
    exact ⟨rfl, rfl⟩

/-- The cached object is the one of `pid`, or there is none. -/
def Caches (s : ProcList) (pid : ℕ) : Prop :=
  s.prevProcObj = none ∨ s.prevProcObj = s.findProcess pid

/-- What holds of the list in every run: objects are entered under their own id, and nothing
is cached before there is a tree. -/
structure Listed (s : ProcList) : Prop where
  own : ∀ {pid o}, s.findProcess pid = some o → o.pid = pid
  fresh : s.procTree = none → s.prevProcObj = none

/-- The cache can be wrong only for `prev_proc_id`. -/
theorem procAgrees_iff (s : ProcList) :
    ProcAgrees s ↔ s.prevProcId = 0 ∨ s.Caches s.prevProcId := by
  constructor
  · intro h
    by_cases h0 : s.prevProcId = 0
    · exact .inl h0
    right
    cases ho : s.prevProcObj with
    | none => exact .inl ho
    | some o =>
      have hit : s.findProcObj s.prevProcId = (s.prevProcObj, s) :=
        if_pos ⟨h0, rfl, by rw [ho]; rfl⟩
      have hprev := h s.prevProcId
      rw [hit] at hprev
      exact .inr hprev
  · intro h pid
    rcases findProcObj_cases s pid with ⟨h0, rfl, o, ho, heq⟩ | ⟨ht, heq⟩ | ⟨t, ht, heq⟩
    · rcases h.resolve_left h0 with hnone | hsame
      · rw [ho] at hnone
        cases hnone
      · rw [heq, ← ho, hsame]
    · rw [heq, findProcess, ht, bind_none]
    · rw [heq, findProcess, ht, bind_some]

theorem Listed.findProcObj (h : s.Listed) (pid : ℕ) : (s.findProcObj pid).2.Listed := by
  constructor
  · intro k o hk
    rw [(findProcObj_frame s pid).2] at hk
    exact h.own hk
  · intro ht
    rcases findProcObj_cases s pid with ⟨-, -, o, -, heq⟩ | ⟨-, heq⟩ | ⟨t, ht', heq⟩
    · rw [heq] at ht ⊢
      exact h.fresh ht
    · rw [heq] at ht
      cases ht
    · rw [heq] at ht
      exact absurd (ht'.symm.trans ht) (by simp)

/-- After a search for `pid` the cached object is the one of `pid`, if a hit returned that. -/
theorem caches_findProcObj (hl : s.Listed) (h : pid ≠ 0 → pid = s.prevProcId → s.Caches pid) :
    (s.findProcObj pid).2.Caches pid := by
  rcases findProcObj_cases s pid with ⟨h0, hid, o, -, heq⟩ | ⟨ht, heq⟩ | ⟨t, ht, heq⟩
  · rw [heq]
    exact h h0 hid
  · rw [heq]
    exact .inl (hl.fresh ht)
  · rw [heq]
    refine .inr ?_
    show t.find pid = s.procTree.bind fun t => t.find pid
    rw [ht, bind_some]

/-- After a search the cache agrees with the tree exactly if it was one of those allowed. -/
theorem procAgrees_findProcObj (hl : s.Listed) (h : ProcAgrees s) (pid : ℕ) :
    ProcAgrees (s.findProcObj pid).2 ↔ KeepsCached s pid := by
  obtain ⟨hprev, hfind⟩ := findProcObj_frame s pid
  rw [procAgrees_iff, hprev]
  constructor
  · rintro (h0 | hcaches)
    · exact .inl h0
    refine .inr ?_
    by_cases hid : pid = s.prevProcId
    · exact .inl hid
    right
    -- the object found would be entered under two ids
    rcases findProcObj_cases s pid with ⟨-, hid', -⟩ | ⟨ht, -⟩ | ⟨t, ht, heq⟩
    · exact absurd hid' hid
    · rw [findProcess, ht, bind_none]
    · have hpid : s.findProcess pid = t.find pid := by rw [findProcess, ht, bind_some]
      rw [Caches, hfind, heq, ← hpid] at hcaches
      rcases hcaches with hnone | hsame
      · exact hnone
      · cases ho : s.findProcess pid with
        | none => rfl
        | some o =>
          have ho' : s.findProcess s.prevProcId = some o := hsame.symm.trans ho
          exact absurd ((hl.own ho).symm.trans (hl.own ho')) hid
  · rintro (h0 | rfl | hnone)
    · exact .inl h0
    · rcases (procAgrees_iff s).mp h with h0 | hcaches
      · exact .inl h0
      · exact .inr (caches_findProcObj hl fun _ _ => hcaches)
    · rcases findProcObj_cases s pid with ⟨-, -, o, -, heq⟩ | ⟨ht, heq⟩ | ⟨t, ht, heq⟩
      · rw [Caches, hfind, heq]
        exact (procAgrees_iff s).mp h
      · refine .inr (.inl ?_)
        rw [heq]
        exact hl.fresh ht
      · refine .inr (.inl ?_)
        rw [findProcess, ht, bind_some] at hnone
        rw [heq]
        exact hnone

/-- A search that finds nothing leaves nothing in the cache. -/
theorem prevProcObj_findProcObj (hl : s.Listed) (h : (s.findProcObj pid).1 = none) :
    (s.findProcObj pid).2.prevProcObj = none := by
  rcases findProcObj_cases s pid with ⟨-, -, o, -, heq⟩ | ⟨ht, heq⟩ | ⟨t, -, heq⟩
  · rw [heq] at h
    cases h
  · rw [heq]
    exact hl.fresh ht
  · rw [heq] at h ⊢
    exact h

/-- A second search changes nothing. -/
theorem findProcObj_again {o : ProcRef} (h : s.findProcObj pid = (some o, s')) :
    s'.findProcObj pid = (some o, s') := by
  rcases findProcObj_cases s pid with ⟨-, -, o', -, heq⟩ | ⟨-, heq⟩ | ⟨t, ht, heq⟩
  · obtain ⟨rfl, rfl⟩ : o' = o ∧ s = s' := by
      rw [heq] at h
      cases h
      exact ⟨rfl, rfl⟩
    exact h
  · rw [heq] at h
    cases h
  · rw [heq, Prod.mk.injEq] at h
    obtain ⟨ho, rfl⟩ := h
    rcases findProcObj_cases { s with prevProcObj := t.find pid } pid with
      ⟨-, -, o', ho', heq'⟩ | ⟨ht', -⟩ | ⟨t', ht', heq'⟩
    · rw [heq']
      rw [show t.find pid = some o' from ho'] at ho
      cases ho
      rfl
    · exact absurd (ht.symm.trans ht') (by simp)
    · obtain rfl : t = t' := some.inj (ht.symm.trans ht')
      rw [heq', ho]

/-! ## What the functions leave -/

variable {search : ChunkSearch} {found : Bool}

/-- The two ways through `get_chunk`. -/
theorem getChunk_cases (h : s.getChunk pid search = some (found, s')) :
    (search.cached = true ∧ found = true ∧ s' = s) ∨
    (search.cached = false ∧ s' = (s.findProcObj pid).2 ∧
      (found = true → (s.findProcObj pid).1.isSome = true)) := by
  rw [getChunk] at h
  cases hc : search.cached with
  | true =>
    rw [hc] at h
    cases h
    exact .inl ⟨rfl, rfl, rfl⟩
  | false =>
    rw [hc, if_neg Bool.false_ne_true] at h
    split at h
    · cases h
    · cases h
      refine .inr ⟨rfl, rfl, ?_⟩
      intro hfound
      exact (Bool.and_eq_true_iff.mp hfound).1

theorem nvDelete_eq (h : s.nvDelete pid search = some s') :
    s' = (s.findProcObj pid).2 := by
  simp only [nvDelete, bind_eq_bind, bind_eq_some_iff, Option.guard_eq_some',
    pure_def, some.injEq] at h
  obtain ⟨-, -, -, hsome, ⟨found, s₂⟩, hget, rfl⟩ := h
  obtain ⟨o, ho⟩ := isSome_iff_exists.mp hsome
  rcases getChunk_cases hget with ⟨-, -, rfl⟩ | ⟨-, rfl, -⟩
  · rfl
  · rw [findProcObj_again (Prod.ext ho rfl : s.findProcObj pid = (some o, _))]

/-- `nv_delete` gets through only for a process that is listed. -/
theorem listed_of_nvDelete (hagrees : ProcAgrees s) (h : s.nvDelete pid search = some s') :
    ∃ o, s.findProcess pid = some o := by
  simp only [nvDelete, bind_eq_bind, bind_eq_some_iff, Option.guard_eq_some',
    pure_def, some.injEq] at h
  obtain ⟨-, -, -, hsome, -⟩ := h
  rw [hagrees pid] at hsome
  exact isSome_iff_exists.mp hsome

theorem nvRename_eq (h : s.nvRename pid search = some s') :
    s' = (s.findProcObj pid).2 := by
  simp only [nvRename, bind_eq_bind, bind_eq_some_iff, pure_def] at h
  obtain ⟨⟨found, s₁⟩, hget, h⟩ := h
  cases found with
  | false =>
    simp only [Bool.false_eq_true, if_false, some.injEq] at h
    rcases getChunk_cases hget with ⟨-, hfound, -⟩ | ⟨-, rfl, -⟩
    · cases hfound
    · exact h.symm
  | true =>
    simp only [if_true, bind_eq_some_iff, Option.guard_eq_some', some.injEq] at h
    obtain ⟨-, -, rfl⟩ := h
    rcases getChunk_cases hget with ⟨-, -, rfl⟩ | ⟨-, rfl, hfound⟩
    · rfl
    · obtain ⟨o, ho⟩ := isSome_iff_exists.mp (hfound rfl)
      rw [findProcObj_again (Prod.ext ho rfl : s.findProcObj pid = (some o, _))]

theorem findProcess_addProcObj (s : ProcList) (proc : ProcRef) (k : ℕ) :
    (s.addProcObj proc).findProcess k = if k = proc.pid then some proc else s.findProcess k := by
  rw [findProcess, addProcObj, bind_some, Rbtree.find_insert]
  split
  · rfl
  · cases ht : s.procTree with
    | none => rw [findProcess, ht, getD_none, Rbtree.find_empty, bind_none]
    | some t => rw [findProcess, ht, getD_some, bind_some]

theorem Listed.addProcObj (h : s.Listed) (proc : ProcRef) : (s.addProcObj proc).Listed := by
  constructor
  · intro k o hk
    rw [findProcess_addProcObj] at hk
    split at hk
    · next hkp =>
      cases hk
      exact hkp.symm
    · exact h.own hk
  · intro ht
    cases ht

theorem pid_createOrLoadProcObj (h : s.Listed) (pid addr : ℕ) :
    (s.createOrLoadProcObj pid addr).pid = pid := by
  rw [createOrLoadProcObj]
  cases ho : s.findProcess pid with
  | none => rfl
  | some o => exact h.own ho

theorem Listed.getChunk (hl : s.Listed) (h : s.getChunk pid search = some (found, s')) :
    s'.Listed := by
  rcases getChunk_cases h with ⟨-, -, rfl⟩ | ⟨-, rfl, -⟩
  · exact hl
  · exact hl.findProcObj pid

theorem Caches.getChunk (hc : s.Caches pid) (hl : s.Listed)
    (h : s.getChunk pid search = some (found, s')) : s'.Caches pid := by
  rcases getChunk_cases h with ⟨-, -, rfl⟩ | ⟨-, rfl, -⟩
  · exact hc
  · exact caches_findProcObj hl fun _ _ => hc

/-- What `get_chunk` returns for a process that is listed, or cached. -/
theorem getChunk_found {o : ProcRef} (ho : (s.findProcObj pid).1 = some o)
    (h : s.getChunk pid search = some (found, s')) :
    found = true ↔ search.cached = true ∨ search.known = true := by
  rw [getChunk] at h
  cases hc : search.cached with
  | true =>
    rw [hc] at h
    cases h
    simp
  | false =>
    rw [hc, if_neg Bool.false_ne_true] at h
    split at h
    · cases h
    · simp only [ho, isSome_some, Bool.true_and, some.injEq, Prod.mk.injEq] at h
      rw [← h.1]
      simp

/-- The process of `nv_record_chunk` is listed before its first search for the chunk, and cached if
anything is. -/
theorem recordProcess_spec (hl : s.Listed) (h : ProcAgrees s) (pid addr : ℕ) {s₁ : ProcList}
    (hs₁ : s₁ = if (s.findProcObj pid).1.isSome then (s.findProcObj pid).2
      else (s.findProcObj pid).2.createNewProcess pid addr) :
    s₁.Listed ∧ s₁.Caches pid ∧ ∃ o, (s₁.findProcObj pid).1 = some o := by
  cases ho : (s.findProcObj pid).1 with
  | some o =>
    rw [ho, isSome_some, if_pos rfl] at hs₁
    rw [hs₁]
    refine ⟨hl.findProcObj pid, caches_findProcObj hl ?_, o, ?_⟩
    · rintro h0 rfl
      exact ((procAgrees_iff s).mp h).resolve_left h0
    · rw [findProcObj_again (Prod.ext ho rfl : s.findProcObj pid = (some o, _))]
  | none =>
    rw [ho, isSome_none, if_neg Bool.false_ne_true] at hs₁
    have hnone := prevProcObj_findProcObj hl ho
    have hl' := hl.findProcObj pid
    have hpid := pid_createOrLoadProcObj hl' pid addr
    rw [hs₁]
    refine ⟨hl'.addProcObj _, .inl hnone, (s.findProcObj pid).2.createOrLoadProcObj pid addr, ?_⟩
    have hagrees : ProcAgrees ((s.findProcObj pid).2.createNewProcess pid addr) :=
      (procAgrees_iff _).mpr (.inr (.inl hnone))
    rw [hagrees pid, createNewProcess, findProcess_addProcObj, if_pos hpid.symm]

/-- After `nv_record_chunk` the cached object is the one of its process, unless a chunk of another
process was deleted. -/
theorem nvRecordChunk_spec {addr : ℕ} {old : Option (ℕ × ChunkSearch)} (hl : s.Listed)
    (h : ProcAgrees s) (hcall : s.nvRecordChunk pid addr search old = some s') :
    s'.Listed ∧ (ProcAgrees s' ↔
      (search.cached = true ∨ search.known = true → ∀ o ∈ old, pid = 0 ∨ o.1 = pid)) := by
  simp only [nvRecordChunk, bind_eq_bind, bind_eq_some_iff, pure_def] at hcall
  obtain ⟨⟨found, s₂⟩, hget, hend⟩ := hcall
  obtain ⟨s₁, hs₁⟩ : ∃ s₁, s₁ = if (s.findProcObj pid).1.isSome then (s.findProcObj pid).2
    else (s.findProcObj pid).2.createNewProcess pid addr := ⟨_, rfl⟩
  rw [← hs₁] at hget
  obtain ⟨hl₁, hc₁, o, ho⟩ := recordProcess_spec hl h pid addr hs₁
  have hfound := getChunk_found ho hget
  have hl₂ := hl₁.getChunk hget
  have hlisted : ({ s₂ with prevProcId := pid } : ProcList).Listed := ⟨hl₂.own, hl₂.fresh⟩
  have hc₂ : s₂.Caches pid := hc₁.getChunk hl₁ hget
  have hagrees : ProcAgrees { s₂ with prevProcId := pid } := (procAgrees_iff _).mpr (.inr hc₂)
  rw [← hfound]
  cases hdel : if found then old else none with
  | none =>
    rw [hdel] at hend
    cases hend
    refine ⟨hlisted, iff_of_true hagrees ?_⟩
    rintro rfl o ho
    rw [if_pos rfl] at hdel
    rw [hdel] at ho
    cases ho
  | some x =>
    obtain ⟨oldPid, search'⟩ := x
    obtain ⟨rfl, rfl⟩ : found = true ∧ old = some (oldPid, search') := by
      cases found with
      | true => exact ⟨rfl, hdel⟩
      | false => cases hdel
    have hend' : ({ s₂ with prevProcId := pid } : ProcList).nvDelete oldPid search' = some s' :=
      hend
    obtain ⟨o', hlist⟩ := listed_of_nvDelete hagrees hend'
    rw [nvDelete_eq hend']
    refine ⟨hlisted.findProcObj oldPid, ?_⟩
    rw [procAgrees_findProcObj hlisted hagrees oldPid, KeepsCached]
    simp only [hlist, reduceCtorEq, or_false, mem_def, some.injEq, forall_eq', true_imp_iff]

/-- Entering an object for `pid` keeps the agreement unless it replaces the cached one. -/
theorem procAgrees_addProcObj (h : ProcAgrees s) (proc : ProcRef) :
    ProcAgrees (s.addProcObj proc) ↔ s.prevProcId = 0 ∨ proc.pid ≠ s.prevProcId ∨
      s.prevProcObj = none ∨ s.prevProcObj = some proc := by
  have hcaches : (s.addProcObj proc).Caches s.prevProcId ↔
      s.prevProcObj = none ∨ s.prevProcObj = if s.prevProcId = proc.pid then some proc
        else s.findProcess s.prevProcId := by
    rw [Caches, findProcess_addProcObj]
    rfl
  have hiff : ProcAgrees (s.addProcObj proc) ↔
      s.prevProcId = 0 ∨ (s.addProcObj proc).Caches s.prevProcId := procAgrees_iff _
  rw [hiff, hcaches]
  rcases eq_or_ne proc.pid s.prevProcId with hid | hid
  · rw [if_pos hid.symm]
    simp [hid]
  · rw [if_neg (Ne.symm hid)]
    simp only [hid, ne_eq, not_false_eq_true, true_or, or_true, iff_true]
    exact (procAgrees_iff s).mp h

/-- With write permission a load enters the object that is there. -/
theorem loadProcess_spec (hl : s.Listed) (h : ProcAgrees s) (wrtPerm : Bool) (pid addr copy : ℕ) :
    (loadProcess wrtPerm s pid addr copy).Listed ∧
      (ProcAgrees (loadProcess wrtPerm s pid addr copy) ↔
        SafeCall wrtPerm s (.loadProcess pid addr copy)) := by
  refine ⟨hl.addProcObj _, ?_⟩
  have hpid := pid_createOrLoadProcObj hl pid addr
  rw [loadProcess, procAgrees_addProcObj h, SafeCall]
  cases wrtPerm with
  | false =>
    simp only [Bool.false_eq_true, if_false, hpid, false_or]
  | true =>
    simp only [if_true, hpid, true_or, iff_true]
    rcases (procAgrees_iff s).mp h with h0 | hnone | hsame
    · exact .inl h0
    · exact .inr (.inr (.inl hnone))
    · refine .inr ?_
      rcases eq_or_ne pid s.prevProcId with rfl | hne
      · right
        rw [createOrLoadProcObj, ← hsame]
        cases s.prevProcObj with
        | none => exact .inl rfl
        | some o => exact .inr rfl
      · exact .inl hne

/-- `nv_map_read` loads only what is not listed. -/
theorem nvMapRead_spec {wrtPerm : Bool} {addr copy : ℕ} (hl : s.Listed) (h : ProcAgrees s) :
    (nvMapRead wrtPerm s pid addr copy).Listed ∧
      ProcAgrees (nvMapRead wrtPerm s pid addr copy) := by
  rw [nvMapRead]
  split
  · exact ⟨hl, h⟩
  · next hno =>
    obtain ⟨hlisted, hiff⟩ := loadProcess_spec hl h wrtPerm pid addr copy
    refine ⟨hlisted, hiff.mpr (.inr ?_)⟩
    rcases (procAgrees_iff s).mp h with h0 | hnone | hsame
    · exact .inl h0
    · exact .inr (.inr (.inl hnone))
    · rcases eq_or_ne pid s.prevProcId with rfl | hne
      · rw [not_isSome_iff_eq_none] at hno
        exact .inr (.inr (.inl (hsame.trans hno)))
      · exact .inr (.inl hne)

end ProcList

/-! ## Runs -/

/-- A call from a state in which the cache agrees leaves it so exactly if it is safe. -/
theorem procCall_spec {wrtPerm : Bool} {s s' : ProcList} {call : ProcCall} {u : Unit}
    (hl : s.Listed) (h : ProcAgrees s) (hcall : procCall wrtPerm s call = some (u, s')) :
    s'.Listed ∧ (ProcAgrees s' ↔ SafeCall wrtPerm s call) := by
  cases call with
  | nvRecordChunk pid addr search old =>
    obtain ⟨s₁, hs₁, heq⟩ := map_eq_some_iff.mp hcall
    cases heq
    exact nvRecordChunk_spec hl h hs₁
  | nvDelete pid search =>
    obtain ⟨s₁, hs₁, heq⟩ := map_eq_some_iff.mp hcall
    cases heq
    rw [nvDelete_eq hs₁]
    exact ⟨hl.findProcObj pid, procAgrees_findProcObj hl h pid⟩
  | nvRename pid search =>
    obtain ⟨s₁, hs₁, heq⟩ := map_eq_some_iff.mp hcall
    cases heq
    rw [nvRename_eq hs₁]
    exact ⟨hl.findProcObj pid, procAgrees_findProcObj hl h pid⟩
  | getChunk pid search =>
    obtain ⟨⟨found, s₁⟩, hs₁, heq⟩ := map_eq_some_iff.mp hcall
    cases heq
    refine ⟨hl.getChunk hs₁, ?_⟩
    rcases getChunk_cases hs₁ with ⟨hc, -, rfl⟩ | ⟨hc, rfl, -⟩
    · exact iff_of_true h (.inl hc)
    · rw [procAgrees_findProcObj hl h pid, SafeCall, hc]
      simp
  | nvMapRead pid addr copy =>
    cases hcall
    obtain ⟨hlisted, hagrees⟩ := nvMapRead_spec hl h
    exact ⟨hlisted, iff_of_true hagrees trivial⟩
  | loadProcess pid addr copy =>
    cases hcall
    exact loadProcess_spec hl h wrtPerm pid addr copy
  | mmap pid =>
    obtain ⟨s₁, hs₁, heq⟩ := map_eq_some_iff.mp hcall
    cases heq
    simp only [ProcList.mmap, bind_eq_bind, bind_eq_some_iff, pure_def, some.injEq] at hs₁
    obtain ⟨-, -, rfl⟩ := hs₁
    exact ⟨hl.findProcObj pid, procAgrees_findProcObj hl h pid⟩

theorem listed_empty : ({} : ProcList).Listed where
  own h := by cases h
  fresh _ := rfl

theorem procAgrees_empty : ProcAgrees {} := (procAgrees_iff {}).mpr (.inl rfl)

/-- **The cached process agrees with the tree after every call of a run exactly if the process
that is looked for is the one of the last `nv_record_chunk`, or not listed**, no
`nv_record_chunk` deletes the chunk of another process, and no load replaces the cached object by
a new copy. -/
theorem procAgrees_iff_of_run (wrtPerm : Bool) {calls : List ProcCall} {us : List Unit}
    {s : ProcList} (hrun : runSteps (procCall wrtPerm) calls {} = some (us, s)) :
    EachStep (procCall wrtPerm) (fun _ _ _ s' => ProcAgrees s') calls {} ↔
      Along (procCall wrtPerm) (SafeCall wrtPerm) calls {} := by
  refine eachStep_iff_along (I := fun s => s.Listed ∧ ProcAgrees s) ?_
    ⟨listed_empty, procAgrees_empty⟩ hrun
  intro s call u s' hinv hcall
  obtain ⟨hlisted, hiff⟩ := procCall_spec hinv.1 hinv.2 hcall
  exact ⟨hiff, fun hsafe => ⟨hlisted, hiff.mpr hsafe⟩⟩

/-- A process records a chunk and another one of the same name, and then deletes it, after another
process recorded one. -/
def lastRecorded : List ProcCall :=
  [.nvRecordChunk 2 4096 ⟨false, false⟩ none, .nvRecordChunk 1 8192 ⟨false, false⟩ none,
    .nvRecordChunk 1 8192 ⟨true, true⟩ (some (1, ⟨true, true⟩)), .nvDelete 1 ⟨false, true⟩]

theorem procAgrees_lastRecorded :
    EachStep (procCall true) (fun _ _ _ s' => ProcAgrees s') lastRecorded {} := by
  obtain ⟨⟨us, s⟩, hrun⟩ := isSome_iff_exists.mp
    (show (runSteps (procCall true) lastRecorded {}).isSome by decide)
  refine (procAgrees_iff_of_run true hrun).mpr ?_
  refine .next (by decide) (fun _ _ h => nomatch h) (.next (by decide) (fun _ _ h => nomatch h) ?_)
  refine .next (by decide) ?_ (.next (by decide) (.inr (.inl rfl)) True.intro)
  rintro - o ho
  cases ho
  exact .inr rfl

/-- After a search for the other process its object is returned for both; and so it is when
`nv_record_chunk` finds the chunk of the other process under the name and deletes it. -/
theorem findProcObj_otherProcess :
    ((runSteps (procCall true) [.nvRecordChunk 2 4096 ⟨false, false⟩ none,
      .nvRecordChunk 1 8192 ⟨false, false⟩ none, .getChunk 2 ⟨false, false⟩] {}).map
      fun x => ((x.2.findProcObj 1).1, x.2.findProcess 1)) =
      some (some ⟨2, 4096⟩, some ⟨1, 8192⟩) ∧
    ((runSteps (procCall true) [.nvRecordChunk 2 4096 ⟨false, false⟩ none,
      .nvRecordChunk 1 8192 ⟨true, true⟩ (some (2, ⟨true, true⟩))] {}).map
      fun x => ((x.2.findProcObj 1).1, x.2.findProcess 1)) =
      some (some ⟨2, 4096⟩, some ⟨1, 8192⟩) := by
  decide
