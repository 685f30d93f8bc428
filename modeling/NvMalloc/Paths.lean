/-
# Backing files are never shared

`setup_map_file` opens a file with `O_TRUNC`, so calling it twice on one path loses what
the first file held.  The store calls it for three kinds of files: the record of a
process, the metadata of a region (file id `BASE_METADATA_NVID + vma_id`) and the data of
a region (file id `vma_id`).

* The path names are built from three base names, of which each is the beginning of the
  next, and decimal numbers.  They determine the kind, the process id and the file id
  (`MapFile.path_injective`).
* Over any history of one process, with crashes, no file is set up twice (`FilesInv`):
  `num_mmaps` is advanced in the process record before the data file of a region is made,
  and the metadata file of a region is made only in the run that mapped the region, as
  long as the region is not in the tree of the process.

A history is a run of the store's own functions on states that also hold the calls of
`setup_map_file` made so far (`Traced`).
-/
import NvMalloc.Decidability
import NvMalloc.Routine

open WriteM Function Option

/-! ## Path names -/

/-- `PROCMETADATA_PATH`. -/
def procmetadataPath : String := "/mnt/pmfs/chkproc"

/-- `PROCMAPMETADATA_PATH`. -/
def procmapmetadataPath : String := "/mnt/pmfs/chkprocmap"

/-- `PROCMAPDATAPATH`. -/
def procmapdatapath : String := "/mnt/pmfs/chkprocmapdata"

/-- `generate_file_name`: the base name and the process id as `%d` prints it. -/
def generateFileName (baseName : String) (pid : ℤ) : String := baseName ++ pid.repr

/-- `create_map_file`, and the same lines in `create_mmapobj` and `_mmap`. -/
def createMapFile (basepath : String) (pid vmaid : ℤ) : String :=
  generateFileName basepath pid ++ "_" ++ vmaid.repr

/-- A file of the store: its kind, process id and id. -/
inductive MapFile where
  | procRecord (pid : ℤ)
  | regionMeta (pid id : ℤ)
  | regionData (pid id : ℤ)
  deriving DecidableEq

/-- The path name `setup_map_file` gets. -/
def MapFile.path : MapFile → String
  | .procRecord pid => generateFileName procmetadataPath pid
  | .regionMeta pid id => createMapFile procmapmetadataPath pid id
  | .regionData pid id => createMapFile procmapdatapath pid id

/-- A number is printed with digits and a minus sign. -/
theorem mem_repr {c : Char} {n : ℤ} (h : c ∈ n.repr.toList) : c = '-' ∨ c.isDigit := by
  have hdigit : ∀ {m : ℕ}, c ∈ m.repr.toList → c.isDigit := fun hm =>
    Nat.isDigit_of_mem_toDigits (by decide) (by decide) (Nat.toList_repr ▸ hm)
  rw [Int.repr_eq_if] at h
  split at h
  · exact .inr (hdigit h)
  · rw [String.toList_append, List.mem_append] at h
    rcases h with h | h
    · exact .inl (List.mem_singleton.mp h)
    · exact .inr (hdigit h)

/-- A character that is no digit and no minus sign does not occur in a printed number. -/
theorem notMem_repr {c : Char} (hminus : c ≠ '-') (hdigit : c.isDigit = false) (n : ℤ) :
    c ∉ n.repr.toList := by
  intro h
  rcases mem_repr h with h | h
  · exact hminus h
  · rw [hdigit] at h
    cases h

/-- Two numbers with an underscore between them can be read back. -/
theorem repr_underscore_inj {a b a' b' : ℤ}
    (h : a.repr.toList ++ '_' :: b.repr.toList = a'.repr.toList ++ '_' :: b'.repr.toList) :
    a = a' ∧ b = b' := by
  have hno := notMem_repr (c := '_') (by decide) (by decide)
  obtain ⟨ha, -, hb⟩ := (List.append_cons_inj_of_notMem (hno a) (hno b)).mp h
  exact ⟨Int.repr_inj.mp (String.toList_inj.mp ha), Int.repr_inj.mp (String.toList_inj.mp hb)⟩

/-- A printed number and an underscore do not begin with a letter. -/
theorem repr_underscore_ne_cons {c : Char} (hminus : c ≠ '-') (hdigit : c.isDigit = false)
    (hline : c ≠ '_') (n : ℤ) (l l' : List Char) : n.repr.toList ++ '_' :: l ≠ c :: l' := by
  intro h
  cases hn : n.repr.toList with
  | nil =>
    rw [hn] at h
    exact hline (List.cons.inj h).1.symm
  | cons d ds =>
    rw [hn] at h
    refine notMem_repr hminus hdigit n ?_
    rw [hn, ← (List.cons.inj h).1]
    exact List.mem_cons_self

namespace MapFile

theorem toList_path_procRecord (pid : ℤ) :
    (path (.procRecord pid)).toList = procmetadataPath.toList ++ pid.repr.toList :=
  String.toList_append

theorem toList_path_regionMeta (pid id : ℤ) : (path (.regionMeta pid id)).toList =
    procmetadataPath.toList ++ 'm' :: 'a' :: 'p' :: (pid.repr.toList ++ '_' :: id.repr.toList) := by
  have hbase : procmapmetadataPath.toList = procmetadataPath.toList ++ ['m', 'a', 'p'] := by decide
  simp [path, createMapFile, generateFileName, hbase]

theorem toList_path_regionData (pid id : ℤ) : (path (.regionData pid id)).toList =
    procmetadataPath.toList ++ 'm' :: 'a' :: 'p' :: 'd' :: 'a' :: 't' :: 'a' ::
      (pid.repr.toList ++ '_' :: id.repr.toList) := by
  have hbase : procmapdatapath.toList =
    procmetadataPath.toList ++ ['m', 'a', 'p', 'd', 'a', 't', 'a'] := by decide
  simp [path, createMapFile, generateFileName, hbase]

/-- A path name determines the file. -/
theorem path_injective : Injective path := by
  intro f g h
  have hl := congrArg String.toList h
  -- the path of a process record goes on with a number, the others with a letter
  have hproc : ∀ (n : ℤ) (l : List Char), n.repr.toList ≠ 'm' :: l := by
    intro n l hn
    refine notMem_repr (c := 'm') (by decide) (by decide) n ?_
    rw [hn]
    exact List.mem_cons_self
  have hmeta := repr_underscore_ne_cons (c := 'd') (by decide) (by decide) (by decide)
  cases f <;> cases g <;>
    simp only [toList_path_procRecord, toList_path_regionMeta, toList_path_regionData] at hl <;>
    replace hl := List.append_cancel_left hl
  case procRecord.procRecord => rw [Int.repr_inj.mp (String.toList_inj.mp hl)]
  case procRecord.regionMeta => exact absurd hl (hproc _ _)
  case procRecord.regionData => exact absurd hl (hproc _ _)
  case regionMeta.procRecord => exact absurd hl.symm (hproc _ _)
  case regionData.procRecord => exact absurd hl.symm (hproc _ _)
  case regionMeta.regionMeta =>
    simp only [List.cons.injEq, true_and] at hl
    obtain ⟨rfl, rfl⟩ := repr_underscore_inj hl
    rfl
  case regionMeta.regionData =>
    simp only [List.cons.injEq, true_and] at hl
    exact absurd hl (hmeta _ _ _)
  case regionData.regionMeta =>
    simp only [List.cons.injEq, true_and] at hl
    exact absurd hl.symm (hmeta _ _ _)
  case regionData.regionData =>
    simp only [List.cons.injEq, true_and] at hl
    obtain ⟨rfl, rfl⟩ := repr_underscore_inj hl
    rfl

end MapFile

/-! ## Calls of `setup_map_file` -/

/-- Conversion to `int`, as `%d` reads an `unsigned int`. -/
def toInt (n : ℕ) : ℤ := Int.bmod n (2 ^ 32)

theorem toInt_inj {m n : ℕ} (hm : m < 2 ^ 32) (hn : n < 2 ^ 32) (h : toInt m = toInt n) :
    m = n := by
  have hmod : (m : ℤ) % (2 ^ 32 : ℕ) = (n : ℤ) % (2 ^ 32 : ℕ) := by
    rw [← Int.bmod_emod, ← Int.bmod_emod (x := n)]
    exact congrArg (· % ((2 ^ 32 : ℕ) : ℤ)) h
  rwa [← Int.natCast_mod, ← Int.natCast_mod, Nat.mod_eq_of_lt hm, Nat.mod_eq_of_lt hn,
    Int.natCast_inj] at hmod

/-- A call of `setup_map_file`. -/
inductive Setup where
  | proc (pid : ℕ)
  | metaFile (file : MetaFile)
  | dataFile (file : DataFile)
  deriving DecidableEq

/-- The file a call is for. -/
def Setup.file : Setup → MapFile
  | .proc pid => .procRecord pid
  | .metaFile f => .regionMeta f.pid (toInt f.id)
  | .dataFile f => .regionData f.pid (toInt f.vma)

/-- The path name of a call. -/
def Setup.path (s : Setup) : String := s.file.path

/-- The call of `setup_map_file` in a write. -/
def Write.setup : Write → Option Setup
  | .procFile p => some (.proc p)
  | .metaFile f => some (.metaFile f)
  | .dataFile f _ => some (.dataFile f)
  | _ => none

/-- The store with the calls of `setup_map_file` made so far. -/
structure Traced where
  store : Store
  setups : List Setup := []

/-- The effect of a write, with the call it makes. -/
def Traced.apply (c : Traced) (w : Write) : Traced :=
  ⟨c.store.apply w, c.setups ++ w.setup.toList⟩

instance : WriteEffect Traced Write := ⟨Traced.apply⟩

instance : WriteGhost Traced Store Write := ⟨Traced.store, fun _ _ => rfl⟩

theorem Traced.store_applyAll (c : Traced) (ws : List Write) :
    (applyAll c ws).store = applyAll c.store ws := proj_applyAll c ws

/-- A new run starts. -/
def Traced.reboot (c : Traced) : Traced := ⟨c.store.reboot, c.setups⟩

/-! ## Histories -/

/-- The calls of a history. -/
inductive FileOp where
  /-- `_mmap`. -/
  | mmap (size addr : ℕ)
  /-- An allocation, as far as it registers the region of its block. -/
  | register (name : ObjName) (bytes addr : ℕ)
  /-- An allocation. -/
  | alloc (name : ObjName) (bytes addr : ℕ)
  /-- `nv_initialize`. -/
  | init (place : DataFile → ℕ)

/-- The program of a call for process `p`. -/
def FileOp.prog (p : ℕ) : FileOp → NvM Unit
  | .mmap size addr => mmapRegion p size addr
  | .register n bytes addr => do let _ ← recordRegion (allocRqst p n bytes) addr
  | .alloc n bytes addr => nvRecordChunk (allocRqst p n bytes) addr
  | .init place => nvInitialize place p

/-- A write that sets up no file and leaves `num_mmaps` alone. -/
def Write.Minor : Write → Prop
  | .procFile _ => False
  | .metaFile _ => False
  | .dataFile _ _ => False
  | .proc _ f => ∀ h, (f h).numMmaps = h.numMmaps
  | _ => True

/-- The events of a history.  A program that stops at a failed assertion in the middle of
a call has made some writes before; `abort` stands for such writes after the last
`setup_map_file` of the program, whatever they are. -/
inductive FileEvent where
  /-- A call runs to its end. -/
  | call (op : FileOp)
  /-- A call is cut after `k` writes and the program is started again. -/
  | crash (op : FileOp) (k : ℕ)
  /-- The program stops after some further writes and is started again. -/
  | abort (ws : List { w : Write // w.Minor })
  /-- The program ends and is started again. -/
  | reboot

/-- One event of a history of process `p`. -/
def fileStep (p : ℕ) (c : Traced) : FileEvent → Option (Unit × Traced)
  | .call op => (op.prog p c.store).map fun r => ((), applyAll c r.2)
  | .crash op k => (op.prog p c.store).map fun r => ((), (applyAll c (r.2.take k)).reboot)
  | .abort ws => some ((), (applyAll c (ws.map Subtype.val)).reboot)
  | .reboot => some ((), c.reboot)

/-- `num_mmaps` of process `p`. -/
def Store.mmapCount (st : Store) (p : ℕ) : Option ℕ := (st.disk.proc p).map ProcObj.numMmaps

/-- Region `v` is in the tree of process `p`, and the tree is of this run. -/
structure InTree (st : Store) (p v : ℕ) : Prop where
  initialized : st.ram.gInitialized = true
  tree : ∃ h t, st.disk.proc p = some h ∧ h.mmapobjInitialized = true ∧ h.mmapobjTree = some t ∧
    t.run = st.ram.run ∧ (t.tree.find v).isSome

/-- The record of process `p` is there and its `mmapobj_initialized` is set. -/
def Flagged (st : Store) (p : ℕ) : Prop :=
  ∃ h, st.disk.proc p = some h ∧ h.mmapobjInitialized = true

/-! ## What the other writes leave alone -/

/-- No file was set up, and no region was mapped for process `p`. -/
structure SameRegions (p : ℕ) (c c' : Traced) : Prop where
  setups : c'.setups = c.setups
  count : c'.store.mmapCount p = c.store.mmapCount p
  mapTree : c'.store.ram.mapTree = c.store.ram.mapTree
  procs : ∀ x, c'.store.findProcess p = some x → x = p ∨ c.store.findProcess p = some x

/-- Besides, the regions in the tree of the process stay there. -/
structure Quiet (p : ℕ) (c c' : Traced) : Prop extends SameRegions p c c' where
  initialized : c'.store.ram.gInitialized = c.store.ram.gInitialized
  flagged : Flagged c.store p → Flagged c'.store p
  inTree : ∀ v, InTree c.store p v → InTree c'.store p v

instance (p : ℕ) : IsPreorder Traced (SameRegions p) where
  refl c := ⟨rfl, rfl, rfl, fun _ h => .inr h⟩
  trans _ _ _ h₁ h₂ := by
    refine ⟨h₂.setups.trans h₁.setups, h₂.count.trans h₁.count, h₂.mapTree.trans h₁.mapTree, ?_⟩
    intro x hx
    rcases h₂.procs x hx with hx | hx
    · exact .inl hx
    · exact h₁.procs x hx

instance (p : ℕ) : IsPreorder Traced (Quiet p) where
  refl c := ⟨refl c, rfl, id, fun _ h => h⟩
  trans _ _ _ h₁ h₂ :=
    ⟨IsTrans.trans _ _ _ h₁.toSameRegions h₂.toSameRegions, h₂.initialized.trans h₁.initialized,
      fun h => h₂.flagged (h₁.flagged h), fun v h => h₂.inTree v (h₁.inTree v h)⟩

section Writes

variable {p : ℕ} (c : Traced)

/-- A write that touches neither the process record nor the indexes of the run. -/
theorem quiet_of_eq {w : Write} (hsetup : w.setup = none)
    (hproc : (c.store.disk.apply w).proc = c.store.disk.proc)
    (hmap : (c.store.ram.apply w).mapTree = c.store.ram.mapTree)
    (hprocs : (c.store.ram.apply w).procTree = c.store.ram.procTree)
    (hrun : (c.store.ram.apply w).run = c.store.ram.run)
    (hinit : (c.store.ram.apply w).gInitialized = c.store.ram.gInitialized) :
    Quiet p c (WriteEffect.apply c w) := by
  refine ⟨⟨?_, ?_, hmap, ?_⟩, hinit, ?_, ?_⟩
  · show c.setups ++ w.setup.toList = c.setups
    rw [hsetup, toList_none, List.append_nil]
  · exact congrArg (fun f => (f p).map ProcObj.numMmaps) hproc
  · intro x hx
    refine .inr ?_
    rw [Store.findProcess, ← hprocs]
    exact hx
  · rintro ⟨h, hh, hflag⟩
    exact ⟨h, (congrFun hproc p).trans hh, hflag⟩
  · rintro v ⟨hi, h, t, hh, hflag, ht, hr, hv⟩
    exact ⟨hinit.trans hi, h, t, (congrFun hproc p).trans hh, hflag, ht, hr.trans hrun.symm, hv⟩

theorem quiet_mmapobj (q : MmapPtr) (f : Mmapobj → Mmapobj) :
    Quiet p c (WriteEffect.apply c (.mmapobj q f)) :=
  quiet_of_eq c rfl rfl rfl rfl rfl rfl

theorem quiet_chunk (k : ChunkPtr) (f : Chunkobj → Chunkobj) :
    Quiet p c (WriteEffect.apply c (.chunk k f)) :=
  quiet_of_eq c rfl rfl rfl rfl rfl rfl

theorem quiet_byte (f : DataFile) (o : ℕ) (b : UInt8) :
    Quiet p c (WriteEffect.apply c (.byte f o b)) :=
  quiet_of_eq c rfl rfl rfl rfl rfl rfl

variable {f : ProcObj → ProcObj}

/-- A write to a process record that leaves `num_mmaps` alone. -/
theorem sameRegions_proc (x : ℕ) (hf : ∀ h, (f h).numMmaps = h.numMmaps) :
    SameRegions p c (WriteEffect.apply c (.proc x f)) := by
  refine ⟨List.append_nil _, ?_, rfl, fun _ h => .inr h⟩
  show (update c.store.disk.proc x ((c.store.disk.proc x).map f) p).map ProcObj.numMmaps =
    _
  rw [Store.mmapCount]
  by_cases hx : p = x
  · subst hx
    rw [update_self, map_map]
    congr 1
    funext h
    exact hf h
  · rw [update_of_ne hx]

/-- The record of a process after a write to it or to another one. -/
theorem proc_apply_proc {x : ℕ} {h : ProcObj} (hh : c.store.disk.proc p = some h) :
    (c.store.apply (.proc x f)).disk.proc p = some (if p = x then f h else h) := by
  show update c.store.disk.proc x _ p = _
  by_cases hx : p = x
  · subst hx
    rw [update_self, hh, if_pos rfl]
    rfl
  · rw [update_of_ne hx, hh, if_neg hx]

/-- A write to a process record that keeps its tree or inserts into it. -/
theorem inTree_proc {x : ℕ}
    (hflag : ∀ h, h.mmapobjInitialized = true → (f h).mmapobjInitialized = true)
    (htree : ∀ h t v, c.store.disk.proc x = some h → h.mmapobjTree = some t →
      (t.tree.find v).isSome → ∃ t', (f h).mmapobjTree = some t' ∧ t'.run = t.run ∧
        (t'.tree.find v).isSome) (v : ℕ) (hv : InTree c.store p v) :
    InTree (c.store.apply (.proc x f)) p v := by
  obtain ⟨hi, h, t, hh, hfl, ht, hr, hv⟩ := hv
  have hh' := proc_apply_proc c hh (x := x) (f := f)
  by_cases hx : p = x
  · subst hx
    rw [if_pos rfl] at hh'
    obtain ⟨t', ht', hr', hv'⟩ := htree h t v hh ht hv
    exact ⟨hi, f h, t', hh', hflag h hfl, ht', hr'.trans hr, hv'⟩
  · rw [if_neg hx] at hh'
    exact ⟨hi, h, t, hh', hfl, ht, hr, hv⟩

theorem quiet_proc (x : ℕ) (hf : ∀ h, (f h).numMmaps = h.numMmaps)
    (hflag : ∀ h, h.mmapobjInitialized = true → (f h).mmapobjInitialized = true)
    (htree : ∀ h t v, c.store.disk.proc x = some h → h.mmapobjTree = some t →
      (t.tree.find v).isSome → ∃ t', (f h).mmapobjTree = some t' ∧ t'.run = t.run ∧
        (t'.tree.find v).isSome) :
    Quiet p c (WriteEffect.apply c (.proc x f)) := by
  refine ⟨sameRegions_proc c x hf, rfl, ?_, inTree_proc c hflag htree⟩
  rintro ⟨h, hh, hfl⟩
  refine ⟨_, proc_apply_proc c hh, ?_⟩
  split
  · exact hflag h hfl
  · exact hfl

/-- A write to fields of a process record other than its tree. -/
theorem quiet_proc_fields (x : ℕ) (hf : ∀ h, (f h).numMmaps = h.numMmaps)
    (hflag : ∀ h, h.mmapobjInitialized = true → (f h).mmapobjInitialized = true)
    (htree : ∀ h, (f h).mmapobjTree = h.mmapobjTree) :
    Quiet p c (WriteEffect.apply c (.proc x f)) :=
  quiet_proc c x hf hflag fun h t _ _ ht hv => ⟨t, (htree h).trans ht, rfl, hv⟩

end Writes

/-! ## Functions that set up no file -/

section Functions

variable {p : ℕ} {c : Traced}

/-- Writes to existing regions. -/
theorem quiet_harmless (p : ℕ) (c₀ : Traced) : Harmless {} (Quiet p c₀) where
  chunk k f _ h := trans h (quiet_chunk _ k f)
  byte f o b h := trans h (quiet_byte _ f o b)
  names {c f} hf h := by
    have hram := hf c.store.ram
    exact trans h (quiet_of_eq c rfl rfl (congrArg Ram.mapTree hram :)
      (congrArg Ram.procTree hram :) (congrArg Ram.run hram :) (congrArg Ram.gInitialized hram :))
  chunkmap a k _ h := trans h (quiet_of_eq _ rfl rfl rfl rfl rfl rfl)
  mmapobj _ _ h := trans h (quiet_mmapobj _ _ _)
  chunkTree _ h := trans h (quiet_mmapobj _ _ _)
  newTree {c x h₁} _ hh hnone h := by
    -- the tree is made only where there was none
    refine trans h (quiet_proc c x (fun _ => rfl) (fun _ hfl => hfl) ?_)
    intro h' t v hh' ht
    obtain rfl : h₁ = h' := some.inj (hh.symm.trans hh')
    rw [hnone] at ht
    cases ht
  flag _ h := trans h
    (quiet_proc_fields _ _ (fun _ => rfl) (fun _ _ => rfl) fun _ => rfl)

/-- A region is entered into a tree. -/
theorem quiet_enter (x v : ℕ) (q : MmapPtr) :
    Quiet p c (WriteEffect.apply c (.proc x fun h => h.insertMmapobj v q)) := by
  refine quiet_proc c x (fun _ => rfl) (fun _ hfl => hfl) ?_
  intro h' t' v' _ ht' hv
  refine ⟨t'.insert v q, ?_, rfl, ?_⟩
  · rw [ProcObj.insertMmapobj, ht']
    rfl
  · show ((t'.tree.insert _ q).find v').isSome
    rw [Rbtree.find_insert]
    split
    · rfl
    · exact hv

theorem quiet_restores (p : ℕ) (c₀ : Traced) (x : ℕ) : RestoresRegions {} (Quiet p c₀) x where
  enter v q h := trans h (quiet_enter x v q)
  mapMeta _ _ h := trans h (quiet_mmapobj _ _ _)

/-- The second part of an allocation sets up no file. -/
theorem quiet_recordBlock (rqst : Rqst) (addr : ℕ) (x : MmapPtr × MmapobjNode × Option ChunkPtr) :
    Stays (Quiet p) (recordBlock rqst addr x) c := by
  obtain ⟨q, node, oldchunk⟩ := x
  have hkeep : IgnoresChunks (Quiet p c) :=
    fun k f h => trans h (quiet_chunk _ k f)
  exact ((quiet_harmless p c).wpc_recordBlock hkeep (refl c) rqst addr trivial (fun _ _ => trivial)
    node oldchunk).stays

theorem quiet_addMmapobj (q : MmapPtr) (x : ℕ) : Stays (Quiet p) (addMmapobj q x) c :=
  ((quiet_harmless p c).wpc_addMmapobj (refl c) trivial fun _ h _ _ v =>
    trans h (quiet_enter x v q)).stays

theorem quiet_insertProc (k : ℕ) : Quiet p c (WriteEffect.apply c
      (Write.ram fun r => { r with procTree := r.procTree.insert k p })) := by
  refine ⟨⟨List.append_nil _, rfl, rfl, ?_⟩, rfl, id, fun _ ⟨hi, ht⟩ => ⟨hi, ht⟩⟩
  intro x hx
  have hfind : (c.store.ram.procTree.insert k p).find p = some x := hx
  rw [Rbtree.find_insert] at hfind
  split at hfind
  · exact .inl (some.inj hfind).symm
  · exact .inr hfind

theorem quiet_addProcObj : Stays (Quiet p) (addProcObj p) c :=
  stays_state_bind (stays_lift_bind fun h _ => stays_emit (quiet_insertProc h.pid))

theorem quiet_restoreMmapobjs (place : DataFile → ℕ) (x : ℕ) (qs : List MmapPtr) :
    Stays (Quiet p) (restoreMmapobjs place x qs) c :=
  ((quiet_harmless p c).wpc_restoreMmapobjs trivial (quiet_restores p c x) (refl c) place qs).stays

end Functions

/-! ## The files of a process -/

/-- The files of process `p` when it has mapped `n` regions. -/
def Setup.Within (p n : ℕ) : Setup → Prop
  | .proc x => x = p
  | .metaFile f => ∃ v ≤ n, f = ⟨p, baseMetadataNvid + v⟩
  | .dataFile f => ∃ v ≤ n, f = ⟨p, v⟩

/-- What holds of the files at any time, also when the program is cut. -/
structure FilesOnDisk (p : ℕ) (c : Traced) : Prop where
  nodup : c.setups.Nodup
  absent : c.store.disk.proc p = none → c.setups = []
  within : ∀ n, c.store.mmapCount p = some n → ∀ s ∈ c.setups, s.Within p n

/-- What holds of the files and of the regions mapped in this run. -/
structure FilesRun (p : ℕ) (c : Traced) : Prop extends FilesOnDisk p c where
  procs : ∀ x, c.store.findProcess p = some x → x = p
  unmapped : c.store.disk.proc p = none → ∀ a, c.store.ram.mapTree.find a = none
  mapped : ∀ n, c.store.mmapCount p = some n → ∀ a nd, c.store.ram.mapTree.find a = some nd →
    nd.mapId ≤ n

/-- The metadata file of region `v`. -/
abbrev metaSetup (p v : ℕ) : Setup := .metaFile ⟨p, baseMetadataNvid + v⟩

/-- What holds while the process is loaded: no region of this run has a metadata file. -/
structure FilesFresh (p : ℕ) (c : Traced) : Prop extends FilesRun p c where
  noMeta : ∀ a nd, c.store.ram.mapTree.find a = some nd → metaSetup p nd.mapId ∉ c.setups

/-- What holds between two calls: a region of this run that has a metadata file is in the
tree of the process. -/
structure FilesInv (p : ℕ) (c : Traced) : Prop extends FilesRun p c where
  loaded : c.store.ram.gInitialized = true → Flagged c.store p
  inTree : ∀ a nd, c.store.ram.mapTree.find a = some nd → metaSetup p nd.mapId ∈ c.setups →
    InTree c.store p nd.mapId

theorem Setup.Within.mono {p m n : ℕ} (hmn : m ≤ n) {s : Setup} (h : s.Within p m) :
    s.Within p n := by
  cases s with
  | proc x => exact h
  | metaFile f =>
    obtain ⟨v, hv, rfl⟩ := h
    exact ⟨v, hv.trans hmn, rfl⟩
  | dataFile f =>
    obtain ⟨v, hv, rfl⟩ := h
    exact ⟨v, hv.trans hmn, rfl⟩

section Inv

variable {p n : ℕ} {c c' : Traced}

theorem mmapCount_eq_none : c.store.mmapCount p = none ↔ c.store.disk.proc p = none :=
  map_eq_none_iff

theorem FilesOnDisk.of_eq (hc : FilesOnDisk p c) (hsetups : c'.setups = c.setups)
    (hcount : c'.store.mmapCount p = c.store.mmapCount p) : FilesOnDisk p c' := by
  refine ⟨?_, ?_, ?_⟩
  · rw [hsetups]
    exact hc.nodup
  · rw [← mmapCount_eq_none, hcount, mmapCount_eq_none, hsetups]
    exact hc.absent
  · rw [hcount, hsetups]
    exact hc.within

theorem FilesOnDisk.same (hc : FilesOnDisk p c) (h : SameRegions p c c') : FilesOnDisk p c' :=
  hc.of_eq h.setups h.count

theorem FilesRun.same (hc : FilesRun p c) (h : SameRegions p c c') : FilesRun p c' := by
  refine ⟨hc.toFilesOnDisk.same h, ?_, ?_, ?_⟩
  · intro x hx
    rcases h.procs x hx with hx | hx
    · exact hx
    · exact hc.procs x hx
  · rw [← mmapCount_eq_none, h.count, mmapCount_eq_none, h.mapTree]
    exact hc.unmapped
  · rw [h.count, h.mapTree]
    exact hc.mapped

theorem FilesFresh.same (hc : FilesFresh p c) (h : SameRegions p c c') : FilesFresh p c' := by
  refine ⟨hc.toFilesRun.same h, ?_⟩
  rw [h.mapTree, h.setups]
  exact hc.noMeta

theorem FilesInv.quiet (hc : FilesInv p c) (h : Quiet p c c') : FilesInv p c' := by
  refine ⟨hc.toFilesRun.same h.toSameRegions, ?_, ?_⟩
  · rw [h.initialized]
    exact fun hi => h.flagged (hc.loaded hi)
  · rw [h.mapTree, h.setups]
    exact fun a nd hnd hmem => h.inTree _ (hc.inTree a nd hnd hmem)

/-- A function that sets up no file keeps the invariant. -/
theorem FilesInv.wpc_of_quiet {α : Type} {m : NvM α} (hc : FilesInv p c) (h : Stays (Quiet p) m c) :
    Wpc (fun _ => FilesInv p) (FilesOnDisk p) m c :=
  h.wpc (fun _ hq => (hc.quiet hq).toFilesOnDisk) fun _ _ _ hq => hc.quiet hq

/-- In a new run no region is mapped yet. -/
theorem FilesOnDisk.reboot (hc : FilesOnDisk p c) : FilesInv p c.reboot := by
  have hempty : ∀ a nd, c.reboot.store.ram.mapTree.find a ≠ some nd := by
    intro a nd hnd
    cases hnd
  refine ⟨⟨⟨hc.nodup, hc.absent, hc.within⟩, ?_, fun _ _ => rfl, ?_⟩, ?_, ?_⟩
  · intro x hx
    cases hx
  · exact fun _ _ a nd hnd => absurd hnd (hempty a nd)
  · intro hi
    cases hi
  · exact fun a nd hnd => absurd hnd (hempty a nd)

/-- Writes that set up no file and leave `num_mmaps` alone. -/
theorem FilesOnDisk.minor (hc : FilesOnDisk p c) (ws : List { w : Write // w.Minor }) :
    FilesOnDisk p (applyAll c (ws.map Subtype.val)) := by
  induction ws generalizing c with
  | nil => exact hc
  | cons w ws ih =>
    obtain ⟨w, hw⟩ := w
    refine ih (c := WriteEffect.apply c w) ?_
    cases w with
    | procFile x => exact hw.elim
    | metaFile f => exact hw.elim
    | dataFile f size => exact hw.elim
    | proc x f => exact hc.same (sameRegions_proc c x hw)
    | mmapobj q f => exact hc.same (quiet_mmapobj c q f).toSameRegions
    | chunk k f => exact hc.same (quiet_chunk c k f).toSameRegions
    | byte f o b => exact hc.same (quiet_byte c f o b).toSameRegions
    | ram f => exact hc.of_eq (List.append_nil _) rfl

theorem notMapped_of_absent (hc : FilesRun p c) (hnone : c.store.disk.proc p = none) :
    ∀ a nd, c.store.ram.mapTree.find a ≠ some nd := by
  intro a nd hnd
  rw [hc.unmapped hnone a] at hnd
  cases hnd

/-- The process record is made where there is none. -/
theorem FilesRun.procFile (hc : FilesRun p c) (hnone : c.store.disk.proc p = none) :
    FilesRun p (WriteEffect.apply c (Write.procFile p)) := by
  have hproc : (WriteEffect.apply c (Write.procFile p)).store.disk.proc p = some { pid := p } :=
    update_self ..
  refine ⟨⟨?_, ?_, ?_⟩, hc.procs, fun _ => hc.unmapped hnone, ?_⟩
  · show (c.setups ++ [Setup.proc p]).Nodup
    rw [hc.absent hnone]
    exact List.nodup_singleton _
  · intro hno
    rw [hproc] at hno
    cases hno
  · intro n _ s hs
    have hs' : s ∈ c.setups ++ [Setup.proc p] := hs
    rw [hc.absent hnone, List.nil_append, List.mem_singleton] at hs'
    rw [hs']
    rfl
  · exact fun _ _ a nd hnd => absurd hnd (notMapped_of_absent hc hnone a nd)

theorem FilesFresh.procFile (hc : FilesFresh p c) (hnone : c.store.disk.proc p = none) :
    FilesFresh p (WriteEffect.apply c (Write.procFile p)) :=
  ⟨hc.toFilesRun.procFile hnone,
    fun a nd hnd => absurd hnd (notMapped_of_absent hc.toFilesRun hnone a nd)⟩

theorem FilesInv.procFile (hc : FilesInv p c) (hnone : c.store.disk.proc p = none) :
    FilesInv p (WriteEffect.apply c (Write.procFile p)) := by
  refine ⟨hc.toFilesRun.procFile hnone, ?_,
    fun a nd hnd => absurd hnd (notMapped_of_absent hc.toFilesRun hnone a nd)⟩
  intro hi
  obtain ⟨h, hh, -⟩ := hc.loaded hi
  rw [hnone] at hh
  cases hh

/-- One more file, of a region that is counted already. -/
theorem FilesOnDisk.snoc (hc : FilesOnDisk p c) {s : Setup} (hs : s ∉ c.setups)
    (hsetups : c'.setups = c.setups ++ [s]) (hcount : c.store.mmapCount p = some n)
    (hcount' : c'.store.mmapCount p = some n) (hwithin : s.Within p n) : FilesOnDisk p c' := by
  refine ⟨?_, ?_, ?_⟩
  · rw [hsetups, List.nodup_append]
    refine ⟨hc.nodup, List.nodup_singleton s, ?_⟩
    rintro a ha b hb rfl
    exact hs (List.mem_singleton.mp hb ▸ ha)
  · intro hno
    rw [mmapCount_eq_none.mpr hno] at hcount'
    cases hcount'
  · intro m hm s' hs'
    have hmn : n = m := some.inj (hcount'.symm.trans hm)
    rw [hsetups, List.mem_append, List.mem_singleton] at hs'
    rcases hs' with hs' | rfl
    · exact hmn ▸ hc.within n hcount s' hs'
    · exact hmn ▸ hwithin

/-! ## Calls that set up files -/

/-- The process record is made only where there is none, so what survives that and the
other writes survives `create_or_load_proc_obj`. -/
theorem wpc_createOrLoadProcObj {I : Traced → Prop}
    (hquiet : ∀ c c' : Traced, I c → Quiet p c c' → I c')
    (hfile : ∀ c : Traced, I c → c.store.disk.proc p = none →
      I (WriteEffect.apply c (Write.procFile p)))
    (hrun : ∀ c, I c → FilesRun p c) (hc : I c) :
    Wpc (fun x c' => x = p ∧ I c') (FilesOnDisk p) (createOrLoadProcObj p) c := by
  have hdisk : ∀ c, I c → FilesOnDisk p c := fun c hI => (hrun c hI).toFilesOnDisk
  have hend : ∀ c' : Traced, I c' → Wpc (fun x c' => x = p ∧ I c') (FilesOnDisk p)
      (do
        emit (.ram fun r => { r with procMapStart := some p })
        return p) c' := by
    intro c' hc'
    have hc'' := hquiet _ _ hc' (quiet_of_eq (w := .ram fun r => { r with procMapStart := some p })
      c' rfl rfl rfl rfl rfl rfl)
    refine wpc_bind (wpc_emit (hdisk _ hc') (hdisk _ hc'') ?_)
    exact wpc_pure (hdisk _ hc'') ⟨rfl, hc''⟩
  refine wpc_state_bind ?_
  split
  · next x hx => exact wpc_pure (hdisk _ hc) ⟨(hrun _ hc).procs x hx, hc⟩
  · split
    · next hnone =>
      have hc' := hfile c hc (isNone_iff_eq_none.mp hnone)
      exact wpc_bind (wpc_emit (hdisk _ hc) (hdisk _ hc') (hend _ hc'))
    · exact hend c hc

theorem FilesInv.wpc_createOrLoad (hc : FilesInv p c) :
    Wpc (fun x c' => x = p ∧ FilesInv p c') (FilesOnDisk p) (createOrLoadProcObj p) c :=
  wpc_createOrLoadProcObj (fun _ _ h hq => h.quiet hq) (fun _ h hnone => h.procFile hnone)
    (fun _ h => h.toFilesRun) hc

theorem FilesFresh.wpc_createOrLoad (hc : FilesFresh p c) :
    Wpc (fun x c' => x = p ∧ FilesFresh p c') (FilesOnDisk p) (createOrLoadProcObj p) c :=
  wpc_createOrLoadProcObj (fun _ _ h hq => h.same hq.toSameRegions)
    (fun _ h hnone => h.procFile hnone) (fun _ h => h.toFilesRun) hc

/-- A region that is counted and has no metadata file. -/
structure NewRegion (p v : ℕ) (c : Traced) : Prop extends FilesInv p c where
  count : c.store.mmapCount p = some v
  noMeta : metaSetup p v ∉ c.setups

theorem NewRegion.quiet (hc : NewRegion p n c) (h : Quiet p c c') : NewRegion p n c' :=
  ⟨hc.toFilesInv.quiet h, h.count.trans hc.count, h.setups ▸ hc.noMeta⟩

variable {h : ProcObj} {v : ℕ} {ws : List Write} {st : Store} {nd : MmapobjNode}

/-- When `num_mmaps` is advanced, the new region has no file: the files made so far are of
regions up to the old number. -/
theorem FilesInv.advance (hc : FilesInv p c) (hh : c.store.disk.proc p = some h)
    (hc' : c' = WriteEffect.apply c (Write.proc p fun h => { h with numMmaps := h.numMmaps + 1 })) :
    NewRegion p (h.numMmaps + 1) c' ∧ .dataFile ⟨p, h.numMmaps + 1⟩ ∉ c'.setups := by
  have hcount : c.store.mmapCount p = some h.numMmaps := by
    rw [Store.mmapCount, hh]
    rfl
  have hsetups : c'.setups = c.setups := by
    rw [hc']
    exact List.append_nil _
  have hproc : c'.store.disk.proc p = some { h with numMmaps := h.numMmaps + 1 } := by
    rw [hc']
    show update c.store.disk.proc p _ p = _
    rw [update_self, hh]
    rfl
  have hcount' : c'.store.mmapCount p = some (h.numMmaps + 1) := by
    rw [Store.mmapCount, hproc]
    rfl
  have hle : ∀ m, c'.store.mmapCount p = some m → h.numMmaps ≤ m := by
    intro m hm
    have heq := some.inj (hcount'.symm.trans hm)
    omega
  have hmap : c'.store.ram.mapTree = c.store.ram.mapTree := by
    rw [hc']
    rfl
  have hflag : ∀ h : ProcObj, h.mmapobjInitialized = true →
    ({ h with numMmaps := h.numMmaps + 1 } : ProcObj).mmapobjInitialized = true := fun _ hfl => hfl
  refine ⟨⟨⟨⟨⟨?_, ?_, ?_⟩, ?_, ?_, ?_⟩, ?_, ?_⟩, hcount', ?_⟩, ?_⟩
  · rw [hsetups]
    exact hc.nodup
  · intro hno
    rw [hproc] at hno
    cases hno
  · intro m hm s hs
    rw [hsetups] at hs
    exact (hc.within _ hcount s hs).mono (hle m hm)
  · rw [hc']
    exact hc.procs
  · intro hno
    rw [hproc] at hno
    cases hno
  · intro m hm a nd hnd
    rw [hmap] at hnd
    exact (hc.mapped _ hcount a nd hnd).trans (hle m hm)
  · rw [hc']
    intro hi
    obtain ⟨h', hh', hfl⟩ := hc.loaded hi
    rw [hh] at hh'
    cases hh'
    exact ⟨_, hc' ▸ hproc, hflag h hfl⟩
  · intro a nd hnd hmem
    rw [hmap] at hnd
    rw [hsetups] at hmem
    rw [hc']
    refine inTree_proc c hflag ?_ nd.mapId (hc.inTree a nd hnd hmem)
    intro _ t v _ ht hv
    exact ⟨t, ht, rfl, hv⟩
  · rw [hsetups]
    intro hmem
    obtain ⟨v, hv, heq⟩ := hc.within _ hcount _ hmem
    simp only [MetaFile.mk.injEq, true_and] at heq
    omega
  · rw [hsetups]
    intro hmem
    obtain ⟨v, hv, heq⟩ := hc.within _ hcount _ hmem
    simp only [DataFile.mk.injEq, true_and] at heq
    omega

/-- The data file of the new region. -/
theorem NewRegion.dataFile (hc : NewRegion p n c) (hnew : .dataFile ⟨p, n⟩ ∉ c.setups)
    (size : ℕ) : NewRegion p n (WriteEffect.apply c (Write.dataFile ⟨p, n⟩ size)) := by
  have hmem : ∀ v, metaSetup p v ∈ (WriteEffect.apply c (Write.dataFile ⟨p, n⟩ size)).setups →
      metaSetup p v ∈ c.setups := by
    intro v hv
    simpa [WriteEffect.apply, Traced.apply, Write.setup] using hv
  refine ⟨⟨⟨hc.toFilesOnDisk.snoc hnew rfl hc.count hc.count ⟨n, le_rfl, rfl⟩, hc.procs,
    hc.unmapped, hc.mapped⟩, hc.loaded, ?_⟩, hc.count, fun h => hc.noMeta (hmem n h)⟩
  intro a nd hnd h
  obtain ⟨hi, ht⟩ := hc.inTree a nd hnd (hmem _ h)
  exact ⟨hi, ht⟩

/-- `insert_mmapobj_node` for the new region. -/
theorem NewRegion.insertNode (hc : NewRegion p n c) (addr : ℕ) (nd : MmapobjNode)
    (hid : nd.mapId = n) : FilesInv p (WriteEffect.apply c
      (Write.ram fun r => { r with mapTree := r.mapTree.insert addr nd })) := by
  have hfind : ∀ a nd', (c.store.ram.mapTree.insert addr nd).find a = some nd' →
      nd' = nd ∨ c.store.ram.mapTree.find a = some nd' := by
    intro a nd' hnd'
    rw [Rbtree.find_insert] at hnd'
    split at hnd'
    · exact .inl (some.inj hnd').symm
    · exact .inr hnd'
  refine ⟨⟨hc.toFilesOnDisk.of_eq (List.append_nil _) rfl, hc.procs, ?_, ?_⟩, hc.loaded, ?_⟩
  · intro hno
    have hcount : c.store.mmapCount p = none := mmapCount_eq_none.mpr hno
    rw [hc.count] at hcount
    cases hcount
  · intro m hm a nd' hnd'
    rcases hfind a nd' hnd' with rfl | hold
    · exact (hid.trans (some.inj (hc.count.symm.trans hm))).le
    · exact hc.mapped m hm a nd' hold
  · intro a nd' hnd' hmem
    have hmem' : metaSetup p nd'.mapId ∈ c.setups := by
      simpa [WriteEffect.apply, Traced.apply, Write.setup] using hmem
    rcases hfind a nd' hnd' with rfl | hold
    · exact absurd (hid ▸ hmem') hc.noMeta
    · obtain ⟨hi, ht⟩ := hc.inTree a nd' hold hmem'
      exact ⟨hi, ht⟩

/-- `_mmap` makes the data file of a region that was never mapped before. -/
theorem wpc_mmapRegion (hc : FilesInv p c) (size addr : ℕ) :
    Wpc (fun _ => FilesInv p) (FilesOnDisk p) (mmapRegion p size addr) c := by
  refine wpc_assert_bind fun _ => wpc_bind ?_
  intro x ws hrun
  obtain ⟨⟨rfl, hc₁⟩, hcut⟩ := hc.wpc_createOrLoad x ws hrun
  refine ⟨?_, hcut⟩
  refine wpc_state_bind (wpc_lift_bind fun h hh => ?_)
  obtain ⟨hc₂, hnew⟩ := hc₁.advance hh rfl
  refine wpc_bind (wpc_emit hc₁.toFilesOnDisk hc₂.toFilesOnDisk ?_)
  have hc₃ := hc₂.dataFile hnew (toUint size)
  refine wpc_bind (wpc_emit hc₂.toFilesOnDisk hc₃.toFilesOnDisk ?_)
  have hc₄ := hc₃.quiet (quiet_of_eq (w := .ram fun r =>
    { r with maps := ⟨addr, size, ⟨x, h.numMmaps + 1⟩⟩ :: r.maps }) _ rfl rfl rfl rfl rfl rfl)
  refine wpc_bind (wpc_emit hc₃.toFilesOnDisk hc₄.toFilesOnDisk (wpc_assert_bind fun _ => ?_))
  have hc₅ := hc₄.insertNode addr ⟨addr, addr + size, h.numMmaps + 1, x⟩ rfl
  refine wpc_bind (wpc_emit hc₄.toFilesOnDisk hc₅.toFilesOnDisk ?_)
  exact hc₅.wpc_of_quiet (stays_emit (quiet_of_eq _ rfl rfl rfl rfl rfl rfl))

/-! ## The metadata file of a region -/

theorem isSome_findMmapobj (hv : InTree c.store p v) {r : Option MmapPtr}
    (hrun : findMmapobj v p c.store = some (r, ws)) : r.isSome := by
  obtain ⟨-, h, t, hh, hflag, ht, hr, hfind⟩ := hv
  have hderef : t.deref c.store.ram.run = some t.tree := if_pos hr
  simp [findMmapobj, run_bind_eq, hh, hflag, ht, hderef] at hrun
  rw [← hrun.1]
  exact hfind

/-- The record that is made has the id of the region. -/
theorem vmaId_createMmapobj {proc pid bytes dataAddr : ℕ} {q : MmapPtr}
    (h : createMmapobj proc pid v bytes dataAddr true st = some (q, ws)) :
    ((applyAll st ws).disk.mmapobj q).vmaId = v := by
  obtain ⟨_, _, _, hstate, h₁, rfl⟩ := run_bind_eq_some.mp h
  cases hstate
  obtain ⟨start, _, _, hs, h₂, rfl⟩ := run_bind_eq_some.mp h₁
  obtain ⟨_, -, heq⟩ := map_eq_some_iff.mp hs
  cases heq
  obtain ⟨hd, _, _, hh, h₃, rfl⟩ := run_bind_eq_some.mp h₂
  obtain ⟨_, -, heq⟩ := map_eq_some_iff.mp hh
  cases heq
  obtain ⟨_, _, _, hroom, h₄, rfl⟩ := run_bind_eq_some.mp h₃
  rw [run_assert] at hroom
  split at hroom
  · cases hroom
    -- from here on the function makes its writes
    simp only [initChunkTree, run_bind_eq, run_emit, run_state, run_pure, bind_some,
      map_some, some.injEq, Prod.mk.injEq] at h₄
    obtain ⟨rfl, rfl⟩ := h₄
    simp [WriteEffect.apply, Store.apply, Disk.apply]
  · cases hroom

/-- `add_mmapobj` puts the region into the tree. -/
theorem inTree_addMmapobj (hi : st.ram.gInitialized = true) (hf : Flagged st p) {q : MmapPtr}
    {u : Unit} (hrun : addMmapobj q p st = some (u, ws)) :
    InTree (applyAll st ws) p (st.disk.mmapobj q).vmaId := by
  obtain ⟨h, hh, hflag⟩ := hf
  cases ht : h.mmapobjTree with
  | none => simp [addMmapobj, run_bind_eq, hh, hflag, ht] at hrun
  | some t =>
    cases hd : t.deref st.ram.run with
    | none => simp [addMmapobj, run_bind_eq, hh, hflag, ht, hd] at hrun
    | some tree =>
      simp only [addMmapobj, run_bind_eq, run_state, run_lift, run_emit, hh, hflag, ht, hd,
        map_some, bind_some, applyAll_nil, not_true_eq_false, if_false,
        List.nil_append, some.injEq, Prod.mk.injEq] at hrun
      obtain ⟨-, rfl⟩ := hrun
      have hr : t.run = st.ram.run := by
        by_contra hne
        rw [TreeRef.deref, if_neg hne] at hd
        cases hd
      refine ⟨hi, h.insertMmapobj (st.disk.mmapobj q).vmaId q,
        t.insert (st.disk.mmapobj q).vmaId q, ?_, hflag, ?_, hr, ?_⟩
      · show update st.disk.proc p _ p = _
        rw [update_self, hh]
        rfl
      · rw [ProcObj.insertMmapobj, ht]
        rfl
      · show ((t.tree.insert _ q).find _).isSome
        rw [Rbtree.find_insert, if_pos rfl]
        rfl

/-- The state with the metadata file of region `v` recorded as made. -/
def Traced.withMeta (c : Traced) (p v : ℕ) : Traced := ⟨c.store, c.setups ++ [metaSetup p v]⟩

/-- The metadata file of a region of this run, made for the first time. -/
theorem FilesInv.filesRun_withMeta (hc : FilesInv p c) {a : ℕ}
    (hnd : c.store.ram.mapTree.find a = some nd) (hnew : metaSetup p nd.mapId ∉ c.setups) :
    FilesRun p (c.withMeta p nd.mapId) := by
  cases hcount : c.store.mmapCount p with
  | none =>
    rw [hc.unmapped (mmapCount_eq_none.mp hcount) a] at hnd
    cases hnd
  | some n =>
    refine ⟨hc.toFilesOnDisk.snoc hnew rfl hcount hcount ?_, hc.procs, hc.unmapped, hc.mapped⟩
    exact ⟨nd.mapId, hc.mapped n hcount a nd hnd, rfl⟩

theorem FilesInv.metaMade (hc : FilesInv p c) (hmeta : FilesRun p (c.withMeta p v))
    (hq : Quiet p (c.withMeta p v) c') (hv : InTree c'.store p v) : FilesInv p c' := by
  refine ⟨hmeta.same hq.toSameRegions, ?_, ?_⟩
  · rw [hq.initialized]
    exact fun hi => hq.flagged (hc.loaded hi)
  · rw [hq.mapTree, hq.setups]
    intro a nd hnd hmem
    rcases List.mem_append.mp hmem with hold | hlast
    · exact hq.inTree _ (hc.inTree a nd hnd hold)
    · simp only [List.mem_singleton, Setup.metaFile.injEq, MetaFile.mk.injEq, true_and,
        Nat.add_left_cancel_iff] at hlast
      rw [hlast]
      exact hv

/-- `create_mmapobj` makes the metadata file and nothing else. -/
theorem wpc_createMmapobj (hc : FilesOnDisk p c) (hmeta : FilesOnDisk p (c.withMeta p v))
    (bytes dataAddr : ℕ) : Wpc (fun _ c' => Quiet p (c.withMeta p v) c') (FilesOnDisk p)
      (createMmapobj p p v bytes dataAddr) c := by
  -- the writes before the file is made are quiet
  have quiet : ∀ {Q} {c₁ : Traced} {w : Write} {f : Unit → NvM MmapPtr}, Quiet p c c₁ →
      Quiet p c₁ (WriteEffect.apply c₁ w) →
      (∀ c₂, Quiet p c c₂ → Wpc Q (FilesOnDisk p) (f ()) c₂) →
      Wpc Q (FilesOnDisk p) (emit w >>= f) c₁ := fun h hw hf =>
    wpc_emit_bind (hc.same h.toSameRegions) (hf _ (IsTrans.trans _ _ _ h hw))
  refine wpc_state_bind (wpc_lift_bind fun _ _ => wpc_lift_bind fun _ _ => ?_)
  refine wpc_assert_bind fun _ => ?_
  refine quiet (refl c) (quiet_proc_fields c p (fun _ => rfl) (fun _ hfl => hfl) fun _ => rfl)
    fun _ _ => ?_
  iterate 4 refine quiet ‹Quiet p c _› (quiet_mmapobj _ _ _) fun _ _ => ?_
  rename_i c₁ hq
  have hq₂ : Quiet p (c.withMeta p v)
      (WriteEffect.apply c₁ (Write.metaFile ⟨p, baseMetadataNvid + v⟩)) := by
    refine ⟨⟨congrArg (· ++ [metaSetup p v]) hq.setups, hq.count, hq.mapTree, hq.procs⟩,
      hq.initialized, hq.flagged, ?_⟩
    intro v' hv'
    obtain ⟨hi, ht⟩ := hq.inTree v' ⟨hv'.initialized, hv'.tree⟩
    exact ⟨hi, ht⟩
  refine wpc_bind (wpc_emit (hc.same hq.toSameRegions) (hmeta.same hq₂.toSameRegions) ?_)
  refine Stays.wpc (R := Quiet p) ?_
    (fun c' hq₃ => hmeta.same (IsTrans.trans _ _ _ hq₂ hq₃).toSameRegions)
    fun _ _ _ hq₃ => IsTrans.trans _ _ _ hq₂ hq₃
  refine stays_emit_bind (quiet_mmapobj _ _ _) ?_
  exact stays_then (((quiet_harmless p _).wpc_initChunkTree (refl _) trivial).stays) fun _ _ =>
    stays_pure _

section

variable (hc : FilesInv p c) (hi : c.store.ram.gInitialized = true)
include hc hi

/-- A region of this run that has no metadata file gets one, and is in the tree afterwards. -/
theorem wpc_addMmapobjToProc {a : ℕ} (hnd : c.store.ram.mapTree.find a = some nd)
    (hnew : metaSetup p nd.mapId ∉ c.setups) (bytes dataAddr : ℕ) :
    Wpc (fun _ => FilesInv p) (FilesOnDisk p) (addMmapobjToProc p p nd.mapId bytes dataAddr) c := by
  have hmeta := hc.filesRun_withMeta hnd hnew
  refine wpc_bind fun q ws hrun => ?_
  obtain ⟨hq, hcut⟩ := wpc_createMmapobj hc.toFilesOnDisk hmeta.toFilesOnDisk bytes dataAddr q ws
    hrun
  refine ⟨wpc_bind ?_, hcut⟩
  refine (quiet_addMmapobj q p).wpc
    (fun c' hq' => hmeta.toFilesOnDisk.same (trans hq hq').toSameRegions) ?_
  intro u ws' hrun' hq'
  have hid : ((applyAll c ws).store.disk.mmapobj q).vmaId = nd.mapId := by
    rw [Traced.store_applyAll]
    exact vmaId_createMmapobj hrun
  have hin : InTree (applyAll (applyAll c ws) ws').store p nd.mapId := by
    rw [Traced.store_applyAll, ← hid]
    exact inTree_addMmapobj (hq.initialized.trans hi) (hq.flagged (hc.loaded hi)) hrun'
  have hc' := hc.metaMade hmeta (IsTrans.trans _ _ _ hq hq') hin
  refine hc'.wpc_of_quiet (stays_emit_bind ?_ (stays_pure q))
  exact quiet_proc_fields _ p (fun _ => rfl) (fun _ hfl => hfl) fun _ => rfl

/-- The region of an allocation: its metadata file is made only if the region is not in
the tree of the process. -/
theorem wpc_findOrAddMmapobj {a : ℕ} (hnd : c.store.ram.mapTree.find a = some nd) :
    Wpc (fun _ => FilesInv p) (FilesOnDisk p) (findOrAddMmapobj p p nd) c := by
  refine wpc_bind (((((quiet_harmless p _).wpc_findMmapobj (refl _) nd.mapId trivial).post_mono
    fun _ _ h => h.1).stays).wpc
    (fun _ hq => (hc.quiet hq).toFilesOnDisk) fun found ws hrun hq => ?_)
  have hc' := hc.quiet hq
  cases found with
  | some q =>
    refine hc'.wpc_of_quiet (stays_state_bind (stays_assert_bind fun _ => stays_pure q))
  | none =>
    refine wpc_state_bind ?_
    refine wpc_addMmapobjToProc hc' (hq.initialized.trans hi) (hq.mapTree ▸ hnd) ?_ _ _
    rw [hq.setups]
    intro hmem
    have hsome := isSome_findMmapobj (hc.inTree a nd hnd hmem) hrun
    cases hsome

theorem wpc_findOrCreateProcess :
    Wpc (fun x c' => x = p ∧ FilesInv p c' ∧ c'.store.ram.gInitialized = true) (FilesOnDisk p)
      (findOrCreateProcess p) c := by
  refine wpc_state_bind ?_
  split
  · next x hx => exact wpc_pure hc.toFilesOnDisk ⟨hc.procs x hx, hc, hi⟩
  · refine wpc_bind fun x ws hrun => ?_
    have hcreate := wpc_createOrLoadProcObj (p := p)
      (I := fun c => FilesInv p c ∧ c.store.ram.gInitialized = true)
      (fun _ _ h hq => ⟨h.1.quiet hq, hq.initialized.trans h.2⟩)
      (fun _ h hnone => ⟨h.1.procFile hnone, h.2⟩) (fun _ h => h.1.toFilesRun) ⟨hc, hi⟩
    obtain ⟨⟨rfl, hc', hi'⟩, hcut⟩ := hcreate x ws hrun
    refine ⟨wpc_bind (quiet_addProcObj.wpc (fun _ hq => (hc'.quiet hq).toFilesOnDisk) ?_), hcut⟩
    intro u ws' _ hq
    exact wpc_pure (hc'.quiet hq).toFilesOnDisk ⟨rfl, hc'.quiet hq, hq.initialized.trans hi'⟩

end

/-- The first part of an allocation. -/
theorem wpc_recordRegion (hc : FilesInv p c) {rqst : Rqst} (hp : rqst.pid = p) (addr : ℕ) :
    Wpc (fun _ => FilesInv p) (FilesOnDisk p) (recordRegion rqst addr) c := by
  refine wpc_state_bind (wpc_assert_bind fun hi => wpc_bind ?_)
  rw [hp]
  intro x ws hrun
  obtain ⟨⟨rfl, hc₁, hi₁⟩, hcut⟩ := wpc_findOrCreateProcess hc hi x ws hrun
  refine ⟨wpc_bind ?_, hcut⟩
  refine ((quiet_harmless _ _).wpc_checkIfChunkExists (refl _) rqst).stays.wpc
    (fun _ hq => (hc₁.quiet hq).toFilesOnDisk) ?_
  intro old ws' _ hq
  have hc₂ := hc₁.quiet hq
  refine wpc_state_bind (wpc_lift_bind fun nd hloc => ?_)
  refine wpc_assert_bind fun _ => wpc_assert_bind fun _ => wpc_bind ?_
  obtain ⟨a, hnd⟩ := Rbtree.exists_find_of_findBy hloc
  intro q ws'' hrun''
  obtain ⟨hc₃, hcut₃⟩ := wpc_findOrAddMmapobj hc₂ (hq.initialized.trans hi₁) hnd q ws'' hrun''
  exact ⟨wpc_pure hc₃.toFilesOnDisk hc₃, hcut₃⟩

theorem wpc_nvRecordChunk (hc : FilesInv p c) {rqst : Rqst} (hp : rqst.pid = p) (addr : ℕ) :
    Wpc (fun _ => FilesInv p) (FilesOnDisk p) (nvRecordChunk rqst addr) c := by
  rw [nvRecordChunk_eq]
  refine wpc_bind fun x ws hrun => ?_
  obtain ⟨hc', hcut⟩ := wpc_recordRegion hc hp addr x ws hrun
  exact ⟨hc'.wpc_of_quiet (quiet_recordBlock rqst addr x), hcut⟩

/-! ## Loading the process -/

theorem mmapobjTree_of_dropped (hh : (WriteEffect.apply c
      (Write.proc p fun h => { h with mmapobjTree := none })).store.disk.proc p = some h) :
    h.mmapobjTree = none := by
  have hh' : update c.store.disk.proc p ((c.store.disk.proc p).map fun h =>
    { h with mmapobjTree := none }) p = some h := hh
  rw [update_self] at hh'
  obtain ⟨h', -, rfl⟩ := map_eq_some_iff.mp hh'
  rfl

theorem flagged_initializeMmapobjTree {u : Unit} (hrun : initializeMmapobjTree p st = some (u, ws))
    (hh : st.disk.proc p = some h) (ht : h.mmapobjTree = none) : Flagged (applyAll st ws) p := by
  simp [initializeMmapobjTree, run_bind_eq, hh, ht] at hrun
  rw [← hrun]
  exact ⟨{ h with mmapobjTree := some (.create st.ram.run), mmapobjInitialized := true },
    by simp [WriteEffect.apply, Store.apply, Disk.apply, hh], rfl⟩

/-- `load_process` sets up no file but the record of the process. -/
theorem wpc_loadProcess (hc : FilesFresh p c) (place : DataFile → ℕ) :
    Wpc (fun _ c' => FilesFresh p c' ∧ Flagged c'.store p) (FilesOnDisk p)
      (loadProcess place p) c := by
  refine wpc_state_bind (wpc_assert_bind fun _ => wpc_bind fun x ws hrun => ?_)
  obtain ⟨⟨rfl, hc₁⟩, hcut⟩ := hc.wpc_createOrLoad x ws hrun
  refine ⟨?_, hcut⟩
  -- the tree of an earlier run is dropped
  have hc₂ := hc₁.same (sameRegions_proc _ x (f := fun h => { h with mmapobjInitialized := false })
    fun _ => rfl)
  refine wpc_bind (wpc_emit hc₁.toFilesOnDisk hc₂.toFilesOnDisk ?_)
  have hc₃ := hc₂.same (sameRegions_proc _ x (f := fun h => { h with mmapobjTree := none })
    fun _ => rfl)
  refine wpc_bind (wpc_emit hc₂.toFilesOnDisk hc₃.toFilesOnDisk (wpc_bind ?_))
  refine wpc_state_bind (wpc_lift_bind fun h hh => ?_)
  have hc₄ := hc₃.same (quiet_insertProc h.pid).toSameRegions
  refine wpc_emit hc₃.toFilesOnDisk hc₄.toFilesOnDisk (wpc_bind ?_)
  -- and a new one is made
  refine ((quiet_harmless _ _).wpc_initializeMmapobjTree (refl _) trivial).stays.wpc
    (fun _ hq => (hc₄.same hq.toSameRegions).toFilesOnDisk) ?_
  intro u ws' hrun' hq
  have hc₅ := hc₄.same hq.toSameRegions
  have hflag := flagged_initializeMmapobjTree hrun' hh (mmapobjTree_of_dropped hh)
  refine wpc_state_bind (wpc_lift_bind fun h' _ => wpc_bind ?_)
  refine (quiet_restoreMmapobjs place x _).wpc
    (fun _ hq' => (hc₅.same hq'.toSameRegions).toFilesOnDisk) fun _ _ _ hq' => ?_
  have hc₆ := hc₅.same hq'.toSameRegions
  refine wpc_pure hc₆.toFilesOnDisk ⟨hc₆, hq'.flagged ?_⟩
  rw [Traced.store_applyAll]
  exact hflag

theorem wpc_nvInitialize (hc : FilesInv p c) (place : DataFile → ℕ) :
    Wpc (fun _ => FilesInv p) (FilesOnDisk p) (nvInitialize place p) c := by
  refine wpc_state_bind ?_
  split
  · next hi =>
    have hc₁ : FilesFresh p (WriteEffect.apply c
        (Write.ram fun r => { r with gInitialized := true })) := by
      refine ⟨⟨hc.toFilesOnDisk.of_eq (List.append_nil _) rfl, hc.procs, hc.unmapped, hc.mapped⟩,
        ?_⟩
      intro a nd hnd hmem
      -- before `nv_initialize` no region is in the tree
      have hmem' : metaSetup p nd.mapId ∈ c.setups := by
        simpa [WriteEffect.apply, Traced.apply, Write.setup] using hmem
      exact hi (hc.inTree a nd hnd hmem').initialized
    refine wpc_bind (wpc_emit hc.toFilesOnDisk hc₁.toFilesOnDisk (wpc_bind fun x ws hrun => ?_))
    obtain ⟨⟨hc₂, hflag⟩, hcut⟩ := wpc_loadProcess hc₁ place x ws hrun
    refine ⟨wpc_pure hc₂.toFilesOnDisk ⟨hc₂.toFilesRun, fun _ => hflag, ?_⟩, hcut⟩
    exact fun a nd hnd hmem => absurd hmem (hc₂.noMeta a nd hnd)
  · exact wpc_pure hc.toFilesOnDisk hc

/-! ## Whole histories -/

theorem FileOp.wpc (hc : FilesInv p c) (op : FileOp) :
    Wpc (fun _ => FilesInv p) (FilesOnDisk p) (op.prog p) c := by
  cases op with
  | mmap size addr => exact wpc_mmapRegion hc size addr
  | register n bytes addr =>
    refine wpc_bind fun x ws hrun => ?_
    obtain ⟨hc', hcut⟩ := wpc_recordRegion hc rfl addr x ws hrun
    exact ⟨wpc_pure hc'.toFilesOnDisk hc', hcut⟩
  | alloc n bytes addr => exact wpc_nvRecordChunk hc rfl addr
  | init place => exact wpc_nvInitialize hc place

/-- Every event keeps the invariant. -/
theorem fileStep_inv (hc : FilesInv p c) {e : FileEvent} {u : Unit}
    (hstep : fileStep p c e = some (u, c')) : FilesInv p c' := by
  cases e with
  | call op =>
    obtain ⟨⟨a, ws⟩, hrun, heq⟩ := map_eq_some_iff.mp hstep
    cases heq
    exact (op.wpc hc a ws hrun).1
  | crash op k =>
    obtain ⟨⟨a, ws⟩, hrun, heq⟩ := map_eq_some_iff.mp hstep
    cases heq
    exact ((op.wpc hc a ws hrun).2 k).reboot
  | abort ws =>
    cases hstep
    exact (hc.toFilesOnDisk.minor ws).reboot
  | reboot =>
    cases hstep
    exact hc.toFilesOnDisk.reboot

/-- In every history. -/
theorem filesInv_of_run {evs : List FileEvent} {us : List Unit}
    (hrun : runSteps (fileStep p) evs ⟨st.reboot, []⟩ = some (us, c)) : FilesInv p c := by
  have hinit : FilesOnDisk p ⟨st, []⟩ := by
    refine ⟨List.nodup_nil, fun _ => rfl, ?_⟩
    intro _ _ s hs
    cases hs
  have hstep : ∀ {c e u c'}, FilesInv p c → True → fileStep p c e = some (u, c') → FilesInv p c' :=
    fun hc _ h => fileStep_inv hc h
  exact runSteps_inv_of_some (P := fun _ _ => True) hstep hinit.reboot
    (along_of_forall (fun _ _ => trivial) evs _) hrun

/-- Different files of a process that has mapped fewer than `2 ^ 31` regions have different
path names. -/
theorem Setup.path_inj (hn : n < 2 ^ 31) {s s' : Setup} (hs : s.Within p n) (hs' : s'.Within p n)
    (h : s.path = s'.path) : s = s' := by
  have hfile := MapFile.path_injective h
  cases s with
  | proc x =>
    cases s' with
    | proc x' => simpa [Setup.file] using hfile
    | metaFile f => cases hfile
    | dataFile f => cases hfile
  | metaFile f =>
    cases s' with
    | proc x' => cases hfile
    | metaFile f' =>
      obtain ⟨v, hv, rfl⟩ := hs
      obtain ⟨v', hv', rfl⟩ := hs'
      simp only [Setup.file, MapFile.regionMeta.injEq, true_and] at hfile
      have hbase : baseMetadataNvid = 2777 := rfl
      rw [toInt_inj (by omega) (by omega) hfile]
    | dataFile f => cases hfile
  | dataFile f =>
    cases s' with
    | proc x' => cases hfile
    | metaFile f' => cases hfile
    | dataFile f' =>
      obtain ⟨v, hv, rfl⟩ := hs
      obtain ⟨v', hv', rfl⟩ := hs'
      simp only [Setup.file, MapFile.regionData.injEq, true_and] at hfile
      rw [toInt_inj (by omega) (by omega) hfile]

end Inv

/-- A path name determines the kind of the file, the process id and the file id; and over
a whole history of a process no path is passed to `setup_map_file` twice.  A history may
start with any files; if the process has no record yet, the history makes it. -/
theorem setupPaths_distinct : Injective MapFile.path ∧
    ∀ (p : ℕ) (st : Store) (evs : List FileEvent) (us : List Unit) (c : Traced),
      runSteps (fileStep p) evs ⟨st.reboot, []⟩ = some (us, c) →
      (∀ n, c.store.mmapCount p = some n → n < 2 ^ 31) → (c.setups.map Setup.path).Nodup := by
  refine ⟨MapFile.path_injective, ?_⟩
  intro p st evs us c hrun hbound
  have hc := filesInv_of_run hrun
  refine List.Nodup.map_on ?_ hc.nodup
  intro s hs s' hs' heq
  cases hcount : c.store.mmapCount p with
  | none =>
    rw [hc.absent (mmapCount_eq_none.mp hcount)] at hs
    cases hs
  | some n =>
    have hwithin := hc.within n hcount
    exact Setup.path_inj (hbound n hcount) (hwithin s hs) (hwithin s' hs') heq

/-- A history with two runs: the first one is cut in its second `_mmap`, right after the
data file was made. -/
def sampleHistory : List FileEvent :=
  [.call (.init fun _ => 4096), .call (.mmap 8192 4096), .call (.alloc nameA 100 4160),
    .crash (.mmap 8192 16384) 2, .call (.init fun _ => 4096), .call (.mmap 8192 16384),
    .call (.register nameB 100 16448)]

theorem setupPaths_distinct_sampleHistory : ∃ us c,
    runSteps (fileStep 7) sampleHistory ⟨({} : Store).reboot, []⟩ = some (us, c) ∧
      c.setups = [.proc 7, .dataFile ⟨7, 1⟩, .metaFile ⟨7, 2778⟩, .dataFile ⟨7, 2⟩,
        .dataFile ⟨7, 3⟩, .metaFile ⟨7, 2780⟩] ∧ (c.setups.map Setup.path).Nodup := by
  have heval : (runSteps (fileStep 7) sampleHistory ⟨({} : Store).reboot, []⟩).map
      (fun x => (x.2.setups, x.2.store.mmapCount 7)) =
      some ([.proc 7, .dataFile ⟨7, 1⟩, .metaFile ⟨7, 2778⟩, .dataFile ⟨7, 2⟩,
        .dataFile ⟨7, 3⟩, .metaFile ⟨7, 2780⟩], some 3) := by decide +kernel
  obtain ⟨⟨us, c⟩, hrun, heq⟩ := map_eq_some_iff.mp heval
  obtain ⟨hsetups, hcount⟩ := Prod.mk.inj heq
  refine ⟨us, c, hrun, hsetups, setupPaths_distinct.2 7 {} sampleHistory us c hrun ?_⟩
  intro n hn
  have h3 : 3 = n := some.inj (hcount.symm.trans hn)
  omega
