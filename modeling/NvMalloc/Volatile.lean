/-
# Volatile state in persistent records

Tree pointers and, in the transaction build, spin locks live inside the mapped records, so
a restart finds the values that the last run left there.  `load_process` should leave none
of them behind: no `chunk_lock` is held, and every tree that the process leads to is of the
current run (`VolatileReset`).

`load_process` never touches `chunk_lock`, and `restore_chunk_objs` makes a new chunk tree
only for a region that counts chunks.  So the loaded state is clean exactly when no lock was
held before and every region that is registered counts chunks and has its data file, or was
made in this run; then it stays clean for the rest of the run.
-/
import NvMalloc.Decidability
import NvMalloc.Routine

open WriteM WriteGhost Function
open Option hiding guard

/-! ## The transaction build -/

/-- The store with the `chunk_lock` of every chunk record.  The records of the transaction
build are longer than `sizeofChunkobj`, on which only their places in the file depend. -/
structure LockStore where
  store : Store := {}
  locked : ChunkPtr → Bool := fun _ => false

/-- A write of the store; a new metadata file is full of zeros, so its locks are free. -/
def LockStore.apply (s : LockStore) : Write → LockStore
  | .metaFile m => ⟨s.store.apply (.metaFile m), fun k => if k.file = m then false else s.locked k⟩
  | w => ⟨s.store.apply w, s.locked⟩

instance : WriteEffect LockStore Write := ⟨LockStore.apply⟩

theorem LockStore.store_apply (s : LockStore) (w : Write) :
    (s.apply w).store = s.store.apply w := by
  cases w <;> rfl

instance : WriteGhost LockStore Store Write := ⟨LockStore.store, LockStore.store_apply⟩

theorem LockStore.store_applyAll (s : LockStore) (ws : List Write) :
    (applyAll s ws).store = applyAll s.store ws := proj_applyAll s ws

/-- A store to the `chunk_lock` of a chunk. -/
structure LockWrite where
  chunk : ChunkPtr
  value : Bool

def LockStore.setLock (s : LockStore) (w : LockWrite) : LockStore :=
  ⟨s.store, update s.locked w.chunk w.value⟩

/-- `gt_spin_lock`; on a lock that is held it does not return. -/
def gtSpinLock (k : ChunkPtr) (s : LockStore) : Option LockWrite :=
  if s.locked k then none else some ⟨k, true⟩

/-- `gt_spin_unlock`. -/
def gtSpinUnlock (k : ChunkPtr) : LockWrite := ⟨k, false⟩

/-- The stores to `chunk_lock` that `nv_begintrans_obj` makes.  `found` is the answer of
`get_chunk_from_map`, which is asked when `chunkmap` has no chunk at `objptr` itself. -/
def nvBegintransObj (objptr : ℕ) (found : Option ChunkPtr) (s : LockStore) :
    Option (List LockWrite) := do
  guard (objptr ≠ 0)
  let k ← (s.store.ram.chunkmap objptr).or found
  guard ((s.store.disk.chunk k).length ≠ 0)
  let acquire ← gtSpinLock k s
  -- `log_record` and `add_to_cache` come between the two and write to no record
  return [acquire, gtSpinUnlock k]

/-- The calls of a program. -/
inductive LockCall where
  /-- An operation for process `p`. -/
  | operation (p : ℕ) (op : Op)
  /-- `nv_begintrans_obj`. -/
  | begintrans (objptr : ℕ) (found : Option ChunkPtr)

/-- A call that is cut after `k` stores to the mapped files. -/
def LockCall.cut (s : LockStore) (k : ℕ) : LockCall → Option LockStore
  | .operation p op => (op.prog p s.store).map fun r => applyAll s (r.2.take k)
  | .begintrans objptr found =>
    (nvBegintransObj objptr found s).map fun ws => (ws.take k).foldl LockStore.setLock s

/-- A call that runs to its end. -/
def callStep (s : LockStore) : LockCall → Option (Unit × LockStore)
  | .operation p op => (op.prog p s.store).map fun r => ((), applyAll s r.2)
  | .begintrans objptr found =>
    (nvBegintransObj objptr found s).map fun ws => ((), ws.foldl LockStore.setLock s)

/-- A write that keeps the pid of a process record. -/
def Write.KeepsPid : Write → Prop
  | .proc _ f => ∀ h, (f h).pid = h.pid
  | _ => True

/-- A new run starts; the locks are in the files. -/
def LockStore.reboot (s : LockStore) : LockStore := ⟨s.store.reboot, s.locked⟩

/-- The events of a history.  A program that stops at a failed assertion in the middle of a
call has made some writes before; `abort` stands for them, whatever they are. -/
inductive LockEvent where
  /-- A call runs to its end. -/
  | call (call : LockCall)
  /-- A call is cut after `k` writes and the program is started again. -/
  | crash (call : LockCall) (k : ℕ)
  /-- The program stops after some further writes and is started again. -/
  | abort (ws : List { w : Write // w.KeepsPid })
  /-- The program ends and is started again. -/
  | reboot

/-- One event of a history. -/
def lockStep (s : LockStore) : LockEvent → Option (Unit × LockStore)
  | .call call => callStep s call
  | .crash call k => (call.cut s k).map fun s' => ((), s'.reboot)
  | .abort ws => some ((), (applyAll s (ws.map Subtype.val)).reboot)
  | .reboot => some ((), s.reboot)

/-- `g_initialized` is set, as `nv_initialize` does before it loads a process. -/
def Store.initialized (st : Store) : Store :=
  st.apply (.ram fun r => { r with gInitialized := true })

/-- `load_process`, from `nv_initialize` at the start of a run or from `nv_map_read`. -/
def LockStore.load (s : LockStore) (place : DataFile → ℕ) (p : ℕ) : Option LockStore :=
  (loadProcess place p s.store.initialized).map fun r =>
    applyAll ⟨s.store.initialized, s.locked⟩ r.2

/-! ## What a load should leave -/

/-- The trees that process `p` leads to are of this run. -/
def TreesCurrent (st : Store) (p : ℕ) : Prop :=
  ∃ h t, st.disk.proc p = some h ∧ h.mmapobjTree = some t ∧ t.run = st.ram.run ∧
    ∀ v q, t.tree.find v = some q → (st.disk.mmapobj q).OfRun st.ram.run

/-- No lock is held, and the trees of process `p` are of this run. -/
structure VolatileReset (p : ℕ) (s : LockStore) : Prop where
  unlocked : ∀ k, s.locked k = false
  trees : TreesCurrent s.store p

/-- Every lock can be acquired, and no walk over the trees of process `p` leaves this run. -/
structure Usable (p : ℕ) (s : LockStore) : Prop where
  acquires : ∀ k, (gtSpinLock k s).isSome
  traverses : ∀ id, ((findMmapobjFromChunkid id p).exec s.store).isSome

/-- The tree of regions that `load_process` builds. -/
def Disk.loadTree (d : Disk) (p : ℕ) : Rbtree MmapPtr :=
  (((d.proc p).map fun h => mmapobjSlots p h.pesistMmaps).getD []).foldl
    (fun t q => t.insert (d.mmapobj q).vmaId q) .empty

/-- `restore_chunk_objs` gives the region a new chunk tree. -/
def Rebuilds (d : Disk) (q : MmapPtr) : Prop :=
  (d.mmapobj q).numchunks ≠ 0 ∧ (d.data (d.mmapobj q).dataFile).isSome

instance (d : Disk) (q : MmapPtr) : Decidable (Rebuilds d q) := inferInstanceAs (Decidable (_ ∧ _))

variable {st st' : Store} {p x : ℕ} {s s' : LockStore}

theorem isSome_findVmaidFromChunk (id : ℕ) {t : RbtreeNode MmapPtr}
    (ht : ∀ e ∈ t.toList, (st.disk.mmapobj e.2).OfRun st.ram.run) :
    (st.findVmaidFromChunk id t).isSome := by
  induction t with
  | nil => rfl
  | node c l k q r ihl ihr =>
    simp only [RbtreeNode.toList, List.mem_append, List.mem_cons] at ht
    have hsearch : (st.searchRegion q id).isSome := by
      unfold Store.searchRegion Store.findChunk
      split
      · split
        · rfl
        · next t htree =>
          have hrun : t.run = st.ram.run :=
            ht (k, q) (.inr (.inl rfl)) t.run (by rw [Mmapobj.treeRun, htree]; rfl)
          rw [TreeRef.deref, if_pos hrun]
          rfl
      · rfl
    obtain ⟨ret, hret⟩ := isSome_iff_exists.mp (ihr fun e he => ht e (.inr (.inr he)))
    obtain ⟨found, hfound⟩ := isSome_iff_exists.mp hsearch
    rw [Store.findVmaidFromChunk, hret]
    by_cases hzero : ret = 0
    · cases found with
      | some k' => simp [hzero, hfound]
      | none => simpa [hzero, hfound] using ihl fun e he => ht e (.inl he)
    · simp [hzero]

theorem VolatileReset.usable (h : VolatileReset p s) : Usable p s := by
  obtain ⟨h₀, t, hh, ht, hrun, hq⟩ := h.trees
  refine ⟨?_, ?_⟩
  · intro k
    rw [gtSpinLock, h.unlocked k]
    rfl
  · intro id
    have hnodes : ∀ e ∈ t.tree.root.toList, (s.store.disk.mmapobj e.2).OfRun s.store.ram.run :=
      fun e he => hq e.1 e.2 ((t.tree.find_eq_some_iff e.1 e.2).mpr he)
    obtain ⟨vmid, hvmid⟩ := isSome_iff_exists.mp (isSome_findVmaidFromChunk id hnodes)
    by_cases hflag : h₀.mmapobjInitialized = true
    · simp [findMmapobjFromChunkid, exec_bind, hh, hflag, ht, TreeRef.deref, hrun, hvmid]
    · simp [findMmapobjFromChunkid, initializeMmapobjTree, exec_bind, hh, hflag, ht]

/-! ## The rest of a run -/

/-- Every process record has the pid of its file. -/
abbrev PidsOk (st : Store) : Prop := PidsIn Set.univ st

/-- The process is registered and clean. -/
structure InRun (p : ℕ) (s : LockStore) : Prop extends VolatileReset p s where
  pids : PidsOk s.store
  registered : Registered s.store p
  initialized : s.store.ram.gInitialized = true

/-- Every write that keeps the pids of the records keeps them right. -/
theorem PidsOk.apply (h : PidsOk st) {w : Write} (hw : w.KeepsPid) :
    PidsOk (st.apply w) := by
  cases w with
  | procFile x => exact h.apply_procFile x
  | proc x f => exact h.apply_proc hw
  | mmapobj q f => exact h.of_proc rfl
  | metaFile m => exact h.of_proc rfl
  | chunk k f => exact h.of_proc rfl
  | dataFile f n => exact h.of_proc rfl
  | byte f o b => exact h.of_proc rfl
  | ram f => exact h.of_proc rfl

theorem InRun.keep (h : InRun p s)
    (hlocks : ∀ k, s.locked k = false → s'.locked k = false) (hpids : PidsOk s'.store)
    (hreg : s'.store.findProcess p = some p) (hrun : s'.store.ram.run = s.store.ram.run)
    (hinit : s.store.ram.gInitialized = true → s'.store.ram.gInitialized = true)
    (htree : ∀ h t, s.store.disk.proc p = some h → h.mmapobjTree = some t →
      ∃ h' t', s'.store.disk.proc p = some h' ∧ h'.mmapobjTree = some t' ∧ t'.run = t.run ∧
        ∀ v q, t'.tree.find v = some q →
          t.tree.find v = some q ∨ (s.store.disk.mmapobj q).OfRun s.store.ram.run)
    (hregion : ∀ q, (s.store.disk.mmapobj q).OfRun s.store.ram.run →
      (s'.store.disk.mmapobj q).OfRun s.store.ram.run) : InRun p s' := by
  obtain ⟨h₀, t, hh, ht, hr, hq⟩ := h.trees
  obtain ⟨h', t', hh', ht', hr', hq'⟩ := htree h₀ t hh ht
  refine ⟨⟨fun k => hlocks k (h.unlocked k), h', t', hh', ht', ?_, ?_⟩, hpids, hreg,
    hinit h.initialized⟩
  · rw [hr', hr, hrun]
  · intro v q hv
    rw [hrun]
    refine hregion q ?_
    rcases hq' v q hv with hv' | hnew
    · exact hq v q hv'
    · exact hnew

/-- A write that touches neither records nor indexes of processes and keeps the trees of
the regions of this run. -/
theorem InRun.keep_of_eq (h : InRun p s)
    (hlocks : ∀ k, s.locked k = false → s'.locked k = false)
    (hproc : s'.store.disk.proc = s.store.disk.proc)
    (htree : s'.store.ram.procTree = s.store.ram.procTree)
    (hrun : s'.store.ram.run = s.store.ram.run)
    (hinit : s.store.ram.gInitialized = true → s'.store.ram.gInitialized = true)
    (hregion : ∀ q, (s.store.disk.mmapobj q).OfRun s.store.ram.run →
      (s'.store.disk.mmapobj q).OfRun s.store.ram.run) : InRun p s' := by
  refine h.keep hlocks (h.pids.of_proc hproc) ?_ hrun hinit ?_ hregion
  · rw [Store.findProcess, htree]
    exact h.registered
  · intro h₀ t hh ht
    exact ⟨h₀, t, by rw [hproc, hh], ht, rfl, fun v q hv => .inl hv⟩

/-- A write to a process record that keeps the tree of process `p` or adds regions whose
trees are of this run. -/
theorem InRun.keep_proc (h : InRun p s) {f : ProcObj → ProcObj}
    (hpid : ∀ h, (f h).pid = h.pid)
    (htree : x = p → ∀ h t, s.store.disk.proc p = some h → h.mmapobjTree = some t →
      ∃ t', (f h).mmapobjTree = some t' ∧ t'.run = t.run ∧
        ∀ v q, t'.tree.find v = some q →
          t.tree.find v = some q ∨ (s.store.disk.mmapobj q).OfRun s.store.ram.run) :
    InRun p (WriteEffect.apply s (.proc x f)) := by
  refine h.keep (fun _ hk => hk) (h.pids.apply_proc hpid) h.registered rfl id ?_ fun _ hq => hq
  intro h₀ t hh ht
  have hproc : (s.apply (.proc x f)).store.disk.proc p =
      update s.store.disk.proc x ((s.store.disk.proc x).map f) p := rfl
  by_cases hx : x = p
  · obtain ⟨t', ht', hr', hq'⟩ := htree hx h₀ t hh ht
    subst hx
    rw [update_self, hh] at hproc
    exact ⟨f h₀, t', hproc, ht', hr', hq'⟩
  · rw [update_of_ne (Ne.symm hx), hh] at hproc
    exact ⟨h₀, t, hproc, ht, rfl, fun v q hv => .inl hv⟩

theorem ofRun_update {d : Disk} {q : MmapPtr} {f : Mmapobj → Mmapobj} {run : ℕ}
    (hf : (d.mmapobj q).OfRun run → (f (d.mmapobj q)).OfRun run) (q' : MmapPtr)
    (hq' : (d.mmapobj q').OfRun run) : ((d.apply (.mmapobj q f)).mmapobj q').OfRun run := by
  show (update d.mmapobj q (f (d.mmapobj q)) q').OfRun run
  by_cases h : q' = q
  · subst h
    rw [update_self]
    exact hf hq'
  · rw [update_of_ne h]
    exact hq'

/-- A write that touches no record of a process and no global. -/
theorem InRun.keep_quiet (h : InRun p s)
    (hlocks : ∀ k, s.locked k = false → s'.locked k = false)
    (hproc : s'.store.disk.proc = s.store.disk.proc) (hram : s'.store.ram = s.store.ram)
    (hregion : ∀ q, (s.store.disk.mmapobj q).OfRun s.store.ram.run →
      (s'.store.disk.mmapobj q).OfRun s.store.ram.run) : InRun p s' :=
  h.keep_of_eq hlocks hproc (congrArg Ram.procTree hram) (congrArg Ram.run hram)
    (fun hi => (congrArg Ram.gInitialized hram).trans hi) hregion

/-- A write to a region record that keeps a tree of this run. -/
theorem InRun.keep_mmapobj (h : InRun p s) (q : MmapPtr) {f : Mmapobj → Mmapobj}
    (hf : ∀ m, m.OfRun s.store.ram.run → (f m).OfRun s.store.ram.run) :
    InRun p (WriteEffect.apply s (.mmapobj q f)) :=
  h.keep_quiet (fun _ hk => hk) rfl rfl (ofRun_update (hf _))

/-- Another process is registered. -/
theorem InRun.keep_register (h : InRun p s) {h₀ : ProcObj} (hh : s.store.disk.proc x = some h₀) :
    InRun p (WriteEffect.apply s
      (.ram fun r => { r with procTree := r.procTree.insert h₀.pid x })) := by
  have hpid : h₀.pid = x := h.pids x trivial h₀ hh
  refine h.keep (fun _ hk => hk) (h.pids.of_proc rfl) ?_ rfl id ?_ fun _ hq => hq
  · show (s.store.ram.procTree.insert h₀.pid x).find p = some p
    rw [Rbtree.find_insert]
    split
    · next hp => rw [hp, hpid]
    · exact h.registered
  · intro h₁ t hh₁ ht
    exact ⟨h₁, t, hh₁, ht, rfl, fun _ _ hv => .inl hv⟩

/-- Regions of this run may be added to a clean process. -/
theorem inRun_ordinary (p : ℕ) : Ordinary {} (InRun p) where
  chunk _ _ _ h := h.keep_quiet (fun _ hk => hk) rfl rfl fun _ hq => hq
  byte _ _ _ h := h.keep_quiet (fun _ hk => hk) rfl rfl fun _ hq => hq
  names {s f} hf h := h.keep_of_eq (fun _ hk => hk) rfl
    (congrArg Ram.procTree (hf s.store.ram) :) (congrArg Ram.run (hf s.store.ram) :)
    (fun hi => (congrArg Ram.gInitialized (hf s.store.ram) :).trans hi) fun _ hq => hq
  chunkmap _ _ _ h := h.keep_of_eq (fun _ hk => hk) rfl rfl rfl id fun _ hq => hq
  mmapobj _ hf h := h.keep_mmapobj _ fun _ hm r hr => hm r ((hf.treeRun _).symm.trans hr)
  chunkTree _ h := h.keep_mmapobj _ fun _ _ r hr => (some.inj hr).symm
  newTree {s x h₀} _ hh hnone h := by
    refine h.keep_proc (fun _ => rfl) ?_
    rintro rfl h₁ t hh₁ ht
    -- the tree of a clean process is there
    obtain rfl : h₀ = h₁ := some.inj (hh.symm.trans hh₁)
    rw [hnone] at ht
    cases ht
  flag _ h := h.keep_proc (fun _ => rfl) fun _ _ t _ ht => ⟨t, ht, rfl, fun _ _ hv => .inl hv⟩
  fields _ hf h := h.keep_proc hf.pid fun _ h₀ t _ ht =>
    ⟨t, (hf.tree h₀).trans ht, rfl, fun _ _ hv => .inl hv⟩
  metaFile {s} m h := by
    refine h.keep_quiet ?_ rfl rfl fun _ hq => hq
    intro k hk
    show (if k.file = m then false else s.locked k) = false
    split
    · rfl
    · exact hk
  dataFile _ _ h := h.keep_quiet (fun _ hk => hk) rfl rfl fun _ hq => hq
  mapTree _ _ _ h := h.keep_of_eq (fun _ hk => hk) rfl rfl rfl id fun _ hq => hq
  procVmas _ _ h := h.keep_of_eq (fun _ hk => hk) rfl rfl rfl id fun _ hq => hq
  strtAddr _ _ _ _ h := h.keep_mmapobj _ fun _ hm => hm
  insert {s x q} v _ _ hq _ h := by
    refine h.keep_proc (fun _ => rfl) ?_
    rintro - h₀ t - ht
    refine ⟨t.insert v q, by rw [ProcObj.insertMmapobj, ht]; rfl, rfl, ?_⟩
    intro v' q' hv'
    have hv'' : (t.tree.insert v q).find v' = some q' := hv'
    rw [Rbtree.find_insert] at hv''
    split at hv''
    · cases hv''
      exact .inr hq
    · exact .inl hv''

/-- A process may be created beside a clean one. -/
theorem inRun_admits (p x : ℕ) : Admits {} (InRun p) x where
  procFile {s} _ hnone h := by
    obtain ⟨h₀, t, hh, -⟩ := h.trees
    have hx : p ≠ x := by
      rintro rfl
      have hnone' : s.store.disk.proc p = none := hnone
      rw [hnone'] at hh
      cases hh
    refine h.keep (fun _ hk => hk) (h.pids.apply_procFile x) h.registered rfl id ?_ ?_
    · intro h₁ t₁ hh₁ ht₁
      refine ⟨h₁, t₁, ?_, ht₁, rfl, fun _ _ hv => .inl hv⟩
      show update s.store.disk.proc x _ p = some h₁
      rw [update_of_ne hx, hh₁]
    · intro q hq
      show (if q.pid = x then {} else s.store.disk.mmapobj q : Mmapobj).OfRun _
      split
      · intro r hr
        cases hr
      · exact hq
  start _ h := h.keep_of_eq (fun _ hk => hk) rfl rfl rfl id fun _ hq => hq
  addProc _ hh h := h.keep_register hh

/-- Another process may be loaded. -/
theorem inRun_reopens (hx : x ≠ p) : Reopens {} (InRun p) x where
  enter _ _ h := h.keep_proc (fun _ => rfl) fun hxp => absurd hxp hx
  mapMeta _ _ h := h.keep_mmapobj _ fun _ hm => hm
  close h := h.keep_proc (fun _ => rfl) fun hxp => absurd hxp hx
  dropTree h := h.keep_proc (fun _ => rfl) fun hxp => absurd hxp hx
  register hh h := h.keep_register hh

/-! ## Programs of calls -/

theorem store_foldl_setLock (ws : List LockWrite) (s : LockStore) :
    (ws.foldl LockStore.setLock s).store = s.store := by
  induction ws generalizing s with
  | nil => rfl
  | cons w ws ih => exact ih _

/-- No lock is held. -/
def LockStore.Unlocked (s : LockStore) : Prop := ∀ k, s.locked k = false

/-- `nv_begintrans_obj` releases the lock it takes. -/
theorem LockStore.Unlocked.begintrans (h : s.Unlocked) {objptr : ℕ} {found : Option ChunkPtr}
    {ws : List LockWrite} (hws : nvBegintransObj objptr found s = some ws) :
    (ws.foldl LockStore.setLock s).Unlocked := by
  unfold nvBegintransObj at hws
  simp only [bind_eq_bind, bind_eq_some_iff] at hws
  obtain ⟨-, -, k, -, -, -, acquire, hlock, heq⟩ := hws
  cases heq
  unfold gtSpinLock at hlock
  split at hlock
  · cases hlock
  · cases hlock
    intro k'
    show update (update s.locked k true) k false k' = false
    by_cases hk : k' = k
    · rw [hk, update_self]
    · rw [update_of_ne hk, update_of_ne hk, h k']

/-- A clean process stays clean. -/
theorem InRun.callStep (h : InRun p s) {call : LockCall} {u : Unit}
    (hs : callStep s call = some (u, s')) : InRun p s' := by
  cases call with
  | operation x op =>
    obtain ⟨⟨_, ws⟩, hrun, heq⟩ := map_eq_some_iff.mp hs
    cases heq
    have hload : ∀ place, s.store.findProcess x = none →
        Wpc (fun _ s' => InRun p s' ∧ True) (InRun p) (loadProcess place x) s := by
      intro place hx
      have hxp : x ≠ p := by
        rintro rfl
        rw [show s.store.findProcess x = some x from h.registered] at hx
        cases hx
      refine (inRun_ordinary p).wpc_loadProcess (inRun_admits p x) h ?_ place
      rw [show (proj s : Store).findProcess x = none from hx]
      exact inRun_reopens hxp
    have hinit : ∀ place, Wpc (fun _ => InRun p) (InRun p) (nvInitialize place x) s := by
      intro place
      refine wpc_state_bind ?_
      split
      · next hno => exact absurd h.initialized hno
      · exact wpc_pure h h
    have hkeep : IgnoresChunks (InRun p) :=
      fun _ _ h => h.keep_quiet (fun _ hk => hk) rfl rfl fun _ hq => hq
    exact ((inRun_ordinary p).wpc_prog hkeep (inRun_admits p x) h hload hinit op _ _ hrun).1
  | begintrans objptr found =>
    obtain ⟨ws, hws, heq⟩ := map_eq_some_iff.mp hs
    cases heq
    have hstore := store_foldl_setLock ws s
    refine ⟨⟨LockStore.Unlocked.begintrans h.unlocked hws, ?_⟩, ?_, ?_, ?_⟩
    · rw [hstore]
      exact h.trees
    · rw [hstore]
      exact h.pids
    · rw [hstore]
      exact h.registered
    · rw [hstore]
      exact h.initialized

/-! ## Histories -/

theorem pidsOk_reopens (x : ℕ) : Reopens {} PidsOk x where
  enter _ _ h := h.apply_proc fun _ => rfl
  mapMeta _ _ h := h.of_proc rfl
  close h := h.apply_proc fun _ => rfl
  dropTree h := h.apply_proc fun _ => rfl
  register _ h := h.of_proc rfl

theorem PidsOk.wpc_loadProcess (h : PidsOk st) (place : DataFile → ℕ) (x : ℕ) :
    Wpc (fun _ st' => PidsOk st' ∧ True) PidsOk (loadProcess place x) st :=
  (pidsIn_ordinary _).wpc_loadProcess (pidsIn_admits _ x) h (pidsOk_reopens _) place

theorem PidsOk.wpc_prog (h : PidsOk st) (x : ℕ) (op : Op) :
    Wpc (fun _ => PidsOk) PidsOk (op.prog x) st :=
  (pidsIn_ordinary _).wpc_prog (fun _ _ h => h.of_proc rfl) (pidsIn_admits _ x) h
    (fun place _ => h.wpc_loadProcess place x)
    (fun place => (pidsIn_ordinary _).wpc_nvInitialize (pidsIn_admits _ x) h
      (fun h => h.of_proc rfl) (pidsOk_reopens _) place) op

/-- Wherever a history is cut, every process record has the pid of its file. -/
theorem PidsOk.lockStep (h : PidsOk s.store) {e : LockEvent} {u : Unit}
    (hs : lockStep s e = some (u, s')) : PidsOk s'.store := by
  have hop : ∀ {x op v ws}, Op.prog x op s.store = some (v, ws) → ∀ k,
      PidsOk (applyAll s (ws.take k)).store := by
    intro x op v ws hrun k
    rw [LockStore.store_applyAll]
    exact (h.wpc_prog x op v ws hrun).2 k
  cases e with
  | call call =>
    cases call with
    | operation x op =>
      obtain ⟨⟨_, ws⟩, hrun, heq⟩ := map_eq_some_iff.mp hs
      cases heq
      simpa using hop hrun ws.length
    | begintrans objptr found =>
      obtain ⟨ws, -, heq⟩ := map_eq_some_iff.mp hs
      cases heq
      rwa [store_foldl_setLock]
  | crash call k =>
    obtain ⟨s₁, hcut, heq⟩ := map_eq_some_iff.mp hs
    cases heq
    have hdisk : PidsOk s₁.store := by
      cases call with
      | operation x op =>
        obtain ⟨⟨_, ws⟩, hrun, rfl⟩ := map_eq_some_iff.mp hcut
        exact hop hrun k
      | begintrans objptr found =>
        obtain ⟨ws, -, rfl⟩ := map_eq_some_iff.mp hcut
        rwa [store_foldl_setLock]
    exact hdisk.of_proc rfl
  | abort ws =>
    cases hs
    have hall : PidsOk (applyAll s (ws.map Subtype.val)).store := by
      rw [LockStore.store_applyAll]
      have hkeeps : ∀ w ∈ ws.map Subtype.val, ∀ st, PidsOk st → PidsOk (st.apply w) := by
        intro w hw st hst
        obtain ⟨w', -, rfl⟩ := List.mem_map.mp hw
        exact hst.apply w'.2
      have htake := applyAll_take_of_forall hkeeps h ws.length
      rwa [List.take_of_length_le (by simp)] at htake
    exact hall.of_proc rfl
  | reboot =>
    cases hs
    exact h.of_proc rfl

/-- No write of the store takes a lock. -/
theorem LockStore.Unlocked.applyAll (h : s.Unlocked) (ws : List Write) :
    (applyAll s ws).Unlocked := by
  have hstep : ∀ w ∈ ws, ∀ s : LockStore, s.Unlocked → (s.apply w).Unlocked := by
    intro w _ s hs
    cases w with
    | metaFile m =>
      intro k
      show (if k.file = m then false else s.locked k) = false
      split
      · rfl
      · exact hs k
    | _ => exact hs
  have htake := applyAll_take_of_forall hstep h ws.length
  rwa [List.take_length] at htake

/-- The program is cut inside `nv_begintrans_obj`. -/
def LockEvent.CutsBegin : LockEvent → Prop
  | .crash (.begintrans _ _) _ => True
  | _ => False

/-- A lock is held only after a cut inside `nv_begintrans_obj`. -/
theorem LockStore.Unlocked.lockStep (h : s.Unlocked) {e : LockEvent} (he : ¬ e.CutsBegin) {u : Unit}
    (hs : lockStep s e = some (u, s')) : s'.Unlocked := by
  cases e with
  | call call =>
    cases call with
    | operation x op =>
      obtain ⟨⟨_, ws⟩, -, heq⟩ := map_eq_some_iff.mp hs
      cases heq
      exact h.applyAll ws
    | begintrans objptr found =>
      obtain ⟨ws, hws, heq⟩ := map_eq_some_iff.mp hs
      cases heq
      exact h.begintrans hws
  | crash call k =>
    cases call with
    | operation x op =>
      obtain ⟨s₁, hcut, heq⟩ := map_eq_some_iff.mp hs
      cases heq
      obtain ⟨⟨_, ws⟩, -, rfl⟩ := map_eq_some_iff.mp hcut
      exact h.applyAll (ws.take k)
    | begintrans objptr found => exact absurd trivial he
  | abort ws =>
    cases hs
    exact h.applyAll (ws.map Subtype.val)
  | reboot =>
    cases hs
    exact h

/-! ## What `load_process` resets -/

/-- Enter the regions `qs` into a tree. -/
def Disk.enter (d : Disk) (t : Rbtree MmapPtr) (qs : List MmapPtr) : Rbtree MmapPtr :=
  qs.foldl (fun t q => t.insert (d.mmapobj q).vmaId q) t

/-- The regions `qs` of process `p` are restored: they are in its tree, and those that count
chunks and have their data file have a new tree. -/
structure Reset (st st' : Store) (p : ℕ) (qs : List MmapPtr) : Prop where
  run : st'.ram.run = st.ram.run
  data : st'.disk.data = st.disk.data
  region : ∀ q, (st'.disk.mmapobj q).shape = (st.disk.mmapobj q).shape
  treeRun : ∀ q, (st'.disk.mmapobj q).treeRun =
    if q ∈ qs ∧ Rebuilds st.disk q then some st.ram.run else (st.disk.mmapobj q).treeRun
  header : ∀ h t, st.disk.proc p = some h → h.mmapobjTree = some t →
    ∃ h', st'.disk.proc p = some h' ∧ h'.mmapobjTree = some ⟨t.run, st.disk.enter t.tree qs⟩

namespace Reset

variable {st st₁ st' : Store} {p : ℕ} {qs qs' : List MmapPtr}

theorem rebuilds (h : Reset st st' p qs) (q : MmapPtr) :
    Rebuilds st'.disk q ↔ Rebuilds st.disk q := by
  have hn : (st'.disk.mmapobj q).numchunks = (st.disk.mmapobj q).numchunks :=
    (congrArg RegionShape.numchunks (h.region q) :)
  have hp : (st'.disk.mmapobj q).procId = (st.disk.mmapobj q).procId :=
    (congrArg RegionShape.procId (h.region q) :)
  have hv : (st'.disk.mmapobj q).vmaId = (st.disk.mmapobj q).vmaId :=
    (congrArg RegionShape.vmaId (h.region q) :)
  rw [Rebuilds, Rebuilds, Mmapobj.dataFile, Mmapobj.dataFile, hn, hp, hv, h.data]

theorem enter_eq (h : Reset st st' p qs) (t : Rbtree MmapPtr) (rs : List MmapPtr) :
    st'.disk.enter t rs = st.disk.enter t rs := by
  have hv : ∀ q, (st'.disk.mmapobj q).vmaId = (st.disk.mmapobj q).vmaId :=
    fun q => (congrArg RegionShape.vmaId (h.region q) :)
  simp only [Disk.enter, hv]

theorem trans (h : Reset st st₁ p qs) (h' : Reset st₁ st' p qs') : Reset st st' p (qs ++ qs') where
  run := h'.run.trans h.run
  data := h'.data.trans h.data
  region q := (h'.region q).trans (h.region q)
  treeRun q := by
    rw [h'.treeRun, h.treeRun, h.run]
    simp only [h.rebuilds, List.mem_append]
    by_cases hr : Rebuilds st.disk q
    · by_cases hq : q ∈ qs <;> simp [hr, hq]
    · simp [hr]
  header h₀ t hh ht := by
    obtain ⟨h₁, hh₁, ht₁⟩ := h.header h₀ t hh ht
    obtain ⟨h₂, hh₂, ht₂⟩ := h'.header h₁ _ hh₁ ht₁
    refine ⟨h₂, hh₂, ht₂.trans ?_⟩
    rw [h.enter_eq]
    simp only [Disk.enter, List.foldl_append]

end Reset

/-- The region and process records keep their trees, up to entries. -/
structure SameTrees (st st' : Store) : Prop where
  run : st'.ram.run = st.ram.run
  data : st'.disk.data = st.disk.data
  region : ∀ q, (st'.disk.mmapobj q).shape = (st.disk.mmapobj q).shape
  treeRun : ∀ q, (st'.disk.mmapobj q).treeRun = (st.disk.mmapobj q).treeRun
  proc : st'.disk.proc = st.disk.proc

instance : IsPreorder Store SameTrees where
  refl _ := ⟨rfl, rfl, fun _ => rfl, fun _ => rfl, rfl⟩
  trans _ _ _ h h' := ⟨h'.run.trans h.run, h'.data.trans h.data,
    fun q => (h'.region q).trans (h.region q), fun q => (h'.treeRun q).trans (h.treeRun q),
    h'.proc.trans h.proc⟩

section Load

variable {st st' : Store} {p : ℕ} {q : MmapPtr} {place : DataFile → ℕ}

/-- The chunk tree of region `q` is made anew where it should be. -/
structure TreeMade (st st' : Store) (q : MmapPtr) : Prop where
  run : st'.ram.run = st.ram.run
  data : st'.disk.data = st.disk.data
  region : ∀ q', (st'.disk.mmapobj q').shape = (st.disk.mmapobj q').shape
  treeRun : ∀ q', (st'.disk.mmapobj q').treeRun =
    if q' = q ∧ Rebuilds st.disk q then some st.ram.run else (st.disk.mmapobj q').treeRun
  proc : st'.disk.proc = st.disk.proc

variable {st₁ : Store}

theorem TreeMade.then (h : TreeMade st st₁ q) (h' : SameTrees st₁ st') :
    TreeMade st st' q where
  run := h'.run.trans h.run
  data := h'.data.trans h.data
  region q' := (h'.region q').trans (h.region q')
  treeRun q' := (h'.treeRun q').trans (h.treeRun q')
  proc := h'.proc.trans h.proc

/-- The new tree. -/
theorem SameTrees.create {st₁ : Store} (h : SameTrees st st₁) (hq : Rebuilds st.disk q) :
    TreeMade st (st₁.apply
      (.mmapobj q fun m => { m with chunkobjTree := some (.create st₁.ram.run) })) q := by
  let m : Mmapobj := { st₁.disk.mmapobj q with chunkobjTree := some (.create st₁.ram.run) }
  refine ⟨h.run, h.data, ?_, ?_, h.proc⟩
  · intro q'
    show (update st₁.disk.mmapobj q m q').shape = _
    by_cases hqq : q' = q
    · subst hqq
      rw [update_self]
      exact h.region q'
    · rw [update_of_ne hqq]
      exact h.region q'
  · intro q'
    show (update st₁.disk.mmapobj q m q').treeRun = _
    by_cases hqq : q' = q
    · subst hqq
      rw [update_self, if_pos ⟨rfl, hq⟩, ← h.run]
      rfl
    · rw [update_of_ne hqq, if_neg fun hc => hqq hc.1]
      exact h.treeRun q'

end Load

/-- What `load_process` leaves of an unregistered process. -/
structure LoadedFrom (st st' : Store) (p : ℕ) : Prop where
  globals : ∃ h, (st.ensureHeader p).disk.proc p = some h ∧
    st'.ram.globals = ((st.ensureHeader p).openProcess p h).ram.globals
  header : ∃ h, st'.disk.proc p = some h ∧ h.mmapobjTree = some ⟨st.ram.run, st.disk.loadTree p⟩
  ofRun : ∀ v q, (st.disk.loadTree p).find v = some q →
    ((st'.disk.mmapobj q).OfRun st.ram.run ↔
      (st.disk.mmapobj q).OfRun st.ram.run ∨ Rebuilds st.disk q)

theorem LoadedFrom.run_eq (h : LoadedFrom st st' p) :
    st'.ram.run = st.ram.run ∧ st'.ram.gInitialized = st.ram.gInitialized := by
  obtain ⟨h₀, -, hglobals⟩ := h.globals
  rw [← ram_ensureHeader st p]
  exact ⟨(congrArg Ram.run hglobals :), (congrArg Ram.gInitialized hglobals :)⟩

/-- The process is registered under its own pid. -/
theorem LoadedFrom.registered (h : LoadedFrom st st' p) (hpids : PidsOk st) :
    Registered st' p := by
  obtain ⟨h₀, hh₀, hglobals⟩ := h.globals
  have hpid : h₀.pid = p := by
    cases hp₀ : st.disk.proc p with
    | none =>
      rw [ensureHeader_of_none hp₀] at hh₀
      cases (update_self ..).symm.trans hh₀
      rfl
    | some h₁ =>
      rw [ensureHeader_of_some hp₀] at hh₀
      exact hpids p trivial h₀ hh₀
  have htree : st'.ram.procTree = (st.ensureHeader p).ram.procTree.insert h₀.pid p :=
    (congrArg Ram.procTree hglobals :)
  show st'.ram.procTree.find p = some p
  rw [htree, Rbtree.find_insert, if_pos hpid.symm]

/-! ## Every run that is cut and loaded -/
