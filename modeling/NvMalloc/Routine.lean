/-
# What the functions of the store keep

Every function of `nv_map.cc` makes writes of a few kinds, to records that it finds in the
trees or makes anew.  A `Scope` says which records those may be.  An invariant `I` is
`Harmless` when the writes to existing regions of the scope keep it and it keeps what is
found within the scope; `Ordinary` when the writes that make regions do so too; `Admits I x`
and `Reopens I x` are about the writes that create process `x` and those that load it.

The functions are walked through once, for an arbitrary invariant: started where it holds, a
function keeps it wherever it is cut.
-/
import NvMalloc.Steps

open WriteM WriteGhost Function

instance : WriteGhost Store Store Write := ⟨id, fun _ _ => rfl⟩

/-- The state after a program that runs to its end. -/
theorem WriteM.Wpc.final {α : Type} {Q : α → Store → Prop} {C : Store → Prop} {m : NvM α}
    {st st' : Store} {a : α} (h : Wpc Q C m st) (hm : m.exec st = some (a, st')) : Q a st' := by
  obtain ⟨⟨_, ws⟩, hrun, heq⟩ := Option.map_eq_some_iff.mp hm
  cases heq
  exact (h _ ws hrun).1

/-- The run that made the tree a region record points to. -/
def Mmapobj.treeRun (m : Mmapobj) : Option ℕ := m.chunkobjTree.map TreeRef.run

/-- The tree pointer of a region record is null or of run `run`. -/
def Mmapobj.OfRun (m : Mmapobj) (run : ℕ) : Prop := ∀ r, m.treeRun = some r → r = run

/-- The memory of a run without the list of names and the mappings. -/
def Ram.globals (r : Ram) : Ram := { r with objnamemap := ∅, maps := [] }

/-- A change of a process record that keeps its pid and its tree and counts upwards. -/
structure Advances (f : ProcObj → ProcObj) : Prop where
  pid : ∀ h, (f h).pid = h.pid
  tree : ∀ h, (f h).mmapobjTree = h.mmapobjTree
  numMmaps : ∀ h, h.numMmaps ≤ (f h).numMmaps
  metaOffset : ∀ h, h.metaOffset ≤ (f h).metaOffset

/-- A change of a region record that keeps the run of its tree and its metadata file. -/
structure KeepsPlace (f : Mmapobj → Mmapobj) : Prop where
  treeRun : ∀ m, (f m).treeRun = m.treeRun
  strtAddr : ∀ m, (f m).strtAddr = m.strtAddr

theorem keepsPlace_insertEntry (k : ℕ) (c : ChunkPtr) : KeepsPlace fun m => m.insertEntry k c where
  treeRun m := by simp [Mmapobj.treeRun, Mmapobj.insertEntry, TreeRef.insert, comp_def]
  strtAddr _ := rfl

theorem keepsPlace_deleteEntry (k : ℕ) : KeepsPlace fun m => m.deleteEntry k where
  treeRun m := by simp [Mmapobj.treeRun, Mmapobj.deleteEntry, TreeRef.delete, comp_def]
  strtAddr _ := rfl

/-- A change of a chunk record that keeps its length and does not raise its committed size. -/
structure KeepsSizes (f : Chunkobj → Chunkobj) : Prop where
  length : ∀ r, (f r).length = r.length
  commitsz : ∀ r, (f r).commitsz ≤ r.commitsz

/-- What a program may work on: records of processes and regions, regions of new objects by
their ids, and metadata files of new chunk records. -/
structure Scope where
  proc : ℕ → Prop := fun _ => True
  region : MmapPtr → Prop := fun _ => True
  vma : ℕ → Prop := fun _ => True
  file : MetaFile → Prop := fun _ => True

section Invariants

variable {τ : Type} [WriteEffect τ Write] [WriteGhost τ Store Write]

/-- The invariant is kept by the writes to existing regions, and what is found through the
trees is in the scope. -/
structure Harmless (S : Scope) (I : τ → Prop) : Prop where
  chunk : ∀ {c} k f, KeepsSizes f → I c → I (WriteEffect.apply c (.chunk k f))
  byte : ∀ {c} f o b, I c → I (WriteEffect.apply c (.byte f o b))
  names : ∀ {c f}, (∀ r : Ram, (f r).globals = r.globals) → I c → I (WriteEffect.apply c (.ram f))
  chunkmap : ∀ {c} a k, S.file k.file → I c →
    I (WriteEffect.apply c
    (.ram fun r => { r with chunkmap := update r.chunkmap a (some k) }))
  mmapobj : ∀ {c q f}, S.region q → KeepsPlace f → I c → I (WriteEffect.apply c (.mmapobj q f))
  chunkTree : ∀ {c q}, S.region q → I c → I (WriteEffect.apply c
    (.mmapobj q fun m => { m with chunkobjTree := some (.create (proj c).ram.run) }))
  newTree : ∀ {c x h}, S.proc x → (proj c).disk.proc x = some h → h.mmapobjTree = none → I c →
    I (WriteEffect.apply c
      (.proc x fun h => { h with mmapobjTree := some (.create (proj c).ram.run) }))
  flag : ∀ {c x}, S.proc x → I c →
    I (WriteEffect.apply c (.proc x fun h => { h with mmapobjInitialized := true }))
  process : ∀ {c x y}, I c → (proj c).findProcess x = some y → S.proc y := by intros; trivial
  found : ∀ {c x h t v q}, I c → S.proc x → (proj c).disk.proc x = some h →
    h.mmapobjTree = some t → t.tree.find v = some q → S.region q := by intros; trivial

/-- The invariant is kept by every write to a chunk record, the sizes included. -/
def IgnoresChunks (I : τ → Prop) : Prop :=
  ∀ {c} k f, I c → I (WriteEffect.apply c (Write.chunk k f))

/-- The invariant is also kept by the writes that make regions, whose records and files are in
the scope. -/
structure Ordinary (S : Scope) (I : τ → Prop) : Prop extends Harmless S I where
  fields : ∀ {c x f}, S.proc x → Advances f → I c → I (WriteEffect.apply c (.proc x f))
  metaFile : ∀ {c} f, I c → I (WriteEffect.apply c (.metaFile f))
  dataFile : ∀ {c} f n, I c → I (WriteEffect.apply c (.dataFile f n))
  mapTree : ∀ {c x h a nd}, S.proc x → (proj c).disk.proc x = some h → nd.mapId = h.numMmaps → I c →
    I (WriteEffect.apply c (.ram fun r => { r with mapTree := r.mapTree.insert a nd }))
  procVmas : ∀ {c} v n, I c →
    I (WriteEffect.apply c (.ram fun r => { r with procVmas := update r.procVmas v n }))
  strtAddr : ∀ {c q} y v, S.region q → S.vma v → I c → I (WriteEffect.apply c
    (.mmapobj q fun m => { m with strtAddr := some ⟨y, baseMetadataNvid + v⟩ }))
  insert : ∀ {c x q} v, S.proc x → S.region q → ((proj c).disk.mmapobj q).OfRun (proj c).ram.run →
    (∀ f, ((proj c).disk.mmapobj q).strtAddr = some f → S.file f) → I c →
    I (WriteEffect.apply c (.proc x fun h => h.insertMmapobj v q))
  node : ∀ {c a nd}, I c → (proj c).locateMmapobjNode a = some nd → S.vma nd.mapId := by
    intros; trivial
  newFile : ∀ y v, S.vma v → S.file ⟨y, baseMetadataNvid + v⟩ := by intros; trivial
  newRecord : ∀ {c x h s}, I c → S.proc x → (proj c).ram.procMapStart = some s →
    (proj c).disk.proc x = some h → S.region ⟨s, h.metaOffset⟩ := by intros; trivial
  target : ∀ {c x h t v q f}, I c → S.proc x → (proj c).disk.proc x = some h →
    h.mmapobjTree = some t → S.vma v → t.tree.find v = some q →
    ((proj c).disk.mmapobj q).strtAddr = some f → S.file f := by intros; trivial

/-- The invariant is kept by the writes that create and register process `x`. -/
structure Admits (S : Scope) (I : τ → Prop) (x : ℕ) : Prop where
  procFile : ∀ {c}, (proj c).findProcess x = none → (proj c).disk.proc x = none → I c →
    I (WriteEffect.apply c (.procFile x))
  start : ∀ {c}, (proj c).findProcess x = none → I c →
    I (WriteEffect.apply c (.ram fun r => { r with procMapStart := some x }))
  addProc : ∀ {c h}, (proj c).findProcess x = none → (proj c).disk.proc x = some h → I c →
    I (WriteEffect.apply c (.ram fun r => { r with procTree := r.procTree.insert h.pid x }))
  own : ∀ {c}, (proj c).findProcess x = none → I c → S.proc x := by intros; trivial

/-- The invariant is kept by the writes that restore the regions of process `x`. -/
structure RestoresRegions (S : Scope) (I : τ → Prop) (x : ℕ) : Prop where
  region : ∀ q, S.region q := by intros; trivial
  enter : ∀ {c} v q, I c → I (WriteEffect.apply c (.proc x fun h => h.insertMmapobj v q))
  mapMeta : ∀ {c} q f, I c →
    I (WriteEffect.apply c (.mmapobj q fun m => { m with strtAddr := some f }))

/-- The invariant is also kept by the writes with which `load_process` opens process `x`. -/
structure Reopens (S : Scope) (I : τ → Prop) (x : ℕ) : Prop extends RestoresRegions S I x where
  close : ∀ {c}, I c →
    I (WriteEffect.apply c (.proc x fun h => { h with mmapobjInitialized := false }))
  dropTree : ∀ {c}, I c → I (WriteEffect.apply c (.proc x fun h => { h with mmapobjTree := none }))
  register : ∀ {c h}, (proj c).disk.proc x = some h → I c →
    I (WriteEffect.apply c (.ram fun r => { r with procTree := r.procTree.insert h.pid x }))

end Invariants

section Functions

variable {τ : Type} [WriteEffect τ Write] [WriteGhost τ Store Write] {S : Scope} {I : τ → Prop}
  {c : τ}

/-! ## Functions that work on existing regions -/

variable {st : Store} {ws : List Write} {x : ℕ} {q : MmapPtr} {rqst : Rqst}

theorem length_loadBytes {a n : ℕ} {bs : List UInt8} (h : st.loadBytes a n = some bs) :
    bs.length = n := by
  induction n generalizing a bs with
  | zero =>
    cases h
    rfl
  | succ n ih =>
    simp only [Store.loadBytes, Option.bind_eq_bind, Option.bind_eq_some_iff] at h
    obtain ⟨b, -, bs', hbs, heq⟩ := h
    cases heq
    rw [List.length_cons, ih hbs]

theorem mem_storeBytes {a : ℕ} {bs : List UInt8} (h : st.storeBytes a bs = some ws) {w : Write}
    (hw : w ∈ ws) : ∃ f o b, w = .byte f o b := by
  induction bs generalizing a ws with
  | nil =>
    cases h
    cases hw
  | cons b bs ih =>
    simp only [Store.storeBytes, Option.bind_eq_bind, Option.bind_eq_some_iff] at h
    obtain ⟨⟨f, o⟩, -, ws', hws, heq⟩ := h
    cases heq
    rcases List.mem_cons.mp hw with rfl | hw
    · exact ⟨f, o, b, rfl⟩
    · exact ih hws hw

namespace Harmless

section

variable (hH : Harmless S I) (hI : I c)
include hH hI

/-- Storing bytes. -/
theorem wpc_storeBytes {st : Store} {a : ℕ} {bs : List UInt8} {ws : List Write}
    (h : st.storeBytes a bs = some ws) : Wpc (fun _ => I) I (emits ws : NvM Unit) c := by
  refine wpc_emits (fun w hw c' hc' => ?_) hI
  obtain ⟨f, o, b, rfl⟩ := mem_storeBytes h hw
  exact hH.byte f o b hc'

theorem wpc_initializeMmapobjTree {x : ℕ} (hx : S.proc x) :
    Wpc (fun _ => I) I (initializeMmapobjTree x) c := by
  refine wpc_state_bind (wpc_lift_bind fun h hh => ?_)
  split
  · next hnone =>
    -- the tree is made only where there was none
    have htree := hH.newTree hx hh (Option.isNone_iff_eq_none.mp hnone) hI
    exact wpc_emit_bind hI (wpc_emit htree (hH.flag hx htree) (hH.flag hx htree))
  · exact wpc_pure hI hI

/-- The region that a search ends in is in the scope. -/
theorem wpc_findMmapobjFromChunkid (id : ℕ) {x : ℕ} (hx : S.proc x) :
    Wpc (fun r c' => I c' ∧ ∀ q, r = some q → S.region q) I (findMmapobjFromChunkid id x) c := by
  refine wpc_state_bind (wpc_lift_bind fun h hh => ?_)
  split
  · split
    · exact wpc_pure hI ⟨hI, fun q hq => by cases hq⟩
    · next t ht =>
      refine wpc_lift_bind fun tree htree => wpc_lift_bind fun vmid _ => wpc_pure hI ⟨hI, ?_⟩
      intro q hq
      split at hq
      · cases hq
      · unfold TreeRef.deref at htree
        split at htree
        · cases htree
          exact hH.found hI hx hh ht hq
        · cases htree
  · exact (hH.wpc_initializeMmapobjTree hI hx).seq fun _ c' hI' =>
      wpc_pure hI' ⟨hI', fun q hq => by cases hq⟩

theorem wpc_getChunk (rqst : Rqst) : Wpc (fun _ => I) I (getChunk rqst) c := by
  refine wpc_assert_bind fun _ => wpc_assert_bind fun _ => wpc_state_bind ?_
  split
  · exact wpc_pure hI hI
  · next x hx =>
    refine (hH.wpc_findMmapobjFromChunkid hI _ (hH.process hI hx)).then fun found c' hI' _ => ?_
    cases found with
    | none => exact wpc_pure hI' hI'
    | some q => exact wpc_state_bind (wpc_lift hI' fun _ _ => hI')

theorem wpc_checkIfChunkExists (rqst : Rqst) : Wpc (fun _ => I) I (checkIfChunkExists rqst) c := by
  refine (hH.wpc_getChunk hI rqst).seq fun found c' hI' => ?_
  cases found with
  | none => exact wpc_pure hI' hI'
  | some k =>
    refine wpc_state_bind ?_
    split
    · have htag := hH.chunk k (fun r => { r with chunkid := genIdFromStr rqst.varName })
        ⟨fun _ => rfl, fun _ => le_rfl⟩ hI'
      exact wpc_emit_bind hI' (wpc_pure htag htag)
    · exact wpc_pure hI' hI'

theorem wpc_nvDelete (rqst : Rqst) : Wpc (fun _ => I) I (nvDelete rqst) c := by
  refine wpc_assert_bind fun _ => wpc_state_bind (wpc_lift_bind fun x hx => ?_)
  have hproc := hH.process hI hx
  refine (hH.wpc_getChunk hI rqst).seq fun found c₁ h₁ => ?_
  cases found with
  | none => exact wpc_pure h₁ h₁
  | some k =>
    have h₂ := hH.chunk k (fun r => { r with commitsz := 0 })
      ⟨fun _ => rfl, fun _ => Nat.zero_le _⟩ h₁
    have h₃ := hH.chunk k (fun r => { r with valid := .INVALID })
      ⟨fun _ => rfl, fun _ => le_rfl⟩ h₂
    refine wpc_emit_bind h₁ (wpc_emit_bind h₂ (wpc_state_bind ?_))
    refine (hH.wpc_findMmapobjFromChunkid h₃ _ hproc).then fun region c₄ h₄ hregion => ?_
    cases region with
    | none => exact wpc_pure h₄ h₄
    | some q =>
      have hend : ∀ c₅ : τ, I c₅ → Wpc (fun _ => I) I (do
          emit (.ram fun r => { r with objnamemap := r.objnamemap.erase rqst.varName })
          return (0 : ℤ)) c₅ := fun c₅ h₅ =>
        wpc_emit_bind h₅ (wpc_pure (hH.names (fun _ => rfl) h₅) (hH.names (fun _ => rfl) h₅))
      refine wpc_state_bind ?_
      split
      · exact hend _ h₄
      · refine wpc_lift_bind fun _ _ => wpc_emit_bind h₄ (hend _ ?_)
        exact hH.mmapobj (hregion q rfl) (keepsPlace_deleteEntry _) h₄

end

variable {q : MmapPtr} (hH : Harmless S I)
include hH

theorem wpc_addChunkobj (hI : I c) (hq : S.region q) (k : ChunkPtr) :
    Wpc (fun _ => I) I (addChunkobj q k) c := by
  refine wpc_state_bind (wpc_lift_bind fun _ _ => wpc_assert_bind fun _ => ?_)
  refine wpc_lift_bind fun _ _ => wpc_emit_bind hI ?_
  have hentry := hH.mmapobj hq (keepsPlace_insertEntry ((proj c).disk.chunk k).chunkid k) hI
  exact wpc_emit hentry (hH.names (fun _ => rfl) hentry) (hH.names (fun _ => rfl) hentry)

theorem wpc_updateChunkobj (hE : IgnoresChunks I) (hI : I c) (rqst : Rqst) (offset nvPtr : ℕ)
    (q : MmapPtr) (k : ChunkPtr) : Wpc (fun _ => I) I (updateChunkobj rqst offset nvPtr q k) c := by
  refine wpc_state_bind ?_
  iterate 8 refine wpc_keep ‹I _› (hE _ _ ‹I _›) fun _ _ => ?_
  refine wpc_lift_bind fun ws hws => (hH.wpc_storeBytes ‹I _› hws).seq fun _ c' hI' => ?_
  exact wpc_assert_bind fun _ => wpc_emit hI' (hE _ _ hI') (hE _ _ hI')

/-- The new chunk record is in the region's metadata file. -/
theorem wpc_addChunkToMmapobj (hE : IgnoresChunks I) (hI : I c) (rqst : Rqst) (offset nvPtr : ℕ)
    (hq : S.region q) :
    Wpc (fun k c' => I c' ∧ ((proj c).disk.mmapobj q).strtAddr = some k.file) I
      (addChunkToMmapobj rqst offset nvPtr q) c := by
  have hcreate : Wpc (fun k c' => I c' ∧ ((proj c).disk.mmapobj q).strtAddr = some k.file) I
      (createChunkobj rqst offset nvPtr q) c := by
    refine wpc_state_bind (wpc_lift_bind fun file hfile => wpc_assert_bind fun _ => ?_)
    refine wpc_keep hI (hH.mmapobj hq ⟨fun _ => rfl, fun _ => rfl⟩ hI) fun c₁ h₁ => ?_
    exact (hH.wpc_updateChunkobj hE h₁ _ _ _ _ _).seq fun _ c₂ h₂ => wpc_pure h₂ ⟨h₂, hfile⟩
  refine hcreate.then fun k c₁ h₁ hk => (hH.wpc_addChunkobj h₁ hq k).seq fun _ c₂ h₂ => ?_
  exact wpc_pure h₂ ⟨h₂, hk⟩

theorem wpc_replaceChunk (hE : IgnoresChunks I) (hI : I c) (id : ℕ) (k : ChunkPtr)
    (old : Option ChunkPtr) : Wpc (fun _ => I) I (replaceChunk id k old) c := by
  cases old with
  | none => exact wpc_pure hI hI
  | some o =>
    refine wpc_state_bind (wpc_lift_bind fun _ _ => wpc_lift_bind fun ws hws => ?_)
    refine (hH.wpc_storeBytes hI hws).seq fun _ c₁ h₁ => ?_
    refine wpc_keep h₁ (hE _ _ h₁) fun c₂ h₂ => ?_
    exact (hH.wpc_nvDelete h₂ _).seq fun _ c₃ h₃ => wpc_pure h₃ h₃

theorem wpc_restoreChunks (hI : I c) (hq : S.region q) (dataAddr : ℕ) (ks : List ChunkPtr) :
    Wpc (fun _ => I) I (restoreChunks q dataAddr ks) c := by
  induction ks generalizing c with
  | nil => exact wpc_pure hI hI
  | cons k ks ih =>
    refine wpc_state_bind ?_
    split
    · exact ih hI
    · refine wpc_keep hI (hH.chunk _ _ ⟨fun _ => rfl, fun _ => le_rfl⟩ hI) fun c₁ h₁ => ?_
      exact (hH.wpc_addChunkobj h₁ hq k).seq fun _ _ h₂ => ih h₂

theorem wpc_initChunkTree (hI : I c) (hq : S.region q) :
    Wpc (fun _ => I) I (initChunkTree q) c := by
  refine wpc_state_bind (wpc_keep hI (hH.chunkTree hq hI) fun c₁ h₁ => ?_)
  have hflag := hH.mmapobj (f := fun m => { m with chunkTreeInit := true }) hq
    ⟨fun _ => rfl, fun _ => rfl⟩ h₁
  exact wpc_emit h₁ hflag hflag

theorem wpc_findMmapobj (hI : I c) (v : ℕ) {x : ℕ} (hx : S.proc x) :
    Wpc (fun r c' => I c' ∧ ∀ q, r = some q → S.region q ∧ ∃ h t, (proj c').disk.proc x = some h ∧
      h.mmapobjTree = some t ∧ t.tree.find v = some q) I (findMmapobj v x) c := by
  refine wpc_state_bind (wpc_lift_bind fun h hh => ?_)
  split
  · refine wpc_lift_bind fun t ht => wpc_lift_bind fun tree htree => wpc_pure hI ⟨hI, ?_⟩
    intro q hq
    unfold TreeRef.deref at htree
    split at htree
    · cases htree
      exact ⟨hH.found hI hx hh ht hq, h, t, hh, ht, hq⟩
    · cases htree
  · exact (hH.wpc_initializeMmapobjTree hI hx).seq fun _ c' hI' =>
      wpc_pure hI' ⟨hI', fun q hq => by cases hq⟩

theorem wpc_nvCommitLen (hE : IgnoresChunks I) (hI : I c) (rqst : Rqst) (size : ℕ) :
    Wpc (fun _ => I) I (nvCommitLen rqst size) c := by
  refine (hH.wpc_getChunk hI rqst).seq fun found c₁ h₁ => wpc_lift_bind fun k _ => ?_
  refine wpc_keep h₁ (hE _ _ h₁) fun c₂ h₂ => ?_
  exact wpc_state_bind (wpc_assert_bind fun _ => wpc_pure h₂ h₂)

theorem wpc_nvRename (hI : I c) (rqst : Rqst) (dest : ObjName) :
    Wpc (fun _ => I) I (nvRename rqst dest) c := by
  refine (hH.wpc_getChunk hI rqst).seq fun found c₁ h₁ => ?_
  cases found with
  | none => exact wpc_pure h₁ h₁
  | some k =>
    refine wpc_state_bind (wpc_lift_bind fun x hx => ?_)
    refine (hH.wpc_findMmapobjFromChunkid h₁ _ (hH.process h₁ hx)).then fun region c₂ h₂ hregion =>
      ?_
    cases region with
    | none => exact wpc_pure h₂ h₂
    | some q =>
      have hend : ∀ c₃ : τ, I c₃ → Wpc (fun _ => I) I (do
          emit (.ram fun r => { r with objnamemap := r.objnamemap.erase rqst.varName })
          emit (.ram fun r => { r with objnamemap := insert dest r.objnamemap }) : NvM Unit)
            c₃ := by
        intro c₃ h₃
        refine wpc_keep h₃ (hH.names (fun _ => rfl) h₃) fun c₄ h₄ => ?_
        exact wpc_emit h₄ (hH.names (fun _ => rfl) h₄) (hH.names (fun _ => rfl) h₄)
      dsimp only
      split
      · iterate 3
          refine wpc_keep ‹I _› (hH.chunk _ _ ⟨fun _ => rfl, fun _ => le_rfl⟩ ‹I _›) fun _ _ => ?_
        exact (hH.wpc_addChunkobj ‹I _› (hregion q rfl) k).seq fun _ c₃ h₃ => hend c₃ h₃
      · exact hend _ h₂

end Harmless

/-! ## Functions that make processes and regions -/

/-- `initialize_mmapobj_tree` leaves the region records and the run alone. -/
theorem initializeMmapobjTree_keeps {u : Unit} (h : initializeMmapobjTree x st = some (u, ws)) :
    (applyAll st ws).disk.mmapobj = st.disk.mmapobj ∧ (applyAll st ws).ram = st.ram := by
  obtain ⟨_, _, ws₁, hst, hrest, rfl⟩ := run_bind_eq_some.mp h
  cases hst
  obtain ⟨h₀, _, ws₂, hlift, hif, rfl⟩ := run_bind_eq_some.mp hrest
  obtain ⟨h', -, heq⟩ := Option.map_eq_some_iff.mp hlift
  cases heq
  split at hif
  · cases hif
    exact ⟨rfl, rfl⟩
  · cases hif
    exact ⟨rfl, rfl⟩

/-- The region `q` is entered into the tree of process `p`. -/
structure Entered (st st' : Store) (p : ℕ) (q : MmapPtr) : Prop where
  ram : st'.ram = st.ram
  data : st'.disk.data = st.disk.data
  mmapobj : st'.disk.mmapobj = st.disk.mmapobj
  header : ∀ h t, st.disk.proc p = some h → h.mmapobjTree = some t → ∃ h',
    st'.disk.proc p = some h' ∧
      h'.mmapobjTree = some ⟨t.run, t.tree.insert (st.disk.mmapobj q).vmaId q⟩

theorem entered_addMmapobj {p : ℕ} :
    Wpc (fun _ st' => Entered st st' p q) (fun _ => True) (addMmapobj q p) st := by
  -- the end of the function, from a state in which a tree that was there still is
  have hend : ∀ st₁ : Store, st₁.ram = st.ram → st₁.disk.data = st.disk.data →
      st₁.disk.mmapobj = st.disk.mmapobj →
      (∀ h t, st.disk.proc p = some h → h.mmapobjTree = some t → st₁.disk.proc p = some h) →
      Wpc (fun _ st' => Entered st st' p q) (fun _ => True) (do
        let st ← state
        let h ← lift (st.disk.proc p)
        let t ← lift h.mmapobjTree
        let _ ← lift (t.deref st.ram.run)
        emit (.proc p fun h => h.insertMmapobj (st.disk.mmapobj q).vmaId q) : NvM Unit) st₁ := by
    intro st₁ hram hdata hmmap hproc
    refine wpc_state_bind (wpc_lift_bind fun _ _ => wpc_lift_bind fun _ _ => ?_)
    refine wpc_lift_bind fun _ _ => wpc_emit trivial trivial ⟨hram, hdata, hmmap, ?_⟩
    intro h t hh ht
    refine ⟨h.insertMmapobj (st₁.disk.mmapobj q).vmaId q, ?_, ?_⟩
    · show update st₁.disk.proc p ((st₁.disk.proc p).map _) p = _
      rw [update_self, hproc h t hh ht]
      rfl
    · rw [ProcObj.insertMmapobj, ht, hmmap]
      rfl
  refine wpc_state_bind (wpc_lift_bind fun h₀ hh₀ => ?_)
  split
  · refine wpc_bind (wpc_state_bind (wpc_lift_bind fun h₁ hh₁ => ?_))
    split
    · next hnone =>
      refine wpc_bind (wpc_emit trivial trivial (wpc_emit trivial trivial (hend _ rfl rfl rfl ?_)))
      intro h t hh ht
      obtain rfl : h = h₁ := Option.some.inj (hh.symm.trans hh₁)
      rw [ht] at hnone
      cases hnone
    · exact wpc_pure trivial (hend _ rfl rfl rfl fun _ _ hh _ => hh)
  · exact hend st rfl rfl rfl fun _ _ hh _ => hh

/-- `add_mmapobj`, when its last write keeps the invariant. -/
theorem Harmless.wpc_addMmapobj (hH : Harmless S I) (hI : I c) (hx : S.proc x)
    (hins : ∀ c' : τ, I c' → (proj c').disk.mmapobj q = (proj c).disk.mmapobj q →
      (proj c').ram.run = (proj c).ram.run →
      ∀ v, I (WriteEffect.apply c' (.proc x fun h => h.insertMmapobj v q))) :
    Wpc (fun _ => I) I (addMmapobj q x) c := by
  have hend : ∀ c' : τ, I c' → (proj c').disk.mmapobj q = (proj c).disk.mmapobj q →
      (proj c').ram.run = (proj c).ram.run → Wpc (fun _ => I) I (do
        let st ← state
        let h ← lift (st.disk.proc x)
        let t ← lift h.mmapobjTree
        let _ ← lift (t.deref st.ram.run)
        emit (.proc x fun h => h.insertMmapobj (st.disk.mmapobj q).vmaId q) : NvM Unit) c' := by
    intro c' hI' hq hr
    refine wpc_state_bind (wpc_lift_bind fun h _ => wpc_lift_bind fun t _ => ?_)
    exact wpc_lift_bind fun _ _ => wpc_emit hI' (hins c' hI' hq hr _) (hins c' hI' hq hr _)
  refine wpc_state_bind (wpc_lift_bind fun h _ => ?_)
  split
  · have hinit : Wpc (fun _ c' => I c' ∧ ((proj c').disk.mmapobj q = (proj c).disk.mmapobj q ∧
        (proj c').ram.run = (proj c).ram.run)) I (initializeMmapobjTree x) c := by
      refine (hH.wpc_initializeMmapobjTree hI hx).and_run fun u ws hws => ?_
      obtain ⟨hq, hr⟩ := initializeMmapobjTree_keeps hws
      rw [proj_applyAll, hq, hr]
      exact ⟨rfl, rfl⟩
    exact hinit.then fun _ c' hI' hsame => hend c' hI' hsame.1 hsame.2
  · exact hend c hI rfl rfl

/-- The record of a process that is registered or can be created. -/
theorem Harmless.wpc_createOrLoadProcObj (hH : Harmless S I) (hA : Admits S I x) (hI : I c) :
    Wpc (fun y c' => I c' ∧ (S.proc y ∧ y = ((proj c).findProcess x).getD x ∧
      (proj c').findProcess x = (proj c).findProcess x)) I (createOrLoadProcObj x) c := by
  refine wpc_state_bind ?_
  cases hx : (proj c).findProcess x with
  | some y => exact wpc_pure hI ⟨hI, hH.process hI hx, rfl, hx⟩
  | none =>
    have hend : ∀ c' : τ, I c' → (proj c').findProcess x = none →
        Wpc (fun y c' => I c' ∧ (S.proc y ∧ y = x ∧ (proj c').findProcess x = none)) I (do
          emit (.ram fun r => { r with procMapStart := some x })
          return x : NvM ℕ) c' := by
      intro c' hI' hx'
      have hstart := hA.start hx' hI'
      have hfind : (proj (WriteEffect.apply c'
        (Write.ram fun r => { r with procMapStart := some x }))
          ).findProcess x = none := by
        rw [proj_apply]
        exact hx'
      exact wpc_emit_bind hI' (wpc_pure hstart ⟨hstart, hA.own hx' hI', rfl, hfind⟩)
    dsimp only
    split
    · next hnone =>
      refine wpc_emit_bind hI (hend _ (hA.procFile hx (Option.isNone_iff_eq_none.mp hnone) hI) ?_)
      rw [proj_apply]
      exact hx
    · exact hend c hI hx

theorem Harmless.wpc_findOrCreateProcess (hH : Harmless S I) (hA : Admits S I x) (hI : I c) :
    Wpc (fun y c' => I c' ∧ S.proc y) I (findOrCreateProcess x) c := by
  refine wpc_state_bind ?_
  cases hx : (proj c).findProcess x with
  | some y => exact wpc_pure hI ⟨hI, hH.process hI hx⟩
  | none =>
    refine (hH.wpc_createOrLoadProcObj hA hI).then fun y c₁ h₁ hy => ?_
    obtain ⟨hproc, hyx, hx₁⟩ := hy
    rw [hx] at hyx hx₁
    cases hyx
    have hadd : Wpc (fun _ => I) I (addProcObj x) c₁ :=
      wpc_state_bind (wpc_lift_bind fun h hh => wpc_emit h₁ (hA.addProc hx₁ hh h₁)
      (hA.addProc hx₁ hh h₁))
    exact hadd.seq fun _ c₂ h₂ => wpc_pure h₂ ⟨h₂, hproc⟩

/-- A new region has a tree of this run and the metadata file of its id. -/
theorem createMmapobj_result {y v bytes dataAddr : ℕ}
    (h : createMmapobj x y v bytes dataAddr true st = some (q, ws)) :
    ((applyAll st ws).disk.mmapobj q).OfRun (applyAll st ws).ram.run ∧
      ((applyAll st ws).disk.mmapobj q).strtAddr = some ⟨y, baseMetadataNvid + v⟩ := by
  obtain ⟨_, _, ws₁, hst, hrest, rfl⟩ := run_bind_eq_some.mp h
  cases hst
  obtain ⟨start, _, ws₂, hstart, hrest₂, rfl⟩ := run_bind_eq_some.mp hrest
  obtain ⟨_, -, heq⟩ := Option.map_eq_some_iff.mp hstart
  cases heq
  obtain ⟨h₀, _, ws₃, hh, hrest₃, rfl⟩ := run_bind_eq_some.mp hrest₂
  obtain ⟨_, -, heq⟩ := Option.map_eq_some_iff.mp hh
  cases heq
  obtain ⟨_, _, ws₄, hassert, hrest₄, rfl⟩ := run_bind_eq_some.mp hrest₃
  rw [run_assert] at hassert
  split at hassert
  · cases hassert
    cases hrest₄
    refine ⟨?_, ?_⟩
    · intro r hr
      simp [WriteEffect.apply, Store.apply, Disk.apply, Ram.apply, Mmapobj.treeRun, TreeRef.create]
        at hr
      exact hr.symm
    · simp [WriteEffect.apply, Store.apply, Disk.apply]
  · cases hassert

namespace Ordinary

variable (hO : Ordinary S I) (hI : I c) {x : ℕ} (hx : S.proc x) (y : ℕ)
include hO hI hx y

theorem wpc_createMmapobj {v : ℕ} (hv : S.vma v) (bytes dataAddr : ℕ) :
    Wpc (fun q c' => I c' ∧ S.region q) I (createMmapobj x y v bytes dataAddr) c := by
  refine wpc_state_bind (wpc_lift_bind fun s hs => wpc_lift_bind fun h hh => ?_)
  have hq := hO.newRecord hI hx hs hh
  refine wpc_assert_bind fun _ => wpc_keep hI (hO.fields hx ?_ hI) fun c₁ h₁ => ?_
  · exact ⟨fun _ => rfl, fun _ => rfl, fun _ => le_rfl, fun _ => Nat.le_add_right _ _⟩
  iterate 4 refine wpc_keep ‹I _› (hO.mmapobj hq ⟨fun _ => rfl, fun _ => rfl⟩ ‹I _›) fun _ _ => ?_
  refine wpc_keep ‹I _› (hO.metaFile _ ‹I _›) fun c₂ h₂ => ?_
  refine wpc_keep h₂ (hO.strtAddr y v hq hv h₂) fun c₃ h₃ => ?_
  exact (hO.wpc_initChunkTree h₃ hq).seq fun _ c₄ h₄ => wpc_pure h₄ ⟨h₄, hq⟩

theorem wpc_addMmapobjToProc {v : ℕ} (hv : S.vma v) (bytes dataAddr : ℕ) :
    Wpc (fun q c' => I c' ∧ (S.region q ∧ ∀ f, ((proj c').disk.mmapobj q).strtAddr = some f →
      S.file f)) I (addMmapobjToProc x y v bytes dataAddr) c := by
  have hcreate : Wpc (fun q c' => I c' ∧ (S.region q ∧
      ((proj c').disk.mmapobj q).OfRun (proj c').ram.run ∧
      ((proj c').disk.mmapobj q).strtAddr = some ⟨y, baseMetadataNvid + v⟩)) I
      (createMmapobj x y v bytes dataAddr) c := by
    refine (Wpc.and_run (P := fun q c' => ((proj c').disk.mmapobj q).OfRun (proj c').ram.run ∧
      ((proj c').disk.mmapobj q).strtAddr = some ⟨y, baseMetadataNvid + v⟩)
      (hO.wpc_createMmapobj hI hx y hv bytes dataAddr) fun q ws hws => ?_).post_mono
      fun q c' h => ⟨h.1.1, h.1.2, h.2⟩
    rw [proj_applyAll]
    exact createMmapobj_result hws
  refine hcreate.then fun q c₁ h₁ hq => ?_
  obtain ⟨hq, hrun, haddr⟩ := hq
  have hfile : ∀ f, ((proj c₁).disk.mmapobj q).strtAddr = some f → S.file f := by
    intro f hf
    cases haddr.symm.trans hf
    exact hO.newFile y v hv
  have hadd : Wpc (fun _ c' => I c' ∧ (proj c').disk.mmapobj q = (proj c₁).disk.mmapobj q) I
      (addMmapobj q x) c₁ := by
    refine (hO.wpc_addMmapobj h₁ hx fun c' h' hrec hr v' => ?_).and_run fun _ ws hws => ?_
    · refine hO.insert v' hx hq ?_ ?_ h'
      · rw [hrec, hr]
        exact hrun
      · rw [hrec]
        exact hfile
    · have hent : Entered (proj c₁) (applyAll (proj c₁) ws) x q := (entered_addMmapobj _ _ hws).1
      rw [proj_applyAll, hent.mmapobj]
  refine hadd.then fun _ c₂ h₂ hrec => ?_
  have hcount := hO.fields (f := fun h => { h with pesistMmaps := h.pesistMmaps + 1 }) hx
    ⟨fun _ => rfl, fun _ => rfl, fun _ => le_rfl, fun _ => le_rfl⟩ h₂
  refine wpc_emit_bind h₂ (wpc_pure hcount ⟨hcount, hq, ?_⟩)
  intro f hf
  rw [proj_apply] at hf
  exact hfile f ((congrArg Mmapobj.strtAddr hrec).symm.trans hf)

/-- The region of a new object, and the file its record goes to. -/
theorem wpc_findOrAddMmapobj {node : MmapobjNode} (hv : S.vma node.mapId) :
    Wpc (fun q c' => I c' ∧ (S.region q ∧ ∀ f, ((proj c').disk.mmapobj q).strtAddr = some f →
      S.file f)) I (findOrAddMmapobj x y node) c := by
  refine (hO.wpc_findMmapobj hI _ hx).then fun found c₁ h₁ hfound => ?_
  cases found with
  | none => exact wpc_state_bind (hO.wpc_addMmapobjToProc h₁ hx y hv _ _)
  | some q =>
    obtain ⟨hq, h, t, hh, ht, hfind⟩ := hfound q rfl
    refine wpc_state_bind (wpc_assert_bind fun _ => wpc_pure h₁ ⟨h₁, hq, fun f hf => ?_⟩)
    exact hO.target h₁ hx hh ht hv hfind hf

end Ordinary

/-- `nv_record_chunk` up to the point where the region of the block is known. -/
def recordRegion (rqst : Rqst) (addr : ℕ) : NvM (MmapPtr × MmapobjNode × Option ChunkPtr) := do
  let st ← state
  assert (st.ram.gInitialized = true)
  let proc ← findOrCreateProcess rqst.pid
  let oldchunk ← checkIfChunkExists rqst
  let st ← state
  let node ← lift (st.locateMmapobjNode addr)
  assert (node.mapId ≠ 0)
  assert (node.startAddr ≠ 0)
  let q ← findOrAddMmapobj proc rqst.pid node
  return (q, node, oldchunk)

/-- The rest of `nv_record_chunk`: the chunk. -/
def recordBlock (rqst : Rqst) (addr : ℕ) :
    MmapPtr × MmapobjNode × Option ChunkPtr → NvM Unit
  | (q, node, oldchunk) => do
    let id := genIdFromStr rqst.varName
    assert (id ≠ 0)
    let c ← addChunkToMmapobj { rqst with id := id } (addr - node.startAddr) addr q
    emit (.mmapobj q fun m => { m with numchunks := m.numchunks + 1 })
    replaceChunk id c oldchunk
    emit (.ram fun r => { r with chunkmap := update r.chunkmap addr (some c) })

/-- The two parts of `nv_record_chunk`. -/
theorem nvRecordChunk_eq (rqst : Rqst) (addr : ℕ) :
    nvRecordChunk rqst addr = recordRegion rqst addr >>= recordBlock rqst addr := by
  simp only [nvRecordChunk, recordRegion, bind_bind, pure_bind_eq]
  rfl

theorem Harmless.wpc_recordBlock (hH : Harmless S I) (hE : IgnoresChunks I) (hI : I c) (rqst : Rqst)
    (addr : ℕ) (hq : S.region q)
    (hfile : ∀ f, ((proj c).disk.mmapobj q).strtAddr = some f → S.file f) (node : MmapobjNode)
    (old : Option ChunkPtr) : Wpc (fun _ => I) I (recordBlock rqst addr (q, node, old)) c := by
  refine wpc_assert_bind fun _ => (hH.wpc_addChunkToMmapobj hE hI _ _ _ hq).then fun k c₁ h₁ hk =>
    ?_
  refine wpc_keep h₁ (hH.mmapobj hq ⟨fun _ => rfl, fun _ => rfl⟩ h₁) fun c₂ h₂ => ?_
  refine (hH.wpc_replaceChunk hE h₂ _ _ _).seq fun _ c₃ h₃ => ?_
  have hmap := hH.chunkmap addr k (hfile _ hk) h₃
  exact wpc_emit h₃ hmap hmap

theorem Ordinary.wpc_recordRegion (hO : Ordinary S I) (hA : Admits S I rqst.pid) (hI : I c)
    (addr : ℕ) : Wpc (fun r c' => I c' ∧ (S.region r.1 ∧
      ∀ f, ((proj c').disk.mmapobj r.1).strtAddr = some f → S.file f)) I
      (recordRegion rqst addr) c := by
  refine wpc_state_bind (wpc_assert_bind fun _ => ?_)
  refine (hO.wpc_findOrCreateProcess hA hI).then fun x c₁ h₁ hx => ?_
  refine (hO.wpc_checkIfChunkExists h₁ rqst).seq fun old c₂ h₂ => ?_
  refine wpc_state_bind (wpc_lift_bind fun node hnode => ?_)
  refine wpc_assert_bind fun _ => wpc_assert_bind fun _ => ?_
  refine (hO.wpc_findOrAddMmapobj h₂ hx _ (hO.node h₂ hnode)).then fun q c₃ h₃ hq => ?_
  exact wpc_pure h₃ ⟨h₃, hq⟩

theorem Ordinary.wpc_nvRecordChunk (hO : Ordinary S I) (hE : IgnoresChunks I)
    (hA : Admits S I rqst.pid) (hI : I c) (addr : ℕ) :
    Wpc (fun _ => I) I (nvRecordChunk rqst addr) c := by
  rw [nvRecordChunk_eq]
  refine (hO.wpc_recordRegion hA hI addr).then fun r c₁ h₁ hr => ?_
  obtain ⟨q, node, old⟩ := r
  exact hO.wpc_recordBlock hE h₁ rqst addr hr.1 hr.2 node old

theorem Ordinary.wpc_mmapRegion (hO : Ordinary S I) (hA : Admits S I x) (hI : I c) (size addr : ℕ) :
    Wpc (fun _ => I) I (mmapRegion x size addr) c := by
  refine wpc_assert_bind fun _ => (hO.wpc_createOrLoadProcObj hA hI).then fun y c₁ h₁ hy => ?_
  obtain ⟨hy, -, -⟩ := hy
  refine wpc_state_bind (wpc_lift_bind fun h hh => ?_)
  let f : ProcObj → ProcObj := fun h => { h with numMmaps := h.numMmaps + 1 }
  let c₂ := WriteEffect.apply c₁ (Write.proc y f)
  have hf : Advances f :=
    ⟨fun _ => rfl, fun _ => rfl, fun _ => Nat.le_succ _, fun _ => le_rfl⟩
  have h₂ : I c₂ := hO.fields hy hf h₁
  have h₃ := hO.dataFile ⟨x, h.numMmaps + 1⟩ (toUint size) h₂
  refine wpc_emit_bind h₁ (wpc_emit_bind h₂ (wpc_emit_bind h₃ ?_))
  have h₄ := hO.names (f := fun r => { r with maps := ⟨addr, size, ⟨x, h.numMmaps + 1⟩⟩ :: r.maps })
    (fun _ => rfl) h₃
  refine wpc_assert_bind fun _ => wpc_keep h₄ (hO.mapTree (x := y) (h := f h) hy ?_ rfl h₄)
    fun c₅ h₅ => ?_
  · rw [proj_apply, proj_apply, proj_apply]
    show update (proj c₁).disk.proc y (((proj c₁).disk.proc y).map f) y = _
    rw [update_self, hh]
    rfl
  · exact wpc_emit h₅ (hO.procVmas _ _ h₅) (hO.procVmas _ _ h₅)

/-! ## Loading a process -/

theorem Harmless.wpc_restoreChunkObjs (hH : Harmless S I) (hR : RestoresRegions S I x) (hI : I c)
    (place : DataFile → ℕ) (q : MmapPtr) : Wpc (fun _ => I) I (restoreChunkObjs place q) c := by
  have hq := hR.region q
  refine wpc_state_bind
    (wpc_keep hI (hH.mmapobj hq ⟨fun _ => rfl, fun _ => rfl⟩ hI) fun c₁ h₁ => ?_)
  refine wpc_keep h₁ (hR.mapMeta q _ h₁) fun c₂ h₂ => ?_
  split
  · refine wpc_keep h₂ (hH.names (fun _ => rfl) h₂) fun c₃ h₃ => ?_
    refine wpc_keep h₃ (hH.mmapobj hq ⟨fun _ => rfl, fun _ => rfl⟩ h₃) fun c₄ h₄ => ?_
    refine wpc_assert_bind fun _ => ?_
    dsimp only
    split
    · exact (hH.wpc_initChunkTree h₄ hq).seq fun _ c₅ h₅ => hH.wpc_restoreChunks h₅ hq _ _
    · exact hH.wpc_restoreChunks h₄ hq _ _
  · exact wpc_pure h₂ h₂

theorem Harmless.wpc_restoreMmapobjs (hH : Harmless S I) (hx : S.proc x)
    (hR : RestoresRegions S I x) (hI : I c) (place : DataFile → ℕ) (qs : List MmapPtr) :
    Wpc (fun _ => I) I (restoreMmapobjs place x qs) c := by
  induction qs generalizing c with
  | nil => exact wpc_pure hI hI
  | cons q qs ih =>
    refine (hH.wpc_addMmapobj hI hx fun c' h' _ _ v => hR.enter v q h').seq fun _ c₁ h₁ => ?_
    exact (hH.wpc_restoreChunkObjs hR h₁ place q).seq fun _ c₂ h₂ => ih h₂

theorem Harmless.wpc_loadProcess (hH : Harmless S I) (hA : Admits S I x) (hI : I c)
    (hR : Reopens S I (((proj c).findProcess x).getD x)) (place : DataFile → ℕ) :
    Wpc (fun y c' => I c' ∧ S.proc y) I (loadProcess place x) c := by
  refine wpc_state_bind (wpc_assert_bind fun _ => ?_)
  refine (hH.wpc_createOrLoadProcObj hA hI).then fun y c₁ h₁ hy => ?_
  obtain ⟨hy, rfl, -⟩ := hy
  refine wpc_keep h₁ (hR.close h₁) fun c₂ h₂ => wpc_keep h₂ (hR.dropTree h₂) fun c₃ h₃ => ?_
  have hadd : Wpc (fun _ => I) I (addProcObj (((proj c).findProcess x).getD x)) c₃ :=
    wpc_state_bind (wpc_lift_bind fun h hh => wpc_emit h₃ (hR.register hh h₃) (hR.register hh h₃))
  refine hadd.seq fun _ c₄ h₄ => (hH.wpc_initializeMmapobjTree h₄ hy).seq fun _ c₅ h₅ => ?_
  refine wpc_state_bind (wpc_lift_bind fun _ _ => ?_)
  exact (hH.wpc_restoreMmapobjs hy hR.toRestoresRegions h₅ place _).seq fun _ c₆ h₆ =>
    wpc_pure h₆ ⟨h₆, hy⟩

/-- The search of `nv_map_read` in a process that is in memory. -/
def readFrom (rqst : Rqst) (proc : ℕ) : NvM (Option ReadResult) := do
  match ← findMmapobjFromChunkid rqst.chunkId proc with
  | none => return none
  | some q =>
    let st ← state
    let t ← lift (st.disk.mmapobj q).chunkobjTree
    let tree ← lift (t.deref st.ram.run)
    let c ← lift (tree.find rqst.chunkId)
    let r := st.disk.chunk c
    assert (r.nvPtr ≠ 0)
    assert (r.length ≠ 0)
    return if r.valid = .INVALID then none else some ⟨r.nvPtr, r.length, r.commitsz⟩

section

variable (hH : Harmless S I) (hI : I c)
include hH hI

/-- The search reports what a chunk record says. -/
theorem Harmless.wpc_readFrom (hx : S.proc x) (rqst : Rqst) :
    Wpc (fun r c' => I c' ∧ ∀ x, r = some x → ∃ k, x = ⟨((proj c').disk.chunk k).nvPtr,
      ((proj c').disk.chunk k).length, ((proj c').disk.chunk k).commitsz⟩) I
      (readFrom rqst x) c := by
  refine (hH.wpc_findMmapobjFromChunkid hI _ hx).then fun found c₁ h₁ _ => ?_
  cases found with
  | none => exact wpc_pure h₁ ⟨h₁, fun x hx => by cases hx⟩
  | some q =>
    refine wpc_state_bind (wpc_lift_bind fun _ _ => wpc_lift_bind fun _ _ => ?_)
    refine wpc_lift_bind fun k _ => wpc_assert_bind fun _ => wpc_assert_bind fun _ => ?_
    refine wpc_pure h₁ ⟨h₁, fun x hx => ⟨k, ?_⟩⟩
    split at hx
    · cases hx
    · exact (Option.some.inj hx).symm

/-- `nv_map_read`, which loads the process where it is not registered. -/
theorem Harmless.wpc_nvMapRead {place : DataFile → ℕ}
    (hload : (proj c).findProcess rqst.pid = none →
      Wpc (fun y c' => I c' ∧ S.proc y) I (loadProcess place rqst.pid) c) :
    Wpc (fun r c' => I c' ∧ ∀ x, r = some x → ∃ k, x = ⟨((proj c').disk.chunk k).nvPtr,
      ((proj c').disk.chunk k).length, ((proj c').disk.chunk k).commitsz⟩) I
      (nvMapRead place rqst) c := by
  refine wpc_state_bind ?_
  cases hp : (proj c).findProcess rqst.pid with
  | some x =>
    have hpure : Wpc (fun y c' => I c' ∧ S.proc y) I (pure x : NvM ℕ) c :=
      wpc_pure hI ⟨hI, hH.process hI hp⟩
    exact hpure.then fun y c' h' hy => hH.wpc_readFrom h' hy rqst
  | none => exact (hload hp).then fun y c' h' hy => hH.wpc_readFrom h' hy rqst

/-- A read reports the sizes of a chunk record, and as many bytes as its length says. -/
theorem Harmless.wpc_readObject {place : DataFile → ℕ} (hload : (proj c).findProcess x = none →
      Wpc (fun y c' => I c' ∧ S.proc y) I (loadProcess place x) c) (n : ObjName) :
    Wpc (fun r c' => I c' ∧ ∀ o, r = some o → ∃ k, o.length = ((proj c').disk.chunk k).length ∧
      o.commitsz = ((proj c').disk.chunk k).commitsz ∧ o.bytes.length = o.length) I
      (readObject place x n) c := by
  refine (hH.wpc_nvMapRead hI hload).then fun found c₁ h₁ hfound => ?_
  cases found with
  | none => exact wpc_pure h₁ ⟨h₁, fun o ho => by cases ho⟩
  | some r =>
    obtain ⟨k, rfl⟩ := hfound r rfl
    refine wpc_state_bind (wpc_lift_bind fun bs hbs => wpc_pure h₁ ⟨h₁, fun o ho => ?_⟩)
    cases ho
    exact ⟨k, rfl, rfl, length_loadBytes hbs⟩

theorem Harmless.wpc_writeObject (hload : (proj c).findProcess x = none →
      Wpc (fun y c' => I c' ∧ S.proc y) I (loadProcess (fun _ => 0) x) c) (n : ObjName) (off : ℕ)
    (bs : List UInt8) : Wpc (fun _ => I) I (writeObject x n off bs) c := by
  refine (hH.wpc_nvMapRead hI hload).then fun found c₁ h₁ _ => ?_
  refine wpc_lift_bind fun r _ => wpc_state_bind (wpc_lift_bind fun ws hws => ?_)
  exact hH.wpc_storeBytes h₁ hws

end

/-- `nv_initialize`. -/
theorem Harmless.wpc_nvInitialize (hH : Harmless S I) (hA : Admits S I x) (hI : I c)
    (hinit : I c → I (WriteEffect.apply c (.ram fun r => { r with gInitialized := true })))
    (hR : Reopens S I (((proj c).findProcess x).getD x)) (place : DataFile → ℕ) :
    Wpc (fun _ => I) I (nvInitialize place x) c := by
  refine wpc_state_bind ?_
  split
  · refine wpc_emit_bind hI ((hH.wpc_loadProcess hA (hinit hI) ?_ place).then
      fun _ c₁ h₁ _ => wpc_pure h₁ h₁)
    rw [proj_apply]
    exact hR
  · exact wpc_pure hI hI

/-! ## Operations -/

/-- The program of an operation; a new run starts with `nv_initialize`. -/
def Op.prog (p : ℕ) : Op → NvM Unit
  | .mmap size addr => mmapRegion p size addr
  | .alloc n bytes addr => nvRecordChunk (allocRqst p n bytes) addr
  | .commit n size => do let _ ← nvCommitLen (request p n) size
  | .delete n => do let _ ← nvDelete (request p n)
  | .read n place => do let _ ← readObject place p n
  | .write n off bs => writeObject p n off bs
  | .rename s d => nvRename (request p s) d
  | .restart place => nvInitialize place p

/-- Every operation keeps an invariant that the loads among them keep and that does not speak of
chunk records. -/
theorem Ordinary.wpc_prog (hO : Ordinary S I) (hE : IgnoresChunks I) (hA : Admits S I x)
    (hI : I c)
    (hload : ∀ place, (proj c).findProcess x = none →
      Wpc (fun y c' => I c' ∧ S.proc y) I (loadProcess place x) c)
    (hinit : ∀ place, Wpc (fun _ => I) I (nvInitialize place x) c) (op : Op) :
    Wpc (fun _ => I) I (op.prog x) c := by
  cases op with
  | mmap size addr => exact hO.wpc_mmapRegion hA hI size addr
  | alloc n bytes addr => exact hO.wpc_nvRecordChunk hE hA hI addr
  | commit n size => exact (hO.wpc_nvCommitLen hE hI _ size).seq fun _ c₁ h₁ => wpc_pure h₁ h₁
  | delete n => exact (hO.wpc_nvDelete hI _).seq fun _ c₁ h₁ => wpc_pure h₁ h₁
  | read n place =>
    exact (hO.wpc_readObject hI (hload place) n).then fun _ c₁ h₁ _ => wpc_pure h₁ h₁
  | write n off bs => exact hO.wpc_writeObject hI (hload _) n off bs
  | rename s d => exact hO.wpc_nvRename hI _ d
  | restart place => exact hinit place

end Functions

/-! ## The pids of the process records -/

/-- The process records in the files `F` have the pids of their files. -/
def PidsIn (F : Set ℕ) (st : Store) : Prop := ∀ x ∈ F, ∀ h, st.disk.proc x = some h → h.pid = x

section Pids

variable {F : Set ℕ} {st st' : Store}

theorem PidsIn.of_proc (h : PidsIn F st) (hproc : st'.disk.proc = st.disk.proc) : PidsIn F st' := by
  intro x hx r hr
  rw [hproc] at hr
  exact h x hx r hr

theorem PidsIn.apply_proc (h : PidsIn F st) {x : ℕ} {f : ProcObj → ProcObj}
    (hf : ∀ r, (f r).pid = r.pid) : PidsIn F (st.apply (.proc x f)) := by
  intro y hy r hr
  have hr' : update st.disk.proc x ((st.disk.proc x).map f) y = some r := hr
  by_cases hyx : y = x
  · subst hyx
    rw [update_self] at hr'
    obtain ⟨r₀, hr₀, rfl⟩ := Option.map_eq_some_iff.mp hr'
    rw [hf, h y hy r₀ hr₀]
  · rw [update_of_ne hyx] at hr'
    exact h y hy r hr'

theorem PidsIn.apply_procFile (h : PidsIn F st) (x : ℕ) : PidsIn F (st.apply (.procFile x)) := by
  intro y hy r hr
  have hr' : update st.disk.proc x (some { pid := x }) y = some r := hr
  by_cases hyx : y = x
  · subst hyx
    rw [update_self] at hr'
    cases hr'
    rfl
  · rw [update_of_ne hyx] at hr'
    exact h y hy r hr'

variable {τ : Type} [WriteEffect τ Write] [WriteGhost τ Store Write] {c : τ} {w : Write}

/-- A write to something else. -/
theorem PidsIn.keep (h : PidsIn F (proj c))
    (hproc : ((proj c).apply w).disk.proc = (proj c).disk.proc) :
    PidsIn F (proj (WriteEffect.apply c w)) := by
  rw [proj_apply]
  exact h.of_proc hproc

/-- A write to a process record. -/
theorem PidsIn.keep_proc (h : PidsIn F (proj c)) {x : ℕ} {f : ProcObj → ProcObj}
    (hf : ∀ r, (f r).pid = r.pid) : PidsIn F (proj (WriteEffect.apply c (.proc x f))) := by
  rw [proj_apply]
  exact h.apply_proc hf

theorem pidsIn_ordinary (F : Set ℕ) : Ordinary {} fun c : τ => PidsIn F (proj c) where
  chunk _ _ _ h := h.keep rfl
  byte _ _ _ h := h.keep rfl
  names _ h := h.keep rfl
  chunkmap _ _ _ h := h.keep rfl
  mmapobj _ _ h := h.keep rfl
  chunkTree _ h := h.keep rfl
  newTree _ _ _ h := h.keep_proc fun _ => rfl
  flag _ h := h.keep_proc fun _ => rfl
  fields _ hf h := h.keep_proc hf.pid
  metaFile _ h := h.keep rfl
  dataFile _ _ h := h.keep rfl
  mapTree _ _ _ h := h.keep rfl
  procVmas _ _ h := h.keep rfl
  strtAddr _ _ _ _ h := h.keep rfl
  insert _ _ _ _ _ h := h.keep_proc fun _ => rfl

theorem pidsIn_admits (F : Set ℕ) (x : ℕ) : Admits {} (fun c : τ => PidsIn F (proj c)) x where
  procFile _ _ h := by
    rw [proj_apply]
    exact h.apply_procFile x
  start _ h := h.keep rfl
  addProc _ _ h := h.keep rfl

end Pids
