/-
# Begins and commits

`log_record` pushes the cursors of a log and appends a record, `update_oncommit` pops them.
Neither looks at the depth of the stack: a begin at depth 256 uses a slot behind the stack, and
a commit at depth 0 takes what slot 0 happens to hold, a null pointer or the position of a
transaction that has long been committed.  The first theorem says exactly which calls are
harmless.

The second is about transactions that are nested as they should be.  The header offset of the
object log and its cursor are then never in step, because initialisation advances one by 24
bytes and the other by 24 records and a commit sets the offset instead of reducing it; and the
count in the master record of the word log counts all transactions, not the open ones.
-/
import NvMalloc.LogMngr

open Function

/-! ## Calls -/

/-- The calls of the clients; `mem` is the memory of the application at the call. -/
inductive NestCall where
  | logRecord (k : LogKind) (mem : ℕ → UInt8) (dateptr : ℕ) (length : UInt32)
  | updateOncommit (k : LogKind) (dateptr : ℕ)

/-- One call, and the index of the save stack that it uses. -/
def nestCall (s : LogMngr) : NestCall → Option (ℕ × LogMngr)
  | .logRecord k mem dateptr length =>
    (s.logRecord mem dateptr length k).map fun x => ((s.log k).nstdCntr, x.2)
  | .updateOncommit k dateptr => some ((s.log k).nstdCntr - 1, s.updateOncommit dateptr k)

variable {s s' : LogMngr} {maps : LogMaps} {k : LogKind}

/-- The two effects of a call on the logs. -/
theorem nestCall_cases {call : NestCall} {idx : ℕ} (h : nestCall s call = some (idx, s')) :
    (∃ k mem dateptr length, call = .logRecord k mem dateptr length ∧ idx = (s.log k).nstdCntr ∧
      s'.log = update s.log k
        (((s.log k).startTrans.ready k).advance (copyLength length.toNat k)) ∧
      s'.reccount = s.incrRecCount (s.log k).recmap) ∨
    (∃ dateptr, call = .updateOncommit .obj dateptr ∧ idx = (s.log .obj).nstdCntr - 1 ∧
      s'.log = update s.log .obj (s.log .obj).endObjTrans ∧ s'.reccount = s.reccount) ∨
    (∃ dateptr, call = .updateOncommit .wrd dateptr ∧ idx = (s.log .wrd).nstdCntr - 1 ∧
      s'.log = update s.log .wrd (s.log .wrd).endWrdTrans ∧ s'.reccount = s.reccount) := by
  cases call with
  | logRecord k mem dateptr length =>
    obtain ⟨⟨ws, s₁⟩, hlog, heq⟩ := Option.map_eq_some_iff.mp h
    cases heq
    obtain ⟨hglobals, hcount⟩ := LogMngr.addRecord_eq hlog
    refine .inl ⟨k, mem, dateptr, length, rfl, rfl, ?_, ?_⟩
    · rw [hglobals]
      simp only [LogMngr.startTrans, update_self, update_idem]
    · rw [hcount]
      simp only [LogMngr.startTrans, update_self, LogGlobals.startTrans]
      rfl
  | updateOncommit k dateptr =>
    cases h
    cases k with
    | obj => exact .inr (.inl ⟨dateptr, rfl, rfl, rfl, rfl⟩)
    | wrd => exact .inr (.inr ⟨dateptr, rfl, rfl, rfl, rfl⟩)

/-! ## Calls in any order -/

/-- The cursors of a log point into its mappings. -/
def CursorsInside (maps : LogMaps) (l : LogGlobals) (k : LogKind) : Prop :=
  maps.Inside (.records k) l.currec ∧ maps.Inside (.data k) l.curdatptr

/-- The cursors, the offsets and the depth of the stack are the same. -/
structure SameLog (l l' : LogGlobals) : Prop where
  currec : l'.currec = l.currec
  curdatptr : l'.curdatptr = l.curdatptr
  headeroff : l'.headeroff = l.headeroff
  dataoff : l'.dataoff = l.dataoff
  nstdCntr : l'.nstdCntr = l.nstdCntr

/-- What is expected of every call: the index is one of the stack, the cursors point into their
mappings afterwards, and a commit with no open transaction changes nothing. -/
structure NestSafe (maps : LogMaps) (s : LogMngr) (call : NestCall) (idx : ℕ) (s' : LogMngr) :
    Prop where
  index : idx < maxNestedTrans
  cursors : ∀ k, CursorsInside maps (s'.log k) k
  empty : ∀ k dateptr, call = .updateOncommit k dateptr → (s.log k).nstdCntr = 0 →
    SameLog (s.log k) (s'.log k)

/-- The calls that are safe: a begin with a free slot and room in both mappings, a commit of an
open transaction, or one that finds the cursors in slot 0 (and, for the object log, a header
offset of 0). -/
def NestAllowed (maps : LogMaps) (s : LogMngr) : NestCall → Prop
  | .logRecord k _ _ length => (s.log k).nstdCntr < maxNestedTrans ∧
      (s.log k).currec + sizeofRecord < maps.base (.records k) + transLogsz ∧
      (s.log k).curdatptr + copyLength length.toNat k < maps.base (.data k) + transDataLogsz
  | .updateOncommit k _ => 0 < (s.log k).nstdCntr ∨
      ((s.log k).rechead 0 = (s.log k).currec ∧ (s.log k).datahead 0 = (s.log k).curdatptr ∧
        (k = .obj → (s.log k).headeroff = 0))

instance (maps : LogMaps) (s : LogMngr) (c : NestCall) : Decidable (NestAllowed maps s c) := by
  refine c.casesOn ?_ ?_ <;> intros <;> dsimp only [NestAllowed] <;> infer_instance

/-- What safe calls keep of a log. -/
structure NestInv (maps : LogMaps) (k : LogKind) (l : LogGlobals) : Prop where
  recmap : l.recmap = maps.base (.records k) + k.masterRoom
  datmap : l.datmap = maps.base (.data k)
  depth : l.nstdCntr ≤ maxNestedTrans
  cursors : CursorsInside maps l k
  saved : ∀ {i}, i < l.nstdCntr →
    maps.Inside (.records k) (l.rechead i) ∧ maps.Inside (.data k) (l.datahead i)
  headeroff : l.headeroff < 2 ^ 32
  dataoff : l.dataoff < 2 ^ 32

theorem LogKind.masterRoom_lt (k : LogKind) : k.masterRoom < transLogsz := by
  cases k <;> decide

theorem nestInv_initLogmngr (maps : LogMaps) (k : LogKind) :
    NestInv maps k (initLogmngr maps k) where
  recmap := rfl
  datmap := rfl
  depth := Nat.zero_le _
  cursors := by
    have hroom := k.masterRoom_lt
    refine ⟨⟨Nat.le_add_right _ _, Nat.add_lt_add_left hroom _⟩, ⟨le_rfl, ?_⟩⟩
    exact Nat.lt_add_of_pos_right (by decide : 0 < transDataLogsz)
  saved h := absurd h (Nat.not_lt_zero _)
  headeroff := show sizeofMaster < 2 ^ 32 by decide
  dataoff := show 0 < 2 ^ 32 by decide

namespace NestInv

variable {maps : LogMaps} {k : LogKind} {l : LogGlobals} (h : NestInv maps k l)
include h

/-- The tests before an append do nothing while the cursors are inside. -/
theorem ready_eq : l.startTrans.ready k = l.startTrans := by
  obtain ⟨⟨-, hrec⟩, -, hdat⟩ := h.cursors
  apply LogGlobals.ready_eq
  · show l.currec < l.recmap + transLogsz
    rw [h.recmap]
    exact hrec.trans_le (by rw [LogArea.size]; omega)
  · show l.curdatptr < l.datmap + transDataLogsz
    rw [h.datmap]
    exact hdat

/-- A begin with room. -/
theorem begin_trans {n : ℕ} (hdepth : l.nstdCntr < maxNestedTrans)
    (hrec : l.currec + sizeofRecord < maps.base (.records k) + transLogsz)
    (hdat : l.curdatptr + n < maps.base (.data k) + transDataLogsz) :
    NestInv maps k (l.startTrans.advance n) := by
  obtain ⟨⟨hrec₀, -⟩, hdat₀, -⟩ := h.cursors
  have hcntr : (l.nstdCntr + 1) % 2 ^ 32 = l.nstdCntr + 1 := by
    simp only [maxNestedTrans] at hdepth
    omega
  refine ⟨h.recmap, h.datmap, ?_, ⟨⟨?_, hrec⟩, ⟨?_, hdat⟩⟩, ?_, Nat.mod_lt _ (by decide),
    Nat.mod_lt _ (by decide)⟩
  · show (l.nstdCntr + 1) % 2 ^ 32 ≤ maxNestedTrans
    rw [hcntr]
    exact hdepth
  · exact hrec₀.trans (Nat.le_add_right _ _)
  · exact hdat₀.trans (Nat.le_add_right _ _)
  · intro i hi
    rw [show (l.startTrans.advance n).nstdCntr = l.nstdCntr + 1 from hcntr] at hi
    show maps.Inside _ (update l.rechead l.nstdCntr l.currec i) ∧
      maps.Inside _ (update l.datahead l.nstdCntr l.curdatptr i)
    rcases eq_or_ne i l.nstdCntr with rfl | hne
    · rw [update_self, update_self]
      exact h.cursors
    · rw [update_of_ne hne, update_of_ne hne]
      exact h.saved (by omega)

/-- A commit of an open transaction. -/
theorem end_trans (hopen : 0 < l.nstdCntr) {off : ℕ} (hoff : off < 2 ^ 32) :
    NestInv maps k (l.endTrans off) where
  recmap := h.recmap
  datmap := h.datmap
  depth := (Nat.sub_le _ _).trans h.depth
  cursors := h.saved (Nat.sub_lt hopen Nat.one_pos)
  saved hi := h.saved (hi.trans_le (Nat.sub_le _ _))
  headeroff := hoff
  dataoff := uintSub_lt _ _

/-- A commit with no open transaction, when slot 0 has the cursors. -/
theorem end_empty (hzero : l.nstdCntr = 0) (hrec : l.rechead 0 = l.currec)
    (hdat : l.datahead 0 = l.curdatptr) {off : ℕ} (hoff : off < 2 ^ 32) :
    NestInv maps k (l.endTrans off) where
  recmap := h.recmap
  datmap := h.datmap
  depth := (Nat.sub_le _ _).trans h.depth
  cursors := by
    show maps.Inside _ (l.rechead (l.nstdCntr - 1)) ∧ maps.Inside _ (l.datahead (l.nstdCntr - 1))
    rw [hzero, Nat.zero_sub, hrec, hdat]
    exact h.cursors
  saved hi := h.saved (hi.trans_le (Nat.sub_le _ _))
  headeroff := hoff
  dataoff := uintSub_lt _ _

/-- What a commit with no open transaction leaves. -/
theorem sameLog_endTrans_iff (hzero : l.nstdCntr = 0) (off : ℕ) :
    SameLog l (l.endTrans off) ↔
      l.rechead 0 = l.currec ∧ l.datahead 0 = l.curdatptr ∧ off = l.headeroff := by
  have hrec : (l.endTrans off).currec = l.rechead 0 := by
    show l.rechead (l.nstdCntr - 1) = _
    rw [hzero, Nat.zero_sub]
  have hdat : (l.endTrans off).curdatptr = l.datahead 0 := by
    show l.datahead (l.nstdCntr - 1) = _
    rw [hzero, Nat.zero_sub]
  constructor
  · intro hsame
    exact ⟨hrec.symm.trans hsame.currec, hdat.symm.trans hsame.curdatptr, hsame.headeroff⟩
  · rintro ⟨hr, hd, ho⟩
    refine ⟨hrec.trans hr, hdat.trans hd, ho, ?_, ?_⟩
    · show uintSub l.dataoff (reduceOffset l.curdatptr (l.datahead (l.nstdCntr - 1))) = l.dataoff
      rw [hzero, Nat.zero_sub, hd, reduceOffset_self, uintSub_zero h.dataoff]
    · show l.nstdCntr - 1 = l.nstdCntr
      rw [hzero]

end NestInv

/-- What a safe call leaves of both logs. -/
def LogsInside (maps : LogMaps) (s : LogMngr) : Prop := ∀ k, NestInv maps k (s.log k)

/-- The logs after a call that changes only log `k`. -/
theorem LogsInside.update {l : LogGlobals} (h : LogsInside maps s)
    (hlog : s'.log = update s.log k l) (hl : NestInv maps k l) :
    LogsInside maps s' := by
  rw [LogsInside, hlog]
  exact (forall_update_iff s.log _).mpr ⟨hl, fun k' _ => h k'⟩

/-- A begin is safe exactly when it is allowed. -/
theorem nestSafe_logRecord_iff (h : LogsInside maps s)
    {mem : ℕ → UInt8} {dateptr : ℕ} {length : UInt32}
    (hlog : s'.log = update s.log k
      (((s.log k).startTrans.ready k).advance (copyLength length.toNat k))) :
    (NestSafe maps s (.logRecord k mem dateptr length) (s.log k).nstdCntr s' ↔
      NestAllowed maps s (.logRecord k mem dateptr length)) ∧
    (NestAllowed maps s (.logRecord k mem dateptr length) → LogsInside maps s') := by
  rw [(h k).ready_eq] at hlog
  have hkeep : NestAllowed maps s (.logRecord k mem dateptr length) → LogsInside maps s' := by
    rintro ⟨hdepth, hrec, hdat⟩
    exact h.update hlog ((h k).begin_trans hdepth hrec hdat)
  refine ⟨⟨?_, ?_⟩, hkeep⟩
  · intro hsafe
    obtain ⟨⟨-, hrec⟩, -, hdat⟩ := hsafe.cursors k
    rw [hlog, update_self] at hrec hdat
    exact ⟨hsafe.index, hrec, hdat⟩
  · intro hallowed
    exact ⟨hallowed.1, fun k' => (hkeep hallowed k').cursors, fun _ _ hcall => by cases hcall⟩

/-- A commit is safe exactly when it is allowed.  `off` is the new header offset; where the
cursors are in slot 0 it stays the same only as stated. -/
theorem nestSafe_updateOncommit_iff (h : LogsInside maps s)
    {dateptr off : ℕ} (hoff : off < 2 ^ 32)
    (hsame : (s.log k).nstdCntr = 0 → (s.log k).rechead 0 = (s.log k).currec →
      (off = (s.log k).headeroff ↔ (k = .obj → (s.log k).headeroff = 0)))
    (hlog : s'.log = update s.log k ((s.log k).endTrans off)) :
    (NestSafe maps s (.updateOncommit k dateptr) ((s.log k).nstdCntr - 1) s' ↔
      NestAllowed maps s (.updateOncommit k dateptr)) ∧
    (NestAllowed maps s (.updateOncommit k dateptr) → LogsInside maps s') := by
  have hself : s'.log k = (s.log k).endTrans off := by rw [hlog, update_self]
  have hkeep : NestAllowed maps s (.updateOncommit k dateptr) → LogsInside maps s' := by
    intro hallowed
    refine h.update hlog ?_
    rcases Nat.eq_zero_or_pos (s.log k).nstdCntr with hzero | hopen
    · obtain ⟨hrec, hdat, -⟩ := hallowed.resolve_left (by omega)
      exact (h k).end_empty hzero hrec hdat hoff
    · exact (h k).end_trans hopen hoff
  refine ⟨⟨?_, ?_⟩, hkeep⟩
  · intro hsafe
    rcases Nat.eq_zero_or_pos (s.log k).nstdCntr with hzero | hopen
    · have hempty := hsafe.empty k dateptr rfl hzero
      rw [hself, (h k).sameLog_endTrans_iff hzero] at hempty
      obtain ⟨hrec, hdat, hhead⟩ := hempty
      exact .inr ⟨hrec, hdat, (hsame hzero hrec).mp hhead⟩
    · exact .inl hopen
  · intro hallowed
    refine ⟨?_, fun k' => (hkeep hallowed k').cursors, ?_⟩
    · have hdepth := (h k).depth
      simp only [maxNestedTrans] at hdepth ⊢
      omega
    · rintro k' dateptr' hcall hzero
      cases hcall
      obtain ⟨hrec, hdat, hhead⟩ := hallowed.resolve_left (by omega)
      rw [hself, (h k).sameLog_endTrans_iff hzero]
      exact ⟨hrec, hdat, (hsame hzero hrec).mpr hhead⟩

/-- A call is safe exactly when it is allowed, and then keeps the logs as they should be. -/
theorem nestCall_spec {call : NestCall} {idx : ℕ} (h : LogsInside maps s)
    (hcall : nestCall s call = some (idx, s')) :
    (NestSafe maps s call idx s' ↔ NestAllowed maps s call) ∧
      (NestAllowed maps s call → LogsInside maps s') := by
  rcases nestCall_cases hcall with ⟨k, mem, dateptr, length, rfl, rfl, hlog, -⟩ |
    ⟨dateptr, rfl, rfl, hlog, -⟩ | ⟨dateptr, rfl, rfl, hlog, -⟩
  · exact nestSafe_logRecord_iff h hlog
  · refine nestSafe_updateOncommit_iff h (reduceOffset_lt _ _) ?_ hlog
    intro hzero hrec
    rw [hzero, Nat.zero_sub, hrec, reduceOffset_self]
    simp [eq_comm]
  · refine nestSafe_updateOncommit_iff h (uintSub_lt _ _) ?_ hlog
    intro hzero hrec
    rw [hzero, Nat.zero_sub, hrec, reduceOffset_self, uintSub_zero (h .wrd).headeroff]
    simp

/-- **Begins and commits are safe exactly when every begin has a free slot of the stack and room
in both mappings, and every commit an open transaction**, or slot 0 happens to hold the
cursors. -/
theorem nestSafe_iff_of_run (maps : LogMaps) (useWal : Bool) {calls : List NestCall}
    {idxs : List ℕ} {s : LogMngr}
    (hrun : runSteps nestCall calls (initializeLogmgr maps useWal) = some (idxs, s)) :
    EachStep nestCall (NestSafe maps) calls (initializeLogmgr maps useWal) ↔
      Along nestCall (NestAllowed maps) calls (initializeLogmgr maps useWal) := by
  refine eachStep_iff_along (I := LogsInside maps) ?_ ?_ hrun
  · intro s call idx s' h hcall
    exact nestCall_spec h hcall
  · exact nestInv_initLogmngr maps

/-- A transaction on an object and one on a word in it. -/
def balancedCalls : List NestCall :=
  [.logRecord .obj (fun _ => 0) 4096 16, .logRecord .wrd (fun _ => 0) 4096 8,
    .updateOncommit .wrd 4096, .updateOncommit .obj 4096]

/-- Calls that are balanced and have room are safe. -/
theorem nestSafe_balancedCalls :
    EachStep nestCall (NestSafe sampleMaps) balancedCalls (initializeLogmgr sampleMaps false) := by
  obtain ⟨⟨idxs, s⟩, hrun⟩ := Option.isSome_iff_exists.mp
    (show (runSteps nestCall balancedCalls (initializeLogmgr sampleMaps false)).isSome by
      decide +kernel)
  exact (nestSafe_iff_of_run sampleMaps false hrun).mpr (by decide +kernel)

/-- A commit with no open transaction sets both cursors to the null pointer, and the header
offset from 24 to 384; and the begin number 257 uses slot 256. -/
theorem not_nestSafe_empty :
    ((runSteps nestCall [.updateOncommit .obj 4096] (initializeLogmgr sampleMaps false)).map
      fun x => ((x.2.log .obj).currec, (x.2.log .obj).curdatptr, (x.2.log .obj).headeroff)) =
        some (0, 0, 384) ∧
      ((runSteps nestCall (List.replicate 257 (.logRecord .wrd (fun _ => 0) 4096 8))
        (initializeLogmgr sampleMaps false)).map fun x => x.1.getLast?) = some (some 256) := by
  decide +kernel

/-! ## Transactions that are nested -/

/-- The bookkeeping of a log: the cursors are where the offsets say, and the master record, at the
start of the mapping, counts the records below the cursor. -/
structure Books (maps : LogMaps) (s : LogMngr) (k : LogKind) : Prop where
  header : (s.log k).currec = maps.base (.records k) + (s.log k).headeroff
  data : (s.log k).curdatptr = maps.base (.data k) + (s.log k).dataoff
  count : s.reccount (maps.base (.records k)) =
    ((s.log k).currec - (s.log k).recmap) / sizeofRecord

/-- Begins with room, and commits of open transactions. -/
def Lifo (maps : LogMaps) (s : LogMngr) : NestCall → Prop
  | .logRecord k _ _ length => (s.log k).nstdCntr < maxNestedTrans ∧
      (s.log k).currec + sizeofRecord ≤ maps.base (.records k) + transLogsz ∧
      (s.log k).curdatptr + copyLength length.toNat k ≤ maps.base (.data k) + transDataLogsz
  | .updateOncommit k _ => 0 < (s.log k).nstdCntr

instance (maps : LogMaps) (s : LogMngr) (c : NestCall) : Decidable (Lifo maps s c) := by
  refine c.casesOn ?_ ?_ <;> intros <;> dsimp only [Lifo] <;> infer_instance

/-- The commits of word transactions. -/
def NestCall.wordCommits : NestCall → ℕ
  | .updateOncommit .wrd _ => 1
  | _ => 0

/-- A log of nested transactions: one record for each, the stack holding where it starts. -/
structure LifoInv (maps : LogMaps) (k : LogKind) (l : LogGlobals) : Prop where
  recmap : l.recmap = maps.base (.records k) + k.masterRoom
  datmap : l.datmap = maps.base (.data k)
  depth : l.nstdCntr ≤ maxNestedTrans
  currec : l.currec = l.recmap + sizeofRecord * l.nstdCntr
  rechead : ∀ {i}, i < l.nstdCntr → l.rechead i = l.recmap + sizeofRecord * i
  dataoff : l.curdatptr = l.datmap + l.dataoff
  room : l.dataoff ≤ transDataLogsz
  datahead : ∀ {i}, i < l.nstdCntr → l.datmap ≤ l.datahead i ∧ l.datahead i ≤ l.curdatptr
  ordered : ∀ {i j}, i ≤ j → j < l.nstdCntr → l.datahead i ≤ l.datahead j
  header : l.headeroff ≤ sizeofMaster + sizeofRecord * l.nstdCntr
  wordHeader : k = .wrd → l.headeroff = sizeofMaster + sizeofRecord * l.nstdCntr

theorem lifoInv_initLogmngr (maps : LogMaps) (k : LogKind) :
    LifoInv maps k (initLogmngr maps k) where
  recmap := rfl
  datmap := rfl
  depth := Nat.zero_le _
  currec := rfl
  rechead h := absurd h (Nat.not_lt_zero _)
  dataoff := rfl
  room := Nat.zero_le _
  datahead h := absurd h (Nat.not_lt_zero _)
  ordered _ h := absurd h (Nat.not_lt_zero _)
  header := le_rfl
  wordHeader _ := rfl

namespace LifoInv

variable {maps : LogMaps} {k : LogKind} {l : LogGlobals}

/-- The tests before an append do nothing while there is room. -/
theorem ready_eq (h : LifoInv maps k l) {n : ℕ} (hword : k = .wrd → 0 < n)
    (hrec : l.currec + sizeofRecord ≤ maps.base (.records k) + transLogsz)
    (hdat : l.curdatptr + n ≤ maps.base (.data k) + transDataLogsz) :
    l.startTrans.ready k = l.startTrans := by
  cases k with
  | obj => rfl
  | wrd =>
    have hpos := hword rfl
    apply LogGlobals.ready_eq
    · show l.currec < l.recmap + transLogsz
      rw [h.recmap]
      simp only [sizeofRecord] at hrec
      omega
    · show l.curdatptr < l.datmap + transDataLogsz
      rw [h.datmap]
      omega

/-- A begin puts one more record behind the others. -/
theorem begin_trans (h : LifoInv maps k l) {n : ℕ} (hdepth : l.nstdCntr < maxNestedTrans)
    (hdat : l.curdatptr + n ≤ maps.base (.data k) + transDataLogsz) :
    LifoInv maps k (l.startTrans.advance n) := by
  have hroom : l.dataoff + n ≤ transDataLogsz := by
    rw [h.dataoff, h.datmap] at hdat
    omega
  have hbound : transDataLogsz < 2 ^ 32 := by decide
  have hheader := h.header
  simp only [maxNestedTrans] at hdepth
  simp only [sizeofMaster, sizeofRecord] at hheader
  have hcntr : (l.startTrans.advance n).nstdCntr = l.nstdCntr + 1 := by
    show (l.nstdCntr + 1) % 2 ^ 32 = _
    omega
  have hoff : (l.startTrans.advance n).dataoff = l.dataoff + n := by
    show (l.dataoff + n) % 2 ^ 32 = _
    omega
  have hhead : (l.startTrans.advance n).headeroff = l.headeroff + sizeofRecord := by
    show (l.headeroff + sizeofRecord) % 2 ^ 32 = _
    simp only [sizeofRecord]
    omega
  -- the stack: a new slot on top of the old ones
  have hslot : ∀ {i}, i < l.nstdCntr + 1 → i = l.nstdCntr ∨ i < l.nstdCntr := by omega
  constructor
  case recmap => exact h.recmap
  case datmap => exact h.datmap
  case depth =>
    rw [hcntr]
    exact hdepth
  case currec =>
    show l.currec + sizeofRecord = l.recmap + _
    rw [hcntr, h.currec, Nat.mul_succ, Nat.add_assoc]
  case rechead =>
    intro i hi
    rw [hcntr] at hi
    show update l.rechead l.nstdCntr l.currec i = _
    rcases hslot hi with rfl | hlt
    · rw [update_self]
      exact h.currec
    · rw [update_of_ne hlt.ne]
      exact h.rechead hlt
  case dataoff =>
    show l.curdatptr + n = l.datmap + _
    rw [hoff, h.dataoff, Nat.add_assoc]
  case room =>
    rw [hoff]
    exact hroom
  case datahead =>
    intro i hi
    rw [hcntr] at hi
    show l.datmap ≤ update l.datahead l.nstdCntr l.curdatptr i ∧
      update l.datahead l.nstdCntr l.curdatptr i ≤ l.curdatptr + n
    rcases hslot hi with rfl | hlt
    · rw [update_self]
      exact ⟨by rw [h.dataoff]; omega, Nat.le_add_right _ _⟩
    · rw [update_of_ne hlt.ne]
      obtain ⟨hlo, hhi⟩ := h.datahead hlt
      exact ⟨hlo, hhi.trans (Nat.le_add_right _ _)⟩
  case ordered =>
    intro i j hij hj
    rw [hcntr] at hj
    show update l.datahead l.nstdCntr l.curdatptr i ≤
      update l.datahead l.nstdCntr l.curdatptr j
    rcases hslot hj with rfl | hlt
    · rw [update_self]
      rcases hij.eq_or_lt with rfl | hi
      · rw [update_self]
      · rw [update_of_ne hi.ne]
        exact (h.datahead hi).2
    · have hi := hij.trans_lt hlt
      rw [update_of_ne hlt.ne, update_of_ne hi.ne]
      exact h.ordered hij hlt
  case header =>
    rw [hhead, hcntr]
    simp only [sizeofMaster, sizeofRecord]
    omega
  case wordHeader =>
    intro hk
    rw [hhead, hcntr, h.wordHeader hk]
    simp only [sizeofMaster, sizeofRecord]
    omega

/-- A commit takes the last record back. -/
theorem end_trans (h : LifoInv maps k l) (hopen : 0 < l.nstdCntr) {off : ℕ}
    (hoff : off ≤ sizeofMaster + sizeofRecord * (l.nstdCntr - 1))
    (hword : k = .wrd → off = sizeofMaster + sizeofRecord * (l.nstdCntr - 1)) :
    LifoInv maps k (l.endTrans off) := by
  have htop : l.nstdCntr - 1 < l.nstdCntr := by omega
  obtain ⟨hlo, hhi⟩ := h.datahead htop
  have hbound : transDataLogsz < 2 ^ 32 := by decide
  have hroom := h.room
  have hdat := h.dataoff
  have hdataoff : uintSub l.dataoff (reduceOffset l.curdatptr (l.datahead (l.nstdCntr - 1))) =
      l.datahead (l.nstdCntr - 1) - l.datmap := by
    rw [uintSub_reduceOffset hhi (by omega) (by omega)]
    omega
  have hslot : ∀ {i}, i < l.nstdCntr - 1 → i < l.nstdCntr := by omega
  constructor
  case recmap => exact h.recmap
  case datmap => exact h.datmap
  case depth => exact (Nat.sub_le _ _).trans h.depth
  case currec => exact h.rechead htop
  case rechead => exact fun hi => h.rechead (hslot hi)
  case dataoff =>
    show l.datahead (l.nstdCntr - 1) = l.datmap + uintSub _ _
    rw [hdataoff]
    omega
  case room =>
    show uintSub _ _ ≤ _
    rw [hdataoff]
    omega
  case datahead =>
    intro i hi
    exact ⟨(h.datahead (hslot hi)).1, h.ordered hi.le htop⟩
  case ordered => exact fun hij hj => h.ordered hij (hslot hj)
  case header => exact hoff
  case wordHeader => exact hword

/-- The difference that a commit computes is the size of a record. -/
theorem reduceOffset_rechead (h : LifoInv maps k l) (hopen : 0 < l.nstdCntr) :
    reduceOffset l.currec (l.rechead (l.nstdCntr - 1)) = sizeofRecord := by
  rw [h.rechead (by omega), h.currec]
  simp only [sizeofRecord]
  rw [reduceOffset_of_le (by omega) (by omega)]
  omega

theorem endObjTrans (h : LifoInv maps .obj l) (hopen : 0 < l.nstdCntr) :
    LifoInv maps .obj l.endObjTrans := by
  rw [LogGlobals.endObjTrans, h.reduceOffset_rechead hopen]
  refine h.end_trans hopen ?_ (fun hk => by cases hk)
  simp only [sizeofMaster, sizeofRecord]
  omega

theorem endWrdTrans (h : LifoInv maps .wrd l) (hopen : 0 < l.nstdCntr) :
    LifoInv maps .wrd l.endWrdTrans := by
  have hdepth := h.depth
  simp only [maxNestedTrans] at hdepth
  have hoff : uintSub l.headeroff sizeofRecord =
      sizeofMaster + sizeofRecord * (l.nstdCntr - 1) := by
    rw [h.wordHeader rfl]
    simp only [uintSub, sizeofMaster, sizeofRecord]
    omega
  rw [LogGlobals.endWrdTrans, h.reduceOffset_rechead hopen, hoff]
  exact h.end_trans hopen le_rfl fun _ => rfl

/-- The header offset of the object log stays below its cursor. -/
theorem header_lt (h : LifoInv maps .obj l) :
    maps.base (.records .obj) + l.headeroff < l.currec := by
  have hheader := h.header
  rw [h.currec, h.recmap]
  simp only [LogKind.masterRoom, sizeofMaster, sizeofRecord] at hheader ⊢
  omega

end LifoInv

/-- Both logs after nested calls, of which `commits` were commits of word transactions. -/
structure LifoLogs (maps : LogMaps) (commits : ℕ) (s : LogMngr) : Prop where
  logs : ∀ k, LifoInv maps k (s.log k)
  count : s.reccount (maps.base (.records .wrd)) = (commits + (s.log .wrd).nstdCntr) % 2 ^ 32

theorem lifoLogs_initializeLogmgr (maps : LogMaps) (useWal : Bool) :
    LifoLogs maps 0 (initializeLogmgr maps useWal) where
  logs := lifoInv_initLogmngr maps
  count := rfl

namespace LifoLogs

variable {maps : LogMaps} {commits : ℕ} {s s' : LogMngr} (h : LifoLogs maps commits s)
include h

theorem logs_update {k : LogKind} {l : LogGlobals} (hlog : s'.log = update s.log k l)
    (hl : LifoInv maps k l) (k' : LogKind) : LifoInv maps k' (s'.log k') := by
  rw [hlog]
  exact (forall_update_iff s.log _).mpr ⟨hl, fun k' _ => h.logs k'⟩ k'

/-- The count of the word log is the one that a begin of log `k` increments exactly if `k` is
the word log. -/
theorem masterRecord_eq_iff (k : LogKind) :
    (s.log k).recmap - sizeofMaster = maps.base (.records .wrd) ↔ k = .wrd := by
  rw [(h.logs k).recmap]
  cases k with
  | wrd => simp [LogKind.masterRoom]
  | obj =>
    have hapart := maps.apart (a := .records .obj) (b := .records .wrd) (by decide)
    simp only [LogArea.size, transLogsz] at hapart
    simp only [LogKind.masterRoom, sizeofMaster, sizeofRecord]
    constructor
    · intro heq
      omega
    · intro heq
      cases heq

/-- One call. -/
theorem step {call : NestCall} (hlifo : Lifo maps s call) {idx : ℕ}
    (hcall : nestCall s call = some (idx, s')) : LifoLogs maps (commits + call.wordCommits) s' := by
  rcases nestCall_cases hcall with ⟨k, mem, dateptr, length, rfl, -, hlog, hcount⟩ |
    ⟨dateptr, rfl, -, hlog, hcount⟩ | ⟨dateptr, rfl, -, hlog, hcount⟩
  · obtain ⟨hdepth, hrec, hdat⟩ := hlifo
    have hword : k = .wrd → 0 < copyLength length.toNat k := by
      rintro rfl
      exact (by decide : 0 < cacheLineSize)
    rw [(h.logs k).ready_eq hword hrec hdat] at hlog
    refine ⟨h.logs_update hlog ((h.logs k).begin_trans hdepth hdat), ?_⟩
    have hcntr : ((s.log k).nstdCntr + 1) % 2 ^ 32 = (s.log k).nstdCntr + 1 := by
      simp only [maxNestedTrans] at hdepth
      omega
    rw [hcount, LogMngr.incrRecCount, hlog]
    cases k with
    | wrd =>
      rw [(h.masterRecord_eq_iff .wrd).mpr rfl, update_self, update_self, h.count]
      show _ = (commits + 0 + ((s.log .wrd).nstdCntr + 1) % 2 ^ 32) % 2 ^ 32
      rw [hcntr]
      omega
    | obj =>
      have hne : maps.base (.records .wrd) ≠ (s.log .obj).recmap - sizeofMaster := by
        intro heq
        cases (h.masterRecord_eq_iff .obj).mp heq.symm
      rw [update_of_ne hne, update_of_ne (by decide)]
      exact h.count
  · refine ⟨h.logs_update hlog ((h.logs .obj).endObjTrans hlifo), ?_⟩
    rw [hcount, hlog, update_of_ne (by decide)]
    exact h.count
  · refine ⟨h.logs_update hlog ((h.logs .wrd).endWrdTrans hlifo), ?_⟩
    have hopen : 0 < (s.log .wrd).nstdCntr := hlifo
    rw [hcount, h.count, hlog, update_self]
    show _ = (commits + 1 + ((s.log .wrd).nstdCntr - 1)) % 2 ^ 32
    congr 1
    omega

/-- A run of nested calls. -/
theorem run {calls : List NestCall} (hlifo : Along nestCall (Lifo maps) calls s) {idxs : List ℕ}
    (hrun : runSteps nestCall calls s = some (idxs, s')) :
    LifoLogs maps (commits + (calls.map NestCall.wordCommits).sum) s' := by
  induction calls generalizing s commits idxs with
  | nil =>
    cases hrun
    exact h
  | cons call calls ih =>
    obtain ⟨idx, s₁, idxs', hcall, hrest, -⟩ := runSteps_cons_eq_some.mp hrun
    rw [List.map_cons, List.sum_cons, ← Nat.add_assoc]
    exact ih (h.step hlifo.1 hcall) (hlifo.2 idx s₁ hcall) hrest

/-- The word log's books are in order as long as no word transaction has committed; the count
comes round after `2 ^ 32` of them. -/
theorem books_wrd_iff : Books maps s .wrd ↔ 2 ^ 32 ∣ commits := by
  have hinv := h.logs .wrd
  have hdepth := hinv.depth
  simp only [maxNestedTrans] at hdepth
  have hbelow : ((s.log .wrd).currec - (s.log .wrd).recmap) / sizeofRecord =
      (s.log .wrd).nstdCntr := by
    rw [hinv.currec, Nat.add_sub_cancel_left]
    exact Nat.mul_div_cancel_left _ (by decide)
  have hcount : (commits + (s.log .wrd).nstdCntr) % 2 ^ 32 = (s.log .wrd).nstdCntr ↔
      2 ^ 32 ∣ commits := by omega
  constructor
  · intro hbooks
    have heq := hbooks.count
    rw [h.count, hbelow] at heq
    exact hcount.mp heq
  · intro hdvd
    refine ⟨?_, ?_, ?_⟩
    · rw [hinv.currec, hinv.recmap, hinv.wordHeader rfl]
      simp only [LogKind.masterRoom]
      omega
    · rw [hinv.dataoff, hinv.datmap]
    · rw [h.count, hbelow]
      exact hcount.mpr hdvd

end LifoLogs

/-- **In no state of nested transactions are the books of the object log in order**, since the
header offset is less than the distance of the cursor from the start of the mapping.  Those of
the word log are in order only while no word transaction has committed. -/
theorem not_books_of_run (maps : LogMaps) (useWal : Bool) {calls : List NestCall}
    (hlifo : Along nestCall (Lifo maps) calls (initializeLogmgr maps useWal)) {idxs : List ℕ}
    {s : LogMngr}
    (hrun : runSteps nestCall calls (initializeLogmgr maps useWal) = some (idxs, s)) :
    ¬ Books maps s .obj ∧
      (Books maps s .wrd ↔ 2 ^ 32 ∣ (calls.map NestCall.wordCommits).sum) := by
  have hlogs := (lifoLogs_initializeLogmgr maps useWal).run hlifo hrun
  refine ⟨?_, ?_⟩
  · intro hbooks
    exact absurd hbooks.header (hlogs.logs .obj).header_lt.ne'
  · rw [hlogs.books_wrd_iff, Nat.zero_add]

theorem lifo_balancedCalls :
    Along nestCall (Lifo sampleMaps) balancedCalls (initializeLogmgr sampleMaps false) := by
  decide +kernel

/-- After the balanced calls. -/
theorem not_books_balancedCalls : ∃ idxs s,
    runSteps nestCall balancedCalls (initializeLogmgr sampleMaps false) = some (idxs, s) ∧
      ¬ Books sampleMaps s .obj ∧ ¬ Books sampleMaps s .wrd := by
  obtain ⟨⟨idxs, s⟩, hrun⟩ := Option.isSome_iff_exists.mp
    (show (runSteps nestCall balancedCalls (initializeLogmgr sampleMaps false)).isSome by
      decide +kernel)
  have hbooks := not_books_of_run sampleMaps false lifo_balancedCalls hrun
  refine ⟨idxs, s, hrun, hbooks.1, ?_⟩
  rw [hbooks.2]
  decide

/-- The record cursor of the object log, its header offset and the count in its master record
after initialisation, after a begin and after its commit. -/
theorem books_off_step :
    ([[], [.logRecord .obj (fun _ => 0) 4096 16],
      [.logRecord .obj (fun _ => 0) 4096 16, .updateOncommit .obj 4096]].map fun calls =>
      (runSteps nestCall calls (initializeLogmgr sampleMaps false)).map fun x =>
        ((x.2.log .obj).currec - sampleMaps.base (.records .obj), (x.2.log .obj).headeroff,
          x.2.reccount (sampleMaps.base (.records .obj)))) =
      [some (384, 24, 0), some (400, 40, 0), some (384, 16, 0)] := by
  decide +kernel
