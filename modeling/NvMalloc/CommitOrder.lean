/-
# The order of the steps of a commit

A transaction of the undo build is protected as long as its record is in the log: a
crash before all modified cache lines have been flushed must still find it.
`nv_commit_word` flushes the line of the word and then cuts the record off.
`nv_commit_obj` cuts it off first and flushes afterwards.

The steps of one transaction are taken one by one, so that a crash can fall between any
two of them.
-/
import NvMalloc.UndoLog

/-- The cache line of an address. -/
def lineOf (addr : ℕ) : ℕ := addr / cacheLineSize

/-- The lines that hold the `n` bytes from `addr` on. -/
def linesOf (addr n : ℕ) : Finset ℕ := (Finset.range n).image fun i => lineOf (addr + i)

/-- The logs, and the modified lines that have not been flushed. -/
structure CommitState where
  logs : Logs
  dirty : Finset ℕ := ∅

/-- The steps of a transaction. -/
inductive CommitStep
  | logRecord (k : LogKind) (ptr length : ℕ)
  | write (addr : ℕ) (bs : List UInt8)
  | updateOncommit (k : LogKind) (ptr : ℕ)
  | clflush (addr : ℕ)

/-- One step. -/
def commitStep (s : CommitState) : CommitStep → Option (Unit × CommitState)
  | .logRecord k ptr length => (logRecord s.logs ptr length k).map fun l =>
    ((), { s with logs := l })
  | .write addr bs => some ((), ⟨{ s.logs with mem := blit s.logs.mem addr bs },
    s.dirty ∪ linesOf addr bs.length⟩)
  | .updateOncommit k ptr => (updateOncommit s.logs ptr k).map fun l => ((), { s with logs := l })
  | .clflush addr => some ((), { s with dirty := s.dirty.erase (lineOf addr) })

/-- `flush_cache`: one `clflush` for every 64 bytes. -/
def flushCache (ptr size : ℕ) : List CommitStep :=
  (List.range ((size + cacheLineSize - 1) / cacheLineSize)).map fun i =>
    .clflush (ptr + cacheLineSize * i)

/-- The stores of the application, as address and bytes. -/
abbrev Stores := List (ℕ × List UInt8)

/-- The stores as steps. -/
def Stores.steps (ws : Stores) : List CommitStep := ws.map fun w => .write w.1 w.2

/-- `nv_begintrans_wrd`, the stores and `nv_commit_word`. -/
def wordTransaction (ptr size : ℕ) (ws : Stores) : List CommitStep :=
  .logRecord .wrd ptr size :: (ws.steps ++ flushCache ptr cacheLineSize) ++
    [.updateOncommit .wrd ptr]

/-- `nv_begintrans_obj`, the stores and `nv_commit_obj`.  The commit looks up the object
again and flushes the `len` bytes at `dest` that it finds. -/
def objTransaction (ptr length : ℕ) (ws : Stores) (dest len : ℕ) : List CommitStep :=
  .logRecord .obj ptr length :: ws.steps ++ .updateOncommit .obj ptr :: flushCache dest len

/-- The transaction of the given log. -/
def transaction (ptr length : ℕ) (ws : Stores) (dest len : ℕ) : LogKind → List CommitStep
  | .obj => objTransaction ptr length ws dest len
  | .wrd => wordTransaction ptr length ws

/-- The record cursor of a log. -/
def recCursor (s : Logs) : LogKind → ℕ
  | .obj => s.obj.currec
  | .wrd => s.wrd.currec

/-- After every prefix of the steps that leaves a modified line unflushed, the record
that was written at the begin lies below the cursor. -/
def KeepsRecord (s : Logs) (k : LogKind) (steps : List CommitStep) : Prop :=
  ∀ pre, pre <+: steps → ∀ {rs s'}, runSteps commitStep pre ⟨s, ∅⟩ = some (rs, s') →
    s'.dirty ≠ ∅ → recCursor s k < recCursor s'.logs k

/-- What the commit of a log lets the application write: objects nothing, words the line
of the pointer. -/
def FlushedInTime (ptr : ℕ) (ws : Stores) : LogKind → Prop
  | .obj => ∀ w ∈ ws, w.2 = []
  | .wrd => ∀ w ∈ ws, linesOf w.1 w.2.length ⊆ {lineOf ptr}

/-! ## Stores and flushes -/

/-- The log areas and cursors are the same. -/
def SameLogs (s s' : Logs) : Prop := s'.obj = s.obj ∧ s'.wrd = s.wrd

theorem SameLogs.trans {s s' s'' : Logs} (h : SameLogs s s') (h' : SameLogs s' s'') :
    SameLogs s s'' :=
  ⟨h'.1.trans h.1, h'.2.trans h.2⟩

theorem SameLogs.recCursor_eq {s s' : Logs} (h : SameLogs s s') (k : LogKind) :
    recCursor s' k = recCursor s k := by
  cases k with
  | obj => exact congrArg TransLog.currec h.1
  | wrd => exact congrArg TransLog.currec h.2

/-- Steps that leave the logs alone. -/
def CommitStep.Quiet : CommitStep → Prop
  | .write _ _ => True
  | .clflush _ => True
  | _ => False

theorem quiet_steps (ws : Stores) : ∀ c ∈ ws.steps, c.Quiet := by
  intro c hc
  obtain ⟨w, -, rfl⟩ := List.mem_map.mp hc
  exact trivial

theorem quiet_flushCache (ptr size : ℕ) : ∀ c ∈ flushCache ptr size, c.Quiet := by
  intro c hc
  obtain ⟨i, -, rfl⟩ := List.mem_map.mp hc
  exact trivial

section Quiet

variable {s s' : CommitState} {steps : List CommitStep} {rs : List Unit}

theorem run_quiet (hq : ∀ c ∈ steps, c.Quiet) (s : CommitState) :
    ∃ rs s', runSteps commitStep steps s = some (rs, s') ∧ SameLogs s.logs s'.logs := by
  induction steps generalizing s with
  | nil => exact ⟨[], s, rfl, rfl, rfl⟩
  | cons c steps ih =>
    have hstep : ∃ s₁, commitStep s c = some ((), s₁) ∧ SameLogs s.logs s₁.logs := by
      cases c with
      | write addr bs => exact ⟨_, rfl, rfl, rfl⟩
      | clflush addr => exact ⟨_, rfl, rfl, rfl⟩
      | logRecord k ptr length => exact absurd (hq _ List.mem_cons_self) id
      | updateOncommit k ptr => exact absurd (hq _ List.mem_cons_self) id
    obtain ⟨s₁, hc, hsame⟩ := hstep
    obtain ⟨rs, s', hrun, hsame'⟩ := ih (fun c hc => hq c (List.mem_cons_of_mem _ hc)) s₁
    exact ⟨_, s', by rw [runSteps_cons hc, hrun]; rfl, hsame.trans hsame'⟩

theorem sameLogs_of_quiet (hq : ∀ c ∈ steps, c.Quiet)
    (hrun : runSteps commitStep steps s = some (rs, s')) : SameLogs s.logs s'.logs := by
  obtain ⟨rs₁, s₁, hrun₁, hsame⟩ := run_quiet hq s
  rw [hrun₁] at hrun
  cases hrun
  exact hsame

/-- The modified lines after the stores. -/
theorem mem_dirty_steps {ws : Stores} (hrun : runSteps commitStep ws.steps s = some (rs, s'))
    {x : ℕ} :
    x ∈ s'.dirty ↔ x ∈ s.dirty ∨ ∃ w ∈ ws, x ∈ linesOf w.1 w.2.length := by
  induction ws generalizing s rs with
  | nil =>
    cases hrun
    simp
  | cons w ws ih =>
    obtain ⟨r, s₁, rs', hw, hrest, -⟩ := runSteps_cons_eq_some.mp hrun
    cases hw
    rw [ih hrest]
    simp only [Finset.mem_union, List.exists_mem_cons_iff, or_assoc]

/-- The modified lines after flushes. -/
theorem mem_dirty_clflush {addrs : List ℕ}
    (hrun : runSteps commitStep (addrs.map .clflush) s = some (rs, s')) {x : ℕ} :
    x ∈ s'.dirty ↔ x ∈ s.dirty ∧ x ∉ addrs.map lineOf := by
  induction addrs generalizing s rs with
  | nil =>
    cases hrun
    simp
  | cons a addrs ih =>
    obtain ⟨r, s₁, rs', ha, hrest, -⟩ := runSteps_cons_eq_some.mp hrun
    cases ha
    rw [ih hrest]
    simp only [Finset.mem_erase, List.map_cons, List.mem_cons, not_or]
    tauto

/-- A word's commit flushes one line. -/
theorem flushCache_line (ptr : ℕ) : flushCache ptr cacheLineSize = [ptr].map .clflush := by
  simp [flushCache, cacheLineSize]

/-- Steps that modify no line. -/
def CommitStep.Clean : CommitStep → Prop
  | .write _ bs => bs = []
  | _ => True

theorem dirty_eq_empty (hc : ∀ c ∈ steps, c.Clean) (hs : s.dirty = ∅)
    (hrun : runSteps commitStep steps s = some (rs, s')) :
    s'.dirty = ∅ := by
  induction steps generalizing s rs with
  | nil =>
    cases hrun
    exact hs
  | cons c steps ih =>
    obtain ⟨r, s₁, rs', hstep, hrest, -⟩ := runSteps_cons_eq_some.mp hrun
    refine ih (fun c' hc' => hc c' (List.mem_cons_of_mem _ hc')) ?_ hrest
    have hclean := hc c List.mem_cons_self
    cases c with
    | write addr bs =>
      cases hstep
      obtain rfl : bs = [] := hclean
      simp [hs, linesOf]
    | clflush addr =>
      cases hstep
      simp [hs]
    | logRecord k ptr length =>
      obtain ⟨l, -, heq⟩ := Option.map_eq_some_iff.mp hstep
      cases heq
      exact hs
    | updateOncommit k ptr =>
      obtain ⟨l, -, heq⟩ := Option.map_eq_some_iff.mp hstep
      cases heq
      exact hs

end Quiet

/-! ## Begin and commit -/

/-- What a begin does to the cursor of its log, and what the next commit does. -/
theorem TransLog.appendRecord_cursor {ρ : Type} {mk : ℕ → ℕ → ρ} {l l₁ l₂ : TransLog ρ}
    {shift : ℕ} {bs : List UInt8} (hstart : l.startTrans = some l₁)
    (happ : l₁.appendRecord mk shift bs = some l₂) :
    l.currec < l₂.currec ∧ ∀ f, ∃ l₃, l₂.endTrans f = some l₃ ∧ l₃.currec = l.currec := by
  simp only [TransLog.startTrans] at hstart
  split at hstart
  case isFalse => cases hstart
  case isTrue =>
  cases hstart
  simp only [TransLog.appendRecord] at happ
  split at happ
  case isFalse => cases happ
  case isTrue =>
  cases happ
  refine ⟨Nat.lt_add_of_pos_right (by decide), fun f => ?_⟩
  simp [TransLog.endTrans]

section Commit

variable {s s₁ : Logs} {h : History} {marks : LogKind → List ℕ} {ptr length : ℕ} {k : LogKind}

/-- The record lies at the old cursor, and the commit takes the cursor back there. -/
theorem Agrees.logRecord_cursor (ha : Agrees s h marks)
    (hlog : logRecord s ptr length k = some s₁) :
    recCursor s k < recCursor s₁ k ∧
      ∀ {s₂}, SameLogs s₁ s₂ → ∃ s₃, updateOncommit s₂ ptr k = some s₃ ∧
        recCursor s₃ k = recCursor s k := by
  cases k with
  | obj =>
    obtain ⟨l, hstart, hmap⟩ := Option.bind_eq_some_iff.mp hlog
    obtain ⟨l', hadd, rfl⟩ := Option.map_eq_some_iff.mp hmap
    rw [addObjRecord] at hadd
    split at hadd
    case isTrue => cases hadd
    case isFalse =>
    have hcur := TransLog.appendRecord_cursor hstart hadd
    refine ⟨hcur.1, ?_⟩
    rintro s₂ ⟨hobj, -⟩
    obtain ⟨l₃, hend, hrec⟩ := hcur.2 id
    refine ⟨{ s₂ with obj := l₃ }, ?_, hrec⟩
    simp only [updateOncommit, endObjTrans, hobj, hend, Option.map_some]
  | wrd =>
    obtain ⟨l, hstart, hmap⟩ := Option.bind_eq_some_iff.mp hlog
    obtain ⟨l', hadd, rfl⟩ := Option.map_eq_some_iff.mp hmap
    rw [ha.addWordRecord_eq hstart] at hadd
    split at hadd
    case isTrue => cases hadd
    case isFalse =>
    have hcur := TransLog.appendRecord_cursor hstart hadd
    refine ⟨hcur.1, ?_⟩
    rintro s₂ ⟨-, hwrd⟩
    obtain ⟨l₃, hend, hrec⟩ := hcur.2 (uintSub l'.headeroff)
    refine ⟨{ s₂ with wrd := l₃ }, ?_, hrec⟩
    simp only [updateOncommit, endWrdTrans, hwrd, hend, Option.map_some]

/-- A word's record is in the log until its line has been flushed. -/
theorem Agrees.keepsRecord_wrd (ha : Agrees s h marks)
    (hlog : logRecord s ptr length .wrd = some s₁) (ws : Stores) :
    KeepsRecord s .wrd (wordTransaction ptr length ws) ↔ FlushedInTime ptr ws .wrd := by
  obtain ⟨hlt, hback⟩ := ha.logRecord_cursor hlog
  have hbegin : commitStep ⟨s, ∅⟩ (.logRecord .wrd ptr length) = some ((), ⟨s₁, ∅⟩) := by
    rw [commitStep, hlog]
    rfl
  have hquiet : ∀ c ∈ ws.steps ++ flushCache ptr cacheLineSize, c.Quiet := by
    intro c hc
    rcases List.mem_append.mp hc with hc | hc
    · exact quiet_steps ws c hc
    · exact quiet_flushCache _ _ c hc
  -- the lines that are still dirty when the record is cut off
  have hdirty : ∀ {rs s₂}, runSteps commitStep (ws.steps ++ flushCache ptr cacheLineSize) ⟨s₁, ∅⟩ =
      some (rs, s₂) → (s₂.dirty = ∅ ↔ FlushedInTime ptr ws .wrd) := by
    intro rs s₂ hrun
    obtain ⟨rs₁, s', rs₂, hws, hfl, -⟩ := runSteps_append_eq_some.mp hrun
    rw [flushCache_line] at hfl
    rw [Finset.eq_empty_iff_forall_notMem]
    simp only [mem_dirty_clflush hfl, mem_dirty_steps hws, FlushedInTime, Finset.subset_iff,
      Finset.mem_singleton, List.map_cons, List.map_nil, List.mem_singleton, Finset.notMem_empty,
      false_or, not_and, not_not]
    constructor
    · intro hall w hw x hx
      exact hall x ⟨w, hw, hx⟩
    · rintro hall x ⟨w, hw, hx⟩
      exact hall w hw hx
  constructor
  · intro hkeeps
    obtain ⟨rs, s₂, hrun, hsame⟩ := run_quiet hquiet ⟨s₁, ∅⟩
    obtain ⟨s₃, hend, hcur⟩ := hback hsame
    have hfull : runSteps commitStep (wordTransaction ptr length ws) ⟨s, ∅⟩ =
        some (() :: (rs ++ [()]), ⟨s₃, s₂.dirty⟩) := by
      refine runSteps_cons_eq_some.mpr ⟨_, _, _, hbegin, ?_, rfl⟩
      refine runSteps_append_eq_some.mpr ⟨_, _, _, hrun, ?_, rfl⟩
      rw [runSteps, commitStep, hend]
      rfl
    refine (hdirty hrun).mp (not_not.mp fun hne => ?_)
    have hcontra := hkeeps _ List.prefix_rfl hfull hne
    exact absurd hcontra (by rw [hcur]; exact lt_irrefl _)
  · intro hfl pre hpre rs s' hrun hne
    rcases List.prefix_cons_iff.mp hpre with rfl | ⟨q, rfl, hq⟩
    · cases hrun
      exact absurd rfl hne
    · obtain ⟨r, s₂, rs', hb, hrest, -⟩ := runSteps_cons_eq_some.mp hrun
      rw [hbegin] at hb
      cases hb
      rcases List.prefix_concat_iff.mp hq with rfl | hq
      · obtain ⟨rs₁, s₂, rs₂, hrun₂, hend, -⟩ := runSteps_append_eq_some.mp hrest
        have hnone : s₂.dirty = ∅ := (hdirty hrun₂).mpr hfl
        obtain ⟨r', s₃, rs₃, hcommit, hnil, -⟩ := runSteps_cons_eq_some.mp hend
        cases hnil
        obtain ⟨l, -, heq⟩ := Option.map_eq_some_iff.mp hcommit
        cases heq
        exact absurd hnone hne
      · have hsame := sameLogs_of_quiet (fun c hc => hquiet c (hq.subset hc)) hrest
        rw [hsame.recCursor_eq]
        exact hlt

/-- An object's record is cut off before anything is flushed. -/
theorem Agrees.keepsRecord_obj (ha : Agrees s h marks)
    (hlog : logRecord s ptr length .obj = some s₁) (ws : Stores) (dest len : ℕ) :
    KeepsRecord s .obj (objTransaction ptr length ws dest len) ↔ FlushedInTime ptr ws .obj := by
  obtain ⟨-, hback⟩ := ha.logRecord_cursor hlog
  have hbegin : commitStep ⟨s, ∅⟩ (.logRecord .obj ptr length) = some ((), ⟨s₁, ∅⟩) := by
    rw [commitStep, hlog]
    rfl
  constructor
  · intro hkeeps
    obtain ⟨rs, s₂, hrun, hsame⟩ := run_quiet (quiet_steps ws) ⟨s₁, ∅⟩
    obtain ⟨s₃, hend, hcur⟩ := hback hsame
    have hcut : runSteps commitStep (.logRecord .obj ptr length :: ws.steps ++
        [.updateOncommit .obj ptr]) ⟨s, ∅⟩ = some (() :: (rs ++ [()]), ⟨s₃, s₂.dirty⟩) := by
      refine runSteps_cons_eq_some.mpr ⟨_, _, _, hbegin, ?_, rfl⟩
      refine runSteps_append_eq_some.mpr ⟨_, _, _, hrun, ?_, rfl⟩
      rw [runSteps, commitStep, hend]
      rfl
    have hpre : .logRecord .obj ptr length :: ws.steps ++ [.updateOncommit .obj ptr] <+:
        objTransaction ptr length ws dest len := ⟨flushCache dest len, by simp [objTransaction]⟩
    have hnone : s₂.dirty = ∅ := by
      refine not_not.mp fun hne => ?_
      have hcontra := hkeeps _ hpre hcut hne
      exact absurd hcontra (by rw [hcur]; exact lt_irrefl _)
    intro w hw
    refine List.eq_nil_iff_length_eq_zero.mpr (Nat.eq_zero_of_not_pos fun hpos => ?_)
    have hmem : lineOf (w.1 + 0) ∈ s₂.dirty := by
      refine (mem_dirty_steps hrun).mpr (Or.inr ⟨w, hw, ?_⟩)
      exact Finset.mem_image_of_mem _ (Finset.mem_range.mpr hpos)
    rw [hnone] at hmem
    exact absurd hmem (Finset.notMem_empty _)
  · intro hfl pre hpre rs s' hrun hne
    refine absurd (dirty_eq_empty ?_ rfl hrun) hne
    intro c hc
    have hc := hpre.subset hc
    simp only [objTransaction, Stores.steps, List.cons_append, List.mem_cons, List.mem_append,
      List.mem_map, flushCache] at hc
    rcases hc with rfl | ⟨w, hw, rfl⟩ | rfl | ⟨i, -, rfl⟩
    · trivial
    · exact hfl w hw
    · trivial
    · trivial

end Commit

/-- **The order of flush and truncation.**  In every state that in-order transactions
lead to, the record of a transaction outlives its unflushed lines exactly when it is a
word transaction whose stores stay on the line of the pointer, or an object transaction
that stores nothing. -/
theorem keepsRecord_iff (m : ℕ → UInt8) (ops : List TransOp)
    (hops : Throughout InOrder { mem := m } ops) {rs : List Unit} {s : Logs}
    (hrun : runSteps transStep ops { mem := m } = some (rs, s)) (k : LogKind) (ptr length : ℕ)
    (hbegin : (logRecord s ptr length k).isSome = true) (ws : Stores) (dest len : ℕ) :
    KeepsRecord s k (transaction ptr length ws dest len k) ↔ FlushedInTime ptr ws k := by
  have ha := (Agrees.initial m).run hops hrun
  obtain ⟨s₁, hlog⟩ := Option.isSome_iff_exists.mp hbegin
  cases k with
  | obj => exact ha.keepsRecord_obj hlog ws dest len
  | wrd => exact ha.keepsRecord_wrd hlog ws

theorem keepsRecord_wordStore :
    KeepsRecord { mem := tellingMemory } .wrd (transaction 128 8 [(128, [7])] 0 0 .wrd) := by
  refine (keepsRecord_iff tellingMemory [] trivial rfl .wrd 128 8 (by decide +kernel)
    [(128, [7])] 0 0).mpr ?_
  intro w hw
  obtain rfl := List.mem_singleton.mp hw
  decide

/-- An object is modified, and the crash falls between the two steps of its commit. -/
theorem not_keepsRecord_objStore :
    ¬ KeepsRecord { mem := tellingMemory } .obj (transaction 64 8 [(64, [7])] 64 8 .obj) := by
  intro hkeeps
  have hcut : (runSteps commitStep [.logRecord .obj 64 8, .write 64 [7], .updateOncommit .obj 64]
      ⟨{ mem := tellingMemory }, ∅⟩).map (fun x => (x.2.dirty, recCursor x.2.logs .obj)) =
      some ({1}, 0) := by
    decide +kernel
  obtain ⟨⟨rs, s'⟩, hrun, heq⟩ := Option.map_eq_some_iff.mp hcut
  obtain ⟨hdirty, hcur⟩ := Prod.mk.inj heq
  have hlt := hkeeps _ ⟨flushCache 64 8, rfl⟩ hrun (by rw [hdirty]; decide)
  rw [hcur] at hlt
  exact absurd hlt (Nat.not_lt_zero _)
