/-
# The logs by offset and by address

`UndoLog` and `RedoLog` follow the functions of the log manager with offsets from the start of the
areas, and stop where a write would leave an area; `LogMngr` has the addresses of the code, which
may leave it.  Whatever the former do the latter do too, on the same contents: the logs by offset
stay a view of the logs by address.
-/
import NvMalloc.LogMngr

open Function

section Shift

variable {β : Type} {base : ℕ}

theorem wrap_add (n x : ℕ) :
    (if base + n ≤ base + x then base else base + x) = base + wrap n x := by
  unfold wrap
  split <;> split <;> omega

theorem update_add {f f' : ℕ → β} (h : ∀ off, f (base + off) = f' off) (a : ℕ) (b : β) (off : ℕ) :
    update f (base + a) b (base + off) = update f' a b off := by
  by_cases hoff : off = a
  · rw [hoff, update_self, update_self]
  · rw [update_of_ne (by omega), update_of_ne hoff, h]

/-- A block stored at an address is stored at the offset. -/
theorem blit_add {f f' : ℕ → UInt8} (h : ∀ off, f (base + off) = f' off) (a : ℕ) (bs : List UInt8)
    (off : ℕ) : blit f (base + a) bs (base + off) = blit f' a bs off := by
  induction bs generalizing f f' a with
  | nil => exact h off
  | cons b bs ih => exact ih (update_add h a b) (a + 1)

/-- Differences of addresses are those of the offsets. -/
theorem reduceOffset_add (a b : ℕ) : reduceOffset (base + a) (base + b) = reduceOffset a b := by
  simp only [reduceOffset, gt_iff_lt, Nat.add_lt_add_iff_left, Nat.add_sub_add_left]

/-- A position on top of a stack. -/
theorem push_add {stack : ℕ → Option ℕ} {stack' : ℕ → ℕ}
    (h : ∀ {i x}, stack i = some x → stack' i = base + x) {top cur i x : ℕ}
    (hx : update stack top (some cur) i = some x) :
    update stack' top (base + cur) i = base + x := by
  by_cases hi : i = top
  · rw [hi, update_self] at hx ⊢
    rw [Option.some.inj hx]
  · rw [update_of_ne hi] at hx ⊢
    exact h hx

end Shift

/-! ## The undo logs -/

/-- `l` is the log with the globals `g`, the records `recs` and the bytes `data`, by address. -/
structure LogView {ρ : Type} (g : LogGlobals) (recs : ℕ → ρ) (data : ℕ → UInt8) (l : TransLog ρ) :
    Prop where
  recmap_pos : 0 < g.recmap
  datmap_pos : 0 < g.datmap
  currec : g.currec = g.recmap + l.currec
  curdatptr : g.curdatptr = g.datmap + l.curdatptr
  dataoff : g.dataoff = l.dataoff
  headeroff : g.headeroff = l.headeroff
  nstdCntr : g.nstdCntr = l.nstdCntr
  rechead : ∀ {i r}, l.rechead i = some r → g.rechead i = g.recmap + r
  datahead : ∀ {i d}, l.datahead i = some d → g.datahead i = g.datmap + d
  record : ∀ off, recs (g.recmap + off) = l.recmap off
  byte : ∀ off, data (g.datmap + off) = l.datmap off

/-- The tests at the start of `add_word_record`. -/
def TransLog.wrapped {ρ : Type} (l : TransLog ρ) : TransLog ρ :=
  let l := if transLogsz ≤ l.currec then { l with currec := 0, headeroff := 0 } else l
  if transDataLogsz ≤ l.curdatptr then { l with curdatptr := 0, dataoff := 0 } else l

namespace LogView

variable {ρ : Type} {g : LogGlobals} {recs : ℕ → ρ} {data : ℕ → UInt8} {l l' : TransLog ρ}

/-- `init_obj_logmngr` and `init_wrd_logmngr`. -/
theorem init (maps : LogMaps) (k : LogKind) (r : ρ) :
    LogView (initLogmngr maps k) (fun _ => r) (fun _ => 0) { recmap := fun _ => r } :=
  ⟨Nat.add_pos_left (maps.pos _) _, maps.pos _, rfl, rfl, rfl, rfl, rfl, nofun, nofun, fun _ => rfl,
    fun _ => rfl⟩

variable (h : LogView g recs data l)
include h

/-- `start_obj_trans` and `start_wrd_trans`. -/
theorem startTrans (hs : l.startTrans = some l') : LogView g.startTrans recs data l' := by
  unfold TransLog.startTrans at hs
  split at hs
  · next hlt =>
    cases hs
    have hdepth : l.nstdCntr < 256 := hlt
    refine ⟨h.recmap_pos, h.datmap_pos, h.currec, h.curdatptr, h.dataoff, h.headeroff, ?_, ?_, ?_,
      h.record, h.byte⟩
    · show (g.nstdCntr + 1) % 2 ^ 32 = l.nstdCntr + 1
      rw [h.nstdCntr]
      omega
    · intro i r hr
      show update g.rechead g.nstdCntr g.currec i = _
      rw [h.nstdCntr, h.currec]
      exact push_add h.rechead hr
    · intro i d hd
      show update g.datahead g.nstdCntr g.curdatptr i = _
      rw [h.nstdCntr, h.curdatptr]
      exact push_add h.datahead hd
  · cases hs

/-- What `end_obj_trans` and `end_wrd_trans` share. -/
theorem endTrans {f : ℕ → ℕ} (he : l.endTrans f = some l') :
    LogView (g.endTrans (f (reduceOffset g.currec (g.rechead (g.nstdCntr - 1))))) recs data l' := by
  obtain ⟨r, hr, hrest⟩ := Option.bind_eq_some_iff.mp he
  obtain ⟨d, hd, rfl⟩ := Option.map_eq_some_iff.mp hrest
  have hrec := h.rechead hr
  have hdat := h.datahead hd
  refine ⟨h.recmap_pos, h.datmap_pos, ?_, ?_, ?_, ?_, ?_, h.rechead, h.datahead, h.record,
    h.byte⟩ <;> simp only [LogGlobals.endTrans, h.nstdCntr, hrec, hdat, h.currec, h.curdatptr,
      h.dataoff, reduceOffset_add]

/-- The bytes and the record of an append. -/
theorem append {mk : ℕ → ℕ → ρ} {shift : ℕ} {bs : List UInt8}
    (ha : l.appendRecord mk shift bs = some l') :
    bs.length < 2 ^ 32 ∧ LogView (g.advance bs.length)
      (update recs g.currec (mk bs.length g.dataoff)) (blit data g.curdatptr bs) l' := by
  unfold TransLog.appendRecord at ha
  split at ha
  · next hfit =>
    cases ha
    have hle := hfit.2
    unfold transDataLogsz at hle
    rw [h.currec, h.curdatptr, h.dataoff]
    refine ⟨by omega, h.recmap_pos, h.datmap_pos, ?_, ?_, ?_, ?_, h.nstdCntr, h.rechead, h.datahead,
      update_add h.record _ _, blit_add h.byte _ _⟩ <;>
      simp only [LogGlobals.advance, h.currec, h.curdatptr, h.dataoff, h.headeroff, Nat.add_assoc]
  · cases ha

theorem wrapped : LogView g.wrapped recs data l.wrapped := by
  have hrec : g.recmap + transLogsz ≤ g.currec ↔ transLogsz ≤ l.currec := by
    rw [h.currec, Nat.add_le_add_iff_left]
  have hdat : g.datmap + transDataLogsz ≤ g.curdatptr ↔ transDataLogsz ≤ l.curdatptr := by
    rw [h.curdatptr, Nat.add_le_add_iff_left]
  unfold TransLog.wrapped LogGlobals.wrapped
  by_cases hr : transLogsz ≤ l.currec <;> by_cases hd : transDataLogsz ≤ l.curdatptr <;>
    simp only [hrec, hdat, hr, hd, if_true, if_false] <;>
    exact ⟨h.recmap_pos, h.datmap_pos, by simp [h.currec], by simp [h.curdatptr],
      by simp [h.dataoff], by simp [h.headeroff], h.nstdCntr, h.rechead, h.datahead, h.record,
      h.byte⟩

end LogView

section Append

variable {s : LogMngr} {mem : ℕ → UInt8} {dateptr length : ℕ}

/-- `add_obj_record`. -/
theorem logView_addObjRecord {l l' : TransLog ObjRecord}
    (h : LogView (s.log .obj) s.objrecs (s.data .obj) l)
    (hadd : addObjRecord mem l dateptr length = some l') :
    ∃ ws s', s.addObjRecord mem dateptr (UInt32.ofNat length) = some (ws, s') ∧
      LogView (s'.log .obj) s'.objrecs (s'.data .obj) l' := by
  unfold addObjRecord at hadd
  split at hadd
  · cases hadd
  · next hguard =>
    push Not at hguard
    obtain ⟨hlen, hview⟩ := h.append hadd
    rw [length_slice] at hlen hview
    have hnot : ¬ ((s.log .obj).currec = 0 ∨
        (s.log .obj).recmap + transLogsz ≤ (s.log .obj).currec ∨
        (s.log .obj).datmap + transDataLogsz ≤ (s.log .obj).curdatptr ∨
        dateptr = 0 ∨ (s.log .obj).curdatptr = 0) := by
      have hrec := h.currec
      have hdat := h.curdatptr
      have hrpos := h.recmap_pos
      have hdpos := h.datmap_pos
      omega
    simp only [LogMngr.addObjRecord, if_neg hnot, UInt32.toNat_ofNat', Nat.mod_eq_of_lt hlen]
    exact ⟨_, _, rfl, hview⟩

/-- `add_word_record`. -/
theorem logView_addWordRecord {l l' : TransLog WrdRecord}
    (h : LogView (s.log .wrd) s.wrdrecs (s.data .wrd) l)
    (hadd : addWordRecord mem l dateptr = some l') :
    ∃ ws s', s.addWordRecord mem dateptr = some (ws, s') ∧
      LogView (s'.log .wrd) s'.wrdrecs (s'.data .wrd) l' := by
  replace hadd : (if dateptr = 0 then none else l.wrapped.appendRecord (fun _ off => ⟨off⟩)
    sizeofMaster (slice mem dateptr cacheLineSize)) = some l' := hadd
  split at hadd
  · cases hadd
  · next hptr =>
    have hnot : ¬ ((s.log .wrd).currec = 0 ∨ dateptr = 0 ∨
        (s.log .wrd).wrapped.curdatptr = 0) := by
      have hrec := h.currec
      have hdat := h.wrapped.curdatptr
      have hrpos := h.recmap_pos
      have hdpos := h.wrapped.datmap_pos
      omega
    simp only [LogMngr.addWordRecord, if_neg hnot]
    exact ⟨_, _, rfl, (h.wrapped.append hadd).2⟩

end Append

/-! ## The redo log -/

/-- The address of a word. -/
def WordPtr.addr (a : WordPtr) : ℕ := sizeofNvword * a.word

/-- `l` is the word log of `s` by offset, with the logged words for their bytes. -/
structure RedoView (s : LogMngr) (l : WordLog) : Prop where
  recmap_pos : 0 < (s.log .wrd).recmap
  datmap_pos : 0 < (s.log .wrd).datmap
  currec : (s.log .wrd).currec = (s.log .wrd).recmap + l.currwrdrec
  curdatptr : (s.log .wrd).curdatptr = (s.log .wrd).datmap + l.curdatwrdptr
  dataoff : (s.log .wrd).dataoff = l.wrddataoff
  headeroff : (s.log .wrd).headeroff = l.wrdheaderoff
  entry : ∀ a, s.wrdloghash a.addr = (l.wrdloghash a).map ((s.log .wrd).recmap + ·)
  record : ∀ off, s.wrdrecs ((s.log .wrd).recmap + off) = ⟨l.wrdrecmap off⟩
  word : ∀ i, slice (s.data .wrd) ((s.log .wrd).datmap + sizeofNvword * i) sizeofNvword =
    toLE sizeofNvword (l.wrddatmap (sizeofNvword * i)).toNat
  aligned : sizeofNvword ∣ l.curdatwrdptr ∧ sizeofNvword ∣ l.wrddataoff ∧
    ∀ off, sizeofNvword ∣ l.wrdrecmap off

theorem WordPtr.addr_inj {a b : WordPtr} : a.addr = b.addr ↔ a = b := by
  cases a
  cases b
  simp [WordPtr.addr, sizeofNvword]

/-- `initialize_logmgr`. -/
theorem redoView_initializeLogmgr (maps : LogMaps) (useWal : Bool) (mem : WordPtr → Word) :
    RedoView (initializeLogmgr maps useWal) { mem := mem } := by
  have hzero : (List.range sizeofNvword).map (fun _ => (0 : UInt8)) =
      toLE sizeofNvword (0 : Word).toNat := by decide
  exact ⟨Nat.add_pos_left (maps.pos _) _, maps.pos _, rfl, rfl, rfl, rfl, fun _ => rfl,
    fun _ => rfl, fun _ => hzero, dvd_zero _, dvd_zero _, fun _ => dvd_zero _⟩

section Redo

variable {s : LogMngr} {l l' : WordLog} {lay : LogLayout} {a : WordPtr} {v : Word}

section

variable (h : RedoView s l)
include h

/-- `read_log`, when the memory of the application is `mem`. -/
theorem redoView_readLog {mem : ℕ → UInt8}
    (hmem : slice mem a.addr sizeofNvword = toLE sizeofNvword (l.mem a).toNat)
    (hread : readLog lay l a = some v) : s.readLog mem a.addr = toLE sizeofNvword v.toNat := by
  unfold LogMngr.readLog
  rw [h.entry]
  cases hentry : l.wrdloghash a with
  | none =>
    simp only [readLog, hentry, Option.some.injEq] at hread
    rw [Option.map_none, ← hread]
    exact hmem
  | some wordrec =>
    simp only [readLog, hentry] at hread
    split at hread
    · cases hread
      obtain ⟨i, hi⟩ := h.aligned.2.2 wordrec
      simp only [Option.map_some, h.record, hi]
      exact h.word i
    · cases hread

/-- The entry of one address is set. -/
theorem RedoView.entry_update (a : WordPtr) (r : Option ℕ) (b : WordPtr) :
    update s.wrdloghash a.addr (r.map ((s.log .wrd).recmap + ·)) b.addr =
      (update l.wrdloghash a r b).map ((s.log .wrd).recmap + ·) := by
  by_cases hb : b = a
  · rw [hb, update_self, update_self]
  · rw [update_of_ne (mt WordPtr.addr_inj.mp hb), update_of_ne hb, h.entry]

/-- One record is written. -/
theorem RedoView.record_update (r d off : ℕ) :
    update s.wrdrecs ((s.log .wrd).recmap + r) ⟨d⟩ ((s.log .wrd).recmap + off) =
      ⟨update l.wrdrecmap r d off⟩ := by
  rw [update_add h.record r ⟨d⟩ off]
  by_cases hoff : off = r
  · rw [hoff, update_self, update_self]
  · rw [update_of_ne hoff, update_of_ne hoff]

/-- One word is written. -/
theorem RedoView.word_update (j : ℕ) (v : Word) (i : ℕ) :
    slice (blit (s.data .wrd) ((s.log .wrd).datmap + sizeofNvword * j) (toLE sizeofNvword v.toNat))
        ((s.log .wrd).datmap + sizeofNvword * i) sizeofNvword =
      toLE sizeofNvword
        (update l.wrddatmap (sizeofNvword * j) v (sizeofNvword * i)).toNat := by
  by_cases hij : i = j
  · subst hij
    rw [update_self]
    simpa using slice_blit_self (s.data .wrd) _ (toLE sizeofNvword v.toNat)
  · have hne : sizeofNvword * i ≠ sizeofNvword * j := by
      unfold sizeofNvword
      omega
    rw [update_of_ne hne, ← h.word i, slice_blit_of_disjoint]
    rw [length_toLE]
    unfold sizeofNvword
    omega

/-- `add_redo_word_record`. -/
theorem redoView_addRedoWordRecord (hadd : addRedoWordRecord lay l a v = some l') :
    ∃ ws s', s.addRedoWordRecord a.addr v = some (ws, s') ∧ RedoView s' l' := by
  -- the cursors and offsets after the tests
  have hrec : (s.log .wrd).wrapped.currec = (s.log .wrd).recmap + wrap transLogsz l.currwrdrec := by
    rw [LogGlobals.currec_wrapped, h.currec, wrap_add]
  have hdat : (s.log .wrd).wrapped.curdatptr =
      (s.log .wrd).datmap + wrap transDataLogsz l.curdatwrdptr := by
    rw [LogGlobals.curdatptr_wrapped, h.curdatptr, wrap_add]
  have hoff : (s.log .wrd).wrapped.dataoff =
      if transDataLogsz ≤ l.curdatwrdptr then 0 else l.wrddataoff := by
    simp only [LogGlobals.wrapped, h.curdatptr, h.dataoff, Nat.add_le_add_iff_left]
  have hhead : (s.log .wrd).wrapped.headeroff =
      if transLogsz ≤ l.currwrdrec then 0 else l.wrdheaderoff := by
    simp only [LogGlobals.wrapped, h.currec, h.headeroff, Nat.add_le_add_iff_left]
  have hnot : ¬ ((s.log .wrd).currec = 0 ∨ (s.log .wrd).wrapped.curdatptr = 0) := by
    have hcur := h.currec
    have hrpos := h.recmap_pos
    have hdpos := h.datmap_pos
    omega
  obtain ⟨hcur, hdataoff, hall⟩ := h.aligned
  obtain ⟨j, hj⟩ : sizeofNvword ∣ wrap transDataLogsz l.curdatwrdptr := by
    unfold wrap
    split
    · exact dvd_zero _
    · exact hcur
  have hoff' : sizeofNvword ∣ if transDataLogsz ≤ l.curdatwrdptr then 0 else l.wrddataoff := by
    split
    · exact dvd_zero _
    · exact hdataoff
  by_cases hm : lay.mapped (wrap transLogsz l.currwrdrec + 8) 4
  · simp only [addRedoWordRecord, if_pos hm, Option.some.injEq] at hadd
    subst hadd
    simp only [LogMngr.addRedoWordRecord, if_neg hnot, LogMngr.appendWord, length_toLE]
    refine ⟨_, _, rfl, ?_⟩
    constructor <;> simp only [update_self, LogGlobals.advance, LogGlobals.recmap_wrapped,
      LogGlobals.datmap_wrapped, hrec, hdat, hoff, hhead, hj, Nat.add_assoc]
    · exact h.recmap_pos
    · exact h.datmap_pos
    · rfl
    · rfl
    · exact h.entry_update a (some _)
    · exact h.record_update _ _
    · exact h.word_update j v
    · refine ⟨Dvd.intro (j + 1) rfl, ?_, ?_⟩
      · exact (Nat.dvd_mod_iff (by decide)).mpr (Nat.dvd_add hoff' dvd_rfl)
      · intro off
        by_cases heq : off = wrap transLogsz l.currwrdrec
        · rw [heq, update_self]
          exact hoff'
        · rw [update_of_ne heq]
          exact hall off
  · simp [addRedoWordRecord, hm] at hadd

/-- The body of the loop of `commit_all`. -/
theorem redoView_commitEntry (hcommit : commitEntry lay l a = some l') :
    ∃ ws s', s.commitEntry a.addr = some (ws, s') ∧ RedoView s' l' := by
  obtain ⟨r, hr, hrest⟩ := Option.bind_eq_some_iff.mp hcommit
  obtain ⟨value, -, hclear⟩ := Option.bind_eq_some_iff.mp hrest
  unfold clearWrdrec at hclear
  split at hclear
  · cases hclear
    obtain ⟨hcur, hoff, hall⟩ := h.aligned
    obtain ⟨j, hj⟩ := hall r
    have haddr : a.addr ≠ 0 := Nat.mul_ne_zero (by decide) a.ne_null
    have hguard : a.addr ≠ 0 ∧ (s.log .wrd).recmap + r ≠ 0 :=
      ⟨haddr, (Nat.add_pos_left h.recmap_pos r).ne'⟩
    simp only [LogMngr.commitEntry, h.entry, hr, Option.map_some, Option.bind_eq_bind,
      Option.bind_some, guard, if_pos hguard, h.record, hj]
    refine ⟨_, _, rfl, ?_⟩
    refine ⟨h.recmap_pos, h.datmap_pos, h.currec, h.curdatptr, h.dataoff, h.headeroff,
      h.entry_update a none, h.record_update r 0, ?_, hcur, hoff, ?_⟩
    · simp only [clearData, hj, update_self]
      exact h.word_update j 0
    · intro off
      by_cases heq : off = r
      · simp [heq]
      · simpa [clearData, heq] using hall off
  · cases hclear

end

/-- `commit_all`.  By address the walk may also go on where the node of an entry was freed. -/
theorem redoView_commitAll {order : List WordPtr} (h : RedoView s l)
    (hcommit : commitAll lay order l = some l') :
    ∃ ws s', s.commitAll (order.map WordPtr.addr) = some (ws, s') ∧ RedoView s' l' := by
  induction order generalizing s l with
  | nil =>
    cases hcommit
    exact ⟨[], s, rfl, h⟩
  | cons first order ih =>
    obtain ⟨l₁, hentry, hrest⟩ := Option.bind_eq_some_iff.mp hcommit
    obtain ⟨_, -, hrest⟩ := Option.bind_eq_some_iff.mp hrest
    obtain ⟨ws, s₁, hs₁, h₁⟩ := redoView_commitEntry h hentry
    obtain ⟨ws', s', hs', h'⟩ := ih h₁ hrest
    simp only [List.map_cons, LogMngr.commitAll, hs₁, Option.bind_eq_bind, Option.bind_some, hs']
    exact ⟨_, _, rfl, h'⟩

end Redo
