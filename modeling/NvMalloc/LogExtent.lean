/-
# The bytes that are written to the logs

The appends test the cursors against the end of the mappings before they write, but not the
cursor plus what is written, and for the records they test against a base that initialisation
has moved past the master record.  `commit_all` clears the record that the index names and the
word that this record names.

So a call writes outside a mapping when the record or the bytes do not fit any more.  The
theorem says exactly which calls stay inside; it is about every sequence of appends, begins and
commits, also unbalanced ones.
-/
import NvMalloc.LogMngr

open Function

/-! ## Calls -/

/-- The calls that change the logs; `mem` is the memory of the application at the call. -/
inductive LogCall where
  | startTrans (k : LogKind)
  | addObjRecord (mem : ℕ → UInt8) (dateptr : ℕ) (length : UInt32)
  | addWordRecord (mem : ℕ → UInt8) (dateptr : ℕ)
  | addRedoWordRecord (dateptr : ℕ) (value : Word)
  | endTrans (k : LogKind) (dataptr : ℕ)
  | commitAll (order : List ℕ)

/-- One call, and the bytes it writes to the logs.  Beyond the save stack nothing is known. -/
def logCall (s : LogMngr) : LogCall → Option (List LogWrite × LogMngr)
  | .startTrans k =>
    if (s.log k).nstdCntr < maxNestedTrans then some ([], s.startTrans k) else none
  | .addObjRecord mem dateptr length => s.addObjRecord mem dateptr length
  | .addWordRecord mem dateptr => s.addWordRecord mem dateptr
  | .addRedoWordRecord dateptr value => s.addRedoWordRecord dateptr value
  | .endTrans k dataptr => some ([], s.endTrans dataptr k)
  | .commitAll order => s.commitAll order

/-- A word record of `n` bytes fits. -/
def WordFits (maps : LogMaps) (s : LogMngr) (n : ℕ) : Prop :=
  (s.log .wrd).wrapped.currec + 12 ≤ maps.base (.records .wrd) + transLogsz ∧
    (s.log .wrd).wrapped.curdatptr + n ≤ maps.base (.data .wrd) + transDataLogsz

/-- The record and the word that it names lie in the mappings. -/
def RecordFits (maps : LogMaps) (s : LogMngr) (wordrec : ℕ) : Prop :=
  wordrec + sizeofWrdrec ≤ maps.base (.records .wrd) + transLogsz ∧
    (s.log .wrd).datmap + (s.wrdrecs wordrec).dataoff + sizeofNvword ≤
      maps.base (.data .wrd) + transDataLogsz

instance (maps : LogMaps) (s : LogMngr) (wordrec : ℕ) : Decidable (RecordFits maps s wordrec) :=
  instDecidableAnd

/-- The calls whose writes fit. -/
def LogCallFits (maps : LogMaps) (s : LogMngr) : LogCall → Prop
  | .startTrans _ => True
  | .addObjRecord _ _ length =>
    (s.log .obj).currec + sizeofRecord ≤ maps.base (.records .obj) + transLogsz ∧
      (s.log .obj).curdatptr + length.toNat ≤ maps.base (.data .obj) + transDataLogsz
  | .addWordRecord _ _ => WordFits maps s cacheLineSize
  | .addRedoWordRecord _ _ => WordFits maps s sizeofNvword
  | .endTrans _ _ => True
  | .commitAll order => ∀ p ∈ order, ∀ wordrec ∈ s.wrdloghash p, RecordFits maps s wordrec

instance (maps : LogMaps) (s : LogMngr) (c : LogCall) : Decidable (LogCallFits maps s c) := by
  refine c.casesOn ?_ ?_ ?_ ?_ ?_ ?_ <;> intros <;> dsimp only [LogCallFits, WordFits] <;>
    infer_instance

/-! ## What holds of the cursors in any case -/

/-- A cursor that is null or not before the start of its area. -/
def NullOrFrom (start addr : ℕ) : Prop := addr = 0 ∨ start ≤ addr

theorem NullOrFrom.add {start addr : ℕ} (h : NullOrFrom start addr) (h0 : addr ≠ 0) (n : ℕ) :
    NullOrFrom start (addr + n) := .inr ((h.resolve_left h0).trans (Nat.le_add_right _ _))

/-- One log after any calls. -/
structure ExtentInv (maps : LogMaps) (k : LogKind) (l : LogGlobals) : Prop where
  recmap : l.recmap = maps.base (.records k) + k.masterRoom
  datmap : l.datmap = maps.base (.data k)
  currec : NullOrFrom l.recmap l.currec
  curdatptr : NullOrFrom l.datmap l.curdatptr
  rechead : ∀ i, NullOrFrom l.recmap (l.rechead i)
  datahead : ∀ i, NullOrFrom l.datmap (l.datahead i)

theorem extentInv_initLogmngr (maps : LogMaps) (k : LogKind) :
    ExtentInv maps k (initLogmngr maps k) where
  recmap := rfl
  datmap := rfl
  currec := .inr le_rfl
  curdatptr := .inr le_rfl
  rechead _ := .inl rfl
  datahead _ := .inl rfl

namespace ExtentInv

variable {maps : LogMaps} {k : LogKind} {l : LogGlobals} (h : ExtentInv maps k l)
include h

theorem startTrans : ExtentInv maps k l.startTrans where
  recmap := h.recmap
  datmap := h.datmap
  currec := h.currec
  curdatptr := h.curdatptr
  rechead i := by
    show NullOrFrom l.recmap (update l.rechead l.nstdCntr l.currec i)
    rcases eq_or_ne i l.nstdCntr with rfl | hne
    · rw [update_self]
      exact h.currec
    · rw [update_of_ne hne]
      exact h.rechead i
  datahead i := by
    show NullOrFrom l.datmap (update l.datahead l.nstdCntr l.curdatptr i)
    rcases eq_or_ne i l.nstdCntr with rfl | hne
    · rw [update_self]
      exact h.curdatptr
    · rw [update_of_ne hne]
      exact h.datahead i

theorem endTrans (off : ℕ) : ExtentInv maps k (l.endTrans off) :=
  ⟨h.recmap, h.datmap, h.rechead _, h.datahead _, h.rechead, h.datahead⟩

theorem advance (hrec : l.currec ≠ 0) (hdat : l.curdatptr ≠ 0) (n : ℕ) :
    ExtentInv maps k (l.advance n) :=
  ⟨h.recmap, h.datmap, h.currec.add hrec _, h.curdatptr.add hdat _, h.rechead, h.datahead⟩

theorem wrapped : ExtentInv maps k l.wrapped := by
  constructor
  case recmap => rw [LogGlobals.recmap_wrapped, h.recmap]
  case datmap => rw [LogGlobals.datmap_wrapped, h.datmap]
  case currec =>
    rw [LogGlobals.recmap_wrapped, LogGlobals.currec_wrapped]
    split
    · exact .inr le_rfl
    · exact h.currec
  case curdatptr =>
    rw [LogGlobals.datmap_wrapped, LogGlobals.curdatptr_wrapped]
    split
    · exact .inr le_rfl
    · exact h.curdatptr
  case rechead =>
    rw [LogGlobals.recmap_wrapped, LogGlobals.rechead_wrapped]
    exact h.rechead
  case datahead =>
    rw [LogGlobals.datmap_wrapped, LogGlobals.datahead_wrapped]
    exact h.datahead

/-- The start of the records is not null. -/
theorem recmap_pos : 0 < l.recmap := by
  rw [h.recmap]
  exact (maps.pos _).trans_le (Nat.le_add_right _ _)

theorem currec_wrapped_ne_zero (hrec : l.currec ≠ 0) : l.wrapped.currec ≠ 0 := by
  rw [LogGlobals.currec_wrapped]
  split
  · exact h.recmap_pos.ne'
  · exact hrec

theorem recmap_le_wrapped (hrec : l.currec ≠ 0) : l.recmap ≤ l.wrapped.currec := by
  have hcur := h.wrapped.currec.resolve_left (h.currec_wrapped_ne_zero hrec)
  rwa [LogGlobals.recmap_wrapped] at hcur

end ExtentInv

/-! ## Extents -/

theorem contained_iff {maps : LogMaps} {a : LogArea} {addr len : ℕ} (hlo : maps.base a ≤ addr)
    (htop : 0 < len ∨ addr ≤ maps.base a + a.size) :
    LogWrite.Contained maps ⟨a, addr, len⟩ ↔ addr + len ≤ maps.base a + a.size := by
  constructor
  · intro h
    rcases Nat.eq_zero_or_pos len with rfl | hpos
    · exact htop.resolve_left (Nat.lt_irrefl 0)
    · have hlast : addr + len - 1 < maps.base a + a.size :=
        (h (addr + len - 1) (show addr ≤ _ by omega) (show _ < addr + len by omega)).2
      omega
  · intro h b hlb hub
    exact ⟨hlo.trans hlb, hub.trans_le h⟩

section Extents

variable {maps : LogMaps} {k : LogKind} {l : LogGlobals}

/-- The count in the master record is inside. -/
theorem contained_reccount (h : ExtentInv maps k l) :
    LogWrite.Contained maps ⟨.records k, l.recmap - sizeofMaster, 4⟩ := by
  have hroom : sizeofMaster ≤ k.masterRoom ∧ k.masterRoom + 4 ≤ transLogsz := by
    cases k <;> decide
  simp only [sizeofMaster] at hroom
  have hlo : maps.base (.records k) ≤ l.recmap - sizeofMaster := by
    rw [h.recmap]
    simp only [sizeofMaster]
    omega
  refine (contained_iff hlo (.inl (Nat.succ_pos 3))).mpr ?_
  show l.recmap - sizeofMaster + 4 ≤ maps.base (.records k) + transLogsz
  rw [h.recmap]
  simp only [sizeofMaster]
  omega

/-- Bytes at the record cursor. -/
theorem contained_record_iff (h : ExtentInv maps k l) (hrec : l.currec ≠ 0) {off len : ℕ}
    (hlen : 0 < len) : LogWrite.Contained maps ⟨.records k, l.currec + off, len⟩ ↔
      l.currec + (off + len) ≤ maps.base (.records k) + transLogsz := by
  have hlo : maps.base (.records k) ≤ l.currec + off := by
    have hcur := h.currec.resolve_left hrec
    rw [h.recmap] at hcur
    omega
  rw [contained_iff hlo (.inl hlen), Nat.add_assoc, LogArea.size]

/-- Bytes at the data cursor. -/
theorem contained_data_iff (h : ExtentInv maps k l) (hdat : l.curdatptr ≠ 0) {len : ℕ}
    (htop : 0 < len ∨ l.curdatptr ≤ l.datmap + transDataLogsz) :
    LogWrite.Contained maps ⟨.data k, l.curdatptr, len⟩ ↔
      l.curdatptr + len ≤ maps.base (.data k) + transDataLogsz := by
  have hlo : maps.base (.data k) ≤ l.curdatptr := by
    rw [← h.datmap]
    exact h.curdatptr.resolve_left hdat
  rw [h.datmap] at htop
  rw [contained_iff hlo htop, LogArea.size]

/-- The three extents of an append. -/
theorem contained_append_iff (h : ExtentInv maps k l) (hrec : l.currec ≠ 0)
    (hdat : l.curdatptr ≠ 0) {n m : ℕ} (hm : 0 < m)
    (htop : 0 < n ∨ l.curdatptr ≤ l.datmap + transDataLogsz) :
    (∀ w ∈ [(⟨.data k, l.curdatptr, n⟩ : LogWrite), ⟨.records k, l.currec + 8, m⟩,
      ⟨.records k, l.recmap - sizeofMaster, 4⟩], w.Contained maps) ↔
      l.currec + (8 + m) ≤ maps.base (.records k) + transLogsz ∧
        l.curdatptr + n ≤ maps.base (.data k) + transDataLogsz := by
  have hcount := contained_reccount h
  simp only [List.forall_mem_cons, List.not_mem_nil, false_implies, implies_true, and_true,
    contained_data_iff h hdat htop, contained_record_iff h hrec hm, hcount]
  exact and_comm

end Extents

/-! ## The calls -/

/-- Both logs and the index after any calls. -/
structure ExtentLogs (maps : LogMaps) (s : LogMngr) : Prop where
  logs : ∀ k, ExtentInv maps k (s.log k)
  index : ∀ {p wordrec}, s.wrdloghash p = some wordrec → (s.log .wrd).recmap ≤ wordrec

theorem extentLogs_initializeLogmgr (maps : LogMaps) (useWal : Bool) :
    ExtentLogs maps (initializeLogmgr maps useWal) where
  logs := extentInv_initLogmngr maps
  index h := by cases h

namespace ExtentLogs

variable {maps : LogMaps} {s s' : LogMngr} {ws : List LogWrite}

section

variable (h : ExtentLogs maps s)
include h

/-- The logs after a change of the globals of log `k`. -/
theorem logs_update {k : LogKind} {l : LogGlobals} (hl : ExtentInv maps k l) (k' : LogKind) :
    ExtentInv maps k' (update s.log k l k') :=
  (forall_update_iff s.log _).mpr ⟨hl, fun k' _ => h.logs k'⟩ k'

/-- The start of the word records never moves. -/
theorem recmap_eq (h' : ∀ k, ExtentInv maps k (s'.log k)) :
    (s'.log .wrd).recmap = (s.log .wrd).recmap := by
  rw [(h' .wrd).recmap, (h.logs .wrd).recmap]

/-- The invariant after a call, when the entries of its index were there or are as they should
be. -/
theorem of_logs (hlogs : ∀ k, ExtentInv maps k (s'.log k))
    (hindex : ∀ {p wordrec}, s'.wrdloghash p = some wordrec →
      s.wrdloghash p = some wordrec ∨ (s.log .wrd).recmap ≤ wordrec) : ExtentLogs maps s' := by
  refine ⟨hlogs, ?_⟩
  intro p wordrec hp
  rw [h.recmap_eq hlogs]
  exact (hindex hp).elim h.index id

theorem startTrans (k : LogKind) : ExtentLogs maps (s.startTrans k) :=
  h.of_logs (h.logs_update (h.logs k).startTrans) .inl

theorem endTrans (dataptr : ℕ) (k : LogKind) : ExtentLogs maps (s.endTrans dataptr k) := by
  cases k with
  | obj => exact h.of_logs (h.logs_update ((h.logs .obj).endTrans _)) .inl
  | wrd =>
    refine h.of_logs (h.logs_update ((h.logs .wrd).endTrans _)) ?_
    intro p wordrec hp
    exact .inl (LogMngr.wrdloghash_endTrans hp)

end

variable {dateptr wordrec : ℕ}

theorem addObjRecord (h : ExtentLogs maps s) {mem : ℕ → UInt8} {length : UInt32}
    (hcall : s.addObjRecord mem dateptr length = some (ws, s')) :
    ((∀ w ∈ ws, w.Contained maps) ↔ LogCallFits maps s (.addObjRecord mem dateptr length)) ∧
      ExtentLogs maps s' := by
  simp only [LogMngr.addObjRecord] at hcall
  split at hcall
  · cases hcall
  · next hguard =>
    push Not at hguard
    obtain ⟨hrec, -, hend, -, hdat⟩ := hguard
    cases hcall
    refine ⟨contained_append_iff (h.logs .obj) hrec hdat (by decide) (.inr hend.le), ?_⟩
    exact h.of_logs (h.logs_update ((h.logs .obj).advance hrec hdat _)) .inl

/-- What the two appends to the word log share. -/
theorem appendWord (h : ExtentLogs maps s) {bs : List UInt8} (hbs : 0 < bs.length)
    (hrec : (s.log .wrd).currec ≠ 0) (hdat : (s.log .wrd).wrapped.curdatptr ≠ 0) :
    ((∀ w ∈ (s.appendWord bs).1, w.Contained maps) ↔ WordFits maps s bs.length) ∧
      ∀ k, ExtentInv maps k ((s.appendWord bs).2.log k) := by
  have hinv := (h.logs .wrd).wrapped
  have hrec' := (h.logs .wrd).currec_wrapped_ne_zero hrec
  exact ⟨contained_append_iff hinv hrec' hdat (by decide) (.inl hbs),
    h.logs_update (hinv.advance hrec' hdat _)⟩

/-- A new entry of the index. -/
theorem index_update {hash : ℕ → Option ℕ} {q r lo : ℕ} (hr : lo ≤ r) {p : ℕ}
    (hp : update hash q (some r) p = some wordrec) :
    hash p = some wordrec ∨ lo ≤ wordrec := by
  rcases eq_or_ne p q with rfl | hne
  · rw [update_self] at hp
    cases hp
    exact .inr hr
  · rw [update_of_ne hne] at hp
    exact .inl hp

theorem addWordRecord (h : ExtentLogs maps s) {mem : ℕ → UInt8}
    (hcall : s.addWordRecord mem dateptr = some (ws, s')) :
    ((∀ w ∈ ws, w.Contained maps) ↔ LogCallFits maps s (.addWordRecord mem dateptr)) ∧
      ExtentLogs maps s' := by
  simp only [LogMngr.addWordRecord] at hcall
  split at hcall
  · cases hcall
  · next hguard =>
    push Not at hguard
    obtain ⟨hrec, -, hdat⟩ := hguard
    cases hcall
    obtain ⟨hfits, hlogs⟩ := h.appendWord
      (show 0 < (slice mem dateptr cacheLineSize).length by rw [length_slice]; decide) hrec hdat
    rw [length_slice] at hfits
    refine ⟨hfits, h.of_logs hlogs ?_⟩
    intro p wordrec hp
    simp only [LogMngr.appendWord, update_self, LogGlobals.advance] at hp
    split at hp
    · refine index_update ?_ hp
      exact ((h.logs .wrd).recmap_le_wrapped hrec).trans (Nat.le_add_right _ _)
    · exact .inl hp

theorem addRedoWordRecord (h : ExtentLogs maps s) {value : Word}
    (hcall : s.addRedoWordRecord dateptr value = some (ws, s')) :
    ((∀ w ∈ ws, w.Contained maps) ↔ LogCallFits maps s (.addRedoWordRecord dateptr value)) ∧
      ExtentLogs maps s' := by
  simp only [LogMngr.addRedoWordRecord] at hcall
  split at hcall
  · cases hcall
  · next hguard =>
    push Not at hguard
    obtain ⟨hrec, hdat⟩ := hguard
    cases hcall
    obtain ⟨hfits, hlogs⟩ := h.appendWord
      (show 0 < (toLE sizeofNvword value.toNat).length by rw [length_toLE]; decide) hrec hdat
    rw [length_toLE] at hfits
    refine ⟨hfits, h.of_logs hlogs ?_⟩
    intro p wordrec hp
    exact index_update ((h.logs .wrd).recmap_le_wrapped hrec) hp

/-- The two writes for one entry of the index. -/
theorem contained_entry_iff (h : ExtentLogs maps s) {p : ℕ} (hp : s.wrdloghash p = some wordrec) :
    (∀ w ∈ [(⟨.data .wrd, (s.log .wrd).datmap + (s.wrdrecs wordrec).dataoff, sizeofNvword⟩ :
      LogWrite), ⟨.records .wrd, wordrec, sizeofWrdrec⟩], w.Contained maps) ↔
      RecordFits maps s wordrec := by
  have hdat : maps.base (.data .wrd) ≤ (s.log .wrd).datmap + (s.wrdrecs wordrec).dataoff := by
    rw [(h.logs .wrd).datmap]
    exact Nat.le_add_right _ _
  have hrec : maps.base (.records .wrd) ≤ wordrec := by
    have hfrom := h.index hp
    rw [(h.logs .wrd).recmap] at hfrom
    exact (Nat.le_add_right _ _).trans hfrom
  simp only [List.forall_mem_cons, List.not_mem_nil, false_implies, implies_true, and_true,
    contained_iff hdat (.inl (show 0 < sizeofNvword by decide)),
    contained_iff hrec (.inl (show 0 < sizeofWrdrec by decide))]
  exact and_comm

/-- What one entry leaves. -/
theorem commitEntry (h : ExtentLogs maps s) {first : ℕ}
    (hcall : s.commitEntry first = some (ws, s')) :
    ∃ wordrec, s.wrdloghash first = some wordrec ∧
      ((∀ w ∈ ws, w.Contained maps) ↔ RecordFits maps s wordrec) ∧
      s'.wrdloghash = update s.wrdloghash first none ∧
      s'.wrdrecs = update s.wrdrecs wordrec ⟨0⟩ ∧ s'.log = s.log ∧
      ExtentLogs maps s' := by
  simp only [LogMngr.commitEntry, Option.bind_eq_bind, Option.bind_eq_some_iff, Option.pure_def,
    Option.some.injEq, Prod.mk.injEq] at hcall
  obtain ⟨wordrec, hentry, -, -, rfl, rfl⟩ := hcall
  refine ⟨wordrec, hentry, h.contained_entry_iff hentry, rfl, rfl, rfl, h.logs, ?_⟩
  intro p r hp
  exact h.index (index_erase hp)

/-- A record that fits still fits when another one, or itself, has been cleared; and the other
way around as long as the cleared one fits. -/
theorem recordFits_clear_iff (hlog : s'.log = s.log)
    (hrecs : s'.wrdrecs = update s.wrdrecs wordrec ⟨0⟩)
    (hdat : (s.log .wrd).datmap = maps.base (.data .wrd)) (hfits : RecordFits maps s wordrec)
    (r : ℕ) : RecordFits maps s' r ↔ RecordFits maps s r := by
  rw [RecordFits, RecordFits, hlog, hrecs]
  rcases eq_or_ne r wordrec with rfl | hne
  · rw [update_self]
    refine iff_of_true ⟨hfits.1, ?_⟩ hfits
    rw [hdat]
    exact Nat.add_le_add_left (by decide) _
  · rw [update_of_ne hne]

theorem commitAll (h : ExtentLogs maps s) {order : List ℕ}
    (hcall : s.commitAll order = some (ws, s')) :
    ((∀ w ∈ ws, w.Contained maps) ↔ LogCallFits maps s (.commitAll order)) ∧
      ExtentLogs maps s' := by
  induction order generalizing s ws with
  | nil =>
    cases hcall
    exact ⟨by simp [LogCallFits], h⟩
  | cons first order ih =>
    simp only [LogMngr.commitAll, Option.bind_eq_bind, Option.bind_eq_some_iff, Option.pure_def,
      Option.some.injEq, Prod.mk.injEq] at hcall
    obtain ⟨⟨ws₁, s₁⟩, hfirst, ⟨ws₂, s₂⟩, hrest, rfl, rfl⟩ := hcall
    obtain ⟨wordrec, hentry, hws₁, hhash, hrecs, hlog, h₁⟩ := h.commitEntry hfirst
    obtain ⟨hws₂, h₂⟩ := ih h₁ hrest
    refine ⟨?_, h₂⟩
    rw [List.forall_mem_append, hws₁, hws₂]
    -- the entries that are left are those of the others, and clearing changes no test
    have hother : RecordFits maps s wordrec → ∀ p, (∀ r ∈ s₁.wrdloghash p, RecordFits maps s₁ r) ↔
        p = first ∨ ∀ r ∈ s.wrdloghash p, RecordFits maps s r := by
      intro hfits p
      have hclear := recordFits_clear_iff hlog hrecs (h.logs .wrd).datmap hfits
      rw [hhash]
      rcases eq_or_ne p first with rfl | hne
      · simp
      · rw [update_of_ne hne]
        simp only [hclear, hne, false_or]
    constructor
    · rintro ⟨hfits, hall⟩ p hp r hr
      rcases eq_or_ne p first with rfl | hne
      · rw [Option.mem_def, hentry] at hr
        cases hr
        exact hfits
      · have hmem := (List.mem_cons.mp hp).resolve_left hne
        exact ((hother hfits p).mp (hall p hmem)).resolve_left hne r hr
    · intro hall
      have hfits := hall first List.mem_cons_self wordrec hentry
      refine ⟨hfits, ?_⟩
      intro p hp
      exact (hother hfits p).mpr (.inr (hall p (List.mem_cons_of_mem _ hp)))

/-- Any call. -/
theorem call (h : ExtentLogs maps s) {c : LogCall} (hcall : logCall s c = some (ws, s')) :
    ((∀ w ∈ ws, w.Contained maps) ↔ LogCallFits maps s c) ∧ ExtentLogs maps s' := by
  cases c with
  | startTrans k =>
    simp only [logCall] at hcall
    split at hcall
    · cases hcall
      exact ⟨by simp [LogCallFits], h.startTrans k⟩
    · cases hcall
  | addObjRecord mem dateptr length => exact h.addObjRecord hcall
  | addWordRecord mem dateptr => exact h.addWordRecord hcall
  | addRedoWordRecord dateptr value => exact h.addRedoWordRecord hcall
  | endTrans k dataptr =>
    cases hcall
    exact ⟨by simp [LogCallFits], h.endTrans dataptr k⟩
  | commitAll order => exact h.commitAll hcall

end ExtentLogs

/-- **A run of log calls writes only inside the mappings exactly if the record and the bytes of
every append fit**, and the entries that are cleared lie inside. -/
theorem contained_iff_of_run (maps : LogMaps) (useWal : Bool) {calls : List LogCall}
    {wss : List (List LogWrite)} {s : LogMngr}
    (hrun : runSteps logCall calls (initializeLogmgr maps useWal) = some (wss, s)) :
    EachStep logCall (fun _ _ ws _ => ∀ w ∈ ws, w.Contained maps) calls
        (initializeLogmgr maps useWal) ↔
      Along logCall (LogCallFits maps) calls (initializeLogmgr maps useWal) := by
  refine eachStep_iff_along (I := ExtentLogs maps) ?_ (extentLogs_initializeLogmgr maps useWal) hrun
  intro s c ws s' h hcall
  obtain ⟨hiff, hkeep⟩ := h.call hcall
  exact ⟨hiff, fun _ => hkeep⟩

/-- An object, a word and a commit of all words. -/
def fewLogCalls : List LogCall :=
  [.addObjRecord (fun _ => 0) 4096 16, .addRedoWordRecord 8192 7, .commitAll [8192]]

/-- Few short calls stay inside. -/
theorem contained_fewLogCalls :
    EachStep logCall (fun _ _ ws _ => ∀ w ∈ ws, w.Contained sampleMaps) fewLogCalls
      (initializeLogmgr sampleMaps false) := by
  obtain ⟨⟨wss, s⟩, hrun⟩ := Option.isSome_iff_exists.mp
    (show (runSteps logCall fewLogCalls (initializeLogmgr sampleMaps false)).isSome by
      decide +kernel)
  exact (contained_iff_of_run sampleMaps false hrun).mpr (by decide +kernel)

/-- An object that is longer than the data log is copied beyond its end. -/
theorem not_contained_longObject :
    ((runSteps logCall [.addObjRecord (fun _ => 0) 4096 524288001]
      (initializeLogmgr sampleMaps false)).map fun x => (x.1.map fun ws => ws.take 1)) =
        some [[⟨.data .obj, sampleMaps.base (.data .obj), 524288001⟩]] ∧
      ¬ LogWrite.Contained sampleMaps ⟨.data .obj, sampleMaps.base (.data .obj), 524288001⟩ := by
  refine ⟨by decide +kernel, ?_⟩
  intro h
  have hlast := (h (sampleMaps.base (.data .obj) + 524288000) (Nat.le_add_right _ _)
    (Nat.add_lt_add_left (by decide) _)).2
  exact absurd hlast (Nat.lt_irrefl _)
