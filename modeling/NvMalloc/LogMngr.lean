/-
# The log manager

`LogMngr.cc` keeps two logs, of objects and of words.  Each has a mapping for its records and
one for the logged bytes, a cursor into both, two offsets that are counted beside the cursors,
and a stack of the cursors at which transactions began.  Here the globals are addresses, as
in the code, so that cursors can leave their mappings; the bytes and records that a call writes
are given with the new state, as extents of the four mappings.

`init_obj_logmngr` advances a `record_s *` by `sizeof(master_s)`, that is by 24 records, while
`init_wrd_logmngr` advances by 24 bytes.
-/
import NvMalloc.UndoLog

open Function

/-! ## The mappings -/

/-- The four mappings of `map_log_records`. -/
inductive LogArea where
  | records (k : LogKind)
  | data (k : LogKind)
  deriving DecidableEq

/-- The size of a mapping. -/
def LogArea.size : LogArea → ℕ
  | .records _ => transLogsz
  | .data _ => transDataLogsz

/-- Where the mappings lie: apart from each other, not at the null pointer, and in user space,
where sums of addresses and lengths do not overflow. -/
structure LogMaps where
  base : LogArea → ℕ
  pos : ∀ a, 0 < base a
  below : ∀ a, base a + a.size ≤ 2 ^ 47
  apart : ∀ {a b}, a ≠ b → base a + a.size ≤ base b ∨ base b + b.size ≤ base a

/-- Mappings one behind the other. -/
def sampleMaps : LogMaps where
  base
    | .records .obj => 2 ^ 32
    | .data .obj => 2 ^ 32 + 2 ^ 30
    | .records .wrd => 2 ^ 32 + 2 * 2 ^ 30
    | .data .wrd => 2 ^ 32 + 3 * 2 ^ 30
  pos := by rintro (⟨_ | _⟩ | ⟨_ | _⟩) <;> decide
  below := by rintro (⟨_ | _⟩ | ⟨_ | _⟩) <;> decide
  apart := by rintro (⟨_ | _⟩ | ⟨_ | _⟩) (⟨_ | _⟩ | ⟨_ | _⟩) <;> decide

/-- The address lies in the mapping. -/
def LogMaps.Inside (maps : LogMaps) (a : LogArea) (addr : ℕ) : Prop :=
  maps.base a ≤ addr ∧ addr < maps.base a + a.size

/-- Bytes that a call writes to a mapping. -/
structure LogWrite where
  area : LogArea
  addr : ℕ
  len : ℕ
  deriving DecidableEq

/-- Every byte that is written lies in the mapping. -/
def LogWrite.Contained (maps : LogMaps) (w : LogWrite) : Prop :=
  ∀ b, w.addr ≤ b → b < w.addr + w.len → maps.Inside w.area b

/-! ## The globals -/

/-- The globals of one log: for objects `objrecmap`, `objdatmap`, `currobjrec`, `curdatobjptr`,
`objdataoff`, `objheaderoff`, `obj_rechead`, `obj_datahead` and `obj_nstd_cntr`. -/
structure LogGlobals where
  recmap : ℕ
  datmap : ℕ
  currec : ℕ
  curdatptr : ℕ
  dataoff : ℕ
  headeroff : ℕ
  rechead : ℕ → ℕ := fun _ => 0
  datahead : ℕ → ℕ := fun _ => 0
  nstdCntr : ℕ := 0

/-- The bytes that initialisation leaves for the master record. -/
def LogKind.masterRoom : LogKind → ℕ
  | .obj => sizeofMaster * sizeofRecord
  | .wrd => sizeofMaster

/-- `init_obj_logmngr` and `init_wrd_logmngr`. -/
def initLogmngr (maps : LogMaps) (k : LogKind) : LogGlobals where
  recmap := maps.base (.records k) + k.masterRoom
  datmap := maps.base (.data k)
  currec := maps.base (.records k) + k.masterRoom
  curdatptr := maps.base (.data k)
  dataoff := 0
  headeroff := sizeofMaster

/-- The globals of both logs and what the mappings hold, by address: the records, the logged
bytes and the field `reccount` of a master record; the index `wrdloghash`; and `use_wal`. -/
structure LogMngr where
  log : LogKind → LogGlobals
  objrecs : ℕ → ObjRecord := fun _ => ⟨0, 0⟩
  wrdrecs : ℕ → WrdRecord := fun _ => ⟨0⟩
  data : LogKind → ℕ → UInt8 := fun _ _ => 0
  reccount : ℕ → ℕ := fun _ => 0
  wrdloghash : ℕ → Option ℕ := fun _ => none
  useWal : Bool

/-- `initialize_logmgr`.  The mappings are anonymous, so the count that `add_master_record`
sets is 0 in any case. -/
def initializeLogmgr (maps : LogMaps) (useWal : Bool) : LogMngr where
  log := initLogmngr maps
  useWal := useWal

/-! ## Cursors and stack of one log -/

namespace LogGlobals

/-- `start_obj_trans` and `start_wrd_trans`.  The stacks are not bounded here; the index that is
used is `nstdCntr`. -/
def startTrans (l : LogGlobals) : LogGlobals :=
  { l with
    rechead := update l.rechead l.nstdCntr l.currec
    datahead := update l.datahead l.nstdCntr l.curdatptr
    nstdCntr := (l.nstdCntr + 1) % 2 ^ 32 }

/-- What `end_obj_trans` and `end_wrd_trans` share.  The counter is not decremented at 0, and
the stack is read all the same. -/
def endTrans (l : LogGlobals) (headeroff : ℕ) : LogGlobals :=
  { l with
    nstdCntr := l.nstdCntr - 1
    headeroff := headeroff
    dataoff := uintSub l.dataoff (reduceOffset l.curdatptr (l.datahead (l.nstdCntr - 1)))
    currec := l.rechead (l.nstdCntr - 1)
    curdatptr := l.datahead (l.nstdCntr - 1) }

/-- `end_obj_trans`: the header offset becomes the difference. -/
def endObjTrans (l : LogGlobals) : LogGlobals :=
  l.endTrans (reduceOffset l.currec (l.rechead (l.nstdCntr - 1)))

/-- `end_wrd_trans`, without the index. -/
def endWrdTrans (l : LogGlobals) : LogGlobals :=
  l.endTrans (uintSub l.headeroff (reduceOffset l.currec (l.rechead (l.nstdCntr - 1))))

/-- The tests of `add_word_record` and `add_redo_word_record`: back to the start at the end. -/
def wrapped (l : LogGlobals) : LogGlobals :=
  { l with
    currec := if l.recmap + transLogsz ≤ l.currec then l.recmap else l.currec
    headeroff := if l.recmap + transLogsz ≤ l.currec then 0 else l.headeroff
    curdatptr := if l.datmap + transDataLogsz ≤ l.curdatptr then l.datmap else l.curdatptr
    dataoff := if l.datmap + transDataLogsz ≤ l.curdatptr then 0 else l.dataoff }

section Wrapped

variable (l : LogGlobals)

@[simp] theorem recmap_wrapped : l.wrapped.recmap = l.recmap := by rw [wrapped]

@[simp] theorem datmap_wrapped : l.wrapped.datmap = l.datmap := by rw [wrapped]

@[simp] theorem rechead_wrapped : l.wrapped.rechead = l.rechead := by rw [wrapped]

@[simp] theorem datahead_wrapped : l.wrapped.datahead = l.datahead := by rw [wrapped]

theorem currec_wrapped : l.wrapped.currec =
    if l.recmap + transLogsz ≤ l.currec then l.recmap else l.currec := by rw [wrapped]

theorem curdatptr_wrapped : l.wrapped.curdatptr =
    if l.datmap + transDataLogsz ≤ l.curdatptr then l.datmap else l.curdatptr := by rw [wrapped]

end Wrapped

/-- The cursors and offsets behind a record of `length` bytes. -/
def advance (l : LogGlobals) (length : ℕ) : LogGlobals :=
  { l with
    dataoff := (l.dataoff + length) % 2 ^ 32
    headeroff := (l.headeroff + sizeofRecord) % 2 ^ 32
    curdatptr := l.curdatptr + length
    currec := l.currec + sizeofRecord }

end LogGlobals

/-! ## Differences of offsets -/

theorem uintSub_zero {n : ℕ} (h : n < 2 ^ 32) : uintSub n 0 = n := by
  rw [uintSub]
  omega

theorem uintSub_lt (a b : ℕ) : uintSub a b < 2 ^ 32 := Nat.mod_lt _ (by decide)

theorem reduceOffset_self (n : ℕ) : reduceOffset n n = 0 := by
  simp [reduceOffset]

theorem reduceOffset_lt (a b : ℕ) : reduceOffset a b < 2 ^ 32 := Nat.mod_lt _ (by decide)

theorem reduceOffset_of_le {a b : ℕ} (hle : b ≤ a) (hlt : a - b < 2 ^ 32) :
    reduceOffset a b = a - b := by
  rw [reduceOffset]
  rcases hle.eq_or_lt with rfl | hgt
  · rw [if_neg (Nat.lt_irrefl _), Nat.sub_self, Nat.zero_mod]
  · rw [if_pos hgt, Nat.mod_eq_of_lt hlt]

/-- An offset that is reduced by the distance of two cursors. -/
theorem uintSub_reduceOffset {off a b : ℕ} (hle : b ≤ a) (hdist : a - b ≤ off)
    (hoff : off < 2 ^ 32) : uintSub off (reduceOffset a b) = off - (a - b) := by
  rw [reduceOffset_of_le hle (hdist.trans_lt hoff), uintSub]
  omega

/-! ## The functions -/

namespace LogMngr

/-- `start_obj_trans` and `start_wrd_trans`. -/
def startTrans (s : LogMngr) (k : LogKind) : LogMngr :=
  { s with log := update s.log k (s.log k).startTrans }

/-- `truncate_log_commit`: `end_obj_trans` and `end_wrd_trans`. -/
def endTrans (s : LogMngr) (dataptr : ℕ) : LogKind → LogMngr
  | .obj => { s with log := update s.log .obj (s.log .obj).endObjTrans }
  | .wrd =>
    { s with
      log := update s.log .wrd (s.log .wrd).endWrdTrans
      wrdloghash := if s.useWal then update s.wrdloghash dataptr none else s.wrdloghash }

/-- `incr_rec_count`, for the master record before `recmap`. -/
def incrRecCount (s : LogMngr) (recmap : ℕ) : ℕ → ℕ :=
  update s.reccount (recmap - sizeofMaster)
    ((s.reccount (recmap - sizeofMaster) + 1) % 2 ^ 32)

/-- `add_obj_record`, when the memory of the application is `mem`. -/
def addObjRecord (s : LogMngr) (mem : ℕ → UInt8) (dateptr : ℕ) (length : UInt32) :
    Option (List LogWrite × LogMngr) :=
  let l := s.log .obj
  if l.currec = 0 ∨ l.recmap + transLogsz ≤ l.currec ∨ l.datmap + transDataLogsz ≤ l.curdatptr ∨
      dateptr = 0 ∨ l.curdatptr = 0 then none
  else
    some
      ([⟨.data .obj, l.curdatptr, length.toNat⟩, ⟨.records .obj, l.currec + 8, 8⟩,
        ⟨.records .obj, l.recmap - sizeofMaster, 4⟩],
      { s with
        data := update s.data .obj
          (blit (s.data .obj) l.curdatptr (slice mem dateptr length.toNat))
        objrecs := update s.objrecs l.currec ⟨length.toNat, l.dataoff⟩
        log := update s.log .obj (l.advance length.toNat)
        reccount := s.incrRecCount l.recmap })

/-- What `add_word_record` and `add_redo_word_record` do with the logged bytes `bs`, apart from
the index. -/
def appendWord (s : LogMngr) (bs : List UInt8) : List LogWrite × LogMngr :=
  let l := (s.log .wrd).wrapped
  ([⟨.data .wrd, l.curdatptr, bs.length⟩, ⟨.records .wrd, l.currec + 8, 4⟩,
    ⟨.records .wrd, l.recmap - sizeofMaster, 4⟩],
  { s with
    data := update s.data .wrd (blit (s.data .wrd) l.curdatptr bs)
    wrdrecs := update s.wrdrecs l.currec ⟨l.dataoff⟩
    log := update s.log .wrd (l.advance bs.length)
    reccount := s.incrRecCount l.recmap })

/-- `add_word_record`.  With `use_wal` the address is indexed under the cursor, which has been
advanced. -/
def addWordRecord (s : LogMngr) (mem : ℕ → UInt8) (dateptr : ℕ) :
    Option (List LogWrite × LogMngr) :=
  if (s.log .wrd).currec = 0 ∨ dateptr = 0 ∨ (s.log .wrd).wrapped.curdatptr = 0 then none
  else
    let (ws, s') := s.appendWord (slice mem dateptr cacheLineSize)
    some (ws,
      { s' with
        wrdloghash := if s.useWal then
          update s.wrdloghash dateptr (some (s'.log .wrd).currec) else s.wrdloghash })

/-- `add_redo_word_record`.  The address is indexed under the record that is written. -/
def addRedoWordRecord (s : LogMngr) (dateptr : ℕ) (value : Word) :
    Option (List LogWrite × LogMngr) :=
  if (s.log .wrd).currec = 0 ∨ (s.log .wrd).wrapped.curdatptr = 0 then none
  else
    let (ws, s') := s.appendWord (toLE sizeofNvword value.toNat)
    some (ws,
      { s' with
        wrdloghash := update s.wrdloghash dateptr (some (s.log .wrd).wrapped.currec) })

/-- `read_log`, as the bytes of the word. -/
def readLog (s : LogMngr) (mem : ℕ → UInt8) (ptr : ℕ) : List UInt8 :=
  match s.wrdloghash ptr with
  | none => slice mem ptr sizeofNvword
  | some wordrec =>
    slice (s.data .wrd) ((s.log .wrd).datmap + (s.wrdrecs wordrec).dataoff) sizeofNvword

/-- The body of the loop of `commit_all`, without the store to the memory of the application:
`rmv_wrd_hash`, `clear_data` and `clear_wrdrec`. -/
def commitEntry (s : LogMngr) (first : ℕ) : Option (List LogWrite × LogMngr) := do
  let wordrec ← s.wrdloghash first
  guard (first ≠ 0 ∧ wordrec ≠ 0)
  let addr := (s.log .wrd).datmap + (s.wrdrecs wordrec).dataoff
  return ([⟨.data .wrd, addr, sizeofNvword⟩, ⟨.records .wrd, wordrec, sizeofWrdrec⟩],
    { s with
      wrdloghash := update s.wrdloghash first none
      data := update s.data .wrd
        (blit (s.data .wrd) addr (List.replicate sizeofNvword 0))
      wrdrecs := update s.wrdrecs wordrec ⟨0⟩ })

/-- `commit_all`, when the index is walked in the order `order`. -/
def commitAll (s : LogMngr) : List ℕ → Option (List LogWrite × LogMngr)
  | [] => some ([], s)
  | first :: order => do
    let (ws, s) ← s.commitEntry first
    let (ws', s) ← s.commitAll order
    return (ws ++ ws', s)

/-- `add_obj_record` or `add_word_record`, as `log_record` calls them. -/
def addRecord (s : LogMngr) (mem : ℕ → UInt8) (dateptr : ℕ) (length : UInt32) :
    LogKind → Option (List LogWrite × LogMngr)
  | .obj => s.addObjRecord mem dateptr length
  | .wrd => s.addWordRecord mem dateptr

/-- `log_record`. -/
def logRecord (s : LogMngr) (mem : ℕ → UInt8) (dateptr : ℕ) (length : UInt32) (k : LogKind) :
    Option (List LogWrite × LogMngr) :=
  (s.startTrans k).addRecord mem dateptr length k

/-- `update_oncommit`. -/
def updateOncommit (s : LogMngr) (dateptr : ℕ) (k : LogKind) : LogMngr := s.endTrans dateptr k

end LogMngr

@[simp] theorem LogMngr.log_startTrans (s : LogMngr) (k : LogKind) :
    (s.startTrans k).log k = (s.log k).startTrans := update_self ..

@[simp] theorem LogMngr.log_endTrans_wrd (s : LogMngr) (dataptr : ℕ) :
    (s.endTrans dataptr .wrd).log .wrd = (s.log .wrd).endWrdTrans := by
  simp only [endTrans, update_self]

/-! ## What an append does to the globals -/

/-- The globals when the tests before an append have been made. -/
def LogGlobals.ready (l : LogGlobals) : LogKind → LogGlobals
  | .obj => l
  | .wrd => l.wrapped

variable {k : LogKind} {s s' : LogMngr} {mem : ℕ → UInt8} {dateptr wordrec : ℕ} {ws : List LogWrite}

/-- A cursor before the end is not moved by the tests. -/
theorem LogGlobals.ready_eq {l : LogGlobals} (hrec : l.currec < l.recmap + transLogsz)
    (hdat : l.curdatptr < l.datmap + transDataLogsz) : l.ready k = l := by
  cases k with
  | obj => rfl
  | wrd =>
    have hrec' : ¬ l.recmap + transLogsz ≤ l.currec := Nat.not_le.mpr hrec
    have hdat' : ¬ l.datmap + transDataLogsz ≤ l.curdatptr := Nat.not_le.mpr hdat
    rw [ready, wrapped, if_neg hrec', if_neg hrec', if_neg hdat', if_neg hdat']

/-- An append that gets through. -/
theorem LogMngr.addRecord_eq {length : UInt32}
    (h : s.addRecord mem dateptr length k = some (ws, s')) :
    s'.log = update s.log k (((s.log k).ready k).advance (copyLength length.toNat k)) ∧
      s'.reccount = s.incrRecCount (s.log k).recmap := by
  cases k with
  | obj =>
    simp only [addRecord, addObjRecord] at h
    split at h
    · cases h
    · cases h
      exact ⟨rfl, rfl⟩
  | wrd =>
    simp only [addRecord, addWordRecord] at h
    split at h
    · cases h
    · cases h
      simp only [appendWord, length_slice, LogGlobals.recmap_wrapped, LogGlobals.ready, copyLength,
        and_self]

/-! ## The index -/

/-- An entry that is left when one is erased. -/
theorem index_erase {hash : ℕ → Option ℕ} {q p : ℕ}
    (hp : update hash q none p = some wordrec) : hash p = some wordrec := by
  rcases eq_or_ne p q with rfl | hne
  · rw [update_self] at hp
    cases hp
  · rwa [update_of_ne hne] at hp

/-- A commit adds no entry. -/
theorem LogMngr.wrdloghash_endTrans {dataptr p : ℕ}
    (hp : (s.endTrans dataptr k).wrdloghash p = some wordrec) :
    s.wrdloghash p = some wordrec := by
  cases k with
  | obj => exact hp
  | wrd =>
    simp only [endTrans] at hp
    split at hp
    · exact index_erase hp
    · exact hp

theorem LogMngr.readLog_of_entry {p : ℕ} (hp : s.wrdloghash p = some wordrec) :
    s.readLog mem p =
      slice (s.data .wrd) ((s.log .wrd).datmap + (s.wrdrecs wordrec).dataoff) sizeofNvword := by
  rw [readLog, hp]

/-- The index after `add_word_record`: the record after the one that was written. -/
theorem LogMngr.wrdloghash_addWordRecord (h : s.addWordRecord mem dateptr = some (ws, s')) :
    s'.wrdloghash = if s.useWal then update s.wrdloghash dateptr
      (some ((s.log .wrd).wrapped.currec + sizeofRecord)) else s.wrdloghash := by
  simp only [addWordRecord] at h
  split at h
  · cases h
  · cases h
    simp only [appendWord, update_self, LogGlobals.advance]

/-- What `add_redo_word_record` leaves in the word log and the index. -/
theorem LogMngr.addRedoWordRecord_eq {value : Word}
    (h : s.addRedoWordRecord dateptr value = some (ws, s')) :
    (s.log .wrd).currec ≠ 0 ∧ s'.log .wrd = (s.log .wrd).wrapped.advance sizeofNvword ∧
      s'.wrdrecs = update s.wrdrecs (s.log .wrd).wrapped.currec
        ⟨(s.log .wrd).wrapped.dataoff⟩ ∧
      s'.data .wrd = blit (s.data .wrd) (s.log .wrd).wrapped.curdatptr
        (toLE sizeofNvword value.toNat) ∧
      s'.wrdloghash = update s.wrdloghash dateptr
        (some (s.log .wrd).wrapped.currec) := by
  simp only [addRedoWordRecord] at h
  split at h
  · cases h
  · next hguard =>
    push Not at hguard
    cases h
    simp only [appendWord, update_self, length_toLE, and_true]
    exact hguard.1
