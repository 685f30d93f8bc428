/-
# The undo logs

In the undo build `log_record` copies an object, or the cache line of a word, to a log
before a transaction changes it, and `update_oncommit` takes the log back to where it
was.  Objects and words have a log each: an area of records, an area of copied bytes,
cursors into both, and a stack of the cursors at the begin of each open transaction.

A log holds the copies of the open transactions one behind the other (`LogInv`).  A
commit takes the top of the stack, whichever transaction commits, so this is kept as
long as no transaction begins while a copy above the cursors is still needed
(`InOrder`).  Transactions that are nested, as `Nested` says, are always in order.
-/
import NvMalloc.Bytes
import NvMalloc.RedoLog

open Function Option

/-- `MAX_NESTED_TRANS`. -/
def maxNestedTrans : ℕ := 256

/-- `CACHE_LINE_SIZE`. -/
def cacheLineSize : ℕ := 64

/-- `sizeof(record_s)`, the same as `sizeof(wrdrec_s)`. -/
def sizeofRecord : ℕ := 16

/-- `record_s`: the length of an object and the place of its copy. -/
structure ObjRecord where
  length : ℕ
  offset : ℕ
  deriving DecidableEq, Repr

/-- `wrdrec_s`: the place of the copy of a cache line. -/
structure WrdRecord where
  dataoff : ℕ
  deriving DecidableEq, Repr

/-- The globals of one log.  Cursors are offsets from the start of the areas; the two
stacks hold no position before their first use. -/
structure TransLog (ρ : Type) where
  recmap : ℕ → ρ
  datmap : ℕ → UInt8 := fun _ => 0
  currec : ℕ := 0
  curdatptr : ℕ := 0
  dataoff : ℕ := 0
  headeroff : ℕ := sizeofMaster
  reccount : ℕ := 0
  rechead : ℕ → Option ℕ := fun _ => none
  datahead : ℕ → Option ℕ := fun _ => none
  nstdCntr : ℕ := 0

/-- The two logs and the memory of the application. -/
structure Logs where
  mem : ℕ → UInt8
  obj : TransLog ObjRecord := { recmap := fun _ => ⟨0, 0⟩ }
  wrd : TransLog WrdRecord := { recmap := fun _ => ⟨0⟩ }

/-! ## The functions of the log manager -/

/-- Subtraction of `UINT`s. -/
def uintSub (a b : ℕ) : ℕ := (a + 2 ^ 32 - b) % 2 ^ 32

/-- `reduce_offset`. -/
def reduceOffset (curr prev : ℕ) : ℕ :=
  (if curr > prev then curr - prev else prev - curr) % 2 ^ 32

section TransLog

variable {ρ : Type}

/-- `start_obj_trans` and `start_wrd_trans`: push the cursors, and `none` where the
stack is full. -/
def TransLog.startTrans (l : TransLog ρ) : Option (TransLog ρ) :=
  if l.nstdCntr < maxNestedTrans then
    some
      { l with
        rechead := update l.rechead l.nstdCntr (some l.currec)
        datahead := update l.datahead l.nstdCntr (some l.curdatptr)
        nstdCntr := l.nstdCntr + 1 }
  else none

/-- What `add_obj_record` and `add_word_record` do once the cursors are in range: copy
the bytes, write the record and advance.  `none` where the record area, which starts
`shift` bytes into its mapping, or the data area has no room. -/
def TransLog.appendRecord (mk : ℕ → ℕ → ρ) (shift : ℕ) (l : TransLog ρ) (bs : List UInt8) :
    Option (TransLog ρ) :=
  if shift + l.currec + sizeofRecord ≤ transLogsz ∧ l.curdatptr + bs.length ≤ transDataLogsz then
    some
      { l with
        datmap := blit l.datmap l.curdatptr bs
        recmap := update l.recmap l.currec (mk bs.length l.dataoff)
        dataoff := (l.dataoff + bs.length) % 2 ^ 32
        curdatptr := l.curdatptr + bs.length
        currec := l.currec + sizeofRecord
        headeroff := (l.headeroff + sizeofRecord) % 2 ^ 32
        reccount := (l.reccount + 1) % 2 ^ 32 }
  else none

/-- What `end_obj_trans` and `end_wrd_trans` share: go back to the cursors on top of the
stack. -/
def TransLog.endTrans (headeroff : ℕ → ℕ) (l : TransLog ρ) : Option (TransLog ρ) :=
  (l.rechead (l.nstdCntr - 1)).bind fun r =>
    (l.datahead (l.nstdCntr - 1)).map fun d =>
      { l with
        nstdCntr := l.nstdCntr - 1
        headeroff := headeroff (reduceOffset l.currec r)
        dataoff := uintSub l.dataoff (reduceOffset l.curdatptr d)
        currec := r
        curdatptr := d }

end TransLog

/-- `add_obj_record`.  `init_obj_logmngr` advances a `record_s` pointer by
`sizeof(master_s)`, so the records start that many records into the mapping. -/
def addObjRecord (mem : ℕ → UInt8) (l : TransLog ObjRecord) (dateptr length : ℕ) :
    Option (TransLog ObjRecord) :=
  if transLogsz ≤ l.currec ∨ transDataLogsz ≤ l.curdatptr ∨ dateptr = 0 then none
  else l.appendRecord ObjRecord.mk (sizeofMaster * sizeofRecord) (slice mem dateptr length)

/-- `add_word_record`: the whole cache line is copied, from `dateptr` on. -/
def addWordRecord (mem : ℕ → UInt8) (l : TransLog WrdRecord) (dateptr : ℕ) :
    Option (TransLog WrdRecord) :=
  let l := if transLogsz ≤ l.currec then { l with currec := 0, headeroff := 0 } else l
  let l := if transDataLogsz ≤ l.curdatptr then { l with curdatptr := 0, dataoff := 0 } else l
  if dateptr = 0 then none
  else l.appendRecord (fun _ off => ⟨off⟩) sizeofMaster (slice mem dateptr cacheLineSize)

/-- `end_obj_trans`: the header offset becomes the difference itself. -/
def endObjTrans (l : TransLog ObjRecord) : Option (TransLog ObjRecord) := l.endTrans id

/-- `end_wrd_trans`, without the hash map of the redo build. -/
def endWrdTrans (l : TransLog WrdRecord) : Option (TransLog WrdRecord) :=
  l.endTrans (uintSub l.headeroff)

/-- Which log a call is for: `isWrdLogging`. -/
inductive LogKind
  | obj
  | wrd
  deriving DecidableEq, Repr

/-- `log_record`. -/
def logRecord (s : Logs) (dateptr length : ℕ) : LogKind → Option Logs
  | .obj => s.obj.startTrans.bind fun l =>
    (addObjRecord s.mem l dateptr length).map fun l' => { s with obj := l' }
  | .wrd => s.wrd.startTrans.bind fun l =>
    (addWordRecord s.mem l dateptr).map fun l' => { s with wrd := l' }

/-- `update_oncommit`.  The address is not used. -/
def updateOncommit (s : Logs) (_dateptr : ℕ) : LogKind → Option Logs
  | .obj => (endObjTrans s.obj).map fun l => { s with obj := l }
  | .wrd => (endWrdTrans s.wrd).map fun l => { s with wrd := l }

/-- The calls of the clients, and their stores to memory. -/
inductive TransOp
  | write (addr : ℕ) (bs : List UInt8)
  | begin (k : LogKind) (ptr length : ℕ)
  | commit (k : LogKind) (ptr : ℕ)

/-- One call. -/
def transStep (s : Logs) : TransOp → Option (Unit × Logs)
  | .write addr bs => some ((), { s with mem := blit s.mem addr bs })
  | .begin k ptr length => (logRecord s ptr length k).map fun s' => ((), s')
  | .commit k ptr => (updateOncommit s ptr k).map fun s' => ((), s')

/-! ## Open transactions -/

/-- A transaction that has not committed: its object, the number of its record, and the
bytes of the object when it began. -/
structure OpenTrans where
  ptr : ℕ
  slotNo : ℕ
  bytes : List UInt8

/-- What the clients know: the memory, and the open transactions of each log, the last
one first. -/
structure History where
  mem : ℕ → UInt8
  opens : LogKind → List OpenTrans := fun _ => []

/-- The number of bytes that a begin copies. -/
def copyLength (length : ℕ) : LogKind → ℕ
  | .obj => length
  | .wrd => cacheLineSize

/-- The history after one more call.  A commit is for the last transaction begun on its
object. -/
def History.step (h : History) : TransOp → History
  | .write addr bs => { h with mem := blit h.mem addr bs }
  | .begin k ptr length =>
    { h with
      opens := update h.opens k
        (⟨ptr, (h.opens k).length, slice h.mem ptr (copyLength length k)⟩ :: h.opens k) }
  | .commit k ptr =>
    { h with opens := update h.opens k ((h.opens k).eraseP fun tr => tr.ptr == ptr) }

/-- The history of a run. -/
def history (m : ℕ → UInt8) (ops : List TransOp) : History := ops.foldl History.step { mem := m }

/-- Every call meets the condition `P` on the history before it. -/
def Throughout (P : History → TransOp → Prop) : History → List TransOp → Prop
  | _, [] => True
  | h, op :: ops => P h op ∧ Throughout P (h.step op) ops

/-- Transactions begin only while the records of all open transactions of the log lie
below the cursor; only open transactions commit. -/
def InOrder (h : History) : TransOp → Prop
  | .write _ _ => True
  | .begin k _ _ => ∀ tr ∈ h.opens k, tr.slotNo < (h.opens k).length
  | .commit k ptr => ∃ tr ∈ h.opens k, tr.ptr = ptr

instance (h : History) (op : TransOp) : Decidable (InOrder h op) := by
  cases op <;> unfold InOrder <;> infer_instance

instance decidableThroughout (P : History → TransOp → Prop) [∀ h op, Decidable (P h op)] :
    ∀ (h : History) (ops : List TransOp), Decidable (Throughout P h ops)
  | _, [] => instDecidableTrue
  | h, op :: ops =>
    have := decidableThroughout P (h.step op) ops
    inferInstanceAs (Decidable (P h op ∧ Throughout P (h.step op) ops))

/-- The record of the transaction locates its bytes. -/
def Located (s : Logs) (tr : OpenTrans) : LogKind → Prop
  | .obj => slice s.obj.datmap (s.obj.recmap (sizeofRecord * tr.slotNo)).offset
      (s.obj.recmap (sizeofRecord * tr.slotNo)).length = tr.bytes
  | .wrd => slice s.wrd.datmap (s.wrd.recmap (sizeofRecord * tr.slotNo)).dataoff cacheLineSize =
      tr.bytes

instance (s : Logs) (tr : OpenTrans) (k : LogKind) : Decidable (Located s tr k) := by
  cases k <;> unfold Located <;> infer_instance

/-! ## The invariant of a log -/

/-- The log has `lens.length` records below the cursor, of blocks of the given lengths
one behind the other, and the record of every open transaction describes a block with
the bytes of the transaction. -/
structure LogInv {ρ : Type} (mk : ℕ → ℕ → ρ) (l : TransLog ρ) (lens : List ℕ)
    (opens : List OpenTrans) : Prop where
  cntr : l.nstdCntr = lens.length
  nested : lens.length ≤ maxNestedTrans
  currec : l.currec = sizeofRecord * lens.length
  curdatptr : l.curdatptr = lens.sum
  dataoff : l.dataoff = lens.sum
  fits : lens.sum ≤ transDataLogsz
  rechead : ∀ {i}, i < lens.length → l.rechead i = some (sizeofRecord * i)
  datahead : ∀ {i}, i < lens.length → l.datahead i = some (lens.take i).sum
  records : ∀ tr ∈ opens, ∃ off, l.recmap (sizeofRecord * tr.slotNo) = mk tr.bytes.length off ∧
    slice l.datmap off tr.bytes.length = tr.bytes ∧
    (tr.slotNo < lens.length → off + tr.bytes.length ≤ (lens.take (tr.slotNo + 1)).sum)

namespace LogInv

variable {ρ : Type} {mk : ℕ → ℕ → ρ} {l l₁ l₂ : TransLog ρ} {lens : List ℕ}
  {opens : List OpenTrans}

/-- A begin writes behind everything that the open transactions need. -/
theorem begin_trans (h : LogInv mk l lens opens) {shift : ℕ} {bs : List UInt8} (ptr : ℕ)
    (hbelow : ∀ tr ∈ opens, tr.slotNo < lens.length) (hstart : l.startTrans = some l₁)
    (happ : l₁.appendRecord mk shift bs = some l₂) :
    LogInv mk l₂ (lens ++ [bs.length]) (⟨ptr, lens.length, bs⟩ :: opens) := by
  simp only [TransLog.startTrans] at hstart
  split at hstart
  case isFalse => cases hstart
  case isTrue hroom =>
  cases hstart
  simp only [TransLog.appendRecord] at happ
  split at happ
  case isFalse => cases happ
  case isTrue hfit =>
  cases happ
  rw [h.cntr] at hroom
  rw [h.curdatptr] at hfit
  have hlt : lens.sum + bs.length < 2 ^ 32 := hfit.2.trans_lt (by decide)
  constructor
  case cntr => simp [h.cntr]
  case nested => simpa using hroom
  case currec => simp [h.currec, Nat.mul_succ]
  case curdatptr => simp [h.curdatptr]
  case dataoff =>
    rw [List.sum_append, List.sum_singleton]
    simp only [h.dataoff]
    exact Nat.mod_eq_of_lt hlt
  case fits => simpa using hfit.2
  case rechead =>
    intro i hi
    rw [List.length_append, List.length_singleton] at hi
    simp only [h.cntr, h.currec]
    by_cases hi' : i = lens.length
    · subst hi'
      rw [update_self]
    · rw [update_of_ne hi', h.rechead (by omega)]
  case datahead =>
    intro i hi
    rw [List.length_append, List.length_singleton] at hi
    simp only [h.cntr, h.curdatptr]
    by_cases hi' : i = lens.length
    · subst hi'
      rw [update_self, List.take_left]
    · rw [update_of_ne hi', h.datahead (by omega), List.take_append_of_le_length (by omega)]
  case records =>
    intro tr htr
    rcases List.mem_cons.mp htr with rfl | hold
    · refine ⟨lens.sum, ?_, ?_, ?_⟩
      · simp [h.currec, h.dataoff]
      · simp only [h.curdatptr]
        exact slice_blit_self ..
      · intro _
        rw [List.take_of_length_le (by simp), List.sum_append, List.sum_singleton]
    · obtain ⟨off, hrec, hbytes, hend⟩ := h.records tr hold
      have hslot := hbelow tr hold
      have hend := hend hslot
      have htop : (lens.take (tr.slotNo + 1)).sum ≤ lens.sum :=
        (List.take_sublist _ _).sum_le_sum fun _ _ => Nat.zero_le _
      refine ⟨off, ?_, ?_, ?_⟩
      · simp only [h.currec]
        rw [update_of_ne, hrec]
        simp only [sizeofRecord]
        omega
      · simp only [h.curdatptr]
        rw [slice_blit_of_disjoint (by omega), hbytes]
      · intro _
        rwa [List.take_append_of_le_length (by omega)]

/-- A begin gets through when there is room on the stack and in the data area. -/
theorem exists_begin (h : LogInv mk l lens opens) {shift : ℕ} {bs : List UInt8}
    (hroom : lens.length < maxNestedTrans) (hshift : shift ≤ sizeofMaster * sizeofRecord)
    (hfit : lens.sum + bs.length ≤ transDataLogsz) :
    ∃ l₁ l₂, l.startTrans = some l₁ ∧ l₁.currec = l.currec ∧ l₁.curdatptr = l.curdatptr ∧
      l₁.appendRecord mk shift bs = some l₂ := by
  have hrec : shift + l.currec + sizeofRecord ≤ transLogsz := by
    rw [h.currec]
    simp only [maxNestedTrans, sizeofMaster, sizeofRecord, transLogsz] at *
    omega
  have hdat : l.curdatptr + bs.length ≤ transDataLogsz := by rwa [h.curdatptr]
  rw [← h.cntr] at hroom
  refine ⟨_, _, if_pos hroom, rfl, rfl, if_pos ⟨hrec, hdat⟩⟩

/-- A commit takes back the cursors and leaves both areas alone. -/
theorem end_trans (h : LogInv mk l lens opens) (hne : lens ≠ []) {opens' : List OpenTrans}
    (hsub : opens' ⊆ opens) (f : ℕ → ℕ) :
    ∃ l', l.endTrans f = some l' ∧ LogInv mk l' lens.dropLast opens' := by
  have hpos : 0 < lens.length := List.length_pos_of_ne_nil hne
  have hlast : l.nstdCntr - 1 < lens.length := by rw [h.cntr]; omega
  have hdrop : lens.dropLast = lens.take (lens.length - 1) := List.dropLast_eq_take
  have hsum : (lens.take (lens.length - 1)).sum ≤ lens.sum :=
    (List.take_sublist _ _).sum_le_sum fun _ _ => Nat.zero_le _
  have hfits := h.fits
  have hbound : transDataLogsz < 2 ^ 32 := by decide
  have hoff : uintSub lens.sum (reduceOffset lens.sum (lens.take (lens.length - 1)).sum) =
      (lens.take (lens.length - 1)).sum := by
    simp only [uintSub, reduceOffset]
    split <;> omega
  refine ⟨_, by rw [TransLog.endTrans, h.rechead hlast, h.datahead hlast]; rfl, ?_⟩
  rw [hdrop]
  constructor
  case cntr => simp [h.cntr]
  case nested =>
    have := h.nested
    simp only [List.length_take]
    omega
  case currec => simp [h.cntr]
  case curdatptr => simp [h.cntr]
  case dataoff => simp only [h.dataoff, h.curdatptr, h.cntr, hoff]
  case fits => omega
  case rechead =>
    intro i hi
    exact h.rechead (by rw [List.length_take] at hi; omega)
  case datahead =>
    intro i hi
    rw [List.length_take] at hi
    rw [List.take_take, Nat.min_eq_left (by omega)]
    exact h.datahead (by omega)
  case records =>
    intro tr htr
    obtain ⟨off, hrec, hbytes, hend⟩ := h.records tr (hsub htr)
    refine ⟨off, hrec, hbytes, ?_⟩
    intro hlt
    rw [List.length_take] at hlt
    rw [List.take_take, Nat.min_eq_left (by omega)]
    exact hend (by omega)

end LogInv

/-! ## Both logs -/

/-- The lengths of the blocks below the cursors, after one more call. -/
def markStep (marks : LogKind → List ℕ) : TransOp → LogKind → List ℕ
  | .write _ _ => marks
  | .begin k _ length => update marks k (marks k ++ [copyLength length k])
  | .commit k _ => update marks k (marks k).dropLast

/-- The logs after a run with the given history. -/
structure Agrees (s : Logs) (h : History) (marks : LogKind → List ℕ) : Prop where
  mem : s.mem = h.mem
  obj : LogInv ObjRecord.mk s.obj (marks .obj) (h.opens .obj)
  wrd : LogInv (fun _ off => WrdRecord.mk off) s.wrd (marks .wrd) (h.opens .wrd)
  count : ∀ k, (marks k).length = (h.opens k).length
  lines : ∀ n ∈ marks .wrd, n = cacheLineSize
  lineBytes : ∀ tr ∈ h.opens .wrd, tr.bytes.length = cacheLineSize

namespace Agrees

variable {s s' : Logs} {h : History} {marks : LogKind → List ℕ}

theorem initial (m : ℕ → UInt8) : Agrees { mem := m } { mem := m } fun _ => [] where
  mem := rfl
  obj := by constructor <;> simp [maxNestedTrans]
  wrd := by constructor <;> simp [maxNestedTrans]
  count _ := rfl
  lines n hn := by cases hn
  lineBytes tr htr := by cases htr

theorem located (ha : Agrees s h marks) {k : LogKind} {tr : OpenTrans} (htr : tr ∈ h.opens k) :
    Located s tr k := by
  cases k with
  | obj =>
    obtain ⟨off, hrec, hbytes, -⟩ := ha.obj.records tr htr
    rw [Located, hrec]
    exact hbytes
  | wrd =>
    obtain ⟨off, hrec, hbytes, -⟩ := ha.wrd.records tr htr
    rw [Located, hrec, ← ha.lineBytes tr htr]
    exact hbytes

/-- The word log never gets so far that it wraps. -/
theorem addWordRecord_eq (ha : Agrees s h marks) {l : TransLog WrdRecord}
    (hstart : s.wrd.startTrans = some l) (ptr : ℕ) :
    addWordRecord s.mem l ptr = if ptr = 0 then none else
      l.appendRecord (fun _ off => ⟨off⟩) sizeofMaster (slice s.mem ptr cacheLineSize) := by
  have hsum : (marks .wrd).sum = (marks .wrd).length • cacheLineSize :=
    List.sum_eq_card_nsmul _ _ ha.lines
  have hnested := ha.wrd.nested
  simp only [TransLog.startTrans] at hstart
  split at hstart
  case isFalse => cases hstart
  case isTrue =>
  cases hstart
  have hrec : ¬ transLogsz ≤ s.wrd.currec := by
    rw [ha.wrd.currec]
    simp only [maxNestedTrans] at hnested
    simp only [transLogsz, sizeofRecord]
    omega
  have hdat : ¬ transDataLogsz ≤ s.wrd.curdatptr := by
    rw [ha.wrd.curdatptr, hsum]
    simp only [maxNestedTrans] at hnested
    simp only [transDataLogsz, cacheLineSize, smul_eq_mul]
    omega
  simp only [addWordRecord, if_neg hrec, if_neg hdat]

/-- One call that gets through. -/
theorem step (ha : Agrees s h marks) {op : TransOp} (hop : InOrder h op) {u : Unit}
    (hstep : transStep s op = some (u, s')) : Agrees s' (h.step op) (markStep marks op) := by
  cases op with
  | write addr bs =>
    cases hstep
    exact ⟨by simp only [History.step, ha.mem], ha.obj, ha.wrd, ha.count, ha.lines, ha.lineBytes⟩
  | begin k ptr length =>
    obtain ⟨s₁, hlog, heq⟩ := map_eq_some_iff.mp hstep
    cases heq
    have hbelow : ∀ tr ∈ h.opens k, tr.slotNo < (marks k).length := by
      rw [ha.count]
      exact hop
    cases k with
    | obj =>
      obtain ⟨l, hstart, hmap⟩ := bind_eq_some_iff.mp hlog
      obtain ⟨l', hadd, rfl⟩ := map_eq_some_iff.mp hmap
      rw [addObjRecord] at hadd
      split at hadd
      case isTrue => cases hadd
      case isFalse =>
      have hinv := ha.obj.begin_trans ptr hbelow hstart hadd
      rw [length_slice, ha.count, ha.mem] at hinv
      refine ⟨ha.mem, hinv, ha.wrd, ?_, ha.lines, ha.lineBytes⟩
      rintro (_ | _)
      · simp [markStep, History.step, ha.count]
      · exact ha.count .wrd
    | wrd =>
      obtain ⟨l, hstart, hmap⟩ := bind_eq_some_iff.mp hlog
      obtain ⟨l', hadd, rfl⟩ := map_eq_some_iff.mp hmap
      rw [ha.addWordRecord_eq hstart] at hadd
      split at hadd
      case isTrue => cases hadd
      case isFalse =>
      have hinv := ha.wrd.begin_trans ptr hbelow hstart hadd
      rw [length_slice, ha.count, ha.mem] at hinv
      refine ⟨ha.mem, ha.obj, hinv, ?_, ?_, ?_⟩
      · rintro (_ | _)
        · exact ha.count .obj
        · simp [markStep, History.step, ha.count]
      · intro n hn
        rcases List.mem_append.mp hn with hn | hn
        · exact ha.lines n hn
        · exact List.mem_singleton.mp hn
      · intro tr htr
        rcases List.mem_cons.mp htr with rfl | htr
        · exact length_slice ..
        · exact ha.lineBytes tr htr
  | commit k ptr =>
    obtain ⟨s₁, hend, heq⟩ := map_eq_some_iff.mp hstep
    cases heq
    obtain ⟨tr, htr, hptr⟩ := hop
    have hsub : (h.opens k).eraseP (fun tr => tr.ptr == ptr) ⊆ h.opens k := List.eraseP_subset
    have hne : marks k ≠ [] := by
      intro hnil
      have hcount := ha.count k
      rw [hnil] at hcount
      rw [List.length_eq_zero_iff.mp hcount.symm] at htr
      cases htr
    have hlen : (marks k).dropLast.length =
        ((h.opens k).eraseP fun tr => tr.ptr == ptr).length := by
      rw [List.length_dropLast, ha.count, List.length_eraseP_of_mem htr (by simpa using hptr)]
    cases k with
    | obj =>
      obtain ⟨l, hl, hinv⟩ := ha.obj.end_trans hne hsub id
      simp only [updateOncommit, endObjTrans, hl, map_some, some.injEq] at hend
      subst hend
      refine ⟨ha.mem, hinv, ha.wrd, ?_, ha.lines, ha.lineBytes⟩
      rintro (_ | _)
      · exact hlen
      · exact ha.count .wrd
    | wrd =>
      obtain ⟨l, hl, hinv⟩ := ha.wrd.end_trans hne hsub (uintSub s.wrd.headeroff)
      simp only [updateOncommit, endWrdTrans, hl, map_some, some.injEq] at hend
      subst hend
      refine ⟨ha.mem, ha.obj, hinv, ?_, ?_, ?_⟩
      · rintro (_ | _)
        · exact ha.count .obj
        · exact hlen
      · intro n hn
        exact ha.lines n (List.mem_of_mem_dropLast hn)
      · intro tr htr
        exact ha.lineBytes tr (hsub htr)

/-- A run that gets through. -/
theorem run {ops : List TransOp} (ha : Agrees s h marks) (hops : Throughout InOrder h ops)
    {rs : List Unit} (hrun : runSteps transStep ops s = some (rs, s')) :
    Agrees s' (ops.foldl History.step h) (ops.foldl markStep marks) := by
  induction ops generalizing s h marks rs with
  | nil =>
    cases hrun
    exact ha
  | cons op ops ih =>
    obtain ⟨u, s₁, rs', hop, hrest, -⟩ := runSteps_cons_eq_some.mp hrun
    exact ih (ha.step hops.1 hop) hops.2 hrest

end Agrees

/-! ## Clients that commit in any order -/

/-- After the run, the record of every open transaction locates the bytes its object had
when it began. -/
def RecordsSurvive (m : ℕ → UInt8) (ops : List TransOp) : Prop :=
  ∀ {rs s}, runSteps transStep ops { mem := m } = some (rs, s) →
    ∀ k, ∀ tr ∈ (history m ops).opens k, Located s tr k

/-- **Undo records survive** other transactions, as long as none begins while the record
of an open one lies above the cursor. -/
theorem recordsSurvive_of_inOrder (m : ℕ → UInt8) (ops : List TransOp)
    (hops : Throughout InOrder { mem := m } ops) : RecordsSurvive m ops := by
  intro rs s hrun k tr htr
  exact ((Agrees.initial m).run hops hrun).located htr

/-- Two clients: `A` begins, `B` begins, `A` commits, then `B`, then `C` begins. -/
def orderedClients : List TransOp :=
  [.begin .obj 64 1, .begin .obj 128 1, .commit .obj 64, .commit .obj 128, .begin .obj 192 1]

/-- A memory in which every byte tells its address. -/
def tellingMemory : ℕ → UInt8 := fun a => UInt8.ofNat a

theorem recordsSurvive_orderedClients : RecordsSurvive tellingMemory orderedClients :=
  recordsSurvive_of_inOrder _ _ (by decide +kernel)

/-- One client begins `A`, the other begins `B`, the first commits `A` and begins `C`. -/
def crossedClients : List TransOp :=
  [.begin .obj 64 1, .begin .obj 128 1, .commit .obj 64, .begin .obj 192 1]

/-- The commit of `A` took back the cursors of `B`, and `C` has overwritten its copy. -/
theorem not_recordsSurvive_crossedClients : ¬ RecordsSurvive tellingMemory crossedClients := by
  intro hsurvive
  have hmem : (⟨128, 1, [128]⟩ : OpenTrans) ∈ (history tellingMemory crossedClients).opens .obj :=
    List.mem_cons_of_mem _ List.mem_cons_self
  have hlost : (runSteps transStep crossedClients { mem := tellingMemory }).map
      (fun x => decide (Located x.2 ⟨128, 1, [128]⟩ .obj)) = some false := by
    decide +kernel
  obtain ⟨⟨rs, s⟩, hrun, hloc⟩ := map_eq_some_iff.mp hlost
  exact absurd (hsurvive hrun .obj _ hmem) (of_decide_eq_false hloc)

/-! ## Nested transactions -/

/-- Each log is used in last-in first-out order. -/
def Nested (h : History) : TransOp → Prop
  | .commit k ptr => ((h.opens k).head?.map OpenTrans.ptr) = some ptr
  | _ => True

/-- There are at most as many open transactions as the stack has places, and the bytes
they log fit the data area. -/
def FitsLogs (h : History) : TransOp → Prop
  | .begin k ptr length => ptr ≠ 0 ∧ (h.opens k).length < maxNestedTrans ∧
    ((h.opens k).map fun tr => tr.bytes.length).sum + copyLength length k ≤ transDataLogsz
  | _ => True

/-- An object has at least one byte. -/
def TransOp.NonEmpty : TransOp → Prop
  | .begin .obj _ length => length ≠ 0
  | _ => True

/-- Record cursor, data cursor and data offset of a log. -/
def cursors (s : Logs) : LogKind → ℕ × ℕ × ℕ
  | .obj => (s.obj.currec, s.obj.curdatptr, s.obj.dataoff)
  | .wrd => (s.wrd.currec, s.wrd.curdatptr, s.wrd.dataoff)

/-- The sequence commits what it begins on log `k`, and nothing else, when `d` of its
transactions are open. -/
def BalancedFrom (k : LogKind) : ℕ → List TransOp → Prop
  | d, [] => d = 0
  | d, .write _ _ :: ops => BalancedFrom k d ops
  | d, .begin k' _ _ :: ops => BalancedFrom k (if k' = k then d + 1 else d) ops
  | d, .commit k' _ :: ops =>
    (k' = k → 0 < d) ∧ BalancedFrom k (if k' = k then d - 1 else d) ops

/-- Open transactions have the records from the first one on. -/
def Stacked : List OpenTrans → Prop
  | [] => True
  | tr :: rest => tr.slotNo = rest.length ∧ Stacked rest

theorem Stacked.lt {opens : List OpenTrans} (h : Stacked opens) {tr : OpenTrans}
    (htr : tr ∈ opens) : tr.slotNo < opens.length := by
  induction opens with
  | nil => cases htr
  | cons tr' rest ih =>
    rw [List.length_cons]
    rcases List.mem_cons.mp htr with rfl | htr
    · rw [h.1]
      exact Nat.lt_succ_self _
    · exact (ih h.2 htr).trans (Nat.lt_succ_self _)

/-- The transaction that a nested commit is for is the last one. -/
theorem Nested.opens_eq {h : History} {k : LogKind} {ptr : ℕ} (hn : Nested h (.commit k ptr)) :
    ∃ tr rest, h.opens k = tr :: rest ∧ tr.ptr = ptr ∧
      (h.step (.commit k ptr)).opens = update h.opens k rest := by
  obtain ⟨tr, hhead, hptr⟩ := map_eq_some_iff.mp hn
  obtain ⟨rest, heq⟩ := List.head?_eq_some_iff.mp hhead
  refine ⟨tr, rest, heq, hptr, ?_⟩
  simp only [History.step, heq]
  rw [List.eraseP_cons_of_pos (by simpa using hptr)]

/-- The blocks below the cursors are those of the open transactions. -/
def lengths (h : History) (k : LogKind) : List ℕ :=
  ((h.opens k).map fun tr => tr.bytes.length).reverse

section Nested

variable {s s' : Logs} {h : History}

/-- The records of nested transactions form a stack. -/
theorem Nested.stacked {op : TransOp} (hn : Nested h op) (hst : ∀ k, Stacked (h.opens k)) :
    (∀ k, Stacked ((h.step op).opens k)) ∧ InOrder h op ∧
      lengths (h.step op) = markStep (lengths h) op := by
  cases op with
  | write addr bs => exact ⟨hst, trivial, rfl⟩
  | begin k ptr length =>
    refine ⟨?_, fun tr htr => (hst k).lt htr, ?_⟩
    · intro k'
      by_cases hk : k' = k
      · subst hk
        simp only [History.step, update_self]
        exact ⟨rfl, hst k'⟩
      · simp only [History.step, update_of_ne hk]
        exact hst k'
    · funext k'
      by_cases hk : k' = k
      · subst hk
        simp [lengths, History.step, markStep]
      · simp [lengths, History.step, markStep, hk]
  | commit k ptr =>
    obtain ⟨tr, rest, heq, hptr, hopens⟩ := hn.opens_eq
    refine ⟨?_, ⟨tr, by rw [heq]; exact List.mem_cons_self, hptr⟩, ?_⟩
    · intro k'
      rw [hopens]
      by_cases hk : k' = k
      · subst hk
        rw [update_self]
        have hst' := hst k'
        rw [heq] at hst'
        exact hst'.2
      · rw [update_of_ne hk]
        exact hst k'
    · funext k'
      by_cases hk : k' = k
      · subst hk
        simp [lengths, hopens, markStep, heq]
      · simp [lengths, hopens, markStep, hk]

/-- A nested run that gets through. -/
theorem Agrees.nested_run {ops : List TransOp} (ha : Agrees s h (lengths h))
    (hst : ∀ k, Stacked (h.opens k)) (hops : Throughout Nested h ops) {rs : List Unit}
    (hrun : runSteps transStep ops s = some (rs, s')) :
    Agrees s' (ops.foldl History.step h) (lengths (ops.foldl History.step h)) ∧
      ∀ k, Stacked ((ops.foldl History.step h).opens k) := by
  induction ops generalizing s h rs with
  | nil =>
    cases hrun
    exact ⟨ha, hst⟩
  | cons op ops ih =>
    obtain ⟨u, s₁, rs', hop, hrest, -⟩ := runSteps_cons_eq_some.mp hrun
    obtain ⟨hst₁, hord, hlen⟩ := Nested.stacked hops.1 hst
    have ha₁ := ha.step hord hop
    rw [← hlen] at ha₁
    exact ih ha₁ hst₁ hops.2 hrest

/-- The cursors say how much is open. -/
theorem Agrees.cursors_eq (ha : Agrees s h (lengths h)) (k : LogKind) :
    cursors s k = (sizeofRecord * (h.opens k).length,
      ((h.opens k).map fun tr => tr.bytes.length).sum,
      ((h.opens k).map fun tr => tr.bytes.length).sum) := by
  have hcount := ha.count k
  have hsum : (lengths h k).sum = ((h.opens k).map fun tr => tr.bytes.length).sum :=
    List.sum_reverse _
  cases k with
  | obj => rw [cursors, ha.obj.currec, ha.obj.curdatptr, ha.obj.dataoff, hcount, hsum]
  | wrd => rw [cursors, ha.wrd.currec, ha.wrd.curdatptr, ha.wrd.dataoff, hcount, hsum]

/-- A balanced sequence leaves open what was open before it. -/
theorem opens_of_balanced {k : LogKind} {ops : List TransOp} {extra base : List OpenTrans}
    (hopen : h.opens k = extra ++ base) (hbal : BalancedFrom k extra.length ops)
    (hops : Throughout Nested h ops) : (ops.foldl History.step h).opens k = base := by
  induction ops generalizing h extra with
  | nil =>
    rw [List.length_eq_zero_iff.mp hbal, List.nil_append] at hopen
    exact hopen
  | cons op ops ih =>
    obtain ⟨hop, hrest⟩ := hops
    cases op with
    | write addr bs => exact ih hopen hbal hrest
    | begin k' ptr length =>
      by_cases hk : k' = k
      · subst hk
        rw [BalancedFrom, if_pos rfl] at hbal
        have hopen' : (h.step (.begin k' ptr length)).opens k' =
            (⟨ptr, (h.opens k').length, slice h.mem ptr (copyLength length k')⟩ :: extra) ++
            base := by
          simp [History.step, hopen]
        exact ih hopen' hbal hrest
      · rw [BalancedFrom, if_neg hk] at hbal
        refine ih ?_ hbal hrest
        simp only [History.step, update_of_ne (Ne.symm hk)]
        exact hopen
    | commit k' ptr =>
      obtain ⟨tr, rest, heq, -, hopens⟩ := Nested.opens_eq hop
      by_cases hk : k' = k
      · subst hk
        obtain ⟨hpos, hbal⟩ := hbal
        rw [if_pos rfl] at hbal
        cases extra with
        | nil => exact absurd (hpos rfl) (lt_irrefl _)
        | cons tr' extra =>
          rw [hopen] at heq
          have hopen' : (h.step (.commit k' ptr)).opens k' = extra ++ base := by
            rw [hopens, update_self]
            exact (List.cons.inj heq).2.symm
          exact ih hopen' hbal hrest
      · obtain ⟨-, hbal⟩ := hbal
        rw [if_neg hk] at hbal
        refine ih ?_ hbal hrest
        rw [hopens, update_of_ne (Ne.symm hk)]
        exact hopen

end Nested

section Progress

variable {s : Logs} {h : History}

/-- A nested call that fits gets through. -/
theorem Agrees.isSome_step (ha : Agrees s h (lengths h)) {op : TransOp} (hn : Nested h op)
    (hf : FitsLogs h op) (hne : op.NonEmpty) : (transStep s op).isSome = true := by
  cases op with
  | write addr bs => rfl
  | begin k ptr length =>
    obtain ⟨hptr, hroom, hfit⟩ := hf
    have hroom' : (lengths h k).length < maxNestedTrans := by rwa [ha.count]
    have hbytes : (slice s.mem ptr (copyLength length k)).length = copyLength length k :=
      length_slice ..
    have hsum : (lengths h k).sum + (slice s.mem ptr (copyLength length k)).length ≤
        transDataLogsz := by
      rw [hbytes, lengths, List.sum_reverse]
      exact hfit
    cases k with
    | obj =>
      obtain ⟨l₁, l₂, hstart, hrec, hdat, happ⟩ := ha.obj.exists_begin hroom' le_rfl hsum
      have hin : ¬ (transLogsz ≤ l₁.currec ∨ transDataLogsz ≤ l₁.curdatptr ∨ ptr = 0) := by
        rw [hbytes] at hsum
        rw [hrec, hdat, ha.obj.currec, ha.obj.curdatptr]
        simp only [TransOp.NonEmpty] at hne
        simp only [copyLength, maxNestedTrans, sizeofRecord, transLogsz] at *
        omega
      rw [transStep, logRecord, hstart, bind_some, addObjRecord, if_neg hin]
      exact congrArg Option.isSome (congrArg (Option.map _) (congrArg (Option.map _) happ))
    | wrd =>
      obtain ⟨l₁, l₂, hstart, -, -, happ⟩ :=
        ha.wrd.exists_begin hroom' (by decide : sizeofMaster ≤ _) hsum
      rw [transStep, logRecord, hstart, bind_some, ha.addWordRecord_eq hstart, if_neg hptr]
      exact congrArg Option.isSome (congrArg (Option.map _) (congrArg (Option.map _) happ))
  | commit k ptr =>
    obtain ⟨tr, rest, heq, -, -⟩ := hn.opens_eq
    have hmarks : lengths h k ≠ [] := by
      rw [lengths, heq]
      simp
    cases k with
    | obj =>
      obtain ⟨l, hl, -⟩ := ha.obj.end_trans hmarks (List.Subset.refl _) id
      simp [transStep, updateOncommit, endObjTrans, hl]
    | wrd =>
      obtain ⟨l, hl, -⟩ := ha.wrd.end_trans hmarks (List.Subset.refl _) (uintSub s.wrd.headeroff)
      simp [transStep, updateOncommit, endWrdTrans, hl]

/-- A nested run that fits gets through. -/
theorem Agrees.isSome_run {ops : List TransOp} (ha : Agrees s h (lengths h))
    (hst : ∀ k, Stacked (h.opens k)) (hn : Throughout Nested h ops)
    (hf : Throughout FitsLogs h ops) (hne : ∀ op ∈ ops, op.NonEmpty) :
    (runSteps transStep ops s).isSome = true := by
  induction ops generalizing s h with
  | nil => rfl
  | cons op ops ih =>
    have hsome := ha.isSome_step hn.1 hf.1 (hne op List.mem_cons_self)
    obtain ⟨⟨u, s₁⟩, hop⟩ := isSome_iff_exists.mp hsome
    obtain ⟨hst₁, hord, hlen⟩ := Nested.stacked hn.1 hst
    have ha₁ := ha.step hord hop
    rw [← hlen] at ha₁
    rw [runSteps_cons hop, isSome_map]
    exact ih ha₁ hst₁ hn.2 hf.2 fun op' hop' => hne op' (List.mem_cons_of_mem _ hop')

end Progress

theorem Throughout.append {P : History → TransOp → Prop} {h : History} {ops ops' : List TransOp}
    (hops : Throughout P h (ops ++ ops')) :
    Throughout P h ops ∧ Throughout P (ops.foldl History.step h) ops' := by
  induction ops generalizing h with
  | nil => exact ⟨trivial, hops⟩
  | cons op ops ih => exact ⟨⟨hops.1, (ih hops.2).1⟩, (ih hops.2).2⟩

/-- **Nested undo transactions** of both logs keep their data; a balanced sequence leaves
all cursors where they were; and no call fails on objects that have a length. -/
theorem nested_recordsSurvive (m : ℕ → UInt8) (ops : List TransOp)
    (hn : Throughout Nested { mem := m } ops) (hf : Throughout FitsLogs { mem := m } ops) :
    RecordsSurvive m ops ∧
      (∀ pre mid, ops = pre ++ mid → (∀ k, BalancedFrom k 0 mid) → ∀ {rs s rs' s'},
        runSteps transStep pre { mem := m } = some (rs, s) →
        runSteps transStep mid s = some (rs', s') → ∀ k, cursors s' k = cursors s k) ∧
      ((∀ op ∈ ops, op.NonEmpty) → (runSteps transStep ops { mem := m }).isSome = true) := by
  have hinit : Agrees { mem := m } { mem := m } (lengths { mem := m }) := Agrees.initial m
  have hst : ∀ k, Stacked (({ mem := m } : History).opens k) := fun _ => trivial
  refine ⟨?_, ?_, ?_⟩
  · intro rs s hrun k tr htr
    exact (hinit.nested_run hst hn hrun).1.located htr
  · rintro pre mid rfl hbal rs s rs' s' hpre hmid k
    obtain ⟨hnpre, hnmid⟩ := hn.append
    obtain ⟨ha, hst₁⟩ := hinit.nested_run hst hnpre hpre
    obtain ⟨ha', -⟩ := ha.nested_run hst₁ hnmid hmid
    have hopens := opens_of_balanced (List.nil_append _).symm (hbal k) hnmid
    rw [ha'.cursors_eq, ha.cursors_eq, hopens]
  · exact hinit.isSome_run hst hn hf

instance (h : History) (op : TransOp) : Decidable (Nested h op) := by
  cases op <;> unfold Nested <;> infer_instance

instance (h : History) (op : TransOp) : Decidable (FitsLogs h op) := by
  cases op <;> unfold FitsLogs <;> infer_instance

/-- An object transaction around a word transaction. -/
def nestedCalls : List TransOp :=
  [.begin .obj 64 8, .write 64 [7], .begin .wrd 128 8, .write 128 [9], .commit .wrd 128]

theorem recordsSurvive_nestedCalls : RecordsSurvive tellingMemory nestedCalls ∧
    (runSteps transStep nestedCalls { mem := tellingMemory }).isSome = true := by
  obtain ⟨hsurvive, -, hrun⟩ := nested_recordsSurvive tellingMemory nestedCalls
    (by decide +kernel) (by decide +kernel)
  refine ⟨hsurvive, hrun ?_⟩
  intro op hop
  fin_cases hop <;> simp [TransOp.NonEmpty]
