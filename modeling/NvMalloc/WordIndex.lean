/-
# The index of logged words

`wrdloghash` leads from the address of a word to a record of the word log, and `read_log` reads
the word that this record names.  `add_redo_word_record` enters the record that it has written.
`add_word_record`, with `use_wal`, enters the cursor after it has been advanced, which is the
record of the next append.  And `end_wrd_trans` takes the cursor back and erases one address
only, so that later appends overwrite records that are still in the index.

The appends are numbered here, so that one can say which of them wrote a record last and which
was the last for a word.
-/
import NvMalloc.LogMngr

open Function

/-! ## Calls -/

/-- The appends so far: how many, which of them wrote the record at an address last, and for
each word the last one, with the first word that it logged. -/
structure Appends where
  count : ℕ := 0
  writer : ℕ → Option ℕ := fun _ => none
  last : ℕ → Option (ℕ × List UInt8) := fun _ => none

/-- One more append: for `ptr`, at the record `wordrec`. -/
def Appends.add (a : Appends) (wordrec ptr : ℕ) (word : List UInt8) : Appends where
  count := a.count + 1
  writer := update a.writer wordrec (some a.count)
  last := update a.last ptr (some (a.count, word))

section Add

variable (a : Appends) (wordrec ptr : ℕ) (word : List UInt8)

@[simp] theorem Appends.writer_add : (a.add wordrec ptr word).writer =
    update a.writer wordrec (some a.count) := rfl

@[simp] theorem Appends.last_add : (a.add wordrec ptr word).last =
    update a.last ptr (some (a.count, word)) := rfl

end Add

/-- The log manager and its history. -/
structure IndexedLog where
  mngr : LogMngr
  appends : Appends := {}

/-- The calls that use the index. -/
inductive WordCall where
  | startTrans
  | addWordRecord (mem : ℕ → UInt8) (dateptr : ℕ)
  | addRedoWordRecord (dateptr : ℕ) (value : Word)
  | endTrans (dataptr : ℕ)

/-- A word record with `n` bytes fits. -/
def HasRoom (maps : LogMaps) (s : LogMngr) (n : ℕ) : Prop :=
  (s.log .wrd).currec + sizeofRecord ≤ maps.base (.records .wrd) + transLogsz ∧
    (s.log .wrd).curdatptr + n ≤ maps.base (.data .wrd) + transDataLogsz

instance (maps : LogMaps) (s : LogMngr) (n : ℕ) : Decidable (HasRoom maps s n) := instDecidableAnd

/-- A call within the capacity of the log.  `add_word_record` is a call of the build with
`use_wal`. -/
def wordCall (maps : LogMaps) (x : IndexedLog) : WordCall → Option (Unit × IndexedLog)
  | .startTrans =>
    if (x.mngr.log .wrd).nstdCntr < maxNestedTrans then
      some ((), { x with mngr := x.mngr.startTrans .wrd }) else none
  | .addWordRecord mem dateptr =>
    if x.mngr.useWal ∧ HasRoom maps x.mngr cacheLineSize then
      (x.mngr.addWordRecord mem dateptr).map fun y => ((), ⟨y.2, x.appends.add
        (x.mngr.log .wrd).wrapped.currec dateptr (slice mem dateptr sizeofNvword)⟩) else none
  | .addRedoWordRecord dateptr value =>
    if HasRoom maps x.mngr sizeofNvword then
      (x.mngr.addRedoWordRecord dateptr value).map fun y => ((), ⟨y.2, x.appends.add
        (x.mngr.log .wrd).wrapped.currec dateptr (toLE sizeofNvword value.toNat)⟩) else none
  | .endTrans dataptr => some ((), { x with mngr := x.mngr.endTrans dataptr .wrd })

/-- Every address in the index leads to the record that the last append for it wrote, and
`read_log` returns the word that this append logged. -/
def IndexRight (x : IndexedLog) : Prop :=
  ∀ p wordrec, x.mngr.wrdloghash p = some wordrec →
    ∃ n word, x.appends.last p = some (n, word) ∧ x.appends.writer wordrec = some n ∧
      ∀ mem, x.mngr.readLog mem p = word

/-- The calls that keep the index right: begins and commits, and appends of
`add_redo_word_record` at a record that no other word of the index has. -/
def KeepsIndex (x : IndexedLog) : WordCall → Prop
  | .addWordRecord _ _ => False
  | .addRedoWordRecord dateptr _ =>
    ∀ p, p ≠ dateptr → x.mngr.wrdloghash p ≠ some (x.mngr.log .wrd).currec
  | _ => True

/-! ## Positions -/

/-- The address of record number `n`, or the null pointer. -/
def recAt (l : LogGlobals) : WithBot ℕ → ℕ
  | none => 0
  | some n => l.recmap + sizeofRecord * n

/-- The address of word number `n`, or the null pointer. -/
def datAt (l : LogGlobals) : WithBot ℕ → ℕ
  | none => 0
  | some n => l.datmap + sizeofNvword * n

@[simp] theorem recAt_coe (l : LogGlobals) (n : ℕ) : recAt l n = l.recmap + sizeofRecord * n := rfl

@[simp] theorem datAt_coe (l : LogGlobals) (n : ℕ) : datAt l n = l.datmap + sizeofNvword * n := rfl

/-- A word log with records of single words only: the cursors stand at the same number, as do the
positions on the stack; these increase up to the cursor. -/
structure Paired (maps : LogMaps) (l : LogGlobals) (cur : WithBot ℕ) (pos : ℕ → WithBot ℕ) :
    Prop where
  recmap : l.recmap = maps.base (.records .wrd) + LogKind.wrd.masterRoom
  datmap : l.datmap = maps.base (.data .wrd)
  depth : l.nstdCntr ≤ maxNestedTrans
  currec : l.currec = recAt l cur
  curdatptr : l.curdatptr = datAt l cur
  dataoff : ∀ n : ℕ, cur = n → l.dataoff = sizeofNvword * n
  room : ∀ n : ℕ, cur = n → sizeofNvword * n ≤ transDataLogsz
  rechead : ∀ i, l.rechead i = recAt l (pos i)
  datahead : ∀ i, l.datahead i = datAt l (pos i)
  below : ∀ i, i < max l.nstdCntr 1 → pos i ≤ cur
  ordered : ∀ i j, i ≤ j → j < l.nstdCntr → pos i ≤ pos j

theorem paired_initLogmngr (maps : LogMaps) :
    Paired maps (initLogmngr maps .wrd) (0 : ℕ) fun _ => ⊥ where
  recmap := rfl
  datmap := rfl
  depth := Nat.zero_le _
  currec := rfl
  curdatptr := rfl
  dataoff n hn := by
    obtain rfl : 0 = n := WithBot.coe_injective hn
    rfl
  room n hn := by
    obtain rfl : 0 = n := WithBot.coe_injective hn
    exact Nat.zero_le _
  rechead _ := rfl
  datahead _ := rfl
  below _ _ := bot_le
  ordered _ _ _ _ := bot_le

namespace Paired

variable {maps : LogMaps} {l : LogGlobals} {cur : WithBot ℕ} {pos : ℕ → WithBot ℕ}

section

variable (h : Paired maps l cur pos)
include h

theorem startTrans (hdepth : l.nstdCntr < maxNestedTrans) :
    Paired maps l.startTrans cur (update pos l.nstdCntr cur) := by
  have hcntr : l.startTrans.nstdCntr = l.nstdCntr + 1 := by
    show (l.nstdCntr + 1) % 2 ^ 32 = _
    simp only [maxNestedTrans] at hdepth
    omega
  have hbelow : ∀ i, i < l.nstdCntr → pos i ≤ cur := fun i hi =>
    h.below i (hi.trans_le (le_max_left _ _))
  constructor
  case recmap => exact h.recmap
  case datmap => exact h.datmap
  case depth =>
    rw [hcntr]
    exact hdepth
  case currec => exact h.currec
  case curdatptr => exact h.curdatptr
  case dataoff => exact h.dataoff
  case room => exact h.room
  case rechead =>
    intro i
    show update l.rechead l.nstdCntr l.currec i = recAt l _
    rcases eq_or_ne i l.nstdCntr with rfl | hne
    · rw [update_self, update_self, h.currec]
    · rw [update_of_ne hne, update_of_ne hne, h.rechead]
  case datahead =>
    intro i
    show update l.datahead l.nstdCntr l.curdatptr i = datAt l _
    rcases eq_or_ne i l.nstdCntr with rfl | hne
    · rw [update_self, update_self, h.curdatptr]
    · rw [update_of_ne hne, update_of_ne hne, h.datahead]
  case below =>
    intro i hi
    rw [hcntr, max_eq_left (by omega)] at hi
    rcases eq_or_ne i l.nstdCntr with rfl | hne
    · rw [update_self]
    · rw [update_of_ne hne]
      exact hbelow i (by omega)
  case ordered =>
    intro i j hij hj
    rw [hcntr] at hj
    rcases eq_or_ne j l.nstdCntr with rfl | hne
    · rw [update_self]
      rcases eq_or_ne i l.nstdCntr with rfl | hne'
      · rw [update_self]
      · rw [update_of_ne hne']
        exact hbelow i (by omega)
    · rw [update_of_ne hne, update_of_ne (by omega)]
      exact h.ordered i j hij (by omega)

/-- A commit goes back to the top of the stack, or, at depth 0, to slot 0. -/
theorem endTrans (off : ℕ) : Paired maps (l.endTrans off) (pos (l.nstdCntr - 1)) pos := by
  have htop : pos (l.nstdCntr - 1) ≤ cur := h.below _ (by omega)
  have hbound : transDataLogsz < 2 ^ 32 := by decide
  -- the position of the cursor, when it is not null
  have hcur : ∀ n : ℕ, pos (l.nstdCntr - 1) = n → ∃ m : ℕ, cur = m ∧ n ≤ m := by
    intro n hn
    rw [hn] at htop
    obtain ⟨m, hm, hle⟩ := WithBot.le_iff_forall.mp htop n rfl
    exact ⟨m, hm, hle⟩
  constructor
  case recmap => exact h.recmap
  case datmap => exact h.datmap
  case depth => exact (Nat.sub_le _ _).trans h.depth
  case currec => exact h.rechead _
  case curdatptr => exact h.datahead _
  case dataoff =>
    intro n hn
    obtain ⟨m, hm, hle⟩ := hcur n hn
    have hroom := h.room m hm
    show uintSub l.dataoff (reduceOffset l.curdatptr (l.datahead (l.nstdCntr - 1))) = _
    rw [h.dataoff m hm, h.curdatptr, h.datahead, hn, hm, datAt_coe, datAt_coe]
    simp only [sizeofNvword] at hroom ⊢
    rw [uintSub_reduceOffset (by omega) (by omega) (by omega)]
    omega
  case room =>
    intro n hn
    obtain ⟨m, hm, hle⟩ := hcur n hn
    exact (Nat.mul_le_mul_left _ hle).trans (h.room m hm)
  case rechead => exact h.rechead
  case datahead => exact h.datahead
  case below =>
    intro i hi
    have hcntr : (l.endTrans off).nstdCntr = l.nstdCntr - 1 := rfl
    rw [hcntr] at hi
    rcases Nat.lt_or_ge i (l.nstdCntr - 1) with hlt | hge
    · exact h.ordered i _ hlt.le (by omega)
    · obtain rfl : i = l.nstdCntr - 1 := by omega
      exact le_rfl
  case ordered => exact fun i j hij hj => h.ordered i j hij (hj.trans_le (Nat.sub_le _ _))

/-- The number of the cursor, when it is not null. -/
theorem exists_cur (hrec : l.currec ≠ 0) : ∃ n : ℕ, cur = n := by
  cases cur with
  | bot => exact absurd h.currec hrec
  | coe n => exact ⟨n, rfl⟩

/-- With room the cursors are not wrapped. -/
theorem wrapped_eq {n : ℕ} (hn : 0 < n)
    (hrec : l.currec + sizeofRecord ≤ maps.base (.records .wrd) + transLogsz)
    (hdat : l.curdatptr + n ≤ maps.base (.data .wrd) + transDataLogsz) : l.wrapped = l := by
  refine LogGlobals.ready_eq (k := .wrd) ?_ ?_
  · rw [h.recmap]
    simp only [sizeofRecord] at hrec
    omega
  · rw [h.datmap]
    omega

end

/-- An append of a word. -/
theorem advance {n : ℕ} (h : Paired maps l n pos)
    (hdat : l.curdatptr + sizeofNvword ≤ maps.base (.data .wrd) + transDataLogsz) :
    Paired maps (l.advance sizeofNvword) (n + 1 : ℕ) pos := by
  have hnext : ((n : ℕ) : WithBot ℕ) ≤ (n + 1 : ℕ) := WithBot.coe_le_coe.mpr (Nat.le_succ n)
  have hroom : sizeofNvword * (n + 1) ≤ transDataLogsz := by
    rw [h.curdatptr, datAt_coe, h.datmap] at hdat
    rw [Nat.mul_succ]
    omega
  have hbound : transDataLogsz < 2 ^ 32 := by decide
  constructor
  case recmap => exact h.recmap
  case datmap => exact h.datmap
  case depth => exact h.depth
  case currec =>
    show l.currec + sizeofRecord = l.recmap + sizeofRecord * (n + 1)
    rw [h.currec, recAt_coe, Nat.mul_succ, Nat.add_assoc]
  case curdatptr =>
    show l.curdatptr + sizeofNvword = l.datmap + sizeofNvword * (n + 1)
    rw [h.curdatptr, datAt_coe, Nat.mul_succ, Nat.add_assoc]
  case dataoff =>
    intro k hk
    obtain rfl : n + 1 = k := WithBot.coe_injective hk
    show (l.dataoff + sizeofNvword) % 2 ^ 32 = _
    rw [h.dataoff n rfl, ← Nat.mul_succ]
    exact Nat.mod_eq_of_lt (hroom.trans_lt hbound)
  case room =>
    intro k hk
    obtain rfl : n + 1 = k := WithBot.coe_injective hk
    exact hroom
  case rechead => exact h.rechead
  case datahead => exact h.datahead
  case below => exact fun i hi => (h.below i hi).trans hnext
  case ordered => exact h.ordered

end Paired

/-! ## The index along a run -/

/-- The entries of the index as long as only `add_redo_word_record` makes them. -/
structure IndexInv (maps : LogMaps) (x : IndexedLog) : Prop where
  paired : ∃ cur pos, Paired maps (x.mngr.log .wrd) cur pos
  entry : ∀ {p wordrec}, x.mngr.wrdloghash p = some wordrec →
    ∃ k, wordrec = (x.mngr.log .wrd).recmap + sizeofRecord * k ∧
      x.mngr.wrdrecs wordrec = ⟨sizeofNvword * k⟩
  right : IndexRight x
  writer : ∀ {r n}, x.appends.writer r = some n → n < x.appends.count
  last : ∀ {p n word}, x.appends.last p = some (n, word) → n < x.appends.count

theorem indexInv_initializeLogmgr (maps : LogMaps) (useWal : Bool) :
    IndexInv maps ⟨initializeLogmgr maps useWal, {}⟩ where
  paired := ⟨_, _, paired_initLogmngr maps⟩
  entry h := by cases h
  right _ _ h := by cases h
  writer h := by cases h
  last h := by cases h

/-- The numbers of the appends stay below their count. -/
theorem Appends.writer_lt {a : Appends} (h : ∀ {r n}, a.writer r = some n → n < a.count)
    {q ptr r n : ℕ} {word : List UInt8} (hr : (a.add q ptr word).writer r = some n) :
    n < a.count + 1 := by
  rcases eq_or_ne r q with rfl | hne
  · rw [writer_add, update_self] at hr
    cases hr
    exact Nat.lt_succ_self _
  · rw [writer_add, update_of_ne hne] at hr
    exact (h hr).trans (Nat.lt_succ_self _)

theorem Appends.last_lt {a : Appends} (h : ∀ {p n word}, a.last p = some (n, word) → n < a.count)
    {q ptr p n : ℕ} {word word' : List UInt8}
    (hp : (a.add q ptr word).last p = some (n, word')) : n < a.count + 1 := by
  rcases eq_or_ne p ptr with rfl | hne
  · rw [last_add, update_self] at hp
    cases hp
    exact Nat.lt_succ_self _
  · rw [last_add, update_of_ne hne] at hp
    exact (h hp).trans (Nat.lt_succ_self _)

namespace IndexInv

variable {maps : LogMaps} {x x' : IndexedLog} {s : LogMngr}

/-- A call that leaves the records, the words and the history alone and adds no entry. -/
theorem keep (h : IndexInv maps x) (hpaired : ∃ cur pos, Paired maps (s.log .wrd) cur pos)
    (hhash : ∀ {p wordrec}, s.wrdloghash p = some wordrec → x.mngr.wrdloghash p = some wordrec)
    (hrecs : s.wrdrecs = x.mngr.wrdrecs) (hdata : s.data = x.mngr.data) :
    IndexInv maps ⟨s, x.appends⟩ := by
  obtain ⟨cur, pos, hpos⟩ := h.paired
  obtain ⟨cur', pos', hpos'⟩ := hpaired
  have hrecmap : (s.log .wrd).recmap = (x.mngr.log .wrd).recmap :=
    hpos'.recmap.trans hpos.recmap.symm
  have hdatmap : (s.log .wrd).datmap = (x.mngr.log .wrd).datmap :=
    hpos'.datmap.trans hpos.datmap.symm
  refine ⟨⟨cur', pos', hpos'⟩, ?_, ?_, h.writer, h.last⟩
  · intro p wordrec hp
    obtain ⟨k, hk, hrec⟩ := h.entry (hhash hp)
    exact ⟨k, by rw [hk, hrecmap], by rw [hrecs, hrec]⟩
  · intro p wordrec hp
    obtain ⟨n, word, hlast, hwriter, hread⟩ := h.right p wordrec (hhash hp)
    refine ⟨n, word, hlast, hwriter, fun mem => ?_⟩
    rw [← hread mem, LogMngr.readLog_of_entry (hhash hp), LogMngr.readLog_of_entry hp, hrecs, hdata,
      hdatmap]

/-- `add_word_record` enters a record that it has not written. -/
theorem not_indexRight_addWordRecord (h : IndexInv maps x) {mem : ℕ → UInt8} {dateptr : ℕ}
    {ws : List LogWrite} (hwal : x.mngr.useWal = true)
    (hcall : x.mngr.addWordRecord mem dateptr = some (ws, s)) (word : List UInt8) :
    ¬ IndexRight ⟨s, x.appends.add (x.mngr.log .wrd).wrapped.currec dateptr word⟩ := by
  intro hright
  have hhash := LogMngr.wrdloghash_addWordRecord hcall
  rw [hwal, if_pos rfl] at hhash
  obtain ⟨n, word', hlast, hwriter, -⟩ := hright dateptr
    ((x.mngr.log .wrd).wrapped.currec + sizeofRecord) (by
      show s.wrdloghash dateptr = _
      rw [hhash, update_self])
  rw [Appends.last_add, update_self] at hlast
  cases hlast
  -- the record after the one written was last written by an older append
  rw [Appends.writer_add, update_of_ne (by simp [sizeofRecord])] at hwriter
  exact absurd (h.writer hwriter) (Nat.lt_irrefl _)

/-- `add_redo_word_record` keeps the index right exactly if no other word has the record. -/
theorem addRedoWordRecord (h : IndexInv maps x) {dateptr : ℕ} {value : Word} {ws : List LogWrite}
    (hroom : HasRoom maps x.mngr sizeofNvword)
    (hcall : x.mngr.addRedoWordRecord dateptr value = some (ws, s)) :
    (IndexRight ⟨s, x.appends.add (x.mngr.log .wrd).wrapped.currec dateptr
        (toLE sizeofNvword value.toNat)⟩ ↔ KeepsIndex x (.addRedoWordRecord dateptr value)) ∧
      (KeepsIndex x (.addRedoWordRecord dateptr value) →
        IndexInv maps ⟨s, x.appends.add (x.mngr.log .wrd).wrapped.currec dateptr
          (toLE sizeofNvword value.toNat)⟩) := by
  obtain ⟨cur, pos, hpos⟩ := h.paired
  have hwrap : (x.mngr.log .wrd).wrapped = x.mngr.log .wrd :=
    hpos.wrapped_eq (by decide : 0 < sizeofNvword) hroom.1 hroom.2
  obtain ⟨hne, hlog, hrecs, hdata, hhash⟩ := LogMngr.addRedoWordRecord_eq hcall
  rw [hwrap] at hlog hrecs hdata hhash ⊢
  obtain ⟨m, rfl⟩ := hpos.exists_cur hne
  have hcurrec := hpos.currec
  have hcurdat := hpos.curdatptr
  rw [recAt_coe] at hcurrec
  rw [datAt_coe] at hcurdat
  have hrecmap : (s.log .wrd).recmap = (x.mngr.log .wrd).recmap := by rw [hlog]; rfl
  have hdatmap : (s.log .wrd).datmap = (x.mngr.log .wrd).datmap := by rw [hlog]; rfl
  have hother : ∀ {p wordrec}, p ≠ dateptr → s.wrdloghash p = some wordrec →
      x.mngr.wrdloghash p = some wordrec := by
    intro p wordrec hp hentry
    rwa [hhash, update_of_ne hp] at hentry
  have hkeep : KeepsIndex x (.addRedoWordRecord dateptr value) →
      IndexInv maps ⟨s, x.appends.add (x.mngr.log .wrd).currec dateptr
        (toLE sizeofNvword value.toNat)⟩ := by
    intro hfree
    refine ⟨⟨_, pos, by rw [hlog]; exact hpos.advance hroom.2⟩, ?_, ?_, Appends.writer_lt h.writer,
      Appends.last_lt h.last⟩
    · intro p wordrec hp
      rcases eq_or_ne p dateptr with rfl | hpne
      · rw [hhash, update_self] at hp
        cases hp
        exact ⟨m, by rw [hrecmap, hcurrec], by rw [hrecs, update_self, hpos.dataoff m rfl]⟩
      · have hold := hother hpne hp
        obtain ⟨k, hk, hrec⟩ := h.entry hold
        have hrne : wordrec ≠ (x.mngr.log .wrd).currec := by
          rintro rfl
          exact hfree p hpne hold
        exact ⟨k, by rw [hrecmap, hk], by rw [hrecs, update_of_ne hrne, hrec]⟩
    · intro p wordrec hp
      rcases eq_or_ne p dateptr with rfl | hpne
      · have hself : wordrec = (x.mngr.log .wrd).currec := by
          rw [hhash, update_self] at hp
          exact (Option.some.inj hp).symm
        subst hself
        refine ⟨_, _, update_self .., update_self .., fun mem => ?_⟩
        rw [LogMngr.readLog_of_entry hp, hrecs, update_self, hpos.dataoff m rfl, hdatmap,
          ← hcurdat, hdata]
        have hself := slice_blit_self (x.mngr.data .wrd) (x.mngr.log .wrd).curdatptr
          (toLE sizeofNvword value.toNat)
        rwa [length_toLE] at hself
      · have hold := hother hpne hp
        obtain ⟨n, word, hlast, hwriter, hread⟩ := h.right p wordrec hold
        obtain ⟨k, hk, hrec⟩ := h.entry hold
        have hrne : wordrec ≠ (x.mngr.log .wrd).currec := by
          rintro rfl
          exact hfree p hpne hold
        have hkm : k ≠ m := by
          rintro rfl
          exact hrne (hk.trans hcurrec.symm)
        refine ⟨n, word, ?_, ?_, fun mem => ?_⟩
        · rw [Appends.last_add, update_of_ne hpne, hlast]
        · rw [Appends.writer_add, update_of_ne hrne, hwriter]
        · -- another record has another word
          rw [← hread mem, LogMngr.readLog_of_entry hp, LogMngr.readLog_of_entry hold, hrecs,
            update_of_ne hrne, hrec, hdata, hdatmap, hcurdat]
          refine slice_blit_of_disjoint ?_
          rw [length_toLE]
          simp only [sizeofNvword]
          omega
  refine ⟨⟨?_, fun hfree => (hkeep hfree).right⟩, hkeep⟩
  intro hright p hpne hold
  -- the record of `p` would have been written by the new append
  obtain ⟨n, word, hlast, hwriter, -⟩ := hright p (x.mngr.log .wrd).currec (by
    show s.wrdloghash p = _
    rw [hhash, update_of_ne hpne, hold])
  rw [Appends.last_add, update_of_ne hpne] at hlast
  rw [Appends.writer_add, update_self] at hwriter
  cases hwriter
  exact absurd (h.last hlast) (Nat.lt_irrefl _)

/-- A call keeps the index right exactly if it is one of those allowed. -/
theorem call (h : IndexInv maps x) {c : WordCall} {u : Unit}
    (hcall : wordCall maps x c = some (u, x')) :
    (IndexRight x' ↔ KeepsIndex x c) ∧ (KeepsIndex x c → IndexInv maps x') := by
  obtain ⟨cur, pos, hpos⟩ := h.paired
  cases c with
  | startTrans =>
    simp only [wordCall] at hcall
    split at hcall
    · next hdepth =>
      cases hcall
      have hkeep := h.keep (s := x.mngr.startTrans .wrd)
        ⟨cur, _, by rw [LogMngr.log_startTrans]; exact hpos.startTrans hdepth⟩
        id rfl rfl
      exact ⟨iff_of_true hkeep.right trivial, fun _ => hkeep⟩
    · cases hcall
  | endTrans dataptr =>
    cases hcall
    have hkeep := h.keep (s := x.mngr.endTrans dataptr .wrd)
      ⟨_, pos, by rw [LogMngr.log_endTrans_wrd]; exact hpos.endTrans _⟩
      LogMngr.wrdloghash_endTrans rfl rfl
    exact ⟨iff_of_true hkeep.right trivial, fun _ => hkeep⟩
  | addWordRecord mem dateptr =>
    simp only [wordCall] at hcall
    split at hcall
    · next hguard =>
      obtain ⟨⟨ws, s⟩, hadd, heq⟩ := Option.map_eq_some_iff.mp hcall
      cases heq
      have hnot := h.not_indexRight_addWordRecord hguard.1 hadd (slice mem dateptr sizeofNvword)
      exact ⟨iff_of_false hnot id, False.elim⟩
    · cases hcall
  | addRedoWordRecord dateptr value =>
    simp only [wordCall] at hcall
    split at hcall
    · next hroom =>
      obtain ⟨⟨ws, s⟩, hadd, heq⟩ := Option.map_eq_some_iff.mp hcall
      cases heq
      exact h.addRedoWordRecord hroom hadd
    · cases hcall

end IndexInv

/-- **The index is right after every call of a run exactly if `add_word_record` is not used and no
append reuses the record of another word that is still in the index.** -/
theorem indexRight_iff_of_run (maps : LogMaps) (useWal : Bool) {calls : List WordCall}
    {us : List Unit} {x : IndexedLog}
    (hrun : runSteps (wordCall maps) calls ⟨initializeLogmgr maps useWal, {}⟩ = some (us, x)) :
    EachStep (wordCall maps) (fun _ _ _ x' => IndexRight x') calls
        ⟨initializeLogmgr maps useWal, {}⟩ ↔
      Along (wordCall maps) KeepsIndex calls ⟨initializeLogmgr maps useWal, {}⟩ := by
  refine eachStep_iff_along (I := IndexInv maps) ?_ (indexInv_initializeLogmgr maps useWal) hrun
  intro x c u x' h hcall
  exact h.call hcall

/-- As long as nothing is taken back, `add_redo_word_record` writes behind every record of the
index. -/
theorem keepsIndex_of_redo {maps : LogMaps} {x : IndexedLog} (h : IndexInv maps x)
    (hbelow : ∀ p wordrec, x.mngr.wrdloghash p = some wordrec →
      wordrec < (x.mngr.log .wrd).currec) {calls : List WordCall}
    (hcalls : ∀ c ∈ calls, ∃ ptr value, c = .addRedoWordRecord ptr value) :
    Along (wordCall maps) KeepsIndex calls x := by
  induction calls generalizing x with
  | nil => trivial
  | cons c calls ih =>
    obtain ⟨ptr, value, rfl⟩ := hcalls c List.mem_cons_self
    have hkeeps : KeepsIndex x (.addRedoWordRecord ptr value) := by
      intro p _ hp
      exact absurd (hbelow p _ hp) (Nat.lt_irrefl _)
    refine ⟨hkeeps, ?_⟩
    intro u x' hcall
    refine ih ((h.call hcall).2 hkeeps) ?_ fun c' hc' => hcalls c' (List.mem_cons_of_mem _ hc')
    -- the new record is below the advanced cursor, and so are the old ones
    simp only [wordCall] at hcall
    split at hcall
    case isFalse => cases hcall
    case isTrue hroom =>
    obtain ⟨⟨ws, s⟩, hadd, heq⟩ := Option.map_eq_some_iff.mp hcall
    cases heq
    obtain ⟨cur, pos, hpos⟩ := h.paired
    have hwrap : (x.mngr.log .wrd).wrapped = x.mngr.log .wrd :=
      hpos.wrapped_eq (by decide : 0 < sizeofNvword) hroom.1 hroom.2
    obtain ⟨-, hlog, -, -, hhash⟩ := LogMngr.addRedoWordRecord_eq hadd
    rw [hwrap] at hlog hhash
    have hnext : (s.log .wrd).currec = (x.mngr.log .wrd).currec + sizeofRecord := by
      rw [hlog]
      rfl
    intro p wordrec hp
    show wordrec < (s.log .wrd).currec
    rw [hnext]
    simp only [hhash] at hp
    rcases eq_or_ne p ptr with rfl | hne
    · rw [update_self, Option.some.injEq] at hp
      rw [← hp]
      exact Nat.lt_add_of_pos_right (by decide)
    · rw [update_of_ne hne] at hp
      exact (hbelow p wordrec hp).trans_le (Nat.le_add_right _ _)

/-- Two words are logged, one of them twice. -/
def redoCalls : List WordCall :=
  [.addRedoWordRecord 64 1, .addRedoWordRecord 72 2, .addRedoWordRecord 64 3]

/-- Appends of the redo log alone keep the index right. -/
theorem indexRight_redoCalls :
    EachStep (wordCall sampleMaps) (fun _ _ _ x' => IndexRight x') redoCalls
      ⟨initializeLogmgr sampleMaps true, {}⟩ := by
  obtain ⟨⟨us, x⟩, hrun⟩ := Option.isSome_iff_exists.mp
    (show (runSteps (wordCall sampleMaps) redoCalls
      ⟨initializeLogmgr sampleMaps true, {}⟩).isSome by decide +kernel)
  refine (indexRight_iff_of_run sampleMaps true hrun).mpr ?_
  refine keepsIndex_of_redo (indexInv_initializeLogmgr sampleMaps true) (fun p _ hp => ?_) ?_
  · cases hp
  · simp [redoCalls]

/-- With `use_wal` the second line that is logged is read back as the first one; and after a
commit for another word the next append takes the record of a word that is in the index. -/
theorem not_indexRight_calls :
    ((runSteps (wordCall sampleMaps)
      [.addWordRecord (fun _ => 1) 64, .addWordRecord (fun _ => 2) 128]
      ⟨initializeLogmgr sampleMaps true, {}⟩).map
        fun y => (y.2.mngr.readLog (fun _ => 0) 128, y.2.appends.last 128)) =
        some (List.replicate 8 1, some (1, List.replicate 8 2)) ∧
      ((runSteps (wordCall sampleMaps) [.startTrans, .addRedoWordRecord 64 1, .endTrans 72,
        .addRedoWordRecord 80 2] ⟨initializeLogmgr sampleMaps true, {}⟩).map
        fun y => (y.2.mngr.readLog (fun _ => 0) 64, y.2.appends.last 64)) =
        some ([2, 0, 0, 0, 0, 0, 0, 0], some (0, [1, 0, 0, 0, 0, 0, 0, 0])) := by
  decide +kernel
