/-
# The redo log of words

In the redo build a transaction's stores go to a log and reach memory at the commit.
The log is two rings, one of word records and one of words, and a hash map from the
address to the record of the last store.  Neither ring is reset at a commit.

The rings are followed by the number of stores so far: store number `t` writes record
slot `t % 32768000` and data slot `t % 65536000`.  At most as many words as there are
record slots are stored between two commits, so no slot of a pending store is written
again (`Follows`).

Three things go wrong.  `init_wrd_logmngr` moves `wrdrecmap` past the master record but
`add_redo_word_record` still wraps at `wrdrecmap + TRANS_LOGSZ`, so the last two slots
reach beyond the mapping.  The loop of `commit_all` erases the entry of its iterator and
then advances the iterator, so it returns only when the log is empty.  And its body copies
only four bytes of a value that is not greater than `2^32 - 1`.
-/
import NvMalloc.Ring
import NvMalloc.Runs

open Function

/-- Size of the mapping of the word records. -/
def transLogsz : ℕ := 500 * 1024 * 1024 * 1

/-- Size of the mapping of the logged words. -/
def transDataLogsz : ℕ := 500 * 1024 * 1024 * 1

/-- `sizeof(master_s)`. -/
def sizeofMaster : ℕ := 24

/-- `sizeof(wrdrec_s)`: an address, a 32-bit offset and padding. -/
def sizeofWrdrec : ℕ := 16

/-- `sizeof(nvword_t)`. -/
def sizeofNvword : ℕ := 8

/-- An `nvword_t`. -/
abbrev Word := BitVec 64

/-- A pointer to an `nvword_t` of the application, as the number of the word. -/
structure WordPtr where
  word : ℕ
  ne_null : word ≠ 0
  deriving DecidableEq

/-- What lies above the mapping of the word records: `true` when the next page is mapped
and not used by anything else, as when the kernel puts the mapping right below the
object log's data area, which this build never touches. -/
structure LogLayout where
  pageAbove : Bool

/-- The `len` bytes at `wrdrecmap + off` can be accessed.  `wrdrecmap` itself lies
behind the master record. -/
def LogLayout.mapped (lay : LogLayout) (off len : ℕ) : Prop :=
  lay.pageAbove = true ∨ sizeofMaster + off + len ≤ transLogsz

instance (lay : LogLayout) (off len : ℕ) : Decidable (lay.mapped off len) := instDecidableOr

/-- The globals of the word log, and the memory of the application.  The cursors are
offsets from `wrdrecmap` and `wrddatmap`; `wrdrecmap` holds the `dataoff` field of each
record, `wrddatmap` each logged word. -/
structure WordLog where
  mem : WordPtr → Word
  wrdrecmap : ℕ → ℕ := fun _ => 0
  wrddatmap : ℕ → Word := fun _ => 0
  wrdloghash : WordPtr → Option ℕ := fun _ => none
  currwrdrec : ℕ := 0
  curdatwrdptr : ℕ := 0
  wrddataoff : ℕ := 0
  wrdheaderoff : ℕ := sizeofMaster
  reccount : ℕ := 0

/-! ## The functions of the log manager -/

/-- `add_redo_word_record`, and `none` where it writes outside the mapping. -/
def addRedoWordRecord (lay : LogLayout) (l : WordLog) (dateptr : WordPtr) (value : Word) :
    Option WordLog :=
  let currwrdrec := wrap transLogsz l.currwrdrec
  let wrdheaderoff := if transLogsz ≤ l.currwrdrec then 0 else l.wrdheaderoff
  let curdatwrdptr := wrap transDataLogsz l.curdatwrdptr
  let wrddataoff := if transDataLogsz ≤ l.curdatwrdptr then 0 else l.wrddataoff
  -- the field `dataoff` lies 8 bytes into the record
  if lay.mapped (currwrdrec + 8) 4 then
    some
      { l with
        wrddatmap := update l.wrddatmap curdatwrdptr value
        wrdrecmap := update l.wrdrecmap currwrdrec wrddataoff
        wrdloghash := update l.wrdloghash dateptr (some currwrdrec)
        wrddataoff := (wrddataoff + sizeofNvword) % 2 ^ 32
        wrdheaderoff := (wrdheaderoff + sizeofWrdrec) % 2 ^ 32
        curdatwrdptr := curdatwrdptr + sizeofNvword
        currwrdrec := currwrdrec + sizeofWrdrec
        reccount := (l.reccount + 1) % 2 ^ 32 }
  else none

/-- `read_log`: the logged word of the address, and the word in memory when there is
none. -/
def readLog (lay : LogLayout) (l : WordLog) (ptr : WordPtr) : Option Word :=
  match l.wrdloghash ptr with
  | none => some (l.mem ptr)
  | some wordrec =>
    if lay.mapped (wordrec + 8) 4 then some (l.wrddatmap (l.wrdrecmap wordrec)) else none

/-- `clear_data`. -/
def clearData (l : WordLog) (wordrec : ℕ) : WordLog :=
  { l with wrddatmap := update l.wrddatmap (l.wrdrecmap wordrec) 0 }

/-- `clear_wrdrec`. -/
def clearWrdrec (lay : LogLayout) (l : WordLog) (wordrec : ℕ) : Option WordLog :=
  if lay.mapped wordrec sizeofWrdrec then
    some { l with wrdrecmap := update l.wrdrecmap wordrec 0 }
  else none

/-- What `commit_all` leaves in a word that holds `old`.  A value that is not greater
than `2^32 - 1`, as a signed number, is copied with `memcpy(.., sizeof(unsigned int))`. -/
def commitValue (old value : Word) : Word :=
  if value.toInt > 4294967295 then value
  else old.extractLsb' 32 32 ++ value.extractLsb' 0 32

/-- The body of the loop of `commit_all`, for the entry of `first`. -/
def commitEntry (lay : LogLayout) (l : WordLog) (first : WordPtr) : Option WordLog :=
  (l.wrdloghash first).bind fun wordrec =>
    (readLog lay l first).bind fun value =>
      let l : WordLog :=
        { l with
          mem := update l.mem first (commitValue (l.mem first) value)
          wrdloghash := update l.wrdloghash first none }
      clearWrdrec lay (clearData l wordrec) wordrec

/-- `commit_all`, when the hash map is walked in the order `order`.  `++itr` reads the node of
the entry; when that has been erased the walk goes on in freed memory, and is undefined. -/
def commitAll (lay : LogLayout) : List WordPtr → WordLog → Option WordLog
  | [], l => some l
  | first :: order, l => do
    let l ← commitEntry lay l first
    guard ((l.wrdloghash first).isSome = true)
    commitAll lay order l

/-- A walk of the hash map meets every entry once. -/
def Enumerates (l : WordLog) (order : List WordPtr) : Prop :=
  order.Nodup ∧ ∀ a, a ∈ order ↔ (l.wrdloghash a).isSome = true

/-! ## Runs -/

/-- The calls of a program: `store_word`, `load_word` and `nvcommit_noarg`. -/
inductive LogOp
  | store (addr : WordPtr) (value : Word)
  | load (addr : WordPtr)
  | commit (order : List WordPtr)

/-- One call, and the word that a load returns. -/
def logStep (lay : LogLayout) (l : WordLog) : LogOp → Option (Option Word × WordLog)
  | .store a v => (addRedoWordRecord lay l a v).map fun l' => (none, l')
  | .load a => (readLog lay l a).map fun v => (some v, l)
  | .commit order => (commitAll lay order l).map fun l' => (none, l')

/-- The commits walk the whole hash map. -/
def WalksAll (l : WordLog) : LogOp → Prop
  | .commit order => Enumerates l order
  | _ => True

/-- The number of word records. -/
def recSlots : ℕ := transLogsz / sizeofWrdrec

/-- The number of logged words. -/
def dataSlots : ℕ := transDataLogsz / sizeofNvword

/-- At most `recSlots` words are stored between two commits, when `n` have been stored
since the last one. -/
def WithinCapacity : ℕ → List LogOp → Prop
  | _, [] => True
  | n, .store _ _ :: ops => n < recSlots ∧ WithinCapacity (n + 1) ops
  | n, .load _ :: ops => WithinCapacity n ops
  | _, .commit _ :: ops => WithinCapacity 0 ops

/-- Every commit comes when nothing has been stored since the last one, of which there were
`n` stores so far. -/
def IdleCommits : ℕ → List LogOp → Prop
  | _, [] => True
  | n, .store _ _ :: ops => IdleCommits (n + 1) ops
  | n, .load _ :: ops => IdleCommits n ops
  | n, .commit _ :: ops => n = 0 ∧ IdleCommits 0 ops

/-! ## What a program expects of the log -/

/-- The stores since the last commit: for each address the number of its last store and
the value stored.  `stored` counts the stores from the beginning, `since` those since
the last commit. -/
structure Pending where
  stored : ℕ := 0
  since : ℕ := 0
  last : WordPtr → Option (ℕ × Word) := fun _ => none

/-- The pending stores after one more call. -/
def Pending.step (s : Pending) : LogOp → Pending
  | .store a v => ⟨s.stored + 1, s.since + 1, update s.last a (some (s.stored, v))⟩
  | .load _ => s
  | .commit _ => ⟨s.stored, 0, fun _ => none⟩

/-- The pending stores without those to `a`. -/
def Pending.forget (s : Pending) (a : WordPtr) : Pending :=
  { s with last := update s.last a none }

theorem Pending.forget_last (s : Pending) (a : WordPtr) : (s.forget a).last a = none :=
  update_self ..

theorem Pending.forget_last_of_ne (s : Pending) {a b : WordPtr} (h : b ≠ a) :
    (s.forget a).last b = s.last b := update_of_ne h ..

/-- Nothing is pending when nothing was stored. -/
def Pending.Counted (s : Pending) : Prop := s.since = 0 ↔ ∀ a, s.last a = none

theorem Pending.Counted.step {s : Pending} (h : s.Counted) (op : LogOp) : (s.step op).Counted := by
  cases op with
  | store a v =>
    refine iff_of_false (Nat.succ_ne_zero _) ?_
    intro hnone
    have ha := hnone a
    simp [Pending.step] at ha
  | load a => exact h
  | commit order => exact iff_of_true rfl fun _ => rfl

/-- The pending stores after a run. -/
def pending (ops : List LogOp) : Pending := ops.foldl Pending.step {}

/-- The value most recently stored to `a` since the last commit. -/
def lastStored (ops : List LogOp) (a : WordPtr) : Option Word :=
  ((pending ops).last a).map Prod.snd

/-- The log after a run: the pending stores have their own slots in both rings, and the
hash map finds exactly them. -/
structure Follows (lay : LogLayout) (l : WordLog) (s : Pending) : Prop where
  recCursor : wrap transLogsz l.currwrdrec = slot sizeofWrdrec recSlots s.stored
  dataCursor : wrap transDataLogsz l.curdatwrdptr = slot sizeofNvword dataSlots s.stored
  dataOff : l.wrddataoff = l.curdatwrdptr
  sinceLe : s.since ≤ recSlots ∧ s.since ≤ s.stored
  window : ∀ {a t v}, s.last a = some (t, v) → t < s.stored ∧ s.stored ≤ t + s.since
  times : ∀ {a b t v w}, s.last a = some (t, v) → s.last b = some (t, w) → a = b
  hashed : ∀ {a t v}, s.last a = some (t, v) →
    l.wrdloghash a = some (slot sizeofWrdrec recSlots t)
  record : ∀ {a t v}, s.last a = some (t, v) →
    l.wrdrecmap (slot sizeofWrdrec recSlots t) = slot sizeofNvword dataSlots t
  word : ∀ {a t v}, s.last a = some (t, v) → l.wrddatmap (slot sizeofNvword dataSlots t) = v
  mapped : ∀ {a t v}, s.last a = some (t, v) →
    lay.mapped (slot sizeofWrdrec recSlots t) sizeofWrdrec
  unhashed : ∀ {a}, s.last a = none → l.wrdloghash a = none

section Rings

variable {lay : LogLayout}

theorem transLogsz_eq : transLogsz = sizeofWrdrec * recSlots := by decide

theorem transDataLogsz_eq : transDataLogsz = sizeofNvword * dataSlots := by decide

/-- A pending store's record is not the next one to be written. -/
theorem recSlot_ne {s t : ℕ} (hne : s ≠ t) (hs : s < t + recSlots) (ht : t < s + recSlots) :
    slot sizeofWrdrec recSlots s ≠ slot sizeofWrdrec recSlots t :=
  slot_ne_of_ne (by decide) hne hs ht

/-- There are more data slots than records. -/
theorem dataSlot_ne {s t : ℕ} (hne : s ≠ t) (hs : s < t + recSlots) (ht : t < s + recSlots) :
    slot sizeofNvword dataSlots s ≠ slot sizeofNvword dataSlots t := by
  have hle : recSlots ≤ dataSlots := by decide
  exact slot_ne_of_ne (by decide) hne (by omega) (by omega)

theorem dataSlot_lt (t : ℕ) : slot sizeofNvword dataSlots t < 2 ^ 32 - sizeofNvword :=
  (slot_lt (by decide) (by decide)).trans (by decide)

/-- A record that fits up to its offset field fits as a whole. -/
theorem mapped_slot {t : ℕ} (h : lay.mapped (slot sizeofWrdrec recSlots t + 8) 4) :
    lay.mapped (slot sizeofWrdrec recSlots t) sizeofWrdrec := by
  rcases h with habove | hin
  · exact .inl habove
  · right
    simp only [slot, sizeofMaster, sizeofWrdrec, transLogsz] at hin ⊢
    omega

theorem LogLayout.mapped.mono {off off' len len' : ℕ} (h : lay.mapped off len)
    (hle : off' + len' ≤ off + len) :
    lay.mapped off' len' := by
  rcases h with habove | hin
  · exact .inl habove
  · exact .inr (by omega)

end Rings

/-! ## The steps of the log -/

namespace Follows

variable {lay : LogLayout} {l l' : WordLog} {s : Pending} {a : WordPtr} {v : Word}

theorem initial (lay : LogLayout) (m : WordPtr → Word) : Follows lay { mem := m } {} where
  recCursor := by rw [slot_zero]; exact wrap_zero _
  dataCursor := by rw [slot_zero]; exact wrap_zero _
  dataOff := rfl
  sinceLe := ⟨Nat.zero_le _, le_rfl⟩
  window h := by cases h
  times h := by cases h
  hashed h := by cases h
  record h := by cases h
  word h := by cases h
  mapped h := by cases h
  unhashed _ := rfl

section

variable (h : Follows lay l s)
include h

/-- A load returns the pending value of its address, and the word in memory when there
is none. -/
theorem readLog_eq (a : WordPtr) :
    readLog lay l a = some (((s.last a).map Prod.snd).getD (l.mem a)) := by
  cases hlast : s.last a with
  | none => rw [readLog, h.unhashed hlast]; rfl
  | some x =>
    obtain ⟨t, v⟩ := x
    have hm : lay.mapped (slot sizeofWrdrec recSlots t + 8) 4 :=
      (h.mapped hlast).mono (by simp only [sizeofWrdrec]; omega)
    rw [readLog, h.hashed hlast]
    simp only [if_pos hm, h.record hlast, h.word hlast, Option.map_some, Option.getD_some]

/-- The offset that the next store writes into its record. -/
theorem nextOff :
    (if transDataLogsz ≤ l.curdatwrdptr then 0 else l.wrddataoff) =
      slot sizeofNvword dataSlots s.stored := by
  rw [h.dataOff, ← h.dataCursor, wrap]

/-- A store gets through when its record lies in the mapping. -/
theorem isSome_store :
    (addRedoWordRecord lay l a v).isSome = true ↔
      lay.mapped (slot sizeofWrdrec recSlots s.stored + 8) 4 := by
  simp only [addRedoWordRecord, h.recCursor]
  split
  · rename_i hm
    simp [hm]
  · rename_i hm
    simp [hm]

/-- A store writes the next slot of both rings; the pending ones lie elsewhere. -/
theorem store (hcap : s.since < recSlots) (hstore : addRedoWordRecord lay l a v = some l') :
    Follows lay l' (s.step (.store a v)) ∧ l'.mem = l.mem := by
  simp only [addRedoWordRecord, h.recCursor, h.dataCursor, h.nextOff] at hstore
  split at hstore
  case isFalse => cases hstore
  case isTrue hm =>
  cases hstore
  have hold : ∀ {b t w}, (b ≠ a ∧ s.last b = some (t, w)) →
      slot sizeofWrdrec recSlots t ≠ slot sizeofWrdrec recSlots s.stored ∧
        slot sizeofNvword dataSlots t ≠ slot sizeofNvword dataSlots s.stored := by
    rintro b t w ⟨-, hb⟩
    obtain ⟨hlt, hle⟩ := h.window hb
    exact ⟨recSlot_ne (by omega) (by omega) (by omega), dataSlot_ne (by omega) (by omega)
      (by omega)⟩
  -- an entry of the new index is the new one or an old one of another address
  have hcases : ∀ {b t w}, (s.step (.store a v)).last b = some (t, w) →
      b = a ∧ t = s.stored ∧ w = v ∨ b ≠ a ∧ s.last b = some (t, w) := by
    intro b t w hb
    by_cases hba : b = a
    · subst hba
      simp only [Pending.step, update_self, Option.some.injEq, Prod.mk.injEq] at hb
      exact .inl ⟨rfl, hb.1.symm, hb.2.symm⟩
    · simp only [Pending.step, update_of_ne hba] at hb
      exact .inr ⟨hba, hb⟩
  refine ⟨?_, rfl⟩
  constructor
  case recCursor => rw [transLogsz_eq]; exact wrap_slot (by decide) (by decide)
  case dataCursor => rw [transDataLogsz_eq]; exact wrap_slot (by decide) (by decide)
  case dataOff =>
    have hlt := dataSlot_lt s.stored
    exact Nat.mod_eq_of_lt (by omega)
  case sinceLe =>
    have hle := h.sinceLe.2
    exact ⟨hcap, Nat.succ_le_succ hle⟩
  case window =>
    intro b t w hb
    simp only [Pending.step]
    rcases hcases hb with ⟨-, rfl, -⟩ | ⟨-, hb⟩
    · omega
    · have hw := h.window hb
      omega
  case times =>
    intro b c t w w' hb hc
    rcases hcases hb with ⟨rfl, rfl, -⟩ | ⟨-, hb⟩
    · rcases hcases hc with ⟨rfl, -, -⟩ | ⟨-, hc⟩
      · rfl
      · exact absurd (h.window hc).1 (lt_irrefl _)
    · rcases hcases hc with ⟨-, rfl, -⟩ | ⟨-, hc⟩
      · exact absurd (h.window hb).1 (lt_irrefl _)
      · exact h.times hb hc
  case hashed =>
    intro b t w hb
    rcases hcases hb with ⟨rfl, rfl, -⟩ | ⟨hba, hb⟩
    · exact update_self ..
    · exact (update_of_ne hba ..).trans (h.hashed hb)
  case record =>
    intro b t w hb
    rcases hcases hb with ⟨-, rfl, -⟩ | hb
    · exact update_self ..
    · exact (update_of_ne (hold hb).1 ..).trans (h.record hb.2)
  case word =>
    intro b t w hb
    rcases hcases hb with ⟨-, rfl, rfl⟩ | hb
    · exact update_self ..
    · exact (update_of_ne (hold hb).2 ..).trans (h.word hb.2)
  case mapped =>
    intro b t w hb
    rcases hcases hb with ⟨-, rfl, -⟩ | ⟨-, hb⟩
    · exact mapped_slot hm
    · exact h.mapped hb
  case unhashed =>
    intro b hb
    have hba : b ≠ a := by
      rintro rfl
      simp [Pending.step] at hb
    simp only [Pending.step, update_of_ne hba] at hb
    exact (update_of_ne hba ..).trans (h.unhashed hb)

/-- The body of the loop of `commit_all` writes the pending value of one address and forgets
it; the slots it clears belong to no other pending store. -/
theorem commitEntry_eq {t : ℕ} (ha : s.last a = some (t, v)) :
    ∃ l', commitEntry lay l a = some l' ∧
      l'.mem = update l.mem a (commitValue (l.mem a) v) ∧
      Follows lay l' (s.forget a) := by
  have hread : readLog lay l a = some v := by rw [h.readLog_eq, ha]; rfl
  have hold : ∀ {b t' w}, (s.forget a).last b = some (t', w) →
      b ≠ a ∧ s.last b = some (t', w) := by
    intro b t' w hb
    by_cases hba : b = a
    · subst hba
      rw [s.forget_last] at hb
      cases hb
    · rw [s.forget_last_of_ne hba] at hb
      exact ⟨hba, hb⟩
  have hne : ∀ {b t' w}, (s.forget a).last b = some (t', w) →
      slot sizeofWrdrec recSlots t' ≠ slot sizeofWrdrec recSlots t ∧
        slot sizeofNvword dataSlots t' ≠ slot sizeofNvword dataSlots t := by
    intro b t' w hb
    obtain ⟨hba, hb⟩ := hold hb
    have htt : t' ≠ t := by
      rintro rfl
      exact hba (h.times hb ha)
    have hwa := h.window ha
    have hwb := h.window hb
    have hs := h.sinceLe.1
    exact ⟨recSlot_ne htt (by omega) (by omega), dataSlot_ne htt (by omega) (by omega)⟩
  simp only [commitEntry, h.hashed ha, hread, Option.bind_some, clearData, clearWrdrec,
    if_pos (h.mapped ha), h.record ha]
  refine ⟨_, rfl, rfl, ?_⟩
  constructor
  case recCursor => exact h.recCursor
  case dataCursor => exact h.dataCursor
  case dataOff => exact h.dataOff
  case sinceLe => exact h.sinceLe
  case window => exact fun hb => h.window (hold hb).2
  case times => exact fun hb hc => h.times (hold hb).2 (hold hc).2
  case hashed =>
    intro b t' w hb
    exact (update_of_ne (hold hb).1 ..).trans (h.hashed (hold hb).2)
  case record =>
    intro b t' w hb
    exact (update_of_ne (hne hb).1 ..).trans (h.record (hold hb).2)
  case word =>
    intro b t' w hb
    exact (update_of_ne (hne hb).2 ..).trans (h.word (hold hb).2)
  case mapped => exact fun hb => h.mapped (hold hb).2
  case unhashed =>
    intro b hb
    by_cases hba : b = a
    · subst hba
      exact update_self ..
    · rw [s.forget_last_of_ne hba] at hb
      exact (update_of_ne hba ..).trans (h.unhashed hb)

theorem isSome_hash (a : WordPtr) : (l.wrdloghash a).isSome = (s.last a).isSome := by
  cases hlast : s.last a with
  | none => rw [h.unhashed hlast]; rfl
  | some x => rw [h.hashed hlast]; rfl

end

/-- A commit returns exactly when nothing is pending: after the first entry the iterator is
lost. -/
theorem commitAll_eq_some_iff {order : List WordPtr} (h : Follows lay l s)
    (horder : Enumerates l order) :
    commitAll lay order l = some l' ↔ (∀ a, s.last a = none) ∧ l' = l := by
  have hin : ∀ a, a ∈ order ↔ (s.last a).isSome = true := fun a => by
    rw [horder.2, h.isSome_hash]
  cases order with
  | nil =>
    have hnone : ∀ a, s.last a = none := fun a =>
      Option.not_isSome_iff_eq_none.mp fun ha => absurd ((hin a).mpr ha) List.not_mem_nil
    simp only [commitAll, Option.some.injEq]
    exact ⟨fun heq => ⟨hnone, heq.symm⟩, fun hc => hc.2.symm⟩
  | cons a order =>
    obtain ⟨⟨t, v⟩, ha⟩ := Option.isSome_iff_exists.mp ((hin a).mp List.mem_cons_self)
    obtain ⟨l₁, hentry, -, h₁⟩ := h.commitEntry_eq ha
    have herased : l₁.wrdloghash a = none := h₁.unhashed (s.forget_last a)
    have hlost : commitAll lay (a :: order) l = none := by
      simp [commitAll, hentry, herased]
    rw [hlost]
    constructor
    · intro hc
      cases hc
    · rintro ⟨hnone, -⟩
      rw [hnone a] at ha
      cases ha

/-- A commit that returns leaves the log as it was. -/
theorem commit {order : List WordPtr} (h : Follows lay l s) (hnone : ∀ a, s.last a = none) :
    Follows lay l (s.step (.commit order)) where
  recCursor := h.recCursor
  dataCursor := h.dataCursor
  dataOff := h.dataOff
  sinceLe := ⟨Nat.zero_le _, Nat.zero_le _⟩
  window hb := by cases hb
  times hb := by cases hb
  hashed hb := by cases hb
  record hb := by cases hb
  word hb := by cases hb
  mapped hb := by cases hb
  unhashed _ := h.unhashed (hnone _)

end Follows

/-! ## Whole runs -/

/-- The records that lie in the mapping up to their offset field. -/
def usableSlots : ℕ := recSlots - 2

section Runs

variable {lay : LogLayout} {l : WordLog} {s : Pending}

theorem mapped_slot_iff {t : ℕ} (h : lay.pageAbove = true ∨ t ≤ usableSlots) :
    lay.mapped (slot sizeofWrdrec recSlots t + 8) 4 ↔
      lay.pageAbove = true ∨ t < usableSlots := by
  rcases h with habove | hle
  · exact ⟨fun _ => .inl habove, fun _ => .inl habove⟩
  · have hlt : t < recSlots := lt_of_le_of_lt hle (by decide)
    rw [LogLayout.mapped, slot_of_lt hlt]
    refine or_congr_right ?_
    simp only [sizeofMaster, sizeofWrdrec, transLogsz, usableSlots, recSlots]
    omega

theorem stored_le_step (s : Pending) (op : LogOp) : s.stored ≤ (s.step op).stored := by
  cases op <;> simp [Pending.step]

theorem stored_le_foldl (s : Pending) (ops : List LogOp) :
    s.stored ≤ (ops.foldl Pending.step s).stored := by
  induction ops generalizing s with
  | nil => exact le_rfl
  | cons op ops ih => exact (stored_le_step s op).trans (ih _)

variable {ops : List LogOp}

/-- One call that gets through keeps the log in step with what is pending. -/
theorem Follows.step (h : Follows lay l s) {op : LogOp} {r : Option Word} {l' : WordLog}
    (hcap : WithinCapacity s.since (op :: ops)) (hw : WalksAll l op)
    (hstep : logStep lay l op = some (r, l')) :
    Follows lay l' (s.step op) ∧ WithinCapacity (s.step op).since ops := by
  cases op with
  | store a v =>
    obtain ⟨l₁, hst, heq⟩ := Option.map_eq_some_iff.mp hstep
    cases heq
    exact ⟨(h.store hcap.1 hst).1, hcap.2⟩
  | load a =>
    obtain ⟨v, -, heq⟩ := Option.map_eq_some_iff.mp hstep
    cases heq
    exact ⟨h, hcap⟩
  | commit order =>
    obtain ⟨l₁, hall, heq⟩ := Option.map_eq_some_iff.mp hstep
    cases heq
    obtain ⟨hnone, rfl⟩ := (h.commitAll_eq_some_iff hw).mp hall
    exact ⟨h.commit hnone, hcap⟩

/-- A call gets through unless it is a store to a record beyond the mapping or a commit of
pending stores. -/
theorem Follows.isSome_step (h : Follows lay l s) (hc : s.Counted)
    (hin : lay.pageAbove = true ∨ s.stored ≤ usableSlots) {op : LogOp} (hw : WalksAll l op) :
    (logStep lay l op).isSome = true ↔
      (lay.pageAbove = true ∨ (s.step op).stored ≤ usableSlots) ∧ IdleCommits s.since [op] := by
  cases op with
  | store a v =>
    rw [logStep, Option.isSome_map, h.isSome_store, mapped_slot_iff hin]
    exact (and_iff_left trivial).symm
  | load a =>
    rw [logStep, h.readLog_eq a]
    exact iff_of_true rfl ⟨hin, trivial⟩
  | commit order =>
    rw [logStep, Option.isSome_map, Option.isSome_iff_exists]
    simp only [h.commitAll_eq_some_iff hw, exists_and_left, exists_eq, and_true, ← hc.eq]
    exact ⟨fun hzero => ⟨hin, hzero, trivial⟩, fun hidle => hidle.2.1⟩

theorem idleCommits_cons {op : LogOp} :
    IdleCommits s.since (op :: ops) ↔
      IdleCommits s.since [op] ∧ IdleCommits (s.step op).since ops := by
  cases op <;> simp [IdleCommits, Pending.step]

/-- A run that gets through keeps the log in step with what is pending. -/
theorem Follows.run (h : Follows lay l s) (hcap : WithinCapacity s.since ops)
    (hw : Along (logStep lay) WalksAll ops l) {rs : List (Option Word)} {l' : WordLog}
    (hrun : runSteps (logStep lay) ops l = some (rs, l')) :
    Follows lay l' (ops.foldl Pending.step s) := by
  induction ops generalizing l s rs with
  | nil =>
    cases hrun
    exact h
  | cons op ops ih =>
    obtain ⟨r, l₁, rs', hop, hrest, -⟩ := runSteps_cons_eq_some.mp hrun
    obtain ⟨h₁, hcap₁⟩ := h.step hcap hw.1 hop
    exact ih h₁ hcap₁ (hw.2 r l₁ hop) hrest

/-- A run gets through exactly when none of its stores goes beyond the mapping and its commits
find nothing pending. -/
theorem Follows.run_iff (h : Follows lay l s) (hc : s.Counted) (hcap : WithinCapacity s.since ops)
    (hin : lay.pageAbove = true ∨ s.stored ≤ usableSlots) (hw : Along (logStep lay) WalksAll ops l)
    :
    (runSteps (logStep lay) ops l).isSome = true ↔
      (lay.pageAbove = true ∨ (ops.foldl Pending.step s).stored ≤ usableSlots) ∧
        IdleCommits s.since ops := by
  induction ops generalizing l s with
  | nil => exact iff_of_true rfl ⟨hin, trivial⟩
  | cons op ops ih =>
    have hone := h.isSome_step hc hin hw.1
    rw [idleCommits_cons]
    cases hop : logStep lay l op with
    | none =>
      -- the call that is stuck is one too many for the whole run
      rw [runSteps, hop]
      refine iff_of_false Bool.false_ne_true ?_
      rintro ⟨hall, hidle, -⟩
      have hle := stored_le_foldl (s.step op) ops
      rw [hop] at hone
      exact Bool.false_ne_true (hone.mpr ⟨hall.imp_right fun hall => hle.trans hall, hidle⟩)
    | some x =>
      obtain ⟨r, l₁⟩ := x
      obtain ⟨h₁, hcap₁⟩ := h.step hcap hw.1 hop
      obtain ⟨hin₁, hidle⟩ := hone.mp (by rw [hop]; rfl)
      rw [runSteps_cons hop, Option.isSome_map, ih h₁ (hc.step op) hcap₁ hin₁ (hw.2 r l₁ hop)]
      exact and_congr_right fun _ => (and_iff_right hidle).symm

end Runs

/-- The run `ops` gets through, and a load after it returns the value most recently
stored to its address since the last commit, or else the word in memory. -/
def ReadsOwnWrites (lay : LogLayout) (m : WordPtr → Word) (ops : List LogOp) : Prop :=
  ∃ rs l, runSteps (logStep lay) ops { mem := m } = some (rs, l) ∧
    ∀ a, readLog lay l a = some ((lastStored ops a).getD (l.mem a))

theorem counted_initial : Pending.Counted {} := iff_of_true rfl fun _ => rfl

/-- **The redo log reads its own writes**, through wrap-around and across commits, exactly when
the records behind the end of the mapping are never used or lie in mapped memory, and every
commit finds the log empty. -/
theorem readsOwnWrites_iff (lay : LogLayout) (m : WordPtr → Word) (ops : List LogOp)
    (hcap : WithinCapacity 0 ops) (hw : Along (logStep lay) WalksAll ops { mem := m }) :
    ReadsOwnWrites lay m ops ↔
      (lay.pageAbove = true ∨ (pending ops).stored ≤ usableSlots) ∧ IdleCommits 0 ops := by
  have hinit := Follows.initial lay m
  have hiff := hinit.run_iff counted_initial hcap (.inr (Nat.zero_le _)) hw
  constructor
  · rintro ⟨rs, l, hrun, -⟩
    exact hiff.mp (by rw [hrun]; rfl)
  · intro hok
    obtain ⟨⟨rs, l⟩, hrun⟩ := Option.isSome_iff_exists.mp (hiff.mpr hok)
    exact ⟨rs, l, hrun, (hinit.run hcap hw hrun).readLog_eq⟩

/-- A word of the application. -/
def wordPtr : WordPtr := ⟨1, by decide⟩

/-- A commit of the empty log, a store and a load. -/
def sampleCalls : List LogOp := [.commit [], .store wordPtr 5, .load wordPtr]

variable {l : WordLog}

theorem enumerates_nil (h : l.wrdloghash = fun _ => none) : Enumerates l [] := by
  refine ⟨List.nodup_nil, fun a => ?_⟩
  rw [h]
  exact iff_of_false List.not_mem_nil Bool.false_ne_true

theorem enumerates_wordPtr {n : ℕ}
    (h : l.wrdloghash = update (fun _ => none) wordPtr (some n)) :
    Enumerates l [wordPtr] := by
  refine ⟨List.nodup_singleton _, fun a => ?_⟩
  rw [h, List.mem_singleton]
  by_cases ha : a = wordPtr
  · simp [ha]
  · simp [ha]

theorem readsOwnWrites_sampleCalls : ReadsOwnWrites ⟨false⟩ (fun _ => 7) sampleCalls := by
  have hcap : WithinCapacity 0 sampleCalls := ⟨by decide, trivial⟩
  have hw : Along (logStep ⟨false⟩) WalksAll sampleCalls { mem := fun _ => 7 } :=
    ⟨enumerates_nil rfl, fun _ _ _ => ⟨trivial, fun _ _ _ => ⟨trivial, fun _ _ _ => trivial⟩⟩⟩
  exact (readsOwnWrites_iff _ _ _ hcap hw).mpr ⟨.inr (by decide), rfl, trivial⟩

theorem withinCapacity_replicate (a : WordPtr) (v : Word) {n k : ℕ} (h : n + k ≤ recSlots) :
    WithinCapacity n (List.replicate k (.store a v)) := by
  induction k generalizing n with
  | zero => exact trivial
  | succ k ih => exact ⟨by omega, ih (by omega)⟩

theorem stored_replicate (a : WordPtr) (v : Word) (s : Pending) (k : ℕ) :
    ((List.replicate k (LogOp.store a v)).foldl Pending.step s).stored = s.stored + k := by
  induction k generalizing s with
  | zero => rfl
  | succ k ih =>
    rw [List.replicate_succ, List.foldl_cons, ih]
    show s.stored + 1 + k = s.stored + (k + 1)
    omega

theorem walksAll_replicate (lay : LogLayout) (a : WordPtr) (v : Word) (l : WordLog) (k : ℕ) :
    Along (logStep lay) WalksAll (List.replicate k (.store a v)) l := by
  induction k generalizing l with
  | zero => exact trivial
  | succ k ih => exact ⟨trivial, fun _ l' _ => ih l'⟩

/-- The last but one record does not fit, although fewer words are stored than the ring has
records; and a run of one store and a commit never returns. -/
theorem not_readsOwnWrites_fullRing :
    (WithinCapacity 0 (List.replicate (usableSlots + 1) (.store wordPtr 5)) ∧
      Along (logStep ⟨false⟩) WalksAll (List.replicate (usableSlots + 1) (.store wordPtr 5))
        { mem := fun _ => 0 } ∧
      ¬ ReadsOwnWrites ⟨false⟩ (fun _ => 0)
        (List.replicate (usableSlots + 1) (.store wordPtr 5))) ∧
    WithinCapacity 0 [.store wordPtr 5, .commit [wordPtr]] ∧
      Along (logStep ⟨true⟩) WalksAll [.store wordPtr 5, .commit [wordPtr]]
        { mem := fun _ => 0 } ∧
      ¬ ReadsOwnWrites ⟨true⟩ (fun _ => 0) [.store wordPtr 5, .commit [wordPtr]] := by
  have hcap : WithinCapacity 0 (List.replicate (usableSlots + 1) (.store wordPtr 5)) :=
    withinCapacity_replicate _ _ (by decide)
  have hw := walksAll_replicate ⟨false⟩ wordPtr 5 { mem := fun _ => 0 } (usableSlots + 1)
  refine ⟨⟨hcap, hw, ?_⟩, ⟨by decide, trivial⟩, ⟨trivial, ?_⟩, ?_⟩
  · rintro ⟨rs, l, hrun, -⟩
    have hiff := (Follows.initial ⟨false⟩ fun _ => 0).run_iff counted_initial hcap
      (.inr (Nat.zero_le _)) hw
    rw [stored_replicate, hrun] at hiff
    rcases (hiff.mp rfl).1 with habove | hle
    · cases habove
    · exact absurd hle (by omega)
  · intro r l hstore
    cases hstore
    exact ⟨enumerates_wordPtr rfl, fun _ _ _ => trivial⟩
  · rintro ⟨rs, l, hrun, -⟩
    cases hrun

/-! ## What a commit leaves in memory -/

/-- The commit that takes `l` to `l'` after the run `ops` is what the program expects:
the last values are in memory, the rest is unchanged, the index is empty, and loads
read the memory. -/
structure Committed (lay : LogLayout) (ops : List LogOp) (l l' : WordLog) : Prop where
  stored : ∀ a v, lastStored ops a = some v → l'.mem a = v
  others : ∀ a, lastStored ops a = none → l'.mem a = l.mem a
  index : ∀ a, l'.wrdloghash a = none
  reads : ∀ a, readLog lay l' a = some (l'.mem a)

/-- The upper halves of the word in memory and of the value are the same. -/
def SameUpper (old value : Word) : Prop := old.extractLsb' 32 32 = value.extractLsb' 32 32

instance (old value : Word) : Decidable (SameUpper old value) := instDecidableEqBitVec _ _

theorem append_halves (v : Word) : v.extractLsb' 32 32 ++ v.extractLsb' 0 32 = v := by
  rw [BitVec.extractLsb'_append_extractLsb'_eq_extractLsb' (by decide)]
  exact BitVec.extractLsb'_eq_self

theorem commitValue_eq_iff (old value : Word) :
    commitValue old value = value ↔ value.toInt > 4294967295 ∨ SameUpper old value := by
  rw [commitValue]
  split
  · rename_i hgt
    exact ⟨fun _ => .inl hgt, fun _ => rfl⟩
  · rename_i hle
    have hupper : old.extractLsb' 32 32 ++ value.extractLsb' 0 32 = value ↔
      SameUpper old value := by
      constructor
      · intro heq
        have hhigh := congrArg (BitVec.extractLsb' 32 32) heq
        rwa [BitVec.extractLsb'_append_eq_left] at hhigh
      · intro hsame
        rw [hsame]
        exact append_halves value
    rw [hupper, or_iff_right hle]

/-- What the body of the loop does for one entry: the address gets its value exactly when that is
greater than `2^32 - 1`, as a signed number, or agrees with the old word in the upper half. -/
theorem Follows.commitEntry_exact_iff {lay : LogLayout} {s : Pending} {a : WordPtr} {t : ℕ}
    {v : Word} (h : Follows lay l s) (ha : s.last a = some (t, v)) :
    ∃ l', commitEntry lay l a = some l' ∧
      (l'.mem a = v ↔ v.toInt > 4294967295 ∨ SameUpper (l.mem a) v) ∧
      ∀ b ≠ a, l'.mem b = l.mem b := by
  obtain ⟨l', hentry, hmem, -⟩ := h.commitEntry_eq ha
  refine ⟨l', hentry, ?_, ?_⟩
  · rw [hmem, update_self, commitValue_eq_iff]
  · intro b hb
    rw [hmem, update_of_ne hb]

/-- **The redo log commit** does what is expected exactly when nothing was stored since the last
one. -/
theorem committed_iff (lay : LogLayout) (m : WordPtr → Word) (ops : List LogOp)
    (hcap : WithinCapacity 0 ops) (hw : Along (logStep lay) WalksAll ops { mem := m })
    {rs : List (Option Word)} {l : WordLog}
    (hrun : runSteps (logStep lay) ops { mem := m } = some (rs, l))
    (order : List WordPtr) (horder : Enumerates l order) :
    (∃ l', commitAll lay order l = some l' ∧ Committed lay ops l l') ↔
      ∀ a, lastStored ops a = none := by
  have hf := (Follows.initial lay m).run hcap hw hrun
  have hlast : ∀ a, lastStored ops a = none ↔ (ops.foldl Pending.step {}).last a = none :=
    fun _ => Option.map_eq_none_iff
  constructor
  · rintro ⟨l', hall, -⟩ a
    exact (hlast a).mpr (((hf.commitAll_eq_some_iff horder).mp hall).1 a)
  · intro hnone
    have hpend := fun a => (hlast a).mp (hnone a)
    refine ⟨l, (hf.commitAll_eq_some_iff horder).mpr ⟨hpend, rfl⟩, ?_, fun _ _ => rfl,
      fun a => hf.unhashed (hpend a), ?_⟩
    · intro a v hv
      rw [hnone a] at hv
      cases hv
    · intro a
      rw [hf.readLog_eq, hpend a]
      rfl

/-- One store, over a word that holds `7`. -/
def loggedOne (v : Word) : WordLog :=
  (addRedoWordRecord ⟨false⟩ { mem := fun _ => 7 } wordPtr v).getD { mem := fun _ => 7 }

/-- A commit after loads alone. -/
theorem committed_loads :
    ∃ l', commitAll ⟨false⟩ [] { mem := fun _ => 7 } = some l' ∧
      Committed ⟨false⟩ [.load wordPtr] { mem := fun _ => 7 } l' := by
  refine (committed_iff ⟨false⟩ (fun _ => 7) [.load wordPtr] trivial ⟨trivial, fun _ _ _ => trivial⟩
    rfl [] (enumerates_nil rfl)).mpr ?_
  intro a
  rfl

/-- A commit of one store never returns; and had it gone on, the body of its loop would have left
`2^32 - 1` for the value `-1`. -/
theorem not_committed_negative :
    (∃ rs, runSteps (logStep ⟨false⟩) [.store wordPtr (-1)] { mem := fun _ => 7 } =
        some (rs, loggedOne (-1))) ∧
      Enumerates (loggedOne (-1)) [wordPtr] ∧
      lastStored [.store wordPtr (-1)] wordPtr = some (-1) ∧
      commitAll ⟨false⟩ [wordPtr] (loggedOne (-1)) = none ∧
      (commitEntry ⟨false⟩ (loggedOne (-1)) wordPtr).map (fun l => l.mem wordPtr) =
        some 0xffffffff :=
  ⟨⟨_, rfl⟩, enumerates_wordPtr rfl, by decide, rfl, by decide⟩
