/-
# Recovery of an object

In the undo-log build `nv_begintrans_obj` saves the bytes of an object in the data log, and
`nv_recover_obj` is the call that takes an open transaction back.  Its copy does not read the
log.  With `_USE_SHADOWCOPY` it copies the bytes at `log_ptr` to the object, which a begin of
this build does not write; without it, it copies the object onto itself.

So without shadow copies the object is taken back exactly when the stores in between have
left its bytes as they were, and with them exactly when `log_ptr` holds those bytes.  What
lies outside the object is never changed.
-/
import NvMalloc.AddrCache
import NvMalloc.LogMngr

open Option hiding guard

/-! ## The calls of a transaction -/

/-- `chunkmap` and the ring, the log manager, the memory of the program, and the field
`log_ptr` of the chunks. -/
structure UndoState where
  objs : TransObjs
  logs : LogMngr
  mem : ℕ → UInt8
  logPtr : MapChunk → UInt64

namespace UndoState

/-- The bytes of an object. -/
def bytes (s : UndoState) (c : MapChunk) : List UInt8 := slice s.mem c.nvPtr.toNat c.length.toNat

/-- The memory when a program stores the bytes `bs` at an address. -/
def store (s : UndoState) (addr : ℕ) (bs : List UInt8) : UndoState :=
  { s with mem := blit s.mem addr bs }

/-- `nv_begintrans_obj`, without the lock. -/
def nvBegintransObj (s : UndoState) (objptr : UInt64) (order : List MapEntry) :
    Option UndoState := do
  let (chunk, m) ← s.objs.chunkOf objptr order
  let (_, logs) ← s.logs.logRecord s.mem chunk.nvPtr.toNat chunk.length .obj
  return { s with objs := ⟨m, addToCache s.objs.cache chunk.nvPtr chunk⟩, logs := logs }

/-- `nv_commit_obj`.  The log drops the record, and the flush changes no byte. -/
def nvCommitObj (s : UndoState) (objptr : UInt64) (order : List MapEntry) : Option UndoState := do
  let (_, objs) ← flushObj s.objs objptr order
  return { s with objs := objs, logs := s.logs.updateOncommit objptr.toNat .obj }

/-- The source of the copy in `nv_recover_obj`; `shadow` is `_USE_SHADOWCOPY`. -/
def source (shadow : Bool) (s : UndoState) (chunk : MapChunk) : UInt64 :=
  if shadow then s.logPtr chunk else chunk.nvPtr

/-- `nv_recover_obj`. -/
def nvRecoverObj (shadow : Bool) (s : UndoState) (objptr : UInt64) (order : List MapEntry) :
    Option UndoState := do
  let (chunk, m) ← s.objs.chunkOf objptr order
  guard (s.source shadow chunk ≠ 0)
  guard (chunk.nvPtr ≠ 0)
  return { s with
    objs := { s.objs with map := m }
    mem := blit s.mem chunk.nvPtr.toNat
      (slice s.mem (s.source shadow chunk).toNat chunk.length.toNat) }

end UndoState

/-- What a program does between a begin and the recovery. -/
inductive UndoCall where
  | store (addr : ℕ) (bs : List UInt8)
  | nvBegintransObj (objptr : UInt64) (order : List MapEntry)
  | nvCommitObj (objptr : UInt64) (order : List MapEntry)
  | nvRecoverObj (objptr : UInt64) (order : List MapEntry)

/-- One call. -/
def undoCall (shadow : Bool) (s : UndoState) : UndoCall → Option (Unit × UndoState)
  | .store addr bs => some ((), s.store addr bs)
  | .nvBegintransObj objptr order => (s.nvBegintransObj objptr order).map ((), ·)
  | .nvCommitObj objptr order => (s.nvCommitObj objptr order).map ((), ·)
  | .nvRecoverObj objptr order => (s.nvRecoverObj shadow objptr order).map ((), ·)

/-- What a call of the program itself stores: the arguments of the stores, and nothing for the
calls of the library. -/
def UndoCall.stored (g : ℕ → UInt8) : UndoCall → ℕ → UInt8
  | .store addr bs => blit g addr bs
  | .nvBegintransObj _ _ => g
  | .nvCommitObj _ _ => g
  | .nvRecoverObj _ _ => g

/-! ## What recovery is for -/

/-- The map leads to the same objects in both states. -/
def SameLive (s s' : UndoState) : Prop :=
  ∀ a d, s'.objs.map.lookup a = some (some d) ↔ s.objs.map.lookup a = some (some d)

/-- The object has the bytes `x`, and everything else is as it was: the bytes outside the
object, and the objects that the map leads to. -/
structure TakenBack (x : List UInt8) (c : MapChunk) (s s' : UndoState) : Prop where
  bytes : s'.bytes c = x
  others : ∀ a, ¬ (c.nvPtr.toNat ≤ a ∧ a < c.nvPtr.toNat + c.length.toNat) → s'.mem a = s.mem a
  live : SameLive s s'

/-- `nv_recover_obj` on the object returns, and takes the object back to `x`. -/
def RecoversTo (shadow : Bool) (s : UndoState) (c : MapChunk) (order : List MapEntry)
    (x : List UInt8) : Prop :=
  ∃ s', s.nvRecoverObj shadow c.nvPtr order = some s' ∧ TakenBack x c s s'

/-! ## What the calls keep -/

theorem SameLive.trans {s₀ s₁ s₂ : UndoState} (h₀ : SameLive s₀ s₁) (h₁ : SameLive s₁ s₂) :
    SameLive s₀ s₂ := fun a d => (h₁ a d).trans (h₀ a d)

variable {s s' : UndoState} {objptr : UInt64} {order : List MapEntry} {shadow : Bool} {c : MapChunk}

theorem UndoState.sameLive_nvBegintransObj (h : s.nvBegintransObj objptr order = some s') :
    SameLive s s' := by
  simp only [nvBegintransObj, bind_eq_bind, bind_eq_some_iff] at h
  obtain ⟨⟨chunk, m⟩, hfound, ⟨ws, logs⟩, -, heq⟩ := h
  cases heq
  exact (chunkOf_spec hfound).2

theorem UndoState.mem_nvBegintransObj (h : s.nvBegintransObj objptr order = some s') :
    s'.mem = s.mem ∧ s'.logPtr = s.logPtr := by
  simp only [nvBegintransObj, bind_eq_bind, bind_eq_some_iff] at h
  obtain ⟨⟨chunk, m⟩, -, ⟨ws, logs⟩, -, heq⟩ := h
  cases heq
  exact ⟨rfl, rfl⟩

theorem UndoState.sameLive_nvRecoverObj (h : s.nvRecoverObj shadow objptr order = some s') :
    SameLive s s' := by
  simp only [nvRecoverObj, bind_eq_bind, bind_eq_some_iff] at h
  obtain ⟨⟨chunk, m⟩, hfound, _, -, _, -, heq⟩ := h
  cases heq
  exact (chunkOf_spec hfound).2

theorem UndoState.sameLive_nvCommitObj (h : s.nvCommitObj objptr order = some s') :
    SameLive s s' := by
  simp only [nvCommitObj, bind_eq_bind, bind_eq_some_iff] at h
  obtain ⟨⟨e, objs⟩, hflush, heq⟩ := h
  cases heq
  obtain ⟨_, _, m, -, rfl, hm⟩ := flushObj_spec hflush
  exact hm

theorem sameLive_undoCall {call : UndoCall} {u : Unit} (h : undoCall shadow s call = some (u, s')) :
    SameLive s s' := by
  cases call with
  | store addr bs =>
    cases h
    exact fun _ _ => Iff.rfl
  | nvBegintransObj objptr order =>
    obtain ⟨s₁, h, heq⟩ := map_eq_some_iff.mp h
    cases heq
    exact UndoState.sameLive_nvBegintransObj h
  | nvCommitObj objptr order =>
    obtain ⟨s₁, h, heq⟩ := map_eq_some_iff.mp h
    cases heq
    exact UndoState.sameLive_nvCommitObj h
  | nvRecoverObj objptr order =>
    obtain ⟨s₁, h, heq⟩ := map_eq_some_iff.mp h
    cases heq
    exact UndoState.sameLive_nvRecoverObj h

theorem sameLive_of_run {calls : List UndoCall} {us : List Unit}
    (h : runSteps (undoCall shadow) calls s = some (us, s')) : SameLive s s' := by
  induction calls generalizing s us with
  | nil =>
    cases h
    exact fun _ _ => Iff.rfl
  | cons call calls ih =>
    obtain ⟨u, s₁, us₁, hcall, hrest, -⟩ := runSteps_cons_eq_some.mp h
    exact (sameLive_undoCall hcall).trans (ih hrest)

/-- No call changes the fields `log_ptr`; and without shadow copies only the stores of the
program change the memory, since a recovery copies an object onto itself. -/
theorem mem_undoCall {call : UndoCall} {u : Unit} (h : undoCall shadow s call = some (u, s')) :
    s'.logPtr = s.logPtr ∧ (shadow = false → s'.mem = call.stored s.mem) := by
  cases call with
  | store addr bs =>
    cases h
    exact ⟨rfl, fun _ => rfl⟩
  | nvBegintransObj objptr order =>
    obtain ⟨s₁, h, heq⟩ := map_eq_some_iff.mp h
    cases heq
    exact ⟨(UndoState.mem_nvBegintransObj h).2, fun _ => (UndoState.mem_nvBegintransObj h).1⟩
  | nvCommitObj objptr order =>
    obtain ⟨s₁, h, heq⟩ := map_eq_some_iff.mp h
    cases heq
    simp only [UndoState.nvCommitObj, bind_eq_bind, bind_eq_some_iff] at h
    obtain ⟨⟨e, objs⟩, -, heq⟩ := h
    cases heq
    exact ⟨rfl, fun _ => rfl⟩
  | nvRecoverObj objptr order =>
    obtain ⟨s₁, h, heq⟩ := map_eq_some_iff.mp h
    cases heq
    simp only [UndoState.nvRecoverObj, bind_eq_bind, bind_eq_some_iff] at h
    obtain ⟨⟨chunk, m⟩, -, _, -, _, -, heq⟩ := h
    cases heq
    refine ⟨rfl, ?_⟩
    rintro rfl
    exact blit_slice _ _ _

theorem mem_of_run {calls : List UndoCall} {us : List Unit}
    (h : runSteps (undoCall shadow) calls s = some (us, s')) :
    s'.logPtr = s.logPtr ∧ (shadow = false → s'.mem = calls.foldl UndoCall.stored s.mem) := by
  induction calls generalizing s us with
  | nil =>
    cases h
    exact ⟨rfl, fun _ => rfl⟩
  | cons call calls ih =>
    obtain ⟨u, s₁, us₁, hcall, hrest, -⟩ := runSteps_cons_eq_some.mp h
    obtain ⟨hptr, hmem⟩ := mem_undoCall hcall
    obtain ⟨hptr', hmem'⟩ := ih hrest
    refine ⟨hptr'.trans hptr, fun hplain => ?_⟩
    rw [hmem' hplain, hmem hplain, List.foldl_cons]

/-! ## The copy -/

/-- The object at a live address is copied from the source, and nothing else is changed. -/
theorem UndoState.nvRecoverObj_of_lookup (shadow : Bool) (order : List MapEntry) (hne : c.nvPtr ≠ 0)
    (hlive : s.objs.map.lookup c.nvPtr = some (some c)) :
    s.nvRecoverObj shadow c.nvPtr order =
      if s.source shadow c ≠ 0 then
        some (s.store c.nvPtr.toNat (slice s.mem (s.source shadow c).toNat c.length.toNat))
      else none := by
  unfold nvRecoverObj
  rw [chunkOf_of_lookup order hne hlive]
  by_cases hsrc : s.source shadow c = 0
  · simp [hsrc]
  · simp [hsrc, hne, store]

/-- What a store of the size of an object leaves there. -/
theorem UndoState.takenBack_store {x : List UInt8} (hx : x.length = c.length.toNat) :
    TakenBack x c s (s.store c.nvPtr.toNat x) where
  bytes := by
    show slice (blit s.mem c.nvPtr.toNat x) c.nvPtr.toNat c.length.toNat = x
    rw [← hx, slice_blit_self]
  others a ha := blit_of_outside (by omega)
  live _ _ := Iff.rfl

/-- An object that a transaction began on has an address. -/
theorem UndoState.nvPtr_ne_of_begin (h : s.nvBegintransObj objptr order = some s') :
    objptr ≠ 0 := by
  simp only [nvBegintransObj, TransObjs.chunkOf, getChunkFromMapO1, bind_eq_bind,
    bind_eq_some_iff, Option.guard_eq_some'] at h
  obtain ⟨_, ⟨_, ⟨_, -, _, hne, -⟩, -⟩, -⟩ := h
  exact hne

/-- `nv_recover_obj` takes an object to the bytes at the source of its copy. -/
theorem recoversTo_iff {x : List UInt8} (hne : c.nvPtr ≠ 0)
    (hlive : s.objs.map.lookup c.nvPtr = some (some c)) :
    RecoversTo shadow s c order x ↔ s.source shadow c ≠ 0 ∧
      slice s.mem (s.source shadow c).toNat c.length.toNat = x := by
  have hrec := UndoState.nvRecoverObj_of_lookup shadow order hne hlive
  have hcopy : TakenBack (slice s.mem (s.source shadow c).toNat c.length.toNat) c s
      (s.store c.nvPtr.toNat (slice s.mem (s.source shadow c).toNat c.length.toNat)) :=
    UndoState.takenBack_store (length_slice ..)
  rw [RecoversTo, hrec]
  constructor
  · rintro ⟨s₃, hs, htaken⟩
    split at hs
    · next hsrc =>
      cases hs
      exact ⟨hsrc, hcopy.bytes.symm.trans htaken.bytes⟩
    · cases hs
  · rintro ⟨hsrc, hbytes⟩
    rw [if_pos hsrc, ← hbytes]
    exact ⟨_, rfl, hcopy⟩

/-- The stores of the calls leave the bytes of the object as they were. -/
def StoresKeep (calls : List UndoCall) (s : UndoState) (c : MapChunk) : Prop :=
  slice (calls.foldl UndoCall.stored s.mem) c.nvPtr.toNat c.length.toNat = s.bytes c

/-- In the state `s'`, `log_ptr` of the object leads to the bytes that the object had in `s`. -/
def HeldAtLogPtr (s s' : UndoState) (c : MapChunk) : Prop :=
  s.logPtr c ≠ 0 ∧ slice s'.mem (s.logPtr c).toNat c.length.toNat = s.bytes c

/-- **What recovery restores.**  A transaction begins on a live object, and the program goes on
with stores and with transactions on this and on other objects.  Without shadow copies
`nv_recover_obj` then returns with the bytes that the object had at the begin, and with
everything else as it is, precisely when the stores in between have left these bytes as they
were; with shadow copies, precisely when `log_ptr` holds them. -/
theorem recoversTo_iff_of_run {shadow : Bool} {s₀ s₁ s₂ : UndoState} {c : MapChunk}
    {order : List MapEntry} {calls : List UndoCall} {us : List Unit}
    (hlive : s₀.objs.map.lookup c.nvPtr = some (some c))
    (hbegin : s₀.nvBegintransObj c.nvPtr order = some s₁)
    (hcalls : runSteps (undoCall shadow) calls s₁ = some (us, s₂)) (order' : List MapEntry) :
    RecoversTo shadow s₂ c order' (s₀.bytes c) ↔
      if shadow then HeldAtLogPtr s₀ s₂ c else StoresKeep calls s₀ c := by
  have hne : c.nvPtr ≠ 0 := UndoState.nvPtr_ne_of_begin hbegin
  have hsame : SameLive s₀ s₂ :=
    (UndoState.sameLive_nvBegintransObj hbegin).trans (sameLive_of_run hcalls)
  rw [recoversTo_iff hne ((hsame _ _).mpr hlive)]
  cases shadow with
  | true =>
    have hptr : s₂.logPtr = s₀.logPtr := by
      rw [(mem_of_run hcalls).1, (UndoState.mem_nvBegintransObj hbegin).2]
    rw [UndoState.source, if_pos rfl, hptr]
    exact Iff.rfl
  | false =>
    have hmem : s₂.mem = calls.foldl UndoCall.stored s₀.mem := by
      rw [(mem_of_run hcalls).2 rfl, (UndoState.mem_nvBegintransObj hbegin).1]
    rw [hmem]
    exact and_iff_right hne

/-- An object of 16 zeros, with a copy of it at another address. -/
def sampleUndo : UndoState where
  objs := { map := recordChunks ∅ 4096 (sampleObj 4096) }
  logs := initializeLogmgr sampleMaps true
  mem := fun _ => 0
  logPtr := fun _ => 8192

/-- Without shadow copies, a byte that is stored and stored back. -/
theorem recoversTo_sampleUndo :
    ∃ s₁ us s₂, sampleUndo.nvBegintransObj 4096 [] = some s₁ ∧
      runSteps (undoCall false) [.store 4096 [7], .store 4096 [0]] s₁ = some (us, s₂) ∧
      RecoversTo false s₂ (sampleObj 4096) [] (sampleUndo.bytes (sampleObj 4096)) := by
  have hrun : ((sampleUndo.nvBegintransObj 4096 []).bind fun s₁ =>
      runSteps (undoCall false) [.store 4096 [7], .store 4096 [0]] s₁).isSome = true := by
    decide +kernel
  obtain ⟨⟨us, s₂⟩, hrun⟩ := isSome_iff_exists.mp hrun
  obtain ⟨s₁, hbegin, hcalls⟩ := bind_eq_some_iff.mp hrun
  have hlive : sampleUndo.objs.map.lookup (sampleObj 4096).nvPtr =
      some (some (sampleObj 4096)) := by decide
  have hkeep : StoresKeep [.store 4096 [7], .store 4096 [0]] sampleUndo (sampleObj 4096) := by
    unfold StoresKeep
    decide +kernel
  exact ⟨s₁, us, s₂, hbegin, hcalls, (recoversTo_iff_of_run hlive hbegin hcalls []).mpr hkeep⟩

/-- Without shadow copies, a byte that is written in the transaction stays. -/
theorem not_recoversTo_store :
    ∃ s₁ us s₂ s₃, sampleUndo.nvBegintransObj 4096 [] = some s₁ ∧
      runSteps (undoCall false) [.store 4096 [7]] s₁ = some (us, s₂) ∧
      s₂.nvRecoverObj false 4096 [] = some s₃ ∧ sampleUndo.mem 4096 = 0 ∧ s₃.mem 4096 = 7 := by
  have hrun : ((sampleUndo.nvBegintransObj 4096 []).bind fun s₁ =>
      (runSteps (undoCall false) [.store 4096 [7]] s₁).bind fun x =>
        (x.2.nvRecoverObj false 4096 []).map fun s₃ => s₃.mem 4096) = some 7 := by decide +kernel
  obtain ⟨s₁, hbegin, hrest⟩ := bind_eq_some_iff.mp hrun
  obtain ⟨⟨us, s₂⟩, hcalls, hrest⟩ := bind_eq_some_iff.mp hrest
  obtain ⟨s₃, hrec, hbyte⟩ := map_eq_some_iff.mp hrest
  exact ⟨s₁, us, s₂, s₃, hbegin, hcalls, hrec, rfl, hbyte⟩
