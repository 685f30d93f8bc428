/-
# The cache of objects in transactions

In the undo-log build `nv_begintrans_obj` puts the chunk of the object into a ring of 32
entries, and `nv_commit_obj` and `nv_sync_obj` look it up there before they search
`chunkmap`, to flush the bytes of the object.

`get_frm_cache` searches the ring for the address and then returns the chunk at the
insertion index.  Until the ring is full that slot is empty and the callers search
`chunkmap`; afterwards it is the oldest entry.  So the right bytes are flushed exactly when
fewer than 32 objects were entered, or the object is not in the ring, or it is its oldest
entry.
-/
import NvMalloc.ChunkMap
import NvMalloc.Ring

open Option hiding guard

/-! ## The ring -/

/-- `CACHESIZE`. -/
def cacheSize : ℕ := 32

/-- `addr_cache`, `chunk_cache`, `next_entry` and `initCache`; a null chunk is `none`. -/
structure AddrCache where
  addrCache : ℕ → UInt64 := fun _ => 0
  chunkCache : ℕ → Option MapChunk := fun _ => none
  nextEntry : ℕ := 0
  initCache : Bool := false

/-- `init_cache`, on the first call. -/
def AddrCache.init (c : AddrCache) : AddrCache :=
  if c.initCache then c
  else { c with addrCache := fun _ => 0, chunkCache := fun _ => none, initCache := true }

/-- `add_to_cache`. -/
def addToCache (c : AddrCache) (key : UInt64) (chunk : MapChunk) : AddrCache :=
  { c.init with
    addrCache := Function.update c.init.addrCache c.nextEntry key
    chunkCache := Function.update c.init.chunkCache c.nextEntry (some chunk)
    nextEntry := (c.nextEntry + 1) % cacheSize }

/-- `get_frm_cache`: a hit returns the chunk at the insertion index. -/
def getFrmCache (c : AddrCache) (key : UInt64) : Option MapChunk :=
  if ∃ idx < cacheSize, c.addrCache idx = key then c.chunkCache c.nextEntry else none

/-! ## Transactions on objects -/

/-- `chunkmap` and the ring. -/
structure TransObjs where
  map : AddrMap := ∅
  cache : AddrCache := {}

/-- The chunk of an object: `get_chunk_from_map_o1`, then `get_chunk_from_map`, whose walk
meets the entries in the order `order`. -/
def TransObjs.chunkOf (s : TransObjs) (objptr : UInt64) (order : List MapEntry) :
    Option (MapChunk × AddrMap) := do
  let (found, m) ← getChunkFromMapO1 s.map objptr
  match found with
  | some chunk => return (chunk, m)
  | none =>
    guard (order.Perm m.entries)
    let found ← getChunkFromMap objptr order
    let chunk ← found
    return (chunk, m)

/-- What a call does beside its changes. -/
inductive TransEvent where
  | registered
  /-- The chunk that is entered into the ring. -/
  | entered (chunk : MapChunk)
  /-- The arguments of `flush_cache`. -/
  | flushed (ptr : UInt64) (size : UInt32)
  deriving DecidableEq

/-- The end of `nv_record_chunk` with an undo log. -/
def registerChunk (s : TransObjs) (chunk : MapChunk) : Option (TransEvent × TransObjs) := do
  guard (chunk.nvPtr ≠ 0)
  return (.registered, { s with map := recordChunks s.map chunk.nvPtr chunk })

/-- `nv_begintrans_obj`, without the lock and the log. -/
def beginObj (s : TransObjs) (objptr : UInt64) (order : List MapEntry) :
    Option (TransEvent × TransObjs) := do
  let (chunk, m) ← s.chunkOf objptr order
  return (.entered chunk, ⟨m, addToCache s.cache chunk.nvPtr chunk⟩)

/-- The search and the flush that `nv_commit_obj` and `nv_sync_obj` share. -/
def flushObj (s : TransObjs) (objptr : UInt64) (order : List MapEntry) :
    Option (TransEvent × TransObjs) :=
  match getFrmCache s.cache objptr with
  | some chunk => some (.flushed chunk.nvPtr chunk.length, s)
  | none => do
    let (chunk, m) ← s.chunkOf objptr order
    return (.flushed chunk.nvPtr chunk.length, { s with map := m })

/-- `nv_commit_obj`, without the log. -/
def nvCommitObj := flushObj

/-- `nv_sync_obj`. -/
def nvSyncObj := flushObj

/-- The calls of a program. -/
inductive TransCall where
  | register (chunk : MapChunk)
  | nvBegintransObj (objptr : UInt64) (order : List MapEntry)
  | nvCommitObj (objptr : UInt64) (order : List MapEntry)
  | nvSyncObj (objptr : UInt64) (order : List MapEntry)

/-- One call. -/
def transCallStep (s : TransObjs) : TransCall → Option (TransEvent × TransObjs)
  | .register chunk => registerChunk s chunk
  | .nvBegintransObj objptr order => beginObj s objptr order
  | .nvCommitObj objptr order => nvCommitObj s objptr order
  | .nvSyncObj objptr order => nvSyncObj s objptr order

/-- The chunks that were entered into the ring. -/
def enteredChunks (es : List TransEvent) : List MapChunk :=
  es.filterMap fun
    | .entered chunk => some chunk
    | _ => none

/-- Different objects have different addresses. -/
def OneChunkEach (calls : List TransCall) : Prop :=
  ∀ c c', .register c ∈ calls → .register c' ∈ calls → c.nvPtr = c'.nvPtr → c = c'

/-! ## What the ring holds -/

/-- The ring holds the last 32 of the entries `xs`. -/
structure RingHolds (xs : List MapChunk) (c : AddrCache) : Prop where
  init : xs = [] ∨ c.initCache = true
  next : c.nextEntry = xs.length % 32
  held : ∀ {t x}, xs[t]? = some x → xs.length ≤ t + 32 →
    c.addrCache (t % 32) = x.nvPtr ∧ c.chunkCache (t % 32) = some x
  free : ∀ {i}, i < 32 → xs.length ≤ i → c.addrCache i = 0 ∧ c.chunkCache i = none

theorem ringHolds_empty : RingHolds [] {} where
  init := .inl rfl
  next := rfl
  held h := by simp at h
  free _ _ := ⟨rfl, rfl⟩

/-- The two arrays as one ring. -/
theorem ringHolds_iff {xs : List MapChunk} {c : AddrCache} : RingHolds xs c ↔
    (xs = [] ∨ c.initCache = true) ∧ RingArray 32 (0, none) (xs.map fun x => (x.nvPtr, some x))
      c.nextEntry fun i => (c.addrCache i, c.chunkCache i) := by
  constructor
  · intro h
    refine ⟨h.init, ?_, ?_, ?_⟩
    · rw [List.length_map]
      exact h.next
    · intro t y hy hnear
      rw [List.length_map] at hnear
      rw [List.getElem?_map] at hy
      obtain ⟨x, hx, rfl⟩ := map_eq_some_iff.mp hy
      obtain ⟨haddr, hchunk⟩ := h.held hx hnear
      rw [haddr, hchunk]
    · intro i hi hfree
      rw [List.length_map] at hfree
      obtain ⟨haddr, hchunk⟩ := h.free hi hfree
      rw [haddr, hchunk]
  · rintro ⟨hinit, h⟩
    have hlen : (xs.map fun x => (x.nvPtr, some x)).length = xs.length := List.length_map ..
    refine ⟨hinit, by rw [h.next_eq, hlen], ?_, ?_⟩
    · intro t x hx hnear
      have hheld := h.held (t := t) (x := (x.nvPtr, some x)) (by rw [List.getElem?_map, hx]; rfl)
        (by rw [hlen]; exact hnear)
      exact Prod.mk.inj hheld
    · intro i hi hfree
      exact Prod.mk.inj (h.free hi (by rw [hlen]; exact hfree))

namespace RingHolds

variable {xs : List MapChunk} {c : AddrCache}

/-- `init_cache` finds an empty ring. -/
theorem ring_init (h : RingHolds xs c) :
    RingArray 32 (0, none) (xs.map fun x => (x.nvPtr, some x)) c.nextEntry
      fun i => (c.init.addrCache i, c.init.chunkCache i) := by
  obtain ⟨hinit, hring⟩ := ringHolds_iff.mp h
  unfold AddrCache.init
  split
  · exact hring
  · next hno =>
    obtain rfl : xs = [] := hinit.resolve_right hno
    rw [show c.nextEntry = 0 from h.next]
    exact ringArray_nil 32 (0, none)

/-- A new entry takes the place of the oldest one. -/
theorem push (h : RingHolds xs c) (x : MapChunk) :
    RingHolds (xs ++ [x]) (addToCache c x.nvPtr x) := by
  refine ringHolds_iff.mpr ⟨.inr ?_, ?_⟩
  · show c.init.initCache = true
    unfold AddrCache.init
    split
    · assumption
    · rfl
  · rw [List.map_append]
    exact h.ring_init.push_pair x.nvPtr (some x)

/-- The slot at the insertion index. -/
theorem chunkCache_next (h : RingHolds xs c) :
    c.chunkCache c.nextEntry = if xs.length < 32 then none else xs[xs.length - 32]? := by
  have hnext := congrArg Prod.snd ((ringHolds_iff.mp h).2.slots_next (by decide))
  rw [List.length_map, List.getElem?_map] at hnext
  rw [show c.chunkCache c.nextEntry = _ from hnext]
  split
  · rfl
  · have hlt : xs.length - 32 < xs.length := by omega
    rw [List.getElem?_eq_getElem hlt]
    rfl

/-- An address other than 0 is found exactly when it is one of the last 32. -/
theorem hit_iff (h : RingHolds xs c) {key : UInt64} (hkey : key ≠ 0) :
    (∃ idx < cacheSize, c.addrCache idx = key) ↔ ∃ x ∈ xs.drop (xs.length - 32), x.nvPtr = key := by
  have hslot := (ringHolds_iff.mp h).2.exists_slot_iff (P := fun x => x.1 = key) hkey.symm
  rw [List.length_map, ← List.map_drop] at hslot
  rw [show (∃ idx < cacheSize, c.addrCache idx = key) ↔ _ from hslot]
  simp only [List.mem_map, exists_exists_and_eq_and]

end RingHolds

/-! ## Histories -/

/-- What holds after a history: the map leads from the address of every registered object to
its chunk, and the ring holds the chunks that were entered. -/
structure TransHolds (calls : List TransCall) (es : List TransEvent) (s : TransObjs) : Prop where
  ring : RingHolds (enteredChunks es) s.cache
  chunk : ∀ {a c}, s.map.lookup a = some (some c) → .register c ∈ calls ∧ a = c.nvPtr
  registered : ∀ {c}, .register c ∈ calls →
    c.nvPtr ≠ 0 ∧ ∃ c', s.map.lookup c.nvPtr = some (some c')
  entered : ∀ {c}, c ∈ enteredChunks es → .register c ∈ calls

theorem transHolds_empty : TransHolds [] [] {} where
  ring := ringHolds_empty
  chunk h := by cases h
  registered h := by cases h
  entered h := by cases h

/-- A search by subscript keeps the entries of chunks. -/
theorem lookup_getChunkFromMapO1 {m m' : AddrMap} {addr : UInt64} {found : Option MapChunk}
    (h : getChunkFromMapO1 m addr = some (found, m')) :
    m'.lookup addr = some found ∧
      ∀ a c, m'.lookup a = some (some c) ↔ m.lookup a = some (some c) := by
  simp only [getChunkFromMapO1, bind_eq_bind, bind_eq_some_iff] at h
  obtain ⟨-, -, -, -, h⟩ := h
  cases hentry : m.lookup addr with
  | some chunk =>
    rw [hentry] at h
    cases h
    exact ⟨hentry, fun _ _ => Iff.rfl⟩
  | none =>
    rw [hentry] at h
    cases h
    refine ⟨AList.lookup_insert m, ?_⟩
    intro a c
    by_cases ha : a = addr
    · subst ha
      rw [AList.lookup_insert, hentry]
      simp
    · rw [AList.lookup_insert_ne ha]

variable {s : TransObjs} {objptr : UInt64}

/-- The chunk that is found is an entry of the map, which keeps its chunks. -/
theorem chunkOf_spec {order : List MapEntry} {chunk : MapChunk} {m : AddrMap}
    (h : s.chunkOf objptr order = some (chunk, m)) :
    (∃ a, s.map.lookup a = some (some chunk)) ∧
      ∀ a c, m.lookup a = some (some c) ↔ s.map.lookup a = some (some c) := by
  simp only [TransObjs.chunkOf, bind_eq_bind, bind_eq_some_iff] at h
  obtain ⟨⟨found, m₁⟩, hfound, h⟩ := h
  obtain ⟨hself, hkeep⟩ := lookup_getChunkFromMapO1 hfound
  cases found with
  | some c =>
    cases h
    exact ⟨⟨objptr, (hkeep _ _).mp hself⟩, hkeep⟩
  | none =>
    simp only [bind_eq_some_iff] at h
    obtain ⟨_, hperm, found, hwalk, c, hc, heq⟩ := h
    cases heq
    cases hc
    obtain ⟨a, ha, -⟩ := mem_of_getChunkFromMap hwalk
    have hlook : m.lookup a = some (some chunk) :=
      AList.mem_lookup_iff.mpr (((Option.guard_eq_some' _).mp hperm).mem_iff.mp ha)
    exact ⟨⟨a, (hkeep _ _).mp hlook⟩, hkeep⟩

/-- The address of an object leads to its chunk by subscript. -/
theorem chunkOf_of_lookup {c : MapChunk} (order : List MapEntry) (hobj : objptr ≠ 0)
    (hc : s.map.lookup objptr = some (some c)) :
    s.chunkOf objptr order = some (c, s.map) := by
  have hentries : s.map.entries ≠ [] := by
    intro hnil
    have hmem := AList.mem_lookup_iff.mp hc
    rw [hnil] at hmem
    cases hmem
  simp [TransObjs.chunkOf, getChunkFromMapO1, hc, hentries, hobj]

/-- A flush leaves the ring alone and keeps the chunks of the map. -/
theorem flushObj_spec {s' : TransObjs} {order : List MapEntry} {e : TransEvent}
    (h : flushObj s objptr order = some (e, s')) :
    ∃ ptr size m, e = .flushed ptr size ∧ s' = { s with map := m } ∧
      ∀ a c, m.lookup a = some (some c) ↔ s.map.lookup a = some (some c) := by
  unfold flushObj at h
  split at h
  · cases h
    exact ⟨_, _, s.map, rfl, rfl, fun _ _ => Iff.rfl⟩
  · simp only [bind_eq_bind, bind_eq_some_iff] at h
    obtain ⟨⟨chunk, m⟩, hfound, heq⟩ := h
    cases heq
    exact ⟨_, _, m, rfl, rfl, (chunkOf_spec hfound).2⟩

namespace TransHolds

variable {calls : List TransCall} {es : List TransEvent} {s : TransObjs}
  {e : TransEvent} {s' : TransObjs} (h : TransHolds calls es s)
include h

/-- A call that registers nothing and enters nothing. -/
theorem keep {call : TransCall} {m : AddrMap} (hcall : ∀ c, call ≠ .register c)
    (he : ∀ c, e ≠ .entered c)
    (hm : ∀ a c, m.lookup a = some (some c) ↔ s.map.lookup a = some (some c)) :
    TransHolds (calls ++ [call]) (es ++ [e]) { s with map := m } := by
  have hes : enteredChunks (es ++ [e]) = enteredChunks es := by
    cases e with
    | entered c => exact absurd rfl (he c)
    | _ => simp [enteredChunks]
  have hreg : ∀ {c}, .register c ∈ calls ++ [call] → .register c ∈ calls := by
    intro c hc
    rcases List.mem_append.mp hc with hc | hc
    · exact hc
    · exact absurd (List.mem_singleton.mp hc).symm (hcall c)
  refine ⟨by rw [hes]; exact h.ring, ?_, ?_, ?_⟩
  · intro a c hc
    obtain ⟨hmem, ha⟩ := h.chunk ((hm a c).mp hc)
    exact ⟨List.mem_append_left _ hmem, ha⟩
  · intro c hc
    obtain ⟨hne, c', hc'⟩ := h.registered (hreg hc)
    exact ⟨hne, c', (hm _ _).mpr hc'⟩
  · intro c hc
    rw [hes] at hc
    exact List.mem_append_left _ (h.entered hc)

theorem register {chunk : MapChunk} (hs : registerChunk s chunk = some (e, s')) :
    TransHolds (calls ++ [.register chunk]) (es ++ [e]) s' := by
  simp only [registerChunk, bind_eq_bind, bind_eq_some_iff] at hs
  obtain ⟨_, hguard, heq⟩ := hs
  have hne : chunk.nvPtr ≠ 0 := (Option.guard_eq_some' _).mp hguard
  cases heq
  have hes : enteredChunks (es ++ [.registered]) = enteredChunks es := by simp [enteredChunks]
  refine ⟨by rw [hes]; exact h.ring, ?_, ?_, ?_⟩
  · intro a c hc
    by_cases ha : a = chunk.nvPtr
    · subst ha
      rw [recordChunks, AList.lookup_insert] at hc
      cases hc
      simp
    · rw [recordChunks, AList.lookup_insert_ne ha] at hc
      obtain ⟨hmem, ha⟩ := h.chunk hc
      exact ⟨List.mem_append_left _ hmem, ha⟩
  · intro c hc
    by_cases ha : c.nvPtr = chunk.nvPtr
    · rw [ha]
      exact ⟨hne, chunk, AList.lookup_insert _⟩
    · have hmem : .register c ∈ calls := by
        rcases List.mem_append.mp hc with hc | hc
        · exact hc
        · cases List.mem_singleton.mp hc
          exact absurd rfl ha
      obtain ⟨hc₀, c', hc'⟩ := h.registered hmem
      exact ⟨hc₀, c', (AList.lookup_insert_ne ha).trans hc'⟩
  · intro c hc
    rw [hes] at hc
    exact List.mem_append_left _ (h.entered hc)

theorem begin {objptr : UInt64} {order : List MapEntry}
    (hs : beginObj s objptr order = some (e, s')) :
    TransHolds (calls ++ [.nvBegintransObj objptr order]) (es ++ [e]) s' := by
  simp only [beginObj, bind_eq_bind, bind_eq_some_iff] at hs
  obtain ⟨⟨chunk, m⟩, hfound, heq⟩ := hs
  cases heq
  obtain ⟨⟨a, ha⟩, hm⟩ := chunkOf_spec hfound
  have hes : enteredChunks (es ++ [.entered chunk]) = enteredChunks es ++ [chunk] := by
    simp [enteredChunks]
  have hreg : ∀ {c}, .register c ∈ calls ++ [.nvBegintransObj objptr order] →
      .register c ∈ calls := by simp
  refine ⟨by rw [hes]; exact h.ring.push chunk, ?_, ?_, ?_⟩
  · intro a c hc
    obtain ⟨hmem, ha⟩ := h.chunk ((hm a c).mp hc)
    exact ⟨List.mem_append_left _ hmem, ha⟩
  · intro c hc
    obtain ⟨hne, c', hc'⟩ := h.registered (hreg hc)
    exact ⟨hne, c', (hm _ _).mpr hc'⟩
  · intro c hc
    rw [hes, List.mem_append, List.mem_singleton] at hc
    rcases hc with hc | rfl
    · exact List.mem_append_left _ (h.entered hc)
    · exact List.mem_append_left _ (h.chunk ha).1

theorem flush {objptr : UInt64} {order : List MapEntry} {call : TransCall}
    (hcall : ∀ c, call ≠ .register c) (hs : flushObj s objptr order = some (e, s')) :
    TransHolds (calls ++ [call]) (es ++ [e]) s' := by
  obtain ⟨ptr, size, m, rfl, rfl, hm⟩ := flushObj_spec hs
  exact h.keep hcall (fun c hc => by cases hc) hm

end TransHolds

theorem transHolds_of_run {calls : List TransCall} {es : List TransEvent}
    (h : runSteps transCallStep calls {} = some (es, s)) : TransHolds calls es s := by
  induction calls using List.reverseRecOn generalizing es s with
  | nil =>
    cases h
    exact transHolds_empty
  | append_singleton calls call ih =>
    obtain ⟨es₁, s₁, es₂, hrun, hlast, rfl⟩ := runSteps_append_eq_some.mp h
    have h₁ := ih hrun
    obtain ⟨e, s₂, es₃, hcall, hnil, rfl⟩ := runSteps_cons_eq_some.mp hlast
    cases hnil
    cases call with
    | register chunk => exact h₁.register hcall
    | nvBegintransObj objptr order => exact h₁.begin hcall
    | nvCommitObj objptr order => exact h₁.flush (fun c hc => by cases hc) hcall
    | nvSyncObj objptr order => exact h₁.flush (fun c hc => by cases hc) hcall

/-! ## What a commit flushes -/

/-- The call flushes exactly the bytes of the chunk. -/
def FlushesChunk (c : MapChunk) (r : Option (TransEvent × TransObjs)) : Prop :=
  r.map Prod.fst = some (.flushed c.nvPtr c.length)

/-- `get_frm_cache` returns no chunk, or the chunk whose address is asked for. -/
def CacheRight (s : TransObjs) (c : MapChunk) : Prop :=
  getFrmCache s.cache c.nvPtr = none ∨ getFrmCache s.cache c.nvPtr = some c

theorem flushObj_of_hit {d : MapChunk} (order : List MapEntry)
    (h : getFrmCache s.cache objptr = some d) :
    flushObj s objptr order = some (.flushed d.nvPtr d.length, s) := by
  unfold flushObj
  rw [h]

theorem flushObj_of_miss {c : MapChunk} (order : List MapEntry)
    (h : getFrmCache s.cache objptr = none) (hobj : objptr ≠ 0)
    (hc : s.map.lookup objptr = some (some c)) :
    flushObj s objptr order = some (.flushed c.nvPtr c.length, s) := by
  unfold flushObj
  rw [h]
  dsimp only
  rw [chunkOf_of_lookup order hobj hc]
  rfl

/-- **What a commit flushes.**  After every history, `nv_commit_obj` and `nv_sync_obj` on a
registered object flush exactly the bytes of its chunk, and `get_frm_cache` returns no chunk
or that one, precisely when fewer than 32 chunks were entered into the ring, or the chunk is
not among the last 32, or it is the oldest of them. -/
theorem flushesChunk_iff_of_run {calls : List TransCall} {es : List TransEvent} {s : TransObjs}
    (h : runSteps transCallStep calls {} = some (es, s)) (hone : OneChunkEach calls) {c : MapChunk}
    (hc : .register c ∈ calls) (order : List MapEntry) :
    (FlushesChunk c (nvCommitObj s c.nvPtr order) ∧ FlushesChunk c (nvSyncObj s c.nvPtr order) ∧
      CacheRight s c) ↔
    (enteredChunks es).length < 32 ∨
      c ∉ (enteredChunks es).drop ((enteredChunks es).length - 32) ∨
      (enteredChunks es)[(enteredChunks es).length - 32]? = some c := by
  have hholds := transHolds_of_run h
  obtain ⟨hne, c', hc'⟩ := hholds.registered hc
  -- the map leads to the chunk itself
  obtain rfl : c = c' := by
    obtain ⟨hreg, haddr⟩ := hholds.chunk hc'
    exact hone c c' hc hreg haddr
  -- an entry with this address is the chunk
  have hmem : (∃ x ∈ (enteredChunks es).drop ((enteredChunks es).length - 32), x.nvPtr = c.nvPtr) ↔
      c ∈ (enteredChunks es).drop ((enteredChunks es).length - 32) := by
    constructor
    · rintro ⟨x, hx, haddr⟩
      rwa [← hone x c (hholds.entered (List.mem_of_mem_drop hx)) hc haddr]
    · exact fun hx => ⟨c, hx, rfl⟩
  have hcache : getFrmCache s.cache c.nvPtr =
      if c ∈ (enteredChunks es).drop ((enteredChunks es).length - 32) then
        if (enteredChunks es).length < 32 then none
        else (enteredChunks es)[(enteredChunks es).length - 32]?
      else none := by
    rw [getFrmCache, hholds.ring.chunkCache_next]
    simp only [hholds.ring.hit_iff hne, hmem]
  constructor
  · rintro ⟨hcommit, -, -⟩
    by_contra hno
    push Not at hno
    obtain ⟨hfull, hin, hold⟩ := hno
    have hlt : (enteredChunks es).length - 32 < (enteredChunks es).length := by omega
    let d := (enteredChunks es)[(enteredChunks es).length - 32]
    have hd : (enteredChunks es)[(enteredChunks es).length - 32]? = some d :=
      List.getElem?_eq_getElem hlt
    rw [if_pos hin, if_neg (by omega), hd] at hcache
    have hflush : FlushesChunk c (flushObj s c.nvPtr order) := hcommit
    rw [FlushesChunk, flushObj_of_hit order hcache, map_some, some_inj] at hflush
    injection hflush with haddr
    have hdc : d = c := hone d c (hholds.entered (List.getElem_mem hlt)) hc haddr
    rw [hdc] at hd
    exact hold hd
  · intro hcond
    have hright : CacheRight s c := by
      rw [CacheRight, hcache]
      rcases hcond with hfew | hout | hold
      · rw [if_pos hfew, ite_self]
        exact .inl rfl
      · rw [if_neg hout]
        exact .inl rfl
      · rw [hold]
        split
        · split
          · exact .inl rfl
          · exact .inr rfl
        · exact .inl rfl
    have hflush : FlushesChunk c (flushObj s c.nvPtr order) := by
      rcases hright with hnone | hsome
      · rw [FlushesChunk, flushObj_of_miss order hnone hne hc']
        rfl
      · rw [FlushesChunk, flushObj_of_hit order hsome]
        rfl
    exact ⟨hflush, hflush, hright⟩

/-- An object of 16 bytes. -/
def sampleObj (addr : UInt64) : MapChunk :=
  { id := addr.toNat, nvPtr := addr, length := 16, length_ne := sixteen_ne_zero }

/-- One transaction on a first object and `n` on a second one. -/
def transactions (n : ℕ) : List TransCall :=
  [.register (sampleObj 4096), .register (sampleObj 4112), .nvBegintransObj 4096 []] ++
    List.replicate n (.nvBegintransObj 4112 [])

theorem oneChunkEach_transactions (n : ℕ) : OneChunkEach (transactions n) := by
  have hcases : ∀ {c}, .register c ∈ transactions n → c = sampleObj 4096 ∨ c = sampleObj 4112 := by
    intro c hc
    simpa [transactions, List.mem_replicate] using hc
  intro c c' hc hc' haddr
  rcases hcases hc with rfl | rfl <;> rcases hcases hc' with rfl | rfl
  · rfl
  · exact absurd haddr (by decide)
  · exact absurd haddr (by decide)
  · rfl

/-- A commit of the oldest object in a ring that is just full. -/
theorem flushesChunk_transactions :
    ∃ es s, runSteps transCallStep (transactions 31) {} = some (es, s) ∧
    FlushesChunk (sampleObj 4096) (nvCommitObj s 4096 []) := by
  have hrun : (runSteps transCallStep (transactions 31) {}).map (fun x => (enteredChunks x.1)[
      (enteredChunks x.1).length - 32]?) = some (some (sampleObj 4096)) := by decide +kernel
  obtain ⟨⟨es, s⟩, h, hold⟩ := map_eq_some_iff.mp hrun
  refine ⟨es, s, h, ?_⟩
  exact ((flushesChunk_iff_of_run h (oneChunkEach_transactions 31) (c := sampleObj 4096)
    (by simp [transactions]) []).mpr (.inr (.inr hold))).1

/-- A commit of the other object then flushes the bytes of the oldest one. -/
theorem not_flushesChunk_transactions :
    ∃ es s, runSteps transCallStep (transactions 31) {} = some (es, s) ∧
      ¬ FlushesChunk (sampleObj 4112) (nvCommitObj s 4112 []) ∧
      FlushesChunk (sampleObj 4096) (nvCommitObj s 4112 []) ∧
      getFrmCache s.cache 4112 = some (sampleObj 4096) := by
  have hrun : (runSteps transCallStep (transactions 31) {}).map
    (fun x => (getFrmCache x.2.cache 4112,
      (nvCommitObj x.2 4112 []).map Prod.fst)) =
      some (some (sampleObj 4096), some (.flushed 4096 16)) := by decide +kernel
  obtain ⟨⟨es, s⟩, h, heq⟩ := map_eq_some_iff.mp hrun
  simp only [Prod.mk.injEq] at heq
  obtain ⟨hcache, hcommit⟩ := heq
  refine ⟨es, s, h, ?_, hcommit, hcache⟩
  rw [FlushesChunk, hcommit]
  decide
