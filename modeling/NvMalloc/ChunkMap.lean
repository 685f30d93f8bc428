/-
# From addresses to chunks

`chunkmap` in `hash_maps.cc` maps the address of an object to its chunk.
`get_chunk_from_map_o1` looks an address up with the map's subscript, which inserts a null
chunk where there is none; `get_chunk_from_map` walks over all entries, in the order of the
hash table, and returns the first chunk whose range contains the address.

The walk reads the length of every chunk it meets, null or not, and counts the end of a
range as part of it.  So it is exact, whatever the order, precisely when every address that
was looked up by subscript has been recorded and the address is not the end of a range.
-/
import NvMalloc.Runs

/-! ## The map -/

/-- A chunk as the map sees it.  `add_chunkobj` asserts that a chunk has a length, before
`record_chunks` is called for it. -/
structure MapChunk where
  id : ℕ
  nvPtr : UInt64 := 0
  length : UInt32
  length_ne : length ≠ 0
  deriving DecidableEq

/-- `chunkmap`; an entry may hold a null pointer. -/
abbrev AddrMap := AList fun _ : UInt64 => Option MapChunk

/-- An entry of the map, as the iterator gives it. -/
abbrev MapEntry := Σ _ : UInt64, Option MapChunk

/-- `record_chunks`. -/
def recordChunks (m : AddrMap) (addr : UInt64) (chunk : MapChunk) : AddrMap :=
  m.insert addr (some chunk)

/-- `get_chunk_from_map_o1`: the chunk, if any, and the map it leaves. -/
def getChunkFromMapO1 (m : AddrMap) (addr : UInt64) : Option (Option MapChunk × AddrMap) := do
  guard (m.entries ≠ [])
  guard (addr ≠ 0)
  match m.lookup addr with
  | some chunk => return (chunk, m)
  | none => return (none, m.insert addr none)

/-- The test of `get_chunk_from_map`, with 64-bit addresses. -/
def inChunk (ptr start : UInt64) (chunk : MapChunk) : Prop :=
  start ≤ ptr ∧ ptr ≤ start + chunk.length.toUInt64

instance (ptr start : UInt64) (chunk : MapChunk) : Decidable (inChunk ptr start chunk) :=
  inferInstanceAs (Decidable (_ ∧ _))

/-- `get_chunk_from_map`, which meets the entries in the order of the list; undefined when it
reads the length of a null chunk. -/
def getChunkFromMap (ptr : UInt64) : List MapEntry → Option (Option MapChunk)
  | [] => some none
  | ⟨_, none⟩ :: _ => none
  | ⟨start, some chunk⟩ :: rest =>
    if inChunk ptr start chunk then some (some chunk) else getChunkFromMap ptr rest

/-! ## Histories -/

/-- The calls on the map. -/
inductive MapCall where
  | recordChunks (addr : UInt64) (chunk : MapChunk)
  | getChunkFromMapO1 (addr : UInt64)
  /-- The hash table gives its entries in the order `order`. -/
  | getChunkFromMap (addr : UInt64) (order : List MapEntry)

/-- One call. -/
def mapStep (m : AddrMap) : MapCall → Option (Option MapChunk × AddrMap)
  | .recordChunks addr chunk => some (none, recordChunks m addr chunk)
  | .getChunkFromMapO1 addr => getChunkFromMapO1 m addr
  | .getChunkFromMap addr order =>
    if order.Perm m.entries then (getChunkFromMap addr order).map fun r => (r, m) else none

/-- The address lies in the range of the chunk. -/
def inRange (a start : UInt64) (chunk : MapChunk) : Prop :=
  start.toNat ≤ a.toNat ∧ a.toNat < start.toNat + chunk.length.toNat

/-- The chunks that are recorded have one range each, and these are pairwise disjoint. -/
def DisjointChunks (calls : List MapCall) : Prop :=
  ∀ s₁ c₁ s₂ c₂, .recordChunks s₁ c₁ ∈ calls → .recordChunks s₂ c₂ ∈ calls →
    (s₁ = s₂ ∧ c₁ = c₂) ∨ (c₁ ≠ c₂ ∧ ∀ a, ¬ (inRange a s₁ c₁ ∧ inRange a s₂ c₂))

/-- The answer is the chunk, among those recorded, whose range contains the address. -/
def ExactAnswer (calls : List MapCall) (a : UInt64) (answer : Option (Option MapChunk)) : Prop :=
  ∃ found, answer = some found ∧
    ∀ chunk, found = some chunk ↔ ∃ start, .recordChunks start chunk ∈ calls ∧ inRange a start chunk

/-- What the map holds after a history. -/
structure MapHolds (calls : List MapCall) (m : AddrMap) : Prop where
  chunk : ∀ {a c}, m.lookup a = some (some c) → .recordChunks a c ∈ calls
  null : ∀ {a}, m.lookup a = some none →
    .getChunkFromMapO1 a ∈ calls ∧ ∀ c, .recordChunks a c ∉ calls
  recorded : ∀ {a c}, .recordChunks a c ∈ calls → ∃ c', m.lookup a = some (some c')
  looked : ∀ {a}, .getChunkFromMapO1 a ∈ calls → (m.lookup a).isSome

theorem mapHolds_empty : MapHolds [] ∅ where
  chunk h := by cases h
  null h := by cases h
  recorded h := by cases h
  looked h := by cases h

namespace MapHolds

variable {calls : List MapCall} {m : AddrMap}

theorem record (h : MapHolds calls m) (addr : UInt64) (chunk : MapChunk) :
    MapHolds (calls ++ [.recordChunks addr chunk]) (recordChunks m addr chunk) := by
  have hself : (recordChunks m addr chunk).lookup addr = some (some chunk) :=
    AList.lookup_insert m
  have hother : ∀ {a}, a ≠ addr → (recordChunks m addr chunk).lookup a = m.lookup a :=
    fun ha => AList.lookup_insert_ne ha
  constructor
  · intro a c hc
    by_cases ha : a = addr
    · subst ha
      rw [hself] at hc
      cases hc
      simp
    · rw [hother ha] at hc
      exact List.mem_append_left _ (h.chunk hc)
  · intro a hnull
    have ha : a ≠ addr := by
      rintro rfl
      rw [hself] at hnull
      cases hnull
    rw [hother ha] at hnull
    obtain ⟨hlook, hrec⟩ := h.null hnull
    refine ⟨List.mem_append_left _ hlook, ?_⟩
    intro c hc
    rcases List.mem_append.mp hc with hc | hc
    · exact hrec c hc
    · simp only [List.mem_singleton, MapCall.recordChunks.injEq] at hc
      exact ha hc.1
  · intro a c hc
    by_cases ha : a = addr
    · subst ha
      exact ⟨chunk, hself⟩
    · rcases List.mem_append.mp hc with hc | hc
      · rw [hother ha]
        exact h.recorded hc
      · simp only [List.mem_singleton, MapCall.recordChunks.injEq] at hc
        exact absurd hc.1 ha
  · intro a hlook
    by_cases ha : a = addr
    · subst ha
      rw [hself]
      rfl
    · rw [hother ha]
      rcases List.mem_append.mp hlook with hlook | hlook
      · exact h.looked hlook
      · simp at hlook

/-- A lookup by subscript that finds an entry, or makes a null one. -/
theorem lookO1 (h : MapHolds calls m) {addr : UInt64} {found : Option MapChunk} {m' : AddrMap}
    (hm : getChunkFromMapO1 m addr = some (found, m')) :
    MapHolds (calls ++ [.getChunkFromMapO1 addr]) m' := by
  have hrec : ∀ a c, .recordChunks a c ∈ calls ++ [MapCall.getChunkFromMapO1 addr] ↔
      .recordChunks a c ∈ calls := by simp
  have hlook : ∀ a, .getChunkFromMapO1 a ∈ calls ++ [MapCall.getChunkFromMapO1 addr] ↔
      .getChunkFromMapO1 a ∈ calls ∨ a = addr := by simp
  simp only [getChunkFromMapO1, Option.bind_eq_bind, Option.bind_eq_some_iff] at hm
  obtain ⟨-, -, -, -, hm⟩ := hm
  cases hentry : m.lookup addr with
  | some chunk =>
    rw [hentry] at hm
    cases hm
    refine ⟨fun hc => (hrec _ _).mpr (h.chunk hc), ?_, fun hc => h.recorded ((hrec _ _).mp hc), ?_⟩
    · intro a hnull
      obtain ⟨ha, hno⟩ := h.null hnull
      exact ⟨(hlook a).mpr (.inl ha), fun c hc => hno c ((hrec _ _).mp hc)⟩
    · intro a ha
      rcases (hlook a).mp ha with ha | rfl
      · exact h.looked ha
      · rw [hentry]
        rfl
  | none =>
    rw [hentry] at hm
    cases hm
    have hself : (m.insert addr none).lookup addr = some none := AList.lookup_insert m
    have hother : ∀ {a}, a ≠ addr → (m.insert addr none).lookup a = m.lookup a :=
      fun ha => AList.lookup_insert_ne ha
    have hfresh : ∀ c, .recordChunks addr c ∉ calls := by
      intro c hc
      obtain ⟨c', hc'⟩ := h.recorded hc
      rw [hentry] at hc'
      cases hc'
    constructor
    · intro a c hc
      have ha : a ≠ addr := by
        rintro rfl
        rw [hself] at hc
        cases hc
      rw [hother ha] at hc
      exact (hrec _ _).mpr (h.chunk hc)
    · intro a hnull
      by_cases ha : a = addr
      · subst ha
        exact ⟨(hlook a).mpr (.inr rfl), fun c hc => hfresh c ((hrec _ _).mp hc)⟩
      · rw [hother ha] at hnull
        obtain ⟨hl, hno⟩ := h.null hnull
        exact ⟨(hlook a).mpr (.inl hl), fun c hc => hno c ((hrec _ _).mp hc)⟩
    · intro a c hc
      have hc' := (hrec _ _).mp hc
      have ha : a ≠ addr := by
        rintro rfl
        exact hfresh c hc'
      rw [hother ha]
      exact h.recorded hc'
    · intro a ha
      by_cases haddr : a = addr
      · subst haddr
        rw [hself]
        rfl
      · rw [hother haddr]
        rcases (hlook a).mp ha with ha | ha
        · exact h.looked ha
        · exact absurd ha haddr

/-- A walk over the entries leaves the map alone. -/
theorem walk (h : MapHolds calls m) (addr : UInt64) (order : List MapEntry) :
    MapHolds (calls ++ [.getChunkFromMap addr order]) m where
  chunk hc := List.mem_append_left _ (h.chunk hc)
  null hnull := by
    obtain ⟨hlook, hno⟩ := h.null hnull
    exact ⟨List.mem_append_left _ hlook, by simpa using hno⟩
  recorded hc := h.recorded (by simpa using hc)
  looked ha := h.looked (by simpa using ha)

end MapHolds

/-- After every history the map holds the recorded chunks and a null chunk for every address
that was only looked up by subscript. -/
theorem mapHolds_of_run {calls : List MapCall} {rs : List (Option MapChunk)} {m : AddrMap}
    (h : runSteps mapStep calls ∅ = some (rs, m)) : MapHolds calls m := by
  induction calls using List.reverseRecOn generalizing rs m with
  | nil =>
    cases h
    exact mapHolds_empty
  | append_singleton calls call ih =>
    obtain ⟨rs₁, m₁, rs₂, hrun, hlast, -⟩ := runSteps_append_eq_some.mp h
    have hm₁ := ih hrun
    obtain ⟨r, m₂, rs₃, hcall, hnil, -⟩ := runSteps_cons_eq_some.mp hlast
    cases hnil
    cases call with
    | recordChunks addr chunk =>
      cases hcall
      exact hm₁.record addr chunk
    | getChunkFromMapO1 addr => exact hm₁.lookO1 hcall
    | getChunkFromMap addr order =>
      simp only [mapStep] at hcall
      split at hcall
      · obtain ⟨_, -, heq⟩ := Option.map_eq_some_iff.mp hcall
        cases heq
        exact hm₁.walk addr order
      · cases hcall

/-! ## The walk -/

/-- The inclusive test in 64 bits agrees with the range, unless the address is the end of the
range or the range reaches the end of the address space. -/
theorem inChunk_iff_inRange {a start : UInt64} {chunk : MapChunk} :
    (inChunk a start chunk ↔ inRange a start chunk) ↔
      a.toNat ≠ start.toNat + chunk.length.toNat ∧
        (start.toNat + chunk.length.toNat < 2 ^ 64 ∨ a.toNat < start.toNat) := by
  have ha : a.toNat < 2 ^ 64 := a.toNat_lt
  have hstart : start.toNat < 2 ^ 64 := start.toNat_lt
  have hlen : chunk.length.toNat < 2 ^ 32 := chunk.length.toNat_lt
  unfold inChunk inRange
  rw [UInt64.le_iff_toNat_le, UInt64.le_iff_toNat_le, UInt64.toNat_add, UInt32.toNat_toUInt64]
  constructor
  · intro h
    constructor
    · intro hend
      have := h.mp
      omega
    · by_contra hno
      have := h.mpr
      omega
  · rintro ⟨hend, hwrap⟩
    constructor
    · rintro ⟨h₁, h₂⟩
      omega
    · rintro ⟨h₁, h₂⟩
      omega

/-- The walk returns a chunk that passes the test. -/
theorem mem_of_getChunkFromMap {a : UInt64} {order : List MapEntry} {chunk : MapChunk}
    (h : getChunkFromMap a order = some (some chunk)) :
    ∃ s, (⟨s, some chunk⟩ : MapEntry) ∈ order ∧ inChunk a s chunk := by
  induction order with
  | nil => cases h
  | cons e order ih =>
    obtain ⟨s, c | c⟩ := e
    · cases h
    · rw [getChunkFromMap] at h
      split at h
      · next hin =>
        cases h
        exact ⟨s, List.mem_cons_self, hin⟩
      · obtain ⟨s', hs', hin'⟩ := ih h
        exact ⟨s', List.mem_cons_of_mem _ hs', hin'⟩

/-- Without null chunks it returns, and it passes over no chunk that passes the test. -/
theorem exists_getChunkFromMap {a : UInt64} {order : List MapEntry}
    (hnull : ∀ s, (⟨s, none⟩ : MapEntry) ∉ order) :
    ∃ found, getChunkFromMap a order = some found ∧
      (found = none → ∀ s chunk, (⟨s, some chunk⟩ : MapEntry) ∈ order → ¬ inChunk a s chunk) := by
  induction order with
  | nil => exact ⟨none, rfl, fun _ _ _ h => absurd h List.not_mem_nil⟩
  | cons e order ih =>
    obtain ⟨s, c | c⟩ := e
    · exact absurd List.mem_cons_self (hnull s)
    · by_cases hin : inChunk a s c
      · exact ⟨some c, by rw [getChunkFromMap, if_pos hin], fun h => by cases h⟩
      · obtain ⟨found, hfound, hnone⟩ := ih fun s' hs' => hnull s' (List.mem_cons_of_mem _ hs')
        refine ⟨found, by rw [getChunkFromMap, if_neg hin, hfound], ?_⟩
        intro hno s' c' hc'
        rcases List.mem_cons.mp hc' with heq | hc'
        · cases heq
          exact hin
        · exact hnone hno s' c' hc'

/-- Any entry may come first. -/
theorem exists_perm_cons {e : MapEntry} {es : List MapEntry} (h : e ∈ es) :
    ∃ rest, (e :: rest).Perm es := by
  obtain ⟨l₁, l₂, rfl⟩ := List.append_of_mem h
  exact ⟨l₁ ++ l₂, List.perm_middle.symm⟩

/-- **Address-to-chunk lookup.**  After every history of recorded chunks with disjoint ranges
and of lookups, `get_chunk_from_map` is exact for an address and every order of the hash
table precisely when each address that was looked up by subscript was also recorded, and the
address is not the end of a range, nor in or behind one that reaches the end of the address
space. -/
theorem exactAnswer_iff_of_run {calls : List MapCall} {rs : List (Option MapChunk)} {m : AddrMap}
    (h : runSteps mapStep calls ∅ = some (rs, m)) (hdisj : DisjointChunks calls) (a : UInt64) :
    (∀ order : List MapEntry, order.Perm m.entries →
      ExactAnswer calls a (getChunkFromMap a order)) ↔
      (∀ b, .getChunkFromMapO1 b ∈ calls → ∃ chunk, .recordChunks b chunk ∈ calls) ∧
      ∀ start chunk, .recordChunks start chunk ∈ calls →
        a.toNat ≠ start.toNat + chunk.length.toNat ∧
          (start.toNat + chunk.length.toNat < 2 ^ 64 ∨ a.toNat < start.toNat) := by
  have hholds := mapHolds_of_run h
  have hentry : ∀ {s : UInt64} {v : Option MapChunk}, (⟨s, v⟩ : MapEntry) ∈ m.entries ↔
      m.lookup s = some v := fun {s v} => AList.mem_lookup_iff.symm
  -- the entry of a recorded chunk is still there
  have hkept : ∀ {s c}, .recordChunks s c ∈ calls → m.lookup s = some (some c) := by
    intro s c hc
    obtain ⟨c', hc'⟩ := hholds.recorded hc
    rcases hdisj s c s c' hc (hholds.chunk hc') with ⟨-, rfl⟩ | ⟨-, hno⟩
    · exact hc'
    · have hpos : ∀ x : MapChunk, 0 < x.length.toNat := by
        intro x
        rw [Nat.pos_iff_ne_zero, ne_eq, ← UInt32.toNat_zero, UInt32.toNat_inj]
        exact x.length_ne
      have hc₀ := hpos c
      have hc₁ := hpos c'
      exact absurd ⟨⟨le_rfl, by omega⟩, ⟨le_rfl, by omega⟩⟩ (hno s)
  constructor
  · intro hexact
    constructor
    · intro b hb
      by_contra hno
      obtain ⟨v, hv⟩ := Option.isSome_iff_exists.mp (hholds.looked hb)
      cases v with
      | some c => exact hno ⟨c, hholds.chunk hv⟩
      | none =>
        -- a walk that starts with the null chunk does not return
        obtain ⟨rest, hperm⟩ := exists_perm_cons (hentry.mpr hv)
        obtain ⟨found, hfound, -⟩ := hexact _ hperm
        cases hfound
    · intro start chunk hc
      rw [← inChunk_iff_inRange]
      obtain ⟨rest, hperm⟩ := exists_perm_cons (hentry.mpr (hkept hc))
      obtain ⟨found, hfound, hfix⟩ := hexact _ hperm
      have hsame : ∀ s, .recordChunks s chunk ∈ calls → s = start := by
        intro s hs
        rcases hdisj s chunk start chunk hs hc with ⟨heq, -⟩ | ⟨hne, -⟩
        · exact heq
        · exact absurd rfl hne
      constructor
      · intro hin
        -- a walk that starts with this chunk returns it
        rw [getChunkFromMap, if_pos hin] at hfound
        obtain ⟨s, hs, hrange⟩ := (hfix chunk).mp (Option.some.inj hfound).symm
        rwa [hsame s hs] at hrange
      · intro hrange
        rw [(hfix chunk).mpr ⟨start, hc, hrange⟩] at hfound
        obtain ⟨s, hs, hin⟩ := mem_of_getChunkFromMap hfound
        rwa [hsame s (hholds.chunk (hentry.mp (hperm.mem_iff.mp hs)))] at hin
  · rintro ⟨hlook, hend⟩ order hperm
    have hmem : ∀ {s : UInt64} {v : Option MapChunk}, (⟨s, v⟩ : MapEntry) ∈ order ↔
        m.lookup s = some v := fun {s v} => hperm.mem_iff.trans hentry
    have hnull : ∀ s, (⟨s, none⟩ : MapEntry) ∉ order := by
      intro s hs
      obtain ⟨hb, hno⟩ := hholds.null (hmem.mp hs)
      obtain ⟨c, hc⟩ := hlook s hb
      exact hno c hc
    obtain ⟨found, hfound, hnone⟩ := exists_getChunkFromMap (a := a) hnull
    refine ⟨found, hfound, ?_⟩
    have htest : ∀ {s c}, .recordChunks s c ∈ calls → (inChunk a s c ↔ inRange a s c) :=
      fun hc => inChunk_iff_inRange.mpr (hend _ _ hc)
    intro chunk
    constructor
    · rintro rfl
      obtain ⟨s, hs, hin⟩ := mem_of_getChunkFromMap hfound
      have hrec := hholds.chunk (hmem.mp hs)
      exact ⟨s, hrec, (htest hrec).mp hin⟩
    · rintro ⟨s, hs, hrange⟩
      cases found with
      | none => exact absurd ((htest hs).mpr hrange) (hnone rfl s chunk (hmem.mpr (hkept hs)))
      | some c =>
        -- the chunk that was found contains the address too
        obtain ⟨s', hs', hin'⟩ := mem_of_getChunkFromMap hfound
        have hrec' := hholds.chunk (hmem.mp hs')
        rcases hdisj s' c s chunk hrec' hs with ⟨-, rfl⟩ | ⟨-, hno⟩
        · rfl
        · exact absurd ⟨(htest hrec').mp hin', hrange⟩ (hno a)

theorem sixteen_ne_zero : (16 : UInt32) ≠ 0 := by decide

/-- A chunk of 16 bytes. -/
def sampleChunk (id : ℕ) : MapChunk := { id := id, length := 16, length_ne := sixteen_ne_zero }

/-- Two chunks next to each other, and a lookup of one by subscript. -/
def adjacentCalls : List MapCall :=
  [.recordChunks 4096 (sampleChunk 1), .recordChunks 4112 (sampleChunk 2), .getChunkFromMapO1 4096]

theorem disjoint_adjacentCalls : DisjointChunks adjacentCalls := by
  have hcases : ∀ {s c}, .recordChunks s c ∈ adjacentCalls →
      (s = 4096 ∧ c = sampleChunk 1) ∨ (s = 4112 ∧ c = sampleChunk 2) := by
    intro s c hc
    simpa [adjacentCalls] using hc
  intro s₁ c₁ s₂ c₂ h₁ h₂
  rcases hcases h₁ with ⟨rfl, rfl⟩ | ⟨rfl, rfl⟩ <;> rcases hcases h₂ with ⟨rfl, rfl⟩ | ⟨rfl, rfl⟩
  · exact .inl ⟨rfl, rfl⟩
  · refine .inr ⟨by decide, fun a ha => ?_⟩
    have h₁ : a.toNat < 4112 := ha.1.2
    have h₂ : 4112 ≤ a.toNat := ha.2.1
    omega
  · refine .inr ⟨by decide, fun a ha => ?_⟩
    have h₁ : a.toNat < 4112 := ha.2.2
    have h₂ : 4112 ≤ a.toNat := ha.1.1
    omega
  · exact .inl ⟨rfl, rfl⟩

/-- An address inside the first chunk is found. -/
theorem exactAnswer_adjacentCalls : ∃ rs m, runSteps mapStep adjacentCalls ∅ = some (rs, m) ∧
    ∀ order : List MapEntry, order.Perm m.entries →
      ExactAnswer adjacentCalls 4100 (getChunkFromMap 4100 order) := by
  obtain ⟨⟨rs, m⟩, h⟩ := Option.isSome_iff_exists.mp
    (show (runSteps mapStep adjacentCalls ∅).isSome by decide +kernel)
  refine ⟨rs, m, h, (exactAnswer_iff_of_run h disjoint_adjacentCalls 4100).mpr ?_⟩
  constructor
  · intro b hb
    have hb' : b = 4096 := by simpa [adjacentCalls] using hb
    exact ⟨sampleChunk 1, by simp [adjacentCalls, hb']⟩
  · intro start chunk hc
    have hc' : (start = 4096 ∧ chunk = sampleChunk 1) ∨ (start = 4112 ∧ chunk = sampleChunk 2) := by
      simpa [adjacentCalls] using hc
    rcases hc' with ⟨rfl, rfl⟩ | ⟨rfl, rfl⟩ <;> decide

/-- At the boundary of the two chunks the answer depends on the order of the table, and after
a lookup of a free address by subscript the walk may read a null chunk. -/
theorem not_exactAnswer_adjacentCalls :
    (∃ rs m, runSteps mapStep adjacentCalls ∅ = some (rs, m) ∧
      ∃ order₁ order₂ : List MapEntry, order₁.Perm m.entries ∧ order₂.Perm m.entries ∧
        getChunkFromMap 4112 order₁ = some (some (sampleChunk 1)) ∧
        getChunkFromMap 4112 order₂ = some (some (sampleChunk 2)) ∧
        ¬ ExactAnswer adjacentCalls 4112 (getChunkFromMap 4112 order₁)) ∧
    ∃ rs m, runSteps mapStep (adjacentCalls ++ [.getChunkFromMapO1 8192]) ∅ = some (rs, m) ∧
      ∃ order : List MapEntry, order.Perm m.entries ∧ getChunkFromMap 4100 order = none := by
  constructor
  · have hrun : (runSteps mapStep adjacentCalls ∅).map (fun x => x.2.entries) =
        some [⟨4112, some (sampleChunk 2)⟩, ⟨4096, some (sampleChunk 1)⟩] := by decide +kernel
    obtain ⟨⟨rs, m⟩, h, hentries⟩ := Option.map_eq_some_iff.mp hrun
    refine ⟨rs, m, h, [⟨4096, some (sampleChunk 1)⟩, ⟨4112, some (sampleChunk 2)⟩],
      [⟨4112, some (sampleChunk 2)⟩, ⟨4096, some (sampleChunk 1)⟩], ?_, ?_, rfl, rfl, ?_⟩
    · rw [hentries]
      exact List.Perm.swap _ _ _
    · rw [hentries]
    · rintro ⟨found, hfound, hfix⟩
      obtain ⟨start, hrec, -, hrange⟩ := (hfix (sampleChunk 1)).mp (Option.some.inj hfound).symm
      have hstart : start = 4096 := by
        have : start = 4096 ∨ start = 4112 ∧ sampleChunk 1 = sampleChunk 2 := by
          simpa [adjacentCalls] using hrec
        simpa [sampleChunk] using this
      rw [hstart] at hrange
      exact absurd hrange (by decide)
  · have hrun : (runSteps mapStep (adjacentCalls ++ [.getChunkFromMapO1 8192]) ∅).map
        (fun x => x.2.entries) = some [⟨8192, none⟩, ⟨4112, some (sampleChunk 2)⟩,
          ⟨4096, some (sampleChunk 1)⟩] := by decide +kernel
    obtain ⟨⟨rs, m⟩, h, hentries⟩ := Option.map_eq_some_iff.mp hrun
    exact ⟨rs, m, h, m.entries, List.Perm.refl _, by rw [hentries]; rfl⟩
