/-
# Durable deletes

A delete is durable when the name cannot be read again, in this run or after any number
of restarts, until it is allocated or renamed onto again.  `nv_delete` invalidates one
chunk and removes one tree entry, so what it leaves behind decides: a second valid
chunk with the same id comes back at the next restart.

`Refers` are the chunks an id leads to now or after a restart.  As long as no operation
gives an id to a second chunk (`Single`), each id refers to at most one chunk (`Tidy`),
a delete leaves its id dead, and a dead id stays dead.
-/
import NvMalloc.Rename

open WriteM Function

/-- Chunk `c` has an entry under id `k`, or gets one at the next restart. -/
def Refers (d : Disk) (p k : ℕ) (c : ChunkPtr) : Prop :=
  (∃ q, IsRegion d.shape p q ∧ d.entry q k = some c) ∨ Holds d p k c

/-- Every tree holds chunks of its own region. -/
def OwnEntries (d : Disk) (p : ℕ) : Prop :=
  ∀ {q k c}, IsRegion d.shape p q → d.entry q k = some c → IsChunk d.shape q c

/-- Each id refers to one chunk at most. -/
structure Tidy (d : Disk) (p : ℕ) : Prop where
  unique : ∀ {k c c'}, Refers d p k c → Refers d p k c' → c = c'
  own : OwnEntries d p

/-- No valid chunk is reached under id `k`. -/
def Dead (d : Disk) (p k : ℕ) : Prop := ∀ c, Refers d p k c → (d.chunk c).valid = .INVALID

/-- Under id `k` no chunk is reached that was not, and none has become valid. -/
def NotRevived (d d' : Disk) (p k : ℕ) : Prop := ∀ {c}, Refers d' p k c →
  Refers d p k c ∧ ((d.chunk c).valid = .INVALID → (d'.chunk c).valid = .INVALID)

variable {d : Disk} {p k : ℕ} {c : ChunkPtr}

theorem NotRevived.trans {d' d'' : Disk} (h : NotRevived d d' p k) (h' : NotRevived d' d'' p k) :
    NotRevived d d'' p k := by
  intro c hc
  obtain ⟨hc', hv'⟩ := h' hc
  obtain ⟨hc, hv⟩ := h hc'
  exact ⟨hc, fun hinv => hv' (hv hinv)⟩

theorem NotRevived.dead {d' : Disk} (h : NotRevived d d' p k) (hd : Dead d p k) :
    Dead d' p k := by
  intro c hc
  obtain ⟨hc, hv⟩ := h hc
  exact hv (hd c hc)

theorem Tidy.of_notRevived {d' : Disk} (ht : Tidy d p) (h : ∀ k, NotRevived d d' p k)
    (hown : OwnEntries d' p) : Tidy d' p :=
  ⟨fun hc hc' => ht.unique (h _ hc).1 (h _ hc').1, hown⟩

theorem Finds.refers {q : MmapPtr} (hf : Finds d p k q c) :
    Refers d p k c := .inl ⟨q, hf.region, hf.entry⟩

theorem OwnEntries.inScan (hown : OwnEntries d p) (hc : Refers d p k c) : InScan d.shape p c := by
  rcases hc with ⟨q, hq, hentry⟩ | hk
  · exact ⟨q, hq, hown hq hentry⟩
  · exact hk.scan

/-! ## Steps that add no chunk -/

section Shrink

variable {p : ℕ} {st st' : Store}

/-- A change that keeps the frame and the ids, enters nothing and makes nothing valid. -/
theorem Effect.notRevived {chunk : ChunkPtr → Chunkobj} {entry : MmapPtr → ℕ → Option ChunkPtr}
    {data : DataFile → Option DataContent} (he : Effect st st' chunk entry data)
    (hown : OwnEntries st.disk p)
    (hentry : ∀ {q k c}, entry q k = some c → st.disk.entry q k = some c)
    (hid : ∀ c, (chunk c).chunkid = (st.disk.chunk c).chunkid)
    (hvalid : ∀ c, (st.disk.chunk c).valid = .INVALID → (chunk c).valid = .INVALID) :
    (∀ k, NotRevived st.disk st'.disk p k) ∧ OwnEntries st'.disk p := by
  refine ⟨?_, ?_⟩
  · intro k c hc
    rw [he.chunk]
    refine ⟨?_, hvalid c⟩
    rcases hc with ⟨q, hq, hqc⟩ | hk
    · rw [he.frame.shape_eq] at hq
      rw [he.entry] at hqc
      exact .inl ⟨q, hq, hentry hqc⟩
    · obtain ⟨hs, hv, hk⟩ := he.holds_iff.mp hk
      refine .inr ⟨hs, ?_, (hid c).symm.trans hk⟩
      cases hv' : (st.disk.chunk c).valid with
      | VALID => rfl
      | INVALID =>
        rw [hvalid c hv'] at hv
        cases hv
  · intro q k c hq hqc
    rw [he.frame.shape_eq] at hq ⊢
    rw [he.entry] at hqc
    exact hown hq (hentry hqc)

/-- The same for a change of one chunk. -/
theorem Effect.notRevived_at {c : ChunkPtr} {r : Chunkobj} {entry : MmapPtr → ℕ → Option ChunkPtr}
    {data : DataFile → Option DataContent}
    (he : Effect st st' (update st.disk.chunk c r) entry data)
    (hown : OwnEntries st.disk p)
    (hentry : ∀ {q k c}, entry q k = some c → st.disk.entry q k = some c)
    (hid : r.chunkid = (st.disk.chunk c).chunkid)
    (hvalid : (st.disk.chunk c).valid = .INVALID → r.valid = .INVALID) :
    (∀ k, NotRevived st.disk st'.disk p k) ∧ OwnEntries st'.disk p := by
  refine he.notRevived hown hentry ?_ ?_
  · intro c'
    by_cases hcc : c' = c
    · subst hcc
      rw [update_self, hid]
    · rw [update_of_ne hcc]
  · intro c' hv
    by_cases hcc : c' = c
    · subst hcc
      rw [update_self]
      exact hvalid hv
    · rw [update_of_ne hcc]
      exact hv

theorem Grown.notRevived {d d' : Disk} (h : Grown d d' p) (hown : OwnEntries d p) :
    (∀ k, NotRevived d d' p k) ∧ OwnEntries d' p := by
  refine ⟨?_, ?_⟩
  · intro k c hc
    have hc' : Refers d p k c := by
      rcases hc with ⟨q, hq, hqc⟩ | hk
      · obtain ⟨hq, hqc⟩ := h.indexed hq hqc
        exact .inl ⟨q, hq, hqc⟩
      · exact .inr (h.sameObjects.holds.mp hk)
    exact ⟨hc', fun hv => by rw [h.chunk (hown.inScan hc')]; exact hv⟩
  · intro q k c hq hqc
    obtain ⟨hq, hqc⟩ := h.indexed hq hqc
    exact (h.isChunk hq).mpr (hown hq hqc)

theorem Loads.notRevived {place : DataFile → ℕ} (h : Loads st st' place p) :
    (∀ k, NotRevived st.disk st'.disk p k) ∧ OwnEntries st'.disk p := by
  refine ⟨?_, ?_⟩
  · intro k c hc
    have hvalid : (st'.disk.chunk c).valid = (st.disk.chunk c).valid :=
      (congrArg Chunkobj.valid (h.chunk c) :)
    refine ⟨?_, fun hv => hvalid.trans hv⟩
    rcases hc with ⟨q, hq, hqc⟩ | hk
    · rw [h.isRegion] at hq
      obtain ⟨hqc, hv, hid⟩ := h.entryIn hq hqc
      exact .inr ⟨⟨q, hq, hqc⟩, hv, hid⟩
    · exact .inr (h.sameObjects.holds.mp hk)
  · intro q k c hq hqc
    rw [h.isRegion] at hq
    exact (h.isChunk hq).mpr (h.entryIn hq hqc).1

end Shrink

/-! ## Steps that add a chunk -/

section Append

variable {p : ℕ} {st : Store} {q : MmapPtr} {r : Chunkobj}
  (hi : StoreInv st p) (hfits : ChunkFits st p q r)
include hi hfits

theorem refers_appendChunk (hv : r.valid = .VALID) {k : ℕ} {c : ChunkPtr}
    (hc : Refers (st.appendChunk q r).disk p k c) :
    Refers st.disk p k c ∨ c = st.disk.shape.nextChunk q ∧ k = r.chunkid := by
  obtain ⟨t, ht⟩ := hi.loaded.chunkTree hfits.region hfits.init
  rcases hc with ⟨q', hq', hqc⟩ | hk
  · rw [isRegion_appendChunk] at hq'
    rw [entry_appendChunk hfits.init ht] at hqc
    split at hqc
    · rename_i hnew
      cases hqc
      exact .inr ⟨rfl, hnew.2⟩
    · exact .inl (.inl ⟨q', hq', hqc⟩)
  · rcases (holds_appendChunk hi.shape hfits.region hv).mp hk with hk | ⟨rfl, rfl⟩
    · exact .inl (.inr hk)
    · exact .inr ⟨rfl, rfl⟩

theorem ownEntries_appendChunk (hown : OwnEntries st.disk p) :
    OwnEntries (st.appendChunk q r).disk p := by
  obtain ⟨t, ht⟩ := hi.loaded.chunkTree hfits.region hfits.init
  intro q' k c hq' hqc
  rw [isRegion_appendChunk] at hq'
  rw [entry_appendChunk hfits.init ht] at hqc
  rw [isChunk_appendChunk]
  split at hqc
  · rename_i hnew
    cases hqc
    exact .inr ⟨hnew.1, rfl⟩
  · exact .inl (hown hq' hqc)

theorem notRevived_appendChunk (hv : r.valid = .VALID) (hown : OwnEntries st.disk p) {k : ℕ}
    (hk : k ≠ r.chunkid) : NotRevived st.disk (st.appendChunk q r).disk p k := by
  intro c hc
  rcases refers_appendChunk hi hfits hv hc with hc | ⟨-, hid⟩
  · refine ⟨hc, fun hinv => ?_⟩
    rw [chunk_appendChunk hi.shape hfits.region (hown.inScan hc)]
    exact hinv
  · exact absurd hid hk

/-- A chunk with an id that referred to nothing. -/
theorem tidy_appendChunk (hv : r.valid = .VALID) (ht : Tidy st.disk p)
    (hfree : ∀ c, ¬ Refers st.disk p r.chunkid c) : Tidy (st.appendChunk q r).disk p := by
  refine ⟨?_, ownEntries_appendChunk hi hfits ht.own⟩
  intro k c c' hc hc'
  rcases refers_appendChunk hi hfits hv hc with hc | ⟨rfl, rfl⟩ <;>
    rcases refers_appendChunk hi hfits hv hc' with hc' | ⟨rfl, hid⟩
  · exact ht.unique hc hc'
  · subst hid
    exact absurd hc (hfree c)
  · exact absurd hc' (hfree c')
  · rfl

end Append

section Replace

variable {p : ℕ} {st st₂ st' : Store} {n : ObjName} {bytes addr : ℕ} {nd : MmapobjNode}
  {q₀ q qv : MmapPtr} {old c v : ChunkPtr} {ws : List Write}

/-- The id of the name, given to a chunk that already has an entry under it. -/
theorem refers_retag (hf : Finds st.disk p (genIdFromStr n) q₀ old) {k : ℕ} {c' : ChunkPtr}
    (hc : Refers (st.retag old (genIdFromStr n)).disk p k c') : Refers st.disk p k c' := by
  have he := retag_effect st old (genIdFromStr n)
  rcases hc with ⟨q', hq', hqc⟩ | hk
  · exact .inl ⟨q', hq', hqc⟩
  · obtain ⟨hs, hv, hid⟩ := he.holds_iff.mp hk
    by_cases hco : c' = old
    · subst hco
      rw [update_self] at hid
      simp only at hid
      rw [← hid]
      exact hf.refers
    · rw [update_of_ne hco] at hv hid
      exact .inr ⟨hs, hv, hid⟩

theorem notRevived_retag (hf : Finds st.disk p (genIdFromStr n) q₀ old) (k : ℕ) :
    NotRevived st.disk (st.retag old (genIdFromStr n)).disk p k := by
  intro c' hc
  refine ⟨refers_retag hf hc, fun hv => ?_⟩
  rw [valid_retag]
  exact hv

variable (hok : AllocOk st (allocRqst p n bytes) nd addr)
  (hf : Finds st.disk p (genIdFromStr n) q₀ old)
  (hre : Reallocated st st₂ st' (allocRqst p n bytes) nd addr q₀ q qv old c v ws)
include hok hf hre

/-- The chunks reached once the new one is appended. -/
theorem Reallocated.refers₂ (ht : Tidy st.disk p) : OwnEntries st₂.disk p ∧
    (∀ {k}, k ≠ genIdFromStr n → NotRevived st.disk st₂.disk p k) ∧
    ∀ {c'}, Refers st₂.disk p (genIdFromStr n) c' → c' = old ∨ c' = c := by
  have hfound := hre.found
  rw [show (allocRqst p n bytes).varName = n from rfl] at hfound
  have hi₁ := hfound.ready.inv
  obtain ⟨hgrown, hown₁⟩ := hfound.grown.notRevived (fun hq hqc => ht.own hq hqc)
  have hb : BlockOf (applyAll (st.retag old (genIdFromStr n)) ws) p nd addr
      (allocRqst p n bytes).bytes :=
    ⟨by rw [hfound.ram]; exact hok.block.node, hok.block.owner, hok.block.lo, hok.block.hi,
      hok.block.pos, hok.block.small⟩
  have hfits := chunkFits_alloc hfound.ready hb rfl hok.backed
  have hst₂ := hre.append
  have hc := hre.next
  rw [show (allocRqst p n bytes).varName = n from rfl] at hst₂ hc
  rw [hst₂, hc]
  refine ⟨ownEntries_appendChunk hi₁ hfits hown₁, ?_, ?_⟩
  · intro k hk
    exact NotRevived.trans (NotRevived.trans (notRevived_retag hf k) (hgrown k))
      (notRevived_appendChunk hi₁ hfits rfl hown₁ hk)
  · intro c' hc'
    rcases refers_appendChunk hi₁ hfits rfl hc' with hc' | ⟨rfl, -⟩
    · exact .inl (ht.unique (refers_retag hf (hgrown _ hc').1) hf.refers)
    · exact .inr rfl

/-- Of the old and the new chunk one stays. -/
theorem Reallocated.tidy (hs : ShapeOk st₂.disk.shape) (ht : Tidy st.disk p) :
    Tidy st'.disk p ∧ ∀ {k}, k ≠ genIdFromStr n → NotRevived st.disk st'.disk p k := by
  obtain ⟨hown₂, hnot, hrefers⟩ := hre.refers₂ hok hf ht
  have hvalid : ∀ c', (st₂.disk.chunk c').valid = .INVALID →
      ((update (st₂.copyChunk old c).disk.chunk v
        ((st₂.copyChunk old c).disk.chunk v).invalidate) c').valid = .INVALID := by
    intro c' hv
    by_cases hcv : c' = v
    · subst hcv
      rw [update_self]
      rfl
    · rw [update_of_ne hcv, valid_copyChunk]
      exact hv
  have hentry : ∀ {q' k c'}, (if q' = qv ∧ k = genIdFromStr n then none else st₂.disk.entry q' k) =
      some c' → st₂.disk.entry q' k = some c' := by
    intro q' k c' hqc
    split at hqc
    · cases hqc
    · exact hqc
  obtain ⟨hshrink, hown⟩ := hre.effect.notRevived hown₂ hentry chunkid_replaced hvalid
  -- the victim has lost its entry, which is the only one it can have
  have hvictim : ¬ Refers st'.disk p (genIdFromStr n) v := by
    rintro (⟨q', hq', hqc⟩ | hk)
    · rw [hre.effect.frame.shape_eq] at hq'
      rw [hre.effect.entry] at hqc
      split at hqc
      · cases hqc
      · rename_i hne
        have hqq := hs.region_unique hq' hre.finds.region (hown₂ hq' hqc)
          (hown₂ hre.finds.region hre.finds.entry)
        exact hne ⟨hqq, rfl⟩
    · have hv := hk.valid
      rw [hre.effect.chunk, update_self] at hv
      cases hv
  refine ⟨⟨?_, hown⟩, fun hk => NotRevived.trans (hnot hk) (hshrink _)⟩
  intro k c₁ c₂ h₁ h₂
  by_cases hk : k = genIdFromStr n
  · subst hk
    have hcase : ∀ {c'}, Refers st'.disk p (genIdFromStr n) c' → (c' = old ∨ c' = c) ∧ c' ≠ v := by
      intro c' hc'
      refine ⟨hrefers (hshrink _ hc').1, ?_⟩
      rintro rfl
      exact hvictim hc'
    have hv : v = c ∨ v = old := by
      cases hre.victim with
      | new _ => exact .inl rfl
      | old _ => exact .inr rfl
    obtain ⟨h₁, hne₁⟩ := hcase h₁
    obtain ⟨h₂, hne₂⟩ := hcase h₂
    grind
  · exact ht.unique (hnot hk (hshrink _ h₁).1).1 (hnot hk (hshrink _ h₂).1).1

end Replace

/-! ## Whole runs -/

/-- The name that an operation gives a chunk to. -/
def Op.target : Op → Option ObjName
  | .alloc n _ _ => some n
  | .rename _ d => some d
  | _ => none

/-- No id is given to a second chunk: a name is allocated when it can be read or its id
refers to nothing, and an object is renamed, from a name that can be read, only to a
name whose id refers to nothing else. -/
def Single (p : ℕ) (st : Store) : Op → Prop
  | .alloc n _ _ => (∃ q c, Finds st.disk p (genIdFromStr n) q c ∧
      (st.disk.chunk c).valid = .VALID) ∨ ∀ c, ¬ Refers st.disk p (genIdFromStr n) c
  | .rename s d => ∀ {q c}, Finds st.disk p (genIdFromStr s) q c →
    (st.disk.chunk c).valid = .VALID ∧ ∀ {c'}, Refers st.disk p (genIdFromStr d) c' → c' = c
  | _ => True

section Step

variable {p : ℕ} {N : Set ObjName} {st st' : Store} {op : Op} {r : Ret}

theorem Allowed.target_mem (hop : Allowed p N st op) {m : ObjName} (hm : op.target = some m) :
    m ∈ N := by
  cases op with
  | alloc n bytes addr =>
    cases hm
    exact hop.1
  | rename s d =>
    cases hm
    exact hop.2
  | mmap | commit | delete | read | write | restart => cases hm

theorem tidy_rename {s d : ObjName} {q q' : MmapPtr} {c c' : ChunkPtr} (hi : StoreInv st p)
    (ht : Tidy st.disk p) (hf : Finds st.disk p (genIdFromStr s) q c)
    (hf' : Finds st.disk p (st.disk.chunk c).chunkid q' c')
    (he : Effect st st' (update st.disk.chunk c ((st.disk.chunk c).rename d))
      (fun q'' k => if q'' = q' ∧ k = genIdFromStr d then some c else st.disk.entry q'' k)
      st.disk.data)
    (hv : (st.disk.chunk c).valid = .VALID)
    (hd : ∀ {c'}, Refers st.disk p (genIdFromStr d) c' → c' = c) :
    Tidy st'.disk p ∧ ∀ {k}, k ≠ genIdFromStr d → NotRevived st.disk st'.disk p k := by
  -- the second lookup of the rename finds the same chunk
  have hk : Holds st.disk p (st.disk.chunk c).chunkid c :=
    ⟨hi.loaded.indexed hf.indexed, hv, rfl⟩
  obtain rfl := ht.unique hf'.refers (.inr hk)
  have hqc := ht.own hf'.region hf'.entry
  have hrefers : ∀ {k c₁}, Refers st'.disk p k c₁ →
      k ≠ genIdFromStr d ∧ Refers st.disk p k c₁ ∨ k = genIdFromStr d ∧ c₁ = c' := by
    intro k c₁ hc₁
    rcases hc₁ with ⟨q₁, hq₁, hqc₁⟩ | hk₁
    · rw [he.frame.shape_eq] at hq₁
      rw [he.entry] at hqc₁
      split at hqc₁
      · rename_i hnew
        cases hqc₁
        exact .inr ⟨hnew.2, rfl⟩
      · by_cases hkd : k = genIdFromStr d
        · subst hkd
          exact .inr ⟨rfl, hd (.inl ⟨q₁, hq₁, hqc₁⟩)⟩
        · exact .inl ⟨hkd, .inl ⟨q₁, hq₁, hqc₁⟩⟩
    · obtain ⟨hs, hv₁, hid⟩ := he.holds_iff.mp hk₁
      by_cases hcc : c₁ = c'
      · subst hcc
        rw [update_self] at hid
        exact .inr ⟨hid.symm, rfl⟩
      · rw [update_of_ne hcc] at hv₁ hid
        by_cases hkd : k = genIdFromStr d
        · subst hkd
          exact .inr ⟨rfl, hd (.inr ⟨hs, hv₁, hid⟩)⟩
        · exact .inl ⟨hkd, .inr ⟨hs, hv₁, hid⟩⟩
  refine ⟨⟨?_, ?_⟩, ?_⟩
  · intro k c₁ c₂ h₁ h₂
    rcases hrefers h₁ with ⟨hne, h₁⟩ | ⟨rfl, rfl⟩ <;> rcases hrefers h₂ with ⟨hne', h₂⟩ | ⟨hkd, rfl⟩
    · exact ht.unique h₁ h₂
    · exact absurd hkd hne
    · exact absurd rfl hne'
    · rfl
  · intro q₁ k c₁ hq₁ hqc₁
    rw [he.frame.shape_eq] at hq₁ ⊢
    rw [he.entry] at hqc₁
    split at hqc₁
    · rename_i hnew
      cases hqc₁
      rw [hnew.1]
      exact hqc
    · exact ht.own hq₁ hqc₁
  · intro k hkd c₁ hc₁
    rcases hrefers hc₁ with ⟨-, hc₁⟩ | ⟨hk, -⟩
    · refine ⟨hc₁, fun hinv => ?_⟩
      have hcc : c₁ ≠ c' := by
        rintro rfl
        rw [hv] at hinv
        cases hinv
      rw [he.chunk, update_of_ne hcc]
      exact hinv
    · exact absurd hk hkd

/-- One operation keeps the process tidy, and revives no id but that of its target. -/
theorem StepEffect.tidy (heff : StepEffect p st op r st') (hr : RunInv st p) (ht : Tidy st.disk p)
    (hsingle : Single p st op) : Tidy st'.disk p ∧
      ∀ {k}, (∀ m, op.target = some m → k ≠ genIdFromStr m) → NotRevived st.disk st'.disk p k := by
  have hi := hr.inv
  -- what is left to show for the operations that add no chunk
  have hquiet : ∀ {d' : Disk}, ((∀ k, NotRevived st.disk d' p k) ∧ OwnEntries d' p) →
      Tidy d' p ∧ ∀ {k}, (∀ m, op.target = some m → k ≠ genIdFromStr m) →
        NotRevived st.disk d' p k :=
    fun h => ⟨ht.of_notRevived h.1 h.2, fun _ => h.1 _⟩
  have hsame : (∀ k, NotRevived st.disk st.disk p k) ∧ OwnEntries st.disk p :=
    ⟨fun _ _ hc => ⟨hc, id⟩, ht.own⟩
  cases heff with
  | mmap hh hfresh => exact hquiet ((grown_mapRegion hi.shape hh).notRevived ht.own)
  | @create n bytes addr nd q ws hok hfree hfound =>
    obtain ⟨hgrown, hown₁⟩ := hfound.grown.notRevived ht.own
    have hfits := hfound.fits hok
    have hnone : ∀ c, ¬ Refers st.disk p (genIdFromStr n) c := by
      rcases hsingle with ⟨q₁, c₁, hf₁, hv₁⟩ | hnone
      · rcases hfree with hm | ⟨q₂, c₂, hf₂, hv₂⟩
        · exact absurd hm hf₁.not_missing
        · obtain ⟨-, rfl⟩ := hf₁.unique hi.shape hf₂
          rw [hv₁] at hv₂
          cases hv₂
      · exact hnone
    refine ⟨tidy_appendChunk hfound.ready.inv hfits rfl (ht.of_notRevived hgrown hown₁)
      (fun c hc => hnone c (hgrown _ hc).1), ?_⟩
    intro k hk
    exact NotRevived.trans (hgrown k)
      (notRevived_appendChunk hfound.ready.inv hfits rfl hown₁ (hk n rfl))
  | @replace n _ _ _ _ _ _ _ _ _ _ _ _ hok hf hv hre =>
    obtain ⟨ht', hnot⟩ := hre.tidy hok hf hre.inv.shape ht
    exact ⟨ht', fun hk => hnot (hk n rfl)⟩
  | commit hf he => exact hquiet (he.notRevived_at ht.own id rfl id)
  | deleteMissing hm => exact hquiet hsame
  | @deleteLost n q c hf hm =>
    exact hquiet ((invalidate_effect st c).notRevived_at ht.own id rfl fun _ => rfl)
  | @delete n q q' c c' hf hf' =>
    refine hquiet ((deleteChunk_effect st c q' n).notRevived_at ht.own ?_ rfl fun _ => rfl)
    intro q₁ k c₁ hentry
    split at hentry
    · cases hentry
    · exact hentry
  | read => exact hquiet hsame
  | @write n off bs f o =>
    have he : Effect st ⟨st.disk.blitFile f o bs, st.ram⟩ st.disk.chunk st.disk.entry
        (st.disk.blitFile f o bs).data :=
      ⟨SameFrame.blitFile (SameFrame.refl st) f o bs, rfl, fun _ _ => rfl, rfl⟩
    exact hquiet (he.notRevived ht.own id (fun _ => rfl) fun _ => id)
  | renameNothing => exact hquiet hsame
  | @rename s d q q' c c' st' hf hf' he =>
    obtain ⟨hv, hd⟩ := hsingle hf
    obtain ⟨ht', hnot⟩ := tidy_rename hi ht hf hf' he hv hd
    exact ⟨ht', fun hk => hnot (hk d rfl)⟩
  | restart hl hinv => exact hquiet hl.notRevived

/-- After a delete that returns `0` the id of the name is dead. -/
theorem StepEffect.dead {n : ObjName} (heff : StepEffect p st (.delete n) (.status 0) st')
    (hr : RunInv st p) (ht : Tidy st.disk p) : Dead st'.disk p (genIdFromStr n) := by
  have hnot : NotRevived st.disk st'.disk p (genIdFromStr n) := (heff.tidy hr ht trivial).2 nofun
  cases heff with
  | @delete _ q q' c c' hf hf' =>
    intro c₁ hc₁
    obtain rfl := ht.unique (hnot hc₁).1 hf.refers
    rw [(deleteChunk_effect st c₁ q' n).chunk, update_self]
    rfl

theorem Dead.step_read (hi : StoreInv st p) {n : ObjName} (hd : Dead st.disk p (genIdFromStr n))
    (place : DataFile → ℕ) : step p st (.read n place) = some (.object none, st) := by
  rw [step_read_observe hi]
  cases ho : observe p st n with
  | none => rfl
  | some o =>
    obtain ⟨q, c, hf, hv, -⟩ := (observe_eq_some hi).mp ho
    rw [hd c hf.refers] at hv
    cases hv

end Step

/-- Once `nv_delete` of a name has returned `0`, no read of it succeeds until it is
allocated or renamed onto again. -/
def DeletesDurable (p : ℕ) (ops : List Op) : Prop :=
  ∀ pre n post rest, ops = pre ++ .delete n :: post ++ rest → (∀ op ∈ post, op.target ≠ some n) →
    ∀ st₁ st₂ st₃ rs₁ rs₂, runSteps (step p) pre {} = some (rs₁, st₁) →
      step p st₁ (.delete n) = some (.status 0, st₂) →
      runSteps (step p) post st₂ = some (rs₂, st₃) →
      ∀ place, step p st₃ (.read n place) = some (.object none, st₃)

theorem tidy_empty {st : Store} {place : DataFile → ℕ}
    (hl : Loads (({} : Store).reboot.apply (.ram fun r => { r with gInitialized := true })) st place
      p) :
    Tidy st.disk p := by
  obtain ⟨hnot, hown⟩ := hl.notRevived
  have hno : ∀ {k c}, ¬ Refers st.disk p k c := by
    intro k c hc
    rcases (hnot k hc).1 with ⟨q, ⟨h, hh, -⟩, -⟩ | ⟨⟨q, ⟨h, hh, -⟩, -⟩, -, -⟩
    · cases hh
    · cases hh
  exact ⟨fun hc => absurd hc hno, hown⟩

/-- **Deletes are durable** in every run in which no id is given to a second chunk. -/
theorem deletesDurable_of_single {p : ℕ} (hp : p ≠ 0) {N : Set ObjName} (hN : GoodNames N)
    (place : DataFile → ℕ) (ops : List Op)
    (hrun : Along (step p) (fun st op => Allowed p N st op ∧ Single p st op)
      (.restart place :: ops) {}) : DeletesDurable p (.restart place :: ops) := by
  intro pre n post rest hops hpost st₁ st₂ st₃ rs₁ rs₂ hpre hdel hrest read
  have hstep : ∀ {st op r st'}, RunInv st p ∧ Tidy st.disk p → Allowed p N st op ∧ Single p st op →
      step p st op = some (r, st') → RunInv st' p ∧ Tidy st'.disk p := by
    rintro st op r st' ⟨hr, ht⟩ ⟨hop, hsingle⟩ h
    have heff := step_effect hr hop h
    exact ⟨heff.runInv hr, (heff.tidy hr ht hsingle).1⟩
  rw [hops, List.append_assoc, List.cons_append] at hrun
  obtain ⟨halong, ⟨⟨hdelop, -⟩, hdelrest⟩⟩ := hrun.append hpre
  -- the invariant at the delete
  have hinv₁ : RunInv st₁ p ∧ Tidy st₁.disk p := by
    cases pre with
    | nil =>
      rw [List.nil_append, List.cons_append] at hops
      cases hops
    | cons op pre =>
      rw [List.append_assoc, List.cons_append] at hops
      obtain ⟨rfl, -⟩ := List.cons.inj hops
      exact effect_induction hp And.left tidy_empty
        (fun hr ht hop heff => (heff.tidy hr ht hop.2).1) halong hpre
  -- the delete leaves the id dead, and it stays dead
  have heff := step_effect hinv₁.1 hdelop hdel
  have hdead₂ : Dead st₂.disk p (genIdFromStr n) := heff.dead hinv₁.1 hinv₁.2
  have hinv₂ := hstep hinv₁ ⟨hdelop, trivial⟩ hdel
  have hpost' := (((hdelrest _ st₂ hdel).append hrest).1).and_forall hpost
  have hkeep : ∀ {st op r st'}, (RunInv st p ∧ Tidy st.disk p) ∧ Dead st.disk p (genIdFromStr n) →
      (Allowed p N st op ∧ Single p st op) ∧ op.target ≠ some n → step p st op = some (r, st') →
      (RunInv st' p ∧ Tidy st'.disk p) ∧ Dead st'.disk p (genIdFromStr n) := by
    rintro st op r st' ⟨hinv, hdead⟩ ⟨hop, htarget⟩ h
    refine ⟨hstep hinv hop h, ?_⟩
    have hnot : NotRevived st.disk st'.disk p (genIdFromStr n) := by
      refine ((step_effect hinv.1 hop.1 h).tidy hinv.1 hinv.2 hop.2).2 ?_
      intro m hm hid
      obtain rfl := hN.inj hdelop (hop.1.target_mem hm) hid
      exact htarget hm
    exact NotRevived.dead hnot hdead
  have hinv₃ := runSteps_inv_of_some hkeep ⟨hinv₂, hdead₂⟩ hpost' hrest
  exact hinv₃.2.step_read hinv₃.1.1.inv read

/-! ## Runs with and without a second chunk -/

/-- The chunks an id refers to, listed. -/
def Disk.referred (d : Disk) (p k : ℕ) : List ChunkPtr :=
  (d.regions p).flatMap fun q => (d.entry q k).toList ++
    (d.chunks q).filter fun c => (d.chunk c).valid = .VALID ∧ (d.chunk c).chunkid = k

theorem refers_iff_mem :
    Refers d p k c ↔ c ∈ d.referred p k := by
  simp only [Refers, Disk.referred, List.mem_flatMap, List.mem_append, Option.mem_toList,
    List.mem_filter, decide_eq_true_eq, holds_iff_mem, isRegion_iff_mem_regions]
  constructor
  · rintro (⟨q, hq, hqc⟩ | ⟨q, hq, hqc, hv⟩)
    · exact ⟨q, hq, .inl hqc⟩
    · exact ⟨q, hq, .inr ⟨hqc, hv⟩⟩
  · rintro ⟨q, hq, hqc | ⟨hqc, hv⟩⟩
    · exact .inl ⟨q, hq, hqc⟩
    · exact .inr ⟨q, hq, hqc, hv⟩

instance {d : Disk} {p k : ℕ} {P : ChunkPtr → Prop} [DecidablePred P] :
    Decidable (∀ {c}, Refers d p k c → P c) :=
  decidable_of_iff (∀ c ∈ d.referred p k, P c) (forall_congr' fun _ => by rw [refers_iff_mem])

instance (d : Disk) (p k : ℕ) : Decidable (∀ c, ¬ Refers d p k c) :=
  inferInstanceAs (Decidable (∀ {c}, Refers d p k c → False))

instance (p : ℕ) (st : Store) (op : Op) : Decidable (Single p st op) := by
  refine op.casesOn ?_ ?_ ?_ ?_ ?_ ?_ ?_ ?_ <;> intros <;> dsimp only [Single] <;> infer_instance

/-- An object is renamed, deleted under its new name, and the program restarts. -/
def renamedDeleteRun : List Op :=
  [.restart fun _ => 0, .mmap 4096 4096, .alloc nameA 16 4096, .rename nameA nameB, .delete nameB,
    .restart fun _ => 12288]

theorem deletesDurable_renamedDeleteRun : DeletesDurable 1 renamedDeleteRun :=
  deletesDurable_of_single (by decide) goodNames_nameAB _ _ (by decide +kernel)

/-- Two objects, of which the first is renamed onto the second. -/
def renamedOntoRun : List Op :=
  [.restart fun _ => 0, .mmap 4096 4096, .alloc nameA 16 4096, .alloc nameB 8 4112,
    .rename nameA nameB]

/-- Deleting the name deletes one of the two chunks; the other is read after a restart. -/
theorem not_deletesDurable_renamedOntoRun :
    Along (step 1) (Allowed 1 {nameA, nameB})
      (renamedOntoRun ++ [.delete nameB, .restart fun _ => 12288]) {} ∧
    ¬ DeletesDurable 1 (renamedOntoRun ++ [.delete nameB, .restart fun _ => 12288]) := by
  refine ⟨by decide +kernel, ?_⟩
  intro hdur
  have hpre : (runSteps (step 1) renamedOntoRun {}).isSome = true := by decide +kernel
  obtain ⟨⟨rs, st⟩, hpre⟩ := Option.isSome_iff_exists.mp hpre
  obtain rfl := reached_eq hpre
  have hdel : ((step 1 (reached 1 renamedOntoRun) (.delete nameB)).map Prod.fst) =
      some (.status 0) := by decide +kernel
  obtain ⟨⟨r, st₂⟩, hdel, rfl⟩ := Option.map_eq_some_iff.mp hdel
  have hafter : ((step 1 (reached 1 renamedOntoRun) (.delete nameB)).bind fun x =>
      (step 1 x.2 (.restart fun _ => 12288)).bind fun y =>
        (step 1 y.2 (.read nameB fun _ => 0)).map Prod.fst) ≠ some (.object none) := by
    decide +kernel
  rw [hdel, Option.bind_some] at hafter
  have hres : ((step 1 (reached 1 renamedOntoRun) (.delete nameB)).bind fun x =>
      step 1 x.2 (.restart fun _ => 12288)).isSome = true := by decide +kernel
  rw [hdel, Option.bind_some] at hres
  obtain ⟨⟨r₃, st₃⟩, hres⟩ := Option.isSome_iff_exists.mp hres
  have hread := hdur renamedOntoRun nameB [.restart fun _ => 12288] [] (by simp)
    (by simp [Op.target])
    _ st₂ st₃ rs [r₃] hpre hdel (by rw [runSteps_cons hres]; rfl) fun _ => 0
  rw [hres, Option.bind_some, hread] at hafter
  exact hafter rfl
