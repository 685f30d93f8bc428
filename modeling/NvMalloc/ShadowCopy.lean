/-
# Shadow copies

In the shadow-copy build a program works on copies in DRAM.  An allocation returns a buffer,
which the chunk records as `log_ptr`; every `nv_map_read` allocates another buffer, copies
the persistent bytes into it and makes it the chunk's `log_ptr`; `nv_commit` copies the
buffer at `log_ptr` back to `nv_ptr`.  Earlier buffers are never freed and stay in use.

So a commit captures the writes since the last one when they were made through the pointer
that was returned last; a write through an earlier pointer is not copied back.

The chunk of a request is an argument of the operations here: what a name leads to does not
matter for the copies.
-/
import NvMalloc.Bytes
import NvMalloc.Runs

open Function

/-! ## Chunks and buffers -/

/-- A chunk record: the bytes behind `nv_ptr`, `length` many, and `log_ptr`. -/
structure ShadowChunk where
  nv : List UInt8
  logPtr : ℕ
  deriving DecidableEq

/-- The chunk records, and the buffers from `malloc` with their contents. -/
structure ShadowStore where
  chunk : ℕ → Option ShadowChunk := fun _ => none
  heap : ℕ → Option (List UInt8) := fun _ => none

/-- The operations of a program.  `buf` is the answer of `malloc`. -/
inductive ShadowOp where
  /-- `p_c_nvalloc_`: a new chunk.  A fresh buffer has the contents `junk`; the bytes of the
  old chunk, if the name had one, are copied to the new one. -/
  | alloc (k : ℕ) (old : Option ℕ) (buf : ℕ) (junk : List UInt8)
  /-- `nv_map_read`. -/
  | read (k buf : ℕ)
  /-- A store through a pointer. -/
  | write (buf off : ℕ) (bs : List UInt8)
  /-- `nv_commit`. -/
  | commit (k : ℕ)

/-- The bytes of a new chunk: zeros, and the contents of the chunk it replaces. -/
def ShadowStore.initial (s : ShadowStore) (old : Option ℕ) (n : ℕ) : List UInt8 :=
  match old.bind s.chunk with
  | none => List.replicate n 0
  | some c => overwrite (List.replicate n 0) 0 (c.nv.take n)

/-- One operation; it returns the pointer that the program is given. -/
def shadowStep (s : ShadowStore) : ShadowOp → Option (Option ℕ × ShadowStore)
  | .alloc k old buf junk =>
    if s.chunk k = none ∧ s.heap buf = none then
      some (some buf, ⟨update s.chunk k (some ⟨s.initial old junk.length, buf⟩),
        update s.heap buf (some junk)⟩)
    else none
  | .read k buf => do
    let c ← s.chunk k
    if s.heap buf = none then
      some (some buf, ⟨update s.chunk k (some { c with logPtr := buf }),
        update s.heap buf (some c.nv)⟩)
    else none
  | .write buf off bs => do
    let x ← s.heap buf
    if off + bs.length ≤ x.length then
      some (none, { s with heap := update s.heap buf (some (overwrite x off bs)) })
    else none
  | .commit k => do
    let c ← s.chunk k
    let x ← s.heap c.logPtr
    let c' : ShadowChunk := { c with nv := overwrite c.nv 0 (x.take c.nv.length) }
    some (none, { s with chunk := update s.chunk k (some c') })

/-- The persistent bytes of an object. -/
def ShadowStore.nvBytes (s : ShadowStore) (k : ℕ) : Option (List UInt8) :=
  (s.chunk k).map ShadowChunk.nv

/-! ## What a program did with an object -/

/-- A write through a pointer. -/
structure ShadowWrite where
  buf : ℕ
  off : ℕ
  bs : List UInt8

/-- The byte that a write puts at position `i`, if it reaches there. -/
def ShadowWrite.byteAt (w : ShadowWrite) (i : ℕ) : Option UInt8 :=
  if w.off ≤ i then w.bs[i - w.off]? else none

/-- The byte that the last of the writes at position `i` put there; the writes are listed
newest first. -/
def lastWritten (ws : List ShadowWrite) (i : ℕ) : Option UInt8 :=
  ws.findSome? fun w => w.byteAt i

/-- A program's view of an object: the pointers that were returned for it, and the writes
through any of them since its last commit, both newest first. -/
structure ObjectLog where
  pointers : List ℕ := []
  writes : List ShadowWrite := []

/-- What an operation adds to the view of object `k`. -/
def ObjectLog.step (k : ℕ) (l : ObjectLog) : ShadowOp → ObjectLog
  | .alloc k' _ buf _ => if k' = k then { l with pointers := buf :: l.pointers } else l
  | .read k' buf => if k' = k then { l with pointers := buf :: l.pointers } else l
  | .write buf off bs =>
    if buf ∈ l.pointers then { l with writes := ⟨buf, off, bs⟩ :: l.writes } else l
  | .commit k' => if k' = k then { l with writes := [] } else l

variable {bs x : List UInt8} {s s' : ShadowStore} {op : ShadowOp} {r : Option ℕ} {buf k : ℕ}
  {l : ObjectLog}

theorem length_overwrite {block : List UInt8} {off : ℕ} (h : off + bs.length ≤ block.length) :
    (overwrite block off bs).length = block.length := by
  simp only [overwrite, List.length_append, List.length_take, List.length_drop]
  omega

theorem length_initial (s : ShadowStore) (old : Option ℕ) (n : ℕ) :
    (s.initial old n).length = n := by
  unfold ShadowStore.initial
  split
  · exact List.length_replicate
  · rw [length_overwrite (by simp), List.length_replicate]

/-- What a step does. -/
theorem shadowStep_cases (h : shadowStep s op = some (r, s')) :
    (∃ k old buf junk, op = .alloc k old buf junk ∧ s.chunk k = none ∧ s.heap buf = none ∧
      s'.chunk = update s.chunk k (some ⟨s.initial old junk.length, buf⟩) ∧
      s'.heap = update s.heap buf (some junk)) ∨
    (∃ k buf c, op = .read k buf ∧ s.chunk k = some c ∧ s.heap buf = none ∧
      s'.chunk = update s.chunk k (some { c with logPtr := buf }) ∧
      s'.heap = update s.heap buf (some c.nv)) ∨
    (∃ buf off bs x, op = .write buf off bs ∧ s.heap buf = some x ∧ off + bs.length ≤ x.length ∧
      s'.chunk = s.chunk ∧ s'.heap = update s.heap buf (some (overwrite x off bs))) ∨
    (∃ k c x, op = .commit k ∧ s.chunk k = some c ∧ s.heap c.logPtr = some x ∧
      s'.chunk = update s.chunk k
        (some { c with nv := overwrite c.nv 0 (x.take c.nv.length) }) ∧
      s'.heap = s.heap) := by
  cases op with
  | alloc k old buf junk =>
    simp only [shadowStep] at h
    split at h
    · next hnone =>
      cases h
      exact .inl ⟨k, old, buf, junk, rfl, hnone.1, hnone.2, rfl, rfl⟩
    · cases h
  | read k buf =>
    simp only [shadowStep, Option.bind_eq_bind, Option.bind_eq_some_iff] at h
    obtain ⟨c, hc, h⟩ := h
    split at h
    · next hnone =>
      cases h
      exact .inr (.inl ⟨k, buf, c, rfl, hc, hnone, rfl, rfl⟩)
    · cases h
  | write buf off bs =>
    simp only [shadowStep, Option.bind_eq_bind, Option.bind_eq_some_iff] at h
    obtain ⟨x, hx, h⟩ := h
    split at h
    · next hlen =>
      cases h
      exact .inr (.inr (.inl ⟨buf, off, bs, x, rfl, hx, hlen, rfl, rfl⟩))
    · cases h
  | commit k =>
    simp only [shadowStep, Option.bind_eq_bind, Option.bind_eq_some_iff] at h
    obtain ⟨c, hc, x, hx, h⟩ := h
    cases h
    exact .inr (.inr (.inr ⟨k, c, x, rfl, hc, hx, rfl, rfl⟩))

theorem overwrite_get_of_byteAt {off i : ℕ} {v : UInt8} (hlen : off + bs.length ≤ x.length)
    (h : (ShadowWrite.mk buf off bs).byteAt i = some v) :
    (overwrite x off bs)[i]? = some v := by
  simp only [ShadowWrite.byteAt] at h
  split at h
  · next hoff =>
    obtain ⟨hi, -⟩ := List.getElem?_eq_some_iff.mp h
    have htake : (x.take off).length = off := by
      rw [List.length_take]
      omega
    rw [overwrite, List.append_assoc, List.getElem?_append_right (by omega), htake,
      List.getElem?_append_left hi, h]
  · cases h

theorem overwrite_get_of_not_byteAt {off i : ℕ} (hlen : off + bs.length ≤ x.length)
    (h : (ShadowWrite.mk buf off bs).byteAt i = none) :
    (overwrite x off bs)[i]? = x[i]? := by
  have htake : (x.take off).length = off := by
    rw [List.length_take]
    omega
  simp only [ShadowWrite.byteAt] at h
  split at h
  · next hoff =>
    -- behind the write
    have hi : bs.length ≤ i - off := List.getElem?_eq_none_iff.mp h
    rw [overwrite, List.append_assoc, List.getElem?_append_right (by omega), htake,
      List.getElem?_append_right hi, List.getElem?_drop]
    congr 1
    omega
  · next hoff =>
    rw [overwrite, List.append_assoc, List.getElem?_append_left (by omega),
      List.getElem?_take_of_lt (by omega)]

/-- What holds along every history: the chunk's `log_ptr` is the pointer returned last, the
pointers lead to buffers as long as the chunk, and each buffer shows the writes that were made
through its pointer. -/
structure ShadowInv (k : ℕ) (l : ObjectLog) (s : ShadowStore) : Prop where
  last : ∀ {c}, s.chunk k = some c → l.pointers.head? = some c.logPtr
  buffer : ∀ {b}, b ∈ l.pointers →
    ∃ c x, s.chunk k = some c ∧ s.heap b = some x ∧ x.length = c.nv.length
  own : ∀ {w}, w ∈ l.writes → w.buf ∈ l.pointers
  shows : ∀ {b x i v}, s.heap b = some x →
    lastWritten (l.writes.filter (·.buf = b)) i = some v → x[i]? = some v

/-- Nothing was written through a pointer that was not returned. -/
theorem ShadowInv.filter_eq_nil {b : ℕ} (h : ShadowInv k l s) (hb : b ∉ l.pointers) :
    l.writes.filter (·.buf = b) = [] := by
  rw [List.filter_eq_nil_iff]
  intro w hw heq
  exact hb (of_decide_eq_true heq ▸ h.own hw)

theorem ShadowInv.not_mem_of_free {b : ℕ} (h : ShadowInv k l s) (hfree : s.heap b = none) :
    b ∉ l.pointers := by
  intro hb
  obtain ⟨_, x, -, hx, -⟩ := h.buffer hb
  cases hfree.symm.trans hx

/-- A new buffer for the object. -/
theorem ShadowInv.newBuffer (h : ShadowInv k l s) {c : ShadowChunk} (hfree : s.heap buf = none)
    (hptr : c.logPtr = buf) (hlen : x.length = c.nv.length)
    (hold : ∀ c₀, s.chunk k = some c₀ → c₀.nv.length = c.nv.length) (hchunk : s'.chunk k = some c)
    (hheap : s'.heap = update s.heap buf (some x)) :
    ShadowInv k { l with pointers := buf :: l.pointers } s' where
  last hc := by
    cases hchunk.symm.trans hc
    rw [List.head?_cons, hptr]
  buffer {b} hb := by
    rw [hheap]
    rcases List.mem_cons.mp hb with rfl | hb
    · exact ⟨c, x, hchunk, update_self .., hlen⟩
    · obtain ⟨c₀, y, hc₀, hy, hylen⟩ := h.buffer hb
      have hne : b ≠ buf := fun heq => h.not_mem_of_free hfree (heq ▸ hb)
      exact ⟨c, y, hchunk, by rw [update_of_ne hne, hy], hylen.trans (hold c₀ hc₀)⟩
  own hw := List.mem_cons_of_mem _ (h.own hw)
  shows {b y i v} hy hi := by
    rw [hheap] at hy
    by_cases hb : b = buf
    · subst hb
      rw [h.filter_eq_nil (h.not_mem_of_free hfree)] at hi
      cases hi
    · rw [update_of_ne hb] at hy
      exact h.shows hy hi

/-- A new buffer for another object. -/
theorem ShadowInv.otherBuffer (h : ShadowInv k l s) (hfree : s.heap buf = none)
    (hchunk : s'.chunk k = s.chunk k) (hheap : s'.heap = update s.heap buf (some x)) :
    ShadowInv k l s' := by
  refine ⟨fun hc => h.last (hchunk ▸ hc), ?_, h.own, ?_⟩
  · intro b hb
    have hne : b ≠ buf := fun heq => h.not_mem_of_free hfree (heq ▸ hb)
    rw [hchunk, hheap, update_of_ne hne]
    exact h.buffer hb
  · intro b y i v hy hi
    rw [hheap] at hy
    by_cases hb : b = buf
    · subst hb
      rw [h.filter_eq_nil (h.not_mem_of_free hfree)] at hi
      cases hi
    · rw [update_of_ne hb] at hy
      exact h.shows hy hi

/-- A commit of the object. -/
theorem ShadowInv.commit {k : ℕ} {l : ObjectLog} {s s' : ShadowStore} (h : ShadowInv k l s)
    {c : ShadowChunk} {x : List UInt8} (hc : s.chunk k = some c)
    (hchunk : s'.chunk k = some { c with nv := overwrite c.nv 0 (x.take c.nv.length) })
    (hheap : s'.heap = s.heap) : ShadowInv k { l with writes := [] } s' where
  last hc' := by
    obtain rfl := Option.some.inj (hchunk.symm.trans hc')
    exact (h.last hc :)
  buffer hb := by
    obtain ⟨c₀, y, hc₀, hy, hylen⟩ := h.buffer hb
    cases hc.symm.trans hc₀
    refine ⟨_, y, hchunk, by rw [hheap, hy], hylen.trans ?_⟩
    exact (length_overwrite (by simp)).symm
  own hw := by cases hw
  shows _ hi := by cases hi

/-- A write through a pointer of the object, or through another one. -/
theorem ShadowInv.write {k buf off : ℕ} {l : ObjectLog} {s s' : ShadowStore}
    (h : ShadowInv k l s) {x bs : List UInt8} (hx : s.heap buf = some x)
    (hlen : off + bs.length ≤ x.length) (hchunk : s'.chunk = s.chunk)
    (hheap : s'.heap = update s.heap buf (some (overwrite x off bs))) :
    ShadowInv k (l.step k (.write buf off bs)) s' := by
  have hbuffer : ∀ {b}, b ∈ l.pointers →
      ∃ c y, s'.chunk k = some c ∧ s'.heap b = some y ∧ y.length = c.nv.length := by
    intro b hb
    obtain ⟨c, y, hc, hy, hylen⟩ := h.buffer hb
    rw [hchunk, hheap]
    by_cases heq : b = buf
    · subst heq
      cases hx.symm.trans hy
      exact ⟨c, _, hc, update_self .., (length_overwrite hlen).trans hylen⟩
    · exact ⟨c, y, hc, by rw [update_of_ne heq, hy], hylen⟩
  by_cases hmem : buf ∈ l.pointers
  · rw [ObjectLog.step, if_pos hmem]
    refine ⟨fun hc => h.last (hchunk ▸ hc), hbuffer, ?_, ?_⟩
    · intro w hw
      rcases List.mem_cons.mp hw with rfl | hw
      · exact hmem
      · exact h.own hw
    · intro b y i v hy hi
      rw [hheap] at hy
      by_cases heq : b = buf
      · subst heq
        rw [update_self] at hy
        cases hy
        rw [List.filter_cons_of_pos (by simp), lastWritten, List.findSome?_cons] at hi
        cases hbyte : (ShadowWrite.mk b off bs).byteAt i with
        | some u =>
          rw [hbyte] at hi
          cases hi
          exact overwrite_get_of_byteAt hlen hbyte
        | none =>
          rw [hbyte] at hi
          rw [overwrite_get_of_not_byteAt hlen hbyte]
          exact h.shows hx hi
      · rw [update_of_ne heq] at hy
        rw [List.filter_cons_of_neg (by simpa using Ne.symm heq)] at hi
        exact h.shows hy hi
  · rw [ObjectLog.step, if_neg hmem]
    refine ⟨fun hc => h.last (hchunk ▸ hc), hbuffer, h.own, ?_⟩
    intro b y i v hy hi
    rw [hheap] at hy
    by_cases heq : b = buf
    · -- the buffer of another object
      subst heq
      rw [h.filter_eq_nil hmem] at hi
      cases hi
    · rw [update_of_ne heq] at hy
      exact h.shows hy hi

theorem ShadowInv.step (h : ShadowInv k l s) (hs : shadowStep s op = some (r, s')) :
    ShadowInv k (l.step k op) s' := by
  rcases shadowStep_cases hs with ⟨k', old, buf, junk, rfl, hk, hfree, hchunk, hheap⟩ |
    ⟨k', buf, c, rfl, hc, hfree, hchunk, hheap⟩ |
    ⟨buf, off, bs, x, rfl, hx, hlen, hchunk, hheap⟩ | ⟨k', c, x, rfl, hc, hx, hchunk, hheap⟩
  · by_cases hkk : k' = k
    · subst hkk
      rw [ObjectLog.step, if_pos rfl]
      refine h.newBuffer hfree rfl (length_initial ..).symm ?_
        (by rw [hchunk, update_self]) hheap
      intro c₀ hc₀
      cases hk.symm.trans hc₀
    · rw [ObjectLog.step, if_neg hkk]
      exact h.otherBuffer hfree (by rw [hchunk, update_of_ne (Ne.symm hkk)]) hheap
  · by_cases hkk : k' = k
    · subst hkk
      rw [ObjectLog.step, if_pos rfl]
      have hchunk' : s'.chunk k' = some { c with logPtr := buf } := by
        rw [hchunk, update_self]
      refine h.newBuffer hfree rfl rfl ?_ hchunk' hheap
      intro c₀ hc₀
      cases hc.symm.trans hc₀
      rfl
    · rw [ObjectLog.step, if_neg hkk]
      exact h.otherBuffer hfree (by rw [hchunk, update_of_ne (Ne.symm hkk)]) hheap
  · exact h.write hx hlen hchunk hheap
  · by_cases hkk : k' = k
    · subst hkk
      rw [ObjectLog.step, if_pos rfl]
      exact h.commit hc (by rw [hchunk, update_self]) hheap
    · rw [ObjectLog.step, if_neg hkk]
      have hsame : s'.chunk k = s.chunk k := by rw [hchunk, update_of_ne (Ne.symm hkk)]
      refine ⟨fun hc => h.last (hsame ▸ hc), ?_, h.own, ?_⟩
      · intro b hb
        rw [hsame, hheap]
        exact h.buffer hb
      · rw [hheap]
        exact h.shows
