/-
# The remote checkpoint

`copy_proc_checkpoint` walks the chunk map and puts a header and the bytes of every
flagged chunk into one buffer, which is reallocated as it grows.  `parse_data` walks such
a buffer from header to header.  A buffer is a sequence of frames (`Framed`): the sender's
loop appends one frame for each chunk it finds flagged, and clearing the flag keeps it
from sending a chunk again that is registered under a second address.

The sender writes its own argument `procid` into every header, whichever process a chunk
belongs to.  The receiver maps a region for every header, but never copies the bytes that
follow it.
-/
import NvMalloc.Bytes

open Function

/-- `chkpthead_s`.  The fields are the bits of the numbers. -/
structure ChkptHead where
  pid : ℕ
  type : ℕ
  storeid : ℕ
  bytes : ℕ
  deriving DecidableEq, Repr

/-- `sizeof(chkpthead_s)`: three `int`s, four bytes of padding and a `size_t`. -/
def sizeofChkpthead : ℕ := 24

/-- The bytes of a header, with the padding the compiler leaves. -/
def ChkptHead.encode (pad : ℕ) (h : ChkptHead) : List UInt8 :=
  toLE 4 h.pid ++ toLE 4 h.type ++ toLE 4 h.storeid ++ toLE 4 pad ++ toLE 8 h.bytes

/-- The header at an address. -/
def decodeHead (g : ℕ → UInt8) (a : ℕ) : ChkptHead :=
  ⟨ofLE (slice g a 4), ofLE (slice g (a + 4) 4), ofLE (slice g (a + 8) 4),
    ofLE (slice g (a + 16) 8)⟩

/-- The fields of a `chunkobj_s` that the remote checkpoint reads and writes.  `rmtLog` is
the memory from `rmt_log_ptr` on. -/
structure RmtChunk where
  pid : UInt32
  chunkid : UInt32
  length : UInt32
  rmtLog : ℕ → UInt8
  rmtNvdirtchunk : Bool
  chunkCommit : Bool := false
  numRmtCpy : ℕ := 0

/-- The bytes of a chunk. -/
def RmtChunk.data (ch : RmtChunk) : List UInt8 := slice ch.rmtLog 0 ch.length.toNat

/-- The chunk map of a program, in the order in which its iterator goes through it, the
chunks its entries point to, and the regions recorded in `proc_vmas`.  A chunk has a
length and an id, and lies in a recorded region. -/
structure ChunkMap (ι : Type) where
  chunks : ι → RmtChunk
  entries : List (ℕ × ι)
  vmas : List (ℕ × ℕ)
  lengths : ∀ e ∈ entries, (chunks e.2).length ≠ 0
  ids : ∀ e ∈ entries, (chunks e.2).chunkid ≠ 0
  recorded : entries ≠ [] → vmas ≠ []

section Sender

variable {ι : Type} [DecidableEq ι]

/-- The variables of `copy_proc_checkpoint`, with the chunks. -/
structure SendState (ι : Type) where
  chunks : ι → RmtChunk
  sendbuff : Option (ℕ → UInt8) := none
  totalSize : ℕ := 0
  sentBytes : ℕ := 0

/-- A chunk that is not flagged is passed over. -/
def SendState.skip (s : SendState ι) (c : ι) : SendState ι :=
  { s with chunks := update s.chunks c { s.chunks c with chunkCommit := true } }

/-- A flagged chunk is appended to the buffer.  `fresh` is what the first `realloc`
returns; later ones keep the bytes written so far. -/
def SendState.send (fresh : ℕ → UInt8) (pad procid : ℕ) (s : SendState ι) (c : ι) : SendState ι :=
  let ch := s.chunks c
  let bytes := ch.length.toNat
  let head : ChkptHead := ⟨procid, 0, ch.chunkid.toNat, bytes⟩
  { chunks := update s.chunks c
      { ch with chunkCommit := true, numRmtCpy := ch.numRmtCpy + 1, rmtNvdirtchunk := false }
    -- `helper_update_sendbuff` writes the header at `sent_bytes`
    sendbuff := some (blit (blit (s.sendbuff.getD fresh) s.sentBytes (head.encode pad))
      (s.sentBytes + sizeofChkpthead) ch.data)
    totalSize := s.totalSize + bytes + sizeofChkpthead
    sentBytes := s.sentBytes + bytes + sizeofChkpthead }

/-- The body of the loop of `copy_proc_checkpoint`, for the chunk at `c`, and `none` where
an assertion fails or the buffer is too small. -/
def sendChunk (fresh : ℕ → UInt8) (pad procid : ℕ) (s : SendState ι) (c : ι) :
    Option (SendState ι) :=
  if (s.chunks c).length = 0 then none
  else if (s.chunks c).rmtNvdirtchunk then
    if (s.send fresh pad procid c).sentBytes ≤ (s.send fresh pad procid c).totalSize then
      some (s.send fresh pad procid c)
    else none
  else some (s.skip c)

/-- The loop of `copy_proc_checkpoint`. -/
def sendChunks (fresh : ℕ → UInt8) (pad procid : ℕ) : List ι → SendState ι → Option (SendState ι)
  | [], s => some s
  | c :: cs, s => (sendChunk fresh pad procid s c).bind (sendChunks fresh pad procid cs)

/-- The chunks of the map, once for every address they are registered under. -/
def ChunkMap.pointers (m : ChunkMap ι) : List ι := m.entries.map Prod.snd

/-- `copy_proc_checkpoint`.  The buffer it returns and the size are those of the state. -/
def copyProcCheckpoint (fresh : ℕ → UInt8) (pad procid : ℕ) (m : ChunkMap ι) :
    Option (SendState ι) :=
  if m.vmas = [] then some { chunks := m.chunks }
  else sendChunks fresh pad procid m.pointers { chunks := m.chunks }

end Sender

/-- The loop of `parse_data`: `add` is called for the header at each position `itr`.
Returns where the loop ends. -/
def parseLoop {σ : Type} (add : σ → ℕ → ChkptHead → Option σ) (buff : ℕ → UInt8) (size : ℕ) :
    ℕ → ℕ → σ → Option (σ × ℕ)
  | 0, itr, s => if itr < size then none else some (s, itr)
  | fuel + 1, itr, s =>
    if itr < size then
      (add s itr (decodeHead buff itr)).bind fun s' =>
        parseLoop add buff size fuel (itr + (decodeHead buff itr).bytes + sizeofChkpthead) s'
    else some (s, itr)

/-- The headers that `parse_data` meets, each with the bytes that follow it.  Every round
advances, so `size` rounds are enough. -/
def walkFrames (buff : ℕ → UInt8) (size : ℕ) : Option (List (ChkptHead × List UInt8) × ℕ) :=
  parseLoop (fun fs itr h => some (fs ++ [(h, slice buff (itr + sizeofChkpthead) h.bytes)]))
    buff size size 0 []

/-- The persistent regions of the receiver, by process and store id. -/
abbrev Nvram := ℕ × ℕ → Option (List UInt8)

/-- `add_nvram_data` with `map_nvram_state`: create and truncate the file, of a size that
is taken as an `unsigned int`, and map it. -/
def addNvramData (nv : Nvram) (h : ChkptHead) : Option Nvram :=
  if h.storeid = 0 ∨ h.pid = 0 then none
  else some (update nv (h.pid, h.storeid) (some (List.replicate (h.bytes % 2 ^ 32) 0)))

/-- `parse_data`. -/
def parseData (buff : ℕ → UInt8) (size : ℕ) (nv : Nvram) : Option Nvram :=
  (parseLoop (fun nv _ h => addNvramData nv h) buff size size 0 nv).map Prod.fst

/-! ## Frames -/

/-- From `a` to `stop` the buffer holds the given headers, each followed by its bytes. -/
def Framed (buff : ℕ → UInt8) : ℕ → List (ChkptHead × List UInt8) → ℕ → Prop
  | a, [], stop => a = stop
  | a, f :: fs, stop => decodeHead buff a = f.1 ∧ slice buff (a + sizeofChkpthead) f.1.bytes = f.2 ∧
    Framed buff (a + f.1.bytes + sizeofChkpthead) fs stop

section Frames

variable {buff buff' : ℕ → UInt8} {a stop : ℕ} {fs : List (ChkptHead × List UInt8)}

theorem Framed.le (h : Framed buff a fs stop) : a + sizeofChkpthead * fs.length ≤ stop := by
  induction fs generalizing a with
  | nil =>
    obtain rfl : a = stop := h
    exact le_rfl
  | cons f fs ih =>
    have hrest := ih h.2.2
    rw [List.length_cons, Nat.mul_succ]
    omega

theorem decodeHead_congr (h : ∀ i, i < sizeofChkpthead → buff' (a + i) = buff (a + i)) :
    decodeHead buff' a = decodeHead buff a := by
  have hpart : ∀ {o n}, o + n ≤ sizeofChkpthead → slice buff' (a + o) n = slice buff (a + o) n := by
    intro o n hle
    apply slice_congr
    intro i hi
    rw [Nat.add_assoc]
    exact h (o + i) (by omega)
  have h0 : slice buff' a 4 = slice buff a 4 := hpart (by decide : 0 + 4 ≤ sizeofChkpthead)
  rw [decodeHead, decodeHead, h0, hpart (by decide), hpart (by decide), hpart (by decide)]

/-- Bytes behind the frames do not matter. -/
theorem Framed.congr (h : Framed buff a fs stop) (heq : ∀ i, i < stop → buff' i = buff i) :
    Framed buff' a fs stop := by
  induction fs generalizing a with
  | nil => exact h
  | cons f fs ih =>
    obtain ⟨hhead, hdata, hrest⟩ := h
    have hle := hrest.le
    refine ⟨?_, ?_, ih hrest⟩
    · rw [← hhead]
      exact decodeHead_congr fun i hi => heq _ (by omega)
    · rw [← hdata]
      exact slice_congr fun i hi => heq _ (by omega)

theorem Framed.append {f : ChkptHead × List UInt8} (h : Framed buff a fs stop)
    (hhead : decodeHead buff stop = f.1)
    (hdata : slice buff (stop + sizeofChkpthead) f.1.bytes = f.2) :
    Framed buff a (fs ++ [f]) (stop + f.1.bytes + sizeofChkpthead) := by
  induction fs generalizing a with
  | nil =>
    obtain rfl : a = stop := h
    exact ⟨hhead, hdata, rfl⟩
  | cons g fs ih => exact ⟨h.1, h.2.1, ih h.2.2⟩

/-- The loop of `parse_data` meets the frames one after the other and ends where they
end. -/
theorem Framed.parseLoop_eq {σ : Type} {add : σ → ℕ → ChkptHead → Option σ}
    {g : σ → ChkptHead × List UInt8 → Option σ}
    (hadd : ∀ s itr f, slice buff (itr + sizeofChkpthead) f.1.bytes = f.2 → add s itr f.1 = g s f)
    (h : Framed buff a fs stop) {fuel : ℕ} (hfuel : fs.length ≤ fuel) (s : σ) :
    parseLoop add buff stop fuel a s = (fs.foldlM g s).map fun s' => (s', stop) := by
  induction fs generalizing a fuel s with
  | nil =>
    obtain rfl : a = stop := h
    cases fuel <;> simp [parseLoop]
  | cons f fs ih =>
    obtain ⟨hhead, hdata, hrest⟩ := h
    have hle := hrest.le
    have hlt : a < stop := by
      have : 0 < sizeofChkpthead := by decide
      omega
    cases fuel with
    | zero => simp at hfuel
    | succ fuel =>
      rw [parseLoop, if_pos hlt, hhead, hadd s a f hdata, List.foldlM_cons]
      cases g s f with
      | none => rfl
      | some s' => exact ih hrest (by simpa using hfuel) s'

theorem Framed.length_le (h : Framed buff 0 fs stop) : fs.length ≤ stop := by
  have hle := h.le
  simp only [sizeofChkpthead] at hle
  omega

/-- The receiver handles the frames one after the other. -/
theorem Framed.parseData_eq (h : Framed buff 0 fs stop) (nv : Nvram) :
    parseData buff stop nv = fs.foldlM (fun nv f => addNvramData nv f.1) nv := by
  have hloop : parseLoop (fun nv _ h => addNvramData nv h) buff stop stop 0 nv =
      (fs.foldlM (fun nv f => addNvramData nv f.1) nv).map fun nv' => (nv', stop) :=
    h.parseLoop_eq (fun _ _ _ _ => rfl) h.length_le nv
  rw [parseData, hloop, Option.map_map]
  exact Option.map_id'

/-- Reading the headers and the bytes of the frames. -/
theorem Framed.walkFrames_eq (h : Framed buff 0 fs stop) :
    walkFrames buff stop = some (fs, stop) := by
  have hcollect : ∀ acc : List (ChkptHead × List UInt8),
      fs.foldlM (fun acc f => some (acc ++ [f])) acc = some (acc ++ fs) := by
    intro acc
    clear h
    induction fs generalizing acc with
    | nil => simp
    | cons f fs ih => rw [List.foldlM_cons, Option.bind_eq_bind, Option.bind_some, ih]; simp
  rw [walkFrames, h.parseLoop_eq (fun s itr f hf => by rw [hf]) h.length_le, hcollect]
  rfl

end Frames

/-! ## The sender -/

/-- A header is read back when its numbers fit their fields. -/
theorem decodeHead_encode {h : ChkptHead} (hpid : h.pid < 2 ^ 32) (htype : h.type < 2 ^ 32)
    (hid : h.storeid < 2 ^ 32) (hbytes : h.bytes < 2 ^ 64) (g : ℕ → UInt8) (a pad : ℕ) :
    decodeHead (blit g a (h.encode pad)) a = h := by
  have hfield : ∀ (bs ds : List UInt8) (w n : ℕ), h.encode pad = bs ++ toLE w n ++ ds →
      n < 256 ^ w → ofLE (slice (blit g a (h.encode pad)) (a + bs.length) w) = n := by
    intro bs ds w n heq hn
    have hslice := slice_blit_middle g a bs (toLE w n) ds
    rw [length_toLE] at hslice
    rw [heq, hslice, ofLE_toLE hn]
  have h0 := hfield [] (toLE 4 h.type ++ toLE 4 h.storeid ++ toLE 4 pad ++ toLE 8 h.bytes) 4 h.pid
    (by simp [ChkptHead.encode]) hpid
  have h4 := hfield (toLE 4 h.pid) (toLE 4 h.storeid ++ toLE 4 pad ++ toLE 8 h.bytes) 4 h.type
    (by simp [ChkptHead.encode]) htype
  have h8 := hfield (toLE 4 h.pid ++ toLE 4 h.type) (toLE 4 pad ++ toLE 8 h.bytes) 4 h.storeid
    (by simp [ChkptHead.encode]) hid
  have h16 := hfield (toLE 4 h.pid ++ toLE 4 h.type ++ toLE 4 h.storeid ++ toLE 4 pad) [] 8 h.bytes
    (by simp [ChkptHead.encode]) hbytes
  simp only [List.length_append, length_toLE, List.length_nil, Nat.add_zero] at h0 h4 h8 h16
  rw [decodeHead, h0, h4, h8, h16]

section Sender

variable {ι : Type} [DecidableEq ι]

/-- The frame of a chunk in a checkpoint of process `procid`. -/
def frameOf (procid : ℕ) (ch : RmtChunk) : ChkptHead × List UInt8 :=
  (⟨procid, 0, ch.chunkid.toNat, ch.length.toNat⟩, ch.data)

/-- The chunks of a walk that are flagged when the walk first meets them. -/
def shipped (flags : ι → Bool) : List ι → List ι
  | [] => []
  | c :: cs => if flags c then c :: shipped (update flags c false) cs else shipped flags cs

theorem mem_shipped {flags : ι → Bool} {cs : List ι} {c : ι} :
    c ∈ shipped flags cs ↔ c ∈ cs ∧ flags c = true := by
  induction cs generalizing flags with
  | nil => simp [shipped]
  | cons d cs ih =>
    rw [shipped]
    by_cases hd : flags d = true
    · rw [if_pos hd, List.mem_cons, List.mem_cons, ih]
      by_cases hcd : c = d
      · simp [hcd, hd]
      · simp [hcd]
    · rw [if_neg hd, List.mem_cons, ih]
      by_cases hcd : c = d
      · simp [hcd, hd]
      · simp [hcd]

/-- A chunk is shipped once, under however many addresses it is registered. -/
theorem nodup_shipped (flags : ι → Bool) (cs : List ι) : (shipped flags cs).Nodup := by
  induction cs generalizing flags with
  | nil => exact List.nodup_nil
  | cons d cs ih =>
    rw [shipped]
    by_cases hd : flags d = true
    · rw [if_pos hd, List.nodup_cons]
      refine ⟨?_, ih _⟩
      rw [mem_shipped, update_self]
      exact fun h => Bool.false_ne_true h.2
    · rw [if_neg hd]
      exact ih _

/-- What the sender's loop leaves of the chunks: their data, and no flag on those it went
through. -/
structure Sent (chunks chunks' : ι → RmtChunk) (cs : List ι) : Prop where
  frame : ∀ c procid, frameOf procid (chunks' c) = frameOf procid (chunks c)
  cleared : ∀ c ∈ cs, (chunks' c).rmtNvdirtchunk = false
  others : ∀ c, c ∉ cs → (chunks' c).rmtNvdirtchunk = (chunks c).rmtNvdirtchunk

theorem Sent.cons {chunks chunks₁ chunks₂ : ι → RmtChunk} {c : ι} {cs : List ι}
    (h : Sent chunks chunks₁ [c]) (h' : Sent chunks₁ chunks₂ cs) :
    Sent chunks chunks₂ (c :: cs) := by
  refine ⟨fun d q => (h'.frame d q).trans (h.frame d q), ?_, ?_⟩
  · intro d hd
    by_cases hin : d ∈ cs
    · exact h'.cleared d hin
    · obtain rfl : d = c := (List.mem_cons.mp hd).resolve_right hin
      rw [h'.others d hin]
      exact h.cleared d (List.mem_singleton_self d)
  · intro d hd
    rw [List.mem_cons, not_or] at hd
    rw [h'.others d hd.2, h.others d (by simpa using hd.1)]

/-- The flags after one round. -/
theorem Sent.flags_eq {chunks chunks' : ι → RmtChunk} {c : ι} (h : Sent chunks chunks' [c]) :
    (fun d => (chunks' d).rmtNvdirtchunk) =
      update (fun d => (chunks d).rmtNvdirtchunk) c false := by
  funext d
  by_cases hd : d = c
  · subst hd
    rw [update_self]
    exact h.cleared d (List.mem_singleton_self d)
  · rw [update_of_ne hd]
    exact h.others d (by simpa using hd)

omit [DecidableEq ι] in
theorem Sent.length_ne {chunks chunks' : ι → RmtChunk} {cs : List ι} (h : Sent chunks chunks' cs)
    {c : ι} (hc : (chunks c).length ≠ 0) : (chunks' c).length ≠ 0 := by
  have hlen : (chunks' c).length.toNat = (chunks c).length.toNat :=
    congrArg (fun f : ChkptHead × List UInt8 => f.1.bytes) (h.frame c 0)
  rwa [UInt32.toNat_inj.mp hlen]

section Round

variable {fresh : ℕ → UInt8} {pad procid : ℕ} {s : SendState ι} {c : ι}

theorem SendState.sent_skip (h : (s.chunks c).rmtNvdirtchunk = false) :
    Sent s.chunks (s.skip c).chunks [c] := by
  refine ⟨?_, ?_, ?_⟩
  · intro d q
    by_cases hd : d = c
    · subst hd
      simp [SendState.skip, frameOf, RmtChunk.data]
    · simp [SendState.skip, hd]
  · intro d hd
    rw [List.mem_singleton] at hd
    subst hd
    simpa [SendState.skip] using h
  · intro d hd
    rw [List.mem_singleton] at hd
    simp [SendState.skip, hd]

theorem SendState.sent_send : Sent s.chunks (s.send fresh pad procid c).chunks [c] := by
  refine ⟨?_, ?_, ?_⟩
  · intro d q
    by_cases hd : d = c
    · subst hd
      simp [SendState.send, frameOf, RmtChunk.data]
    · simp [SendState.send, hd]
  · intro d hd
    rw [List.mem_singleton] at hd
    subst hd
    simp [SendState.send]
  · intro d hd
    rw [List.mem_singleton] at hd
    simp [SendState.send, hd]

/-- A flagged chunk adds its frame. -/
theorem SendState.framed_send (hpid : procid < 2 ^ 32) {fs : List (ChkptHead × List UInt8)}
    (hfr : Framed (s.sendbuff.getD fresh) 0 fs s.sentBytes) :
    Framed ((s.send fresh pad procid c).sendbuff.getD fresh) 0
      (fs ++ [frameOf procid (s.chunks c)]) (s.send fresh pad procid c).sentBytes := by
  have hid := (s.chunks c).chunkid.toNat_lt
  have hlen := (s.chunks c).length.toNat_lt
  have hbytes : (s.chunks c).data.length = (s.chunks c).length.toNat := length_slice ..
  refine Framed.append (f := frameOf procid (s.chunks c)) ?_ ?_ ?_
  · refine hfr.congr fun i hi => ?_
    simp only [SendState.send, Option.getD_some]
    rw [blit_of_outside (.inl (by omega)), blit_of_outside (.inl hi)]
  · refine (decodeHead_congr fun i hi => ?_).trans
      (decodeHead_encode hpid (Nat.two_pow_pos 32) hid (hlen.trans (by decide))
        (s.sendbuff.getD fresh) s.sentBytes pad)
    simp only [SendState.send, Option.getD_some]
    exact blit_of_outside (.inl (by omega))
  · simp only [SendState.send, Option.getD_some, frameOf]
    rw [← hbytes]
    exact slice_blit_self ..

end Round

/-- **The sender's loop** appends the frames of the shipped chunks and clears the flags. -/
theorem sendChunks_eq (fresh : ℕ → UInt8) (pad : ℕ) {procid : ℕ} (hpid : procid < 2 ^ 32)
    {cs : List ι} {s : SendState ι} {fs : List (ChkptHead × List UInt8)}
    (hlen : ∀ c ∈ cs, (s.chunks c).length ≠ 0) (hsize : s.sentBytes = s.totalSize)
    (hfr : Framed (s.sendbuff.getD fresh) 0 fs s.sentBytes) :
    ∃ s', sendChunks fresh pad procid cs s = some s' ∧ s'.sentBytes = s'.totalSize ∧
      Sent s.chunks s'.chunks cs ∧
      (s'.sendbuff.isSome = true ↔
        s.sendbuff.isSome = true ∨ ∃ c ∈ cs, (s.chunks c).rmtNvdirtchunk = true) ∧
      Framed (s'.sendbuff.getD fresh) 0
        (fs ++ (shipped (fun c => (s.chunks c).rmtNvdirtchunk) cs).map fun c =>
          frameOf procid (s.chunks c)) s'.sentBytes := by
  induction cs generalizing s fs with
  | nil =>
    refine ⟨s, rfl, hsize, ⟨fun _ _ => rfl, by simp, fun _ _ => rfl⟩, by simp, ?_⟩
    rw [shipped, List.map_nil, List.append_nil]
    exact hfr
  | cons c cs ih =>
    have hc := hlen c List.mem_cons_self
    cases hflag : (s.chunks c).rmtNvdirtchunk with
    | false =>
      have hone : sendChunk fresh pad procid s c = some (s.skip c) := by
        rw [sendChunk, if_neg hc, hflag]
        rfl
      have hsent := s.sent_skip hflag
      obtain ⟨s', hrun, hsize', hsent', hsome, hfr'⟩ :=
        ih (fun d hd => hsent.length_ne (hlen d (List.mem_cons_of_mem _ hd))) hsize hfr
      have hsame : (fun d => ((s.skip c).chunks d).rmtNvdirtchunk) =
          fun d => (s.chunks d).rmtNvdirtchunk := by
        rw [hsent.flags_eq, ← hflag, update_eq_self]
      refine ⟨s', by rw [sendChunks, hone]; exact hrun, hsize', hsent.cons hsent', ?_, ?_⟩
      · rw [hsome]
        simp only [List.exists_mem_cons_iff, hflag, Bool.false_eq_true, false_or]
        simp only [congrFun hsame]
        rfl
      · rw [shipped, if_neg (by rw [hflag]; exact Bool.false_ne_true), ← hsame]
        simpa only [hsent.frame] using hfr'
    | true =>
      have hfit : (s.send fresh pad procid c).sentBytes =
        (s.send fresh pad procid c).totalSize := by
        simp only [SendState.send, hsize]
      have hone : sendChunk fresh pad procid s c = some (s.send fresh pad procid c) := by
        rw [sendChunk, if_neg hc, hflag, if_pos rfl, if_pos hfit.le]
      have hsent : Sent s.chunks (s.send fresh pad procid c).chunks [c] := s.sent_send
      obtain ⟨s', hrun, hsize', hsent', hsome, hfr'⟩ :=
        ih (fun d hd => hsent.length_ne (hlen d (List.mem_cons_of_mem _ hd))) hfit
          (s.framed_send hpid hfr)
      refine ⟨s', by rw [sendChunks, hone]; exact hrun, hsize', hsent.cons hsent', ?_, ?_⟩
      · rw [hsome]
        simp [SendState.send, hflag]
      · rw [shipped, if_pos hflag, ← hsent.flags_eq]
        simpa only [hsent.frame, List.map_cons, List.append_assoc, List.singleton_append] using hfr'

/-- The chunk is in the map and its flag is set. -/
def ChunkMap.Flagged (m : ChunkMap ι) (c : ι) : Prop :=
  c ∈ m.pointers ∧ (m.chunks c).rmtNvdirtchunk = true

/-- What `copy_proc_checkpoint` returns. -/
theorem copyProcCheckpoint_eq (fresh : ℕ → UInt8) (pad : ℕ) (procid : UInt32) (m : ChunkMap ι) :
    ∃ (s : SendState ι) (ptrs : List ι), copyProcCheckpoint fresh pad procid.toNat m = some s ∧
      ptrs.Nodup ∧ (∀ c, c ∈ ptrs ↔ m.Flagged c) ∧ Sent m.chunks s.chunks m.pointers ∧
      (s.sendbuff.isSome = true ↔ ∃ c, m.Flagged c) ∧
      Framed (s.sendbuff.getD fresh) 0 (ptrs.map fun c => frameOf procid.toNat (m.chunks c))
        s.totalSize := by
  have hlen : ∀ c ∈ m.pointers, (m.chunks c).length ≠ 0 := by
    intro c hc
    obtain ⟨e, he, rfl⟩ := List.mem_map.mp hc
    exact m.lengths e he
  have hinit : Framed (({ chunks := m.chunks } : SendState ι).sendbuff.getD fresh) 0 [] 0 := rfl
  obtain ⟨s, hrun, hsize, hsent, hsome, hfr⟩ :=
    sendChunks_eq fresh pad procid.toNat_lt hlen rfl hinit
  refine ⟨s, shipped (fun c => (m.chunks c).rmtNvdirtchunk) m.pointers, ?_, nodup_shipped _ _,
    fun c => mem_shipped, hsent, ?_, ?_⟩
  · rw [copyProcCheckpoint]
    split
    · rename_i hvmas
      have hnil : m.entries = [] := by
        by_contra hne
        exact m.recorded hne hvmas
      rw [ChunkMap.pointers, hnil] at hrun
      exact hrun
    · exact hrun
  · rw [hsome]
    simp [ChunkMap.Flagged]
  · rw [← hsize]
    exact hfr

/-- The buffer decodes into one frame for each flagged chunk, with the process id, id,
length and bytes of the chunk, up to its size; afterwards no flag is set. -/
def RoundTrips (fresh : ℕ → UInt8) (pad : ℕ) (procid : UInt32) (m : ChunkMap ι) : Prop :=
  ∃ (s : SendState ι) (buff : ℕ → UInt8) (ptrs : List ι),
    copyProcCheckpoint fresh pad procid.toNat m = some s ∧ s.sendbuff = some buff ∧
    ptrs.Nodup ∧ (∀ c, c ∈ ptrs ↔ m.Flagged c) ∧
    walkFrames buff s.totalSize =
      some (ptrs.map fun c => frameOf (m.chunks c).pid.toNat (m.chunks c), s.totalSize) ∧
    ∀ c ∈ m.pointers, (s.chunks c).rmtNvdirtchunk = false

/-- Every header carries the process id the sender was given. -/
theorem RoundTrips.pid_eq {fresh : ℕ → UInt8} {pad : ℕ} {procid : UInt32} {m : ChunkMap ι}
    (h : RoundTrips fresh pad procid m) {c : ι} (hc : m.Flagged c) : (m.chunks c).pid = procid := by
  obtain ⟨s, ptrs, hrun, -, -, -, -, hfr⟩ := copyProcCheckpoint_eq fresh pad procid m
  obtain ⟨s', buff, ptrs', hrun', hbuff, -, hmem', hwalk', -⟩ := h
  rw [hrun] at hrun'
  cases hrun'
  rw [hbuff] at hfr
  have hwalk : walkFrames buff s.totalSize = _ := hfr.walkFrames_eq
  rw [hwalk, Option.some_inj, Prod.mk.injEq] at hwalk'
  -- the frame of `c` is one of those that carry `procid`
  have hin : frameOf (m.chunks c).pid.toNat (m.chunks c) ∈
      ptrs.map fun c => frameOf procid.toNat (m.chunks c) := by
    rw [hwalk'.1]
    exact List.mem_map_of_mem ((hmem' c).mpr hc)
  obtain ⟨d, -, hd⟩ := List.mem_map.mp hin
  exact (UInt32.toNat_inj.mp (congrArg (fun f : ChkptHead × List UInt8 => f.1.pid) hd)).symm

/-- **The framing of the remote checkpoint round-trips** exactly when the flagged chunks
of the map all belong to the process whose checkpoint is taken. -/
theorem roundTrips_iff (fresh : ℕ → UInt8) (pad : ℕ) (procid : UInt32) (m : ChunkMap ι)
    (hflag : ∃ c, m.Flagged c) :
    RoundTrips fresh pad procid m ↔ ∀ c, m.Flagged c → (m.chunks c).pid = procid := by
  refine ⟨fun h c hc => h.pid_eq hc, fun hown => ?_⟩
  obtain ⟨s, ptrs, hrun, hnd, hmem, hsent, hsome, hfr⟩ := copyProcCheckpoint_eq fresh pad procid m
  obtain ⟨buff, hbuff⟩ := Option.isSome_iff_exists.mp (hsome.mpr hflag)
  rw [hbuff] at hfr
  refine ⟨s, buff, ptrs, hrun, hbuff, hnd, hmem, ?_, hsent.cleared⟩
  have hmap : (ptrs.map fun c => frameOf procid.toNat (m.chunks c)) =
      ptrs.map fun c => frameOf (m.chunks c).pid.toNat (m.chunks c) := by
    apply List.map_congr_left
    intro c hc
    rw [hown c ((hmem c).mp hc)]
  rw [← hmap]
  exact hfr.walkFrames_eq

end Sender

/-- Two chunks of process `1`; the second is registered under two addresses. -/
def sampleMap (pid : UInt32) (b : UInt8) : ChunkMap Bool where
  chunks c :=
    if c then ⟨pid, 5, 2, fun _ => b, true, false, 0⟩ else ⟨1, 6, 1, fun _ => 0, true, false, 0⟩
  entries := [(64, false), (128, true), (192, true)]
  vmas := [(1, 4096)]
  lengths := by simp
  ids := by simp
  recorded _ := List.cons_ne_nil _ _

theorem roundTrips_sampleMap : RoundTrips (fun _ => 0) 0 1 (sampleMap 1 7) := by
  refine (roundTrips_iff _ _ _ _ ⟨true, by decide, rfl⟩).mpr ?_
  rintro (_ | _) -
  · rfl
  · rfl

/-- A chunk of process `2` in a checkpoint of process `1`: its header says `1`. -/
theorem not_roundTrips_foreignChunk : (sampleMap 2 7).Flagged true ∧
    ¬ RoundTrips (fun _ => 0) 0 1 (sampleMap 2 7) := by
  have hflag : (sampleMap 2 7).Flagged true := ⟨by decide, rfl⟩
  refine ⟨hflag, fun h => ?_⟩
  exact absurd (h.pid_eq hflag) (by decide)

/-! ## The receiver -/

section Receiver

variable {ι : Type} [DecidableEq ι]

/-- The last header of a store decides what its region holds. -/
theorem foldlM_addNvramData {fs : List (ChkptHead × List UInt8)} (nv : Nvram)
    (hids : ∀ f ∈ fs, ¬ (f.1.storeid = 0 ∨ f.1.pid = 0)) :
    ∃ nv', fs.foldlM (fun nv f => addNvramData nv f.1) nv = some nv' ∧
      (∀ k, (∀ f ∈ fs, (f.1.pid, f.1.storeid) ≠ k) → nv' k = nv k) ∧
      ∀ f ∈ fs, ∃ g ∈ fs, (g.1.pid, g.1.storeid) = (f.1.pid, f.1.storeid) ∧
        nv' (f.1.pid, f.1.storeid) = some (List.replicate (g.1.bytes % 2 ^ 32) 0) := by
  induction fs generalizing nv with
  | nil => exact ⟨nv, rfl, fun _ _ => rfl, by simp⟩
  | cons f fs ih =>
    have hadd : addNvramData nv f.1 = some (update nv (f.1.pid, f.1.storeid)
        (some (List.replicate (f.1.bytes % 2 ^ 32) 0))) := if_neg (hids f List.mem_cons_self)
    obtain ⟨nv', hrun, hframe, hlast⟩ := ih (update nv (f.1.pid, f.1.storeid)
      (some (List.replicate (f.1.bytes % 2 ^ 32) 0)))
      fun g hg => hids g (List.mem_cons_of_mem _ hg)
    refine ⟨nv', ?_, ?_, ?_⟩
    · rw [List.foldlM_cons, hadd]
      exact hrun
    · intro k hk
      rw [hframe k fun g hg => hk g (List.mem_cons_of_mem _ hg)]
      exact update_of_ne (hk f List.mem_cons_self).symm ..
    · intro g hg
      -- a later header of the same store, or else this one
      by_cases hlater : ∃ g' ∈ fs, (g'.1.pid, g'.1.storeid) = (g.1.pid, g.1.storeid)
      · obtain ⟨g', hg', hkey⟩ := hlater
        obtain ⟨g'', hg'', hkey', hval⟩ := hlast g' hg'
        exact ⟨g'', List.mem_cons_of_mem _ hg'', hkey'.trans hkey, hkey ▸ hval⟩
      · have hgf : g = f := (List.mem_cons.mp hg).resolve_right fun hin => hlater ⟨g, hin, rfl⟩
        subst hgf
        refine ⟨g, List.mem_cons_self, rfl, ?_⟩
        rw [hframe _ fun g' hg' heq => hlater ⟨g', hg', heq⟩]
        exact update_self ..

/-- A header without ids stops the receiver. -/
theorem ids_of_foldlM {fs : List (ChkptHead × List UInt8)} {nv nv' : Nvram}
    (h : fs.foldlM (fun nv f => addNvramData nv f.1) nv = some nv') :
    ∀ f ∈ fs, ¬ (f.1.storeid = 0 ∨ f.1.pid = 0) := by
  induction fs generalizing nv with
  | nil => simp
  | cons f fs ih =>
    rw [List.foldlM_cons] at h
    obtain ⟨nv₁, hadd, hrest⟩ := Option.bind_eq_some_iff.mp h
    intro g hg hzero
    rcases List.mem_cons.mp hg with rfl | hg
    · rw [addNvramData, if_pos hzero] at hadd
      cases hadd
    · exact ih hrest g hg hzero

/-- Whatever buffer the sender built, the receiver gets through it, and the region of
every header then holds the bytes that follow the header. -/
def Restores (fresh : ℕ → UInt8) (pad : ℕ) (procid : UInt32) (m : ChunkMap ι) (nv : Nvram) : Prop :=
  ∀ {s buff}, copyProcCheckpoint fresh pad procid.toNat m = some s → s.sendbuff = some buff →
    ∃ fs stop nv', walkFrames buff s.totalSize = some (fs, stop) ∧
      parseData buff s.totalSize nv = some nv' ∧
      ∀ f ∈ fs, nv' (f.1.pid, f.1.storeid) = some f.2

/-- The bytes of the chunk are those of a fresh file, and chunks of the same id are of the
same length. -/
def ChunkMap.LooksFresh (m : ChunkMap ι) (c : ι) : Prop :=
  (m.chunks c).data = List.replicate (m.chunks c).length.toNat 0 ∧
    ∀ d, m.Flagged d → (m.chunks d).chunkid = (m.chunks c).chunkid →
      (m.chunks d).length = (m.chunks c).length

/-- What a region can hold. -/
theorem Restores.looksFresh {fresh : ℕ → UInt8} {pad : ℕ} {procid : UInt32} {m : ChunkMap ι}
    {nv : Nvram} (h : Restores fresh pad procid m nv) {c : ι} (hc : m.Flagged c) :
    procid ≠ 0 ∧ m.LooksFresh c := by
  obtain ⟨s, ptrs, hrun, -, hmem, -, hsome, hfr⟩ := copyProcCheckpoint_eq fresh pad procid m
  obtain ⟨buff, hbuff⟩ := Option.isSome_iff_exists.mp (hsome.mpr ⟨c, hc⟩)
  obtain ⟨fs, stop, nv', hwalk, hdone, hall⟩ := h hrun hbuff
  rw [hbuff] at hfr
  have hwalk₁ : walkFrames buff s.totalSize = _ := hfr.walkFrames_eq
  have hdone₁ : parseData buff s.totalSize nv = _ := hfr.parseData_eq nv
  rw [hwalk₁] at hwalk
  cases hwalk
  rw [hdone₁] at hdone
  have hids := ids_of_foldlM hdone
  have hframe : ∀ {d}, m.Flagged d → frameOf procid.toNat (m.chunks d) ∈
      ptrs.map fun c => frameOf procid.toNat (m.chunks c) :=
    fun hd => List.mem_map_of_mem ((hmem _).mpr hd)
  obtain ⟨nv₁, hdone₂, -, hlast⟩ := foldlM_addNvramData nv hids
  rw [hdone] at hdone₂
  cases hdone₂
  refine ⟨?_, ?_, ?_⟩
  · rintro rfl
    exact hids _ (hframe hc) (.inr rfl)
  · obtain ⟨g, -, -, hval⟩ := hlast _ (hframe hc)
    rw [hall _ (hframe hc), Option.some_inj] at hval
    have hdata : (m.chunks c).data = List.replicate (g.1.bytes % 2 ^ 32) 0 := hval
    have hlen := congrArg List.length hdata
    rw [RmtChunk.data, length_slice, List.length_replicate] at hlen
    rw [hdata, hlen]
  · intro d hd hid
    have hkey : nv' (procid.toNat, (m.chunks d).chunkid.toNat) = some (m.chunks d).data :=
      hall _ (hframe hd)
    have hkey' : nv' (procid.toNat, (m.chunks c).chunkid.toNat) = some (m.chunks c).data :=
      hall _ (hframe hc)
    rw [hid, hkey', Option.some_inj] at hkey
    have hlen := congrArg List.length hkey
    rw [RmtChunk.data, RmtChunk.data, length_slice, length_slice] at hlen
    exact (UInt32.toNat_inj.mp hlen).symm

/-- **A received checkpoint restores the data** only as far as a fresh file already holds
it: the bytes behind the headers are never copied. -/
theorem restores_iff (fresh : ℕ → UInt8) (pad : ℕ) (procid : UInt32) (m : ChunkMap ι)
    (nv : Nvram) :
    Restores fresh pad procid m nv ↔ ∀ c, m.Flagged c → procid ≠ 0 ∧ m.LooksFresh c := by
  refine ⟨fun h c hc => h.looksFresh hc, ?_⟩
  obtain ⟨s, ptrs, hrun, -, hmem, -, -, hfr⟩ := copyProcCheckpoint_eq fresh pad procid m
  intro hcond s' buff hrun' hbuff
  rw [hrun] at hrun'
  cases hrun'
  rw [hbuff] at hfr
  have hids : ∀ f ∈ ptrs.map fun c => frameOf procid.toNat (m.chunks c),
      ¬ (f.1.storeid = 0 ∨ f.1.pid = 0) := by
    intro f hf
    obtain ⟨c, hc, rfl⟩ := List.mem_map.mp hf
    have hflag := (hmem c).mp hc
    obtain ⟨e, he, rfl⟩ := List.mem_map.mp hflag.1
    rintro (hid | hpid)
    · exact m.ids e he (UInt32.toNat_inj.mp hid)
    · exact (hcond e.2 hflag).1 (UInt32.toNat_inj.mp hpid)
  obtain ⟨nv', hdone, -, hlast⟩ := foldlM_addNvramData nv hids
  refine ⟨_, _, nv', hfr.walkFrames_eq, (hfr.parseData_eq nv).trans hdone, ?_⟩
  intro f hf
  obtain ⟨g, hg, hkey, hval⟩ := hlast f hf
  obtain ⟨c, hc, rfl⟩ := List.mem_map.mp hf
  obtain ⟨d, hd, rfl⟩ := List.mem_map.mp hg
  obtain ⟨hzero, hsame⟩ := (hcond c ((hmem c).mp hc)).2
  have hid : (m.chunks d).chunkid = (m.chunks c).chunkid :=
    UInt32.toNat_inj.mp (Prod.mk.inj hkey).2
  have hlen : (frameOf procid.toNat (m.chunks d)).1.bytes % 2 ^ 32 = (m.chunks c).length.toNat := by
    show (m.chunks d).length.toNat % 2 ^ 32 = _
    rw [hsame d ((hmem d).mp hd) hid]
    exact Nat.mod_eq_of_lt (m.chunks c).length.toNat_lt
  rw [hval, hlen, ← hzero]
  rfl

end Receiver

theorem restores_zeroMap : Restores (fun _ => 0) 0 1 (sampleMap 1 0) fun _ => none := by
  refine (restores_iff _ _ _ _ _).mpr ?_
  rintro (_ | _) -
  · refine ⟨by decide, rfl, ?_⟩
    rintro (_ | _) - hid
    · rfl
    · exact absurd hid (by decide)
  · refine ⟨by decide, rfl, ?_⟩
    rintro (_ | _) - hid
    · exact absurd hid (by decide)
    · rfl

/-- The bytes of the second chunk are lost. -/
theorem not_restores_sampleMap : ¬ Restores (fun _ => 0) 0 1 (sampleMap 1 7) fun _ => none := by
  intro h
  have hflag : (sampleMap 1 7).Flagged true := ⟨by decide, rfl⟩
  exact absurd (h.looksFresh hflag).2.1 (by decide)
