/-
# Parsing a checkpoint buffer

`parse_data` walks a buffer by the byte counts in the headers it meets.  It compares only the
position with the size of the buffer, so a header, or the bytes a header announces, may lie
beyond the end, and the 64-bit position may wrap around.

It stays in the buffer, and then ends, exactly when the buffer is a sequence of whole frames up
to its end, or up to a header at which `add_nvram_data` stops the program.
-/
import NvMalloc.Framing

/-! ## The code -/

/-- A buffer in the memory of a program. -/
structure ParseBuffer where
  mem : ℕ → UInt8
  base : ℕ
  size : ℕ
  base_ne : base ≠ 0
  fits : base + size < 2 ^ 64

/-- The variables `buffer` and `itr` of `parse_data`, the regions mapped so far and the number of
calls of `add_nvram_data`. -/
structure ParseState where
  buffer : ℕ
  itr : ℕ
  nv : Nvram
  calls : ℕ := 0

/-- `add_nvram_data`, where the kernel answers the call with number `calls`; `none` when an
assertion fails. -/
def addMappedData (mmap : ℕ → ChkptHead → Bool) (calls : ℕ) (nv : Nvram) (h : ChkptHead) :
    Option Nvram :=
  if mmap calls h = true then addNvramData nv h else none

/-- The body of the loop. -/
def parseRound (mmap : ℕ → ChkptHead → Bool) (mem : ℕ → UInt8) (s : ParseState) :
    Option ParseState :=
  let tmpheader := decodeHead mem s.buffer
  (addMappedData mmap s.calls s.nv tmpheader).map fun nv =>
    { buffer := (s.buffer + tmpheader.bytes + sizeofChkpthead) % 2 ^ 64
      itr := (s.itr + tmpheader.bytes + sizeofChkpthead) % 2 ^ 64
      nv := nv
      calls := s.calls + 1 }

/-- What has become of a call of `parse_data`: it is before the test of its loop, it has returned,
or an assertion has stopped the program. -/
inductive ParseOutcome
  | running (s : ParseState)
  | returned (nv : Nvram)
  | aborted

/-- The loop, for a number of rounds. -/
def parseRounds (mmap : ℕ → ChkptHead → Bool) (mem : ℕ → UInt8) (size : ℕ) :
    ℕ → ParseState → ParseOutcome
  | 0, s => .running s
  | n + 1, s =>
    if s.itr < size then
      match parseRound mmap mem s with
      | none => .aborted
      | some s' => parseRounds mmap mem size n s'
    else .returned s.nv

namespace ParseBuffer

/-- `parse_data`, after a number of rounds. -/
def parseDataRounds (b : ParseBuffer) (mmap : ℕ → ChkptHead → Bool) (nv : Nvram) (n : ℕ) :
    ParseOutcome :=
  parseRounds mmap b.mem b.size n ⟨b.base, 0, nv, 0⟩

/-! ## Safety -/

/-- The `n` addresses from `a` on lie in the buffer. -/
def Inside (b : ParseBuffer) (a n : ℕ) : Prop := b.base ≤ a ∧ a + n ≤ b.base + b.size

/-- The loop ends, and every header it reads lies in the buffer, with the bytes it announces. -/
structure SafeFrom (b : ParseBuffer) (mmap : ℕ → ChkptHead → Bool) (s : ParseState) : Prop where
  ends : ∃ n, ∀ s', parseRounds mmap b.mem b.size n s ≠ .running s'
  reads : ∀ n s', parseRounds mmap b.mem b.size n s = .running s' → s'.itr < b.size →
    b.Inside s'.buffer sizeofChkpthead ∧
      b.Inside (s'.buffer + sizeofChkpthead) (decodeHead b.mem s'.buffer).bytes

/-- `parse_data` is safe on the buffer. -/
def ParsesSafely (b : ParseBuffer) (mmap : ℕ → ChkptHead → Bool) (nv : Nvram) : Prop :=
  b.SafeFrom mmap ⟨b.base, 0, nv, 0⟩

/-- An assertion of `add_nvram_data` fails at one of the frames, the first of which is handled by
call number `calls`. -/
def Stops (mmap : ℕ → ChkptHead → Bool) : ℕ → List (ChkptHead × List UInt8) → Prop
  | _, [] => False
  | calls, f :: fs =>
    f.1.storeid = 0 ∨ f.1.pid = 0 ∨ mmap calls f.1 = false ∨ Stops mmap (calls + 1) fs

/-- From `a` on there are whole frames, up to the end of the buffer or to one at which the program
stops. -/
def FramedFrom (b : ParseBuffer) (mmap : ℕ → ChkptHead → Bool) (calls a : ℕ) : Prop :=
  ∃ fs stop, Framed b.mem a fs stop ∧
    (stop = b.base + b.size ∨ stop ≤ b.base + b.size ∧ Stops mmap calls fs)

end ParseBuffer

variable {mmap : ℕ → ChkptHead → Bool} {fs : List (ChkptHead × List UInt8)}

theorem addMappedData_eq_none_iff {calls : ℕ} {nv : Nvram} {h : ChkptHead} :
    addMappedData mmap calls nv h = none ↔
      h.storeid = 0 ∨ h.pid = 0 ∨ mmap calls h = false := by
  unfold addMappedData addNvramData
  by_cases hmap : mmap calls h = true
  · rw [if_pos hmap]
    by_cases hid : h.storeid = 0 ∨ h.pid = 0
    · rw [if_pos hid]
      exact ⟨fun _ => by tauto, fun _ => rfl⟩
    · rw [if_neg hid]
      constructor
      · intro hnone
        cases hnone
      · rw [hmap]
        rintro (hz | hz | hz)
        · exact absurd (.inl hz) hid
        · exact absurd (.inr hz) hid
        · cases hz
  · rw [if_neg hmap]
    exact ⟨fun _ => .inr (.inr (Bool.eq_false_of_not_eq_true hmap)), fun _ => rfl⟩

section Walk

variable {b : ParseBuffer} {mmap : ℕ → ChkptHead → Bool} {s s' : ParseState}

/-- One more round, from the front. -/
theorem parseRounds_succ (h : s.itr < b.size) (hround : parseRound mmap b.mem s = some s') (n : ℕ) :
    parseRounds mmap b.mem b.size (n + 1) s = parseRounds mmap b.mem b.size n s' := by
  rw [parseRounds, if_pos h, hround]

theorem parseRounds_stop (h : s.itr < b.size) (hround : parseRound mmap b.mem s = none) (n : ℕ) :
    parseRounds mmap b.mem b.size (n + 1) s = .aborted := by
  rw [parseRounds, if_pos h, hround]

namespace ParseBuffer

theorem safeFrom_of_le (h : b.size ≤ s.itr) : b.SafeFrom mmap s where
  ends := by
    refine ⟨1, fun s' hrun => ?_⟩
    rw [parseRounds, if_neg (by omega)] at hrun
    cases hrun
  reads n s' hrun hlt := by
    cases n with
    | zero =>
      cases hrun
      omega
    | succ n =>
      rw [parseRounds, if_neg (by omega)] at hrun
      cases hrun

/-- Before the end of the buffer, the header must lie in it, and what follows be safe. -/
theorem safeFrom_iff (h : s.itr < b.size) : b.SafeFrom mmap s ↔
    (b.Inside s.buffer sizeofChkpthead ∧
      b.Inside (s.buffer + sizeofChkpthead) (decodeHead b.mem s.buffer).bytes) ∧
    ∀ s', parseRound mmap b.mem s = some s' → b.SafeFrom mmap s' := by
  constructor
  · intro hsafe
    refine ⟨hsafe.reads 0 s rfl h, fun s' hround => ⟨?_, ?_⟩⟩
    · obtain ⟨n, hn⟩ := hsafe.ends
      cases n with
      | zero => exact absurd rfl (hn s)
      | succ n =>
        rw [parseRounds_succ h hround] at hn
        exact ⟨n, hn⟩
    · intro n s'' hrun
      rw [← parseRounds_succ h hround] at hrun
      exact hsafe.reads (n + 1) s'' hrun
  · rintro ⟨hinside, hnext⟩
    cases hround : parseRound mmap b.mem s with
    | none =>
      refine ⟨⟨1, fun s' hrun => ?_⟩, ?_⟩
      · rw [parseRounds_stop h hround] at hrun
        cases hrun
      · intro n s' hrun _
        cases n with
        | zero =>
          cases hrun
          exact hinside
        | succ n =>
          rw [parseRounds_stop h hround] at hrun
          cases hrun
    | some s' =>
      obtain ⟨⟨n, hn⟩, hreads⟩ := hnext s' hround
      refine ⟨⟨n + 1, ?_⟩, ?_⟩
      · rw [parseRounds_succ h hround]
        exact hn
      · intro n s'' hrun hlt
        cases n with
        | zero =>
          cases hrun
          exact hinside
        | succ n =>
          rw [parseRounds_succ h hround] at hrun
          exact hreads n s'' hrun hlt

/-- `buffer` and `itr` go together, and the walk has not left the buffer. -/
structure At (b : ParseBuffer) (s : ParseState) : Prop where
  buffer : s.buffer = b.base + s.itr
  le : s.itr ≤ b.size

/-- A round over a frame that lies in the buffer. -/
theorem At.round (h : b.At s) (hinside : s.buffer + (decodeHead b.mem s.buffer).bytes +
      sizeofChkpthead ≤ b.base + b.size) (hround : parseRound mmap b.mem s = some s') :
    b.At s' ∧ s'.buffer = s.buffer + (decodeHead b.mem s.buffer).bytes + sizeofChkpthead ∧
      s'.calls = s.calls + 1 ∧ s.itr < s'.itr := by
  have hfits := b.fits
  obtain ⟨hbuffer, hle⟩ := h
  obtain ⟨nv, -, rfl⟩ := Option.map_eq_some_iff.mp hround
  have hpos : 0 < sizeofChkpthead := by decide
  rw [hbuffer] at hinside ⊢
  generalize (decodeHead b.mem (b.base + s.itr)).bytes = bytes at hinside ⊢
  have hmodBuffer : (b.base + s.itr + bytes + sizeofChkpthead) % 2 ^ 64 =
      b.base + s.itr + bytes + sizeofChkpthead := Nat.mod_eq_of_lt (by omega)
  have hmodItr : (s.itr + bytes + sizeofChkpthead) % 2 ^ 64 = s.itr + bytes + sizeofChkpthead :=
    Nat.mod_eq_of_lt (by omega)
  simp only [hmodBuffer, hmodItr]
  exact ⟨⟨by simp only; omega, by simp only; omega⟩, trivial, trivial, by omega⟩

/-- A header and its bytes lie in the buffer when the frame ends there. -/
theorem inside_iff {a n : ℕ} (h : b.base ≤ a) :
    b.Inside a sizeofChkpthead ∧ b.Inside (a + sizeofChkpthead) n ↔
      a + n + sizeofChkpthead ≤ b.base + b.size := by
  unfold Inside
  omega

/-- The program stops in this round. -/
theorem parseRound_eq_none_iff : parseRound mmap b.mem s = none ↔
    (decodeHead b.mem s.buffer).storeid = 0 ∨ (decodeHead b.mem s.buffer).pid = 0 ∨
      mmap s.calls (decodeHead b.mem s.buffer) = false := by
  rw [parseRound, Option.map_eq_none_iff, addMappedData_eq_none_iff]

/-- The frame at a position. -/
def frameAt (b : ParseBuffer) (a : ℕ) : ChkptHead × List UInt8 :=
  (decodeHead b.mem a, slice b.mem (a + sizeofChkpthead) (decodeHead b.mem a).bytes)

theorem framed_frameAt {a stop : ℕ} {fs : List (ChkptHead × List UInt8)} :
    Framed b.mem a (b.frameAt a :: fs) stop ↔
      Framed b.mem (a + (decodeHead b.mem a).bytes + sizeofChkpthead) fs stop := by
  rw [Framed, frameAt]
  simp only [true_and]

/-- A frame before the end of the buffer: it must end in the buffer, and whole frames must follow
unless the program stops. -/
theorem framedFrom_iff {calls a : ℕ} (h : a < b.base + b.size) : b.FramedFrom mmap calls a ↔
    a + (decodeHead b.mem a).bytes + sizeofChkpthead ≤ b.base + b.size ∧
      (¬ ((decodeHead b.mem a).storeid = 0 ∨ (decodeHead b.mem a).pid = 0 ∨
          mmap calls (decodeHead b.mem a) = false) →
        b.FramedFrom mmap (calls + 1) (a + (decodeHead b.mem a).bytes + sizeofChkpthead)) := by
  constructor
  · rintro ⟨fs, stop, hframed, hstop⟩
    have hle : stop ≤ b.base + b.size := by
      rcases hstop with hstop | ⟨hstop, -⟩
      · exact hstop.le
      · exact hstop
    cases fs with
    | nil =>
      obtain rfl : a = stop := hframed
      rcases hstop with hstop | ⟨-, hfalse⟩
      · exact absurd hstop h.ne
      · exact hfalse.elim
    | cons f fs =>
      obtain ⟨hhead, -, hrest⟩ := hframed
      have hmore := hrest.le
      rw [hhead]
      refine ⟨by omega, fun hgoes => ⟨fs, stop, hrest, hstop.imp_right (And.imp_right ?_)⟩⟩
      rintro (hid | hpid | hmap | hs)
      · exact absurd (.inl hid) hgoes
      · exact absurd (.inr (.inl hpid)) hgoes
      · exact absurd (.inr (.inr hmap)) hgoes
      · exact hs
  · rintro ⟨hframe, hnext⟩
    by_cases hstops : (decodeHead b.mem a).storeid = 0 ∨ (decodeHead b.mem a).pid = 0 ∨
        mmap calls (decodeHead b.mem a) = false
    · refine ⟨[b.frameAt a], a + (decodeHead b.mem a).bytes + sizeofChkpthead,
        framed_frameAt.mpr rfl, .inr ⟨hframe, ?_⟩⟩
      rcases hstops with hid | hpid | hmap
      · exact .inl hid
      · exact .inr (.inl hpid)
      · exact .inr (.inr (.inl hmap))
    · obtain ⟨fs, stop, hframed, hstop⟩ := hnext hstops
      refine ⟨b.frameAt a :: fs, stop, framed_frameAt.mpr hframed, ?_⟩
      exact hstop.imp_right (And.imp_right fun hs => .inr (.inr (.inr hs)))

/-- The walk is safe when it goes over whole frames. -/
theorem At.safeFrom_iff_framedFrom (h : b.At s) :
    b.SafeFrom mmap s ↔ b.FramedFrom mmap s.calls s.buffer := by
  -- every round comes closer to the end of the buffer
  induction hleft : b.size - s.itr using Nat.strong_induction_on generalizing s with
  | _ left ih =>
    have hbuffer := h.buffer
    by_cases hend : b.size ≤ s.itr
    · have hle := h.le
      exact iff_of_true (safeFrom_of_le hend)
        ⟨[], s.buffer, rfl, .inl (by rw [hbuffer]; omega)⟩
    · rw [safeFrom_iff (by omega), framedFrom_iff (by omega), inside_iff (by omega)]
      refine and_congr_right fun hframe => ?_
      rw [← parseRound_eq_none_iff]
      cases hround : parseRound mmap b.mem s with
      | none => simp
      | some s' =>
        obtain ⟨hat, hnext, hcalls, hmore⟩ := h.round hframe hround
        have hih := ih _ (by omega) hat rfl
        rw [hnext, hcalls] at hih
        simp [hih]

end ParseBuffer

end Walk

/-- `parse_data` is safe exactly on sequences of whole frames that end with the buffer, or of
which one stops the program. -/
theorem parsesSafely_iff (b : ParseBuffer) (mmap : ℕ → ChkptHead → Bool) (nv : Nvram) :
    b.ParsesSafely mmap nv ↔ b.FramedFrom mmap 0 b.base :=
  ParseBuffer.At.safeFrom_iff_framedFrom ⟨rfl, Nat.zero_le _⟩

/-! ## Buffers of whole frames -/

theorem decodeHead_shift (mem : ℕ → UInt8) (base a : ℕ) :
    decodeHead (fun i => mem (base + i)) a = decodeHead mem (base + a) := by
  have hslice : ∀ o n, slice (fun i => mem (base + i)) (a + o) n = slice mem (base + a + o) n := by
    intro o n
    apply slice_congr
    intro i _
    show mem (base + (a + o + i)) = mem (base + a + o + i)
    congr 1
    omega
  have hzero := hslice 0 4
  rw [Nat.add_zero, Nat.add_zero] at hzero
  rw [decodeHead, decodeHead, hzero, hslice, hslice, hslice]

theorem Framed.shift {mem : ℕ → UInt8} {base a stop : ℕ}
    (h : Framed mem (base + a) fs (base + stop)) :
    Framed (fun i => mem (base + i)) a fs stop := by
  induction fs generalizing a with
  | nil =>
    have heq : base + a = base + stop := h
    show a = stop
    omega
  | cons f fs ih =>
    obtain ⟨hhead, hdata, hrest⟩ := h
    refine ⟨(decodeHead_shift mem base a).trans hhead, ?_, ih ?_⟩
    · rw [← hdata]
      apply slice_congr
      intro i _
      show mem (base + (a + sizeofChkpthead + i)) = mem (base + a + sizeofChkpthead + i)
      congr 1
      omega
    · rw [← Nat.add_assoc, ← Nat.add_assoc]
      exact hrest

/-- The outcome when the receiver has handled some frames. -/
def ParseOutcome.ofOption : Option Nvram → ParseOutcome
  | none => .aborted
  | some nv => .returned nv

/-- On whole frames the loop handles one frame in each round. -/
theorem Framed.parseRounds_eq {b : ParseBuffer} (hmap : ∀ n h, mmap n h = true) {s : ParseState}
    (h : Framed b.mem s.buffer fs (b.base + b.size)) (hat : b.At s) :
    parseRounds mmap b.mem b.size (fs.length + 1) s =
      .ofOption (fs.foldlM (fun nv f => addNvramData nv f.1) s.nv) := by
  induction fs generalizing s with
  | nil =>
    have hend : s.buffer = b.base + b.size := h
    have hbuffer := hat.buffer
    rw [parseRounds, if_neg (by omega)]
    rfl
  | cons f fs ih =>
    obtain ⟨hhead, -, hrest⟩ := h
    have hmore := hrest.le
    have hbuffer := hat.buffer
    have hpos : 0 < sizeofChkpthead := by decide
    have hround : parseRound mmap b.mem s = (addNvramData s.nv f.1).map fun nv =>
        ⟨(s.buffer + f.1.bytes + sizeofChkpthead) % 2 ^ 64,
          (s.itr + f.1.bytes + sizeofChkpthead) % 2 ^ 64, nv, s.calls + 1⟩ := by
      rw [parseRound, hhead, addMappedData, if_pos (hmap _ _)]
    rw [List.foldlM_cons, List.length_cons]
    cases hadd : addNvramData s.nv f.1 with
    | none =>
      rw [hadd] at hround
      exact parseRounds_stop (by omega) hround _
    | some nv =>
      rw [hadd] at hround
      obtain ⟨hat', hnext, -, -⟩ := hat.round (by rw [hhead]; omega) hround
      rw [parseRounds_succ (by omega) hround]
      refine ih ?_ hat'
      rw [hnext, hhead]
      exact hrest

/-- On a buffer of whole frames `parse_data` does what it does without overflow. -/
theorem ParseBuffer.parseDataRounds_eq {b : ParseBuffer} (hmap : ∀ n h, mmap n h = true)
    (h : Framed b.mem b.base fs (b.base + b.size)) (nv : Nvram) :
    b.parseDataRounds mmap nv (fs.length + 1) =
      .ofOption (parseData (fun i => b.mem (b.base + i)) b.size nv) := by
  have hshift : Framed (fun i => b.mem (b.base + i)) 0 fs b.size := Framed.shift h
  rw [hshift.parseData_eq nv]
  exact Framed.parseRounds_eq hmap h ⟨rfl, Nat.zero_le _⟩

/-! ## Buffers that are not -/

/-- A buffer at 4096 with one header, which announces `bytes` bytes, and zeros after it. -/
def headerBuffer (bytes size : ℕ) (h : 4096 + size < 2 ^ 64) : ParseBuffer where
  mem := blit (fun _ => 0) 4096 (ChkptHead.encode 0 ⟨1, 0, 1, bytes⟩)
  base := 4096
  size := size
  base_ne := by decide
  fits := h

/-- The kernel maps what is not empty and fits into half of the address space. -/
def smallMaps (_ : ℕ) (h : ChkptHead) : Bool := 0 < h.bytes && h.bytes < 2 ^ 47

/-- A buffer of 30 bytes with one byte after the first header: the second header is read beyond
the end.  A header that announces more bytes than there are: they are beyond the end. -/
theorem not_parsesSafely_headerBuffer :
    ¬ (headerBuffer 1 30 (by decide)).ParsesSafely smallMaps (fun _ => none) ∧
    ¬ (headerBuffer 1000 24 (by decide)).ParsesSafely smallMaps (fun _ => none) := by
  constructor
  · intro h
    have hhead : decodeHead (headerBuffer 1 30 (by decide)).mem 4096 = ⟨1, 0, 1, 1⟩ :=
      decodeHead_encode (by decide) (by decide) (by decide) (by decide) _ _ _
    obtain ⟨-, hnext⟩ := (ParseBuffer.safeFrom_iff (by decide)).mp h
    have hround : ∃ nv, parseRound smallMaps (headerBuffer 1 30 (by decide)).mem
        ⟨4096, 0, fun _ => none, 0⟩ = some ⟨4121, 25, nv, 1⟩ := by
      rw [parseRound, hhead]
      exact ⟨_, rfl⟩
    obtain ⟨nv, hround⟩ := hround
    have hlt : 25 < (headerBuffer 1 30 (by decide)).size := by decide
    obtain ⟨⟨⟨-, hinside⟩, -⟩, -⟩ := (ParseBuffer.safeFrom_iff hlt).mp (hnext _ hround)
    have hend : 4121 + sizeofChkpthead ≤ 4096 + 30 := hinside
    exact absurd hend (by decide)
  · intro h
    have hhead : decodeHead (headerBuffer 1000 24 (by decide)).mem 4096 = ⟨1, 0, 1, 1000⟩ :=
      decodeHead_encode (by decide) (by decide) (by decide) (by decide) _ _ _
    obtain ⟨⟨-, hinside⟩, -⟩ := (ParseBuffer.safeFrom_iff (by decide)).mp h
    have hend : 4096 + sizeofChkpthead +
        (decodeHead (headerBuffer 1000 24 (by decide)).mem 4096).bytes ≤ 4096 + 24 := hinside.2
    rw [hhead] at hend
    exact absurd hend (by decide)
