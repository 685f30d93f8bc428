/-
# Page protection

The checkpointer protects the buffers of chunks with `mprotect`, which works on whole pages, so
`set_protection`, `set_chunk_protection_ulong` and `set_chunk_protection` round the range of a
buffer to pages.  All of them move the start to the next page boundary, also when it is one
already.  The first two subtract that distance from the length, as `size_t`; the third one does
not subtract it.

A range of addresses is counted from its start around the address space, so nothing is assumed
about where a buffer lies.
-/
import NvMalloc.AsyncCkpt

/-! ## The code -/

/-- The range in a call of `mprotect`. -/
structure ProtRange where
  addr : UInt64
  len : UInt64
  deriving DecidableEq, Repr

/-- The distance to the next page boundary. -/
def pageOff (addr : UInt64) : UInt64 := 4096 - addr % 4096

/-- Move the start to the next page boundary, shorten the length by as much and round it down. -/
def roundedRange (addr len : UInt64) : ProtRange :=
  let protectLen := len - pageOff addr
  ⟨addr + pageOff addr, protectLen - protectLen % 4096⟩

/-- `set_protection`: the range it passes to `mprotect`. -/
def setProtection (addr len : UInt64) : ProtRange := roundedRange addr len

/-- `set_chunk_protection_ulong`. -/
def setChunkProtectionUlong (addr len : UInt64) : ProtRange := roundedRange addr len

/-- `set_chunk_protection`, which rounds the whole length down. -/
def setChunkProtection (addr len : UInt64) : ProtRange := ⟨addr + pageOff addr, len - len % 4096⟩

/-! ## Whole pages -/

/-- The address is one of the `len` addresses from `start` on. -/
def Spans (start len a : UInt64) : Prop := a - start < len

/-- The addresses lie in one page. -/
def SamePage (a b : UInt64) : Prop := a / 4096 = b / 4096

/-- The page of an address lies in a buffer. -/
def PageInside (addr len a : UInt64) : Prop := ∀ b, SamePage a b → Spans addr len b

/-- A range has exactly the whole pages that lie in a buffer. -/
def ProtRange.Exact (r : ProtRange) (addr len : UInt64) : Prop :=
  ∀ a, Spans r.addr r.len a ↔ PageInside addr len a

/-- The distance of an address from the start of a range. -/
theorem spans_iff (start len a : UInt64) :
    Spans start len a ↔ (2 ^ 64 - start.toNat + a.toNat) % 2 ^ 64 < len.toNat := by
  rw [Spans, UInt64.lt_iff_toNat_lt, UInt64.toNat_sub]

theorem samePage_iff (a b : UInt64) : SamePage a b ↔ a.toNat / 4096 = b.toNat / 4096 := by
  rw [SamePage, ← UInt64.toNat_inj, UInt64.toNat_div, UInt64.toNat_div]
  rfl

/-- A page lies in a buffer when its last address, counted from the first, does. -/
theorem pageInside_iff (addr len a : UInt64) : PageInside addr len a ↔
    (2 ^ 64 - addr.toNat + (a.toNat - a.toNat % 4096)) % 2 ^ 64 + 4095 < len.toNat := by
  have ha := a.toNat_lt
  have haddr := addr.toNat_lt
  have hlen := len.toNat_lt
  constructor
  · intro h
    have hmem : ∀ i < 4096, (2 ^ 64 - addr.toNat + (a.toNat - a.toNat % 4096 + i)) % 2 ^ 64 <
        len.toNat := by
      intro i hi
      have hlt : a.toNat - a.toNat % 4096 + i < 2 ^ 64 := by omega
      have hb := h (UInt64.ofNat (a.toNat - a.toNat % 4096 + i)) (by
        rw [samePage_iff, UInt64.toNat_ofNat_of_lt' hlt]
        omega)
      rwa [spans_iff, UInt64.toNat_ofNat_of_lt' hlt] at hb
    -- the buffer is shorter than the address space, so the page does not contain its start
    -- anywhere but at the beginning
    by_cases hwrap : (2 ^ 64 - addr.toNat + (a.toNat - a.toNat % 4096)) % 2 ^ 64 + 4095 < 2 ^ 64
    · have hlast := hmem 4095 (by omega)
      omega
    · have hbefore := hmem (2 ^ 64 - 1 -
        (2 ^ 64 - addr.toNat + (a.toNat - a.toNat % 4096)) % 2 ^ 64) (by omega)
      omega
  · intro h b hb
    have hbound := b.toNat_lt
    rw [samePage_iff] at hb
    rw [spans_iff]
    omega

/-! ## When the ranges are exact -/

theorem toNat_pageOff (addr : UInt64) : (pageOff addr).toNat = 4096 - addr.toNat % 4096 := by
  have hmod : addr.toNat % 4096 < 4096 := Nat.mod_lt _ (by decide)
  rw [pageOff, UInt64.toNat_sub, UInt64.toNat_mod]
  show (2 ^ 64 - addr.toNat % 4096 + 4096) % 2 ^ 64 = 4096 - addr.toNat % 4096
  omega

theorem toNat_sub_mod (n : UInt64) : (n - n % 4096).toNat = n.toNat - n.toNat % 4096 := by
  have hn := n.toNat_lt
  rw [UInt64.toNat_sub, UInt64.toNat_mod]
  show (2 ^ 64 - n.toNat % 4096 + n.toNat) % 2 ^ 64 = n.toNat - n.toNat % 4096
  omega

section Ranges

variable (addr len : UInt64)

/-- The start of all ranges. -/
theorem toNat_start : (addr + pageOff addr).toNat =
    (addr.toNat + (4096 - addr.toNat % 4096)) % 2 ^ 64 := by
  rw [UInt64.toNat_add, toNat_pageOff]

theorem toNat_len_roundedRange : (roundedRange addr len).len.toNat =
    (2 ^ 64 - (4096 - addr.toNat % 4096) + len.toNat) % 2 ^ 64 -
      (2 ^ 64 - (4096 - addr.toNat % 4096) + len.toNat) % 2 ^ 64 % 4096 := by
  show (len - pageOff addr - (len - pageOff addr) % 4096).toNat = _
  rw [toNat_sub_mod, UInt64.toNat_sub, toNat_pageOff]

theorem toNat_len_setChunkProtection :
    (setChunkProtection addr len).len.toNat = len.toNat - len.toNat % 4096 := toNat_sub_mod len

/-- The rounded range is exact when the buffer starts inside a page and reaches the next one. -/
theorem exact_roundedRange (haddr : addr.toNat % 4096 ≠ 0)
    (hlen : 4096 - addr.toNat % 4096 ≤ len.toNat) :
    (roundedRange addr len).Exact addr len := by
  intro a
  have ha := a.toNat_lt
  have hb := addr.toNat_lt
  have hl := len.toNat_lt
  rw [spans_iff, pageInside_iff, toNat_len_roundedRange]
  show (2 ^ 64 - (addr + pageOff addr).toNat + a.toNat) % 2 ^ 64 < _ ↔ _
  rw [toNat_start]
  omega

/-- Otherwise it skips the first page of the buffer, or the length wraps around. -/
theorem not_exact_roundedRange
    (h : addr.toNat % 4096 = 0 ∨ len.toNat < 4096 - addr.toNat % 4096) :
    ¬ (roundedRange addr len).Exact addr len := by
  intro hexact
  have hb := addr.toNat_lt
  have hl := len.toNat_lt
  by_cases hlen : len.toNat < 4096 - addr.toNat % 4096
  · -- the range has its start, but the page there begins beyond the end of the buffer
    have hstart := hexact (addr + pageOff addr)
    rw [spans_iff, pageInside_iff, toNat_len_roundedRange] at hstart
    change (2 ^ 64 - (addr + pageOff addr).toNat + (addr + pageOff addr).toNat) % 2 ^ 64 < _ ↔ _
      at hstart
    rw [toNat_start] at hstart
    omega
  · -- the buffer starts with a whole page, which the range leaves out
    have hfirst := hexact addr
    rw [spans_iff, pageInside_iff, toNat_len_roundedRange] at hfirst
    change (2 ^ 64 - (addr + pageOff addr).toNat + addr.toNat) % 2 ^ 64 < _ ↔ _ at hfirst
    rw [toNat_start] at hfirst
    omega

theorem exact_roundedRange_iff : (roundedRange addr len).Exact addr len ↔
    addr.toNat % 4096 ≠ 0 ∧ 4096 ≤ addr.toNat % 4096 + len.toNat := by
  constructor
  · intro hexact
    by_contra hnot
    exact not_exact_roundedRange addr len (by omega) hexact
  · rintro ⟨haddr, hlen⟩
    exact exact_roundedRange addr len haddr (by omega)

/-- The range of `set_chunk_protection` is exact when no page is to be protected, or when the
end of the buffer lies as far into its page that nothing is lost by not shortening the length. -/
theorem exact_setChunkProtection_iff : (setChunkProtection addr len).Exact addr len ↔
    len.toNat < 4096 ∨ 4096 ≤ addr.toNat % 4096 + len.toNat % 4096 := by
  have hb := addr.toNat_lt
  have hl := len.toNat_lt
  constructor
  · intro hexact
    by_contra hnot
    -- the first page is whole but left out, or the last page reaches beyond the buffer
    by_cases haddr : addr.toNat % 4096 = 0
    · have hfirst := hexact addr
      rw [spans_iff, pageInside_iff, toNat_len_setChunkProtection] at hfirst
      change (2 ^ 64 - (addr + pageOff addr).toNat + addr.toNat) % 2 ^ 64 < _ ↔ _ at hfirst
      rw [toNat_start] at hfirst
      omega
    · have hlast := hexact (addr + pageOff addr + ((setChunkProtection addr len).len - 4096))
      rw [spans_iff, pageInside_iff] at hlast
      change (2 ^ 64 - (addr + pageOff addr).toNat + _) % 2 ^ 64 < _ ↔ _ at hlast
      rw [UInt64.toNat_add (addr + pageOff addr), toNat_start, UInt64.toNat_sub,
        toNat_len_setChunkProtection] at hlast
      change (_ + (_ + (2 ^ 64 - 4096 + _) % 2 ^ 64) % 2 ^ 64) % 2 ^ 64 < _ ↔ _ at hlast
      change _ ↔ (_ + ((_ + (2 ^ 64 - 4096 + _) % 2 ^ 64) % 2 ^ 64 -
        (_ + (2 ^ 64 - 4096 + _) % 2 ^ 64) % 2 ^ 64 % 4096)) % 2 ^ 64 + 4095 < _ at hlast
      omega
  · intro h a
    have ha := a.toNat_lt
    rw [spans_iff, pageInside_iff, toNat_len_setChunkProtection]
    show (2 ^ 64 - (addr + pageOff addr).toNat + a.toNat) % 2 ^ 64 < _ ↔ _
    rw [toNat_start]
    rcases h with hshort | hend
    · omega
    · omega

/-- The ranges of `set_protection` and `set_chunk_protection_ulong` are exact for buffers that
start inside a page and reach the next one; that of `set_chunk_protection` for buffers of less
than a page, and for those where the parts of the first and the last page make up a page. -/
theorem exact_ranges_iff :
    ((setProtection addr len).Exact addr len ↔
      addr.toNat % 4096 ≠ 0 ∧ 4096 ≤ addr.toNat % 4096 + len.toNat) ∧
    ((setChunkProtectionUlong addr len).Exact addr len ↔
      addr.toNat % 4096 ≠ 0 ∧ 4096 ≤ addr.toNat % 4096 + len.toNat) ∧
    ((setChunkProtection addr len).Exact addr len ↔
      len.toNat < 4096 ∨ 4096 ≤ addr.toNat % 4096 + len.toNat % 4096) :=
  ⟨exact_roundedRange_iff addr len, exact_roundedRange_iff addr len,
    exact_setChunkProtection_iff addr len⟩

/-- The range of `set_protection` in the model of the checkpointer. -/
theorem toNat_setProtection :
    (setProtection addr len).addr.toNat = protStart addr.toNat % 2 ^ 64 ∧
      (setProtection addr len).len.toNat = protLen addr.toNat len.toNat := by
  refine ⟨toNat_start addr, ?_⟩
  have hmod : addr.toNat % 4096 < 4096 := Nat.mod_lt _ (by decide)
  rw [setProtection, toNat_len_roundedRange, protLen]
  have hcomm : 2 ^ 64 - (4096 - addr.toNat % 4096) + len.toNat =
      len.toNat + 2 ^ 64 - (4096 - addr.toNat % 4096) := by
    omega
  rw [hcomm]

end Ranges

/-- A buffer at a page boundary: its first page is not protected.  A buffer of 100 bytes: almost
the whole address space is.  A buffer of 4096 bytes that starts 4 bytes into a page: a page is
protected of which only 4 bytes belong to the buffer. -/
theorem not_exact_ranges :
    (setProtection 4096 8192 = ⟨8192, 4096⟩ ∧ ¬ (setProtection 4096 8192).Exact 4096 8192) ∧
    (setChunkProtectionUlong 4100 100 = ⟨8192, 18446744073709547520⟩ ∧
      ¬ (setChunkProtectionUlong 4100 100).Exact 4100 100) ∧
    setChunkProtection 4100 4096 = ⟨8192, 4096⟩ ∧
      ¬ (setChunkProtection 4100 4096).Exact 4100 4096 := by
  refine ⟨⟨by decide, ?_⟩, ⟨by decide, ?_⟩, by decide, ?_⟩
  · exact not_exact_roundedRange 4096 8192 (by decide)
  · exact not_exact_roundedRange 4100 100 (by decide)
  · rw [exact_setChunkProtection_iff]
    decide
