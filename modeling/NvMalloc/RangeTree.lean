/-
# From addresses to regions

`insert_mmapobj_node` enters a mapped region into `map_tree` under its start address, with
the plain order of addresses (`IntComp`); `locate_mmapobj_node` searches the tree with
another comparison (`CompRange`), for which an address equals every node whose range
contains it.

For disjoint ranges the second comparison is monotone along the order of the tree, whatever
its shape.  So the search finds the range that contains the address, and nothing where there
is none, but for two cases.  Before the first insertion `map_tree` is a null pointer, which
`locate_mmapobj_node` dereferences; and the end of a range that reaches up to `2 ^ 64` is
stored as 0, so only the start of that range is found.
-/
import NvMalloc.NvMap

/-! ## The comparison -/

/-- Along ranges that do not overlap `CompRange` goes from `.gt` over `.eq` to `.lt`. -/
theorem monotone_compRange {xs : List (ℕ × MmapobjNode)}
    (h : xs.Pairwise fun x y => x.1 < y.1 ∧ x.2.endAddr ≤ y.1) (addr : ℕ) :
    RbtreeNode.Monotone (compRange addr) xs := by
  refine List.Pairwise.imp ?_ h
  rintro ⟨a, nd⟩ ⟨a', nd'⟩ ⟨hlt, hle⟩
  simp only [compRange] at hlt hle ⊢
  constructor
  · intro hcmp
    -- an address that is not behind the first range lies before the second one
    have hin : addr < a' := by
      by_contra hout
      apply hcmp
      rw [if_neg (by omega), if_pos (by omega)]
    rw [if_neg (by omega), if_neg (by omega), if_pos (by omega)]
  · intro hcmp
    have hout : a' ≤ addr := by
      by_contra hlt'
      apply hcmp
      rw [if_neg (by omega), if_neg (by omega), if_pos (by omega)]
    rw [if_neg (by omega), if_pos (by omega)]

/-- An address equals a node when it is its start, or lies between its start and its end. -/
theorem compRange_eq_iff {addr : ℕ} {nd : MmapobjNode} :
    compRange addr nd.startAddr nd = .eq ↔
      addr = nd.startAddr ∨ nd.startAddr < addr ∧ addr < nd.endAddr := by
  unfold compRange
  split
  · simp only [true_iff]
    omega
  · split
    · simp only [reduceCtorEq, false_iff]
      omega
    · split
      · simp only [reduceCtorEq, false_iff]
        omega
      · simp only [true_iff]
        omega

/-- An address equals a node when its range, which is not empty, contains it. -/
theorem compRange_eq_iff_of_lt {addr : ℕ} {nd : MmapobjNode} (h : nd.startAddr < nd.endAddr) :
    compRange addr nd.startAddr nd = .eq ↔ nd.startAddr ≤ addr ∧ addr < nd.endAddr := by
  rw [compRange_eq_iff]
  omega

/-! ## The tree of regions -/

/-- `insert_mmapobj_node`, where `map_tree` is null until the first call makes it; the end of
the range is an `unsigned long`. -/
def insertMmapobjNode (mapTree : Option (Rbtree MmapobjNode)) (val size id procId : ℕ) :
    Option (Rbtree MmapobjNode) :=
  some ((mapTree.getD .empty).insert val ⟨val, (val + size) % 2 ^ 64, id, procId⟩)

/-- `locate_mmapobj_node` without its cache: the id, 0 when there is none, and the contents
of `*map_strt_addr`, which were `strtAddr` before.  It is undefined when `map_tree` is null. -/
def locateMmapobjId (mapTree : Option (Rbtree MmapobjNode)) (addr strtAddr : ℕ) :
    Option (ℕ × ℕ) := do
  let t ← mapTree
  match t.findBy (compRange addr) with
  | some nd => return (nd.mapId, nd.startAddr)
  | none => return (0, strtAddr)

/-- The arguments of a call of `insert_mmapobj_node`: a range that is not empty and does not
wrap past `2 ^ 64`, and an id other than 0. -/
structure RangeCall where
  start : ℕ
  size : ℕ
  id : ℕ
  procId : ℕ
  size_pos : 0 < size
  no_wrap : start + size ≤ 2 ^ 64
  id_ne : id ≠ 0

namespace RangeCall

/-- The address lies in the range. -/
def Contains (r : RangeCall) (a : ℕ) : Prop := r.start ≤ a ∧ a < r.start + r.size

instance (r : RangeCall) (a : ℕ) : Decidable (r.Contains a) := inferInstanceAs (Decidable (_ ∧ _))

/-- No address lies in both ranges. -/
def Disjoint (r r' : RangeCall) : Prop := ∀ a, ¬ (r.Contains a ∧ r'.Contains a)

instance : Std.Symm Disjoint := ⟨fun _ _ h a ha => h a ⟨ha.2, ha.1⟩⟩

theorem disjoint_of_le {r r' : RangeCall} (h : r.start + r.size ≤ r'.start) : r.Disjoint r' := by
  rintro a ⟨⟨-, h₁⟩, ⟨h₂, -⟩⟩
  omega

/-- The node of the range. -/
def node (r : RangeCall) : MmapobjNode := ⟨r.start, (r.start + r.size) % 2 ^ 64, r.id, r.procId⟩

/-- The address is one that a search can find in the range: its start, or any of a range that
ends below `2 ^ 64`. -/
def Found (r : RangeCall) (a : ℕ) : Prop := a = r.start ∨ r.start + r.size < 2 ^ 64

theorem contains_start (r : RangeCall) : r.Contains r.start := by
  have := r.size_pos
  exact ⟨le_rfl, by omega⟩

/-- Of two disjoint ranges the one with the smaller start ends before the other. -/
theorem Disjoint.end_le {r r' : RangeCall} (h : r.Disjoint r') (hlt : r.start < r'.start) :
    r.start + r.size ≤ r'.start := by
  by_contra hover
  have hno := h r'.start
  exact hno ⟨⟨hlt.le, by omega⟩, r'.contains_start⟩

end RangeCall

/-- `map_tree` after some calls of `insert_mmapobj_node`. -/
def mapTreeOf (rs : List RangeCall) : Option (Rbtree MmapobjNode) :=
  rs.foldl (fun t r => insertMmapobjNode t r.start r.size r.id r.procId) none

/-- The nodes of some calls of `insert_mmapobj_node`. -/
def rangeTree (rs : List RangeCall) : Rbtree MmapobjNode :=
  rs.foldl (fun t r => t.insert r.start r.node) .empty

theorem foldl_insertMmapobjNode (rs : List RangeCall) (t : Rbtree MmapobjNode) :
    rs.foldl (fun t r => insertMmapobjNode t r.start r.size r.id r.procId) (some t) =
      some (rs.foldl (fun t r => t.insert r.start r.node) t) := by
  induction rs generalizing t with
  | nil => rfl
  | cons r rs ih => exact ih _

variable {rs : List RangeCall}

/-- The first call makes the tree. -/
theorem mapTreeOf_eq (h : rs ≠ []) : mapTreeOf rs = some (rangeTree rs) := by
  cases rs with
  | nil => exact absurd rfl h
  | cons r rs => exact foldl_insertMmapobjNode rs _

/-- The tree holds the nodes of the calls. -/
theorem mem_rangeTree (hdis : rs.Pairwise RangeCall.Disjoint) {e : ℕ × MmapobjNode} :
    e ∈ (rangeTree rs).root.toList ↔ ∃ r ∈ rs, e = (r.start, r.node) := by
  apply Rbtree.mem_foldl_insert
  intro r hr r' hr' hstart
  -- two ranges with one start have it in common
  have hself := r'.contains_start
  rw [← hstart] at hself
  by_contra hne
  exact hdis.forall hr hr' (fun heq => hne (congrArg RangeCall.node heq)) _
    ⟨r.contains_start, hself⟩

theorem rangeTree_monotone (hdis : rs.Pairwise RangeCall.Disjoint) (a : ℕ) :
    RbtreeNode.Monotone (compRange a) (rangeTree rs).root.toList := by
  refine monotone_compRange (List.Pairwise.imp_of_mem ?_ (rangeTree rs).ordered) a
  intro x y hx hy hlt
  obtain ⟨r, hr, rfl⟩ := (mem_rangeTree hdis).mp hx
  obtain ⟨r', hr', rfl⟩ := (mem_rangeTree hdis).mp hy
  have hne : r ≠ r' := by
    rintro rfl
    exact absurd hlt (lt_irrefl _)
  -- an end that wraps to 0 is not above the next start either
  exact ⟨hlt, (Nat.mod_le _ _).trans ((hdis.forall hr hr' hne).end_le hlt)⟩

theorem RangeCall.compRange_node (r : RangeCall) (a : ℕ) :
    compRange a r.start r.node = .eq ↔ r.Contains a ∧ r.Found a := by
  have hpos := r.size_pos
  have hwrap := r.no_wrap
  refine (@compRange_eq_iff a r.node).trans ?_
  show a = r.start ∨ r.start < a ∧ a < (r.start + r.size) % 2 ^ 64 ↔ _
  unfold RangeCall.Contains RangeCall.Found
  rcases Nat.lt_or_eq_of_le hwrap with hlt | hend
  · rw [Nat.mod_eq_of_lt hlt]
    omega
  · rw [hend, Nat.mod_self]
    omega

/-- `rbtree_lookup` with `CompRange` finds the node of the range that contains the address. -/
theorem findBy_rangeTree (hdis : rs.Pairwise RangeCall.Disjoint) {a : ℕ} {nd : MmapobjNode} :
    (rangeTree rs).findBy (compRange a) = some nd ↔
      ∃ r ∈ rs, nd = r.node ∧ r.Contains a ∧ r.Found a := by
  rw [Rbtree.findBy, RbtreeNode.lookupBy_eq_some_iff (rangeTree_monotone hdis a)]
  constructor
  · rintro ⟨k, hk, heq⟩
    obtain ⟨r, hr, hrk⟩ := (mem_rangeTree hdis).mp hk
    cases hrk
    exact ⟨r, hr, rfl, (r.compRange_node a).mp heq⟩
  · rintro ⟨r, hr, rfl, hin⟩
    exact ⟨r.start, (mem_rangeTree hdis).mpr ⟨r, hr, rfl⟩, (r.compRange_node a).mpr hin⟩

/-- `locate_mmapobj_node` returns the id and the start of the range that contains the address,
and 0 when no range does. -/
def LocatesExactly (rs : List RangeCall) (a : ℕ) : Prop := ∀ strtAddr,
  (∀ r ∈ rs, r.Contains a → locateMmapobjId (mapTreeOf rs) a strtAddr = some (r.id, r.start)) ∧
  ((∀ r ∈ rs, ¬ r.Contains a) → locateMmapobjId (mapTreeOf rs) a strtAddr = some (0, strtAddr))

theorem locateMmapobjId_of_findBy {rs : List RangeCall} (hne : rs ≠ []) {a : ℕ}
    {found : Option MmapobjNode} (hfind : (rangeTree rs).findBy (compRange a) = found)
    (strtAddr : ℕ) : locateMmapobjId (mapTreeOf rs) a strtAddr =
      some ((found.map fun nd => (nd.mapId, nd.startAddr)).getD (0, strtAddr)) := by
  rw [mapTreeOf_eq hne, locateMmapobjId, Option.bind_eq_bind, Option.bind_some, hfind]
  cases found <;> rfl

/-- When there was a call, and the ranges with the address can be found, the search is exact. -/
theorem locatesExactly_of_found (hdis : rs.Pairwise RangeCall.Disjoint) (hne : rs ≠ []) {a : ℕ}
    (hfound : ∀ r ∈ rs, r.Contains a → r.Found a) :
    LocatesExactly rs a := by
  intro strtAddr
  constructor
  · intro r hr hin
    exact locateMmapobjId_of_findBy hne
      ((findBy_rangeTree hdis).mpr ⟨r, hr, rfl, hin, hfound r hr hin⟩) strtAddr
  · intro hout
    refine @locateMmapobjId_of_findBy rs hne a none ?_ strtAddr
    rw [Option.eq_none_iff_forall_ne_some]
    intro nd hnd
    obtain ⟨r, hr, -, hin, -⟩ := (findBy_rangeTree hdis).mp hnd
    exact hout r hr hin

/-- **Address-to-region lookup.**  After any calls of `insert_mmapobj_node` with disjoint
ranges, in any order, `locate_mmapobj_node` is exact for an address precisely when there was a
call, and the range with the address, if there is one, ends below `2 ^ 64` or starts there. -/
theorem locatesExactly_iff (hdis : rs.Pairwise RangeCall.Disjoint) (a : ℕ) :
    LocatesExactly rs a ↔ rs ≠ [] ∧ ∀ r ∈ rs, r.Contains a → r.Found a := by
  refine ⟨fun h => ?_, fun ⟨hne, hfound⟩ => locatesExactly_of_found hdis hne hfound⟩
  have hne : rs ≠ [] := by
    rintro rfl
    cases (h 0).2 fun _ hr => nomatch hr
  refine ⟨hne, fun r hr hin => ?_⟩
  by_contra hlost
  -- no other range has the address, so nothing is found
  have hmiss : (rangeTree rs).findBy (compRange a) = none := by
    rw [Option.eq_none_iff_forall_ne_some]
    intro nd hnd
    obtain ⟨r', hr', -, hin', hfound⟩ := (findBy_rangeTree hdis).mp hnd
    by_cases heq : r = r'
    · exact hlost (heq ▸ hfound)
    · exact hdis.forall hr hr' heq a ⟨hin, hin'⟩
  have hid := (h 0).1 r hr hin
  rw [locateMmapobjId_of_findBy hne hmiss] at hid
  exact r.id_ne (congrArg Prod.fst (Option.some.inj hid)).symm

/-- Two adjacent pages and a byte further up, mapped out of order. -/
def threeRanges : List RangeCall :=
  [⟨8192, 4096, 2, 1, by decide, by decide, by decide⟩,
    ⟨20480, 1, 3, 1, by decide, by decide, by decide⟩,
    ⟨4096, 4096, 1, 1, by decide, by decide, Nat.one_ne_zero⟩]

theorem locatesExactly_threeRanges : LocatesExactly threeRanges 8191 ∧
    LocatesExactly threeRanges 8192 ∧ LocatesExactly threeRanges 20480 ∧
    LocatesExactly threeRanges 20481 := by
  have hdis : threeRanges.Pairwise RangeCall.Disjoint := by
    refine .cons ?_ (.cons ?_ (List.pairwise_singleton _ _))
    · intro r hr
      rcases List.mem_pair.mp hr with rfl | rfl
      · exact RangeCall.disjoint_of_le (by decide)
      · exact Std.Symm.symm _ _ (RangeCall.disjoint_of_le (by decide))
    · intro r hr
      rw [List.mem_singleton.mp hr]
      exact Std.Symm.symm _ _ (RangeCall.disjoint_of_le (by decide))
  have hlow : ∀ a, ∀ r ∈ threeRanges, r.Contains a → r.Found a := by
    intro a r hr _
    simp only [threeRanges, List.mem_cons, List.not_mem_nil, or_false] at hr
    rcases hr with rfl | rfl | rfl <;> exact Or.inr (by decide)
  have hne : threeRanges ≠ [] := List.cons_ne_nil _ _
  have hexact : ∀ a, LocatesExactly threeRanges a := fun a =>
    (locatesExactly_iff hdis a).mpr ⟨hne, hlow a⟩
  exact ⟨hexact _, hexact _, hexact _, hexact _⟩

/-- The last page of the address space. -/
def lastPage : RangeCall :=
  ⟨2 ^ 64 - 4096, 4096, 1, 1, by decide, by decide, Nat.one_ne_zero⟩

/-- Before the first call the search is undefined, and the addresses of the last page above its
start are not found. -/
theorem not_locatesExactly_lastPage :
    locateMmapobjId (mapTreeOf []) 4096 0 = none ∧ ¬ LocatesExactly [] 4096 ∧
      lastPage.Contains (2 ^ 64 - 1) ∧
      locateMmapobjId (mapTreeOf [lastPage]) (2 ^ 64 - 1) 0 = some (0, 0) ∧
      ¬ LocatesExactly [lastPage] (2 ^ 64 - 1) := by
  have hlost : locateMmapobjId (mapTreeOf [lastPage]) (2 ^ 64 - 1) 0 = some (0, 0) := by
    decide +kernel
  have hin : lastPage.Contains (2 ^ 64 - 1) := by decide
  refine ⟨rfl, ?_, hin, hlost, ?_⟩
  · intro h
    cases (h 0).2 fun _ hr => nomatch hr
  · intro h
    have hid := (h 0).1 lastPage List.mem_cons_self hin
    rw [hlost] at hid
    cases hid
