/-
# Red-black trees as finite maps

A tree that carries the proof of its ordering and of its colour discipline.  On
such a tree `rbtree_insert` and `rbtree_delete` never stop at an assertion, so
they are total here, and `rbtree_lookup` reads a finite map from keys to values
(`find_insert`, `find_delete`).

Another way of walking a tree occurs in the store: a lookup whose comparison also
reads the value of a node (`findBy`, for address ranges).
-/
import NvMalloc.RbtreeNode

/-- A red-black tree with its invariants. -/
structure Rbtree (α : Type*) where
  root : RbtreeNode α
  ordered : root.Ordered
  balanced : ∃ n, root.Balanced .black n

namespace RbtreeNode

variable {α : Type*}

/-- A comparison that agrees with the order of the bindings: left of a match or a
greater binding everything is smaller than the searched key, and there is at
most one match. -/
def Monotone (cmp : ℕ → α → Ordering) (xs : List (ℕ × α)) : Prop :=
  xs.Pairwise (fun a b => (cmp a.1 a.2 ≠ .gt → cmp b.1 b.2 = .lt) ∧
    (cmp b.1 b.2 ≠ .lt → cmp a.1 a.2 = .gt))

/-- Whatever the comparison, a lookup finds a binding of the tree. -/
theorem mem_of_lookupBy {cmp : ℕ → α → Ordering} {t : RbtreeNode α} {v : α}
    (h : t.lookupBy cmp = some v) : ∃ k, (k, v) ∈ t.toList := by
  induction t with
  | nil => cases h
  | node c l k₀ v₀ r ihl ihr =>
    unfold lookupBy at h
    split at h
    · cases h
      exact ⟨k₀, by simp [toList]⟩
    · obtain ⟨k, hk⟩ := ihl h
      exact ⟨k, by simp [toList, hk]⟩
    · obtain ⟨k, hk⟩ := ihr h
      exact ⟨k, by simp [toList, hk]⟩

/-- A lookup by a monotone comparison finds exactly the matching binding. -/
theorem lookupBy_eq_some_iff {cmp : ℕ → α → Ordering} {t : RbtreeNode α}
    (h : Monotone cmp t.toList) (v : α) :
    t.lookupBy cmp = some v ↔ ∃ k, (k, v) ∈ t.toList ∧ cmp k v = .eq := by
  induction t with
  | nil => simp [lookupBy, toList]
  | node c l k₀ v₀ r ihl ihr =>
    unfold Monotone at h
    rw [toList, List.pairwise_append, List.pairwise_cons] at h
    obtain ⟨hl, ⟨hkr, hr⟩, hlk⟩ := h
    have hleft : ∀ e ∈ l.toList, cmp k₀ v₀ ≠ .lt → cmp e.1 e.2 = .gt :=
      fun e he => (hlk e he (k₀, v₀) List.mem_cons_self).2
    have hright : ∀ e ∈ r.toList, cmp k₀ v₀ ≠ .gt → cmp e.1 e.2 = .lt :=
      fun e he => (hkr e he).1
    unfold lookupBy
    simp only [toList, List.mem_append, List.mem_cons, Prod.mk.injEq]
    cases hcmp : cmp k₀ v₀ with
    | eq =>
      constructor
      · rintro ⟨⟩
        exact ⟨k₀, .inr (.inl ⟨rfl, rfl⟩), hcmp⟩
      · rintro ⟨k, hk | ⟨rfl, rfl⟩ | hk, heq⟩
        · rw [hleft _ hk (by simp [hcmp])] at heq; cases heq
        · rfl
        · rw [hright _ hk (by simp [hcmp])] at heq; cases heq
    | lt =>
      simp only []
      rw [ihl hl]
      constructor
      · rintro ⟨k, hk, heq⟩
        exact ⟨k, .inl hk, heq⟩
      · rintro ⟨k, hk | ⟨rfl, rfl⟩ | hk, heq⟩
        · exact ⟨k, hk, heq⟩
        · rw [hcmp] at heq; cases heq
        · rw [hright _ hk (by simp [hcmp])] at heq; cases heq
    | gt =>
      simp only []
      rw [ihr hr]
      constructor
      · rintro ⟨k, hk, heq⟩
        exact ⟨k, .inr (.inr hk), heq⟩
      · rintro ⟨k, hk | ⟨rfl, rfl⟩ | hk, heq⟩
        · rw [hleft _ hk (by simp [hcmp])] at heq; cases heq
        · rw [hcmp] at heq; cases heq
        · exact ⟨k, hk, heq⟩

/-- In an ordered tree, `IntComp` is a monotone comparison. -/
theorem monotone_compare {t : RbtreeNode α} (h : t.Ordered) (key : ℕ) :
    Monotone (fun k (_ : α) => compare key k) t.toList := by
  refine List.Pairwise.imp ?_ h
  intro a b hab
  constructor
  · intro hle
    rw [Nat.compare_eq_lt]
    have : ¬ a.1 < key := fun hlt => hle (Nat.compare_eq_gt.mpr hlt)
    omega
  · intro hge
    rw [Nat.compare_eq_gt]
    have : ¬ key < b.1 := fun hlt => hge (Nat.compare_eq_lt.mpr hlt)
    omega

theorem lookup_eq_some_iff {t : RbtreeNode α} (h : t.Ordered) (key : ℕ) (v : α) :
    t.lookup key = some v ↔ (key, v) ∈ t.toList := by
  unfold lookup
  rw [lookupBy_eq_some_iff (monotone_compare h key)]
  constructor
  · rintro ⟨k, hk, heq⟩
    rw [Nat.compare_eq_eq.mp heq]
    exact hk
  · intro hk
    exact ⟨key, hk, Nat.compare_eq_eq.mpr rfl⟩

/-- The bindings around a key, split as the operations split them, stay ordered. -/
theorem pairwise_of_splitAt {key : ℕ} {xs L old R : List (ℕ × α)} (h : SplitAt key xs L old R)
    (hxs : xs.Pairwise (fun a b => a.1 < b.1)) {mid : List (ℕ × α)}
    (hmid : mid.Pairwise (fun a b => a.1 < b.1)) (hkey : ∀ e ∈ mid, e.1 = key) :
    (L ++ mid ++ R).Pairwise (fun a b => a.1 < b.1) := by
  rw [h.eq, List.pairwise_append, List.pairwise_append] at hxs
  obtain ⟨⟨hL, -, -⟩, hR, hLR⟩ := hxs
  rw [List.pairwise_append, List.pairwise_append]
  refine ⟨⟨hL, hmid, ?_⟩, hR, ?_⟩
  · intro a ha b hb
    rw [hkey b hb]
    exact h.below a ha
  · intro a ha b hb
    rcases List.mem_append.mp ha with ha | ha
    · exact hLR a (List.mem_append_left _ ha) b hb
    · rw [hkey a ha]
      exact h.above b hb

end RbtreeNode

namespace Rbtree

open RbtreeNode

variable {α : Type*}

/-! ## The operations -/

/-- `rbtree_create`. -/
def empty : Rbtree α where
  root := .nil
  ordered := List.Pairwise.nil
  balanced := ⟨0, .leaf⟩

instance : Inhabited (Rbtree α) := ⟨empty⟩

theorem isSome_rbtreeInsert (t : Rbtree α) (key : ℕ) (value : α) :
    (rbtreeInsert key value t.root).isSome := by
  obtain ⟨n, hb⟩ := t.balanced
  obtain ⟨t', _, _, _, h, -⟩ := rbtreeInsert_spec key value hb t.ordered
  simp [h]

theorem isSome_rbtreeDelete (t : Rbtree α) (key : ℕ) : (rbtreeDelete key t.root).isSome := by
  obtain ⟨n, hb⟩ := t.balanced
  obtain ⟨t', _, _, _, h, -⟩ := rbtreeDelete_spec key hb t.ordered
  simp [h]

/-- `rbtree_insert` on a well-formed tree. -/
def insert (t : Rbtree α) (key : ℕ) (value : α) : Rbtree α where
  root := (rbtreeInsert key value t.root).get (t.isSome_rbtreeInsert key value)
  ordered := by
    obtain ⟨n, hb⟩ := t.balanced
    obtain ⟨t', L, old, R, h, -, hsplit, hlist⟩ := rbtreeInsert_spec key value hb t.ordered
    simp only [h, Option.get_some, Ordered, hlist]
    exact pairwise_of_splitAt hsplit t.ordered (List.pairwise_singleton _ _) (by simp)
  balanced := by
    obtain ⟨n, hb⟩ := t.balanced
    obtain ⟨t', _, _, _, h, hb', -⟩ := rbtreeInsert_spec key value hb t.ordered
    simpa [h] using hb'

/-- `rbtree_delete` on a well-formed tree. -/
def delete (t : Rbtree α) (key : ℕ) : Rbtree α where
  root := (rbtreeDelete key t.root).get (t.isSome_rbtreeDelete key)
  ordered := by
    obtain ⟨n, hb⟩ := t.balanced
    obtain ⟨t', L, old, R, h, -, hsplit, hlist⟩ := rbtreeDelete_spec key hb t.ordered
    simp only [h, Option.get_some, Ordered, hlist]
    simpa using pairwise_of_splitAt hsplit t.ordered List.Pairwise.nil (by simp)
  balanced := by
    obtain ⟨n, hb⟩ := t.balanced
    obtain ⟨t', _, _, _, h, hb', -⟩ := rbtreeDelete_spec key hb t.ordered
    simpa [h] using hb'

/-- `rbtree_lookup` with `IntComp`. -/
def find (t : Rbtree α) (key : ℕ) : Option α := t.root.lookup key

/-- `rbtree_lookup` with a comparison that may read the node. -/
def findBy (t : Rbtree α) (cmp : ℕ → α → Ordering) : Option α := t.root.lookupBy cmp

/-! ## Trees as finite maps -/

theorem find_eq_some_iff (t : Rbtree α) (key : ℕ) (v : α) :
    t.find key = some v ↔ (key, v) ∈ t.root.toList :=
  lookup_eq_some_iff t.ordered key v

theorem exists_find_of_findBy {t : Rbtree α} {cmp : ℕ → α → Ordering} {v : α}
    (h : t.findBy cmp = some v) : ∃ k, t.find k = some v := by
  obtain ⟨k, hk⟩ := mem_of_lookupBy h
  exact ⟨k, (t.find_eq_some_iff k v).mpr hk⟩

@[simp] theorem find_empty (key : ℕ) : (empty : Rbtree α).find key = none := rfl

/-- Membership after an insertion. -/
theorem mem_insert (t : Rbtree α) (key : ℕ) (value : α) (e : ℕ × α) :
    e ∈ (t.insert key value).root.toList ↔
      e = (key, value) ∨ e.1 ≠ key ∧ e ∈ t.root.toList := by
  obtain ⟨n, hb⟩ := t.balanced
  obtain ⟨t', L, old, R, h, -, hsplit, hlist⟩ := rbtreeInsert_spec key value hb t.ordered
  simp only [insert, h, Option.get_some, hlist, hsplit.eq, List.mem_append, List.mem_singleton]
  constructor
  · rintro ((he | he) | he)
    · exact .inr ⟨(hsplit.below e he).ne, .inl (.inl he)⟩
    · exact .inl he
    · exact .inr ⟨(hsplit.above e he).ne', .inr he⟩
  · rintro (he | ⟨hne, (he | he) | he⟩)
    · exact .inl (.inr he)
    · exact .inl (.inl he)
    · exact absurd (hsplit.here e he) hne
    · exact .inr he

/-- A tree that is filled by insertions holds what was inserted, where one key is always
inserted with one value. -/
theorem mem_foldl_insert {β : Type*} {key : β → ℕ} {value : β → α} {xs : List β}
    (hkey : ∀ x ∈ xs, ∀ y ∈ xs, key x = key y → value x = value y) {e : ℕ × α} :
    e ∈ (xs.foldl (fun t x => t.insert (key x) (value x)) empty).root.toList ↔
      ∃ x ∈ xs, e = (key x, value x) := by
  induction xs using List.reverseRecOn with
  | nil => simp [empty, toList]
  | append_singleton xs x ih =>
    have hlast : x ∈ xs ++ [x] := List.mem_append_right _ (List.mem_singleton.mpr rfl)
    have hinit : ∀ {y}, y ∈ xs → y ∈ xs ++ [x] := fun hy => List.mem_append_left _ hy
    rw [List.foldl_append, List.foldl_cons, List.foldl_nil, mem_insert,
      ih fun y hy z hz => hkey y (hinit hy) z (hinit hz)]
    constructor
    · rintro (rfl | ⟨-, y, hy, rfl⟩)
      · exact ⟨x, hlast, rfl⟩
      · exact ⟨y, hinit hy, rfl⟩
    · rintro ⟨y, hy, rfl⟩
      by_cases hxy : key y = key x
      · rw [hxy, hkey y hy x hlast hxy]
        exact .inl rfl
      · refine .inr ⟨hxy, y, ?_, rfl⟩
        rcases List.mem_append.mp hy with hy | hy
        · exact hy
        · rw [List.mem_singleton.mp hy] at hxy
          exact absurd rfl hxy

/-- Membership after a deletion. -/
theorem mem_delete (t : Rbtree α) (key : ℕ) (e : ℕ × α) :
    e ∈ (t.delete key).root.toList ↔ e.1 ≠ key ∧ e ∈ t.root.toList := by
  obtain ⟨n, hb⟩ := t.balanced
  obtain ⟨t', L, old, R, h, -, hsplit, hlist⟩ := rbtreeDelete_spec key hb t.ordered
  simp only [delete, h, Option.get_some, hlist, hsplit.eq, List.mem_append]
  constructor
  · rintro (he | he)
    · exact ⟨(hsplit.below e he).ne, .inl (.inl he)⟩
    · exact ⟨(hsplit.above e he).ne', .inr he⟩
  · rintro ⟨hne, (he | he) | he⟩
    · exact .inl he
    · exact absurd (hsplit.here e he) hne
    · exact .inr he

theorem find_insert (t : Rbtree α) (key : ℕ) (value : α) (k : ℕ) :
    (t.insert key value).find k = if k = key then some value else t.find k := by
  apply Option.ext
  intro v
  rw [find_eq_some_iff, mem_insert]
  by_cases hk : k = key
  · simp [hk, eq_comm]
  · simp [hk, find_eq_some_iff]

theorem find_delete (t : Rbtree α) (key : ℕ) (k : ℕ) :
    (t.delete key).find k = if k = key then none else t.find k := by
  apply Option.ext
  intro v
  rw [find_eq_some_iff, mem_delete]
  by_cases hk : k = key
  · simp [hk]
  · simp [hk, find_eq_some_iff]

end Rbtree
