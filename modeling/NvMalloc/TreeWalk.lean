/-
# Walks over a tree from the right to the left

Recursive functions over the trees of the store visit the right subtree, the node and the left
subtree.  Two kinds occur: a search that returns the first match, which is the one with the
greatest key (`lastMatch`), and a walk that does something at every node and returns a status
(`statusWalk`).

In a `statusWalk` the status of the left subtree replaces all others, and a node may leave the
status to its right subtree, so one node decides (`decider`): the leftmost one, or where that
one sets no status the leftmost one to the right of it, and so on.
-/
import NvMalloc.Rbtree

namespace RbtreeNode

variable {α : Type*}

/-- `n == NULL`. -/
def isNil : RbtreeNode α → Bool
  | .nil => true
  | .node .. => false

/-- The values, from the greatest key downwards. -/
def descending (t : RbtreeNode α) : List α := (t.toList.map Prod.snd).reverse

@[simp] theorem descending_nil : (nil : RbtreeNode α).descending = [] := rfl

theorem descending_node (c : Color) (l : RbtreeNode α) (k : ℕ) (v : α) (r : RbtreeNode α) :
    (node c l k v r).descending = r.descending ++ v :: l.descending := by
  simp [descending, toList]

theorem mem_descending {t : RbtreeNode α} {v : α} : v ∈ t.descending ↔ ∃ k, (k, v) ∈ t.toList := by
  simp [descending]

theorem eq_nil_of_isNil {t : RbtreeNode α} (h : t.isNil = true) : t = nil := by
  cases t with
  | nil => rfl
  | node => cases h

/-- Apply a function to every value. -/
def map {β : Type*} (g : α → β) : RbtreeNode α → RbtreeNode β
  | .nil => .nil
  | .node c l k v r => .node c (l.map g) k (g v) (r.map g)

theorem toList_map {β : Type*} (g : α → β) (t : RbtreeNode α) :
    (t.map g).toList = t.toList.map (Prod.map id g) := by
  induction t with
  | nil => rfl
  | node c l k v r ihl ihr => simp [map, toList, ihl, ihr]

/-! ## The greatest match -/

/-- The first binding from the right with a value that meets `p`. -/
def lastMatch (p : α → Bool) (t : RbtreeNode α) : Option (ℕ × α) :=
  t.toList.reverse.find? fun e => p e.2

/-- The search looks at the right subtree, the node and the left subtree. -/
theorem lastMatch_node (p : α → Bool) (c : Color) (l : RbtreeNode α) (k : ℕ) (v : α)
    (r : RbtreeNode α) : (node c l k v r).lastMatch p =
      (r.lastMatch p).or (if p v then some (k, v) else l.lastMatch p) := by
  unfold lastMatch
  rw [toList, List.reverse_append, List.reverse_cons, List.append_assoc, List.find?_append]
  congr 1
  rw [List.singleton_append, List.find?_cons]
  cases p v <;> rfl

theorem lastMatch_eq_none_iff {p : α → Bool} {t : RbtreeNode α} :
    t.lastMatch p = none ↔ ∀ e ∈ t.toList, ¬ p e.2 = true := by
  simp [lastMatch]

theorem lastMatch_map {β : Type*} (g : α → β) (p : β → Bool) (t : RbtreeNode α) :
    (t.map g).lastMatch p = (t.lastMatch fun v => p (g v)).map (Prod.map id g) := by
  unfold lastMatch
  rw [toList_map, ← List.map_reverse, List.find?_map]
  rfl

theorem mem_of_lastMatch {p : α → Bool} {t : RbtreeNode α} {e : ℕ × α}
    (h : t.lastMatch p = some e) : e ∈ t.toList :=
  List.mem_reverse.mp (List.mem_of_find?_eq_some h)

/-- In an ordered tree the first match has the greatest key. -/
theorem greatest_of_lastMatch {p : α → Bool} {t : RbtreeNode α} (h : t.Ordered) {e : ℕ × α}
    (he : t.lastMatch p = some e) :
    e ∈ t.toList ∧ p e.2 = true ∧ ∀ e' ∈ t.toList, p e'.2 = true → e'.1 ≤ e.1 := by
  obtain ⟨hp, before, after, hsplit, hbefore⟩ := List.find?_eq_some_iff_append.mp he
  have hrev : t.toList.reverse.Pairwise (fun a b => b.1 < a.1) := List.pairwise_reverse.mpr h
  have hmem : ∀ {e'}, e' ∈ t.toList ↔ e' ∈ before ∨ e' = e ∨ e' ∈ after := by
    intro e'
    rw [← List.mem_reverse, hsplit, List.mem_append, List.mem_cons]
  refine ⟨hmem.mpr (Or.inr (Or.inl rfl)), hp, fun e' he' hp' => ?_⟩
  rw [hsplit, List.pairwise_append, List.pairwise_cons] at hrev
  obtain ⟨-, ⟨hafter, -⟩, -⟩ := hrev
  rcases hmem.mp he' with hin | rfl | hin
  · exact absurd (hbefore e' hin) (by simp [hp'])
  · exact le_rfl
  · exact (hafter e' hin).le

theorem lastMatch_eq_some_iff {p : α → Bool} {t : RbtreeNode α} (h : t.Ordered) {e : ℕ × α} :
    t.lastMatch p = some e ↔
      e ∈ t.toList ∧ p e.2 = true ∧ ∀ e' ∈ t.toList, p e'.2 = true → e'.1 ≤ e.1 := by
  constructor
  · exact greatest_of_lastMatch h
  · rintro ⟨hmem, hp, hmax⟩
    cases hfind : t.lastMatch p with
    | none => exact absurd hp (lastMatch_eq_none_iff.mp hfind e hmem)
    | some e₀ =>
      obtain ⟨hmem₀, hp₀, hmax₀⟩ := greatest_of_lastMatch h hfind
      -- both have the greatest key, and a key has one value
      have hkey : e₀.1 = e.1 := le_antisymm (hmax e₀ hmem₀ hp₀) (hmax₀ e hmem hp)
      have hlookup := (lookup_eq_some_iff h e.1 e.2).mpr hmem
      have hlookup₀ := (lookup_eq_some_iff h e₀.1 e₀.2).mpr hmem₀
      rw [hkey, hlookup] at hlookup₀
      rw [Prod.ext hkey (Option.some.inj hlookup₀).symm]

/-! ## Walks with a status -/

section Status

variable {σ δ : Type} (f : α → σ → Option (Option ℤ × σ))

/-- Visit the right subtree, the node and the left subtree.  The status starts at -1, is replaced
by that of the right subtree, may be set at the node, and is replaced by that of the left
subtree. -/
def statusWalk : RbtreeNode α → σ → Option (ℤ × σ)
  | .nil, s => some (0, s)
  | .node _ l _ v r, s =>
    (if r.isNil then some (-1, s) else statusWalk r s).bind fun (ret, s) =>
      (f v s).bind fun (own, s) => if l.isNil then some (own.getD ret, s) else statusWalk l s

/-- Every node is visited once, the one with the greatest key first. -/
theorem statusWalk_state (t : RbtreeNode α) (s : σ) :
    (t.statusWalk f s).map Prod.snd =
      t.descending.foldlM (fun s v => (f v s).map Prod.snd) s := by
  induction t generalizing s with
  | nil => rfl
  | node c l k v r ihl ihr =>
    have hright : (if r.isNil then some (-1, s) else r.statusWalk f s).map Prod.snd =
        r.descending.foldlM (fun s v => (f v s).map Prod.snd) s := by
      split
      · next hnil =>
        rw [eq_nil_of_isNil hnil]
        rfl
      · exact ihr s
    rw [descending_node, List.foldlM_append, ← hright, statusWalk]
    cases (if r.isNil then some (-1, s) else r.statusWalk f s) with
    | none => rfl
    | some p =>
      obtain ⟨ret, s₁⟩ := p
      simp only [Option.bind_eq_bind, Option.bind_some, Option.map_some, List.foldlM_cons]
      cases hv : f v s₁ with
      | none => rfl
      | some p =>
        obtain ⟨own, s₂⟩ := p
        simp only [Option.bind_some, Option.map_some]
        split
        · next hnil =>
          rw [eq_nil_of_isNil hnil]
          rfl
        · exact ihl s₂

/-- The node that decides on the status, and the data when it is reached: `sets` says whether a
node sets it, and `upd` what the visit of a node does to the data. -/
def decider (sets : δ → α → Bool) (upd : δ → α → δ) : RbtreeNode α → δ → Option (δ × α)
  | .nil, _ => none
  | .node _ l _ v r, d =>
    let d' := r.descending.foldl upd d
    if l.isNil then
      if sets d' v then some (d', v) else decider sets upd r d
    else decider sets upd l (upd d' v)

/-- The status of a walk is the one that its decider sets, and -1 when there is none. -/
theorem statusWalk_status {f : α → σ → Option (Option ℤ × σ)} (view : σ → δ)
    (sets : δ → α → Bool) (val : δ → α → ℤ) (upd : δ → α → δ)
    (hf : ∀ {v s own s'}, f v s = some (own, s') →
      own = (if sets (view s) v then some (val (view s) v) else none) ∧
        view s' = upd (view s) v)
    {t : RbtreeNode α} {s s' : σ} {ret : ℤ} (h : t.statusWalk f s = some (ret, s')) :
    (t.isNil = false →
      ret = ((t.decider sets upd (view s)).map fun r => val r.1 r.2).getD (-1)) ∧
    view s' = t.descending.foldl upd (view s) := by
  induction t generalizing s ret s' with
  | nil =>
    cases h
    exact ⟨fun hnil => (by cases hnil), rfl⟩
  | node c l k v r ihl ihr =>
    rw [statusWalk] at h
    obtain ⟨⟨ret₁, s₁⟩, hright, h⟩ := Option.bind_eq_some_iff.mp h
    obtain ⟨⟨own, s₂⟩, hv, h⟩ := Option.bind_eq_some_iff.mp h
    -- the status and the data after the right subtree
    have hret₁ : ret₁ = ((r.decider sets upd (view s)).map fun r => val r.1 r.2).getD (-1) ∧
        view s₁ = r.descending.foldl upd (view s) := by
      split at hright
      · next hnil =>
        cases hright
        rw [eq_nil_of_isNil hnil]
        exact ⟨rfl, rfl⟩
      · next hnil =>
        obtain ⟨hstatus, hview⟩ := ihr hright
        exact ⟨hstatus (Bool.eq_false_of_not_eq_true hnil), hview⟩
    obtain ⟨hret₁, hview₁⟩ := hret₁
    obtain ⟨hown, hview₂⟩ := hf hv
    rw [hview₁] at hown hview₂
    rw [descending_node, List.foldl_append, List.foldl_cons, ← hview₂, decider]
    simp only at h
    split at h
    · next hnil =>
      cases h
      rw [eq_nil_of_isNil hnil, hown, hret₁]
      refine ⟨fun _ => ?_, rfl⟩
      simp only [isNil, if_true]
      split <;> rfl
    · next hnil =>
      obtain ⟨hstatus, hview⟩ := ihl h
      refine ⟨fun _ => ?_, hview⟩
      rw [if_neg hnil, ← hview₂]
      exact hstatus (Bool.eq_false_of_not_eq_true hnil)

end Status

end RbtreeNode
