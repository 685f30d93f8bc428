/-
# Red-black nodes: the operations of `rbtree.cc`

A functional reading of the imperative red-black tree that every index of the
object store is built on.  The C code walks parent pointers; here the way from
a node back to the root is an explicit list of `Frame`s, so that

* `insertCase1` ... `insertCase5` are the C functions of the same name, with the
  red node `n` as the focus and its ancestors as the list;
* `deleteCase1` ... `deleteCase6` rearrange only the ancestors of `n`, exactly as
  the C functions do (the subtree under `n` is never touched).

An `assert` of the source, or a null dereference, is `none`.  Keys are the
unsigned integers that `IntComp` compares.

The two facts proved about each operation are what it does to the in-order list
of bindings and that it keeps the colour discipline (`Balanced`), from which it
follows that no `assert` fires (`rbtreeInsert_spec`, `rbtreeDelete_spec`).
-/
import Mathlib

/-- The colour of a node. -/
inductive Color : Type where
  | red : Color
  | black : Color
  deriving DecidableEq, Repr, Inhabited

/-- Which child of its parent a node is. -/
inductive Dir : Type where
  | left : Dir
  | right : Dir
  deriving DecidableEq, Repr, Inhabited

/-- A red-black node: colour, left child, key, value, right child. -/
inductive RbtreeNode (α : Type*) where
  | nil : RbtreeNode α
  | node (c : Color) (l : RbtreeNode α) (k : ℕ) (v : α) (r : RbtreeNode α) : RbtreeNode α

/-- One ancestor on the way to the root: the focus is its `dir` child and `sib`
is the other one. -/
structure Frame (α : Type*) where
  dir : Dir
  color : Color
  key : ℕ
  val : α
  sib : RbtreeNode α

namespace RbtreeNode

open Color Dir

variable {α : Type*}

/-! ## Colours, sides and paths -/

/-- `node_color`: a missing node counts as black. -/
def nodeColor : RbtreeNode α → Color
  | nil => black
  | node c _ _ _ _ => c

/-- Paint a node black. -/
def setBlack : RbtreeNode α → RbtreeNode α
  | nil => nil
  | node _ l k v r => node black l k v r

/-- The one of two children that lies on side `d`. -/
def near {β : Type*} : Dir → β → β → β
  | left, x, _ => x
  | right, _, y => y

/-- The one of two children that lies opposite to side `d`. -/
def far {β : Type*} : Dir → β → β → β
  | left, _, y => y
  | right, x, _ => x

/-- The node whose `d` child is `x` and whose other child is `y`. -/
def link (d : Dir) (c : Color) (x : RbtreeNode α) (k : ℕ) (v : α) (y : RbtreeNode α) :
    RbtreeNode α :=
  node c (near d x y) k v (far d x y)

/-- Put a subtree back under its ancestors. -/
def fill : List (Frame α) → RbtreeNode α → RbtreeNode α
  | [], t => t
  | f :: p, t => fill p (link f.dir f.color t f.key f.val f.sib)

/-- The in-order list of bindings. -/
def toList : RbtreeNode α → List (ℕ × α)
  | nil => []
  | node _ l k v r => l.toList ++ (k, v) :: r.toList

/-- What precedes the focus in the in-order list. -/
def leftCtx : List (Frame α) → List (ℕ × α)
  | [] => []
  | f :: p => leftCtx p ++ near f.dir [] (f.sib.toList ++ [(f.key, f.val)])

/-- What follows the focus in the in-order list. -/
def rightCtx : List (Frame α) → List (ℕ × α)
  | [] => []
  | f :: p => near f.dir ((f.key, f.val) :: f.sib.toList) [] ++ rightCtx p

/-- The in-order list of a filled path. -/
theorem toList_fill (p : List (Frame α)) (t : RbtreeNode α) :
    (fill p t).toList = leftCtx p ++ t.toList ++ rightCtx p := by
  induction p generalizing t with
  | nil => simp [fill, leftCtx, rightCtx]
  | cons f p ih =>
    rw [fill, ih]
    cases hd : f.dir <;> simp [link, near, far, toList, leftCtx, rightCtx, hd]

/-! ## Lookup -/

/-- `lookup_node`: follow the comparison of the searched key with each node,
which may also read the node's value (`CompRange`). -/
def lookupBy (cmp : ℕ → α → Ordering) : RbtreeNode α → Option α
  | nil => none
  | node _ l k v r =>
    match cmp k v with
    | .eq => some v
    | .lt => lookupBy cmp l
    | .gt => lookupBy cmp r

/-- `rbtree_lookup` with `IntComp`. -/
def lookup (key : ℕ) (t : RbtreeNode α) : Option α := lookupBy (fun k _ => compare key k) t

/-- The descent of `lookup_node` with `IntComp`, keeping the way back. -/
def zoom (key : ℕ) : RbtreeNode α → List (Frame α) → RbtreeNode α × List (Frame α)
  | nil, p => (nil, p)
  | node c l k v r, p =>
    match compare key k with
    | .eq => (node c l k v r, p)
    | .lt => zoom key l (⟨left, c, k, v, r⟩ :: p)
    | .gt => zoom key r (⟨right, c, k, v, l⟩ :: p)

/-! ## Insertion -/

/-- `insert_case5`: parent and focus lie on the same side `d`; the parent turns
black, the grandparent red, and the grandparent is rotated away from `d`. -/
def insertCase5 (d : Dir) (n : RbtreeNode α) (pk : ℕ) (pv : α) (ps : RbtreeNode α)
    (gk : ℕ) (gv : α) (u : RbtreeNode α) : RbtreeNode α :=
  link d black n pk pv (link d red ps gk gv u)

/-- `insert_case4`: a focus on the inner side is first rotated to the outer one. -/
def insertCase4 (l : RbtreeNode α) (k : ℕ) (v : α) (r : RbtreeNode α) (f g : Frame α) :
    RbtreeNode α :=
  if f.dir = g.dir then
    insertCase5 g.dir (node red l k v r) f.key f.val f.sib g.key g.val g.sib
  else
    insertCase5 g.dir (link g.dir red f.sib f.key f.val (near g.dir l r)) k v
      (far g.dir l r) g.key g.val g.sib

/-- `insert_case1` with `insert_case2` and `insert_case3`: repair the tree above
the red node `node red l k v r`. -/
def insertCase1 (l : RbtreeNode α) (k : ℕ) (v : α) (r : RbtreeNode α) :
    List (Frame α) → Option (RbtreeNode α)
  | [] => some (node black l k v r)
  | [f] =>
    if f.color = black then some (fill [f] (node red l k v r))
    else none -- `grandparent` asserts that the parent is not the root
  | f :: g :: p =>
    if f.color = black then some (fill (f :: g :: p) (node red l k v r))
    else
      match g.sib with
      | node red ul uk uv ur =>
        -- a red uncle: recolour and repair above the grandparent
        let par := link f.dir black (node red l k v r) f.key f.val f.sib
        let unc := node black ul uk uv ur
        insertCase1 (near g.dir par unc) g.key g.val (far g.dir par unc) p
      | _ => some (fill p (insertCase4 l k v r f g))

/-- `rbtree_insert`: an existing key gets the new value, a missing one is hung
in as a red leaf. -/
def rbtreeInsert (key : ℕ) (value : α) (t : RbtreeNode α) : Option (RbtreeNode α) :=
  match zoom key t [] with
  | (node c l k _ r, p) => some (fill p (node c l k value r))
  | (nil, p) => insertCase1 nil key value nil p

/-! ## Deletion -/

/-- `delete_case6`: the far nephew is red; rotate the parent towards the focus. -/
def deleteCase6 (f : Frame α) (p : List (Frame α)) : Option (List (Frame α)) :=
  match f.sib with
  | nil => none
  | node _ sl sk sv sr =>
    match far f.dir sl sr with
    | node red x k v y =>
      some ({ f with color := black, sib := near f.dir sl sr } ::
        ⟨f.dir, f.color, sk, sv, node black x k v y⟩ :: p)
    | _ => none

/-- `delete_case5`: a red near nephew is rotated to the far side first. -/
def deleteCase5 (f : Frame α) (p : List (Frame α)) : Option (List (Frame α)) :=
  match f.sib with
  | node black sl sk sv sr =>
    match near f.dir sl sr, nodeColor (far f.dir sl sr) with
    | node red al ak av ar, black =>
      let s := link f.dir black (near f.dir al ar) ak av
        (link f.dir red (far f.dir al ar) sk sv (far f.dir sl sr))
      deleteCase6 { f with sib := s } p
    | _, _ => deleteCase6 f p
  | _ => deleteCase6 f p

/-- `delete_case4`: a red parent above a black sibling with black children
swaps colours with it. -/
def deleteCase4 (f : Frame α) (p : List (Frame α)) : Option (List (Frame α)) :=
  match f.sib with
  | nil => none
  | node black sl sk sv sr =>
    if f.color = red ∧ nodeColor sl = black ∧ nodeColor sr = black then
      some ({ f with color := black, sib := node red sl sk sv sr } :: p)
    else deleteCase5 f p
  | node red _ _ _ _ => deleteCase5 f p

/-- `delete_case1` with `delete_case2` and `delete_case3`: make up for one
missing black node below the focus by rearranging its ancestors. -/
def deleteCase1 : List (Frame α) → Option (List (Frame α))
  | [] => some []
  | f :: p =>
    match f.sib with
    | nil => none
    | node red sl sk sv sr =>
      -- `delete_case2`; the parent is red from here on, so `delete_case3` falls through
      deleteCase4 { f with color := red, sib := near f.dir sl sr }
        (⟨f.dir, black, sk, sv, far f.dir sl sr⟩ :: p)
    | node black sl sk sv sr =>
      if f.color = black ∧ nodeColor sl = black ∧ nodeColor sr = black then
        (deleteCase1 p).map (fun q => { f with sib := node red sl sk sv sr } :: q)
      else deleteCase4 f p

/-- `maximum_node`: the rightmost node, which has no right child, as its colour,
left child, key and value, together with the way back. -/
def maximumNode (c : Color) (l : RbtreeNode α) (k : ℕ) (v : α) :
    RbtreeNode α → List (Frame α) → Color × RbtreeNode α × ℕ × α × List (Frame α)
  | nil, p => (c, l, k, v, p)
  | node c' l' k' v' r', p => maximumNode c' l' k' v' r' (⟨right, c, k, v, l⟩ :: p)

/-- The end of `rbtree_delete`: the node of colour `c` with the only child
`child` is taken out of the tree. -/
def unlinkNode (c : Color) (child : RbtreeNode α) (p : List (Frame α)) : Option (RbtreeNode α) :=
  (if c = black then deleteCase1 p else some p).map fun q =>
    match q with
    | [] => setBlack child
    | f :: q => fill (f :: q) child

/-- `rbtree_delete`: a node with two children is overwritten by its predecessor,
which is then taken out in its place. -/
def rbtreeDelete (key : ℕ) (t : RbtreeNode α) : Option (RbtreeNode α) :=
  match zoom key t [] with
  | (nil, _) => some t
  | (node c l _ _ nil, p) => unlinkNode c l p
  | (node c nil _ _ r, p) => unlinkNode c r p
  | (node c (node lc ll lk lv lr) _ _ r, p) =>
    let (mc, ml, mk, mv, q) := maximumNode lc ll lk lv lr []
    unlinkNode mc ml (q ++ ⟨left, c, mk, mv, r⟩ :: p)

/-! ## The colour discipline -/

/-- `t.Balanced c n`: the root of `t` has colour `c`, no red node has a red
child, and every way down from the root meets `n` black nodes. -/
inductive Balanced : RbtreeNode α → Color → ℕ → Prop
  | leaf : Balanced nil black 0
  | redNode {l k v r n} : Balanced l black n → Balanced r black n →
      Balanced (node red l k v r) red n
  | blackNode {l k v r c₁ c₂ n} : Balanced l c₁ n → Balanced r c₂ n →
      Balanced (node black l k v r) black (n + 1)

/-- A path whose hole may be filled with a `c`-coloured tree of black height `n`
to give a whole tree with a black root. -/
inductive PathBalanced : List (Frame α) → Color → ℕ → Prop
  | root {n} : PathBalanced [] black n
  | redFrame {d k v s p n} : s.Balanced black n → PathBalanced p red n →
      PathBalanced (⟨d, red, k, v, s⟩ :: p) black n
  | blackFrame {d k v s p c c' n} : s.Balanced c' n → PathBalanced p black (n + 1) →
      PathBalanced (⟨d, black, k, v, s⟩ :: p) c n

variable {c : Color} {n k : ℕ} {d : Dir}

theorem nodeColor_of_balanced {t : RbtreeNode α} (h : t.Balanced c n) :
    nodeColor t = c := by
  cases h <;> rfl

theorem setBlack_balanced {t : RbtreeNode α} (h : t.Balanced c n) :
    ∃ m, (setBlack t).Balanced black m := by
  cases h with
  | leaf => exact ⟨0, .leaf⟩
  | redNode hl hr => exact ⟨_, .blackNode hl hr⟩
  | blackNode hl hr => exact ⟨_, .blackNode hl hr⟩

/-- A red node from its two sides. -/
theorem link_red_balanced {x y : RbtreeNode α} {v : α} (hx : x.Balanced black n)
    (hy : y.Balanced black n) :
    (link d red x k v y).Balanced red n := by
  cases d with
  | left => exact .redNode hx hy
  | right => exact .redNode hy hx

/-- A black node from its two sides. -/
theorem link_black_balanced {x y : RbtreeNode α} {v : α} {c' : Color} (hx : x.Balanced c n)
    (hy : y.Balanced c' n) :
    (link d black x k v y).Balanced black (n + 1) := by
  cases d with
  | left => exact .blackNode hx hy
  | right => exact .blackNode hy hx

/-- Filling the hole of a balanced path gives a balanced tree. -/
theorem fill_balanced {p : List (Frame α)} (hp : PathBalanced p c n) {t : RbtreeNode α}
    (ht : t.Balanced c n) : ∃ m, (fill p t).Balanced black m := by
  induction hp generalizing t with
  | root => exact ⟨_, ht⟩
  | redFrame hs _ ih => exact ih (link_red_balanced ht hs)
  | blackFrame hs _ ih => exact ih (link_black_balanced ht hs)

/-- The descent of `lookup_node` splits a balanced tree into a balanced path and
a balanced subtree. -/
theorem zoom_balanced (key : ℕ) (t : RbtreeNode α) (p : List (Frame α)) (ht : t.Balanced c n)
    (hp : PathBalanced p c n) :
    ∃ c' n', (zoom key t p).1.Balanced c' n' ∧ PathBalanced (zoom key t p).2 c' n' := by
  induction ht generalizing p with
  | leaf => exact ⟨_, _, .leaf, hp⟩
  | @redNode l k v r n hl hr ihl ihr =>
    unfold zoom
    cases compare key k with
    | eq => exact ⟨_, _, .redNode hl hr, hp⟩
    | lt => exact ihl _ (.redFrame hr hp)
    | gt => exact ihr _ (.redFrame hl hp)
  | @blackNode l k v r c₁ c₂ n hl hr ihl ihr =>
    unfold zoom
    cases compare key k with
    | eq => exact ⟨_, _, .blackNode hl hr, hp⟩
    | lt => exact ihl _ (.blackFrame hr hp)
    | gt => exact ihr _ (.blackFrame hl hp)

/-! ## Insertion keeps the discipline -/

theorem near_balanced {l r : RbtreeNode α} (hl : l.Balanced c n) (hr : r.Balanced c n) :
    (near d l r).Balanced c n := by
  cases d with
  | left => exact hl
  | right => exact hr

theorem far_balanced {l r : RbtreeNode α} (hl : l.Balanced c n) (hr : r.Balanced c n) :
    (far d l r).Balanced c n := by
  cases d with
  | left => exact hr
  | right => exact hl

/-- The last rotation of an insertion ends below a black node. -/
theorem insertCase4_balanced {l r : RbtreeNode α} {v : α} {d' : Dir} {pk gk : ℕ} {pv gv : α}
    {ps u : RbtreeNode α} (hl : l.Balanced black n) (hr : r.Balanced black n)
    (hps : ps.Balanced black n) (hu : u.Balanced black n) :
    (insertCase4 l k v r ⟨d, red, pk, pv, ps⟩ ⟨d', black, gk, gv, u⟩).Balanced black (n + 1) := by
  unfold insertCase4
  by_cases hd : d = d'
  · rw [if_pos hd]
    exact link_black_balanced (.redNode hl hr) (link_red_balanced hps hu)
  · rw [if_neg hd]
    exact link_black_balanced (link_red_balanced hps (near_balanced hl hr))
      (link_red_balanced (far_balanced hl hr) hu)

/-- The last rotation of an insertion keeps the in-order list. -/
theorem insertCase4_toList (l : RbtreeNode α) (k : ℕ) (v : α) (r : RbtreeNode α) (f g : Frame α) :
    (insertCase4 l k v r f g).toList
      = (fill [f, g] (node red l k v r)).toList := by
  obtain ⟨d, c, pk, pv, ps⟩ := f
  obtain ⟨d', c', gk, gv, u⟩ := g
  cases d <;> cases d' <;>
    simp [insertCase4, insertCase5, link, near, far, fill, toList]

/-- **Insertion repairs the tree**: above a red node with black children of the
height its path expects, `insert_case1` never asserts and yields a balanced tree
with the in-order list unchanged. -/
theorem insertCase1_spec : ∀ (p : List (Frame α)) {l r : RbtreeNode α} {k : ℕ} {v : α} {n : ℕ},
    l.Balanced black n → r.Balanced black n → PathBalanced p black n →
      ∃ t, insertCase1 l k v r p = some t ∧ (∃ m, t.Balanced black m) ∧
        t.toList = (fill p (node red l k v r)).toList
  | [], l, r, k, v, n, hl, hr, _ =>
    ⟨node black l k v r, rfl, ⟨_, .blackNode hl hr⟩, rfl⟩
  | [f], l, r, k, v, n, hl, hr, hp => by
    cases hp with
    | redFrame _ hp => cases hp
    | blackFrame hs hp =>
      exact ⟨_, rfl, fill_balanced (.blackFrame hs hp) (.redNode hl hr), rfl⟩
  | f :: g :: p, l, r, k, v, n, hl, hr, hp => by
    cases hp with
    | blackFrame hs hp =>
      exact ⟨_, rfl, fill_balanced (.blackFrame hs hp) (.redNode hl hr), rfl⟩
    | @redFrame d pk pv ps _ _ hs hp =>
      -- the parent is red, so the grandparent exists and is black
      cases hp with
      | @blackFrame d' gk gv u _ _ c' _ hu hp =>
        cases hu with
        | leaf =>
          refine ⟨_, rfl, fill_balanced hp (insertCase4_balanced hl hr hs .leaf), ?_⟩
          rw [toList_fill, insertCase4_toList, toList_fill, toList_fill]
          simp [leftCtx, rightCtx]
        | blackNode hul hur =>
          refine ⟨_, rfl, fill_balanced hp (insertCase4_balanced hl hr hs (.blackNode hul hur)), ?_⟩
          rw [toList_fill, insertCase4_toList, toList_fill, toList_fill]
          simp [leftCtx, rightCtx]
        | @redNode ul uk uv ur _ hul hur =>
          have hpar : (link d black (node red l k v r) pk pv ps).Balanced black (n + 1) :=
            link_black_balanced (.redNode hl hr) hs
          have hunc : (node black ul uk uv ur).Balanced black (n + 1) := .blackNode hul hur
          obtain ⟨t, ht, hb, hlist⟩ := insertCase1_spec p (k := gk) (v := gv)
            (near_balanced (d := d') hpar hunc) (far_balanced (d := d') hpar hunc) hp
          refine ⟨t, ht, hb, ?_⟩
          rw [hlist, toList_fill, toList_fill]
          cases d <;> cases d' <;> simp [leftCtx, rightCtx, near, far, toList, link]

/-! ## Deletion keeps the discipline -/

/-- Two paths with the same bindings on both sides of the hole. -/
def SameCtx (p q : List (Frame α)) : Prop :=
  leftCtx p = leftCtx q ∧ rightCtx p = rightCtx q

/-- A path that takes a tree of black height `n` and either colour. -/
def Absorbs (p : List (Frame α)) (n : ℕ) : Prop :=
  p = [] ∨ ∀ c, PathBalanced p c n

/-- A red hole lies below a black node, so it may be filled with any colour. -/
theorem pathBalanced_of_red {p : List (Frame α)} (hp : PathBalanced p red n) (c : Color) :
    PathBalanced p c n := by
  cases hp with
  | blackFrame hs hp => exact .blackFrame hs hp

/-- A black sibling may be exchanged for another one of the same height. -/
theorem pathBalanced_exchange {d' : Dir} {k' : ℕ} {v v' : α} {s s' : RbtreeNode α}
    {p : List (Frame α)} (hp : PathBalanced (⟨d, c, k, v, s⟩ :: p) black n)
    (hs : s'.Balanced black n) : PathBalanced (⟨d', c, k', v', s'⟩ :: p) black n := by
  cases hp with
  | redFrame _ hp => exact .redFrame hs hp
  | blackFrame _ hp => exact .blackFrame hs hp

/-- The sibling of a hole of positive height is a node. -/
theorem sib_balanced {v : α} {s : RbtreeNode α} {p : List (Frame α)}
    (hp : PathBalanced (⟨d, c, k, v, s⟩ :: p) black n) :
    ∃ c', s.Balanced c' n := by
  cases hp with
  | redFrame hs _ => exact ⟨_, hs⟩
  | blackFrame hs _ => exact ⟨_, hs⟩

theorem near_near_far {β : Type*} (d : Dir) (x y : β) : near d (near d x y) (far d x y) = x := by
  cases d <;> rfl

theorem far_near_far {β : Type*} (d : Dir) (x y : β) : far d (near d x y) (far d x y) = y := by
  cases d <;> rfl

/-- `delete_case6` with a red far nephew. -/
theorem deleteCase6_spec {sc c₁ : Color} {sk : ℕ} {v sv : α} {s sl sr : RbtreeNode α}
    {p : List (Frame α)} (hp : PathBalanced (⟨d, c, k, v, s⟩ :: p) black (n + 1))
    (hnear : (near d sl sr).Balanced c₁ n) (hfar : (far d sl sr).Balanced red n) :
    ∃ q, deleteCase6 ⟨d, c, k, v, node sc sl sk sv sr⟩ p = some q ∧
      (∀ c, PathBalanced q c n) ∧ SameCtx q (⟨d, c, k, v, node sc sl sk sv sr⟩ :: p) := by
  cases hx : far d sl sr with
  | nil => rw [hx] at hfar; cases hfar
  | node fc x fk fv y =>
    rw [hx] at hfar
    cases hfar with
    | redNode hxl hyr =>
      refine ⟨⟨d, black, k, v, near d sl sr⟩ :: ⟨d, c, sk, sv, node black x fk fv y⟩ :: p,
        ?_, ?_, ?_⟩
      · simp [deleteCase6, hx]
      · intro c₀
        exact .blackFrame hnear (pathBalanced_exchange hp (.blackNode hxl hyr))
      · cases d <;> simp only [far] at hx <;> subst hx <;>
          simp [SameCtx, leftCtx, rightCtx, near, toList]

/-- `delete_case5` with a black sibling that has a red child. -/
theorem deleteCase5_spec {c₁ c₂ : Color} {sk : ℕ} {v sv : α} {s sl sr : RbtreeNode α}
    {p : List (Frame α)} (hp : PathBalanced (⟨d, c, k, v, s⟩ :: p) black (n + 1))
    (hnear : (near d sl sr).Balanced c₁ n) (hfar : (far d sl sr).Balanced c₂ n)
    (hred : c₁ = red ∨ c₂ = red) :
    ∃ q, deleteCase5 ⟨d, c, k, v, node black sl sk sv sr⟩ p = some q ∧
      (∀ c, PathBalanced q c n) ∧ SameCtx q (⟨d, c, k, v, node black sl sk sv sr⟩ :: p) := by
  cases c₂ with
  | red =>
    have heq : deleteCase5 ⟨d, c, k, v, node black sl sk sv sr⟩ p
        = deleteCase6 ⟨d, c, k, v, node black sl sk sv sr⟩ p := by
      simp only [deleteCase5, nodeColor_of_balanced hfar]
      split <;> simp_all
    rw [heq]
    exact deleteCase6_spec hp hnear hfar
  | black =>
    have hc₁ : c₁ = red := by simpa using hred
    subst hc₁
    cases ha : near d sl sr with
    | nil => rw [ha] at hnear; cases hnear
    | node ac al ak av ar =>
      rw [ha] at hnear
      cases hnear with
      | redNode hal har =>
        -- the near nephew moves up between the focus and its old sibling
        have hX : (near d al ar).Balanced black n := near_balanced hal har
        have hY : (link d red (far d al ar) sk sv (far d sl sr)).Balanced red n :=
          link_red_balanced (far_balanced hal har) hfar
        obtain ⟨q, hq, hb, hctx⟩ :
            ∃ q, deleteCase6 ⟨d, c, k, v, link d black (near d al ar) ak av
                (link d red (far d al ar) sk sv (far d sl sr))⟩ p = some q ∧
              (∀ c, PathBalanced q c n) ∧
              SameCtx q (⟨d, c, k, v, link d black (near d al ar) ak av
                (link d red (far d al ar) sk sv (far d sl sr))⟩ :: p) :=
          deleteCase6_spec hp (by rw [near_near_far]; exact hX) (by rw [far_near_far]; exact hY)
        refine ⟨q, ?_, hb, ?_⟩
        · rw [← hq]
          simp [deleteCase5, ha, nodeColor_of_balanced hfar]
        · cases d <;> simp only [near] at ha <;> subst ha <;>
            simpa [SameCtx, leftCtx, rightCtx, near, far, link, toList] using hctx

/-- `delete_case4` below a black sibling: either the colours are swapped, or a
nephew is red and the last two cases apply. -/
theorem deleteCase4_spec {c₁ c₂ : Color} {sk : ℕ} {v sv : α} {s sl sr : RbtreeNode α}
    {p : List (Frame α)} (hp : PathBalanced (⟨d, c, k, v, s⟩ :: p) black (n + 1))
    (hl : sl.Balanced c₁ n) (hr : sr.Balanced c₂ n) (hc : c = red ∨ c₁ = red ∨ c₂ = red) :
    ∃ q, deleteCase4 ⟨d, c, k, v, node black sl sk sv sr⟩ p = some q ∧
      (∀ c, PathBalanced q c n) ∧ SameCtx q (⟨d, c, k, v, node black sl sk sv sr⟩ :: p) := by
  by_cases hcond : c = red ∧ c₁ = black ∧ c₂ = black
  · obtain ⟨rfl, rfl, rfl⟩ := hcond
    cases hp with
    | redFrame _ hp =>
      refine ⟨⟨d, black, k, v, node red sl sk sv sr⟩ :: p, ?_, ?_, ?_⟩
      · simp [deleteCase4, nodeColor_of_balanced hl, nodeColor_of_balanced hr]
      · intro c₀
        exact .blackFrame (.redNode hl hr) (pathBalanced_of_red hp black)
      · cases d <;> simp [SameCtx, leftCtx, rightCtx, near, toList]
  · have heq : deleteCase4 ⟨d, c, k, v, node black sl sk sv sr⟩ p
        = deleteCase5 ⟨d, c, k, v, node black sl sk sv sr⟩ p := by
      simp only [deleteCase4, nodeColor_of_balanced hl, nodeColor_of_balanced hr]
      rw [if_neg hcond]
    rw [heq]
    have hred : c₁ = red ∨ c₂ = red := by
      cases c <;> cases c₁ <;> cases c₂ <;> simp_all
    cases d with
    | left => exact deleteCase5_spec hp hl hr hred
    | right => exact deleteCase5_spec hp hr hl hred.symm

/-- **Deletion repairs the tree**: a path whose hole is one black node short is
rearranged, without an assertion failing, into one that takes what is left. -/
theorem deleteCase1_spec (p : List (Frame α)) :
    ∀ {n : ℕ}, PathBalanced p black (n + 1) →
      ∃ q, deleteCase1 p = some q ∧ Absorbs q n ∧ SameCtx q p := by
  induction p with
  | nil => exact fun _ => ⟨[], rfl, .inl rfl, rfl, rfl⟩
  | cons f p ih =>
    obtain ⟨d, c, k, v, s⟩ := f
    intro n hp
    obtain ⟨c', hs⟩ := sib_balanced hp
    cases hs with
    | @redNode sl sk sv sr _ hl hr =>
      -- `delete_case2`: after the rotation the parent is red and the sibling black
      cases hp with
      | redFrame hs _ => cases hs
      | blackFrame _ hp =>
        have hrot : PathBalanced (⟨d, red, k, v, near d sl sr⟩ ::
            ⟨d, black, sk, sv, far d sl sr⟩ :: p) black (n + 1) :=
          .redFrame (near_balanced hl hr) (.blackFrame (far_balanced hl hr) hp)
        have hnear : (near d sl sr).Balanced black (n + 1) := near_balanced hl hr
        cases hx : near d sl sr with
        | nil => rw [hx] at hnear; cases hnear
        | node nc nl nk nv nr =>
          rw [hx] at hnear hrot
          cases hnear with
          | blackNode hnl hnr =>
            obtain ⟨q, hq, hb, hctx⟩ :
                ∃ q, deleteCase4 ⟨d, red, k, v, node black nl nk nv nr⟩
                    (⟨d, black, sk, sv, far d sl sr⟩ :: p) = some q ∧
                  (∀ c, PathBalanced q c n) ∧
                  SameCtx q (⟨d, red, k, v, node black nl nk nv nr⟩ ::
                    ⟨d, black, sk, sv, far d sl sr⟩ :: p) :=
              deleteCase4_spec hrot hnl hnr (.inl rfl)
            refine ⟨q, by simp only [deleteCase1, hx]; exact hq, .inr hb, ?_⟩
            cases d <;> simp only [near] at hx <;> subst hx <;>
              simpa [SameCtx, leftCtx, rightCtx, near, far, toList] using hctx
    | @blackNode sl sk sv sr c₁ c₂ _ hl hr =>
      by_cases hcond : c = black ∧ c₁ = black ∧ c₂ = black
      · -- `delete_case3`: the whole subtree loses one black node
        obtain ⟨rfl, rfl, rfl⟩ := hcond
        cases hp with
        | blackFrame _ hp =>
          obtain ⟨q, hq, hab, hctx⟩ := ih hp
          refine ⟨⟨d, black, k, v, node red sl sk sv sr⟩ :: q, ?_, .inr fun c₀ => ?_, ?_⟩
          · simp [deleteCase1, nodeColor_of_balanced hl, nodeColor_of_balanced hr, hq]
          · rcases hab with rfl | hab
            · exact .blackFrame (.redNode hl hr) .root
            · exact .blackFrame (.redNode hl hr) (hab black)
          · cases d <;> simp [SameCtx, leftCtx, rightCtx, near, toList, hctx.1, hctx.2]
      · have heq : deleteCase1 (⟨d, c, k, v, node black sl sk sv sr⟩ :: p)
            = deleteCase4 ⟨d, c, k, v, node black sl sk sv sr⟩ p := by
          simp only [deleteCase1, nodeColor_of_balanced hl, nodeColor_of_balanced hr]
          rw [if_neg hcond]
        rw [heq]
        have hc : c = red ∨ c₁ = red ∨ c₂ = red := by
          cases c <;> cases c₁ <;> cases c₂ <;> simp_all
        obtain ⟨q, hq, hb, hctx⟩ :
            ∃ q, deleteCase4 ⟨d, c, k, v, node black sl sk sv sr⟩ p = some q ∧
              (∀ c, PathBalanced q c n) ∧
              SameCtx q (⟨d, c, k, v, node black sl sk sv sr⟩ :: p) :=
          deleteCase4_spec hp hl hr hc
        exact ⟨q, hq, .inr hb, hctx⟩

/-- Taking a node with at most one child out of a balanced tree. -/
theorem unlinkNode_spec {c' : Color} {child : RbtreeNode α} {p : List (Frame α)} {m : ℕ}
    (hp : PathBalanced p c m) (hchild : child.Balanced c' n)
    (hm : c = black ∧ m = n + 1 ∨ c = red ∧ c' = black ∧ m = n) :
    ∃ t, unlinkNode c child p = some t ∧ (∃ m, t.Balanced black m) ∧
      t.toList = leftCtx p ++ child.toList ++ rightCtx p := by
  rcases hm with ⟨rfl, rfl⟩ | ⟨rfl, rfl, rfl⟩
  · obtain ⟨q, hq, hab, hctx⟩ := deleteCase1_spec p hp
    cases q with
    | nil =>
      refine ⟨setBlack child, by simp [unlinkNode, hq], setBlack_balanced hchild, ?_⟩
      rw [← hctx.1, ← hctx.2]
      cases child <;> simp [setBlack, toList, leftCtx, rightCtx]
    | cons f q =>
      have hb : PathBalanced (f :: q) c' n := by
        rcases hab with h | h
        · cases h
        · exact h c'
      refine ⟨fill (f :: q) child, by simp [unlinkNode, hq], fill_balanced hb hchild, ?_⟩
      rw [toList_fill, hctx.1, hctx.2]
  · cases p with
    | nil => cases hp
    | cons f p =>
      exact ⟨fill (f :: p) child, by simp [unlinkNode],
        fill_balanced (pathBalanced_of_red hp black) hchild, toList_fill _ _⟩

/-- Taking out a node without a right child. -/
theorem unlinkNode_of_left {l : RbtreeNode α} {v : α} {p : List (Frame α)} {m : ℕ}
    (hp : PathBalanced p c m) (hn : (node c l k v nil).Balanced c m) :
    ∃ t, unlinkNode c l p = some t ∧ (∃ m, t.Balanced black m) ∧
      t.toList = leftCtx p ++ l.toList ++ rightCtx p := by
  cases hn with
  | redNode hl hr => exact unlinkNode_spec hp hl (.inr ⟨rfl, rfl, rfl⟩)
  | blackNode hl hr => exact unlinkNode_spec hp hl (.inl ⟨rfl, rfl⟩)

/-- Taking out a node without a left child. -/
theorem unlinkNode_of_right {r : RbtreeNode α} {v : α} {p : List (Frame α)} {m : ℕ}
    (hp : PathBalanced p c m) (hn : (node c nil k v r).Balanced c m) :
    ∃ t, unlinkNode c r p = some t ∧ (∃ m, t.Balanced black m) ∧
      t.toList = leftCtx p ++ r.toList ++ rightCtx p := by
  cases hn with
  | redNode hl hr => exact unlinkNode_spec hp hr (.inr ⟨rfl, rfl, rfl⟩)
  | blackNode hl hr => exact unlinkNode_spec hp hr (.inl ⟨rfl, rfl⟩)

theorem leftCtx_append (q p : List (Frame α)) : leftCtx (q ++ p) = leftCtx p ++ leftCtx q := by
  induction q with
  | nil => simp [leftCtx]
  | cons f q ih => simp [leftCtx, ih]

theorem rightCtx_append (q p : List (Frame α)) : rightCtx (q ++ p) = rightCtx q ++ rightCtx p := by
  induction q with
  | nil => simp [rightCtx]
  | cons f q ih => simp [rightCtx, ih]

/-- The rightmost node of a subtree: it comes last in the in-order list, and the
way back to it stays balanced below whatever hangs above the subtree. -/
theorem maximumNode_spec (r : RbtreeNode α) : ∀ (c : Color) (l : RbtreeNode α) (k : ℕ) (v : α)
    (p : List (Frame α)), ∃ mc ml mk mv q, maximumNode c l k v r p = (mc, ml, mk, mv, q ++ p) ∧
      leftCtx q ++ ml.toList ++ [(mk, mv)] = (node c l k v r).toList ∧ rightCtx q = [] ∧
      ∀ (b : List (Frame α)) (n : ℕ), (node c l k v r).Balanced c n → PathBalanced b c n →
        ∃ m, (node mc ml mk mv nil).Balanced mc m ∧ PathBalanced (q ++ b) mc m := by
  induction r with
  | nil =>
    intro c l k v p
    exact ⟨c, l, k, v, [], rfl, by simp [leftCtx, toList], rfl, fun b n h hb => ⟨n, h, hb⟩⟩
  | node c' l' k' v' r' _ ih =>
    intro c l k v p
    obtain ⟨mc, ml, mk, mv, q, heq, hlist, hright, hbal⟩ :=
      ih c' l' k' v' (⟨right, c, k, v, l⟩ :: p)
    refine ⟨mc, ml, mk, mv, q ++ [⟨right, c, k, v, l⟩], ?_, ?_, ?_, ?_⟩
    · simp [maximumNode, heq]
    · have hlist' := congrArg (fun xs => l.toList ++ (k, v) :: xs) hlist
      simpa [leftCtx_append, leftCtx, near, toList] using hlist'
    · simp [rightCtx_append, rightCtx, near, hright]
    · intro b n hn hb
      cases hn with
      | redNode hl hr =>
        cases hr with
        | blackNode hl' hr' =>
          simpa using hbal (⟨right, red, k, v, l⟩ :: b) _ (.blackNode hl' hr') (.redFrame hl hb)
      | @blackNode _ _ _ _ c₁ c₂ _ hl hr =>
        have hc : c' = c₂ := nodeColor_of_balanced hr
        subst hc
        simpa using hbal (⟨right, black, k, v, l⟩ :: b) _ hr (.blackFrame hl hb)

/-! ## What the operations do to the bindings -/

/-- The bindings come in strictly increasing key order. -/
def Ordered (t : RbtreeNode α) : Prop := t.toList.Pairwise (fun a b => a.1 < b.1)

/-- `xs` is `L ++ old ++ R` with `L` below `key`, `R` above it, and in between the
binding of `key`, if there is one. -/
structure SplitAt (key : ℕ) (xs L old R : List (ℕ × α)) : Prop where
  eq : xs = L ++ old ++ R
  below : ∀ e ∈ L, e.1 < key
  above : ∀ e ∈ R, key < e.1
  here : ∀ e ∈ old, e.1 = key

/-- In an ordered tree the key of a node lies between its subtrees. -/
theorem bounds_of_ordered_fill {p : List (Frame α)} {l r : RbtreeNode α} {v : α}
    (h : (fill p (node c l k v r)).Ordered) :
    (∀ e ∈ l.toList, e.1 < k) ∧ ∀ e ∈ r.toList, k < e.1 := by
  unfold Ordered at h
  rw [toList_fill] at h
  have hmid := (List.pairwise_append.mp (List.pairwise_append.mp h).1).2.1
  rw [toList, List.pairwise_append, List.pairwise_cons] at hmid
  obtain ⟨_, ⟨hkr, _⟩, hlk⟩ := hmid
  exact ⟨fun e he => hlk e he (k, v) List.mem_cons_self, fun e he => hkr e he⟩

/-- The descent of `lookup_node` passes every smaller key on the left and every
larger key on the right, and stops at `key` or at a missing child. -/
theorem zoom_spec (key : ℕ) (t : RbtreeNode α) (p : List (Frame α))
    (hsorted : (fill p t).Ordered) (hl : ∀ e ∈ leftCtx p, e.1 < key)
    (hr : ∀ e ∈ rightCtx p, key < e.1) :
    fill (zoom key t p).2 (zoom key t p).1 = fill p t ∧
      SplitAt key (fill p t).toList
        (leftCtx (zoom key t p).2 ++ (match (zoom key t p).1 with
          | nil => [] | node _ l _ _ _ => l.toList))
        (match (zoom key t p).1 with | nil => [] | node _ _ k v _ => [(k, v)])
        ((match (zoom key t p).1 with | nil => [] | node _ _ _ _ r => r.toList)
          ++ rightCtx (zoom key t p).2) := by
  induction t generalizing p with
  | nil =>
    refine ⟨rfl, ?_, ?_, ?_, ?_⟩
    · simp [zoom, toList_fill, toList]
    · simpa [zoom] using hl
    · simpa [zoom] using hr
    · simp [zoom]
  | node c l k v r ihl ihr =>
    obtain ⟨hlk, hkr⟩ := bounds_of_ordered_fill hsorted
    unfold zoom
    cases hcmp : compare key k with
    | eq =>
      have hk : key = k := Nat.compare_eq_eq.mp hcmp
      subst hk
      refine ⟨rfl, ?_, ?_, ?_, ?_⟩
      · simp [toList_fill, toList]
      · intro e he
        rcases List.mem_append.mp he with he | he
        · exact hl e he
        · exact hlk e he
      · intro e he
        rcases List.mem_append.mp he with he | he
        · exact hkr e he
        · exact hr e he
      · simp
    | lt =>
      have hk : key < k := Nat.compare_eq_lt.mp hcmp
      refine ihl (⟨left, c, k, v, r⟩ :: p) hsorted (by simpa [leftCtx, near] using hl) ?_
      intro e he
      simp only [rightCtx, near, List.cons_append, List.mem_cons, List.mem_append] at he
      rcases he with rfl | he | he
      · exact hk
      · exact hk.trans (hkr e he)
      · exact hr e he
    | gt =>
      have hk : k < key := Nat.compare_eq_gt.mp hcmp
      refine ihr (⟨right, c, k, v, l⟩ :: p) hsorted ?_ (by simpa [rightCtx, near] using hr)
      intro e he
      simp only [leftCtx, near, List.mem_append, List.mem_singleton] at he
      rcases he with he | he | rfl
      · exact hl e he
      · exact (hlk e he).trans hk
      · exact hk

/-- **What insertion does**: no assertion fires, the result is balanced, and the
binding of `key` is replaced, or put between the smaller and the larger keys. -/
theorem rbtreeInsert_spec (key : ℕ) (value : α) {t : RbtreeNode α} (hb : t.Balanced black n)
    (ho : t.Ordered) :
    ∃ t' L old R, rbtreeInsert key value t = some t' ∧ (∃ m, t'.Balanced black m) ∧
      SplitAt key t.toList L old R ∧ t'.toList = L ++ [(key, value)] ++ R := by
  obtain ⟨hfill, hsplit⟩ := zoom_spec key t [] ho (by simp [leftCtx]) (by simp [rightCtx])
  obtain ⟨c', n', htb, hpb⟩ := zoom_balanced key t [] hb .root
  unfold rbtreeInsert
  rcases hz : zoom key t [] with ⟨s, p⟩
  rw [hz] at hfill hsplit htb hpb
  cases s with
  | nil =>
    cases htb
    obtain ⟨t', ht', hb', hlist⟩ := insertCase1_spec p (k := key) (v := value) .leaf .leaf hpb
    refine ⟨t', _, _, _, ht', hb', hsplit, ?_⟩
    rw [hlist, toList_fill]
    simp [toList]
  | node c l k v r =>
    have hk : k = key := hsplit.here (k, v) (by simp)
    subst hk
    refine ⟨_, _, _, _, rfl, ?_, hsplit, ?_⟩
    · have hc : c = c' := nodeColor_of_balanced htb
      subst hc
      cases htb with
      | redNode hl hr => exact fill_balanced hpb (.redNode hl hr)
      | blackNode hl hr => exact fill_balanced hpb (.blackNode hl hr)
    · rw [toList_fill]
      simp [toList]

/-- **What deletion does**: no assertion fires, the result is balanced, and
exactly the binding of `key` is gone. -/
theorem rbtreeDelete_spec (key : ℕ) {t : RbtreeNode α} (hb : t.Balanced black n) (ho : t.Ordered) :
    ∃ t' L old R, rbtreeDelete key t = some t' ∧ (∃ m, t'.Balanced black m) ∧
      SplitAt key t.toList L old R ∧ t'.toList = L ++ R := by
  obtain ⟨hfill, hsplit⟩ := zoom_spec key t [] ho (by simp [leftCtx]) (by simp [rightCtx])
  obtain ⟨c', n', htb, hpb⟩ := zoom_balanced key t [] hb .root
  unfold rbtreeDelete
  rcases hz : zoom key t [] with ⟨s, p⟩
  rw [hz] at hfill hsplit htb hpb
  rcases s with _ | ⟨c, l, k, v, r⟩
  · refine ⟨t, _, _, _, rfl, ⟨n, hb⟩, hsplit, ?_⟩
    have := hsplit.eq
    simpa [fill] using this
  · have hc : c = c' := nodeColor_of_balanced htb
    subst hc
    cases r with
    | nil =>
      obtain ⟨t', ht', hb', hlist⟩ := unlinkNode_of_left hpb htb
      exact ⟨t', _, _, _, ht', hb', hsplit, by rw [hlist]; simp [toList]⟩
    | node rc rl rk rv rr =>
      cases l with
      | nil =>
        obtain ⟨t', ht', hb', hlist⟩ := unlinkNode_of_right hpb htb
        exact ⟨t', _, _, _, ht', hb', hsplit, by rw [hlist]; simp [toList]⟩
      | node lc ll lk lv lr =>
        -- the predecessor takes the place of the deleted node
        obtain ⟨mc, ml, mk, mv, q, hmax, hlist, hright, hbal⟩ := maximumNode_spec lr lc ll lk lv []
        rw [List.append_nil] at hmax
        obtain ⟨m, hmb, hqb⟩ : ∃ m, (node mc ml mk mv nil).Balanced mc m ∧
            PathBalanced (q ++ ⟨left, c, mk, mv, node rc rl rk rv rr⟩ :: p) mc m := by
          cases htb with
          | redNode hl hr =>
            have hlc : lc = black := nodeColor_of_balanced hl
            subst hlc
            exact hbal _ _ hl (.redFrame hr hpb)
          | @blackNode _ _ _ _ c₁ c₂ _ hl hr =>
            have hlc : lc = c₁ := nodeColor_of_balanced hl
            subst hlc
            exact hbal _ _ hl (.blackFrame hr hpb)
        obtain ⟨t', ht', hb', hlist'⟩ := unlinkNode_of_left hqb hmb
        refine ⟨t', _, _, _, by simpa [hmax] using ht', hb', hsplit, ?_⟩
        rw [hlist', leftCtx_append, rightCtx_append, hright]
        simp only [← hlist, leftCtx, rightCtx, near, List.append_nil, List.nil_append]
        simp

end RbtreeNode
