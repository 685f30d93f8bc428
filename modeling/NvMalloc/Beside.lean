/-
# Programs with tables beside their state

A variant of a program often keeps tables beside the state, such as a cache or a list of
pointers: it writes them at some places, and reads them at fewer.  The states of the variant
are pairs of a state and the tables, and its writes are writes to the state, or give the
tables new contents (`note`).  A lookup may do both (`ask`).

Two relations tie the variant to the program.  `Mirrors` says that the two run alike and the
tables are left alone.  `Tracks` says that whenever the variant runs to its end, the program
does, with the same result and the same writes to the state; what the tables hold afterwards
is said by a postcondition.  The rules of both follow the two programs in step.
-/
import NvMalloc.WriteM

open WriteM

/-- A state and tables beside it. -/
@[ext]
structure Beside (σ κ : Type) where
  store : σ
  side : κ

/-- Programs over a state with writes `ω`, and tables beside it. -/
abbrev BesideM (σ ω κ : Type) := WriteM (Beside σ κ) (ω ⊕ κ)

namespace Beside

variable {σ κ ω α β : Type} [WriteEffect σ ω]

/-- A write goes to the state, or gives the tables new contents. -/
instance : WriteEffect (Beside σ κ) (ω ⊕ κ) where
  apply s w :=
    match w with
    | .inl w => ⟨WriteEffect.apply s.store w, s.side⟩
    | .inr t => ⟨s.store, t⟩

instance : WriteGhost (Beside σ κ) (Beside σ κ) (ω ⊕ κ) := ⟨id, fun _ _ => rfl⟩

/-- A program that does not know the tables. -/
def inStore (m : WriteM σ ω α) : BesideM σ ω κ α :=
  fun s => (m s.store).map fun r => (r.1, r.2.map Sum.inl)

/-- Give the tables new contents. -/
def note (f : Beside σ κ → κ) : BesideM σ ω κ Unit := do
  let s ← state
  emit (.inr (f s))

/-- Look something up, and give the tables new contents. -/
def ask (f : Beside σ κ → α × κ) : BesideM σ ω κ α := do
  let s ← state
  emit (.inr (f s).2)
  return (f s).1

/-! ## Runs -/

/-- The writes to the state. -/
def storeWrites (ws : List (ω ⊕ κ)) : List ω := ws.filterMap Sum.getLeft?

omit [WriteEffect σ ω] in
theorem storeWrites_append (ws ws' : List (ω ⊕ κ)) :
    storeWrites (ws ++ ws') = storeWrites ws ++ storeWrites ws' := List.filterMap_append

omit [WriteEffect σ ω] in
theorem storeWrites_map (ws : List ω) : storeWrites (ws.map (Sum.inl : ω → ω ⊕ κ)) = ws := by
  induction ws with
  | nil => rfl
  | cons w ws ih => simpa [storeWrites] using ih

/-- The store sees its own writes only. -/
theorem store_applyAll (s : Beside σ κ) (ws : List (ω ⊕ κ)) :
    (applyAll s ws).store = applyAll s.store (storeWrites ws) := by
  induction ws generalizing s with
  | nil => rfl
  | cons w ws ih =>
    rw [applyAll_cons, ih]
    cases w <;> rfl

/-- Writes to the store leave the tables as they are. -/
theorem applyAll_map (s : Beside σ κ) (ws : List ω) :
    applyAll s (ws.map (Sum.inl : ω → ω ⊕ κ)) = ⟨applyAll s.store ws, s.side⟩ := by
  induction ws generalizing s with
  | nil => rfl
  | cons w ws ih => rw [List.map_cons, applyAll_cons, ih]; rfl

/-- A program of the store leaves the tables as they are. -/
@[simp] theorem exec_inStore (m : WriteM σ ω α) (s : Beside σ κ) :
    (inStore m : BesideM σ ω κ α).exec s =
      (m.exec s.store).map fun r => (r.1, ⟨r.2, s.side⟩) := by
  rw [exec, exec, inStore]
  cases m s.store with
  | none => rfl
  | some r => simp [applyAll_map]

/-- A change of the tables leaves the store as it is. -/
@[simp] theorem exec_note (f : Beside σ κ → κ) (s : Beside σ κ) :
    (note f : BesideM σ ω κ Unit).exec s = some ((), ⟨s.store, f s⟩) := rfl

@[simp] theorem exec_ask (f : Beside σ κ → α × κ) (s : Beside σ κ) :
    (ask f : BesideM σ ω κ α).exec s = some ((f s).1, ⟨s.store, (f s).2⟩) := rfl

/-! ## The same runs -/

/-- The variant `m'` runs as `m` does, and leaves the tables alone. -/
def Mirrors (m' : BesideM σ ω κ α) (m : WriteM σ ω α) (s : Beside σ κ) : Prop :=
  m'.exec s = (m.exec s.store).map fun r => (r.1, ⟨r.2, s.side⟩)

section Mirrors

variable {s : Beside σ κ}

theorem mirrors_inStore (m : WriteM σ ω α) : Mirrors (inStore m) m s := exec_inStore m s

/-- Programs that mirror each other can be composed. -/
theorem mirrors_bind {m' : BesideM σ ω κ α} {m : WriteM σ ω α} {f' : α → BesideM σ ω κ β}
    {f : α → WriteM σ ω β} (hm : Mirrors m' m s)
    (hf : ∀ a st, m.exec s.store = some (a, st) → Mirrors (f' a) (f a) ⟨st, s.side⟩) :
    Mirrors (m' >>= f') (m >>= f) s := by
  rw [Mirrors, exec_bind, exec_bind, hm]
  cases hexec : m.exec s.store with
  | none => rfl
  | some r => exact hf r.1 r.2 hexec

/-- A program of the store in front of both. -/
theorem mirrors_inStore_bind {m : WriteM σ ω α} {f' : α → BesideM σ ω κ β} {f : α → WriteM σ ω β}
    (h : ∀ a st, m.exec s.store = some (a, st) → Mirrors (f' a) (f a) ⟨st, s.side⟩) :
    Mirrors (inStore m >>= f') (m >>= f) s := mirrors_bind (mirrors_inStore m) h

theorem mirrors_pure (a : α) : Mirrors (pure a : BesideM σ ω κ α) (pure a) s := rfl

theorem mirrors_lift (o : Option α) : Mirrors (lift o : BesideM σ ω κ α) (lift o) s := by
  cases o <;> rfl

theorem mirrors_emit (w : ω) : Mirrors (emit (.inl w) : BesideM σ ω κ Unit) (emit w) s := rfl

theorem mirrors_assert (p : Prop) [Decidable p] :
    Mirrors (assert p : BesideM σ ω κ Unit) (assert p) s := by
  by_cases hp : p <;> simp [Mirrors, hp]

theorem mirrors_state_bind {f' : Beside σ κ → BesideM σ ω κ β} {f : σ → WriteM σ ω β}
    (h : Mirrors (f' s) (f s.store) s) : Mirrors (state >>= f') (state >>= f) s := by
  rw [Mirrors, exec_bind, exec_bind]
  exact h

/-- Only the variant looks at its state. -/
theorem mirrors_look {f' : Beside σ κ → BesideM σ ω κ β} {m : WriteM σ ω β}
    (h : Mirrors (f' s) m s) : Mirrors (state >>= f') m s := by
  rw [Mirrors, exec_bind]
  exact h

/-- Only the program looks at its state. -/
theorem mirrors_state {m' : BesideM σ ω κ β} {f : σ → WriteM σ ω β}
    (h : Mirrors m' (f s.store) s) : Mirrors m' (state >>= f) s := by
  rw [Mirrors, exec_bind]
  exact h

/-- Both go on with the same value. -/
theorem mirrors_lift_bind {o : Option α} {f' : α → BesideM σ ω κ β} {f : α → WriteM σ ω β}
    (h : ∀ a, o = some a → Mirrors (f' a) (f a) s) :
    Mirrors (lift o >>= f') (lift o >>= f) s := by
  refine mirrors_bind (mirrors_lift o) fun a st ha => ?_
  rw [exec_lift] at ha
  obtain ⟨b, hb, heq⟩ := Option.map_eq_some_iff.mp ha
  cases heq
  exact h _ hb

theorem mirrors_assert_bind {p : Prop} [Decidable p] {f' : Unit → BesideM σ ω κ β}
    {f : Unit → WriteM σ ω β} (h : p → Mirrors (f' ()) (f ()) s) :
    Mirrors (assert p >>= f') (assert p >>= f) s := by
  refine mirrors_bind (mirrors_assert p) fun a st ha => ?_
  rw [exec_assert] at ha
  split at ha
  · next hp =>
    cases ha
    exact h hp
  · cases ha

/-- Both make the same write. -/
theorem mirrors_emit_bind {w : ω} {f' : Unit → BesideM σ ω κ β} {f : Unit → WriteM σ ω β}
    (h : Mirrors (f' ()) (f ()) ⟨WriteEffect.apply s.store w, s.side⟩) :
    Mirrors (emit (.inl w) >>= f') (emit w >>= f) s :=
  mirrors_bind (mirrors_emit w) fun a st ha => by
    cases ha
    exact h

/-- A note that leaves the tables as they are. -/
theorem mirrors_note_bind {g : Beside σ κ → κ} {f' : Unit → BesideM σ ω κ β} {m : WriteM σ ω β}
    (hg : g s = s.side) (h : Mirrors (f' ()) m s) : Mirrors (note g >>= f') m s := by
  rw [Mirrors, exec_bind, exec_note, hg]
  exact h

/-- A note at the end that leaves the tables as they are. -/
theorem Mirrors.then_note {m' : BesideM σ ω κ Unit} {m : WriteM σ ω Unit} (h : Mirrors m' m s)
    {g : Beside σ κ → κ} (hg : ∀ s, g s = s.side) :
    Mirrors (do m'; note g) m s := by
  rw [Mirrors, exec_bind, h]
  cases m.exec s.store with
  | none => rfl
  | some r => exact congrArg (fun t => some ((), (⟨r.2, t⟩ : Beside σ κ))) (hg _)

/-- A lookup that leaves the tables as they are. -/
theorem mirrors_ask_bind {g : Beside σ κ → α × κ} {f' : α → BesideM σ ω κ β} {m : WriteM σ ω β}
    (hg : (g s).2 = s.side) (h : Mirrors (f' (g s).1) m s) : Mirrors (ask g >>= f') m s := by
  rw [Mirrors, exec_bind, exec_ask, hg]
  exact h

end Mirrors

/-! ## The same writes to the state -/

/-- When the variant `m'` runs to its end from `s`, so does `m`, with the same result and
the same writes to the state, and the last state meets `Q`. -/
def Tracks (Q : α → Beside σ κ → Prop) (m' : BesideM σ ω κ α) (m : WriteM σ ω α)
    (s : Beside σ κ) : Prop :=
  ∀ a ws, m' s = some (a, ws) → m s.store = some (a, storeWrites ws) ∧ Q a (applyAll s ws)

section Tracks

variable {Q : α → Beside σ κ → Prop} {S : β → Beside σ κ → Prop} {s : Beside σ κ}

/-- What is known when the program with tables ends. -/
theorem Tracks.exec {m' : BesideM σ ω κ α} {m : WriteM σ ω α} (h : Tracks Q m' m s)
    {a : α} {s' : Beside σ κ} (hm : m'.exec s = some (a, s')) :
    m.exec s.store = some (a, s'.store) ∧ Q a s' := by
  obtain ⟨⟨_, ws⟩, hrun, heq⟩ := Option.map_eq_some_iff.mp hm
  cases heq
  obtain ⟨hm', hQ⟩ := h _ ws hrun
  refine ⟨?_, hQ⟩
  rw [exec_eq_some hm', store_applyAll]

/-- The condition at the end can be weakened. -/
theorem Tracks.mono {Q' : α → Beside σ κ → Prop} {m' : BesideM σ ω κ α}
    {m : WriteM σ ω α} (h : Tracks Q m' m s) (hQ : ∀ a s', Q a s' → Q' a s') : Tracks Q' m' m s :=
  fun a ws hm => ⟨(h a ws hm).1, hQ a _ (h a ws hm).2⟩

/-- The rule of sequential composition. -/
theorem tracks_bind {m' : BesideM σ ω κ α} {m : WriteM σ ω α}
    {f' : α → BesideM σ ω κ β} {f : α → WriteM σ ω β}
    (h : Tracks (fun a => Tracks S (f' a) (f a)) m' m s) : Tracks S (m' >>= f') (m >>= f) s := by
  intro b us hrun
  obtain ⟨a, ws, ws', hm, hf, rfl⟩ := run_bind_eq_some.mp hrun
  obtain ⟨hm', hnext⟩ := h a ws hm
  obtain ⟨hf', hS⟩ := hnext b ws' hf
  rw [store_applyAll] at hf'
  refine ⟨?_, by rw [applyAll_append]; exact hS⟩
  rw [storeWrites_append]
  exact run_bind hm' hf'

theorem tracks_pure {a : α} (h : Q a s) :
    Tracks Q (pure a : BesideM σ ω κ α) (pure a) s := by
  intro b ws hrun
  cases hrun
  exact ⟨rfl, h⟩

/-- The variant has its result at once, and the program finds the same without a write. -/
theorem tracks_pure_run {a : α} {m : WriteM σ ω α} (hm : m s.store = some (a, [])) (h : Q a s) :
    Tracks Q (pure a : BesideM σ ω κ α) m s := by
  intro b ws hrun
  cases hrun
  exact ⟨hm, h⟩

theorem tracks_state_bind {f' : Beside σ κ → BesideM σ ω κ β} {f : σ → WriteM σ ω β}
    (h : Tracks S (f' s) (f s.store) s) : Tracks S (state >>= f') (state >>= f) s := by
  intro b us hrun
  obtain ⟨a, ws, ws', hm, hf, rfl⟩ := run_bind_eq_some.mp hrun
  cases hm
  obtain ⟨hf', hS⟩ := h b ws' hf
  exact ⟨run_bind (run_state s.store) hf', hS⟩

/-- Only the variant looks at its state. -/
theorem tracks_look {f' : Beside σ κ → BesideM σ ω κ β} {m : WriteM σ ω β}
    (h : Tracks S (f' s) m s) : Tracks S (state >>= f') m s := by
  intro b us hrun
  obtain ⟨a, ws, ws', hm, hf, rfl⟩ := run_bind_eq_some.mp hrun
  cases hm
  exact h b ws' hf

/-- Only the program does something, without a write. -/
theorem tracks_run_bind {m' : BesideM σ ω κ β} {m : WriteM σ ω α} {f : α → WriteM σ ω β} {a : α}
    (hm : m s.store = some (a, [])) (h : Tracks S m' (f a) s) : Tracks S m' (m >>= f) s := by
  intro b us hrun
  obtain ⟨hf, hS⟩ := h b us hrun
  exact ⟨run_bind hm hf, hS⟩

/-- Only the program looks at its state. -/
theorem tracks_state {m' : BesideM σ ω κ β} {f : σ → WriteM σ ω β}
    (h : Tracks S m' (f s.store) s) : Tracks S m' (state >>= f) s :=
  tracks_run_bind (run_state s.store) h

theorem tracks_lift {o : Option α} (h : ∀ a, o = some a → Q a s) :
    Tracks Q (lift o : BesideM σ ω κ α) (lift o) s := by
  intro a ws hrun
  obtain ⟨b, rfl, heq⟩ := Option.map_eq_some_iff.mp hrun
  cases heq
  exact ⟨rfl, h _ rfl⟩

/-- Both go on with the same value. -/
theorem tracks_lift_bind {o : Option α} {f' : α → BesideM σ ω κ β}
    {f : α → WriteM σ ω β} (h : ∀ a, o = some a → Tracks S (f' a) (f a) s) :
    Tracks S (lift o >>= f') (lift o >>= f) s := tracks_bind (tracks_lift h)

/-- Both make the same assertion. -/
theorem tracks_assert_bind {p : Prop} [Decidable p] {f' : Unit → BesideM σ ω κ β}
    {f : Unit → WriteM σ ω β} (h : p → Tracks S (f' ()) (f ()) s) :
    Tracks S (assert p >>= f') (assert p >>= f) s := by
  apply tracks_bind
  intro a ws hrun
  rw [run_assert] at hrun
  split at hrun
  · next hp =>
    cases hrun
    exact ⟨by rw [run_assert, if_pos hp]; rfl, h hp⟩
  · cases hrun

theorem tracks_emit {w : ω} {Q : Unit → Beside σ κ → Prop}
    (h : Q () ⟨WriteEffect.apply s.store w, s.side⟩) :
    Tracks Q (emit (Sum.inl w) : BesideM σ ω κ Unit) (emit w) s := by
  intro a ws hrun
  cases hrun
  exact ⟨rfl, h⟩

/-- Both make the same write. -/
theorem tracks_emit_bind {w : ω} {f' : Unit → BesideM σ ω κ β}
    {f : Unit → WriteM σ ω β}
    (h : Tracks S (f' ()) (f ()) ⟨WriteEffect.apply s.store w, s.side⟩) :
    Tracks S (emit (Sum.inl w) >>= f') (emit w >>= f) s := tracks_bind (tracks_emit h)

/-- Only the variant writes, to its tables. -/
theorem tracks_note_bind {g : Beside σ κ → κ} {f' : Unit → BesideM σ ω κ β} {m : WriteM σ ω β}
    (h : Tracks S (f' ()) m ⟨s.store, g s⟩) : Tracks S (note g >>= f') m s := by
  intro b us hrun
  obtain ⟨a, ws, ws', hm, hf, rfl⟩ := run_bind_eq_some.mp hrun
  cases hm
  exact h b ws' hf

/-- The variant ends with a note. -/
theorem Tracks.then_note {Q' : Unit → Beside σ κ → Prop} {m' : BesideM σ ω κ Unit}
    {m : WriteM σ ω Unit} {P : Unit → Beside σ κ → Prop} (h : Tracks P m' m s)
    {g : Beside σ κ → κ} (hg : ∀ a s', P a s' → Q' a ⟨s'.store, g s'⟩) :
    Tracks Q' (do m'; note g) m s := by
  intro a us hrun
  obtain ⟨_, ws, ws', hm, hnote, rfl⟩ := run_bind_eq_some.mp hrun
  cases hnote
  obtain ⟨hm', hP⟩ := h _ ws hm
  refine ⟨?_, by rw [applyAll_append]; exact hg _ _ hP⟩
  rw [storeWrites_append, hm']
  exact congrArg (fun us => some ((), us)) (List.append_nil _).symm

/-- Only the variant looks something up, in its tables. -/
theorem tracks_ask_bind {g : Beside σ κ → α × κ} {f' : α → BesideM σ ω κ β} {m : WriteM σ ω β}
    (h : Tracks S (f' (g s).1) m ⟨s.store, (g s).2⟩) : Tracks S (ask g >>= f') m s := by
  intro b us hrun
  obtain ⟨a, ws, ws', hm, hf, rfl⟩ := run_bind_eq_some.mp hrun
  cases hm
  exact h b ws' hf

/-- A program of the store on both sides. -/
theorem tracks_inStore {m : WriteM σ ω α}
    (h : ∀ a ws, m s.store = some (a, ws) → Q a ⟨applyAll s.store ws, s.side⟩) :
    Tracks Q (inStore m : BesideM σ ω κ α) m s := by
  intro a ws hrun
  obtain ⟨⟨a', us⟩, hm, heq⟩ := Option.map_eq_some_iff.mp hrun
  cases heq
  refine ⟨by rw [hm, storeWrites_map], ?_⟩
  rw [applyAll_map]
  exact h _ us hm

theorem tracks_inStore_bind {m : WriteM σ ω α} {f' : α → BesideM σ ω κ β}
    {f : α → WriteM σ ω β}
    (h : ∀ a ws, m s.store = some (a, ws) → Tracks S (f' a) (f a) ⟨applyAll s.store ws, s.side⟩) :
    Tracks S (inStore m >>= f') (m >>= f) s := tracks_bind (tracks_inStore h)

end Tracks

end Beside
