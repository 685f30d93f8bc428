/-
# Programs as sequences of writes

A program that reads a state and changes it only by atomic writes is a function
from the state to its result and the list of writes it makes, or `none` when it
stops at a failed assertion or does something undefined.  The state after it is
the state with the writes applied in order (`applyAll`); the states in which it
can be cut are those after a number of its writes (`take`).

`run_bind_eq` and its relatives execute a program step by step, with its writes;
`exec_bind` and its relatives do so when only the state after it matters.  `Stays`
and `Wpc` describe a program by what holds wherever it is cut, whatever path it takes.
-/
import Mathlib

/-- A type `ω` of writes that act on states of type `σ`. -/
class WriteEffect (σ : Type*) (ω : outParam Type*) where
  apply : σ → ω → σ

section Apply

variable {σ ω : Type*} [WriteEffect σ ω]

/-- The effect of a sequence of writes, in program order. -/
def applyAll (s : σ) (ws : List ω) : σ := ws.foldl WriteEffect.apply s

@[simp] theorem applyAll_nil (s : σ) : applyAll s ([] : List ω) = s := rfl

@[simp] theorem applyAll_cons (s : σ) (w : ω) (ws : List ω) :
    applyAll s (w :: ws) = applyAll (WriteEffect.apply s w) ws := rfl

/-- Two lists of writes, one after the other. -/
@[simp] theorem applyAll_append (s : σ) (ws ws' : List ω) :
    applyAll s (ws ++ ws') = applyAll (applyAll s ws) ws' := List.foldl_append

/-- A property that every write of a list keeps holds after any number of them. -/
theorem applyAll_take_of_forall {P : σ → Prop} {ws : List ω}
    (hstep : ∀ w ∈ ws, ∀ s, P s → P (WriteEffect.apply s w)) {s : σ} (hs : P s) (k : ℕ) :
    P (applyAll s (ws.take k)) := by
  induction ws generalizing s k with
  | nil => simpa using hs
  | cons w ws ih =>
    cases k with
    | zero => simpa using hs
    | succ k =>
      rw [List.take_succ_cons, applyAll_cons]
      apply ih
      · intro w' hw'
        exact hstep w' (List.mem_cons_of_mem _ hw')
      · exact hstep w List.mem_cons_self s hs

end Apply

/-- A program over states `σ` with writes `ω`. -/
def WriteM (σ ω α : Type*) := σ → Option (α × List ω)

namespace WriteM

variable {σ ω α β : Type}

/-! ## The pieces of a program -/

/-- The current state. -/
def state : WriteM σ ω σ := fun s => some (s, [])

/-- Make one write. -/
def emit (w : ω) : WriteM σ ω Unit := fun _ => some ((), [w])

/-- Make some writes. -/
def emits (ws : List ω) : WriteM σ ω Unit := fun _ => some ((), ws)

/-- `assert`. -/
def assert (p : Prop) [Decidable p] : WriteM σ ω Unit := fun _ => if p then some ((), []) else none

/-- Use a value that may be undefined. -/
def lift (o : Option α) : WriteM σ ω α := fun _ => o.map fun a => (a, [])

@[simp] theorem run_state (s : σ) : (state : WriteM σ ω σ) s = some (s, []) := rfl

@[simp] theorem run_emit (w : ω) (s : σ) : (emit w : WriteM σ ω Unit) s = some ((), [w]) := rfl

@[simp] theorem run_emits (ws : List ω) (s : σ) :
    (emits ws : WriteM σ ω Unit) s = some ((), ws) := rfl

/-- A failed assertion ends the program. -/
@[simp] theorem run_assert (p : Prop) [Decidable p] (s : σ) :
    (assert p : WriteM σ ω Unit) s = if p then some ((), []) else none := rfl

theorem run_assert_pos {p : Prop} [Decidable p] (h : p) (s : σ) :
    (assert p : WriteM σ ω Unit) s = some ((), []) := if_pos h

/-- A missing value ends it too. -/
@[simp] theorem run_lift (o : Option α) (s : σ) :
    (lift o : WriteM σ ω α) s = o.map fun a => (a, []) := rfl

/-! ## Sequencing -/

variable [WriteEffect σ ω]

instance : Monad (WriteM σ ω) where
  pure a := fun _ => some (a, [])
  bind m f := fun s => (m s).bind fun r =>
    (f r.1 (applyAll s r.2)).map fun r' => (r'.1, r.2 ++ r'.2)

/-- The result and the state after the program. -/
def exec (m : WriteM σ ω α) (s : σ) : Option (α × σ) := (m s).map fun r => (r.1, applyAll s r.2)

@[simp] theorem run_pure (a : α) (s : σ) : (pure a : WriteM σ ω α) s = some (a, []) := rfl

/-- Sequencing: the second part runs in the state the first one leaves. -/
theorem run_bind_eq (m : WriteM σ ω α) (f : α → WriteM σ ω β) (s : σ) :
    (m >>= f) s = (m s).bind fun r =>
      (f r.1 (applyAll s r.2)).map fun r' => (r'.1, r.2 ++ r'.2) := rfl

/-- Run the first part of a program. -/
theorem run_bind_some {m : WriteM σ ω α} {f : α → WriteM σ ω β} {s : σ} {a : α} {ws : List ω}
    (hm : m s = some (a, ws)) :
    (m >>= f) s = (f a (applyAll s ws)).map fun r => (r.1, ws ++ r.2) := by
  rw [run_bind_eq, hm, Option.bind_some]

theorem run_bind {m : WriteM σ ω α} {f : α → WriteM σ ω β} {s : σ} {a : α} {b : β} {ws ws' : List ω}
    (hm : m s = some (a, ws)) (hf : f a (applyAll s ws) = some (b, ws')) :
    (m >>= f) s = some (b, ws ++ ws') := by
  rw [run_bind_eq, hm, Option.bind_some, hf, Option.map_some]

/-- A sequence ends exactly when both parts do, and makes the writes of both. -/
theorem run_bind_eq_some {m : WriteM σ ω α} {f : α → WriteM σ ω β} {s : σ} {b : β} {us : List ω} :
    (m >>= f) s = some (b, us) ↔
      ∃ a ws ws', m s = some (a, ws) ∧ f a (applyAll s ws) = some (b, ws') ∧ us = ws ++ ws' := by
  constructor
  · intro h
    rw [run_bind_eq, Option.bind_eq_some_iff] at h
    obtain ⟨⟨a, ws⟩, hm, hf⟩ := h
    obtain ⟨⟨b', ws'⟩, hf', heq⟩ := Option.map_eq_some_iff.mp hf
    cases heq
    exact ⟨a, ws, ws', hm, hf', rfl⟩
  · rintro ⟨a, ws, ws', hm, hf, rfl⟩
    exact run_bind hm hf

/-- Programs may be regrouped. -/
theorem bind_bind {γ : Type} (m : WriteM σ ω α) (f : α → WriteM σ ω β) (g : β → WriteM σ ω γ) :
    m >>= f >>= g = m >>= fun a => f a >>= g := by
  funext s
  rw [run_bind_eq, run_bind_eq, run_bind_eq]
  cases hm : m s with
  | none => rfl
  | some r =>
    rw [Option.bind_some, Option.bind_some, run_bind_eq]
    cases hf : f r.1 (applyAll s r.2) with
    | none => rfl
    | some r' => simp [Function.comp_def]

theorem pure_bind_eq (a : α) (f : α → WriteM σ ω β) : pure a >>= f = f a := by
  funext s
  rw [run_bind_some (run_pure a s)]
  simp

/-- A program that runs to its end has run its first part, and the second one after it. -/
theorem run_bind_isSome {m : WriteM σ ω α} {f : α → WriteM σ ω β} {s : σ}
    (h : ((m >>= f) s).isSome) : ∃ a ws, m s = some (a, ws) ∧ (f a (applyAll s ws)).isSome := by
  obtain ⟨⟨b, us⟩, h⟩ := Option.isSome_iff_exists.mp h
  obtain ⟨a, ws, ws', hm, hf, -⟩ := run_bind_eq_some.mp h
  exact ⟨a, ws, hm, by rw [hf]; rfl⟩

/-! ## The state after a program -/

/-- The state at the end is the one after the writes. -/
theorem exec_eq_some {m : WriteM σ ω α} {s : σ} {a : α} {ws : List ω} (h : m s = some (a, ws)) :
    m.exec s = some (a, applyAll s ws) := by
  rw [exec, h]
  rfl

/-- A program that makes no write leaves the state alone. -/
theorem exec_of_run_nil {m : WriteM σ ω α} {s : σ} {a : α} (h : m s = some (a, [])) :
    m.exec s = some (a, s) := exec_eq_some h

/-- The second part starts in the state in which the first one ends. -/
theorem exec_bind (m : WriteM σ ω α) (f : α → WriteM σ ω β) (s : σ) :
    (m >>= f).exec s = (m.exec s).bind fun r => (f r.1).exec r.2 := by
  rw [exec, run_bind_eq, exec]
  cases hm : m s with
  | none => rfl
  | some r =>
    simp only [Option.bind_some, Option.map_map, Option.map_some, exec]
    congr 1
    funext r'
    simp

@[simp] theorem exec_pure (a : α) (s : σ) : (pure a : WriteM σ ω α).exec s = some (a, s) := rfl

@[simp] theorem exec_state (s : σ) : (state : WriteM σ ω σ).exec s = some (s, s) := rfl

@[simp] theorem exec_emit (w : ω) (s : σ) :
    (emit w : WriteM σ ω Unit).exec s = some ((), WriteEffect.apply s w) := rfl

@[simp] theorem exec_emits (ws : List ω) (s : σ) :
    (emits ws : WriteM σ ω Unit).exec s = some ((), applyAll s ws) := rfl

@[simp] theorem exec_assert (p : Prop) [Decidable p] (s : σ) :
    (assert p : WriteM σ ω Unit).exec s = if p then some ((), s) else none := by
  by_cases h : p <;> simp [exec, h]

@[simp] theorem exec_lift (o : Option α) (s : σ) :
    (lift o : WriteM σ ω α).exec s = o.map fun a => (a, s) := by
  cases o <;> rfl

/-! ## Every cut of a program -/

end WriteM

/-- States `τ` that hold more than the states `σ` a program reads, such as a record of
the writes made so far. -/
class WriteGhost (τ : Type*) (σ ω : outParam Type*) [WriteEffect σ ω] [WriteEffect τ ω] where
  proj : τ → σ
  proj_apply : ∀ (c : τ) (w : ω), proj (WriteEffect.apply c w) = WriteEffect.apply (proj c) w

namespace WriteM

open WriteGhost

section Stays

variable {σ τ ω α β : Type} [WriteEffect σ ω] [WriteEffect τ ω] [WriteGhost τ σ ω]
  {R : τ → τ → Prop} {c : τ}

/-- The projection commutes with lists of writes. -/
theorem proj_applyAll (c : τ) (ws : List ω) : proj (applyAll c ws) = applyAll (proj c) ws := by
  induction ws generalizing c with
  | nil => rfl
  | cons w ws ih => rw [applyAll_cons, applyAll_cons, ih, proj_apply]

/-- Wherever the program is cut when it was started in `c`, the state is related to `c`. -/
def Stays (R : τ → τ → Prop) (m : WriteM σ ω α) (c : τ) : Prop :=
  ∀ a ws, m (proj c) = some (a, ws) → ∀ k, R c (applyAll c (ws.take k))

/-- A program that is not cut is cut at its end. -/
theorem Stays.final {m : WriteM σ ω α} (h : Stays R m c) {a : α} {ws : List ω}
    (hm : m (proj c) = some (a, ws)) : R c (applyAll c ws) := by
  have hk := h a ws hm ws.length
  rwa [List.take_length] at hk

/-- A program that first looks at the state. -/
theorem stays_state_bind {f : σ → WriteM σ ω β} (h : Stays R (f (proj c)) c) :
    Stays R (state >>= f) c := by
  intro b us hrun
  obtain ⟨a, ws, ws', hm, hf, rfl⟩ := run_bind_eq_some.mp hrun
  cases hm
  exact h b ws' hf

variable [IsPreorder τ R]

/-- A program that makes no write. -/
theorem stays_of_nil {m : WriteM σ ω α} (h : ∀ a ws, m (proj c) = some (a, ws) → ws = []) :
    Stays R m c := by
  intro a ws hm k
  rw [h a ws hm, List.take_nil, applyAll_nil]
  exact refl c

theorem stays_pure (a : α) : Stays R (pure a : WriteM σ ω α) c :=
  stays_of_nil fun _ _ h => by cases h; rfl

theorem stays_assert (p : Prop) [Decidable p] : Stays R (assert p : WriteM σ ω Unit) c := by
  apply stays_of_nil
  intro a ws h
  rw [run_assert] at h
  split at h
  · cases h; rfl
  · cases h

theorem stays_lift (o : Option α) : Stays R (lift o : WriteM σ ω α) c := by
  apply stays_of_nil
  intro a ws h
  obtain ⟨b, -, heq⟩ := Option.map_eq_some_iff.mp h
  cases heq
  rfl

/-- One write. -/
theorem stays_emit {w : ω} (h : R c (WriteEffect.apply c w)) :
    Stays R (emit w : WriteM σ ω Unit) c := by
  intro a ws hm k
  cases hm
  cases k with
  | zero => exact refl c
  | succ k => simpa using h

/-- The relation of the first part, and then that of the second, from where it starts. -/
theorem stays_bind {m : WriteM σ ω α} {f : α → WriteM σ ω β} (hm : Stays R m c)
    (hf : ∀ a ws, m (proj c) = some (a, ws) → Stays R (f a) (applyAll c ws)) :
    Stays R (m >>= f) c := by
  intro b us hrun k
  obtain ⟨a, ws, ws', hma, hfa, rfl⟩ := run_bind_eq_some.mp hrun
  rw [← proj_applyAll] at hfa
  -- a cut in the second part is reached through the state between the parts
  rw [List.take_append, applyAll_append]
  rcases le_or_gt ws.length k with hk | hk
  · rw [List.take_of_length_le hk]
    exact IsTrans.trans _ _ _ (hm.final hma) (hf a ws hma b ws' hfa _)
  · rw [Nat.sub_eq_zero_of_le hk.le, List.take_zero, applyAll_nil]
    exact hm a ws hma k

/-- The value is there when the program goes on. -/
theorem stays_lift_bind {o : Option α} {f : α → WriteM σ ω β}
    (h : ∀ a, o = some a → Stays R (f a) c) : Stays R (lift o >>= f) c := by
  refine stays_bind (stays_lift o) fun a ws hm => ?_
  obtain ⟨b, hb, heq⟩ := Option.map_eq_some_iff.mp hm
  cases heq
  exact h _ hb

/-- The assertion holds when the program goes on. -/
theorem stays_assert_bind {p : Prop} [Decidable p] {f : Unit → WriteM σ ω β}
    (h : p → Stays R (f ()) c) : Stays R (assert p >>= f) c := by
  refine stays_bind (stays_assert p) fun a ws hm => ?_
  rw [run_assert] at hm
  split at hm
  · next hp =>
    cases hm
    exact h hp
  · cases hm

/-- A write in front of a program. -/
theorem stays_emit_bind {w : ω} {f : Unit → WriteM σ ω β} (h : R c (WriteEffect.apply c w))
    (hf : Stays R (f ()) (WriteEffect.apply c w)) : Stays R (emit w >>= f) c := by
  refine stays_bind (stays_emit h) fun a ws hm => ?_
  cases hm
  exact hf

/-- Sequencing with a second part that is harmless from every state. -/
theorem stays_then {m : WriteM σ ω α} {f : α → WriteM σ ω β} (hm : Stays R m c)
    (hf : ∀ a c', Stays R (f a) c') : Stays R (m >>= f) c :=
  stays_bind hm fun a ws _ => hf a (applyAll c ws)

end Stays

section Wpc

variable {σ τ ω α β : Type} [WriteEffect σ ω] [WriteEffect τ ω] [WriteGhost τ σ ω]
  {Q : α → τ → Prop} {S : β → τ → Prop} {C : τ → Prop} {c : τ}

/-- If the program runs to its end from `c`, then its result and the last state meet `Q`,
and `C` holds wherever it is cut. -/
def Wpc (Q : α → τ → Prop) (C : τ → Prop) (m : WriteM σ ω α) (c : τ) : Prop :=
  ∀ a ws, m (proj c) = some (a, ws) → Q a (applyAll c ws) ∧ ∀ k, C (applyAll c (ws.take k))

/-- A relation to the start as a condition on the end and on every cut. -/
theorem Stays.wpc {R : τ → τ → Prop} {m : WriteM σ ω α} (h : Stays R m c)
    (hC : ∀ c', R c c' → C c')
    (hQ : ∀ a ws, m (proj c) = some (a, ws) → R c (applyAll c ws) → Q a (applyAll c ws)) :
    Wpc Q C m c :=
  fun a ws hm => ⟨hQ a ws hm (h.final hm), fun k => hC _ (h a ws hm k)⟩

/-- The condition on the end can be weakened. -/
theorem Wpc.post_mono {Q' : α → τ → Prop} {m : WriteM σ ω α} (h : Wpc Q C m c)
    (hQ : ∀ a c', Q a c' → Q' a c') : Wpc Q' C m c :=
  fun a ws hm => ⟨hQ a _ (h a ws hm).1, (h a ws hm).2⟩

/-- So can the condition on the cuts. -/
theorem Wpc.cut_mono {C' : τ → Prop} {m : WriteM σ ω α} (h : Wpc Q C m c)
    (hC : ∀ c', C c' → C' c') :
    Wpc Q C' m c :=
  fun a ws hm => ⟨(h a ws hm).1, fun k => hC _ ((h a ws hm).2 k)⟩

/-- The rule of sequential composition. -/
theorem wpc_bind {m : WriteM σ ω α} {f : α → WriteM σ ω β}
    (h : Wpc (fun a => Wpc S C (f a)) C m c) : Wpc S C (m >>= f) c := by
  intro b us hrun
  obtain ⟨a, ws, ws', hma, hfa, rfl⟩ := run_bind_eq_some.mp hrun
  obtain ⟨hf, hcut⟩ := h a ws hma
  rw [← proj_applyAll] at hfa
  obtain ⟨hS, hcut'⟩ := hf b ws' hfa
  rw [applyAll_append]
  refine ⟨hS, fun k => ?_⟩
  rw [List.take_append, applyAll_append]
  rcases le_or_gt ws.length k with hk | hk
  · rw [List.take_of_length_le hk]
    exact hcut' _
  · rw [Nat.sub_eq_zero_of_le hk.le, List.take_zero, applyAll_nil]
    exact hcut k

theorem wpc_pure {a : α} (hC : C c) (hQ : Q a c) : Wpc Q C (pure a : WriteM σ ω α) c := by
  intro b ws h
  cases h
  exact ⟨hQ, fun k => by rwa [List.take_nil]⟩

theorem wpc_state_bind {f : σ → WriteM σ ω β} (h : Wpc S C (f (proj c)) c) :
    Wpc S C (state >>= f) c := by
  intro b us hrun
  obtain ⟨a, ws, ws', hm, hf, rfl⟩ := run_bind_eq_some.mp hrun
  cases hm
  exact h b ws' hf

/-- The rule of a value that may be missing. -/
theorem wpc_lift_bind {o : Option α} {f : α → WriteM σ ω β}
    (h : ∀ a, o = some a → Wpc S C (f a) c) : Wpc S C (lift o >>= f) c := by
  intro b us hrun
  obtain ⟨a, ws, ws', hm, hf, rfl⟩ := run_bind_eq_some.mp hrun
  obtain ⟨a', ha, heq⟩ := Option.map_eq_some_iff.mp hm
  cases heq
  exact h _ ha b ws' hf

/-- The rule of assertions. -/
theorem wpc_assert_bind {p : Prop} [Decidable p] {f : Unit → WriteM σ ω β}
    (h : p → Wpc S C (f ()) c) : Wpc S C (assert p >>= f) c := by
  intro b us hrun
  obtain ⟨a, ws, ws', hm, hf, rfl⟩ := run_bind_eq_some.mp hrun
  rw [run_assert] at hm
  split at hm
  · next hp =>
    cases hm
    exact h hp b ws' hf
  · cases hm

theorem wpc_emit {w : ω} {Q : Unit → τ → Prop} (hC : C c) (hC' : C (WriteEffect.apply c w))
    (hQ : Q () (WriteEffect.apply c w)) : Wpc Q C (emit w : WriteM σ ω Unit) c := by
  intro a ws h
  cases h
  refine ⟨hQ, fun k => ?_⟩
  cases k with
  | zero => exact hC
  | succ k => simpa using hC'

theorem wpc_lift {o : Option α} (hC : C c) (hQ : ∀ a, o = some a → Q a c) :
    Wpc Q C (lift o : WriteM σ ω α) c := by
  intro a ws h
  obtain ⟨b, hb, heq⟩ := Option.map_eq_some_iff.mp h
  cases heq
  exact ⟨hQ _ hb, fun k => by rwa [List.take_nil]⟩

/-- The rule of one write: the state before it is one of the cuts. -/
theorem wpc_emit_bind {w : ω} {f : Unit → WriteM σ ω β} (hC : C c)
    (hf : Wpc S C (f ()) (WriteEffect.apply c w)) : Wpc S C (emit w >>= f) c := by
  intro b us hrun
  obtain ⟨a, ws, ws', hm, hrest, rfl⟩ := run_bind_eq_some.mp hrun
  cases hm
  rw [← proj_applyAll] at hrest
  obtain ⟨hS, hcut⟩ := hf b ws' hrest
  refine ⟨hS, fun k => ?_⟩
  cases k with
  | zero => exact hC
  | succ k => exact hcut k

/-- A write that keeps an invariant, when the rest needs no more than that. -/
theorem wpc_keep {w : ω} {f : Unit → WriteM σ ω β} (hC : C c) (hC' : C (WriteEffect.apply c w))
    (hf : ∀ c', C c' → Wpc S C (f ()) c') : Wpc S C (emit w >>= f) c :=
  wpc_emit_bind hC (hf _ hC')

/-- Writes that keep an invariant in every state. -/
theorem wpc_emits {ws : List ω} (h : ∀ w ∈ ws, ∀ c, C c → C (WriteEffect.apply c w)) (hC : C c) :
    Wpc (fun _ => C) C (emits ws : WriteM σ ω Unit) c := by
  intro a us hm
  cases hm
  have hcut := applyAll_take_of_forall h hC
  refine ⟨?_, hcut⟩
  have hall := hcut ws.length
  rwa [List.take_length] at hall

/-- What is known of every run may be added to what holds at the end. -/
theorem Wpc.and_run {P : α → τ → Prop} {m : WriteM σ ω α} (h : Wpc Q C m c)
    (hP : ∀ a ws, m (proj c) = some (a, ws) → P a (applyAll c ws)) :
    Wpc (fun a c' => Q a c' ∧ P a c') C m c :=
  fun a ws hm => ⟨⟨(h a ws hm).1, hP a ws hm⟩, (h a ws hm).2⟩

/-- A part of a program that keeps an invariant. -/
theorem Wpc.then {P : α → τ → Prop} {m : WriteM σ ω α} {f : α → WriteM σ ω β}
    (hm : Wpc (fun a c' => C c' ∧ P a c') C m c)
    (hf : ∀ a c', C c' → P a c' → Wpc S C (f a) c') : Wpc S C (m >>= f) c :=
  wpc_bind (hm.post_mono fun a c' h => hf a c' h.1 h.2)

/-- A part of a program that keeps an invariant and whose result does not matter. -/
theorem Wpc.seq {m : WriteM σ ω α} {f : α → WriteM σ ω β} (hm : Wpc (fun _ => C) C m c)
    (hf : ∀ a c', C c' → Wpc S C (f a) c') : Wpc S C (m >>= f) c :=
  wpc_bind (hm.post_mono fun a c' h => hf a c' h)

theorem Wpc.stays {R : τ → τ → Prop} {m : WriteM σ ω α} (h : Wpc (fun _ => R c) (R c) m c) :
    Stays R m c := fun a ws hm k => (h a ws hm).2 k

end Wpc

end WriteM
