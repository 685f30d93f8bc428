/-
# Runs of a step function

A system is given by a partial step function: an action either is undefined or
returns a result and the next state.  A run does a list of actions in order.

`Along` says that every step of a run meets a condition in the state it is taken
in; the theorems lift a statement about one step to whole runs: an invariant that is
kept (`runSteps_inv_of_some`), what every single step does (`eachStep_iff_along`), a map of the
states that commutes with the steps (`runSteps_map`), and a simulation by a total step
function on abstract states with the same results (`runSteps_sim`).
-/
import Mathlib

variable {σ τ α ρ : Type}

/-- Do the actions one after the other and collect the results. -/
def runSteps (step : σ → α → Option (ρ × σ)) : List α → σ → Option (List ρ × σ)
  | [], s => some ([], s)
  | a :: as, s =>
    (step s a).bind fun x => (runSteps step as x.2).map fun y => (x.1 :: y.1, y.2)

/-- Every step of the run meets the condition `P`. -/
def Along (step : σ → α → Option (ρ × σ)) (P : σ → α → Prop) : List α → σ → Prop
  | [], _ => True
  | a :: as, s => P s a ∧ ∀ r s', step s a = some (r, s') → Along step P as s'

/-- Do the actions on abstract states. -/
def runSpec (spec : τ → α → ρ × τ) : List α → τ → List ρ × τ
  | [], t => ([], t)
  | a :: as, t => ((spec t a).1 :: (runSpec spec as (spec t a).2).1,
    (runSpec spec as (spec t a).2).2)

/-- Every step of the run meets the condition `P`, which may also depend on the
abstract state. -/
def AlongSim (step : σ → α → Option (ρ × σ)) (spec : τ → α → ρ × τ) (P : σ → τ → α → Prop) :
    List α → σ → τ → Prop
  | [], _, _ => True
  | a :: as, s, t =>
    P s t a ∧ ∀ r s', step s a = some (r, s') → AlongSim step spec P as s' (spec t a).2

/-- Every step of a run on abstract states meets the condition `P`. -/
def AlongSpec (spec : τ → α → ρ × τ) (P : τ → α → Prop) : List α → τ → Prop
  | [], _ => True
  | a :: as, t => P t a ∧ AlongSpec spec P as (spec t a).2

/-- Every step of the run, with its result and the states before and after it, meets `T`. -/
def EachStep (step : σ → α → Option (ρ × σ)) (T : σ → α → ρ → σ → Prop) : List α → σ → Prop
  | [], _ => True
  | a :: as, s => ∀ r s', step s a = some (r, s') → T s a r s' ∧ EachStep step T as s'

/-- The state after a step, and the same state where the step is undefined. -/
def nextState (step : σ → α → Option (ρ × σ)) (s : σ) (a : α) : σ :=
  ((step s a).map Prod.snd).getD s

section Runs

variable {step : σ → α → Option (ρ × σ)} {P : σ → α → Prop} {Inv : σ → Prop}

@[simp] theorem runSteps_nil (s : σ) : runSteps step [] s = some ([], s) := rfl

theorem runSteps_cons {a : α} {as : List α} {s s' : σ} {r : ρ} (h : step s a = some (r, s')) :
    runSteps step (a :: as) s = (runSteps step as s').map fun y => (r :: y.1, y.2) := by
  rw [runSteps, h, Option.bind_some]

theorem runSteps_cons_eq_some {a : α} {as : List α} {s s'' : σ} {rs : List ρ} :
    runSteps step (a :: as) s = some (rs, s'') ↔
      ∃ r s' rs', step s a = some (r, s') ∧ runSteps step as s' = some (rs', s'') ∧
      rs = r :: rs' := by
  rw [runSteps, Option.bind_eq_some_iff]
  constructor
  · rintro ⟨⟨r, s'⟩, hstep, hrest⟩
    obtain ⟨⟨rs', s₁⟩, hrun, heq⟩ := Option.map_eq_some_iff.mp hrest
    cases heq
    exact ⟨r, s', rs', hstep, hrun, rfl⟩
  · rintro ⟨r, s', rs', hstep, hrun, rfl⟩
    exact ⟨(r, s'), hstep, by rw [hrun]; rfl⟩

/-- A run of two parts goes through the state between them. -/
theorem runSteps_append_eq_some {as bs : List α} {s s'' : σ} {rs : List ρ} :
    runSteps step (as ++ bs) s = some (rs, s'') ↔
      ∃ rs₁ s' rs₂, runSteps step as s = some (rs₁, s') ∧ runSteps step bs s' = some (rs₂, s'') ∧
        rs = rs₁ ++ rs₂ := by
  induction as generalizing s rs with
  | nil =>
    constructor
    · intro h
      exact ⟨[], s, rs, rfl, h, rfl⟩
    · rintro ⟨rs₁, s', rs₂, h₁, h₂, rfl⟩
      cases h₁
      exact h₂
  | cons a as ih =>
    rw [List.cons_append, runSteps_cons_eq_some]
    constructor
    · rintro ⟨r, s₁, rs', ha, hrest, rfl⟩
      obtain ⟨rs₁, s', rs₂, h₁, h₂, rfl⟩ := ih.mp hrest
      exact ⟨r :: rs₁, s', rs₂, runSteps_cons_eq_some.mpr ⟨r, s₁, rs₁, ha, h₁, rfl⟩, h₂, rfl⟩
    · rintro ⟨rs₁, s', rs₂, h₁, h₂, rfl⟩
      obtain ⟨r, s₁, rs', ha, hrest, rfl⟩ := runSteps_cons_eq_some.mp h₁
      exact ⟨r, s₁, rs' ++ rs₂, ha, ih.mpr ⟨rs', s', rs₂, hrest, h₂, rfl⟩, rfl⟩

theorem step_nextState {s : σ} {a : α} (h : (step s a).isSome = true) :
    ∃ r, step s a = some (r, nextState step s a) := by
  obtain ⟨⟨r, s'⟩, hs⟩ := Option.isSome_iff_exists.mp h
  exact ⟨r, by rw [nextState, hs]; rfl⟩

theorem Along.next {a : α} {as : List α} {s : σ} (h : (step s a).isSome = true) (hP : P s a)
    (hrest : Along step P as (nextState step s a)) : Along step P (a :: as) s := by
  obtain ⟨r, hs⟩ := step_nextState h
  refine ⟨hP, ?_⟩
  intro r₁ s₁ h₁
  rw [hs] at h₁
  cases h₁
  exact hrest

/-- A condition that can be checked at every state can be checked along a run. -/
instance decidableAlong [∀ s a, Decidable (P s a)] :
    (as : List α) → (s : σ) → Decidable (Along step P as s)
  | [], _ => isTrue True.intro
  | a :: as, s =>
    have := decidableAlong as
    decidable_of_iff (P s a ∧ ∀ x ∈ step s a, Along step P as x.2)
      (and_congr_right fun _ => Prod.forall)

@[inherit_doc decidableAlong]
instance decidableAlongSim {spec : τ → α → ρ × τ} {P : σ → τ → α → Prop}
    [∀ s t a, Decidable (P s t a)] :
    (as : List α) → (s : σ) → (t : τ) → Decidable (AlongSim step spec P as s t)
  | [], _, _ => isTrue True.intro
  | a :: as, s, t =>
    have (s' : σ) (t' : τ) : Decidable (AlongSim step spec P as s' t') := decidableAlongSim as s' t'
    decidable_of_iff (P s t a ∧ ∀ x ∈ step s a, AlongSim step spec P as x.2 (spec t a).2)
      (and_congr_right fun _ => Prod.forall)

/-- The condition on a run, split at a state it goes through. -/
theorem Along.append {as bs : List α} {s s' : σ} {rs : List ρ} (h : Along step P (as ++ bs) s)
    (hrun : runSteps step as s = some (rs, s')) : Along step P as s ∧ Along step P bs s' := by
  induction as generalizing s rs with
  | nil =>
    cases hrun
    exact ⟨trivial, h⟩
  | cons a as ih =>
    obtain ⟨hPa, hrest⟩ := h
    obtain ⟨r, s₁, rs', ha, hrun', -⟩ := runSteps_cons_eq_some.mp hrun
    refine ⟨⟨hPa, ?_⟩, (ih (hrest r s₁ ha) hrun').2⟩
    intro r₂ s₂ ha₂
    rw [ha] at ha₂
    cases ha₂
    exact (ih (hrest r s₁ ha) hrun').1

/-- What a step that meets `P` does, all steps of a run do whose steps meet `P`. -/
theorem eachStep_of_along {T : σ → α → ρ → σ → Prop} {I : σ → Prop}
    (hstep : ∀ {s a r s'}, I s → P s a → step s a = some (r, s') → T s a r s' ∧ I s')
    {as : List α} {s : σ} (hinv : I s) (hP : Along step P as s) : EachStep step T as s := by
  induction as generalizing s with
  | nil => trivial
  | cons a as ih =>
    intro r s' ha
    obtain ⟨hT, hinv'⟩ := hstep hinv hP.1 ha
    exact ⟨hT, ih hinv' (hP.2 r s' ha)⟩

/-- When a step meets `T` exactly if it meets `P`, and then keeps the invariant, all steps of a
run meet `T` exactly if they meet `P`. -/
theorem eachStep_iff_along {T : σ → α → ρ → σ → Prop} {I : σ → Prop}
    (hstep : ∀ {s a r s'}, I s → step s a = some (r, s') →
      (T s a r s' ↔ P s a) ∧ (P s a → I s'))
    {as : List α} {s : σ} (hinv : I s) {rs : List ρ} {s' : σ}
    (hrun : runSteps step as s = some (rs, s')) : EachStep step T as s ↔ Along step P as s := by
  refine ⟨?_, eachStep_of_along ?_ hinv⟩
  · intro hT
    induction as generalizing s rs with
    | nil => trivial
    | cons a as ih =>
      obtain ⟨r, s₁, rs', ha, hrun', -⟩ := runSteps_cons_eq_some.mp hrun
      obtain ⟨hTa, hrest⟩ := hT r s₁ ha
      obtain ⟨hiff, hkeep⟩ := hstep hinv ha
      refine ⟨hiff.mp hTa, ?_⟩
      intro r₂ s₂ ha₂
      rw [ha] at ha₂
      cases ha₂
      exact ih (hkeep (hiff.mp hTa)) hrun' hrest
  · intro s a r s' hinv hPa ha
    obtain ⟨hiff, hkeep⟩ := hstep hinv ha
    exact ⟨hiff.mpr hPa, hkeep hPa⟩

/-- A condition on the actions alone may be added. -/
theorem along_of_forall (h : ∀ s a, P s a) (as : List α) (s : σ) : Along step P as s := by
  induction as generalizing s with
  | nil => trivial
  | cons a as ih => exact ⟨h s a, fun _ s' _ => ih s'⟩

theorem Along.and_forall {Q : α → Prop} {as : List α} {s : σ} (h : Along step P as s)
    (hQ : ∀ a ∈ as, Q a) : Along step (fun s a => P s a ∧ Q a) as s := by
  induction as generalizing s with
  | nil => exact trivial
  | cons a as ih =>
    refine ⟨⟨h.1, hQ a List.mem_cons_self⟩, ?_⟩
    intro r s' ha
    exact ih (h.2 r s' ha) fun a' ha' => hQ a' (List.mem_cons_of_mem _ ha')

/-- A condition that does not depend on the abstract state. -/
theorem Along.toSim {spec : τ → α → ρ × τ} {as : List α} {s : σ} {t : τ} (h : Along step P as s) :
    AlongSim step spec (fun s _ a => P s a) as s t := by
  induction as generalizing s t with
  | nil => exact trivial
  | cons a as ih => exact ⟨h.1, fun r s' ha => ih (h.2 r s' ha)⟩

/-- What every step keeps that does not get stuck, a run keeps. -/
theorem runSteps_inv_of_some
    (hstep : ∀ {s a r s'}, Inv s → P s a → step s a = some (r, s') → Inv s') {as : List α} {s : σ}
    (hs : Inv s) (hP : Along step P as s) {rs : List ρ} {s' : σ}
    (hrun : runSteps step as s = some (rs, s')) : Inv s' := by
  induction as generalizing s rs with
  | nil =>
    cases hrun
    exact hs
  | cons a as ih =>
    obtain ⟨hPa, hrest⟩ := hP
    obtain ⟨r, s₁, rs', ha, hrun', -⟩ := runSteps_cons_eq_some.mp hrun
    exact ih (hstep hs hPa ha) (hrest r s₁ ha) hrun'

/-- What every step keeps, a run keeps, and when the steps are steps of a second system on a
part of the state, so is the run. -/
theorem runSteps_proj {step' : τ → α → Option (ρ × τ)} {proj : σ → τ}
    (hstep : ∀ {s a r s'}, Inv s → P s a → step s a = some (r, s') →
      step' (proj s) a = some (r, proj s') ∧ Inv s') {as : List α} {s : σ} (hs : Inv s)
    (hP : Along step P as s) {rs : List ρ} {s' : σ} (hrun : runSteps step as s = some (rs, s')) :
    runSteps step' as (proj s) = some (rs, proj s') ∧ Inv s' := by
  induction as generalizing s rs with
  | nil =>
    cases hrun
    exact ⟨rfl, hs⟩
  | cons a as ih =>
    obtain ⟨hPa, hrest⟩ := hP
    obtain ⟨r, s₁, rs', ha, hrun', rfl⟩ := runSteps_cons_eq_some.mp hrun
    obtain ⟨ha', hs₁⟩ := hstep hs hPa ha
    obtain ⟨hrun₁, hs'⟩ := ih hs₁ (hrest r s₁ ha) hrun'
    exact ⟨by rw [runSteps_cons ha', hrun₁]; rfl, hs'⟩

/-- When a map of the states commutes with every step, defined or not, it does so with every
run. -/
theorem runSteps_map {step' : τ → α → Option (ρ × τ)} {f : σ → τ}
    (hstep : ∀ s a, (step s a).map (Prod.map id f) = step' (f s) a) (as : List α) (s : σ) :
    (runSteps step as s).map (Prod.map id f) = runSteps step' as (f s) := by
  induction as generalizing s with
  | nil => rfl
  | cons a as ih =>
    rw [runSteps, runSteps, ← hstep]
    cases step s a with
    | none => rfl
    | some x =>
      simp only [Option.bind_some, Option.map_some, Prod.map_snd, Prod.map_fst, id, ← ih,
        Option.map_map]
      rfl

/-- A simulation step by step is a simulation of whole runs. -/
theorem runSteps_sim {spec : τ → α → ρ × τ} {P : σ → τ → α → Prop} {R : σ → τ → Prop}
    (hstep : ∀ {s t a}, R s t → P s t a →
      ∃ s', step s a = some ((spec t a).1, s') ∧ R s' (spec t a).2)
    {as : List α} {s : σ} {t : τ} (hR : R s t) (hP : AlongSim step spec P as s t) :
    ∃ s', runSteps step as s = some ((runSpec spec as t).1, s') ∧ R s' (runSpec spec as t).2 := by
  induction as generalizing s t with
  | nil => exact ⟨s, rfl, hR⟩
  | cons a as ih =>
    obtain ⟨hPa, hrest⟩ := hP
    obtain ⟨s', ha, hR'⟩ := hstep hR hPa
    obtain ⟨s'', hrun, hR''⟩ := ih hR' (hrest _ s' ha)
    exact ⟨s'', by rw [runSteps_cons ha, hrun]; rfl, hR''⟩

instance decidableAlongSpec {spec : τ → α → ρ × τ} {P : τ → α → Prop} [∀ t a, Decidable (P t a)] :
    (as : List α) → (t : τ) → Decidable (AlongSpec spec P as t)
  | [], _ => isTrue True.intro
  | a :: as, t =>
    have : Decidable (AlongSpec spec P as (spec t a).2) := decidableAlongSpec as _
    inferInstanceAs (Decidable (P t a ∧ AlongSpec spec P as (spec t a).2))

/-- Two systems whose steps are always defined give the same results when their steps do. -/
theorem runSpec_sim {spec : σ → α → ρ × σ} {spec' : τ → α → ρ × τ} {P : τ → α → Prop}
    {R : σ → τ → Prop}
    (hstep : ∀ {s t a}, R s t → P t a →
      (spec s a).1 = (spec' t a).1 ∧ R (spec s a).2 (spec' t a).2)
    {as : List α} {s : σ} {t : τ} (hR : R s t) (hP : AlongSpec spec' P as t) :
    (runSpec spec as s).1 = (runSpec spec' as t).1 ∧
      R (runSpec spec as s).2 (runSpec spec' as t).2 := by
  induction as generalizing s t with
  | nil => exact ⟨rfl, hR⟩
  | cons a as ih =>
    obtain ⟨hres, hR'⟩ := hstep hR hP.1
    obtain ⟨hrest, hend⟩ := ih hR' hP.2
    exact ⟨by rw [runSpec, runSpec, hres, hrest], hend⟩

/-- What every step of a simulated run does. -/
theorem eachStep_of_sim {spec : τ → α → ρ × τ} {P : σ → τ → α → Prop} {R : σ → τ → Prop}
    {T : σ → α → ρ → σ → Prop}
    (hstep : ∀ {s t a r s'}, R s t → P s t a → step s a = some (r, s') →
      T s a r s' ∧ R s' (spec t a).2)
    {as : List α} {s : σ} {t : τ} (hR : R s t) (hP : AlongSim step spec P as s t) :
    EachStep step T as s := by
  induction as generalizing s t with
  | nil => trivial
  | cons a as ih =>
    intro r s' ha
    obtain ⟨hT, hR'⟩ := hstep hR hP.1 ha
    exact ⟨hT, ih hR' (hP.2 r s' ha)⟩

end Runs
