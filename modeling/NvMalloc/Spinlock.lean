/-
# The spinlock of a chunk

`gt_actual_spinlock` tests the lock word by a plain read and exchanges it with 1 when the read
gave 0; it is left when the exchange gave 0.  `gt_spin_unlock` tests the word and stores 0.  The
threads take these steps in any order.

The word does not say who holds the lock, so an unlock takes it from whoever has it.  A thread
that unlocks once for each lock it took only ever takes its own: then the word is not 0 as long
as a thread has the lock, and at most one thread has it.
-/
import NvMalloc.Runs

open Function

/-! ## The code -/

/-- The step a thread takes next: none of these functions, the test of the loop, the test of the
word and the exchange of `gt_actual_spinlock`, the test and the store of `gt_spin_unlock`. -/
inductive SpinPc
  | outside
  | whileTest
  | wordTest
  | exchange
  | unlockTest
  | unlockStore
  deriving DecidableEq, Repr

/-- What a thread did last: no `gt_spin_lock` of it has returned; one has returned; it called
`gt_spin_unlock` after that; the store of that call is done. -/
inductive SpinTurn
  | never
  | held
  | unlocking
  | released
  deriving DecidableEq, Repr

/-- A thread, with its local `sp_val`. -/
structure SpinThread where
  pc : SpinPc := .outside
  spVal : ℤ := 1
  turn : SpinTurn := .never
  deriving DecidableEq, Repr

/-- What a thread does: it calls one of the functions, or takes its next step in it. -/
inductive SpinAction
  | gtSpinLock
  | gtSpinUnlock
  | next
  deriving DecidableEq, Repr

/-- One action of a thread, with the lock word before and after it. -/
def spinThreadStep (locked : ℤ) (th : SpinThread) : SpinAction → Option (ℤ × SpinThread)
  | .gtSpinLock =>
    if th.pc = .outside then some (locked, { th with pc := .whileTest, spVal := 1 }) else none
  | .gtSpinUnlock =>
    if th.pc = .outside then
      some (locked, { th with
        pc := .unlockTest, turn := if th.turn = .held then .unlocking else th.turn })
    else none
  | .next =>
    match th.pc with
    | .outside => none
    | .whileTest =>
      -- `gt_spin_lock` returns
      if th.spVal = 0 then some (locked, { th with pc := .outside, turn := .held })
      else some (locked, { th with pc := .wordTest })
    | .wordTest =>
      if locked = 0 then some (locked, { th with pc := .exchange })
      else some (locked, { th with pc := .whileTest })
    | .exchange => some (1, { th with pc := .whileTest, spVal := locked })
    | .unlockTest =>
      if locked = 0 then some (locked, { th with pc := .outside })
      else some (locked, { th with pc := .unlockStore })
    | .unlockStore => some (0, { th with pc := .outside, turn := .released })

section Threads

variable {ι : Type} [DecidableEq ι]

/-- The lock word and the threads. -/
structure SpinState (ι : Type) where
  locked : ℤ
  thread : ι → SpinThread

/-- The state after `gt_spinlock_init`. -/
def gtSpinlockInit : SpinState ι := ⟨0, fun _ => {}⟩

/-- An action of one of the threads. -/
def spinStep (s : SpinState ι) (a : ι × SpinAction) : Option (Unit × SpinState ι) :=
  (spinThreadStep s.locked (s.thread a.1) a.2).map fun r =>
    ((), ⟨r.1, update s.thread a.1 r.2⟩)

/-- The thread is between a returned `gt_spin_lock` and the store of its `gt_spin_unlock`. -/
def SpinThread.Inside (th : SpinThread) : Prop := th.turn = .held ∨ th.turn = .unlocking

instance (th : SpinThread) : Decidable th.Inside := instDecidableOr

/-- At most one thread has the lock. -/
def MutualExclusion (s : SpinState ι) : Prop :=
  ∀ t u, (s.thread t).Inside → (s.thread u).Inside → t = u

/-- `gt_spin_unlock` is called only between a successful `gt_spin_lock` of the thread and its
next one. -/
def UnlocksBetween (s : SpinState ι) : ι × SpinAction → Prop
  | (t, .gtSpinUnlock) => (s.thread t).turn ≠ .never
  | _ => True

/-- It is called at most once there. -/
def UnlocksOnce (s : SpinState ι) : ι × SpinAction → Prop
  | (t, .gtSpinUnlock) => (s.thread t).turn = .held
  | _ => True

instance (s : SpinState ι) (a : ι × SpinAction) : Decidable (UnlocksBetween s a) :=
  match a with
  | (_, .gtSpinUnlock) => inferInstanceAs (Decidable (_ ≠ _))
  | (_, .gtSpinLock) => inferInstanceAs (Decidable True)
  | (_, .next) => inferInstanceAs (Decidable True)

instance (s : SpinState ι) (a : ι × SpinAction) : Decidable (UnlocksOnce s a) :=
  match a with
  | (_, .gtSpinUnlock) => inferInstanceAs (Decidable (_ = _))
  | (_, .gtSpinLock) => inferInstanceAs (Decidable True)
  | (_, .next) => inferInstanceAs (Decidable True)

/-! ## Who has the lock -/

/-- The thread has the lock, or its exchange has just succeeded. -/
def SpinThread.Owns (th : SpinThread) : Prop := th.Inside ∨ th.pc = .whileTest ∧ th.spVal = 0

/-- What the local data of a thread satisfy. -/
structure SpinThread.Ok (th : SpinThread) : Prop where
  spinning : th.pc = .wordTest ∨ th.pc = .exchange → th.spVal ≠ 0
  unlocking : th.pc = .unlockTest ∨ th.pc = .unlockStore → th.turn = .unlocking

/-- What an action of one thread does to the lock: nothing, the thread gets it while the word is
0, or the thread had it and gives it up. -/
def LockEffect (w w' : ℤ) (th th' : SpinThread) : Prop :=
  (th'.Owns → th.Owns) ∧ (w' = 0 → w = 0) ∨ w = 0 ∧ w' ≠ 0 ∨ th.Owns ∧ ¬ th'.Owns

/-- An action that leaves the word alone, and whether the thread has the lock. -/
theorem lockEffect_of_owns {w : ℤ} {th th' : SpinThread} (h : th'.Owns → th.Owns) :
    LockEffect w w th th' := .inl ⟨h, id⟩

theorem spinThreadStep_effect {w w' : ℤ} {th th' : SpinThread} {a : SpinAction}
    (hstep : spinThreadStep w th a = some (w', th')) (hok : th.Ok)
    (honce : a = .gtSpinUnlock → th.turn = .held) (hword : th.Owns → w ≠ 0) :
    th'.Ok ∧ LockEffect w w' th th' := by
  obtain ⟨pc, spVal, turn⟩ := th
  cases a with
  | gtSpinLock =>
    simp only [spinThreadStep, Option.ite_none_right_eq_some, Option.some.injEq,
      Prod.mk.injEq] at hstep
    obtain ⟨-, rfl, rfl⟩ := hstep
    refine ⟨⟨by simp, by simp⟩, lockEffect_of_owns ?_⟩
    rintro (h | ⟨-, h⟩)
    · exact .inl h
    · exact absurd h one_ne_zero
  | gtSpinUnlock =>
    obtain rfl : turn = .held := honce rfl
    simp only [spinThreadStep, Option.ite_none_right_eq_some, Option.some.injEq,
      Prod.mk.injEq] at hstep
    obtain ⟨-, rfl, rfl⟩ := hstep
    exact ⟨⟨by simp, by simp⟩, lockEffect_of_owns fun _ => .inl (.inl rfl)⟩
  | next =>
    cases pc with
    | outside => cases hstep
    | whileTest =>
      simp only [spinThreadStep] at hstep
      split at hstep
      · next hzero =>
        -- the exchange succeeded before, and the call returns
        cases hstep
        exact ⟨⟨by simp, by simp⟩, lockEffect_of_owns fun _ => .inr ⟨rfl, hzero⟩⟩
      · next hne =>
        cases hstep
        refine ⟨⟨fun _ => hne, by simp⟩, lockEffect_of_owns ?_⟩
        rintro (h | ⟨h, -⟩)
        · exact .inl h
        · cases h
    | wordTest =>
      have hne : spVal ≠ 0 := hok.spinning (.inl rfl)
      simp only [spinThreadStep] at hstep
      split at hstep
      · cases hstep
        refine ⟨⟨fun _ => hne, by simp⟩, lockEffect_of_owns ?_⟩
        rintro (h | ⟨h, -⟩)
        · exact .inl h
        · cases h
      · -- back in the loop with the value of the last exchange, which is not 0
        cases hstep
        refine ⟨⟨by simp, by simp⟩, lockEffect_of_owns ?_⟩
        rintro (h | ⟨-, h⟩)
        · exact .inl h
        · exact absurd h hne
    | exchange =>
      cases hstep
      refine ⟨⟨by simp, by simp⟩, ?_⟩
      by_cases hw : w = 0
      · exact .inr (.inl ⟨hw, one_ne_zero⟩)
      · refine .inl ⟨?_, fun h => absurd h one_ne_zero⟩
        rintro (h | ⟨-, h⟩)
        · exact .inl h
        · exact absurd h hw
    | unlockTest =>
      obtain rfl : turn = .unlocking := hok.unlocking (.inl rfl)
      have hw : w ≠ 0 := hword (.inl (.inr rfl))
      simp only [spinThreadStep, if_neg hw] at hstep
      cases hstep
      exact ⟨⟨by simp, by simp⟩, lockEffect_of_owns fun _ => .inl (.inr rfl)⟩
    | unlockStore =>
      obtain rfl : turn = .unlocking := hok.unlocking (.inr rfl)
      cases hstep
      refine ⟨⟨by simp, by simp⟩, .inr (.inr ⟨.inl (.inr rfl), ?_⟩)⟩
      rintro ((h | h) | ⟨h, -⟩) <;> cases h

/-- At most one thread has the lock, and only while the word is not 0. -/
structure SpinInv (s : SpinState ι) : Prop where
  threads : ∀ t, (s.thread t).Ok
  word : ∀ t, (s.thread t).Owns → s.locked ≠ 0
  unique : ∀ t u, (s.thread t).Owns → (s.thread u).Owns → t = u

omit [DecidableEq ι] in
theorem spinInv_init : SpinInv (gtSpinlockInit : SpinState ι) where
  threads _ := ⟨by simp [gtSpinlockInit], by simp [gtSpinlockInit]⟩
  word t h := by
    rcases h with (h | h) | ⟨h, -⟩ <;> cases h
  unique t u h := by
    rcases h with (h | h) | ⟨h, -⟩ <;> cases h

theorem SpinInv.step {s s' : SpinState ι} (h : SpinInv s) {a : ι × SpinAction}
    (honce : UnlocksOnce s a) {u : Unit} (hstep : spinStep s a = some (u, s')) : SpinInv s' := by
  obtain ⟨t, a⟩ := a
  obtain ⟨⟨w, th⟩, hlocal, heq⟩ := Option.map_eq_some_iff.mp hstep
  cases heq
  obtain ⟨hok, heffect⟩ := spinThreadStep_effect hlocal (h.threads t)
    (by rintro rfl; exact honce) (h.word t)
  -- the other threads are as before
  have hafter : ∀ v, (update s.thread t th v).Owns →
      v = t ∧ th.Owns ∨ v ≠ t ∧ (s.thread v).Owns := by
    intro v hv
    by_cases hvt : v = t
    · rw [hvt, update_self] at hv
      exact .inl ⟨hvt, hv⟩
    · rw [update_of_ne hvt] at hv
      exact .inr ⟨hvt, hv⟩
  have hthreads : ∀ v, (update s.thread t th v).Ok := by
    intro v
    by_cases hvt : v = t
    · rw [hvt, update_self]
      exact hok
    · rw [update_of_ne hvt]
      exact h.threads v
  rcases heffect with ⟨hkeep, hw⟩ | ⟨hzero, hw⟩ | ⟨howns, hnot⟩
  · have hbefore : ∀ v, (update s.thread t th v).Owns → (s.thread v).Owns := by
      intro v hv
      rcases hafter v hv with ⟨rfl, hth⟩ | ⟨-, hv⟩
      · exact hkeep hth
      · exact hv
    exact ⟨hthreads, fun v hv hw' => h.word v (hbefore v hv) (hw hw'),
      fun v v' hv hv' => h.unique v v' (hbefore v hv) (hbefore v' hv')⟩
  · -- the word was 0, so nobody had the lock
    have honly : ∀ v, (update s.thread t th v).Owns → v = t := by
      intro v hv
      rcases hafter v hv with ⟨rfl, -⟩ | ⟨-, hv⟩
      · rfl
      · exact absurd hzero (h.word v hv)
    exact ⟨hthreads, fun _ _ => hw, fun v v' hv hv' => (honly v hv).trans (honly v' hv').symm⟩
  · have hnone : ∀ v, ¬ (update s.thread t th v).Owns := by
      intro v hv
      rcases hafter v hv with ⟨rfl, hth⟩ | ⟨hvt, hv⟩
      · exact hnot hth
      · exact hvt (h.unique v t hv howns)
    exact ⟨hthreads, fun v hv => absurd hv (hnone v), fun v _ hv => absurd hv (hnone v)⟩

/-- In every run in which a thread unlocks at most once for each lock it took, at most one thread
has the lock. -/
theorem mutualExclusion_of_run {steps : List (ι × SpinAction)} {us : List Unit} {s : SpinState ι}
    (honce : Along spinStep UnlocksOnce steps gtSpinlockInit)
    (hrun : runSteps spinStep steps gtSpinlockInit = some (us, s)) : MutualExclusion s := by
  have hinv : SpinInv s :=
    runSteps_inv_of_some (fun h ho hs => h.step ho hs) spinInv_init honce hrun
  intro t u ht hu
  exact hinv.unique t u (.inl ht) (.inl hu)

end Threads

/-- The first thread takes the lock and gives it back, then the second takes it. -/
def oneAfterTheOther : List (Bool × SpinAction) :=
  [(false, .gtSpinLock), (false, .next), (false, .next), (false, .next), (false, .next),
    (true, .gtSpinLock), (true, .next), (true, .next), (false, .gtSpinUnlock), (false, .next),
    (false, .next), (true, .next), (true, .next), (true, .next), (true, .next)]

/-- The second thread waits in its loop until the first has unlocked. -/
theorem mutualExclusion_oneAfterTheOther : ∃ us s,
    runSteps spinStep oneAfterTheOther gtSpinlockInit = some (us, s) ∧ MutualExclusion s ∧
      (s.thread true).Inside := by
  have hrun : (runSteps spinStep oneAfterTheOther gtSpinlockInit).map
      (fun r => decide ((r.2.thread true).Inside)) = some true := by decide +kernel
  obtain ⟨⟨us, s⟩, hs, hdec⟩ := Option.map_eq_some_iff.mp hrun
  exact ⟨us, s, hs, mutualExclusion_of_run (by decide +kernel) hs, of_decide_eq_true hdec⟩

/-- After the first thread has given the lock back and the second has taken it, the first thread
unlocks again and takes the lock too. -/
def unlockedTwice : List (Bool × SpinAction) :=
  [(false, .gtSpinLock), (false, .next), (false, .next), (false, .next), (false, .next),
    (false, .gtSpinUnlock), (false, .next), (false, .next),
    (true, .gtSpinLock), (true, .next), (true, .next), (true, .next), (true, .next),
    (false, .gtSpinUnlock), (false, .next), (false, .next),
    (false, .gtSpinLock), (false, .next), (false, .next), (false, .next), (false, .next)]

/-- Every unlock comes between a lock of its thread and the next one, and two threads have the
lock. -/
theorem not_mutualExclusion_unlockedTwice : ∃ us s,
    runSteps spinStep unlockedTwice gtSpinlockInit = some (us, s) ∧
      Along spinStep UnlocksBetween unlockedTwice gtSpinlockInit ∧ ¬ MutualExclusion s := by
  have hrun : (runSteps spinStep unlockedTwice gtSpinlockInit).map
      (fun r => decide ((r.2.thread false).Inside ∧ (r.2.thread true).Inside)) = some true := by
    decide +kernel
  obtain ⟨⟨us, s⟩, hs, hdec⟩ := Option.map_eq_some_iff.mp hrun
  obtain ⟨hfirst, hsecond⟩ := of_decide_eq_true hdec
  refine ⟨us, s, hs, by decide +kernel, ?_⟩
  intro hexclusive
  cases hexclusive false true hfirst hsecond
