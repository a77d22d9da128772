import WordC.Proofs.Machine.Steps

/-!
# Runs as sequences of steps
-/

namespace WordC.Machine

variable {tracing : Bool} {steps more entry : Nat} {m m' start : Machine}

/-- A run that has not ended goes on where it is. -/
theorem runSteps_succ_of_step (h : step tracing m = .ok none m') :
    runSteps tracing (steps + 1) m = runSteps tracing steps m' := by
  rw [runSteps, bind_of_ok h]

/-- A run that has ended stays as it is. -/
theorem runSteps_of_le (hended : ∀ m', runSteps tracing steps m ≠ .ok none m')
    (hle : steps ≤ more) : runSteps tracing more m = runSteps tracing steps m := by
  induction steps generalizing more m with
  | zero => exact absurd rfl (hended m)
  | succ steps ih =>
      obtain ⟨more, rfl⟩ := Nat.exists_eq_add_of_le' hle
      cases hstep : step tracing m with
      | error error stopped =>
          rw [← Nat.add_assoc, runSteps, runSteps, bind_of_error hstep, bind_of_error hstep]
      | ok result m' =>
          cases result with
          | some word =>
              rw [← Nat.add_assoc, runSteps, runSteps, bind_of_ok hstep, bind_of_ok hstep]
          | none =>
              rw [runSteps_succ_of_step hstep] at hended
              rw [← Nat.add_assoc, runSteps_succ_of_step hstep, runSteps_succ_of_step hstep]
              exact ih hended (Nat.le_add_left _ _)

/-- Two runs that have ended have ended in the same way. -/
theorem runSteps_unique (hended : ∀ m', runSteps tracing steps m ≠ .ok none m')
    (hended' : ∀ m', runSteps tracing more m ≠ .ok none m') :
    runSteps tracing steps m = runSteps tracing more m :=
  (runSteps_of_le hended (Nat.le_max_left steps more)).symm.trans
    (runSteps_of_le hended' (Nat.le_max_right steps more))

/-- A run that has ended has done so with one of its steps. -/
theorem exists_step_of_runSteps (hended : ∀ m', runSteps tracing steps start ≠ .ok none m') :
    ∃ fewer < steps, ∃ m, runSteps tracing fewer start = .ok none m ∧
      step tracing m = runSteps tracing steps start := by
  induction steps generalizing start with
  | zero => exact absurd rfl (hended start)
  | succ steps ih =>
      cases hstep : step tracing start with
      | error error m' =>
          exact ⟨0, Nat.succ_pos _, start, rfl, by rw [runSteps, bind_of_error hstep, hstep]⟩
      | ok result m' =>
          cases result with
          | some word =>
              refine ⟨0, Nat.succ_pos _, start, rfl, ?_⟩
              rw [runSteps, bind_of_ok hstep, hstep]
              rfl
          | none =>
              rw [runSteps_succ_of_step hstep] at hended ⊢
              obtain ⟨fewer, hlt, m, hrun, hlast⟩ := ih hended
              exact ⟨fewer + 1, Nat.succ_lt_succ hlt, m, (runSteps_succ_of_step hstep).trans hrun,
                hlast⟩

/-- What a run does in its last step. -/
theorem runSteps_of_last (hrun : runSteps tracing steps m = .ok none m') :
    runSteps tracing (steps + 1) m = runSteps tracing 1 m' := by
  induction steps generalizing m with
  | zero =>
      cases hrun
      rfl
  | succ steps ih =>
      cases hstep : step tracing m with
      | error error stopped =>
          rw [runSteps, bind_of_error hstep] at hrun
          cases hrun
      | ok result next =>
          cases result with
          | some word =>
              rw [runSteps, bind_of_ok hstep] at hrun
              cases hrun
          | none =>
              rw [runSteps_succ_of_step hstep] at hrun ⊢
              exact ih hrun

theorem runSteps_succ_eq_ok_none :
    runSteps tracing (steps + 1) start = .ok none m' ↔
      ∃ m, runSteps tracing steps start = .ok none m ∧ step tracing m = .ok none m' := by
  constructor
  · intro hrun
    by_cases hended : ∀ m, runSteps tracing steps start ≠ .ok none m
    · rw [runSteps_of_le hended (Nat.le_succ steps)] at hrun
      exact absurd hrun (hended m')
    · obtain ⟨m, hfront⟩ := Classical.not_forall_not.1 hended
      rw [runSteps_of_last hfront] at hrun
      refine ⟨m, hfront, ?_⟩
      cases hstep : step tracing m with
      | error error stopped =>
          rw [runSteps, bind_of_error hstep] at hrun
          cases hrun
      | ok result next =>
          rw [runSteps, bind_of_ok hstep] at hrun
          cases result <;> exact hrun
  · rintro ⟨m, hrun, hstep⟩
    rw [runSteps_of_last hrun, runSteps_succ_of_step hstep]
    rfl

/-- The machine that takes the first step of a run. -/
def started (m : Machine) (entry : Nat) : Machine :=
  { ({ m with pc := entry } : Machine).report (.started entry m.textEnd) with status := .running }

/-- What becomes of the machine once its steps are taken. -/
def settled : EStateM.Result Error Machine (Option Word) → EStateM.Result Error Machine (Option Word)
  | .ok none stopped => .ok none stopped
  | .ok (some word) stopped =>
      .ok (some word) { stopped.report (.halted word stopped.cycles) with status := .halted }
  | .error error stopped =>
      .error error { stopped.report (.faulted error stopped.cycles) with status := .faulted }

theorem runFrom_eq (h : m.status.isRunnable) :
    runFrom entry tracing steps m = settled (runSteps tracing steps (m.started entry)) := by
  rw [runFrom, if_neg (not_not_intro h), run, if_neg (not_not_intro h)]
  rfl

theorem settled_eq_ok_none {result : EStateM.Result Error Machine (Option Word)} :
    settled result = .ok none m ↔ result = .ok none m := by
  cases result with
  | error error stopped => simp [settled]
  | ok value stopped => cases value <;> simp [settled]

theorem runFrom_eq_ok_none (h : m.status.isRunnable) :
    runFrom entry tracing steps m = .ok none m' ↔
      runSteps tracing steps (m.started entry) = .ok none m' := by
  rw [runFrom_eq h, settled_eq_ok_none]

theorem runFrom_succ_eq_ok_none (h : start.status.isRunnable) :
    runFrom entry tracing (steps + 1) start = .ok none m' ↔
      ∃ m, runFrom entry tracing steps start = .ok none m ∧ step tracing m = .ok none m' := by
  simp only [runFrom_eq_ok_none h, runSteps_succ_eq_ok_none]

theorem runFrom_of_le (hended : ∀ m', runFrom entry tracing steps m ≠ .ok none m')
    (hle : steps ≤ more) : runFrom entry tracing more m = runFrom entry tracing steps m := by
  by_cases hrunnable : m.status.isRunnable
  · have hsteps : ∀ m', runSteps tracing steps (m.started entry) ≠ .ok none m' := fun m' hnone =>
      hended m' ((runFrom_eq_ok_none hrunnable).2 hnone)
    rw [runFrom_eq hrunnable, runFrom_eq hrunnable, runSteps_of_le hsteps hle]
  · rw [runFrom, runFrom, if_pos hrunnable, if_pos hrunnable]

theorem settled_eq_error {result : EStateM.Result Error Machine (Option Word)} {error : Error}
    (h : settled result = .error error m) : ∃ stopped, result = .error error stopped := by
  cases result with
  | error found stopped =>
      cases h
      exact ⟨stopped, rfl⟩
  | ok value stopped => cases value <;> cases h

theorem settled_eq_ok_some {result : EStateM.Result Error Machine (Option Word)} {word : Word}
    (h : settled result = .ok (some word) m) : ∃ stopped, result = .ok (some word) stopped ∧
      m.sp = stopped.sp ∧ m.bp = stopped.bp ∧ m.layout = stopped.layout := by
  cases result with
  | error found stopped => cases h
  | ok value stopped =>
      cases value with
      | none => cases h
      | some value =>
          cases h
          exact ⟨stopped, rfl, rfl, rfl, rfl⟩

/-- A run ends with a step that gives a word or an error. -/
theorem runFrom_succ_eq_ok_some {word : Word} (h : start.status.isRunnable)
    (hrun : runFrom entry tracing steps start = .ok none m)
    (hstep : step tracing m = .ok (some word) m') :
    ∃ halted, runFrom entry tracing (steps + 1) start = .ok (some word) halted := by
  have hlast : runSteps tracing (steps + 1) (start.started entry) = .ok (some word) m' := by
    rw [runSteps_of_last ((runFrom_eq_ok_none h).1 hrun), runSteps, bind_of_ok hstep]
    rfl
  exact ⟨_, by rw [runFrom_eq h, hlast]; rfl⟩

theorem runFrom_succ_eq_error {error : Error} (h : start.status.isRunnable)
    (hrun : runFrom entry tracing steps start = .ok none m)
    (hstep : step tracing m = .error error m') :
    ∃ faulted, runFrom entry tracing (steps + 1) start = .error error faulted := by
  have hlast : runSteps tracing (steps + 1) (start.started entry) = .error error m' := by
    rw [runSteps_of_last ((runFrom_eq_ok_none h).1 hrun), runSteps, bind_of_error hstep]
  exact ⟨_, by rw [runFrom_eq h, hlast]; rfl⟩

theorem exists_step_of_runFrom {word : Word} (h : start.status.isRunnable)
    (hrun : runFrom entry tracing steps start = .ok (some word) m') :
    ∃ fewer < steps, ∃ m stopped, runFrom entry tracing fewer start = .ok none m ∧
      step tracing m = .ok (some word) stopped := by
  rw [runFrom_eq h] at hrun
  obtain ⟨stopped, hresult, -⟩ := settled_eq_ok_some hrun
  obtain ⟨fewer, hlt, m, hsteps, hstep⟩ :=
    exists_step_of_runSteps (fun _ hnone => by cases hresult.symm.trans hnone)
  exact ⟨fewer, hlt, m, stopped, (runFrom_eq_ok_none h).2 hsteps, hstep.trans hresult⟩

theorem runFrom_add_eq_ok_none (h : start.status.isRunnable)
    (hrun : runFrom entry tracing steps start = .ok none m) :
    runFrom entry tracing (steps + more) start = .ok none m' ↔
      runSteps tracing more m = .ok none m' := by
  induction more generalizing m' with
  | zero =>
      rw [Nat.add_zero, hrun]
      rfl
  | succ more ih =>
      rw [← Nat.add_assoc, runFrom_succ_eq_ok_none h, runSteps_succ_eq_ok_none]
      exact exists_congr fun before => and_congr_left fun _ => ih

/-- A run that goes on has gone on before. -/
theorem exists_runFrom_of_le {fewer : Nat} (h : start.status.isRunnable) (hle : fewer ≤ steps)
    (hrun : runFrom entry tracing steps start = .ok none m) :
    ∃ m', runFrom entry tracing fewer start = .ok none m' := by
  induction hle generalizing m with
  | refl => exact ⟨m, hrun⟩
  | step _ ih =>
      obtain ⟨before, hbefore, -⟩ := (runFrom_succ_eq_ok_none h).1 hrun
      exact ih hbefore

end WordC.Machine
