import WordC.Proofs.Machine.Pristine

/-!
# Cycle limits

A run under a limit is a run under any higher limit, or under none, up to the point where the limit
has been used up: there it stops, with the higher limit yet to come.
-/

namespace WordC

namespace Machine

variable {m m' : Machine} {n steps : Nat} {more : Option Nat} {tracing : Bool}

/-! ## Raising the limit -/

/-- What the machine is like that the limit has stopped. -/
def stoppedAt (passing : Machine) (n : Nat) : Machine :=
  { (passing.report (.faulted (.cycleLimit n) n)).setCycleLimit (some n) with status := .faulted }

theorem settled_of_limit {stopped : Machine} (hlimit : stopped.cycleLimit = some n)
    (hcycles : stopped.cycles = n) (more : Option Nat) :
    settled (.error (.cycleLimit n) stopped) =
      .error (.cycleLimit n) ((stopped.setCycleLimit more).stoppedAt n) := by
  cases stopped
  simp only at hlimit hcycles
  rw [hlimit, hcycles]
  rfl

theorem settled_granted {result : EStateM.Result Error Machine (Option Word)} {limit : Nat}
    {faulted : Machine} (h : ∀ stopped, result ≠ .error (.cycleLimit limit) stopped) :
    settled result ≠ .error (.cycleLimit limit) faulted := by
  intro hsettled
  obtain ⟨stopped, hstopped⟩ := settled_eq_error hsettled
  exact h stopped hstopped

theorem runFrom_limited_cases (hrunnable : m.status.isRunnable) (hzero : m.cycles = 0)
    (hmore : ∀ limit, more = some limit → n ≤ limit) (entry : Nat) (tracing : Bool) (steps : Nat) :
    (Alike (fun m n => n = m.setCycleLimit more)
        (runFrom entry tracing steps (m.setCycleLimit (some n)))
        (runFrom entry tracing steps (m.setCycleLimit more)) ∧
      ∀ limit faulted, runFrom entry tracing steps (m.setCycleLimit (some n)) ≠
        .error (.cycleLimit limit) faulted) ∨
    ∃ passing : Machine, passing.cycles = n ∧
      runFrom entry tracing n (m.setCycleLimit more) = .ok none passing ∧
      runFrom entry tracing steps (m.setCycleLimit (some n)) =
        .error (.cycleLimit n) (passing.stoppedAt n) := by
  have hruns (limit : Option Nat) (steps : Nat) :
      runFrom entry tracing steps (m.setCycleLimit limit) =
        settled (runSteps tracing steps ((m.started entry).setCycleLimit limit)) :=
    runFrom_eq (m := m.setCycleLimit limit) hrunnable
  have hcycles : ((m.started entry).setCycleLimit (some n)).cycles = 0 := hzero
  rw [hruns, hruns, hruns]
  rcases runSteps_setCycleLimit tracing steps rfl (hcycles ▸ Nat.zero_le n) hmore with
    ⟨hsame, hne⟩ | ⟨stopped, hstopped, hspent, hkept, hpassing⟩
  · exact .inl ⟨alike_settled hsame, fun limit _ => settled_granted (hne limit)⟩
  · rw [hcycles, Nat.sub_zero] at hpassing
    refine .inr ⟨stopped.setCycleLimit more, hspent, settled_eq_ok_none.2 hpassing, ?_⟩
    rw [hstopped]
    exact settled_of_limit hkept hspent more

/-- Runs by the number of their steps: those of the one under the limit `n`, those of the other
under the limit `more`, if any. The limit only cuts the one short. -/
structure CutsShort (n : Nat) (more : Option Nat)
    (limited raised : Nat → EStateM.Result Error Machine (Option Word)) : Prop where
  ends : ∀ steps going, n < steps → limited steps ≠ .ok none going
  halted : ∀ steps word halted, limited steps = .ok (some word) halted →
    raised steps = .ok (some word) (halted.setCycleLimit more)
  faulted : ∀ steps error faulted, limited steps = .error error faulted →
    (∀ limit, error ≠ .cycleLimit limit) →
    raised steps = .error error (faulted.setCycleLimit more)
  /-- After as many instructions as the limit allows, the other run is in the same state. -/
  stopped : ∀ steps limit stopped, limited steps = .error (.cycleLimit limit) stopped →
    limit = n ∧ stopped.status = .faulted ∧ stopped.cycles = n ∧
    ∃ passing, raised n = .ok none passing ∧ stopped = passing.stoppedAt n

/-- Between a limit and a higher one, or none, there is no other difference than that the run may
have to stop earlier. -/
theorem runFrom_setCycleLimit (h : m.Reached) (hrunnable : m.status.isRunnable)
    (hmore : ∀ limit, more = some limit → n ≤ limit) (entry : Nat) (tracing : Bool) :
    CutsShort n more (fun steps => runFrom entry tracing steps (m.setCycleLimit (some n)))
      (fun steps => runFrom entry tracing steps (m.setCycleLimit more)) := by
  have hzero : m.cycles = 0 := (h.pristine hrunnable).cycles
  have hcases := runFrom_limited_cases hrunnable hzero hmore entry tracing
  refine ⟨fun steps going hlt hgoing => ?_, fun steps word halted hhalted => ?_,
    fun steps error faulted hfaulted hgranted => ?_, fun steps limit stopped hstopped => ?_⟩
  · have hrun := (runFrom_eq_ok_none (m := m.setCycleLimit (some n)) hrunnable).1 hgoing
    have hle := cycles_of_going (n := n) rfl (hzero ▸ Nat.zero_le n) hrun
    omega
  · rcases hcases steps with ⟨hsame, -⟩ | ⟨passing, -, -, hlimit⟩
    · obtain ⟨_, hraised, rfl⟩ := hsame.of_ok hhalted
      exact hraised
    · cases hhalted.symm.trans hlimit
  · rcases hcases steps with ⟨hsame, -⟩ | ⟨passing, -, -, hlimit⟩
    · obtain ⟨_, hraised, rfl⟩ := hsame.of_error hfaulted
      exact hraised
    · cases hfaulted.symm.trans hlimit
      exact absurd rfl (hgranted n)
  · rcases hcases steps with ⟨-, hgranted⟩ | ⟨passing, hspent, hpassing, hlimit⟩
    · exact absurd hstopped (hgranted limit stopped)
    · cases hstopped.symm.trans hlimit
      exact ⟨rfl, rfl, hspent, passing, hpassing, rfl⟩

/-- Of two cycles the program exits with the last; after one, it is stopped. -/
theorem runFrom_setCycleLimit_exiting :
    exiting.Reached ∧ exiting.status.isRunnable ∧
    (∀ limit, some 2 = some limit → 1 ≤ limit) ∧
    CutsShort 1 (some 2) (fun steps => runFrom 0 false steps (exiting.setCycleLimit (some 1)))
      (fun steps => runFrom 0 false steps (exiting.setCycleLimit (some 2))) := by
  have hreached : exiting.Reached := (Reached.create create_small).performAll _
  have hmore : ∀ limit, some 2 = some limit → 1 ≤ limit := by
    intro limit hlimit
    rw [← Option.some.inj hlimit]
    exact Nat.le_succ 1
  exact ⟨hreached, rfl, hmore, runFrom_setCycleLimit hreached rfl hmore 0 false⟩

end Machine

end WordC
