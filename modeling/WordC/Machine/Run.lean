import WordC.Machine.Step

/-!
# Runs

A run steps until the program exits or an error ends it. Programs need not end, so a run is given
the number of steps it may take; a run that is cut short leaves the machine running.
-/

namespace WordC.Machine

/-- At most `steps` steps; the result is missing if the program is still going. -/
def runSteps (tracing : Bool) : Nat → Action (Option Word)
  | 0 => return none
  | steps + 1 => do
      match ← step tracing with
      | some result => return some result
      | none => runSteps tracing steps

/-- Runs a machine that has not run since it was reset. -/
def run (tracing : Bool) (steps : Nat) : Action (Option Word) := fun machine =>
  if ¬machine.status.isRunnable then .error (.notRunnable machine.status) machine
  else
    let started := { machine.report (.started machine.pc machine.textEnd) with status := .running }
    match runSteps tracing steps started with
    | .ok none stopped => .ok none stopped
    | .ok (some result) stopped =>
        .ok (some result)
          { stopped.report (.halted result stopped.cycles) with status := .halted }
    | .error error stopped =>
        .error error { stopped.report (.faulted error stopped.cycles) with status := .faulted }

/-- Runs from another instruction. -/
def runFrom (entry : Nat) (tracing : Bool) (steps : Nat) : Action (Option Word) := fun machine =>
  if ¬machine.status.isRunnable then .error (.notRunnable machine.status) machine
  else run tracing steps { machine with pc := entry }

end WordC.Machine
