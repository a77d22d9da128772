import WordC.Machine.Run
import WordC.Program

/-!
# Running programs on one machine

Each compilation starts from an empty machine and each run from fresh registers, so programs that
share a machine do not see each other.
-/

namespace WordC.Engine

/-- Discards what the machine holds and compiles a source text into it. -/
def compile (source : String) : Action Program := do
  modify Machine.clear
  WordC.compile source

/-- Runs a program that the machine holds. -/
def run (program : Program) (tracing : Bool) (steps : Nat) : Action (Option Word) := do
  modify Machine.reset
  Machine.runFrom program.entry tracing steps

/-- Compiles and runs a source text; the result is what `main` returns. -/
def eval (source : String) (tracing : Bool) (steps : Nat) : Action (Option Word) := do
  let program ← compile source
  run program tracing steps

end WordC.Engine
