import WordC.Compiler.Declaration

/-!
# Programs

A compiled program lies in the text and data of the machine it was compiled into. It starts at its
entry, with the start-up code, and ends when `main` returns.
-/

namespace WordC

structure Program where
  entry : Nat
  /-- Every declaration, the system calls first. -/
  symbols : List Symbol
  tree : Tree

namespace Program

/-- The symbols of the system calls. -/
def systemCalls : List Symbol :=
  Trap.all.map fun trap =>
    { name := trap.name
      cls := .system
      type := .int
      value := (Opcode.trap trap).word
      params := trap.arity? }

/-- The table in which a compilation starts: the system calls outside, the global scope open. -/
def initialSymbols : Symbol.Table :=
  (systemCalls.foldl Symbol.Table.add .initial).enter

end Program

namespace Compiler

/-- Calls `main`, which takes no arguments, behind the last initializer. -/
def finish (entry : Nat) : Compile Program := do
  let symbols ← view (·.symbols)
  match symbols.symbols.find? fun symbol => symbol.cls = .function && !symbol.defined with
  | some prototype => throw (.undefinedName prototype.name prototype.position)
  | none => pure ()
  let position ← locate (← view (·.current))
  let main ← resolve "main" position
  if main.cls ≠ .function then throw (.undefinedName main.name position)
  if main.params ≠ some 0 then
    throw (.argumentCount main.name 0 (main.params.getD 0) main.position)
  patchHere (← view (·.startup))
  emitWith .call main.value
  emit .exit
  onMachine (modify fun machine =>
    machine.report
      (.compiled entry machine.textEnd machine.dataLength symbols.symbols.length))
  return { entry, symbols := symbols.symbols, tree := (← view (·.tree)).finish }

/-- Compiles a whole source text. -/
def program : Compile Program := do
  let entry := (← get).machine.textEnd
  let startup ← emitPending .jmp
  update fun compiler => { compiler with startup }
  globalDeclarations (← view (·.bound))
  finish entry

end Compiler

/-- Compiles a source text into a machine, behind whatever it holds. Nothing is written before the
first token has been read. -/
def compile (source : String) : Action Program := fun machine =>
  let stream := Token.Stream.ofSource source
  match stream with
  | .failed error => .error error machine
  | .done offset => start source (.endAt offset) stream machine
  | .cons token rest => start source token rest machine
where
  start (source : String) (current : Token) (upcoming : Token.Stream) : Action Program :=
    fun machine =>
      let compiler : Compiler := {
        source
        current
        upcoming
        bound := upcoming.length + 2
        symbols := Program.initialSymbols
        tree := .initial
        frame := {}
        startup := 0
        pendingCalls := [] }
      match Compiler.program ⟨machine, compiler⟩ with
      | .ok program ⟨machine, _⟩ => .ok program machine
      | .error error ⟨machine, _⟩ => .error error machine

end WordC
