import WordC.Engine
import WordC.Text.Blank

/-!
# Sessions

A session keeps the declarations that were entered. An expression is evaluated as what `main`
returns in a program that consists of the declarations and that `main`.
-/

namespace WordC

structure Session where
  machine : Machine
  tracing : Bool
  declarations : List String
  /-- The program compiled last. -/
  last : Option Program

/-- Steps of a session. What a step has changed stays changed when it fails. -/
abbrev Session.Turn := EStateM Error Session

namespace Session

def start (machine : Machine) (tracing : Bool) : Session :=
  { machine, tracing, declarations := [], last := none }

def onMachine (action : Action α) : Turn α := fun session =>
  match session with
  | ⟨machine, tracing, declarations, last⟩ =>
      match action machine with
      | .ok value machine => .ok value ⟨machine, tracing, declarations, last⟩
      | .error error machine => .error error ⟨machine, tracing, declarations, last⟩

def print (session : Session) (text : String) : Session :=
  { session with machine := session.machine.print text }

/-- Whether a text begins like a declaration: with a type or an enumeration. -/
def isDeclaration (input : String) : Bool :=
  match (Scanner.ofSource input).next with
  | (.ok token, _) => token.kind.isType || token.kind = .keyword .enumKw
  | (.error _, _) => false

def declared (session : Session) : String :=
  String.intercalate "\n" session.declarations

/-- The program in which an expression is evaluated. Semicolons behind the expression are left
out. -/
def sourceFor (session : Session) (expression : String) : String :=
  let trimmed := (Text.trim expression).toList
  let value := (trimmed.reverse.dropWhile (· = ';')).reverse
  session.declared ++ "\nint main() \x7b return " ++ String.ofList value ++ "; \x7d"

/-- The program that decides whether a declaration can be kept. -/
def sourceWith (session : Session) (declaration : String) : String :=
  session.declared ++ "\n" ++ declaration ++ "\nint main() \x7b return 0; \x7d"

/-- Keeps a declaration if the program still compiles with it. -/
def declare (input : String) : Turn Unit := do
  let source := (← get).sourceWith input
  let program ← onMachine (Engine.compile source)
  modify fun session =>
    { session with
      last := some program
      declarations := session.declarations ++ [input] }

/-- Compiles and runs a whole program and keeps it as the last one, whatever its run ends with. -/
def runSource (source : String) (steps : Nat) : Turn (Option Word) := do
  let program ← onMachine (Engine.compile source)
  modify fun session => { session with last := some program }
  onMachine (Engine.run program (← get).tracing steps)

def evaluate (expression : String) (steps : Nat) : Turn (Option Word) := do
  runSource ((← get).sourceFor expression) steps

/-- Forgets all declarations. -/
def reset (session : Session) : Session :=
  { session with declarations := [], last := none }

end Session

end WordC
