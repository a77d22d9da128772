import WordC.Machine.Storage
import WordC.Symbol.Table
import WordC.Token.Stream
import WordC.Tree.Builder

/-!
# The state of a compilation

The compiler reads a source text once, with one token of lookahead, and writes instructions as it
goes. What is not known yet is written as a placeholder and patched as soon as it is known.
-/

namespace WordC

namespace Compiler

/-- The local slots of the function that is being compiled. -/
structure Frame where
  /-- Slots in use in the block that is being read. -/
  used : Nat := 0
  /-- The most slots in use at any time. -/
  greatest : Nat := 0

def Frame.allocate (frame : Frame) : Frame :=
  { used := frame.used + 1, greatest := max frame.greatest (frame.used + 1) }

end Compiler

structure Compiler where
  source : String
  /-- The token to be read next. -/
  current : Token
  /-- What follows it. -/
  upcoming : Token.Stream
  /-- No construct repeats, and none nests, more often than there are tokens. -/
  bound : Nat
  symbols : Symbol.Table
  tree : Tree.Builder
  frame : Compiler.Frame
  /-- The operand of the jump that ends the start-up code so far. -/
  startup : Nat
  /-- Operands of calls to functions whose body has not been read. -/
  pendingCalls : List (String × Nat)

namespace Compiler

structure State where
  machine : Machine
  compiler : Compiler

end Compiler

/-- Compiling fills the text and data of a machine. What has been written stays when it fails. -/
abbrev Compile := EStateM Error Compiler.State

namespace Compiler

def onMachine (action : Action α) : Compile α := fun state =>
  match state with
  | ⟨machine, compiler⟩ =>
      match action machine with
      | .ok value machine => .ok value ⟨machine, compiler⟩
      | .error error machine => .error error ⟨machine, compiler⟩

def view (field : Compiler → α) : Compile α :=
  return field (← get).compiler

def update (change : Compiler → Compiler) : Compile Unit :=
  modify fun state =>
    match state with
    | ⟨machine, compiler⟩ => ⟨machine, change compiler⟩

def ofExcept (result : Except Error α) : Compile α :=
  match result with
  | .ok value => return value
  | .error error => throw error

/-! ## Instructions -/

/-- The address of the next word of text. -/
def here : Compile Word :=
  return Word.ofCount (← get).machine.textEnd

def emit (opcode : Opcode) : Compile Unit := do
  let _ ← onMachine (Machine.emitOpcode opcode)

def emitWith (opcode : Opcode) (operand : Word) : Compile Unit := do
  emit opcode
  let _ ← onMachine (Machine.emitWord operand)

/-- Writes an instruction whose operand is not known yet and gives the place of the operand. -/
def emitPending (opcode : Opcode) : Compile Nat := do
  emit opcode
  onMachine Machine.emitPlaceholder

def patch (site : Nat) (word : Word) : Compile Unit :=
  onMachine (Machine.patch site word)

/-- Makes a pending operand refer to the next instruction. -/
def patchHere (site : Nat) : Compile Unit := do
  patch site (← here)

/-! ## Tokens and rules -/

def openRule (rule : Rule) : Compile Unit :=
  update fun compiler => { compiler with tree := compiler.tree.openRule rule }

def closeRule : Compile Unit :=
  update fun compiler => { compiler with tree := compiler.tree.closeRule }

/-- Records a token in the tree. -/
def record (token : Token) : Compile Unit :=
  update fun compiler => { compiler with tree := compiler.tree.terminal token.text }

def peek : Compile Token.Kind :=
  view (·.current.kind)

def locate (token : Token) : Compile Position := do
  return Position.locate (← view (·.source)) token.start

def unexpected (expected : Expected) : Compile α := do
  let token ← view (·.current)
  let found := if token.kind = .endOfInput then token.kind.render else token.text
  throw (.unexpectedSymbol found expected (← locate token))

/-- Takes the current token without recording it. -/
def take : Compile Token := do
  let token ← view (·.current)
  match ← view (·.upcoming) with
  | .failed error => throw error
  | .done offset => update fun compiler => { compiler with current := .endAt offset }
  | .cons next rest =>
      update fun compiler => { compiler with current := next, upcoming := rest }
  return token

/-- Takes the current token and records it. -/
def advance : Compile Unit := do
  let token ← take
  record token

def atKind (kind : Token.Kind) : Compile Bool := do
  return (← peek) = kind

def atMark (mark : Punctuator) : Compile Bool :=
  atKind (.punctuator mark)

def expect (kind : Token.Kind) : Compile Unit := do
  if ← atKind kind then advance else unexpected (.kind kind)

def expectMark (mark : Punctuator) : Compile Unit :=
  expect (.punctuator mark)

def expectIdentifier : Compile (String × Position) := do
  let token ← view (·.current)
  match token.kind with
  | .identifier name =>
      let position ← locate token
      advance
      return (name, position)
  | _ => unexpected .identifier

def expectType : Compile TypeName := do
  match (← peek).typeName? with
  | some type =>
      advance
      return type
  | none => unexpected .typeName

/-! ## Names -/

def declare (symbol : Symbol) : Compile Symbol := do
  let (symbol, symbols) ← ofExcept ((← view (·.symbols)).declare symbol)
  update fun compiler => { compiler with symbols }
  return symbol

def resolve (name : String) (position : Position) : Compile Symbol := do
  ofExcept ((← view (·.symbols)).resolve name position)

def enterScope : Compile Unit :=
  update fun compiler => { compiler with symbols := compiler.symbols.enter }

def leaveScope : Compile Unit := do
  match (← view (·.symbols)).leave? with
  | some symbols => update fun compiler => { compiler with symbols }
  | none => throw .outermostScope

/-- Loads the address of a variable. -/
def emitAddress (symbol : Symbol) : Compile Unit :=
  emitWith (if symbol.isLocal then .lea else .imm) symbol.value

end Compiler

end WordC
