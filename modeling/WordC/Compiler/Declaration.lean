import WordC.Compiler.Statement

/-!
# Declarations

Start-up code is threaded through the text. It begins with a jump that is still to be patched; each
initializer patches the pending jump to itself and ends with a new one.
-/

namespace WordC.Compiler

/-- Compiles the initializer of the global at `address` as a piece of start-up code. -/
def initializer (address : Nat) : Compile Unit := do
  patchHere (← view (·.startup))
  expression
  emit .push
  emitWith .imm (Word.ofCount address)
  emit .si
  let startup ← emitPending .jmp
  update fun compiler => { compiler with startup }

/-- Reads an integer or a character, which may be negated. -/
def constant : Compile Word := do
  let negative ← atMark .minus
  if negative then advance
  let value ←
    match ← peek with
    | .number value => pure value
    | .character c => pure (Word.ofCount c.toNat)
    | _ => unexpected .constant
  advance
  return if negative then -value else value

/-- Declares the enumerators up to the closing brace; `value` is that of the next one. -/
def enumerators (value : Word) : Nat → Compile Unit
  | 0 => throw .exhausted
  | rounds + 1 => do
      if ¬ (← atMark .rightBrace) then
        let (name, position) ← expectIdentifier
        let value ←
          if ← atMark .equal then do
            advance
            constant
          else pure value
        let _ ← declare { name, cls := .constant, type := .int, value, position }
        if ← atMark .comma then
          advance
          enumerators (value + 1) rounds

/-- The tag of an enumeration names nothing. -/
def enumDeclaration : Compile Unit := do
  openRule .enumDeclaration
  expect (.keyword .enumKw)
  match ← peek with
  | .identifier _ => advance
  | _ => pure ()
  expectMark .leftBrace
  enumerators 0 (← view (·.bound))
  expectMark .rightBrace
  expectMark .semicolon
  closeRule

structure Parameter where
  name : String
  type : TypeName
  position : Position

/-- Reads parameters up to the closing parenthesis. A lone `void` stands for none. -/
def parameterList (isFirst : Bool) : Nat → Compile (List Parameter)
  | 0 => throw .exhausted
  | rounds + 1 => do
      let type ← expectType
      if type = .void ∧ isFirst ∧ (← atMark .rightParen) then return []
      let (name, position) ← expectIdentifier
      let parameter : Parameter := { name, type, position }
      if ← atMark .comma then
        advance
        return parameter :: (← parameterList false rounds)
      else return [parameter]

def parameters : Compile (List Parameter) := do
  openRule .parameters
  expectMark .leftParen
  let list ←
    if ← atMark .rightParen then pure [] else parameterList true (← view (·.bound))
  expectMark .rightParen
  closeRule
  return list

/-- Parameters lie below the saved base pointer and the return address, the last one nearest. -/
def declareParameters (arity : Nat) : List Parameter → Nat → Compile Unit
  | [], _ => return
  | parameter :: rest, index => do
      let _ ← declare {
        name := parameter.name
        cls := .object
        type := parameter.type
        value := Word.ofCount index - (Word.ofCount arity + 1)
        position := parameter.position }
      declareParameters arity rest (index + 1)

/-- The prototype that a function of this name gives a body to. -/
def prototype? (name : String) : Compile (Option Symbol) := do
  let symbols ← view (·.symbols)
  return (symbols.lookup? name).filter fun symbol =>
    symbol.level = Symbol.globalLevel && symbol.cls = .function && !symbol.defined

def patchAll (sites : List Nat) (word : Word) : Compile Unit :=
  match sites with
  | [] => return
  | site :: rest => do
      patch site word
      patchAll rest word

/-- Declares a function that has a body, or gives its prototype the body's entry and patches the
calls made so far. -/
def bindFunction (symbol : Symbol) (arity : Nat) : Compile Unit := do
  match ← prototype? symbol.name with
  | none => let _ ← declare { symbol with params := some arity }
  | some prototype =>
      if prototype.params ≠ some arity then
        throw (.argumentCount symbol.name (prototype.params.getD 0) arity symbol.position)
      match (← view (·.symbols)).defineFunction? symbol.name symbol.value with
      | some (_, symbols) => update fun compiler => { compiler with symbols }
      | none => pure ()
      let pending ← view (·.pendingCalls)
      let (ours, others) := pending.partition fun (name, _) => name == symbol.name
      update fun compiler => { compiler with pendingCalls := others }
      patchAll (ours.map (·.2)) symbol.value

/-- Compiles the body of a function. It shares the scope of the parameters. -/
def functionBody : Compile Unit := do
  openRule .block
  expectMark .leftBrace
  blockContents statement
  expectMark .rightBrace
  closeRule

/-- Compiles a function or a prototype behind its name. -/
def function (type : TypeName) (name : String) (position : Position) : Compile Unit := do
  let list ← parameters
  let arity := list.length
  if ← atMark .semicolon then
    advance
    let _ ← declare {
      name, cls := .function, type, value := 0, params := some arity, defined := false, position }
  else
    let entry ← here
    bindFunction { name, cls := .function, type, value := entry, position } arity
    enterScope
    declareParameters arity list 0
    update fun compiler => { compiler with frame := {} }
    let frameSize ← emitPending .ent
    functionBody
    emit .lev
    let locals := Word.ofCount (← view (·.frame.greatest))
    patch frameSize locals
    leaveScope
    onMachine (modify fun machine =>
      machine.report (.functionCompiled name entry arity locals))

/-- Compiles the names of a global declaration, at most `rounds` of them. A function ends the list
and needs no semicolon. -/
def globalNames (type : TypeName) : Nat → Compile Unit
  | 0 => throw .exhausted
  | rounds + 1 => do
      let (name, position) ← expectIdentifier
      if ← atMark .leftParen then
        update fun compiler => { compiler with tree := compiler.tree.retag .functionDeclaration }
        function type name position
      else
        let address ← onMachine (Machine.allocateGlobal 0)
        let _ ← declare {
          name, cls := .object, type, value := Word.ofCount address, position }
        if ← atMark .equal then
          advance
          initializer address
        if ← atMark .comma then
          advance
          globalNames type rounds
        else expectMark .semicolon

def globalDeclaration : Compile Unit := do
  if ← atKind (.keyword .enumKw) then enumDeclaration
  else
    openRule .globalDeclaration
    let type ← expectType
    globalNames type (← view (·.bound))
    closeRule

def globalDeclarations : Nat → Compile Unit
  | 0 => throw .exhausted
  | rounds + 1 => do
      if ¬ (← atKind .endOfInput) then
        globalDeclaration
        globalDeclarations rounds

end WordC.Compiler
