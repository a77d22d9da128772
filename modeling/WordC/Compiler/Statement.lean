import WordC.Compiler.Expression

/-!
# Statements

A block has its declarations first. A name at the start of a statement is taken before it is known
whether the statement assigns to it.
-/

namespace WordC.Compiler

/-- Stores the accumulator in a variable. -/
def emitStore (symbol : Symbol) : Compile Unit := do
  emit .push
  emitAddress symbol
  emit .si

/-- Compiles the variables of a local declaration, at most `rounds` of them. -/
def localVariables (type : TypeName) : Nat → Compile Unit
  | 0 => throw .exhausted
  | rounds + 1 => do
      let (name, position) ← expectIdentifier
      update fun compiler => { compiler with frame := compiler.frame.allocate }
      let slot ← view (·.frame.used)
      let symbol ← declare { name, cls := .object, type, value := Word.ofCount slot, position }
      if ← atMark .equal then
        advance
        expression
        emitStore symbol
      if ← atMark .comma then
        advance
        localVariables type rounds

def localDeclaration : Compile Unit := do
  openRule .localDeclaration
  let type ← expectType
  localVariables type (← view (·.bound))
  expectMark .semicolon
  closeRule

/-- Compiles the declarations at the start of a block. -/
def localDeclarations : Nat → Compile Unit
  | 0 => throw .exhausted
  | rounds + 1 => do
      if (← peek).isType then
        localDeclaration
        localDeclarations rounds

/-- Compiles statements up to the closing brace. -/
def statements (statement : Compile Unit) : Nat → Compile Unit
  | 0 => throw .exhausted
  | rounds + 1 => do
      if ¬ (← atMark .rightBrace) then
        statement
        statements statement rounds

def blockContents (statement : Compile Unit) : Compile Unit := do
  let bound ← view (·.bound)
  localDeclarations bound
  statements statement bound

/-- A block has a scope of its own; its slots are free again behind it. -/
def block (statement : Compile Unit) : Compile Unit := do
  openRule .block
  expectMark .leftBrace
  enterScope
  let used ← view (·.frame.used)
  blockContents statement
  expectMark .rightBrace
  leaveScope
  update fun compiler => { compiler with frame := { compiler.frame with used } }
  closeRule

def ifStatement (statement : Compile Unit) : Compile Unit := do
  openRule .ifStatement
  expect (.keyword .ifKw)
  expectMark .leftParen
  expression
  expectMark .rightParen
  let skipThen ← emitPending .jz
  statement
  if ← atKind (.keyword .elseKw) then
    advance
    let skipElse ← emitPending .jmp
    patchHere skipThen
    statement
    patchHere skipElse
  else patchHere skipThen
  closeRule

def whileStatement (statement : Compile Unit) : Compile Unit := do
  openRule .whileStatement
  let start ← here
  expect (.keyword .whileKw)
  expectMark .leftParen
  expression
  expectMark .rightParen
  let exit ← emitPending .jz
  statement
  emitWith .jmp start
  patchHere exit
  closeRule

def returnStatement : Compile Unit := do
  openRule .returnStatement
  expect (.keyword .returnKw)
  if ¬ (← atMark .semicolon) then expression
  expectMark .semicolon
  emit .lev
  closeRule

/-- Compiles an assignment whose target has been taken. The value is computed before it is stored
through the address of the target. -/
def assignment (target : Token) : Compile Unit := do
  openRule .assignment
  record target
  let position ← locate target
  match target.kind with
  | .identifier name =>
      let symbol ← resolve name position
      if symbol.cls ≠ .object then throw (.unexpectedSymbol name .assignableName position)
      expectMark .equal
      expression
      expectMark .semicolon
      emitStore symbol
      closeRule
  | _ => unexpected .identifier

def expressionStatement (value : Compile Unit) : Compile Unit := do
  openRule .expressionStatement
  value
  expectMark .semicolon
  closeRule

/-- Compiles a statement; statements nest at most `depth` deep. -/
def statementAt : Nat → Compile Unit
  | 0 => throw .exhausted
  | depth + 1 => do
      match ← peek with
      | .punctuator .leftBrace => block (statementAt depth)
      | .keyword .ifKw => ifStatement (statementAt depth)
      | .keyword .whileKw => whileStatement (statementAt depth)
      | .keyword .returnKw => returnStatement
      | .punctuator .semicolon => advance
      | .identifier _ =>
          let head ← take
          if ← atMark .equal then assignment head
          else expressionStatement (expressionFrom head)
      | _ => expressionStatement expression

def statement : Compile Unit := do
  statementAt (← view (·.bound))

end WordC.Compiler
