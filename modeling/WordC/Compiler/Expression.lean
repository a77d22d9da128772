import WordC.Compiler.State

/-!
# Expressions

The value of an expression ends up in the accumulator. Binary operators bind in levels, each of
them from left to right: the left operand is pushed, the right one loaded, and the operator combines
both.
-/

namespace WordC.Compiler

/-- What an operator does once its left operand is loaded. -/
inductive Link where
  /-- Push the operand, load the right one and combine them. -/
  | combines (operator : Operator)
  /-- Jump over the right operand if the left one decides; either way the result becomes 0 or 1. -/
  | decides (jump : Opcode)

structure Level where
  rule : Rule
  operators : List (Punctuator × Link)

/-- The levels of binary operators, the loosest first. -/
def levels : List Level := [
  { rule := .logicalOr, operators := [(.pipePipe, .decides .jnz)] },
  { rule := .logicalAnd, operators := [(.ampAmp, .decides .jz)] },
  { rule := .bitOr, operators := [(.pipe, .combines .or)] },
  { rule := .bitXor, operators := [(.caret, .combines .xor)] },
  { rule := .bitAnd, operators := [(.amp, .combines .and)] },
  { rule := .equality, operators := [(.equalEqual, .combines .eq), (.bangEqual, .combines .ne)] },
  { rule := .relational, operators := [
      (.less, .combines .lt), (.greater, .combines .gt),
      (.lessEqual, .combines .le), (.greaterEqual, .combines .ge)] },
  { rule := .additive, operators := [(.plus, .combines .add), (.minus, .combines .sub)] },
  { rule := .multiplicative, operators := [
      (.star, .combines .mul), (.slash, .combines .div), (.percent, .combines .mod)] }]

def Level.link? (level : Level) : Token.Kind → Option Link
  | .punctuator mark => level.operators.lookup mark
  | _ => none

/-- Compiles the right operand of an operator of a level. -/
def linkOperand (operand : Compile Unit) : Link → Compile Unit
  | .combines operator => do
      emit .push
      operand
      emit (.binary operator)
  | .decides jump => do
      let decided ← emitPending jump
      operand
      patchHere decided
      emit .push
      emitWith .imm 0
      emit (.binary .ne)

/-- Compiles operators of a level and their right operands, at most `rounds` of them. -/
def chain (level : Level) (operand : Compile Unit) : Nat → Compile Unit
  | 0 => throw .exhausted
  | rounds + 1 => do
      match level.link? (← peek) with
      | none => return
      | some link =>
          advance
          linkOperand operand link
          chain level operand rounds

/-- Compiles an expression of the given levels: `first` compiles the first operand of the tightest
level, `operand` every other one. -/
def cascade (first operand : Compile Unit) : List Level → Compile Unit
  | [] => first
  | level :: tighter => do
      openRule level.rule
      cascade first operand tighter
      chain level (cascade operand operand tighter) (← view (·.bound))
      closeRule

/-- Compiles the arguments of a call up to the closing parenthesis and counts them. -/
def arguments (argument : Compile Unit) : Nat → Compile Nat
  | 0 => throw .exhausted
  | rounds + 1 => do
      argument
      emit .push
      if ← atMark .comma then
        advance
        return (← arguments argument rounds) + 1
      else return 1

/-- Writes the call of a function or of the host with its arguments on the stack. -/
def emitCall (callee : Symbol) (given : Nat) (position : Position) : Compile Unit := do
  if callee.cls = .system then
    match (Opcode.ofWord? callee.value).filter (·.isTrap) with
    | some trap => emitWith trap (Word.ofCount given)
    | none => throw (.undefinedName callee.name position)
  else
    if callee.defined then emitWith .call callee.value
    else
      let site ← emitPending .call
      update fun compiler =>
        { compiler with pendingCalls := compiler.pendingCalls ++ [(callee.name, site)] }
    if 0 < given then emitWith .adj (Word.ofCount given)

/-- Compiles the parenthesized arguments of a call and the call itself. -/
def call (argument : Compile Unit) (callee : Symbol) (position : Position) : Compile Unit := do
  expectMark .leftParen
  let given ←
    if ← atMark .rightParen then pure 0 else arguments argument (← view (·.bound))
  expectMark .rightParen
  match callee.params with
  | some expected =>
      if expected ≠ given then throw (.argumentCount callee.name expected given position)
  | none => pure ()
  emitCall callee given position

/-- Compiles a name that has been taken: the value of a variable or constant, or a call. -/
def nameValue (argument : Compile Unit) (token : Token) : Compile Unit := do
  let position ← locate token
  match token.kind with
  | .identifier name =>
      let symbol ← resolve name position
      match symbol.cls with
      | .object =>
          record token
          emitAddress symbol
          emit .li
      | .constant =>
          record token
          emitWith .imm symbol.value
      | .function | .system =>
          openRule .call
          record token
          call argument symbol position
          closeRule
  | _ => unexpected .identifier

/-- Compiles the name of a variable whose address is taken. -/
def addressOf : Compile Unit := do
  let (name, position) ← expectIdentifier
  let symbol ← resolve name position
  if symbol.cls ≠ .object then throw (.unexpectedSymbol name .variableName position)
  emitAddress symbol

/-- Compiles a literal, a name, or an expression in parentheses. -/
def primary (nested : Compile Unit) : Compile Unit := do
  match ← peek with
  | .number value =>
      advance
      emitWith .imm value
  | .character c =>
      advance
      emitWith .imm (Word.ofCount c.toNat)
  | .string text =>
      let address ← onMachine (Machine.allocateString text)
      advance
      emitWith .imm (Word.ofCount address)
  | .punctuator .leftParen =>
      advance
      nested
      expectMark .rightParen
  | .identifier _ =>
      let token ← take
      nameValue nested token
  | _ => unexpected .expression

/-- Compiles an operand with its unary operators; operands nest at most `depth` deep. -/
def unary : Nat → Compile Unit
  | 0 => throw .exhausted
  | depth + 1 => do
      openRule .unary
      match ← peek with
      | .punctuator .minus =>
          advance
          emitWith .imm 0
          emit .push
          unary depth
          emit (.binary .sub)
      | .punctuator .plus =>
          advance
          unary depth
      | .punctuator .bang =>
          advance
          unary depth
          emit .push
          emitWith .imm 0
          emit (.binary .eq)
      | .punctuator .tilde =>
          advance
          unary depth
          emit .push
          emitWith .imm (-1)
          emit (.binary .xor)
      | .punctuator .star =>
          advance
          unary depth
          emit .li
      | .punctuator .amp =>
          advance
          addressOf
      | .keyword .sizeofKw =>
          advance
          expectMark .leftParen
          let _ ← expectType
          expectMark .rightParen
          emitWith .imm 1
      | _ => primary (cascade (unary depth) (unary depth) levels)
      closeRule

/-- Compiles an expression. -/
def expression : Compile Unit := do
  let depth ← view (·.bound)
  cascade (unary depth) (unary depth) levels

/-- Compiles an expression whose first token, a name, has been taken. -/
def expressionFrom (head : Token) : Compile Unit := do
  let depth ← view (·.bound)
  cascade (nameValue expression head) (unary depth) levels

end WordC.Compiler
