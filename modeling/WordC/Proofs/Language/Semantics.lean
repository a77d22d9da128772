import WordC.Proofs.Language.Scope

/-!
# What programs mean

A tree is evaluated on its own terms, without memory or instructions: variables have values, scopes
nest, and a name means its innermost declaration. An evaluation is given the number of calls that
may be nested and of rounds that a loop may take. A program ends if some number is enough.
-/

namespace WordC

/-- The value of an operator in integers, before it wraps. Division truncates, and only a division
by zero has no value. -/
def Operator.value? (left right : Word) : Operator → Option Word
  | or => some (left ||| right)
  | xor => some (left ^^^ right)
  | and => some (left &&& right)
  | eq => some (Word.ofBool (decide (left.toInt = right.toInt)))
  | ne => some (Word.ofBool (decide (left.toInt ≠ right.toInt)))
  | lt => some (Word.ofBool (decide (left.toInt < right.toInt)))
  | gt => some (Word.ofBool (decide (left.toInt > right.toInt)))
  | le => some (Word.ofBool (decide (left.toInt ≤ right.toInt)))
  | ge => some (Word.ofBool (decide (left.toInt ≥ right.toInt)))
  | add => some (.ofInt (left.toInt + right.toInt))
  | sub => some (.ofInt (left.toInt - right.toInt))
  | mul => some (.ofInt (left.toInt * right.toInt))
  | div => if right.toInt = 0 then none else some (.ofInt (left.toInt.tdiv right.toInt))
  | mod => if right.toInt = 0 then none else some (.ofInt (left.toInt.tmod right.toInt))

namespace Syntax

/-- Why an evaluation has no result. -/
inductive Stop where
  | divisionByZero
  /-- A variable was read that had no value yet, a function ended without returning one, or the
  program asked for an address, a string or the host. -/
  | undefined
  /-- There are more nested calls or rounds of a loop than the evaluation was given. -/
  | unfinished
deriving DecidableEq

abbrev Evaluation (σ α : Type) := StateT σ (Except Stop) α

/-- The values of the variables of a file. -/
abbrev Values := List (String × Word)

/-- The values of all variables. A local variable has none until it is assigned. -/
structure Variables where
  globals : Values
  locals : Scopes (Option Word)

/-- The value of an operator on one operand, which is none of its own for an address. -/
def Unary.value? (operand : Word) : Unary → Option Word
  | minus => some (.ofInt (-operand.toInt))
  | plus => some operand
  | bang => some (Word.ofBool (decide (operand.toInt = 0)))
  | tilde => some (~~~operand)
  | star => none

/-- Whether the left operand decides the value. -/
def Connective.isDecided (left : Word) : Connective → Bool
  | disjunction => left ≠ 0
  | conjunction => left = 0

/-- A value as a condition. -/
def truth (value : Word) : Word :=
  Word.ofBool (value ≠ 0)

/-- The result of an operator, if it has one. -/
def resultOf {σ : Type} (stop : Stop) : Option Word → Evaluation σ Word
  | some value => pure value
  | none => throw stop

/-! ## Expressions -/

/-- The value of a name: that of the innermost local variable, or else of the global variable or
constant. -/
def readName (constants : Values) (locals : Scopes (Option Word)) (identifier : String) :
    Evaluation Values Word := do
  match locals.find? identifier with
  | some value => resultOf .undefined value
  | none => resultOf .undefined ((← get).lookup identifier <|> constants.lookup identifier)

namespace Expr

variable (constants : Values) (invoke : String → List Word → Evaluation Values Word)
  (locals : Scopes (Option Word))

mutual

/-- Evaluates an expression. Functions that it calls are evaluated by `invoke`; they may change
global variables, but no local ones. -/
def eval : Expr → Evaluation Values Word
  | literal value => pure value.value
  | sizeof _ => pure 1
  | name identifier => readName constants locals identifier
  | unary op operand => do
      let value ← operand.eval
      resultOf .undefined (op.value? value)
  | binary (.word operator) left right => do
      let first ← left.eval
      let second ← right.eval
      resultOf .divisionByZero (operator.value? first second)
  | binary (.logical connective) left right => do
      let first ← left.eval
      if connective.isDecided first then return truth first
      let second ← right.eval
      return truth second
  | call callee arguments => do
      let values ← evalAll arguments
      invoke callee values
  | group inner => inner.eval
  | string _ | addressOf _ => throw .undefined

/-- Evaluates arguments from left to right. -/
def evalAll : List Expr → Evaluation Values (List Word)
  | [] => pure []
  | argument :: rest => do
      let first ← argument.eval
      let others ← evalAll rest
      return first :: others

end

end Expr

/-! ## Statements -/

/-- Replaces the value of a name. -/
def Scope.assign {β : Type} (name : String) (value : β) : Scope β → Scope β
  | [] => []
  | (key, old) :: rest =>
      if key = name then (key, value) :: rest else (key, old) :: Scope.assign name value rest

/-- Replaces the value of the innermost variable of that name. -/
def Scopes.assign? {β : Type} (name : String) (value : β) : Scopes β → Option (Scopes β)
  | [] => none
  | scope :: outer =>
      if (scope.lookup name).isSome then some (scope.assign name value :: outer)
      else (Scopes.assign? name value outer).map (scope :: ·)

namespace Variables

def assign (name : String) (value : Word) (state : Variables) : Variables :=
  match state.locals.assign? name (some value) with
  | some locals => { state with locals }
  | none => { state with globals := Scope.assign name value state.globals }

def enter (state : Variables) : Variables :=
  { state with locals := [] :: state.locals }

def leave (state : Variables) : Variables :=
  { state with locals := state.locals.tail }

/-- Declares a variable without a value in the innermost scope. -/
def declare (name : String) (state : Variables) : Variables :=
  { state with
    locals := ((name, none) :: state.locals.headD []) :: state.locals.tail }

end Variables

/-- Repeats a body while a test succeeds, and stops early if the body returns a value. -/
def repeatWhile {σ : Type} (test : Evaluation σ Bool) (body : Evaluation σ (Option Word)) :
    Nat → Evaluation σ (Option Word)
  | 0 => throw .unfinished
  | rounds + 1 => do
      if !(← test) then return none
      match ← body with
      | some value => return some value
      | none => repeatWhile test body rounds

section Statements

variable (constants : Values) (invoke : String → List Word → Evaluation Values Word)

/-- The value of an expression among variables. -/
def Expr.valueOf (expression : Expr) : Evaluation Variables Word := fun state => do
  let (value, globals) ← expression.eval constants invoke state.locals state.globals
  return (value, { state with globals })

/-- Declares a variable, which is in scope in its own initial value. -/
def Declarator.exec (declarator : Declarator) : Evaluation Variables Unit := do
  modify (·.declare declarator.name)
  match declarator.initial with
  | none => return
  | some expression =>
      let value ← expression.valueOf constants invoke
      modify (·.assign declarator.name value)

def execDeclarators : List Declarator → Evaluation Variables Unit
  | [] => return
  | declarator :: rest => do
      declarator.exec constants invoke
      execDeclarators rest

namespace Stmt

variable (rounds : Nat)

mutual

/-- Executes a statement, in which no loop takes more than `rounds` rounds. The result is there once
a `return` has been reached. -/
def exec : Stmt → Evaluation Variables (Option Word)
  | empty => return none
  | block declarations body => do
      modify Variables.enter
      execDeclarators constants invoke (declarations.flatMap Declaration.declarators)
      let result ← execAll body
      modify Variables.leave
      return result
  | ifThen condition consequence => do
      let value ← condition.valueOf constants invoke
      if value ≠ 0 then consequence.exec else return none
  | ifElse condition consequence alternative => do
      let value ← condition.valueOf constants invoke
      if value ≠ 0 then consequence.exec else alternative.exec
  | whileLoop condition body =>
      repeatWhile (do return (← condition.valueOf constants invoke) ≠ 0) body.exec rounds
  | leave none => throw .undefined
  | leave (some value) => do
      return some (← value.valueOf constants invoke)
  | assign target value => do
      let value ← value.valueOf constants invoke
      modify (·.assign target value)
      return none
  | evaluate value => do
      let _ ← value.valueOf constants invoke
      return none

def execAll : List Stmt → Evaluation Variables (Option Word)
  | [] => return none
  | statement :: rest => do
      match ← statement.exec with
      | some value => return some value
      | none => execAll rest

end

end Stmt

end Statements

/-! ## Files -/

/-- A variable of a file, and the functions that its initial value can call. -/
structure Object where
  declarator : Declarator
  visible : List String

/-- A function of a file, and the functions that it can call. -/
structure Function where
  parameters : List String
  declarations : List Declaration
  body : List Stmt
  visible : List String

/-- The values of enumerators; `value` is that of the next one. -/
def enumeratorValues (value : Word) : List Enumerator → Values
  | [] => []
  | enumerator :: rest =>
      let value := (enumerator.value.map Constant.value).getD value
      (enumerator.name, value) :: enumeratorValues (value + 1) rest

namespace Item

def constants : Item → Values
  | enumeration _ members _ => enumeratorValues 0 members
  | objects _ | prototype _ | function _ _ _ => []

/-- The function that an item declares. -/
def declared : Item → List String
  | prototype heading | function heading _ _ => [heading.name]
  | enumeration _ _ _ | objects _ => []

def declarators : Item → List Declarator
  | enumeration _ _ _ => []
  | objects declaration => declaration.declarators
  | prototype heading | function heading _ _ => heading.before

def functions (visible : List String) : Item → List (String × Function)
  | function heading declarations body =>
      [(heading.name, { parameters := heading.parameters.names, declarations, body, visible })]
  | enumeration _ _ _ | objects _ | prototype _ => []

end Item

namespace File

/-- The constants of a file. A file declares each name once, so a variable or a constant that is
visible somewhere has its name to itself in the whole file. -/
def constants (file : File) : Values :=
  file.flatMap Item.constants

/-- The variables of a file behind a place where some functions are visible. -/
def objects (visible : List String) : File → List Object
  | [] => []
  | item :: rest =>
      item.declarators.map ({ declarator := ·, visible }) ++
        objects (item.declared ++ visible) rest

/-- The functions of a file behind a place where some functions are visible. A function can call
itself. -/
def functions (visible : List String) : File → List (String × Function)
  | [] => []
  | item :: rest =>
      item.functions (item.declared ++ visible) ++ functions (item.declared ++ visible) rest

/-- Calls of functions that are visible. Other names stand for requests to the host, even if the
file has a function of that name further down. -/
def callsAmong (visible : List String) (invoke : String → List Word → Evaluation Values Word)
    (callee : String) (arguments : List Word) : Evaluation Values Word :=
  if callee ∈ visible then invoke callee arguments else throw .undefined

/-- Calls a function: its parameters get the values of the arguments, and the outermost block of its
body shares their scope. Calls may be nested `depth` deep. -/
def invoke (file : File) : Nat → String → List Word → Evaluation Values Word
  | 0, _, _ => throw .unfinished
  | depth + 1, callee, arguments => fun globals => do
      match (file.functions []).lookup callee with
      | none => throw .undefined
      | some function =>
          let calls := callsAmong function.visible (file.invoke depth)
          let parameters := (function.parameters.zip (arguments.map some)).reverse
          let run := do
            execDeclarators file.constants calls
              (function.declarations.flatMap Declaration.declarators)
            Stmt.execAll file.constants calls depth function.body
          match ← run { globals, locals := [parameters] } with
          | (some value, state) => return (value, state.globals)
          | (none, _) => throw .undefined

/-- Gives global variables their initial values, in the order of the text. -/
def storeInitials (file : File) (depth : Nat) : List Object → Evaluation Values Unit
  | [] => return
  | { declarator, visible } :: rest => do
      match declarator.initial with
      | none => file.storeInitials depth rest
      | some expression =>
          let value ← expression.eval file.constants (callsAmong visible (file.invoke depth)) []
          modify (Scope.assign declarator.name value)
          file.storeInitials depth rest

/-- The value of a program: that of `main` once all global variables have theirs. They are zero
until then. -/
def evaluate (file : File) (depth : Nat) : Except Stop Word := do
  let objects := file.objects []
  let run := do
    file.storeInitials depth objects
    file.invoke depth "main" []
  return (← run (objects.map fun object => (object.declarator.name, 0))).1

end File

end Syntax

end WordC
