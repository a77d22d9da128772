import WordC.Proofs.Language.Syntax

/-!
# Scopes and the static check

Scopes nest and a name means its innermost declaration. The check below walks a tree in the order of
its text and says whether every name is declared once in its scope, is declared before it is used,
and is used as what it is.
-/

namespace WordC.Syntax

variable {β γ : Type}

/-- The names of one scope, the latest first. -/
abbrev Scope (β : Type) := List (String × β)

/-- The scopes around a place of a text, the innermost first. -/
abbrev Scopes (β : Type) := List (Scope β)

/-- Declares a name, which the scope may not have yet. -/
def Scope.declare? (scope : Scope β) (name : String) (value : β) : Option (Scope β) :=
  if (scope.lookup name).isSome then none else some ((name, value) :: scope)

theorem Scope.declare?_eq_some {scope scope' : Scope β} {name : String} {value : β} :
    scope.declare? name value = some scope' ↔
      scope.lookup name = none ∧ scope' = (name, value) :: scope := by
  unfold Scope.declare?
  cases scope.lookup name with
  | none => simp [eq_comm]
  | some found => simp

namespace Scopes

def find? (scopes : Scopes β) (name : String) : Option β :=
  scopes.findSome? (·.lookup name)

/-- Declares a name in the innermost scope. -/
def declare? (scopes : Scopes β) (name : String) (value : β) : Option (Scopes β) :=
  match scopes with
  | [] => none
  | scope :: outer => (scope.declare? name value).map (· :: outer)

end Scopes

/-- What a name stands for. -/
inductive Meaning where
  /-- A variable. -/
  | object
  | constant
  | function (arity : Nat)
  /-- A call that the host answers, with any number of arguments for `none`. -/
  | system (arity : Option Nat)
deriving DecidableEq

/-- Whether the name can be called with that many arguments. -/
def Meaning.accepts (given : Nat) : Meaning → Bool
  | function arity => arity == given
  | system arity => arity.all (· == given)
  | object | constant => false

def Meaning.isValue : Meaning → Bool
  | object | constant => true
  | function _ | system _ => false

/-- The scope around that of the file. -/
def builtins : Scope Meaning :=
  Trap.all.map fun request => (request.name, .system request.arity?)

namespace Expr

mutual

def checks (scopes : Scopes Meaning) : Expr → Bool
  | literal _ | string _ | sizeof _ => true
  | name identifier => (scopes.find? identifier).any Meaning.isValue
  | addressOf identifier => scopes.find? identifier == some .object
  | unary _ operand => operand.checks scopes
  | binary _ left right => left.checks scopes && right.checks scopes
  | call callee arguments =>
      (scopes.find? callee).any (Meaning.accepts arguments.length) && allCheck scopes arguments
  | group inner => inner.checks scopes

def allCheck (scopes : Scopes Meaning) : List Expr → Bool
  | [] => true
  | argument :: rest => argument.checks scopes && allCheck scopes rest

end

end Expr

/-- Declares a variable, which is in scope in its own initial value. -/
def Declarator.check? (scopes : Scopes Meaning) (declarator : Declarator) :
    Option (Scopes Meaning) := do
  let scopes ← scopes.declare? declarator.name .object
  if declarator.initial.all (Expr.checks scopes) then some scopes else none

def checkDeclarators? (scopes : Scopes Meaning) : List Declarator → Option (Scopes Meaning)
  | [] => some scopes
  | declarator :: rest => (declarator.check? scopes).bind (checkDeclarators? · rest)

namespace Stmt

mutual

def checks (scopes : Scopes Meaning) : Stmt → Bool
  | empty => true
  | block declarations body =>
      match checkDeclarators? ([] :: scopes) (declarations.flatMap Declaration.declarators) with
      | none => false
      | some inner => allCheck inner body
  | ifThen condition consequence => condition.checks scopes && consequence.checks scopes
  | ifElse condition consequence alternative =>
      condition.checks scopes && consequence.checks scopes && alternative.checks scopes
  | whileLoop condition body => condition.checks scopes && body.checks scopes
  | leave value => value.all (Expr.checks scopes)
  | assign target value => scopes.find? target == some .object && value.checks scopes
  | evaluate value => value.checks scopes

def allCheck (scopes : Scopes Meaning) : List Stmt → Bool
  | [] => true
  | statement :: rest => statement.checks scopes && allCheck scopes rest

end

end Stmt

/-- The names of a file up to some place: its own scope, and the prototypes that still need a
body. -/
structure Globals where
  scope : Scope Meaning
  awaiting : List String

namespace Globals

def empty : Globals :=
  { scope := [], awaiting := [] }

def scopes (globals : Globals) : Scopes Meaning :=
  [globals.scope, builtins]

/-- Declares a variable of the file and checks its initial value. -/
def addVariable? (globals : Globals) (declarator : Declarator) : Option Globals := do
  let scope ← globals.scope.declare? declarator.name .object
  let globals := { globals with scope }
  if declarator.initial.all (Expr.checks globals.scopes) then some globals else none

def variables? (globals : Globals) : List Declarator → Option Globals
  | [] => some globals
  | declarator :: rest => (globals.addVariable? declarator).bind (variables? · rest)

def enumerators? (globals : Globals) : List Enumerator → Option Globals
  | [] => some globals
  | enumerator :: rest => do
      let scope ← globals.scope.declare? enumerator.name .constant
      enumerators? { globals with scope } rest

/-- Declares a function without a body. -/
def prototype? (globals : Globals) (name : String) (arity : Nat) : Option Globals := do
  let scope ← globals.scope.declare? name (.function arity)
  some { scope, awaiting := name :: globals.awaiting }

/-- Gives a function its body: a prototype of as many parameters, or else a new name. -/
def define? (globals : Globals) (name : String) (arity : Nat) : Option Globals :=
  if name ∈ globals.awaiting then
    if globals.scope.lookup name = some (.function arity) then
      some { globals with awaiting := globals.awaiting.filter (· ≠ name) }
    else none
  else do
    let scope ← globals.scope.declare? name (.function arity)
    some { globals with scope }

end Globals

/-- The scope of parameters. -/
def parameterScope? (scope : Scope β) (names : List (String × β)) : Option (Scope β) :=
  match names with
  | [] => some scope
  | (name, value) :: rest => (scope.declare? name value).bind (parameterScope? · rest)

namespace Item

def check? (globals : Globals) : Item → Option Globals
  | enumeration _ members _ => globals.enumerators? members
  | objects declaration => globals.variables? declaration.declarators
  | prototype heading => do
      let globals ← globals.variables? heading.before
      globals.prototype? heading.name heading.arity
  | function heading declarations body => do
      let globals ← globals.variables? heading.before
      let globals ← globals.define? heading.name heading.arity
      -- The outermost block of the body shares the scope of the parameters.
      let parameters ← parameterScope? [] (heading.parameters.names.map (·, Meaning.object))
      let inner ← checkDeclarators? (parameters :: globals.scopes)
        (declarations.flatMap Declaration.declarators)
      if Stmt.allCheck inner body then some globals else none

end Item

namespace File

def check? (globals : Globals) : File → Option Globals
  | [] => some globals
  | item :: rest => (item.check? globals).bind (check? · rest)

/-- Whether every prototype gets a body and `main` is a function without parameters, all names being
in order. -/
def checks (file : File) : Bool :=
  match file.check? .empty with
  | none => false
  | some globals =>
      globals.awaiting.isEmpty && globals.scope.lookup "main" == some (.function 0)

end File

end WordC.Syntax
