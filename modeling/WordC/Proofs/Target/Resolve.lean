import WordC.Proofs.Language.Scope
import WordC.Proofs.Target.Code
import WordC.Text.Utf8

/-!
# Resolving names

Resolving a tree replaces its names by what they stand for. Globals and the words of strings take
data in the order of the text, and the local variables of a block take the slots behind those that
are in use around it.
-/

namespace WordC.Core

open Syntax (Scope Scopes)

/-- What a name stands for, and where. -/
inductive Binding where
  | system (request : Trap)
  | function (arity : Nat)
  | object (place : Place)
  | constant (value : Word)
deriving DecidableEq

def Binding.meaning : Binding → Syntax.Meaning
  | system request => .system request.arity?
  | function arity => .function arity
  | object _ => .object
  | constant _ => .constant

def builtins : Scope Binding :=
  Trap.all.map fun request => (request.name, .system request)

theorem lookup_builtins (name : String) :
    builtins.lookup name = (Trap.all.find? (·.name == name)).map Binding.system := by
  unfold builtins
  induction Trap.all with
  | nil => rfl
  | cons request rest ih =>
      rw [List.map_cons, List.lookup_cons, List.find?_cons, ih]
      by_cases hname : request.name = name
      · simp [hname]
      · rw [show (request.name == name) = false by simpa using hname,
          show (name == request.name) = false by simpa using Ne.symm hname]

/-- The names at a place of a text. There are no local scopes outside of functions. -/
structure Env where
  locals : Scopes Binding
  globals : Scope Binding

namespace Env

def scopes (env : Env) : Scopes Binding :=
  env.locals ++ [env.globals, builtins]

def find? (env : Env) (name : String) : Option Binding :=
  env.scopes.find? name

def enter (env : Env) : Env :=
  { env with locals := [] :: env.locals }

/-- Declares a local variable. -/
def declare? (env : Env) (name : String) (place : Place) : Option Env :=
  (env.locals.declare? name (.object place)).map ({ env with locals := · })

theorem locals_ne_nil_of_declare? {env env' : Env} {name : String} {place : Place}
    (h : env.declare? name place = some env') : env'.locals ≠ [] := by
  obtain ⟨locals, hlocals, rfl⟩ := Option.map_eq_some_iff.1 h
  cases hscopes : env.locals with
  | nil =>
      rw [hscopes] at hlocals
      cases hlocals
  | cons scope outer =>
      rw [hscopes] at hlocals
      obtain ⟨declared, _, rfl⟩ := Option.map_eq_some_iff.1 hlocals
      exact List.cons_ne_nil _ _

end Env

end Core

namespace Syntax

open WordC.Core (Binding Env Place)

/-! ## Expressions -/

/-- The words of data that a string takes. -/
def stringWords (text : String) : List Word :=
  (Text.Utf8.encode text).map Word.ofByte ++ [0]

def Unary.resolve (operand : Core.Expr) : Unary → Core.Expr
  | minus => .binary .sub (.constant 0) operand
  | plus => operand
  | bang => .binary .eq operand (.constant 0)
  | tilde => .binary .xor operand (.constant (-1))
  | star => .follow operand

def Binary.resolve (left right : Core.Expr) : Binary → Core.Expr
  | logical connective => .logical connective left right
  | word operator => .binary operator left right

namespace Expr

mutual

/-- The data that the strings of an expression take. -/
def data : Expr → List Word
  | string text => stringWords text
  | unary _ operand => operand.data
  | binary _ left right => left.data ++ right.data
  | call _ arguments => argumentData arguments
  | group inner => inner.data
  | _ => []

def argumentData : List Expr → List Word
  | [] => []
  | argument :: rest => argument.data ++ argumentData rest

end

/-- The call of what a name stands for. -/
def resolveCall? (callee : String) (arguments : List Core.Expr) : Binding → Option Core.Expr
  | .function arity => if arity = arguments.length then some (.call callee arguments) else none
  | .system request =>
      if request.arity?.all (· == arguments.length) then some (.trap request arguments) else none
  | .object _ | .constant _ => none

/-- The value of what a name stands for. -/
def resolveName? : Binding → Option Core.Expr
  | .object place => some (.load place)
  | .constant value => some (.constant value)
  | .function _ | .system _ => none

def resolveAddress? : Binding → Option Core.Expr
  | .object place => some (.address place)
  | _ => none

mutual

/-- Resolves an expression whose strings take data from the address `start` on. -/
def resolve? (env : Env) (start : Nat) : Expr → Option Core.Expr
  | literal value => some (.constant value.value)
  | string _ => some (.constant (Word.ofCount start))
  | sizeof _ => some (.constant 1)
  | name identifier => (env.find? identifier).bind resolveName?
  | addressOf identifier => (env.find? identifier).bind resolveAddress?
  | unary op operand => (operand.resolve? env start).map (Unary.resolve · op)
  | binary op left right => do
      let first ← left.resolve? env start
      let second ← right.resolve? env (start + left.data.length)
      some (op.resolve first second)
  | call callee arguments => do
      let values ← resolveArguments? env start arguments
      (env.find? callee).bind (resolveCall? callee values)
  | group inner => inner.resolve? env start

def resolveArguments? (env : Env) (start : Nat) : List Expr → Option (List Core.Expr)
  | [] => some []
  | argument :: rest => do
      let first ← argument.resolve? env start
      let others ← resolveArguments? env (start + argument.data.length) rest
      some (first :: others)

end

theorem length_resolveArguments? {env : Env} {start : Nat} {args : List Expr}
    {values : List Core.Expr} (h : resolveArguments? env start args = some values) :
    values.length = args.length := by
  induction args generalizing start values with
  | nil =>
      cases h
      rfl
  | cons first others ih =>
      simp only [resolveArguments?, Option.bind_eq_bind, Option.bind_eq_some_iff,
        Option.some.injEq] at h
      obtain ⟨value, _, values, hvalues, rfl⟩ := h
      rw [List.length_cons, List.length_cons, ih hvalues]

end Expr

/-! ## Statements -/

def Declarator.data (declarator : Declarator) : List Word :=
  (declarator.initial.map Expr.data).getD []

def declaratorData (declarators : List Declarator) : List Word :=
  declarators.flatMap Declarator.data

/-- The statement that stores the initial value of a variable, if it has one. -/
def Declarator.resolve? (env : Env) (place : Place) (start : Nat) (declarator : Declarator) :
    Option (List Core.Stmt) :=
  match declarator.initial with
  | none => some []
  | some value => (value.resolve? env start).map fun value => [.store place value]

/-- Declares local variables behind the `used` slots, and gives the statements that store their
initial values. -/
def resolveDeclarators? (env : Env) (used start : Nat) :
    List Declarator → Option (Env × List Core.Stmt)
  | [] => some (env, [])
  | declarator :: rest => do
      let env ← env.declare? declarator.name (.slot (used + 1))
      let first ← declarator.resolve? env (.slot (used + 1)) start
      let (env, others) ← resolveDeclarators? env (used + 1) (start + declarator.data.length) rest
      some (env, first ++ others)

theorem resolveDeclarators?_cons_eq_some {declarator : Declarator} {rest : List Declarator}
    {env inner : Env} {used start : Nat} {stores : List Core.Stmt} :
    resolveDeclarators? env used start (declarator :: rest) = some (inner, stores) ↔
      ∃ next first others, env.declare? declarator.name (.slot (used + 1)) = some next ∧
        declarator.resolve? next (.slot (used + 1)) start = some first ∧
        resolveDeclarators? next (used + 1) (start + declarator.data.length) rest =
          some (inner, others) ∧
        stores = first ++ others := by
  simp only [resolveDeclarators?, Option.bind_eq_bind, Option.bind_eq_some_iff]
  constructor
  · rintro ⟨next, hdeclare, first, hfirst, ⟨_, others⟩, hrest, heq⟩
    cases heq
    exact ⟨next, first, others, hdeclare, hfirst, hrest, rfl⟩
  · rintro ⟨next, first, others, hdeclare, hfirst, hrest, rfl⟩
    exact ⟨next, hdeclare, first, hfirst, ⟨inner, others⟩, hrest, rfl⟩

theorem declaratorData_cons (declarator : Declarator) (rest : List Declarator) :
    declaratorData (declarator :: rest) = declarator.data ++ declaratorData rest := rfl

theorem declaratorData_append (front back : List Declarator) :
    declaratorData (front ++ back) = declaratorData front ++ declaratorData back :=
  List.flatMap_append

/-- Declarations are resolved one after the other. -/
theorem resolveDeclarators?_append_eq_some {front back : List Declarator} {env inner : Env}
    {used start : Nat} {stores : List Core.Stmt}
    (h : resolveDeclarators? env used start (front ++ back) = some (inner, stores)) :
    ∃ next first others, resolveDeclarators? env used start front = some (next, first) ∧
      resolveDeclarators? next (used + front.length) (start + (declaratorData front).length) back =
        some (inner, others) ∧
      stores = first ++ others := by
  induction front generalizing env used start stores with
  | nil => exact ⟨env, [], stores, rfl, h, rfl⟩
  | cons declarator front ih =>
      obtain ⟨next, first, others, hdeclare, hfirst, hrest, rfl⟩ :=
        resolveDeclarators?_cons_eq_some.1 h
      obtain ⟨last, middle, others, hfront, hback, rfl⟩ := ih hrest
      refine ⟨last, first ++ middle, others,
        resolveDeclarators?_cons_eq_some.2 ⟨next, first, middle, hdeclare, hfirst, hfront, rfl⟩,
        ?_, (List.append_assoc _ _ _).symm⟩
      rw [declaratorData_cons, List.length_append, List.length_cons]
      rw [← hback]
      congr 1 <;> omega

theorem resolveDeclarators?_append {front back : List Declarator} {env next inner : Env}
    {used start : Nat} {first others : List Core.Stmt}
    (hfront : resolveDeclarators? env used start front = some (next, first))
    (hback : resolveDeclarators? next (used + front.length)
      (start + (declaratorData front).length) back = some (inner, others)) :
    resolveDeclarators? env used start (front ++ back) = some (inner, first ++ others) := by
  induction front generalizing env used start first with
  | nil =>
      cases hfront
      exact hback
  | cons declarator front ih =>
      obtain ⟨middle, stores, more, hdeclare, hstores, hmore, rfl⟩ :=
        resolveDeclarators?_cons_eq_some.1 hfront
      refine resolveDeclarators?_cons_eq_some.2
        ⟨middle, stores, more ++ others, hdeclare, hstores, ih hmore ?_, List.append_assoc _ _ _⟩
      rw [declaratorData_cons, List.length_append, List.length_cons] at hback
      rw [← hback]
      congr 1 <;> omega

/-- Declarations change the innermost scope only. -/
theorem env_of_resolveDeclarators? {declarators : List Declarator} {env inner : Env}
    {used start : Nat} {stores : List Core.Stmt}
    (h : resolveDeclarators? env used start declarators = some (inner, stores)) :
    inner.locals.tail = env.locals.tail ∧ inner.globals = env.globals ∧
      (env.locals ≠ [] → inner.locals ≠ []) := by
  induction declarators generalizing env used start stores with
  | nil =>
      cases h
      exact ⟨rfl, rfl, id⟩
  | cons declarator rest ih =>
      obtain ⟨next, first, others, hdeclare, _, hrest, rfl⟩ :=
        resolveDeclarators?_cons_eq_some.1 h
      obtain ⟨locals, hlocals, rfl⟩ := Option.map_eq_some_iff.1 hdeclare
      obtain ⟨htail, hglobals, hne⟩ := ih hrest
      cases hscopes : env.locals with
      | nil =>
          rw [hscopes] at hlocals
          cases hlocals
      | cons scope outer =>
          rw [hscopes] at hlocals
          obtain ⟨declared, _, rfl⟩ := Option.map_eq_some_iff.1 hlocals
          exact ⟨htail, hglobals, fun _ => hne (List.cons_ne_nil _ _)⟩

namespace Stmt

mutual

def data : Stmt → List Word
  | empty => []
  | block declarations body =>
      declaratorData (declarations.flatMap Declaration.declarators) ++ bodyData body
  | ifThen condition consequence => condition.data ++ consequence.data
  | ifElse condition consequence alternative =>
      condition.data ++ (consequence.data ++ alternative.data)
  | whileLoop condition body => condition.data ++ body.data
  | leave none => []
  | leave (some value) => value.data
  | assign _ value => value.data
  | evaluate value => value.data

def bodyData : List Stmt → List Word
  | [] => []
  | statement :: rest => statement.data ++ bodyData rest

end

mutual

/-- The most slots in use at any place of a statement, `used` of them around it. -/
def peak (used : Nat) : Stmt → Nat
  | block declarations body =>
      bodyPeak (used + (declarations.flatMap Declaration.declarators).length) body
  | ifThen _ consequence => consequence.peak used
  | ifElse _ consequence alternative => max (consequence.peak used) (alternative.peak used)
  | whileLoop _ body => body.peak used
  | _ => used

def bodyPeak (used : Nat) : List Stmt → Nat
  | [] => used
  | statement :: rest => max (statement.peak used) (bodyPeak used rest)

end

end Stmt

end Syntax

namespace Core.Stmt

def ofList (statements : List Stmt) : Stmt :=
  statements.foldr .seq .skip

theorem ofList_cons (first : Stmt) (rest : List Stmt) :
    ofList (first :: rest) = .seq first (ofList rest) := rfl

theorem code_ofList_append (front back : List Stmt) (start : Nat) :
    (ofList (front ++ back)).code start =
      (ofList front).code start ++ (ofList back).code (start + size ((ofList front).code start)) := by
  induction front generalizing start with
  | nil => simp [ofList, code]
  | cons first front ih =>
      rw [List.cons_append, ofList_cons, ofList_cons, code, code, ih]
      simp [Nat.add_assoc]

end Core.Stmt

namespace Syntax

open WordC.Core (Binding Env Place)

namespace Stmt

mutual

def resolve? (env : Env) (used start : Nat) : Stmt → Option Core.Stmt
  | empty => some .skip
  | block declarations body => do
      let declarators := declarations.flatMap Declaration.declarators
      let (inner, stores) ← resolveDeclarators? env.enter used start declarators
      let statements ← resolveBody? inner (used + declarators.length)
        (start + (declaratorData declarators).length) body
      some (.ofList (stores ++ statements))
  | ifThen condition consequence => do
      let test ← condition.resolve? env start
      let inner ← consequence.resolve? env used (start + condition.data.length)
      some (.ifThen test inner)
  | ifElse condition consequence alternative => do
      let test ← condition.resolve? env start
      let inner ← consequence.resolve? env used (start + condition.data.length)
      let other ← alternative.resolve? env used
        (start + condition.data.length + consequence.data.length)
      some (.ifElse test inner other)
  | whileLoop condition body => do
      let test ← condition.resolve? env start
      let inner ← body.resolve? env used (start + condition.data.length)
      some (.whileLoop test inner)
  | leave none => some (.leave none)
  | leave (some value) => (value.resolve? env start).map fun value => .leave (some value)
  | assign target value =>
      match env.find? target with
      | some (.object place) => (value.resolve? env start).map (.store place)
      | _ => none
  | evaluate value => (value.resolve? env start).map .evaluate

def resolveBody? (env : Env) (used start : Nat) : List Stmt → Option (List Core.Stmt)
  | [] => some []
  | statement :: rest => do
      let first ← statement.resolve? env used start
      let others ← resolveBody? env used (start + statement.data.length) rest
      some (first :: others)

end

variable {env : Env} {used start : Nat} {core : Core.Stmt} {condition value : Expr}
  {consequence alternative body : Stmt} {target : String}

theorem resolve?_block_eq_some {declarations : List Declaration} {body : List Stmt} :
    (block declarations body).resolve? env used start = some core ↔
      ∃ inner stores statements,
        resolveDeclarators? env.enter used start
            (declarations.flatMap Declaration.declarators) = some (inner, stores) ∧
        resolveBody? inner (used + (declarations.flatMap Declaration.declarators).length)
            (start + (declaratorData (declarations.flatMap Declaration.declarators)).length) body =
          some statements ∧
        .ofList (stores ++ statements) = core := by
  simp only [resolve?, Option.bind_eq_bind, Option.bind_eq_some_iff, Option.some.injEq]
  constructor
  · rintro ⟨⟨inner, stores⟩, hstores, statements, hbody, rfl⟩
    exact ⟨inner, stores, statements, hstores, hbody, rfl⟩
  · rintro ⟨inner, stores, statements, hstores, hbody, rfl⟩
    exact ⟨⟨inner, stores⟩, hstores, statements, hbody, rfl⟩

theorem resolve?_ifThen_eq_some :
    (ifThen condition consequence).resolve? env used start = some core ↔
      ∃ test inner, condition.resolve? env start = some test ∧
        consequence.resolve? env used (start + condition.data.length) = some inner ∧
        .ifThen test inner = core := by
  simp only [resolve?, Option.bind_eq_bind, Option.bind_eq_some_iff, Option.some.injEq,
    exists_and_left]

theorem resolve?_ifElse_eq_some :
    (ifElse condition consequence alternative).resolve? env used start = some core ↔
      ∃ test inner other, condition.resolve? env start = some test ∧
        consequence.resolve? env used (start + condition.data.length) = some inner ∧
        alternative.resolve? env used
          (start + condition.data.length + consequence.data.length) = some other ∧
        .ifElse test inner other = core := by
  simp only [resolve?, Option.bind_eq_bind, Option.bind_eq_some_iff, Option.some.injEq,
    exists_and_left]

theorem resolve?_whileLoop_eq_some :
    (whileLoop condition body).resolve? env used start = some core ↔
      ∃ test inner, condition.resolve? env start = some test ∧
        body.resolve? env used (start + condition.data.length) = some inner ∧
        .whileLoop test inner = core := by
  simp only [resolve?, Option.bind_eq_bind, Option.bind_eq_some_iff, Option.some.injEq,
    exists_and_left]

theorem resolve?_assign_eq_some : (assign target value).resolve? env used start = some core ↔
    ∃ place resolved, env.find? target = some (.object place) ∧
      value.resolve? env start = some resolved ∧ .store place resolved = core := by
  rw [resolve?]
  constructor
  · intro h
    split at h
    · next place hfind =>
        obtain ⟨resolved, hresolved, rfl⟩ := Option.map_eq_some_iff.1 h
        exact ⟨place, resolved, hfind, hresolved, rfl⟩
    · cases h
  · rintro ⟨place, resolved, hfind, hresolved, rfl⟩
    rw [hfind]
    exact Option.map_eq_some_iff.2 ⟨resolved, hresolved, rfl⟩

end Stmt

/-! ## Files -/

/-- What a file has declared, written and stored up to some place. -/
structure Outline where
  globals : Scope Binding
  /-- Prototypes that still need a body. -/
  awaiting : List String
  sections : List Core.Section
  data : List Word

namespace Outline

def empty : Outline :=
  { globals := [], awaiting := [], sections := [], data := [] }

/-- The names outside of functions. -/
def env (outline : Outline) : Env :=
  { locals := [], globals := outline.globals }

/-- Declares a variable of the file. The data begins at `start`. -/
def addVariable? (start : Nat) (outline : Outline) (declarator : Declarator) : Option Outline := do
  let address := start + outline.data.length
  let globals ← outline.globals.declare? declarator.name (.object (.global address))
  let outline := { outline with globals, data := outline.data ++ [0] }
  match declarator.initial with
  | none => some outline
  | some value =>
      let resolved ← value.resolve? outline.env (start + outline.data.length)
      some { outline with
        sections := outline.sections ++ [.initializer address resolved]
        data := outline.data ++ value.data }

/-- A variable takes a new word, and a section behind the others if it has an initial value. -/
theorem addVariable?_cases {outline outline' : Outline} {start : Nat} {declarator : Declarator}
    (h : outline.addVariable? start declarator = some outline') :
    ∃ globals, outline.globals.declare? declarator.name
        (.object (.global (start + outline.data.length))) = some globals ∧
      (declarator.initial = none ∧
          outline' = { outline with globals, data := outline.data ++ [0] } ∨
        ∃ value resolved, declarator.initial = some value ∧
          value.resolve? { outline.env with globals } (start + (outline.data ++ [0]).length) =
            some resolved ∧
          outline' =
            { outline with
              globals
              sections :=
                outline.sections ++ [.initializer (start + outline.data.length) resolved]
              data := outline.data ++ [0] ++ value.data }) := by
  simp only [addVariable?, Option.bind_eq_bind, Option.bind_eq_some_iff] at h
  obtain ⟨globals, hdeclare, hinitial⟩ := h
  refine ⟨globals, hdeclare, ?_⟩
  cases hvalue : declarator.initial with
  | none =>
      rw [hvalue] at hinitial
      exact .inl ⟨rfl, (Option.some.inj hinitial).symm⟩
  | some value =>
      rw [hvalue] at hinitial
      obtain ⟨resolved, hresolved, hsome⟩ := Option.bind_eq_some_iff.1 hinitial
      exact .inr ⟨value, resolved, rfl, hresolved, (Option.some.inj hsome).symm⟩

def variables? (start : Nat) (outline : Outline) : List Declarator → Option Outline
  | [] => some outline
  | declarator :: rest => (outline.addVariable? start declarator).bind (variables? start · rest)

/-- Declares enumerators; `value` is that of the next one. -/
def enumerators? (outline : Outline) (value : Word) : List Enumerator → Option Outline
  | [] => some outline
  | enumerator :: rest => do
      let value := (enumerator.value.map Constant.value).getD value
      let globals ← outline.globals.declare? enumerator.name (.constant value)
      enumerators? { outline with globals } (value + 1) rest

def prototype? (outline : Outline) (name : String) (arity : Nat) : Option Outline := do
  let globals ← outline.globals.declare? name (.function arity)
  some { outline with globals, awaiting := name :: outline.awaiting }

def define? (outline : Outline) (name : String) (arity : Nat) : Option Outline :=
  if name ∈ outline.awaiting then
    if outline.globals.lookup name = some (.function arity) then
      some { outline with awaiting := outline.awaiting.filter (· ≠ name) }
    else none
  else do
    let globals ← outline.globals.declare? name (.function arity)
    some { outline with globals }

end Outline

/-- Parameters lie above the return address, the last one nearest. -/
def parameterBindings : List String → List (String × Binding)
  | [] => []
  | name :: rest => (name, .object (.parameter (rest.length + 2))) :: parameterBindings rest

/-- The scope, the slots and the statements of a function's body. -/
def resolveFunction? (globals : Scope Binding) (start : Nat) (parameters : List String)
    (declarations : List Declaration) (body : List Stmt) : Option (List Core.Stmt) := do
  let scope ← parameterScope? [] (parameterBindings parameters)
  let declarators := declarations.flatMap Declaration.declarators
  let (inner, stores) ← resolveDeclarators? { locals := [scope], globals } 0 start declarators
  let statements ← Stmt.resolveBody? inner declarators.length
    (start + (declaratorData declarators).length) body
  some (stores ++ statements)

/-- A body resolves as a block does in the scope of the parameters, with no slot in use. -/
theorem resolveFunction?_eq_some {globals : Scope Binding} {start : Nat} {parameters : List String}
    {declarations : List Declaration} {body : List Stmt} {statements : List Core.Stmt} :
    resolveFunction? globals start parameters declarations body = some statements ↔
      ∃ scope inner stores cores,
        parameterScope? [] (parameterBindings parameters) = some scope ∧
        resolveDeclarators? { locals := [scope], globals } 0 start
          (declarations.flatMap Declaration.declarators) = some (inner, stores) ∧
        Stmt.resolveBody? inner (0 + (declarations.flatMap Declaration.declarators).length)
          (start + (declaratorData (declarations.flatMap Declaration.declarators)).length) body =
            some cores ∧
        statements = stores ++ cores := by
  simp only [resolveFunction?, Option.bind_eq_bind, Option.bind_eq_some_iff, Option.some.injEq,
    Prod.exists, Nat.zero_add]
  constructor
  · rintro ⟨scope, hscope, inner, stores, hstores, cores, hcores, rfl⟩
    exact ⟨scope, inner, stores, cores, hscope, hstores, hcores, rfl⟩
  · rintro ⟨scope, inner, stores, cores, hscope, hstores, hcores, rfl⟩
    exact ⟨scope, hscope, inner, stores, hstores, cores, hcores, rfl⟩

namespace Item

def resolve? (start : Nat) (outline : Outline) : Item → Option Outline
  | enumeration _ members _ => outline.enumerators? 0 members
  | objects declaration => outline.variables? start declaration.declarators
  | prototype heading => do
      let outline ← outline.variables? start heading.before
      outline.prototype? heading.name heading.arity
  | function heading declarations body => do
      let outline ← outline.variables? start heading.before
      let outline ← outline.define? heading.name heading.arity
      let statements ← resolveFunction? outline.globals (start + outline.data.length)
        heading.parameters.names declarations body
      some { outline with
        sections := outline.sections ++
          [.function heading.name heading.arity ((Stmt.block declarations body).peak 0)
            (.ofList statements)]
        data := outline.data ++ (Stmt.block declarations body).data }

end Item

namespace File

def resolve? (start : Nat) (outline : Outline) : File → Option Outline
  | [] => some outline
  | item :: rest => (item.resolve? start outline).bind (resolve? start · rest)

end File

end Syntax

end WordC
