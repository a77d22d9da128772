import WordC.Proofs.Target.Resolve

/-!
# What resolves is what passes the check

The check keeps of each name only what it means, resolving also where it lives. Both walk a tree in
the same order, so a tree resolves exactly if it passes the check.
-/

namespace WordC

open WordC.Core (Binding Env Place)
open Syntax (Meaning Scope Scopes)

namespace Core

/-- What the names of a scope mean. -/
def meanings (scope : Scope Binding) : Scope Meaning :=
  scope.map fun (name, binding) => (name, binding.meaning)

theorem lookup_meanings (scope : Scope Binding) (name : String) :
    (meanings scope).lookup name = (scope.lookup name).map Binding.meaning := by
  induction scope with
  | nil => rfl
  | cons entry rest ih =>
      obtain ⟨other, binding⟩ := entry
      rw [meanings, List.map_cons, List.lookup_cons, List.lookup_cons]
      cases name == other with
      | true => rfl
      | false => exact ih

theorem declare?_meanings (scope : Scope Binding) (name : String) (binding : Binding) :
    (meanings scope).declare? name binding.meaning =
      (scope.declare? name binding).map meanings := by
  unfold Scope.declare?
  rw [lookup_meanings]
  cases scope.lookup name with
  | none => rfl
  | some found => rfl

/-- What the names at a place of a text mean. -/
def Env.meanings (env : Env) : Scopes Meaning :=
  env.scopes.map Core.meanings

theorem Env.find?_meanings (env : Env) (name : String) :
    env.meanings.find? name = (env.find? name).map Binding.meaning := by
  unfold meanings find?
  generalize env.scopes = scopes
  induction scopes with
  | nil => rfl
  | cons scope rest ih =>
      unfold Scopes.find? at ih ⊢
      rw [List.map_cons, List.findSome?_cons, List.findSome?_cons, lookup_meanings]
      cases scope.lookup name with
      | none => exact ih
      | some found => rfl

theorem Env.declare?_meanings {env : Env} (hinside : env.locals ≠ []) (name : String)
    (place : Place) :
    env.meanings.declare? name .object = (env.declare? name place).map Env.meanings := by
  obtain ⟨locals, globals⟩ := env
  cases locals with
  | nil => exact absurd rfl hinside
  | cons scope outer =>
      have hscope := Core.declare?_meanings scope name (.object place)
      rw [show (Binding.object place).meaning = .object from rfl] at hscope
      change ((Core.meanings scope).declare? name .object).map _ = _
      rw [hscope, Env.declare?, Scopes.declare?]
      cases scope.declare? name (.object place) with
      | none => rfl
      | some next => rfl

end Core

namespace Syntax

/-! ## Expressions -/

namespace Expr

theorem isSome_resolveName? (binding : Option Binding) :
    (binding.bind resolveName?).isSome = (binding.map Binding.meaning).any Meaning.isValue := by
  cases binding with
  | none => rfl
  | some binding => cases binding <;> rfl

theorem isSome_resolveAddress? (binding : Option Binding) :
    (binding.bind resolveAddress?).isSome =
      (binding.map Binding.meaning == some Meaning.object) := by
  cases binding with
  | none => rfl
  | some binding => cases binding <;> rfl

theorem isSome_resolveCall? (callee : String) (values : List Core.Expr) (binding : Option Binding) :
    (binding.bind (resolveCall? callee values)).isSome =
      (binding.map Binding.meaning).any (Meaning.accepts values.length) := by
  cases binding with
  | none => rfl
  | some binding =>
      cases binding with
      | function arity =>
          by_cases harity : arity = values.length
          · simp [resolveCall?, Binding.meaning, Meaning.accepts, harity]
          · simp [resolveCall?, Binding.meaning, Meaning.accepts, harity]
      | system request =>
          cases hall : request.arity?.all (· == values.length) with
          | true => simp [resolveCall?, Binding.meaning, Meaning.accepts, hall]
          | false => simp [resolveCall?, Binding.meaning, Meaning.accepts, hall]
      | object place => rfl
      | constant value => rfl

mutual

theorem isSome_resolve? (env : Env) (start : Nat) :
    ∀ e : Expr, (e.resolve? env start).isSome = e.checks env.meanings
  | literal _ | string _ | sizeof _ => rfl
  | name identifier => by
      rw [resolve?, checks, isSome_resolveName?, Env.find?_meanings]
  | addressOf identifier => by
      rw [resolve?, checks, isSome_resolveAddress?, Env.find?_meanings]
  | unary op operand => by
      rw [resolve?, checks, Option.isSome_map, isSome_resolve? env start operand]
  | binary op left right => by
      rw [checks, ← isSome_resolve? env start left,
        ← isSome_resolve? env (start + left.data.length) right, resolve?]
      cases left.resolve? env start with
      | none => rfl
      | some first =>
          cases right.resolve? env (start + left.data.length) with
          | none => rfl
          | some second => rfl
  | call callee arguments => by
      rw [checks, ← isSome_resolveArguments? env start arguments, resolve?, Env.find?_meanings]
      cases hvalues : resolveArguments? env start arguments with
      | none => simp
      | some values =>
          simp only [Option.bind_eq_bind, Option.bind_some, Option.isSome_some, Bool.and_true]
          rw [isSome_resolveCall?, length_resolveArguments? hvalues]
  | group inner => by
      rw [resolve?, checks, isSome_resolve? env start inner]

theorem isSome_resolveArguments? (env : Env) (start : Nat) :
    ∀ arguments : List Expr,
      (resolveArguments? env start arguments).isSome = allCheck env.meanings arguments
  | [] => rfl
  | argument :: rest => by
      rw [allCheck, ← isSome_resolve? env start argument,
        ← isSome_resolveArguments? env (start + argument.data.length) rest, resolveArguments?]
      cases argument.resolve? env start with
      | none => rfl
      | some first =>
          cases resolveArguments? env (start + argument.data.length) rest with
          | none => rfl
          | some others => rfl

end

end Expr

/-! ## Statements -/

theorem check?_meanings {env : Env} (hinside : env.locals ≠ []) (used start : Nat)
    (declarator : Declarator) :
    declarator.check? env.meanings = do
      let env ← env.declare? declarator.name (.slot (used + 1))
      let _ ← declarator.resolve? env (.slot (used + 1)) start
      return env.meanings := by
  unfold Declarator.check? Declarator.resolve?
  rw [Env.declare?_meanings hinside declarator.name (.slot (used + 1))]
  cases env.declare? declarator.name (.slot (used + 1)) with
  | none => rfl
  | some next =>
      obtain ⟨name, initial⟩ := declarator
      cases initial with
      | none => rfl
      | some value =>
          have hvalue := Expr.isSome_resolve? next start value
          simp only [Option.map_some, Option.bind_eq_bind, Option.bind_some, Option.all_some,
            ← hvalue]
          cases value.resolve? next start with
          | none => rfl
          | some resolved => rfl

theorem checkDeclarators?_meanings (declarators : List Declarator) :
    ∀ (env : Env) (used start : Nat), env.locals ≠ [] →
      checkDeclarators? env.meanings declarators =
        (resolveDeclarators? env used start declarators).map (·.1.meanings) := by
  induction declarators with
  | nil =>
      intro env used start _
      rfl
  | cons declarator rest ih =>
      intro env used start hinside
      rw [checkDeclarators?, resolveDeclarators?, check?_meanings hinside used start]
      cases hdeclare : env.declare? declarator.name (.slot (used + 1)) with
      | none => rfl
      | some next =>
          simp only [Option.bind_eq_bind, Option.bind_some]
          cases declarator.resolve? next (.slot (used + 1)) start with
          | none => rfl
          | some first =>
              simp only [Option.bind_some, Option.pure_def]
              rw [ih next (used + 1) (start + declarator.data.length)
                (Env.locals_ne_nil_of_declare? hdeclare)]
              cases resolveDeclarators? next (used + 1) (start + declarator.data.length) rest with
              | none => rfl
              | some found => rfl

theorem Env.meanings_enter (env : Env) : env.enter.meanings = [] :: env.meanings := rfl

namespace Stmt

mutual

theorem isSome_resolve? {env : Env} (hinside : env.locals ≠ []) (used start : Nat) :
    ∀ statement : Stmt, (statement.resolve? env used start).isSome = statement.checks env.meanings
  | empty => rfl
  | block declarations body => by
      have hscope : env.enter.locals ≠ [] := List.cons_ne_nil _ _
      rw [checks, resolve?, ← Env.meanings_enter,
        checkDeclarators?_meanings _ env.enter used start hscope]
      cases hdeclared : resolveDeclarators? env.enter used start
          (declarations.flatMap Declaration.declarators) with
      | none => rfl
      | some found =>
          obtain ⟨inner, stores⟩ := found
          obtain ⟨_, _, hinner⟩ := env_of_resolveDeclarators? hdeclared
          simp only [Option.bind_eq_bind, Option.bind_some, Option.map_some]
          rw [← isSome_resolveBody? (hinner hscope)
            (used + (declarations.flatMap Declaration.declarators).length)
            (start + (declaratorData (declarations.flatMap Declaration.declarators)).length) body]
          cases resolveBody? inner (used + (declarations.flatMap Declaration.declarators).length)
              (start + (declaratorData (declarations.flatMap Declaration.declarators)).length)
              body with
          | none => rfl
          | some cores => rfl
  | ifThen condition consequence => by
      rw [checks, ← Expr.isSome_resolve? env start condition,
        ← isSome_resolve? hinside used (start + condition.data.length) consequence, resolve?]
      cases condition.resolve? env start with
      | none => rfl
      | some test =>
          cases consequence.resolve? env used (start + condition.data.length) with
          | none => rfl
          | some inner => rfl
  | ifElse condition consequence alternative => by
      rw [checks, ← Expr.isSome_resolve? env start condition,
        ← isSome_resolve? hinside used (start + condition.data.length) consequence,
        ← isSome_resolve? hinside used (start + condition.data.length + consequence.data.length)
          alternative, resolve?]
      cases condition.resolve? env start with
      | none => rfl
      | some test =>
          cases consequence.resolve? env used (start + condition.data.length) with
          | none => rfl
          | some inner =>
              cases alternative.resolve? env used
                  (start + condition.data.length + consequence.data.length) with
              | none => rfl
              | some other => rfl
  | whileLoop condition body => by
      rw [checks, ← Expr.isSome_resolve? env start condition,
        ← isSome_resolve? hinside used (start + condition.data.length) body, resolve?]
      cases condition.resolve? env start with
      | none => rfl
      | some test =>
          cases body.resolve? env used (start + condition.data.length) with
          | none => rfl
          | some inner => rfl
  | leave none => rfl
  | leave (some value) => by
      rw [checks, resolve?, Option.isSome_map, Option.all_some,
        Expr.isSome_resolve? env start value]
  | assign target value => by
      rw [checks, resolve?, Env.find?_meanings, ← Expr.isSome_resolve? env start value]
      cases env.find? target with
      | none => rfl
      | some binding => cases binding <;> simp [Binding.meaning]
  | evaluate value => by
      rw [checks, resolve?, Option.isSome_map, Expr.isSome_resolve? env start value]

theorem isSome_resolveBody? {env : Env} (hinside : env.locals ≠ []) (used start : Nat) :
    ∀ body : List Stmt, (resolveBody? env used start body).isSome = allCheck env.meanings body
  | [] => rfl
  | statement :: rest => by
      rw [allCheck, ← isSome_resolve? hinside used start statement,
        ← isSome_resolveBody? hinside used (start + statement.data.length) rest, resolveBody?]
      cases statement.resolve? env used start with
      | none => rfl
      | some first =>
          cases resolveBody? env used (start + statement.data.length) rest with
          | none => rfl
          | some others => rfl

end

end Stmt

/-! ## Files -/

namespace Outline

/-- What the check knows of an outline. -/
def meanings (outline : Outline) : Globals :=
  { scope := Core.meanings outline.globals, awaiting := outline.awaiting }

theorem addVariable?_meanings (start : Nat) (outline : Outline) (declarator : Declarator) :
    outline.meanings.addVariable? declarator =
      (outline.addVariable? start declarator).map meanings := by
  obtain ⟨name, initial⟩ := declarator
  have hscope := Core.declare?_meanings outline.globals name
    (.object (.global (start + outline.data.length)))
  rw [Globals.addVariable?, Outline.addVariable?,
    show outline.meanings.scope.declare? name .object = _ from hscope]
  cases outline.globals.declare? name (.object (.global (start + outline.data.length))) with
  | none => rfl
  | some globals =>
      cases initial with
      | none => rfl
      | some value =>
          let declared : Outline := { outline with globals, data := outline.data ++ [0] }
          have hvalue := Expr.isSome_resolve? declared.env (start + declared.data.length) value
          simp only [Option.bind_eq_bind, Option.bind_some, Option.map_some, Option.all_some]
          change (if Expr.checks declared.env.meanings value then _ else _) =
            Option.map _ ((value.resolve? declared.env (start + declared.data.length)).bind _)
          rw [← hvalue]
          cases value.resolve? declared.env (start + declared.data.length) with
          | none => rfl
          | some resolved => rfl

theorem variables?_meanings (start : Nat) (declarators : List Declarator) :
    ∀ outline : Outline, outline.meanings.variables? declarators =
      (outline.variables? start declarators).map meanings := by
  induction declarators with
  | nil =>
      intro outline
      rfl
  | cons declarator rest ih =>
      intro outline
      rw [Globals.variables?, Outline.variables?, addVariable?_meanings start]
      cases outline.addVariable? start declarator with
      | none => rfl
      | some next => exact ih next

theorem enumerators?_meanings (members : List Enumerator) :
    ∀ (outline : Outline) (value : Word), outline.meanings.enumerators? members =
      (outline.enumerators? value members).map meanings := by
  induction members with
  | nil =>
      intro outline value
      rfl
  | cons member rest ih =>
      intro outline value
      have hscope := Core.declare?_meanings outline.globals member.name
        (.constant ((member.value.map Constant.value).getD value))
      rw [Globals.enumerators?, Outline.enumerators?,
        show outline.meanings.scope.declare? member.name .constant = _ from hscope]
      cases outline.globals.declare? member.name
          (.constant ((member.value.map Constant.value).getD value)) with
      | none => rfl
      | some globals => exact ih { outline with globals } _

theorem prototype?_meanings (outline : Outline) (name : String) (arity : Nat) :
    outline.meanings.prototype? name arity = (outline.prototype? name arity).map meanings := by
  have hscope := Core.declare?_meanings outline.globals name (.function arity)
  rw [Globals.prototype?, Outline.prototype?,
    show outline.meanings.scope.declare? name (.function arity) = _ from hscope]
  cases outline.globals.declare? name (.function arity) with
  | none => rfl
  | some globals => rfl

theorem lookup_function (scope : Scope Binding) (name : String) (arity : Nat) :
    (Core.meanings scope).lookup name = some (.function arity) ↔
      scope.lookup name = some (.function arity) := by
  rw [Core.lookup_meanings]
  cases scope.lookup name with
  | none => simp
  | some binding => cases binding <;> simp [Binding.meaning]

theorem define?_meanings (outline : Outline) (name : String) (arity : Nat) :
    outline.meanings.define? name arity = (outline.define? name arity).map meanings := by
  have hfunction : outline.meanings.scope.lookup name = some (.function arity) ↔
      outline.globals.lookup name = some (.function arity) := lookup_function _ _ _
  unfold Globals.define? Outline.define?
  by_cases hmem : name ∈ outline.awaiting
  · rw [if_pos hmem, if_pos (show name ∈ outline.meanings.awaiting from hmem)]
    by_cases hlookup : outline.globals.lookup name = some (.function arity)
    · rw [if_pos hlookup, if_pos (hfunction.2 hlookup)]
      rfl
    · rw [if_neg hlookup, if_neg fun h => hlookup (hfunction.1 h)]
      rfl
  · rw [if_neg hmem, if_neg (show name ∉ outline.meanings.awaiting from hmem)]
    have hscope := Core.declare?_meanings outline.globals name (.function arity)
    rw [show outline.meanings.scope.declare? name (.function arity) = _ from hscope]
    cases outline.globals.declare? name (.function arity) with
    | none => rfl
    | some globals => rfl

end Outline

theorem parameterScope?_meanings (names : List String) :
    ∀ scope : Scope Binding,
      parameterScope? (Core.meanings scope) (names.map (·, Meaning.object)) =
        (parameterScope? scope (parameterBindings names)).map Core.meanings := by
  induction names with
  | nil =>
      intro scope
      rfl
  | cons name rest ih =>
      intro scope
      have hscope := Core.declare?_meanings scope name (.object (.parameter (rest.length + 2)))
      rw [List.map_cons, parameterScope?, parameterBindings, parameterScope?,
        show (Core.meanings scope).declare? name Meaning.object = _ from hscope]
      cases scope.declare? name (.object (.parameter (rest.length + 2))) with
      | none => rfl
      | some next => exact ih next

theorem resolveFunction?_meanings {γ : Type} {result : γ} (outline : Outline) (start : Nat)
    (parameters : List String) (declarations : List Declaration) (body : List Stmt) :
    (do
      let scope ← parameterScope? [] (parameters.map (·, Meaning.object))
      let inner ← checkDeclarators? (scope :: outline.meanings.scopes)
        (declarations.flatMap Declaration.declarators)
      if Stmt.allCheck inner body then some result else none) =
      (resolveFunction? outline.globals start parameters declarations body).map fun _ => result := by
  rw [resolveFunction?, show ([] : Scope Meaning) = Core.meanings [] from rfl,
    parameterScope?_meanings]
  cases parameterScope? [] (parameterBindings parameters) with
  | none => rfl
  | some scope =>
      let env : Env := { locals := [scope], globals := outline.globals }
      have hinside : env.locals ≠ [] := List.cons_ne_nil _ _
      have hdeclared := checkDeclarators?_meanings
        (declarations.flatMap Declaration.declarators) env 0 start hinside
      simp only [Option.bind_eq_bind, Option.bind_some, Option.map_some]
      rw [show checkDeclarators? (Core.meanings scope :: outline.meanings.scopes)
        (declarations.flatMap Declaration.declarators) = _ from hdeclared]
      cases hinner : resolveDeclarators? env 0 start
          (declarations.flatMap Declaration.declarators) with
      | none => rfl
      | some found =>
          obtain ⟨inner, stores⟩ := found
          obtain ⟨_, _, hne⟩ := env_of_resolveDeclarators? hinner
          simp only [Option.bind_some, Option.map_some]
          rw [← Stmt.isSome_resolveBody? (hne hinside)
            (declarations.flatMap Declaration.declarators).length
            (start + (declaratorData (declarations.flatMap Declaration.declarators)).length) body]
          cases Stmt.resolveBody? inner (declarations.flatMap Declaration.declarators).length
              (start + (declaratorData (declarations.flatMap Declaration.declarators)).length)
              body with
          | none => rfl
          | some cores => rfl

theorem Item.check?_meanings (start : Nat) (outline : Outline) (item : Item) :
    item.check? outline.meanings = (item.resolve? start outline).map Outline.meanings := by
  cases item with
  | enumeration tag members trailing => exact outline.enumerators?_meanings members 0
  | objects declaration => exact Outline.variables?_meanings start declaration.declarators outline
  | prototype heading =>
      rw [check?, resolve?, Outline.variables?_meanings start]
      cases outline.variables? start heading.before with
      | none => rfl
      | some next => exact next.prototype?_meanings heading.name heading.arity
  | function heading declarations body =>
      rw [check?, resolve?, Outline.variables?_meanings start]
      cases outline.variables? start heading.before with
      | none => rfl
      | some next =>
          simp only [Option.bind_eq_bind, Option.bind_some, Option.map_some]
          rw [next.define?_meanings heading.name heading.arity]
          cases next.define? heading.name heading.arity with
          | none => rfl
          | some last =>
              simp only [Option.bind_some, Option.map_some]
              have hbody := @resolveFunction?_meanings _ last.meanings last (start + last.data.length)
                heading.parameters.names declarations body
              simp only [Option.bind_eq_bind] at hbody
              rw [hbody]
              cases resolveFunction? last.globals (start + last.data.length)
                  heading.parameters.names declarations body with
              | none => rfl
              | some statements => rfl

theorem File.check?_meanings (start : Nat) (file : File) :
    ∀ outline : Outline, file.check? outline.meanings =
      (file.resolve? start outline).map Outline.meanings := by
  induction file with
  | nil =>
      intro outline
      rfl
  | cons item rest ih =>
      intro outline
      rw [check?, resolve?, item.check?_meanings start]
      cases item.resolve? start outline with
      | none => rfl
      | some next => exact ih next

/-- A file passes the check if and only if it resolves, each prototype has got a body and `main` is
a function without parameters. -/
theorem File.checks_iff (start : Nat) (file : File) :
    file.checks ↔ ∃ outline, file.resolve? start Outline.empty = some outline ∧
      outline.awaiting = [] ∧ outline.globals.lookup "main" = some (.function 0) := by
  unfold checks
  rw [show Globals.empty = Outline.empty.meanings from rfl, check?_meanings start]
  cases hresolve : file.resolve? start Outline.empty with
  | none => simp
  | some outline =>
      have hmain := Outline.lookup_function outline.globals "main" 0
      simp only [Option.map_some, Bool.and_eq_true, List.isEmpty_iff, beq_iff_eq]
      rw [show outline.meanings.scope.lookup "main" = some (.function 0) ↔ _ from hmain]
      simp [Outline.meanings]

end Syntax

end WordC
