import WordC.Memory.Layout
import WordC.Proofs.Language.Spine
import WordC.Proofs.Target.Resolve

/-!
# Resolved trees are valid

A resolved tree refers to nothing that is not there: its places are slots and parameters of its
function or data of its file, and what it calls is a function of the file with as many parameters.
-/

namespace WordC

open WordC.Core (Binding Env Place)
open Syntax (Scope Scopes)

namespace Core

/-- What a tree may refer to. -/
structure Context where
  /-- The number of parameters. -/
  arity : Nat
  /-- The number of local slots. -/
  slots : Nat
  data : Extent
  /-- The functions and their numbers of parameters. -/
  functions : String → Option Nat

variable {context context' : Context}

def Place.Valid (context : Context) : Place → Prop
  | global address => context.data.start ≤ address ∧ address < context.data.stop
  | slot index => 1 ≤ index ∧ index ≤ context.slots
  | parameter distance => 2 ≤ distance ∧ distance < context.arity + 2

namespace Expr

mutual

def Valid (context : Context) : Expr → Prop
  | constant _ => True
  | load place | address place => place.Valid context
  | follow pointer => pointer.Valid context
  | binary _ left right | logical _ left right => left.Valid context ∧ right.Valid context
  | call callee arguments =>
      context.functions callee = some arguments.length ∧ AllValid context arguments
  | trap request arguments =>
      request.arity?.all (· == arguments.length) = true ∧ AllValid context arguments

def AllValid (context : Context) : List Expr → Prop
  | [] => True
  | argument :: rest => argument.Valid context ∧ AllValid context rest

end

end Expr

def Stmt.Valid (context : Context) : Stmt → Prop
  | skip => True
  | seq first second => first.Valid context ∧ second.Valid context
  | store place value => place.Valid context ∧ value.Valid context
  | evaluate value => value.Valid context
  | leave value => ∀ result ∈ value, result.Valid context
  | ifThen condition consequence => condition.Valid context ∧ consequence.Valid context
  | ifElse condition consequence alternative =>
      condition.Valid context ∧ consequence.Valid context ∧ alternative.Valid context
  | whileLoop condition body => condition.Valid context ∧ body.Valid context

theorem Stmt.valid_ofList {statements : List Stmt} :
    (ofList statements).Valid context ↔ ∀ statement ∈ statements, statement.Valid context := by
  induction statements with
  | nil => exact iff_of_true trivial (fun statement hmem => absurd hmem List.not_mem_nil)
  | cons first rest ih =>
      rw [ofList_cons, Valid, ih, List.forall_mem_cons]

/-- The context of a function's body. -/
def Context.inside (context : Context) (arity slots : Nat) : Context :=
  { context with arity, slots }

def Section.Valid (context : Context) : Section → Prop
  | .function _ arity slots body => body.Valid (context.inside arity slots)
  | .initializer address value =>
      (Place.global address).Valid context ∧ value.Valid (context.inside 0 0)

/-! ## Larger contexts -/

/-- The context has grown. -/
structure Context.Within (context context' : Context) : Prop where
  arity : context.arity ≤ context'.arity
  slots : context.slots ≤ context'.slots
  dataStart : context'.data.start = context.data.start
  dataStop : context.data.stop ≤ context'.data.stop
  functions : ∀ name arity, context.functions name = some arity →
    context'.functions name = some arity

theorem Context.Within.inside (h : context.Within context') (arity slots : Nat) :
    (context.inside arity slots).Within (context'.inside arity slots) :=
  { arity := Nat.le_refl _
    slots := Nat.le_refl _
    dataStart := h.dataStart
    dataStop := h.dataStop
    functions := h.functions }

theorem Place.Valid.mono (h : context.Within context') {place : Place}
    (hplace : place.Valid context) : place.Valid context' := by
  have harity := h.arity
  have hslots := h.slots
  have hstop := h.dataStop
  cases place with
  | global address =>
      simp only [Place.Valid] at hplace ⊢
      rw [h.dataStart]
      omega
  | slot index =>
      simp only [Place.Valid] at hplace ⊢
      omega
  | parameter distance =>
      simp only [Place.Valid] at hplace ⊢
      omega

mutual

theorem Expr.Valid.mono (h : context.Within context') :
    ∀ {e : Expr}, e.Valid context → e.Valid context'
  | .constant _, _ => trivial
  | .load _, hplace | .address _, hplace => Place.Valid.mono h hplace
  | .follow pointer, hpointer => Expr.Valid.mono (e := pointer) h hpointer
  | .binary _ _ _, hparts | .logical _ _ _, hparts =>
      ⟨Expr.Valid.mono h hparts.1, Expr.Valid.mono h hparts.2⟩
  | .call _ _, hcall => ⟨h.functions _ _ hcall.1, Expr.AllValid.mono h hcall.2⟩
  | .trap _ _, htrap => ⟨htrap.1, Expr.AllValid.mono h htrap.2⟩

theorem Expr.AllValid.mono (h : context.Within context') :
    ∀ {values : List Expr}, Expr.AllValid context values → Expr.AllValid context' values
  | [], _ => trivial
  | _ :: _, hall => ⟨Expr.Valid.mono h hall.1, Expr.AllValid.mono h hall.2⟩

end

theorem Stmt.Valid.mono (h : context.Within context') {statement : Stmt}
    (hvalid : statement.Valid context) : statement.Valid context' := by
  induction statement with
  | skip => trivial
  | seq first second ihFirst ihSecond => exact ⟨ihFirst hvalid.1, ihSecond hvalid.2⟩
  | store place value => exact ⟨hvalid.1.mono h, hvalid.2.mono h⟩
  | evaluate value => exact Expr.Valid.mono h hvalid
  | leave value => exact fun result hmem => Expr.Valid.mono h (hvalid result hmem)
  | ifThen condition consequence ih => exact ⟨hvalid.1.mono h, ih hvalid.2⟩
  | ifElse condition consequence alternative ihConsequence ihAlternative =>
      exact ⟨hvalid.1.mono h, ihConsequence hvalid.2.1, ihAlternative hvalid.2.2⟩
  | whileLoop condition body ih => exact ⟨hvalid.1.mono h, ih hvalid.2⟩

theorem Section.Valid.mono (h : context.Within context') {part : Section}
    (hvalid : part.Valid context) : part.Valid context' := by
  cases part with
  | function name arity slots body => exact Stmt.Valid.mono (h.inside arity slots) hvalid
  | initializer address value =>
      exact ⟨hvalid.1.mono h, Expr.Valid.mono (h.inside 0 0) hvalid.2⟩

/-! ## Environments -/

/-- Whether what a name stands for is there. -/
def Binding.Valid (context : Context) (name : String) : Binding → Prop
  | system _ | constant _ => True
  | function arity => context.functions name = some arity
  | object place => place.Valid context

def Env.Valid (context : Context) (env : Env) : Prop :=
  ∀ name binding, env.find? name = some binding → binding.Valid context name

theorem Binding.Valid.mono (h : context.Within context') {name : String} {binding : Binding}
    (hvalid : binding.Valid context name) : binding.Valid context' name := by
  cases binding with
  | system request => trivial
  | constant value => trivial
  | function arity => exact h.functions name arity hvalid
  | object place => exact Place.Valid.mono h hvalid

theorem Env.Valid.mono (h : context.Within context') {env : Env} (hvalid : env.Valid context) :
    env.Valid context' :=
  fun name binding hfind => (hvalid name binding hfind).mono h

/-- An environment is valid if what has been declared is. -/
theorem Env.valid_of_scopes {env : Env}
    (h : ∀ scope ∈ env.globals :: env.locals, ∀ entry ∈ scope, entry.2.Valid context entry.1) :
    env.Valid context := by
  intro name binding hfind
  obtain ⟨scope, hscope, hlookup⟩ := List.exists_of_findSome?_eq_some hfind
  have hdeclared : scope ∈ env.globals :: env.locals → binding.Valid context name := by
    intro hmem
    obtain ⟨front, back, rfl, -⟩ := List.lookup_eq_some_iff.1 hlookup
    exact h _ hmem _ List.mem_append_cons_self
  rcases List.mem_append.1 hscope with hlocal | hfile
  · exact hdeclared (List.mem_cons_of_mem _ hlocal)
  rcases List.mem_cons.1 hfile with rfl | hbuiltin
  · exact hdeclared List.mem_cons_self
  · rw [List.mem_singleton.1 hbuiltin, lookup_builtins] at hlookup
    obtain ⟨request, -, rfl⟩ := Option.map_eq_some_iff.1 hlookup
    trivial

theorem Env.Valid.enter {env : Env} (h : env.Valid context) : env.enter.Valid context := h

/-- A declaration changes the meaning of one name. -/
theorem Env.find?_of_declare? {env env' : Env} {name : String} {place : Place}
    (h : env.declare? name place = some env') (other : String) :
    env'.find? other = if other = name then some (.object place) else env.find? other := by
  obtain ⟨locals, hlocals, rfl⟩ := Option.map_eq_some_iff.1 h
  cases hscopes : env.locals with
  | nil =>
      rw [hscopes] at hlocals
      cases hlocals
  | cons scope outer =>
      rw [hscopes] at hlocals
      obtain ⟨declared, hdeclare, rfl⟩ := Option.map_eq_some_iff.1 hlocals
      obtain ⟨-, rfl⟩ := Scope.declare?_eq_some.1 hdeclare
      unfold find? scopes
      rw [hscopes]
      simp only [Scopes.find?, List.cons_append, List.findSome?_cons, List.lookup_cons]
      by_cases hname : other = name
      · rw [if_pos hname, show (other == name) = true by simpa using hname]
      · rw [if_neg hname, show (other == name) = false by simpa using hname]

theorem Env.Valid.declare {env env' : Env} {name : String} {place : Place}
    (h : env.Valid context) (hplace : place.Valid context)
    (hdeclare : env.declare? name place = some env') : env'.Valid context := by
  intro other binding hfind
  rw [find?_of_declare? hdeclare] at hfind
  by_cases hname : other = name
  · rw [if_pos hname] at hfind
    cases hfind
    exact hplace
  · rw [if_neg hname] at hfind
    exact h other binding hfind

end Core

namespace Syntax

open WordC.Core (Context)

variable {context : Context} {env : Env}

/-! ## Expressions and statements -/

theorem Unary.valid_resolve {operand : Core.Expr} (h : operand.Valid context) (op : Unary) :
    (op.resolve operand).Valid context := by
  cases op with
  | minus => exact ⟨trivial, h⟩
  | plus => exact h
  | bang => exact ⟨h, trivial⟩
  | tilde => exact ⟨h, trivial⟩
  | star => exact h

theorem Binary.valid_resolve {left right : Core.Expr} (hleft : left.Valid context)
    (hright : right.Valid context) (op : Binary) : (op.resolve left right).Valid context := by
  cases op with
  | logical connective => exact ⟨hleft, hright⟩
  | word operator => exact ⟨hleft, hright⟩

namespace Expr

theorem valid_of_resolveName? (henv : env.Valid context) {identifier : String} {value : Core.Expr}
    (h : (env.find? identifier).bind resolveName? = some value) : value.Valid context := by
  obtain ⟨binding, hfind, hvalue⟩ := Option.bind_eq_some_iff.1 h
  have hbinding := henv identifier binding hfind
  cases binding with
  | object place =>
      cases hvalue
      exact hbinding
  | constant word =>
      cases hvalue
      trivial
  | function arity => cases hvalue
  | system request => cases hvalue

theorem valid_of_resolveAddress? (henv : env.Valid context) {identifier : String}
    {value : Core.Expr} (h : (env.find? identifier).bind resolveAddress? = some value) :
    value.Valid context := by
  obtain ⟨binding, hfind, hvalue⟩ := Option.bind_eq_some_iff.1 h
  have hbinding := henv identifier binding hfind
  cases binding with
  | object place =>
      cases hvalue
      exact hbinding
  | constant word => cases hvalue
  | function arity => cases hvalue
  | system request => cases hvalue

theorem valid_of_resolveCall? (henv : env.Valid context) {callee : String}
    {arguments : List Core.Expr} {value : Core.Expr}
    (harguments : Core.Expr.AllValid context arguments)
    (h : (env.find? callee).bind (resolveCall? callee arguments) = some value) :
    value.Valid context := by
  obtain ⟨binding, hfind, hvalue⟩ := Option.bind_eq_some_iff.1 h
  have hbinding := henv callee binding hfind
  cases binding with
  | object place => cases hvalue
  | constant word => cases hvalue
  | function arity =>
      rw [resolveCall?] at hvalue
      by_cases harity : arity = arguments.length
      · rw [if_pos harity] at hvalue
        cases hvalue
        exact ⟨harity ▸ hbinding, harguments⟩
      · rw [if_neg harity] at hvalue
        cases hvalue
  | system request =>
      rw [resolveCall?] at hvalue
      by_cases harity : request.arity?.all (· == arguments.length) = true
      · rw [if_pos harity] at hvalue
        cases hvalue
        exact ⟨harity, harguments⟩
      · rw [if_neg harity] at hvalue
        cases hvalue

mutual

theorem valid_of_resolve? (henv : env.Valid context) :
    ∀ {e : Expr} {start : Nat} {value : Core.Expr}, e.resolve? env start = some value →
      value.Valid context
  | literal _, _, _, h | string _, _, _, h | sizeof _, _, _, h => by
      cases h
      trivial
  | name _, _, _, h => valid_of_resolveName? henv h
  | addressOf _, _, _, h => valid_of_resolveAddress? henv h
  | unary op operand, _, _, h => by
      obtain ⟨inner, hinner, rfl⟩ := Option.map_eq_some_iff.1 h
      exact Unary.valid_resolve (valid_of_resolve? henv hinner) op
  | binary op left right, _, _, h => by
      simp only [resolve?, Option.bind_eq_bind, Option.bind_eq_some_iff, Option.some.injEq] at h
      obtain ⟨first, hfirst, second, hsecond, rfl⟩ := h
      exact Binary.valid_resolve (valid_of_resolve? henv hfirst) (valid_of_resolve? henv hsecond) op
  | call callee arguments, _, _, h => by
      obtain ⟨values, hvalues, hcall⟩ := Option.bind_eq_some_iff.1 h
      exact valid_of_resolveCall? henv (valid_of_resolveArguments? henv hvalues) hcall
  | group inner, _, _, h => valid_of_resolve? (e := inner) henv h

theorem valid_of_resolveArguments? (henv : env.Valid context) :
    ∀ {arguments : List Expr} {start : Nat} {values : List Core.Expr},
      resolveArguments? env start arguments = some values → Core.Expr.AllValid context values
  | [], _, _, h => by
      cases h
      trivial
  | argument :: rest, _, _, h => by
      simp only [resolveArguments?, Option.bind_eq_bind, Option.bind_eq_some_iff,
        Option.some.injEq] at h
      obtain ⟨first, hfirst, others, hothers, rfl⟩ := h
      exact ⟨valid_of_resolve? henv hfirst, valid_of_resolveArguments? henv hothers⟩

end

end Expr

/-- Declared variables take slots of the function. -/
theorem valid_of_resolveDeclarators? {declarators : List Declarator} {env inner : Env}
    {used start : Nat} {stores : List Core.Stmt} (henv : env.Valid context)
    (hslots : used + declarators.length ≤ context.slots)
    (h : resolveDeclarators? env used start declarators = some (inner, stores)) :
    inner.Valid context ∧ ∀ store ∈ stores, store.Valid context := by
  induction declarators generalizing env used start stores with
  | nil =>
      cases h
      exact ⟨henv, fun store hmem => absurd hmem List.not_mem_nil⟩
  | cons declarator rest ih =>
      rw [List.length_cons] at hslots
      obtain ⟨next, first, others, hdeclare, hfirst, hrest, rfl⟩ :=
        resolveDeclarators?_cons_eq_some.1 h
      have hplace : (Place.slot (used + 1)).Valid context := ⟨by omega, by omega⟩
      have hnext : next.Valid context := henv.declare hplace hdeclare
      obtain ⟨hinner, hothers⟩ := ih hnext (by omega) hrest
      refine ⟨hinner, fun store hmem => ?_⟩
      rcases List.mem_append.1 hmem with hmem | hmem
      · unfold Declarator.resolve? at hfirst
        cases hinitial : declarator.initial with
        | none =>
            rw [hinitial] at hfirst
            cases hfirst
            exact absurd hmem List.not_mem_nil
        | some value =>
            rw [hinitial] at hfirst
            obtain ⟨resolved, hresolved, rfl⟩ := Option.map_eq_some_iff.1 hfirst
            obtain rfl := List.mem_singleton.1 hmem
            exact ⟨hplace, Expr.valid_of_resolve? hnext hresolved⟩
      · exact hothers store hmem

namespace Stmt

mutual

theorem valid_of_resolve? :
    ∀ {statement : Stmt} {env : Env} {used start : Nat} {resolved : Core.Stmt}, env.Valid context →
      statement.peak used ≤ context.slots → statement.resolve? env used start = some resolved →
      resolved.Valid context
  | empty, _, _, _, _, _, _, h => by
      cases h
      trivial
  | block declarations body, env, used, start, resolved, henv, hslots, h => by
      obtain ⟨inner, stores, statements, hstores, hstatements, rfl⟩ := resolve?_block_eq_some.1 h
      have hbody := le_bodyPeak
        (used + (declarations.flatMap Declaration.declarators).length) body
      obtain ⟨hinner, hvalid⟩ :=
        valid_of_resolveDeclarators? henv.enter (Nat.le_trans hbody hslots) hstores
      have hothers := valid_of_resolveBody? hinner hslots hstatements
      refine Core.Stmt.valid_ofList.2 fun statement hmem => ?_
      rcases List.mem_append.1 hmem with hmem | hmem
      · exact hvalid statement hmem
      · exact hothers statement hmem
  | ifThen condition consequence, _, _, _, _, henv, hslots, h => by
      obtain ⟨test, inner, htest, hinner, rfl⟩ := resolve?_ifThen_eq_some.1 h
      have hconsequence : consequence.peak _ ≤ context.slots := hslots
      exact ⟨Expr.valid_of_resolve? henv htest, valid_of_resolve? henv hconsequence hinner⟩
  | ifElse condition consequence alternative, _, _, _, _, henv, hslots, h => by
      obtain ⟨test, inner, other, htest, hinner, hother, rfl⟩ := resolve?_ifElse_eq_some.1 h
      exact ⟨Expr.valid_of_resolve? henv htest,
        valid_of_resolve? henv (Nat.le_trans (Nat.le_max_left _ _) hslots) hinner,
        valid_of_resolve? henv (Nat.le_trans (Nat.le_max_right _ _) hslots) hother⟩
  | whileLoop condition body, _, _, _, _, henv, hslots, h => by
      obtain ⟨test, inner, htest, hinner, rfl⟩ := resolve?_whileLoop_eq_some.1 h
      have hbody : body.peak _ ≤ context.slots := hslots
      exact ⟨Expr.valid_of_resolve? henv htest, valid_of_resolve? henv hbody hinner⟩
  | leave none, _, _, _, _, _, _, h => by
      cases h
      intro result hmem
      cases hmem
  | leave (some value), _, _, _, _, henv, _, h => by
      obtain ⟨resolved, hresolved, rfl⟩ := Option.map_eq_some_iff.1 h
      intro result hmem
      cases hmem
      exact Expr.valid_of_resolve? henv hresolved
  | assign target value, env, _, _, _, henv, _, h => by
      obtain ⟨place, resolved, hfind, hresolved, rfl⟩ := resolve?_assign_eq_some.1 h
      exact ⟨henv target _ hfind, Expr.valid_of_resolve? henv hresolved⟩
  | evaluate value, _, _, _, _, henv, _, h => by
      obtain ⟨resolved, hresolved, rfl⟩ := Option.map_eq_some_iff.1 h
      exact Expr.valid_of_resolve? (e := value) henv hresolved

theorem valid_of_resolveBody? :
    ∀ {body : List Stmt} {env : Env} {used start : Nat} {resolved : List Core.Stmt},
      env.Valid context → bodyPeak used body ≤ context.slots →
      resolveBody? env used start body = some resolved →
      ∀ statement ∈ resolved, statement.Valid context
  | [], _, _, _, _, _, _, h => by
      cases h
      exact fun statement hmem => absurd hmem List.not_mem_nil
  | first :: rest, _, _, _, _, henv, hslots, h => by
      simp only [resolveBody?, Option.bind_eq_bind, Option.bind_eq_some_iff,
        Option.some.injEq] at h
      obtain ⟨resolved, hresolved, others, hothers, rfl⟩ := h
      exact List.forall_mem_cons.2
        ⟨valid_of_resolve? henv (Nat.le_trans (Nat.le_max_left _ _) hslots) hresolved,
          valid_of_resolveBody? henv (Nat.le_trans (Nat.le_max_right _ _) hslots) hothers⟩

end

end Stmt

end Syntax

end WordC
