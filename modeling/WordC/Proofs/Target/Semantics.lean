import WordC.Proofs.Language.Semantics
import WordC.Proofs.Target.Code

/-!
# What resolved trees mean

A resolved tree is evaluated on a store, which has a word for every place. A call gets places of its
own for its parameters and slots and shares those of the globals.
-/

namespace WordC.Core

open Syntax (Evaluation Stop repeatWhile resultOf truth)

/-- The jump over the right operand is taken if the left one decides. -/
theorem jumpOf_eq (connective : Syntax.Connective) (left : Word) :
    jumpOf connective = .jz ∧ connective.isDecided left = decide (left = 0) ∨
      jumpOf connective = .jnz ∧ connective.isDecided left = decide (left ≠ 0) := by
  cases connective
  · exact .inr ⟨rfl, rfl⟩
  · exact .inl ⟨rfl, rfl⟩

abbrev Store := Place → Word

namespace Store

def set (place : Place) (word : Word) (store : Store) : Store :=
  fun other => if other = place then word else store other

@[simp] theorem set_self (place : Place) (word : Word) (store : Store) :
    store.set place word place = word :=
  if_pos rfl

theorem set_of_ne {place other : Place} (h : other ≠ place) (word : Word) (store : Store) :
    store.set place word other = store other :=
  if_neg h

/-- The store that a function begins with. The last argument lies nearest to the base pointer. -/
def enter (arguments : List Word) (store : Store) : Store
  | .global address => store (.global address)
  | .slot _ => 0
  | .parameter distance => arguments.getD (arguments.length + 1 - distance) 0

/-- The store of a caller once a function has returned with the store `inner`. -/
def leave (inner outer : Store) : Store
  | .global address => inner (.global address)
  | .slot index => outer (.slot index)
  | .parameter distance => outer (.parameter distance)

end Store

section Trees

variable (invoke : String → List Word → Evaluation Store Word)

namespace Expr

mutual

def eval : Expr → Evaluation Store Word
  | constant value => pure value
  | load place => do return (← get) place
  | binary operator left right => do
      let first ← left.eval
      let second ← right.eval
      resultOf .divisionByZero ( operator.apply? first second)
  | logical connective left right => do
      let first ← left.eval
      if connective.isDecided first then return truth first
      let second ← right.eval
      return truth second
  | call callee arguments => do
      let values ← evalAll arguments
      invoke callee values
  | address _ => throw .undefined
  | follow pointer => do
      let _ ← pointer.eval
      throw .undefined
  | trap _ arguments => do
      let _ ← evalAll arguments
      throw .undefined

def evalAll : List Expr → Evaluation Store (List Word)
  | [] => pure []
  | argument :: rest => do
      let first ← argument.eval
      let others ← evalAll rest
      return first :: others

end

end Expr

/-- Executes a statement, in which no loop takes more than `rounds` rounds. The result is there once
a `return` has been reached. -/
def Stmt.exec (rounds : Nat) : Stmt → Evaluation Store (Option Word)
  | skip => return none
  | seq first second => do
      match ← first.exec rounds with
      | some value => return some value
      | none => second.exec rounds
  | store place value => do
      let value ← value.eval invoke
      modify (Store.set place value)
      return none
  | evaluate value => do
      let _ ← value.eval invoke
      return none
  | leave none => throw .undefined
  | leave (some value) => do
      return some (← value.eval invoke)
  | ifThen condition consequence => do
      let value ← condition.eval invoke
      if value ≠ 0 then consequence.exec rounds else return none
  | ifElse condition consequence alternative => do
      let value ← condition.eval invoke
      if value ≠ 0 then consequence.exec rounds else alternative.exec rounds
  | whileLoop condition body =>
      repeatWhile (do return (← condition.eval invoke) ≠ 0) (body.exec rounds) rounds

end Trees

/-! ## Programs -/

/-- The bodies of functions. -/
def bodies : List Section → List (String × Stmt)
  | [] => []
  | .function name _ _ body :: rest => (name, body) :: bodies rest
  | .initializer _ _ :: rest => bodies rest

/-- Calls a function among sections. -/
def invoke (sections : List Section) : Nat → String → List Word → Evaluation Store Word
  | 0, _, _ => throw .unfinished
  | depth + 1, callee, arguments => fun store => do
      match (bodies sections).lookup callee with
      | none => throw .undefined
      | some body =>
          match ← body.exec (invoke sections depth) depth (store.enter arguments) with
          | (some value, inner) => return (value, inner.leave store)
          | (none, _) => throw .undefined

/-- Runs the initializers of sections one after the other. -/
def storeInitials (sections : List Section) (depth : Nat) : List Section → Evaluation Store Unit
  | [] => return
  | .function _ _ _ _ :: rest => storeInitials sections depth rest
  | .initializer address value :: rest => do
      let value ← value.eval (invoke sections depth)
      modify (Store.set (.global address) value)
      storeInitials sections depth rest

/-- The value of a program: that of `main` once the initializers have run. -/
def evaluate (sections : List Section) (depth : Nat) (store : Store) : Except Stop Word := do
  let run := do
    storeInitials sections depth sections
    invoke sections depth "main" []
  return (← run store).1

end WordC.Core
