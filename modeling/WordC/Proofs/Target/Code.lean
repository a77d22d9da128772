import WordC.Proofs.Language.Syntax

/-!
# Resolved trees and their code

In a resolved tree each name has become what it stands for: a place in memory, a value, a function
or a request to the host. Its code follows the tree, piece by piece. Jumps are absolute, so the code
of a tree depends on the address at which it starts. Calls alone stay symbolic, because a function
may be called before its entry is known.
-/

namespace WordC.Core

/-- Where a variable lives. -/
inductive Place where
  | global (address : Nat)
  /-- A local variable, `index` words below the base pointer. -/
  | slot (index : Nat)
  /-- A parameter, `distance` words above the base pointer. -/
  | parameter (distance : Nat)
deriving DecidableEq

namespace Place

def isLocal : Place → Bool
  | global _ => false
  | slot _ | parameter _ => true

/-- The operand of the instruction that loads the address. -/
def operand : Place → Word
  | global address => Word.ofCount address
  | slot index => Word.ofCount index
  | parameter distance => -Word.ofCount distance

/-- The address in a frame with the given base pointer. -/
def address (bp : Nat) : Place → Nat
  | global address => address
  | slot index => bp - index
  | parameter distance => bp + distance

end Place

inductive Operand where
  | none
  | known (word : Word)
  /-- The entry of the function of that name. -/
  | entry (name : String)
deriving DecidableEq

structure Instr where
  opcode : Opcode
  operand : Operand
deriving DecidableEq

/-- A word of text: known, still to be patched, or the entry of a function. -/
inductive Cell where
  | known (word : Word)
  | entry (name : String)
  | hole
deriving DecidableEq

def Operand.cells : Operand → List Cell
  | none => []
  | known word => [.known word]
  | entry name => [.entry name]

namespace Instr

def plain (opcode : Opcode) : Instr :=
  { opcode, operand := .none }

def withWord (opcode : Opcode) (word : Word) : Instr :=
  { opcode, operand := .known word }

def call (name : String) : Instr :=
  { opcode := .call, operand := .entry name }

/-- A jump to an address. -/
def jump (opcode : Opcode) (target : Nat) : Instr :=
  withWord opcode (Word.ofCount target)

def cells (instr : Instr) : List Cell :=
  .known instr.opcode.word :: instr.operand.cells

end Instr

/-- The words that instructions take. -/
def cells (code : List Instr) : List Cell :=
  code.flatMap Instr.cells

def size (code : List Instr) : Nat :=
  (cells code).length

@[simp] theorem cells_nil : cells [] = [] := rfl

@[simp] theorem cells_cons (instr : Instr) (code : List Instr) :
    cells (instr :: code) = instr.cells ++ cells code := rfl

@[simp] theorem cells_append (front back : List Instr) :
    cells (front ++ back) = cells front ++ cells back := by
  simp [cells]

@[simp] theorem size_nil : size [] = 0 := rfl

@[simp] theorem size_cons (instr : Instr) (code : List Instr) :
    size (instr :: code) = instr.cells.length + size code := by
  simp [size]

@[simp] theorem size_append (front back : List Instr) :
    size (front ++ back) = size front + size back := by
  simp [size]

theorem length_cells (code : List Instr) : (cells code).length = size code := rfl

@[simp] theorem Instr.cells_plain (opcode : Opcode) : (plain opcode).cells = [.known opcode.word] :=
  rfl

@[simp] theorem Instr.cells_withWord (opcode : Opcode) (word : Word) :
    (withWord opcode word).cells = [.known opcode.word, .known word] :=
  rfl

@[simp] theorem Instr.cells_call (name : String) :
    (call name).cells = [.known Opcode.call.word, .entry name] :=
  rfl

@[simp] theorem Instr.cells_jump (opcode : Opcode) (target : Nat) :
    (jump opcode target).cells = [.known opcode.word, .known (Word.ofCount target)] :=
  rfl

/-- Loads the address of a place. -/
def Place.load (place : Place) : Instr :=
  .withWord (if place.isLocal then .lea else .imm) place.operand

@[simp] theorem Place.cells_load (place : Place) :
    place.load.cells = [.known (if place.isLocal then Opcode.lea else .imm).word,
      .known place.operand] :=
  rfl

/-- The jump that a decided left operand takes over the right one. -/
def jumpOf : Syntax.Connective → Opcode
  | .disjunction => .jnz
  | .conjunction => .jz

/-! ## Expressions -/

inductive Expr where
  | constant (value : Word)
  | load (place : Place)
  | address (place : Place)
  /-- The word at an address. -/
  | follow (pointer : Expr)
  | binary (operator : Operator) (left right : Expr)
  | logical (connective : Syntax.Connective) (left right : Expr)
  | call (callee : String) (arguments : List Expr)
  | trap (request : Trap) (arguments : List Expr)

namespace Expr

mutual

/-- The code that leaves the value of an expression in the accumulator. -/
def code (start : Nat) : Expr → List Instr
  | constant value => [.withWord .imm value]
  | load place => [place.load, .plain .li]
  | address place => [place.load]
  | follow pointer => pointer.code start ++ [.plain .li]
  | binary operator left right =>
      let first := left.code start
      first ++ .plain .push ::
        (right.code (start + size first + 1) ++ [.plain (.binary operator)])
  | logical connective left right =>
      let first := left.code start
      let second := right.code (start + size first + 2)
      first ++ .jump (jumpOf connective) (start + size first + 2 + size second) ::
        (second ++ [.plain .push, .withWord .imm 0, .plain (.binary .ne)])
  | call callee arguments =>
      argumentCode start arguments ++ .call callee ::
        (if arguments.length = 0 then []
          else [.withWord .adj (Word.ofCount arguments.length)])
  | trap request arguments =>
      argumentCode start arguments ++
        [.withWord (.trap request) (Word.ofCount arguments.length)]

/-- The code that pushes arguments from left to right. -/
def argumentCode (start : Nat) : List Expr → List Instr
  | [] => []
  | argument :: rest =>
      let first := argument.code start
      first ++ .plain .push :: argumentCode (start + size first + 1) rest

end

/-! Where the parts of an expression end. -/

variable {start : Nat} {operator : Operator} {connective : Syntax.Connective}
  {pointer left right : Expr} {callee : String} {request : Trap} {arguments : List Expr}

theorem stop_follow : start + size ((follow pointer).code start) =
    start + size (pointer.code start) + 1 := by
  simp [code, Nat.add_assoc]

theorem stop_binary : start + size ((binary operator left right).code start) =
    start + size (left.code start) + 1 + size (right.code (start + size (left.code start) + 1)) +
      1 := by
  simp [code, Nat.add_assoc]

theorem stop_logical : start + size ((logical connective left right).code start) =
    start + size (left.code start) + 2 + size (right.code (start + size (left.code start) + 2)) +
      4 := by
  simp [code, Nat.add_assoc]

/-- Arguments are dropped after the call, if there are any. -/
theorem stop_call : start + size ((call callee arguments).code start) =
    start + size (argumentCode start arguments) + 2 + if arguments.length = 0 then 0 else 2 := by
  by_cases hnone : arguments.length = 0 <;> simp [code, hnone, Nat.add_assoc]

theorem stop_trap : start + size ((trap request arguments).code start) =
    start + size (argumentCode start arguments) + 2 := by
  simp [code, Nat.add_assoc]

theorem stop_arguments {argument : Expr} :
    start + size (argumentCode start (argument :: arguments)) =
      start + size (argument.code start) + 1 +
        size (argumentCode (start + size (argument.code start) + 1) arguments) := by
  simp [argumentCode, Nat.add_assoc]

end Expr

/-! ## Statements -/

inductive Stmt where
  | skip
  | seq (first second : Stmt)
  | store (place : Place) (value : Expr)
  | evaluate (value : Expr)
  | leave (value : Option Expr)
  | ifThen (condition : Expr) (consequence : Stmt)
  | ifElse (condition : Expr) (consequence alternative : Stmt)
  | whileLoop (condition : Expr) (body : Stmt)

/-- The code that stores the accumulator. -/
def Place.store (place : Place) : List Instr :=
  [.plain .push, place.load, .plain .si]

namespace Stmt

def code (start : Nat) : Stmt → List Instr
  | skip => []
  | seq first second => first.code start ++ second.code (start + size (first.code start))
  | store place value => value.code start ++ place.store
  | evaluate value => value.code start
  | leave none => [.plain .lev]
  | leave (some value) => value.code start ++ [.plain .lev]
  | ifThen condition consequence =>
      let test := condition.code start
      let body := consequence.code (start + size test + 2)
      test ++ .jump .jz (start + size test + 2 + size body) :: body
  | ifElse condition consequence alternative =>
      let test := condition.code start
      let body := consequence.code (start + size test + 2)
      let skipped := start + size test + 2 + size body + 2
      let other := alternative.code skipped
      test ++ .jump .jz skipped :: (body ++ .jump .jmp (skipped + size other) :: other)
  | whileLoop condition body =>
      let test := condition.code start
      let inner := body.code (start + size test + 2)
      test ++ .jump .jz (start + size test + 2 + size inner + 2) ::
        (inner ++ [.jump .jmp start])

/-! Where the parts of a statement end. -/

variable {start : Nat} {first second consequence alternative body : Stmt} {place : Place}
  {condition value : Expr}

theorem stop_seq : start + size ((seq first second).code start) =
    start + size (first.code start) + size (second.code (start + size (first.code start))) := by
  rw [code, size_append, Nat.add_assoc]

theorem stop_store : start + size ((store place value).code start) =
    start + size (value.code start) + 4 := by
  rw [code, size_append, ← Nat.add_assoc]
  rfl

theorem stop_ifThen : start + size ((ifThen condition consequence).code start) =
    start + size (condition.code start) + 2 +
      size (consequence.code (start + size (condition.code start) + 2)) := by
  simp [code, Nat.add_assoc]

theorem stop_ifElse {skipped : Nat} (hskipped : skipped = start + size (condition.code start) + 2 +
      size (consequence.code (start + size (condition.code start) + 2)) + 2) :
    start + size ((ifElse condition consequence alternative).code start) =
      skipped + size (alternative.code skipped) := by
  subst hskipped
  simp [code, Nat.add_assoc]

theorem stop_whileLoop : start + size ((whileLoop condition body).code start) =
    start + size (condition.code start) + 2 +
      size (body.code (start + size (condition.code start) + 2)) + 2 := by
  simp [code, Nat.add_assoc]

end Stmt

/-! ## Programs -/

/-- A piece of text behind the first jump. -/
inductive Section where
  | function (name : String) (arity slots : Nat) (body : Stmt)
  /-- Start-up code that gives a global its initial value. -/
  | initializer (address : Nat) (value : Expr)

namespace Section

def functionCode (start slots : Nat) (body : Stmt) : List Instr :=
  .withWord .ent (Word.ofCount slots) :: (body.code (start + 2) ++ [.plain .lev])

/-- An initializer without the jump that ends it. -/
def initializerCode (start address : Nat) (value : Expr) : List Instr :=
  value.code start ++ (Place.global address).store

/-- The code of a section; the start-up code goes on at `next`. -/
def code (start next : Nat) : Section → List Instr
  | function _ _ slots body => functionCode start slots body
  | initializer address value => initializerCode start address value ++ [.jump .jmp next]

/-- The number of words, which does not depend on the jump behind an initializer. -/
def width (start : Nat) (part : Section) : Nat :=
  size (part.code start 0)

end Section

/-- Where the start-up code goes on in the sections that begin at `start`. -/
def nextStart (start : Nat) : List Section → Nat
  | [] => start
  | .initializer _ _ :: _ => start
  | .function name arity slots body :: rest =>
      nextStart (start + (Section.function name arity slots body).width start) rest

/-- The end of the start-up code. -/
def finale : List Instr :=
  [.call "main", .plain .exit]

def sectionsCode (start : Nat) : List Section → List Instr
  | [] => finale
  | part :: rest =>
      let stop := start + part.width start
      part.code start (nextStart stop rest) ++ sectionsCode stop rest

/-- The text of a program from its entry on. -/
def programCode (start : Nat) (sections : List Section) : List Instr :=
  .jump .jmp (nextStart (start + 2) sections) :: sectionsCode (start + 2) sections

/-- The functions of the sections that begin at `start`, with their entries. -/
def entries (start : Nat) : List Section → List (String × Nat)
  | [] => []
  | part :: rest =>
      match part with
      | .function name _ _ _ => (name, start) :: entries (start + part.width start) rest
      | .initializer _ _ => entries (start + part.width start) rest

end WordC.Core
