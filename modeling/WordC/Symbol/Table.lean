import WordC.Error

/-!
# Symbols and scopes

Names are declared in scopes that nest. A name means its innermost declaration that is still in
scope. Symbols outlive their scopes, so that the table lists every declaration in order. An index
over names and scopes leads to the slots of the symbols in that list.
-/

namespace WordC

namespace Symbol

inductive Class where
  /-- A call that the host answers. -/
  | system
  | function
  /-- A variable. -/
  | object
  | constant
deriving DecidableEq, Inhabited

def Class.name : Class → String
  | system => "syscall"
  | function => "function"
  | object => "variable"
  | constant => "constant"

/-- The nesting level of the declarations outside of functions. -/
def globalLevel : Nat := 1

end Symbol

structure Symbol where
  name : String
  cls : Symbol.Class
  type : TypeName
  /-- The opcode of a system call, the entry of a function, the address of a global variable, the
  offset of a local one in its frame, or the value of a constant. -/
  value : Word
  /-- The number of parameters of what can be called; any number for `none`. -/
  params : Option Nat := none
  /-- A prototype is not defined until its body follows. -/
  defined : Bool := true
  position : Position := .unset
  level : Nat := 0
  scope : Nat := 0
deriving DecidableEq, Inhabited

/-- Whether the symbol is declared inside a function. -/
def Symbol.isLocal (symbol : Symbol) : Bool :=
  Symbol.globalLevel < symbol.level

namespace Symbol

structure Table where
  /-- Every declaration, the first one first. -/
  symbols : List Symbol
  /-- The slot of each name in the scope that declares it, the latest declaration first. -/
  index : List ((String × Nat) × Nat)
  /-- The scopes that are open, the innermost first. -/
  scopes : List Nat
  lastScope : Nat
deriving DecidableEq, Inhabited

namespace Table

/-- A table in which only the scope of the built-in names is open. -/
def initial : Table :=
  { symbols := [], index := [], scopes := [0], lastScope := 0 }

/-- The nesting level of the innermost scope. -/
def level (table : Table) : Nat :=
  table.scopes.length - 1

def scope (table : Table) : Nat :=
  table.scopes.headD 0

/-- Opens a scope with a number of its own. -/
def enter (table : Table) : Table :=
  { table with
    scopes := (table.lastScope + 1) :: table.scopes
    lastScope := table.lastScope + 1 }

/-- Closes the innermost scope. The scope of the built-in names stays open. -/
def leave? (table : Table) : Option Table :=
  match table.scopes with
  | _ :: outer :: rest => some { table with scopes := outer :: rest }
  | _ => none

def slot? (table : Table) (scope : Nat) (name : String) : Option Nat :=
  table.index.lookup (name, scope)

def findIn? (table : Table) (scope : Nat) (name : String) : Option Symbol :=
  (table.slot? scope name).bind fun slot => table.symbols[slot]?

/-- The table with one more symbol, in its innermost scope. -/
def add (table : Table) (symbol : Symbol) : Table :=
  { table with
    symbols := table.symbols ++ [{ symbol with level := table.level, scope := table.scope }]
    index := ((symbol.name, table.scope), table.symbols.length) :: table.index }

/-- Adds a symbol to the innermost scope, which may not have one of that name. -/
def declare (table : Table) (symbol : Symbol) : Except Error (Symbol × Table) :=
  match table.slot? table.scope symbol.name with
  | some _ => .error (.duplicateDeclaration symbol.name symbol.position)
  | none =>
      .ok ({ symbol with level := table.level, scope := table.scope }, table.add symbol)

/-- The innermost declaration of a name that is in scope. -/
def lookup? (table : Table) (name : String) : Option Symbol :=
  table.scopes.findSome? fun scope => table.findIn? scope name

def resolve (table : Table) (name : String) (position : Position) : Except Error Symbol :=
  match table.lookup? name with
  | some symbol => .ok symbol
  | none => .error (.undefinedName name position)

/-- Gives a function of the innermost scope its entry. -/
def defineFunction? (table : Table) (name : String) (entry : Word) : Option (Symbol × Table) := do
  let slot ← table.slot? table.scope name
  let symbol ← table.symbols[slot]?
  if symbol.cls = .function then
    let defined := { symbol with value := entry, defined := true }
    return (defined, { table with symbols := table.symbols.set slot defined })
  else none

end Table

end Symbol

end WordC
