import WordC.Machine.Status
import WordC.Memory.Layout
import WordC.Position
import WordC.Token.Class

/-!
# Errors

Everything that can go wrong in compiling or running a program, each as a cause with the facts its
message needs. The first error ends a compilation or a run.
-/

namespace WordC

/-- What stands in a text where something else was needed. -/
inductive Expected where
  | token
  | valid (cls : Token.Class)
  | kind (sought : Token.Kind)
  | identifier
  | typeName
  | constant
  | expression
  | variableName
  | assignableName
deriving DecidableEq

def Expected.describe : Expected → String
  | token => "a token"
  | valid cls => "a valid " ++ cls.name
  | kind sought => sought.describe
  | identifier => "identifier"
  | typeName => "a type"
  | constant => "a constant"
  | expression => "an expression"
  | variableName => "a variable"
  | assignableName => "an assignable variable"

inductive Error where
  | unterminatedComment (position : Position)
  | unexpectedSymbol (found : String) (expected : Expected) (position : Position)
  | duplicateDeclaration (name : String) (position : Position)
  | undefinedName (name : String) (position : Position)
  | argumentCount (name : String) (expected found : Nat) (position : Position)
  | segmentFull (segment : Segment)
  | poolTooSmall (words : Nat)
  | invalidAccess (address : Word) (pc : Nat)
  | divisionByZero (pc : Nat)
  | unknownOpcode (word : Word) (pc : Nat)
  | pendingPatch (pc : Nat)
  | stackOverflow (pc : Nat)
  | cycleLimit (limit : Nat)
  | notRunnable (status : Status)
  /-- An assertion of the compiler, which no source text violates: the outermost scope stays open. -/
  | outermostScope
  /-- A loop of the compiler has used up its rounds, which happens with no source text. -/
  | exhausted
deriving DecidableEq

namespace Error

def placed (position : Position) (text : String) : String :=
  position.text ++ ": " ++ text

def named (name : String) : String :=
  "`" ++ name ++ "`"

def during (pc : Nat) : String :=
  " (pc = " ++ toString pc ++ ")"

/-- The text shown to the user. Errors of the source text start with its place, faults of the
machine end with the address of the instruction. -/
def message : Error → String
  | unterminatedComment position => placed position "unterminated block comment"
  | unexpectedSymbol found expected position =>
      placed position ("unexpected symbol " ++ named found ++ ", expected " ++ expected.describe)
  | duplicateDeclaration name position =>
      placed position (named name ++ " is already declared in this scope")
  | undefinedName name position => placed position (named name ++ " is not defined")
  | argumentCount name expected found position =>
      placed position (named name ++ " takes " ++ toString expected ++ " argument(s), " ++
        toString found ++ " given")
  | segmentFull segment => segment.name ++ " segment is full"
  | poolTooSmall words => "memory pool of " ++ toString words ++ " words is too small"
  | invalidAccess address pc => "invalid memory access at address " ++ address.text ++ during pc
  | divisionByZero pc => "division by zero" ++ during pc
  | unknownOpcode word pc => "unknown opcode " ++ word.text ++ during pc
  | pendingPatch pc => "executed an unpatched placeholder" ++ during pc
  | stackOverflow pc => "stack overflow" ++ during pc
  | cycleLimit limit => "execution exceeded " ++ toString limit ++ " cycles"
  | notRunnable status => "cannot run while the machine is " ++ status.name
  | outermostScope => "cannot leave the built-in scope"
  | exhausted => "cannot go on reading"

end Error

end WordC
