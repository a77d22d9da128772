import WordC.Program
import WordC.Text.Column
import WordC.Text.Style

/-!
# Listings

What the command line prints about a program before it runs: tokens, symbols and instructions, each
in columns.
-/

namespace WordC.CommandLine

open Text

variable (styles : Styles)

def tokenRow (source : String) (token : Token) : String :=
  styles.dimmed (padLeft 8 (Position.locate source token.start).text) ++ "  " ++
    styles.coloured .cyan (padRight 20 token.kind.describe) ++ " " ++ token.text ++ "\n"

def tokenListing (source : String) : Except Error String := do
  return String.join ((← tokenize source).map (tokenRow styles source))

def symbolHeader : String :=
  styles.bold (styles.coloured .white
    (padRight 16 "NAME" ++ " " ++ padLeft 5 "SCOPE" ++ " " ++ padLeft 5 "LEVEL" ++ "  " ++
      padRight 9 "CLASS" ++ " " ++ padRight 5 "TYPE" ++ " " ++ padLeft 8 "VALUE")) ++ "\n"

def symbolRow (symbol : Symbol) : String :=
  styles.coloured .green (padRight 16 symbol.name) ++ " " ++
    padLeft 5 (toString symbol.scope) ++ " " ++ padLeft 5 (toString symbol.level) ++ "  " ++
    padRight 9 symbol.cls.name ++ " " ++ padRight 5 symbol.type.text ++ " " ++
    styles.coloured .yellow (padLeft 8 symbol.value.text) ++ "\n"

def symbolListing (program : Program) : String :=
  symbolHeader styles ++ String.join (program.symbols.map (symbolRow styles))

def instructionRow (address : Nat) (instruction : Instruction) : String :=
  styles.dimmed (padLeft 6 (toString address)) ++ ": " ++ instruction.text ++ "\n"

def instructionListing (machine : Machine) : String :=
  String.join (machine.disassemble.map fun (address, instruction) =>
    instructionRow styles address instruction)

end WordC.CommandLine
