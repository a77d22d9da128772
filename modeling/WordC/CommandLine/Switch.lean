import WordC.Release
import WordC.Text.Column

/-!
# Switches

Every switch of the command line with its names and what the help says about it.
-/

namespace WordC

inductive Switch where
  | eval
  | tokens
  | ast
  | symbols
  | disasm
  | trace
  | poolSize
  | maxCycles
  | config
  | verbose
  | help
  | version
deriving DecidableEq

namespace Switch

def all : List Switch := [
  eval, tokens, ast, symbols, disasm, trace, poolSize, maxCycles, config, verbose, help, version]

def long : Switch → String
  | eval => "eval"
  | tokens => "tokens"
  | ast => "ast"
  | symbols => "symbols"
  | disasm => "disasm"
  | trace => "trace"
  | poolSize => "pool-size"
  | maxCycles => "max-cycles"
  | config => "config"
  | verbose => "verbose"
  | help => "help"
  | version => "version"

def short? : Switch → Option Char
  | eval => some 'e'
  | trace => some 't'
  | config => some 'c'
  | verbose => some 'v'
  | help => some 'h'
  | version => some 'V'
  | _ => none

/-- What the help calls the value of a switch that takes one. -/
def valueName? : Switch → Option String
  | eval => some "SOURCE"
  | ast => some "PATH"
  | poolSize => some "WORDS"
  | maxCycles => some "N"
  | config => some "PATH"
  | _ => none

def description : Switch → String
  | eval => "Compile and run source text"
  | tokens => "Print the token stream"
  | ast => "Write the syntax tree as JSON (`-` for stdout)"
  | symbols => "Print the symbol table"
  | disasm => "Print the compiled text segment"
  | trace => "Trace every executed instruction"
  | poolSize => "Memory pool size in words"
  | maxCycles => "Abort after N executed instructions"
  | config => "Configuration file"
  | verbose => "More logging (repeatable)"
  | help => "Print help"
  | version => "Print version"

def takesValue (switch : Switch) : Bool :=
  switch.valueName?.isSome

def ofLong? (name : String) : Option Switch :=
  all.find? (·.long == name)

def ofShort? (c : Char) : Option Switch :=
  all.find? (·.short? == some c)

/-- How the help shows the switch. -/
def usage (switch : Switch) : String :=
  let short :=
    match switch.short? with
    | some c => "-" ++ c.toString ++ ", "
    | none => "    "
  let value :=
    match switch.valueName? with
    | some name => " <" ++ name ++ ">"
    | none => if switch = verbose then "..." else ""
  short ++ "--" ++ switch.long ++ value

end Switch

/-- The help, with the descriptions of the switches in a column of their own. -/
def helpText : String :=
  let width := (Switch.all.map (·.usage.length)).foldl max 0
  String.join [
    Release.summary, "\n\n",
    "Usage: ", Release.name, " [OPTIONS] [FILE]\n\n",
    "Arguments:\n  [FILE]  Source file to compile and run\n\n",
    "Options:\n",
    String.join (Switch.all.map fun switch =>
      "  " ++ Text.padRight width switch.usage ++ "  " ++ switch.description ++ "\n")]

def versionText : String :=
  Release.name ++ " " ++ Release.version ++ "\n"

end WordC
