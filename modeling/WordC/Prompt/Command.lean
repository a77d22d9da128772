import WordC.Text.Blank

/-!
# Commands of the prompt

A line that starts with a period asks something of the prompt itself. The name of a command reaches
to the first white space and is not sensitive to case; the rest of the line is its argument.
-/

namespace WordC.Prompt

inductive Command where
  | help
  | exit
  | clear
  | reset
  | declarations
  | tokens
  | symbols
  | load
  | version
deriving DecidableEq

namespace Command

def all : List Command := [
  help, exit, clear, reset, declarations, tokens, symbols, load, version]

/-- The names of a command, the full one first. -/
def names : Command → List String
  | help => ["help", "h", "?"]
  | exit => ["exit", "quit", "q"]
  | clear => ["clear", "cls"]
  | reset => ["reset"]
  | declarations => ["decls"]
  | tokens => ["tokens"]
  | symbols => ["symbols", "sym"]
  | load => ["load", "l"]
  | version => ["version", "v"]

/-- The full name as it is typed. -/
def text (command : Command) : String :=
  "." ++ command.names.headD ""

/-- How the help shows the command's argument. -/
def usage (command : Command) : String :=
  match command with
  | tokens => command.text ++ " <src>"
  | load => command.text ++ " <file>"
  | _ => command.text

def description : Command → String
  | help => "Show this help message"
  | exit => "Exit the REPL"
  | clear => "Clear the screen"
  | reset => "Forget all declarations"
  | declarations => "List the kept declarations"
  | tokens => "Print the tokens of a snippet"
  | symbols => "Print the symbols of the last program"
  | load => "Compile and run a source file"
  | version => "Show version information"

def ofName? (name : String) : Option Command :=
  all.find? fun command => command.names.contains name

/-- The small form of a letter. Of the letters beyond ASCII only the Kelvin sign has a small form
within it, so only that one can be part of a name. -/
def lower (c : Char) : Char :=
  if c = '\u212a' then 'k' else c.toLower

/-- The command that a line gives and its argument, if it has one. -/
def parse? (line : String) : Option (Command × Option String) :=
  match (Text.trim line).toList with
  | '.' :: rest => do
      let name := rest.takeWhile fun c => !Text.isBlank c
      let command ← ofName? (String.ofList (name.map lower))
      let argument := Text.trim (String.ofList (rest.drop name.length))
      return (command, if argument.isEmpty then none else some argument)
  | _ => none

end Command

end WordC.Prompt
