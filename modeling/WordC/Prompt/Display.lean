import WordC.Program
import WordC.Prompt.Command
import WordC.Release
import WordC.Text.Column
import WordC.Text.Style

/-!
# What the prompt shows

The texts of the prompt, each complete with the ends of its lines.
-/

namespace WordC.Prompt

open Text

variable (styles : Styles)

def line (text : String) : String :=
  text ++ "\n"

def prompt : String :=
  styles.bold (styles.coloured .brightGreen (Release.name ++ ">")) ++ " "

def banner : String :=
  String.join [
    line "",
    line ("  " ++ styles.bold (styles.coloured .brightCyan Release.name) ++ " " ++
      styles.dimmed "v" ++ " " ++ styles.coloured .brightYellow Release.version),
    line ("  " ++ styles.dimmed "Declarations are kept; expressions are evaluated."),
    line ("  " ++ styles.dimmed "Type" ++ " " ++ styles.coloured .cyan ".help" ++ " " ++
      styles.dimmed "for available commands"),
    line ""]

def farewell : String :=
  line "" ++ line (styles.coloured .brightCyan "Goodbye!")

/-- A line of the help: a name in a column of its own and what it does. -/
def helpLine (colour : Colour) (name description : String) : String :=
  line ("  " ++ styles.coloured colour (padRight 16 name) ++ " " ++ styles.dimmed description)

def heading (text : String) : String :=
  line "" ++ line (styles.bold (styles.coloured .white text)) ++ line ""

def help : String :=
  heading styles "REPL Commands:" ++
    String.join (Command.all.map fun command =>
      helpLine styles .cyan command.usage command.description) ++
    heading styles "Keyboard Shortcuts:" ++
    helpLine styles .yellow "Ctrl+C" "Cancel current input" ++
    helpLine styles .yellow "Ctrl+D" "Exit REPL" ++
    helpLine styles .yellow "Tab" "Autocomplete" ++
    line ""

def versionLine : String :=
  line (styles.bold (styles.coloured .brightCyan Release.name) ++ ": " ++
    styles.coloured .yellow Release.version)

def clearScreen : String :=
  "\x1b[2J\x1b[H"

def value (word : Word) : String :=
  line (styles.coloured .yellow word.text)

def tokenLine (source : String) (token : Token) : String :=
  line ("  " ++ styles.dimmed (Position.locate source token.start).text ++ "  " ++
    styles.coloured .cyan token.kind.describe ++ " " ++ token.text)

def symbolLine (symbol : Symbol) : String :=
  line ("  " ++ styles.coloured .green (padRight 16 symbol.name) ++ " " ++
    padRight 9 symbol.cls.name ++ " " ++ padRight 5 symbol.type.text ++
    " scope " ++ toString symbol.scope ++ " level " ++ toString symbol.level ++
    " value " ++ styles.coloured .yellow symbol.value.text)

/-- The symbols that a program declares itself. -/
def symbolLines (program : Program) : String :=
  String.join ((program.symbols.filter (·.cls ≠ .system)).map (symbolLine styles))

/-- How lines on the error output begin. -/
def errorMark : String :=
  styles.bold (styles.coloured .red "Error") ++ ": "

/-- Cuts a text behind the first colon that a space follows; both are left out. -/
def splitPlace? : List Char → Option (List Char × List Char)
  | [] => none
  | ':' :: ' ' :: rest => some ([], rest)
  | c :: rest => (splitPlace? rest).map fun (place, message) => (c :: place, message)

/-- An error with its place set apart, if its message begins with one. -/
def errorLine (error : Error) : String :=
  match splitPlace? error.message.toList with
  | some (place, message) =>
      if place.contains ':' then
        line (styles.dimmed (String.ofList place ++ ":") ++ " " ++
          styles.bold (styles.coloured .red (String.ofList message)))
      else line (styles.coloured .red error.message)
  | none => line (styles.coloured .red error.message)

def missingArgument (command : Command) (message : String) : String :=
  line (errorMark styles ++ styles.coloured .cyan command.text ++ " " ++ styles.dimmed message)

def unreadable (path : String) (error : FileError) : String :=
  line (errorMark styles ++ styles.coloured .cyan path ++ ": " ++ error.message)

/-- What is shown when a line of input is no text. -/
def garbled : String :=
  line (errorMark styles ++ "Io(Error \x7b kind: InvalidData, message: " ++
    quoted FileError.notText.message ++ " \x7d)")

end WordC.Prompt
