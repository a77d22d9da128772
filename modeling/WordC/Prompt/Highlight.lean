import WordC.Instruction
import WordC.Text.Letters
import WordC.Text.Style
import WordC.Token.Kind

/-!
# Highlighting

A line is shown with its words and marks in colour. Colours are all that is added.
-/

namespace WordC.Prompt

variable (styles : Text.Styles)

def isNumeral (word : List Char) : Bool :=
  let isDigit (c : Char) : Bool := '0' ≤ c && c ≤ '9'
  let isHexDigit (c : Char) : Bool := isDigit c || ('a' ≤ c && c ≤ 'f') || ('A' ≤ c && c ≤ 'F')
  word.head?.any isDigit && word.all fun c => isHexDigit c || c = 'x' || c = 'X'

def paintWord (word : List Char) : String :=
  let text := String.ofList word
  if (Keyword.ofText? text).isSome then styles.bold (styles.coloured .magenta text)
  else if Trap.all.any (·.name == text) then styles.coloured .cyan text
  else if isNumeral word then styles.coloured .yellow text
  else text

def brackets : List Char := [
  '(', ')', '[', ']', '\x7b', '\x7d']

def operators : List Char := [
  '+', '-', '*', '/', '%', '=', '<', '>', '!', '&', '|', '^', '~']

/-- Periods are coloured on lines that give a command. -/
def paintMark (isCommand : Bool) (c : Char) : String :=
  if brackets.contains c then styles.coloured .yellow c.toString
  else if operators.contains c then styles.coloured .cyan c.toString
  else if c = '"' || c = '\'' then styles.coloured .green c.toString
  else if c = '.' && isCommand then styles.coloured .magenta c.toString
  else c.toString

/-- Paints a line from within a word, whose characters so far are listed from its end. -/
def paint (isCommand : Bool) (word : List Char) : List Char → String
  | [] => paintWord styles word.reverse
  | c :: rest =>
      if Text.isAlphanumeric c || c = '_' then paint isCommand (c :: word) rest
      else paintWord styles word.reverse ++ paintMark styles isCommand c ++ paint isCommand [] rest

def highlight (line : String) : String :=
  paint styles (line.toList.head? == some '.') [] line.toList

end WordC.Prompt
