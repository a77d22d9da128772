import WordC.Instruction
import WordC.Prompt.Command
import WordC.Text.Letters
import WordC.Text.Slice
import WordC.Text.Style
import WordC.Token.Kind

/-!
# Completion

The word in front of the cursor is completed to a keyword, a system call or a command. The cursor is
a byte offset. There is no answer where the cursor, or the start of the word, lies inside a
character.
-/

namespace WordC.Prompt

/-- Everything that a word can be completed to: keywords in alphabetical order, system calls and
commands. -/
def vocabulary : List String :=
  (Keyword.all.map (·.text)).mergeSort (· ≤ ·) ++ Trap.all.map (·.name) ++
    Command.all.map (·.text)

/-- The characters that words on the prompt are made of. -/
def isWordPart (c : Char) : Bool :=
  Text.isAlphanumeric c || c = '_' || c = '.'

/-- The byte behind the first byte of the last character that belongs to no word. -/
def startOfWord (before : List Char) : Nat :=
  match before.reverse.dropWhile isWordPart with
  | [] => 0
  | _ :: separated => Text.byteLength separated + 1

/-- The start of the word in front of the cursor. -/
def wordStart? (line : String) (cursor : Nat) : Option Nat := do
  let (before, _) ← Text.splitAt? cursor line.toList
  return startOfWord before

/-- The word in front of the cursor. -/
def word? (line : String) (cursor : Nat) : Option (List Char) := do
  let (before, _) ← Text.splitAt? cursor line.toList
  let (_, word) ← Text.splitAt? (startOfWord before) before
  return word

structure Candidate where
  display : String
  /-- What is put behind the word. -/
  replacement : String
deriving DecidableEq

/-- The entries of the vocabulary that begin with a word. -/
def candidates (word : List Char) : List Candidate :=
  vocabulary.filterMap fun entry =>
    (word.isPrefixOf? entry.toList).map fun rest =>
      { display := entry, replacement := String.ofList rest }

def complete? (line : String) (cursor : Nat) : Option (List Candidate) := do
  let word ← word? line cursor
  return if word.isEmpty then [] else candidates word

/-- The hint behind the end of a line: what the first longer candidate adds to a word of at least
two bytes. -/
def hint? (styles : Text.Styles) (line : String) (cursor : Nat) : Option (Option String) :=
  if cursor < line.utf8ByteSize then some none
  else do
    let word ← word? line cursor
    if Text.byteLength word < 2 then return none
    let longer := (candidates word).find? fun candidate => !candidate.replacement.isEmpty
    return longer.map fun candidate => styles.dimmed candidate.replacement

end WordC.Prompt
