import WordC.Toml.Quoted
import WordC.Toml.Table

/-!
# Documents

A document is read line by line into headers and pairs of a key and a value, which then build up its
root table. Any fault makes the whole document invalid.
-/

namespace WordC.Toml

/-- The number of parts of a key, and of values inside each other, that is refused. -/
def depthLimit : Nat := 80

def skipBlanks (input : List Char) : List Char :=
  input.dropWhile isBlank

mutual

/-- Skips white space, line feeds and comments. -/
def skipLines : List Char → List Char
  | [] => []
  | c :: rest =>
      if isBlank c || c = '\n' then skipLines rest
      else if c = '#' then skipComment rest
      else c :: rest

def skipComment : List Char → List Char
  | [] => []
  | c :: rest =>
      if isPlain c then skipComment rest
      else if c = '\n' then skipLines rest
      else c :: rest

end

/-- The rest of the input behind a character that has to come next. -/
def expect? (mark : Char) : List Char → Option (List Char)
  | [] => none
  | c :: rest => if c = mark then some rest else none

def isBare (c : Char) : Bool :=
  ('a' ≤ c && c ≤ 'z') || ('A' ≤ c && c ≤ 'Z') || isDigit c || c = '_' || c = '-'

def keyPart? (input : List Char) : Cut :=
  match input with
  | '"' :: rest => basic? rest
  | '\'' :: rest => literal? rest
  | _ =>
      let word := input.takeWhile isBare
      if word.isEmpty then none else some (word, input.drop word.length)

/-- The parts of a dotted key, fewer than `limit`, up to the last one, the last one, and what
follows the key. -/
def key? (limit : Nat) (input : List Char) : Option (List String × String × List Char) :=
  match limit with
  | 0 | 1 => none
  | limit + 1 => do
      let (part, rest) ← keyPart? (skipBlanks input)
      match skipBlanks rest with
      | '.' :: rest =>
          let (path, key, rest) ← key? limit rest
          return (String.ofList part :: path, key, rest)
      | rest => return ([], String.ofList part, rest)

def isWordPart (c : Char) : Bool :=
  isBare c || c = '+' || c = '.' || c = ':'

/-- The value of a word, and what follows it. A date may be joined to a time by a space. -/
def word? (input : List Char) : Option (Value × List Char) :=
  let word := input.takeWhile isWordPart
  let rest := input.drop word.length
  if word = ['t', 'r', 'u', 'e'] then some (.boolean true, rest)
  else if word = ['f', 'a', 'l', 's', 'e'] then some (.boolean false, rest)
  else
    match integer? word with
    | some value => some (.integer value, rest)
    | none =>
        if isDate word then
          match rest with
          | ' ' :: c :: after =>
              if isDigit c then
                let time := (c :: after).takeWhile isWordPart
                if isTime true time then some (.other, (c :: after).drop time.length) else none
              else some (.other, rest)
          | _ => some (.other, rest)
        else if isFloat word || isMoment word then some (.other, rest)
        else none

/-- The rest of an array, of at most `rounds` values. -/
def arrayRest? (value? : List Char → Option (Value × List Char)) : Nat → List Char →
    Option (List Char)
  | 0, _ => none
  | rounds + 1, input =>
      match skipLines input with
      | ']' :: rest => some rest
      | input => do
          let (_, rest) ← value? input
          match skipLines rest with
          | ',' :: rest => arrayRest? value? rounds rest
          | ']' :: rest => some rest
          | _ => none

/-- The rest of an inline table, of at most `rounds` pairs. -/
def inlineRest? (value? : List Char → Option (Value × List Char)) (entries : Entries) :
    Nat → List Char → Option (List Char)
  | 0, _ => none
  | rounds + 1, input => do
      let (path, key, rest) ← key? depthLimit input
      let rest ← expect? '=' rest
      let (value, rest) ← value? (skipBlanks rest)
      let entries ← entries.addValue? path key value
      match skipBlanks rest with
      | ',' :: rest => inlineRest? value? entries rounds rest
      | '\x7d' :: rest => some rest
      | _ => none

/-- The value that the input begins with, in which fewer than `limit` values lie inside each
other. -/
def value? (limit : Nat) (input : List Char) : Option (Value × List Char) :=
  match limit with
  | 0 => none
  | limit + 1 =>
      match input with
      | '[' :: rest =>
          if limit = 0 then none
          else (arrayRest? (value? limit) (rest.length + 1) rest).map (Value.other, ·)
      | '\x7b' :: rest =>
          if limit = 0 then none
          else
            match skipBlanks rest with
            | '\x7d' :: rest => some (.other, rest)
            | rest => (inlineRest? (value? limit) [] (rest.length + 1) rest).map (Value.other, ·)
      | c :: _ =>
          if c = '"' || c = '\'' then
            (quoted? input).map fun (text, rest) => (.text (String.ofList text), rest)
          else word? input
      | [] => none

inductive Statement where
  | pair (path : List String) (key : String) (value : Value)
  | table (path : List String) (key : String)
  | array (path : List String) (key : String)

def statement? (input : List Char) : Option (Statement × List Char) :=
  match input with
  | '[' :: '[' :: rest => do
      let (path, key, rest) ← key? depthLimit rest
      let rest ← expect? ']' rest
      return (.array path key, ← expect? ']' rest)
  | '[' :: rest => do
      let (path, key, rest) ← key? depthLimit rest
      return (.table path key, ← expect? ']' rest)
  | _ => do
      let (path, key, rest) ← key? depthLimit input
      let rest ← expect? '=' rest
      let (value, rest) ← value? depthLimit (skipBlanks rest)
      return (.pair path key value, rest)

/-- The lines behind the current one, on which at most a comment is left. -/
def nextLine? (input : List Char) : Option (List Char) :=
  let rest :=
    match skipBlanks input with
    | '#' :: rest => rest.dropWhile isPlain
    | rest => rest
  match rest with
  | [] => some []
  | c :: rest => if c = '\n' then some rest else none

/-- The statements of at most `rounds` lines. -/
def statements? : Nat → List Char → Option (List Statement)
  | 0, _ => none
  | rounds + 1, input =>
      match skipBlanks input with
      | [] => some []
      | c :: rest => do
          if c = '\n' || c = '#' then statements? rounds (← nextLine? (c :: rest))
          else
            let (statement, rest) ← statement? (c :: rest)
            return statement :: (← statements? rounds (← nextLine? rest))

/-- Adds statements to the root table. Pairs belong under the header before them, whose full path is
`under`. -/
def build? (root : Entries) (under : List String) : List Statement → Option Entries
  | [] => some root
  | .pair path key value :: rest => do
      let root ← Entries.modify? (·.addValue? path key value) under root
      build? root under rest
  | .table path key :: rest => do
      build? (← Entries.openTable? path key root) (path ++ [key]) rest
  | .array path key :: rest => do
      build? (← Entries.openArray? path key root) (path ++ [key]) rest

/-- Writes every end of a line as a line feed. -/
def unifyLines : List Char → List Char
  | [] => []
  | '\r' :: '\n' :: rest => '\n' :: unifyLines rest
  | c :: rest => c :: unifyLines rest

/-- The root table of a document, which may begin with a byte order mark. -/
def read? (text : String) : Option Entries := do
  let input :=
    match text.toList with
    | '\ufeff' :: rest => unifyLines rest
    | input => unifyLines input
  build? [] [] (← statements? (input.length + 1) input)

end WordC.Toml
