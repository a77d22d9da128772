import WordC.Toml.Number

/-!
# Quoted text

Text between quotes. Single quotes keep everything as it is and double quotes know escapes; three
quotes of either kind stand around text of several lines. Lines end in line feeds alone.
-/

namespace WordC.Toml

def isBlank (c : Char) : Bool :=
  c = ' ' || c = '\t'

/-- The characters of comments and of text on one line: everything but controls. -/
def isPlain (c : Char) : Bool :=
  c = '\t' || (' ' ≤ c && c ≠ '\x7f')

/-- The character with a code point in hexadecimal. -/
def codePoint? (digits : List Char) : Option Char := do
  let code := ofDigits 16 (← digits.mapM digit?)
  if h : code.isValidChar then some (Char.ofNatAux code h) else none

/-- The character that a letter stands for behind a backslash. -/
def escape? : Char → Option Char
  | 'b' => some '\x08'
  | 't' => some '\t'
  | 'n' => some '\n'
  | 'f' => some '\x0c'
  | 'r' => some '\r'
  | '"' => some '"'
  | '\\' => some '\\'
  | _ => none

/-- A text up to its closing quote, and what follows the quote. -/
abbrev Cut := Option (List Char × List Char)

def Cut.cons (c : Char) (cut : Cut) : Cut :=
  cut.map fun (text, after) => (c :: text, after)

/-- The rest of a text in single quotes. -/
def literal? : List Char → Cut
  | [] => none
  | '\'' :: rest => some ([], rest)
  | c :: rest => if isPlain c then (literal? rest).cons c else none

/-- The rest of a text in three single quotes, of which two more may stand at its end. -/
def literalBlock? : List Char → Cut
  | [] => none
  | '\'' :: '\'' :: '\'' :: '\'' :: '\'' :: rest => some (['\'', '\''], rest)
  | '\'' :: '\'' :: '\'' :: '\'' :: rest => some (['\''], rest)
  | '\'' :: '\'' :: '\'' :: rest => some ([], rest)
  | c :: rest => if isPlain c || c = '\n' then (literalBlock? rest).cons c else none

/-- The rest of a text in double quotes. -/
def basic? : List Char → Cut
  | [] => none
  | '"' :: rest => some ([], rest)
  | '\\' :: 'u' :: a :: b :: c :: d :: rest => do
      (basic? rest).cons (← codePoint? [a, b, c, d])
  | '\\' :: 'U' :: a :: b :: c :: d :: e :: f :: g :: h :: rest => do
      (basic? rest).cons (← codePoint? [a, b, c, d, e, f, g, h])
  | '\\' :: c :: rest => do (basic? rest).cons (← escape? c)
  | c :: rest => if isPlain c && c ≠ '\\' then (basic? rest).cons c else none

/-- Where the rest of a text in three double quotes stands. -/
inductive Fold where
  | none
  /-- Behind a backslash, with only blanks up to the end of its line. -/
  | line
  /-- On a line behind it, with only blanks so far. -/
  | margin
deriving DecidableEq

/-- The rest of a text in three double quotes, of which two more may stand at its end. A backslash
at the end of a line takes the end and all white space behind it out of the text. -/
def basicBlock? (fold : Fold) : List Char → Cut
  | [] => .none
  | c :: rest =>
      if fold ≠ .none ∧ isBlank c then basicBlock? fold rest
      else if fold ≠ .none ∧ c = '\n' then basicBlock? .margin rest
      else if fold = .line then .none
      else if c = '"' then
        match rest with
        | '"' :: '"' :: '"' :: '"' :: after => some (['"', '"'], after)
        | '"' :: '"' :: '"' :: after => some (['"'], after)
        | '"' :: '"' :: after => some ([], after)
        | after => (basicBlock? .none after).cons c
      else if c = '\\' then
        match rest with
        | 'u' :: a :: b :: c :: d :: after => do
            (basicBlock? .none after).cons (← codePoint? [a, b, c, d])
        | 'U' :: a :: b :: c :: d :: e :: f :: g :: h :: after => do
            (basicBlock? .none after).cons (← codePoint? [a, b, c, d, e, f, g, h])
        | letter :: after =>
            match escape? letter with
            | some escaped => (basicBlock? .none after).cons escaped
            | .none => basicBlock? .line (letter :: after)
        | [] => .none
      else if isPlain c || c = '\n' then (basicBlock? .none rest).cons c
      else .none
termination_by text => text.length

/-- A line feed just behind the opening quotes is no part of the text. -/
def skipFirstLine : List Char → List Char
  | '\n' :: rest => rest
  | text => text

/-- A text in quotes of any kind and what follows it. -/
def quoted? : List Char → Cut
  | '"' :: '"' :: '"' :: rest => basicBlock? .none (skipFirstLine rest)
  | '\'' :: '\'' :: '\'' :: rest => literalBlock? (skipFirstLine rest)
  | '"' :: rest => basic? rest
  | '\'' :: rest => literal? rest
  | _ => none

end WordC.Toml
