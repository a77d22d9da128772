import WordC.Text.Letters
import WordC.Token.Kind

/-!
# Classes of tokens

Each class says which text at the start of the input it takes and which token that text spells. The
classes are tried in order and the first that takes anything wins, so literals and keywords come
before identifiers, and two-character operators before the one-character marks they start with.

The shape of each class is a regular expression anchored at the start of the input, named beside the
function that reads it. Alternatives are tried from left to right and repetition is greedy.
-/

namespace WordC.Token

inductive Class where
  | number
  | character
  | string
  | keyword
  | identifier
  | operator
  | symbol
deriving DecidableEq

namespace Class

def all : List Class := [
  number, character, string, keyword, identifier, operator, symbol]

def name : Class → String
  | number => "number"
  | character => "character literal"
  | string => "string literal"
  | keyword => "keyword"
  | identifier => "identifier"
  | operator => "operator"
  | symbol => "symbol"

def isDigit (c : Char) : Bool :=
  '0' ≤ c && c ≤ '9'

def isHexDigit (c : Char) : Bool :=
  isDigit c || ('a' ≤ c && c ≤ 'f') || ('A' ≤ c && c ≤ 'F')

def isHexMark (c : Char) : Bool :=
  c = 'x' || c = 'X'

def isNameStart (c : Char) : Bool :=
  ('a' ≤ c && c ≤ 'z') || ('A' ≤ c && c ≤ 'Z') || c = '_'

def isNamePart (c : Char) : Bool :=
  isNameStart c || isDigit c

/-- A text split into a non-empty run of characters that satisfy `test` and what follows it. -/
def spanOf? (test : Char → Bool) (input : List Char) : Option (List Char × List Char) :=
  if (input.takeWhile test).isEmpty then none
  else some (input.takeWhile test, input.dropWhile test)

/-- Splits behind the closing quote, which for a double quote is `(?:\\.|[^"\\\n])*"`. A backslash
takes the next character with it; the text may not run over the end of the line. -/
def closing? (quote : Char) : List Char → Option (List Char × List Char)
  | [] => none
  | '\\' :: c :: rest =>
      if c = '\n' then none
      else (closing? quote rest).map fun (body, after) => ('\\' :: c :: body, after)
  | c :: rest =>
      if c = quote then some ([c], rest)
      else if c = '\\' || c = '\n' then none
      else (closing? quote rest).map fun (body, after) => (c :: body, after)

/-- The shapes of the two literals, `^'(?:\\.|[^'\\\n])*'` and `^"(?:\\.|[^"\\\n])*"`. -/
def literal? (quote : Char) : List Char → Option (List Char × List Char)
  | [] => none
  | c :: rest =>
      if c = quote then (closing? quote rest).map fun (body, after) => (c :: body, after)
      else none

/-- The shape `^(?:0[xX][0-9a-fA-F]+|[0-9]+)`: `0x` with at least one hexadecimal digit, otherwise a
run of decimal digits. -/
def number? (input : List Char) : Option (List Char × List Char) :=
  match input with
  | '0' :: x :: rest =>
      match if isHexMark x then spanOf? isHexDigit rest else none with
      | some (digits, after) => some ('0' :: x :: digits, after)
      | none => spanOf? isDigit input
  | _ => spanOf? isDigit input

/-- The first of the given spellings that the input begins with. -/
def spelled? (spellings : List String) (input : List Char) : Option (List Char × List Char) :=
  spellings.findSome? fun spelling =>
    (spelling.toList.isPrefixOf? input).map fun after => (spelling.toList, after)

/-- The shape `^(?:int|char|void|float|if|else|while|return|sizeof|enum)\b`: a keyword is not the
beginning of a longer word. -/
def keyword? (input : List Char) : Option (List Char × List Char) :=
  Keyword.all.findSome? fun word =>
    match word.text.toList.isPrefixOf? input with
    | none => none
    | some after =>
        if after.head?.any Text.isWordChar then none else some (word.text.toList, after)

/-- The shape `^[A-Za-z_][A-Za-z0-9_]*`. -/
def identifier? (input : List Char) : Option (List Char × List Char) :=
  match input with
  | [] => none
  | c :: _ => if isNameStart c then spanOf? isNamePart input else none

/-- The text the class takes from the start of the input, and the rest. An operator has the shape
`^(?:\|\||&&|==|!=|<=|>=)`, a symbol the shape `^[=|^&<>+\-*/%!~(){}\[\];,]`. -/
def split? : Class → List Char → Option (List Char × List Char)
  | number => number?
  | character => literal? '\''
  | string => literal? '"'
  | keyword => keyword?
  | identifier => identifier?
  | operator => spelled? (Punctuator.pairs.map (·.text))
  | symbol => spelled? (Punctuator.singles.map (·.text))

/-- The value of a digit in base sixteen. -/
def digitValue (c : Char) : Nat :=
  if isDigit c then c.toNat - '0'.toNat
  else if 'a' ≤ c then c.toNat - 'a'.toNat + 10
  else c.toNat - 'A'.toNat + 10

def digitsValue (base : Nat) (digits : List Char) : Nat :=
  digits.foldl (fun value c => value * base + digitValue c) 0

/-- Numbers past the greatest word have no token. -/
def buildNumber? (lexeme : List Char) : Option Kind :=
  let value :=
    match lexeme with
    | '0' :: x :: digits =>
        if isHexMark x then digitsValue 16 digits else digitsValue 10 (x :: digits)
    | digits => digitsValue 10 digits
  if value ≤ Word.greatest then some (.number (Word.ofCount value)) else none

def escape? : Char → Option Char
  | 'n' => some '\n'
  | 't' => some '\t'
  | 'r' => some '\r'
  | '0' => some '\x00'
  | '\\' => some '\\'
  | '\'' => some '\''
  | '"' => some '"'
  | _ => none

/-- Resolves the escapes of a literal's body. -/
def unescape? : List Char → Option (List Char)
  | [] => some []
  | '\\' :: [] => none
  | '\\' :: c :: rest => do
      let resolved ← escape? c
      let value ← unescape? rest
      return resolved :: value
  | c :: rest => (unescape? rest).map (c :: ·)

/-- What stands between the quotes of a literal. -/
def body (lexeme : List Char) : List Char :=
  lexeme.tail.dropLast

/-- A character literal holds exactly one character. -/
def buildCharacter? (lexeme : List Char) : Option Kind :=
  match unescape? (body lexeme) with
  | some [c] => some (.character c)
  | _ => none

/-- The token that a text taken by the class spells. There is none for a text of the right shape
but no value: an unknown escape, a character literal of another length or too great a number. -/
def build? (cls : Class) (lexeme : List Char) : Option Kind :=
  match cls with
  | number => buildNumber? lexeme
  | character => buildCharacter? lexeme
  | string => (unescape? (body lexeme)).map fun value => .string (String.ofList value)
  | keyword => (Keyword.ofText? (String.ofList lexeme)).map .keyword
  | identifier => some (.identifier (String.ofList lexeme))
  | operator | symbol => (Punctuator.ofText? (String.ofList lexeme)).map .punctuator

/-- The first class that takes something from the start of the input. -/
def first? (input : List Char) : Option (Class × List Char × List Char) :=
  all.findSome? fun cls => (cls.split? input).map (cls, ·)

/-- A split of the input takes at least one character and loses none. -/
def Splits (input : List Char) (split : List Char × List Char) : Prop :=
  input = split.1 ++ split.2 ∧ split.1 ≠ []

theorem splits_of_spanOf? {test : Char → Bool} {input : List Char} {split : List Char × List Char}
    (h : spanOf? test input = some split) : Splits input split := by
  unfold spanOf? at h
  split at h
  · simp at h
  · rename_i hne
    cases h
    exact ⟨List.takeWhile_append_dropWhile.symm, by simpa [List.isEmpty_iff] using hne⟩

theorem splits_of_closing? {quote : Char} {input : List Char} {split : List Char × List Char}
    (h : closing? quote input = some split) : Splits input split := by
  fun_induction closing? quote input generalizing split with
  | case1 => simp at h
  | case2 => simp at h
  | case3 c rest _ ih =>
    obtain ⟨⟨body, after⟩, htail, rfl⟩ := Option.map_eq_some_iff.1 h
    have := (ih htail).1
    exact ⟨by simpa using this, by simp⟩
  | case4 => cases h; exact ⟨rfl, by simp⟩
  | case5 => simp at h
  | case6 c rest _ _ _ ih =>
    obtain ⟨⟨body, after⟩, htail, rfl⟩ := Option.map_eq_some_iff.1 h
    have := (ih htail).1
    exact ⟨by simpa using this, by simp⟩

theorem splits_of_literal? {quote : Char} {input : List Char} {split : List Char × List Char}
    (h : literal? quote input = some split) : Splits input split := by
  unfold literal? at h
  split at h
  · simp at h
  · split at h
    · obtain ⟨⟨body, after⟩, htail, rfl⟩ := Option.map_eq_some_iff.1 h
      have := (splits_of_closing? htail).1
      exact ⟨by simpa using this, by simp⟩
    · simp at h

theorem splits_of_number? {input : List Char} {split : List Char × List Char}
    (h : number? input = some split) : Splits input split := by
  unfold number? at h
  split at h
  · split at h
    · rename_i hdigits
      split at hdigits
      · cases h
        have := (splits_of_spanOf? hdigits).1
        exact ⟨by simpa using this, by simp⟩
      · simp at hdigits
    · exact splits_of_spanOf? h
  · exact splits_of_spanOf? h

theorem eq_append_of_isPrefixOf? {spelling input after : List Char}
    (h : spelling.isPrefixOf? input = some after) : input = spelling ++ after := by
  induction spelling generalizing input with
  | nil => exact Option.some.inj h
  | cons c spelling ih =>
    cases input with
    | nil => cases h
    | cons d input =>
      have hcons : (c :: spelling).isPrefixOf? (d :: input) =
          if c == d then spelling.isPrefixOf? input else none := rfl
      rw [hcons] at h
      split at h
      · rename_i heq
        simp [ih h, beq_iff_eq.1 heq]
      · simp at h

theorem splits_of_spelled? {spellings : List String} {input : List Char}
    {split : List Char × List Char} (hne : ∀ spelling ∈ spellings, spelling.toList ≠ [])
    (h : spelled? spellings input = some split) : Splits input split := by
  obtain ⟨spelling, hmem, hsplit⟩ := List.exists_of_findSome?_eq_some h
  obtain ⟨after, hafter, rfl⟩ := Option.map_eq_some_iff.1 hsplit
  exact ⟨eq_append_of_isPrefixOf? hafter, hne spelling hmem⟩

theorem splits_of_keyword? {input : List Char} {split : List Char × List Char}
    (h : keyword? input = some split) : Splits input split := by
  obtain ⟨word, hmem, hsplit⟩ := List.exists_of_findSome?_eq_some h
  split at hsplit
  · simp at hsplit
  · rename_i after hafter
    split at hsplit
    · simp at hsplit
    · cases hsplit
      have hne : ∀ word ∈ Keyword.all, word.text.toList ≠ [] := by decide
      exact ⟨eq_append_of_isPrefixOf? hafter, hne word hmem⟩

theorem splits_of_identifier? {input : List Char} {split : List Char × List Char}
    (h : identifier? input = some split) : Splits input split := by
  unfold identifier? at h
  split at h
  · simp at h
  · split at h
    · exact splits_of_spanOf? h
    · simp at h

theorem splits_of_split? {cls : Class} {input : List Char} {split : List Char × List Char}
    (h : cls.split? input = some split) : Splits input split := by
  cases cls with
  | number => exact splits_of_number? h
  | character => exact splits_of_literal? h
  | string => exact splits_of_literal? h
  | keyword => exact splits_of_keyword? h
  | identifier => exact splits_of_identifier? h
  | operator => exact splits_of_spelled? (by decide) h
  | symbol => exact splits_of_spelled? (by decide) h

theorem splits_of_first? {cls : Class} {input : List Char} {split : List Char × List Char}
    (h : first? input = some (cls, split)) : Splits input split := by
  obtain ⟨found, _, hsplit⟩ := List.exists_of_findSome?_eq_some h
  obtain ⟨taken, htaken, heq⟩ := Option.map_eq_some_iff.1 hsplit
  cases heq
  exact splits_of_split? htaken

theorem Splits.length_lt {input : List Char} {split : List Char × List Char}
    (h : Splits input split) : split.2.length < input.length := by
  have hpos := List.length_pos_iff.2 h.2
  rw [h.1, List.length_append]
  omega

end Class

end WordC.Token
