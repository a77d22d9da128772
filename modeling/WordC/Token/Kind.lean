import WordC.Word
import WordC.Text.Quoted

/-!
# Kinds of tokens

Words and marks with a fixed spelling are listed once, each with its text; looking a text up and
printing a token both go through these lists.
-/

namespace WordC

/-- The named types. A value of any of them takes one word. -/
inductive TypeName where
  | void
  | int
  | float
  | char
deriving DecidableEq, Inhabited

def TypeName.text : TypeName → String
  | .void => "void"
  | .int => "int"
  | .float => "float"
  | .char => "char"

inductive Keyword where
  | type (type : TypeName)
  | ifKw
  | elseKw
  | whileKw
  | returnKw
  | sizeofKw
  | enumKw
deriving DecidableEq

namespace Keyword

def all : List Keyword := [
  type .int, type .char, type .void, type .float, ifKw, elseKw, whileKw, returnKw, sizeofKw, enumKw]

def text : Keyword → String
  | type name => name.text
  | ifKw => "if"
  | elseKw => "else"
  | whileKw => "while"
  | returnKw => "return"
  | sizeofKw => "sizeof"
  | enumKw => "enum"

def ofText? (text : String) : Option Keyword :=
  all.find? (·.text == text)

end Keyword

inductive Punctuator where
  | pipePipe
  | ampAmp
  | equalEqual
  | bangEqual
  | lessEqual
  | greaterEqual
  | equal
  | pipe
  | caret
  | amp
  | less
  | greater
  | plus
  | minus
  | star
  | slash
  | percent
  | bang
  | tilde
  | leftParen
  | rightParen
  | leftBrace
  | rightBrace
  | leftBracket
  | rightBracket
  | semicolon
  | comma
deriving DecidableEq

namespace Punctuator

/-- Operators of two characters. -/
def pairs : List Punctuator := [
  pipePipe, ampAmp, equalEqual, bangEqual, lessEqual, greaterEqual]

/-- Operators and separators of one character. -/
def singles : List Punctuator := [
  equal, pipe, caret, amp, less, greater, plus, minus, star, slash, percent, bang, tilde,
  leftParen, rightParen, leftBrace, rightBrace, leftBracket, rightBracket, semicolon, comma]

def text : Punctuator → String
  | pipePipe => "||"
  | ampAmp => "&&"
  | equalEqual => "=="
  | bangEqual => "!="
  | lessEqual => "<="
  | greaterEqual => ">="
  | equal => "="
  | pipe => "|"
  | caret => "^"
  | amp => "&"
  | less => "<"
  | greater => ">"
  | plus => "+"
  | minus => "-"
  | star => "*"
  | slash => "/"
  | percent => "%"
  | bang => "!"
  | tilde => "~"
  | leftParen => "("
  | rightParen => ")"
  | leftBrace => "\x7b"
  | rightBrace => "\x7d"
  | leftBracket => "["
  | rightBracket => "]"
  | semicolon => ";"
  | comma => ","

def ofText? (text : String) : Option Punctuator :=
  (pairs ++ singles).find? (·.text == text)

end Punctuator

namespace Token

/-- What a token is, with the value of a literal or the name of an identifier. -/
inductive Kind where
  | number (value : Word)
  | character (c : Char)
  | string (value : String)
  | identifier (name : String)
  | keyword (word : Keyword)
  | punctuator (mark : Punctuator)
  | endOfInput
deriving DecidableEq, Inhabited

namespace Kind

def isKeyword : Kind → Bool
  | keyword _ => true
  | _ => false

def typeName? : Kind → Option TypeName
  | keyword (.type name) => some name
  | _ => none

def isType (kind : Kind) : Bool :=
  kind.typeName?.isSome

def isLiteral : Kind → Bool
  | number _ | character _ | string _ => true
  | _ => false

/-- Characters up to U+00FF are shown as they are, line feed, tab and NUL by their escapes, and all
others by their code point. -/
def renderCharacter (c : Char) : String :=
  if c = '\n' then "\\n"
  else if c = '\t' then "\\t"
  else if c.toNat = 0 then "\\0"
  else if c.toNat < 256 then c.toString
  else Text.codePoint c

/-- The token as text. -/
def render : Kind → String
  | number value => value.text
  | character c => "'" ++ renderCharacter c ++ "'"
  | string value => Text.quoted value
  | identifier name => name
  | keyword word => word.text
  | punctuator mark => mark.text
  | endOfInput => "<eof>"

/-- How messages name the token: literals and identifiers by their class, all else by its text. -/
def describe : Kind → String
  | number _ => "number"
  | character _ => "character literal"
  | string _ => "string literal"
  | identifier _ => "identifier"
  | endOfInput => "end of input"
  | kind => "`" ++ kind.render ++ "`"

end Kind

end Token

/-- A token of a source text: what it is, how it was written and the byte offset of its start. -/
structure Token where
  kind : Token.Kind
  text : String
  start : Nat
deriving DecidableEq, Inhabited

/-- The byte offset just behind the token. -/
def Token.stop (token : Token) : Nat :=
  token.start + token.text.utf8ByteSize

def Token.endAt (offset : Nat) : Token :=
  { kind := .endOfInput, text := "", start := offset }

end WordC
