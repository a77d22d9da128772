import WordC.Error
import WordC.Text.Utf8

/-!
# Output templates

A template is a text with fields. `%` introduces a field: flags, a width and the letter of a
conversion. Each field takes the next value; zero stands in for values that are missing. A width is
a number of 64 bits, of which a longer row of digits spells the last ones.
-/

namespace WordC

open Text.Utf8 (Bytes)

namespace Template

inductive Conversion where
  | signed
  | unsigned
  | hex
  | upperHex
  | character
  | string
deriving DecidableEq

def Conversion.ofLetter? (letter : UInt8) : Option Conversion :=
  match Char.ofNat letter.toNat with
  | 'd' | 'i' => some signed
  | 'u' => some unsigned
  | 'x' => some hex
  | 'X' => some upperHex
  | 'c' => some character
  | 's' => some string
  | _ => none

def Conversion.isNumeric : Conversion → Bool
  | signed | unsigned | hex | upperHex => true
  | character | string => false

/-- The flags and the width of a field, as far as they have been read. -/
structure Layout where
  left : Bool := false
  zeros : Bool := false
  width : Option UInt64 := none
deriving DecidableEq

structure Field where
  left : Bool
  zeros : Bool
  width : UInt64
  conversion : Conversion
deriving DecidableEq

inductive Piece where
  | literal (bytes : Bytes)
  | field (field : Field)
deriving DecidableEq

def percent : UInt8 := 37
def minus : UInt8 := 45
def zero : UInt8 := 48
def space : UInt8 := 32

def isDigit (byte : UInt8) : Bool :=
  48 ≤ byte && byte ≤ 57

/-- The width behind one more digit. -/
def widen (width : UInt64) (digit : UInt8) : UInt64 :=
  width * 10 + (digit - zero).toUInt64

/-- The layout with one more flag or digit. The flags `-` and `0` come before the width. -/
def Layout.extend? (layout : Layout) (byte : UInt8) : Option Layout :=
  match layout.width with
  | none =>
      if byte = minus then some { layout with left := true }
      else if byte = zero then some { layout with zeros := true }
      else if isDigit byte then some { layout with width := some (widen 0 byte) }
      else none
  | some width =>
      if isDigit byte then some { layout with width := some (widen width byte) }
      else none

/-- What a field that ends with `letter` stands for. `%%` is a percent sign, and a letter that is no
conversion is copied behind a percent sign. -/
def Layout.finish (layout : Layout) (letter : UInt8) : Piece :=
  if letter = percent then .literal [percent]
  else
    match Conversion.ofLetter? letter with
    | none => .literal [percent, letter]
    | some conversion =>
        .field {
          left := layout.left
          zeros := layout.zeros
          width := layout.width.getD 0
          conversion }

/-- Reads a template from inside a field, if one has begun. A field that is cut off at the end
leaves its percent sign. -/
def parseFrom : Option Layout → Bytes → List Piece
  | none, [] => []
  | some _, [] => [.literal [percent]]
  | none, byte :: rest =>
      if byte = percent then parseFrom (some {}) rest
      else .literal [byte] :: parseFrom none rest
  | some layout, byte :: rest =>
      match layout.extend? byte with
      | some layout => parseFrom (some layout) rest
      | none => layout.finish byte :: parseFrom none rest

def parse (template : Bytes) : List Piece :=
  parseFrom none template

/-- The value without padding. `read` finds the string at an address. -/
def Conversion.render (read : Word → Except Error Bytes) (value : Word) :
    Conversion → Except Error Bytes
  | signed => .ok (Text.Utf8.encode value.text)
  | unsigned => .ok (Text.Utf8.encode (toString value.bits))
  | hex => .ok (Text.Utf8.encode (String.ofList (Nat.toDigits 16 value.bits)))
  | upperHex =>
      .ok (Text.Utf8.encode (String.ofList ((Nat.toDigits 16 value.bits).map Char.toUpper)))
  | character => .ok [value.byte]
  | string => read value

/-- Fills a value up to the width of its field: with spaces behind it, with zeros between the sign
and the digits of a number, or with spaces before it. -/
def Field.pad (field : Field) (value : Bytes) : Bytes :=
  let missing := field.width.toNat - value.length
  if field.left then value ++ List.replicate missing space
  else if field.zeros && field.conversion.isNumeric then
    match value with
    | [] => List.replicate missing zero
    | first :: rest =>
        if first = minus then first :: (List.replicate missing zero ++ rest)
        else List.replicate missing zero ++ value
  else List.replicate missing space ++ value

def Field.render (read : Word → Except Error Bytes) (field : Field) (value : Word) :
    Except Error Bytes := do
  return field.pad (← field.conversion.render read value)

/-- The text of a template with the values of its fields. -/
def render (read : Word → Except Error Bytes) : List Piece → List Word → Except Error Bytes
  | [], _ => .ok []
  | .literal bytes :: rest, values => do
      return bytes ++ (← render read rest values)
  | .field field :: rest, values => do
      let text ← field.render read (values.headD 0)
      return text ++ (← render read rest values.tail)

end Template

end WordC
