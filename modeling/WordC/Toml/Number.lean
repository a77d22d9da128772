/-!
# Numbers, dates and times

What a word outside of quotes can spell. Only integers have a value here: nothing is set by a float,
a date or a time, so that it is enough to tell that they are well formed.
-/

namespace WordC.Toml

def isDigit (c : Char) : Bool :=
  '0' ≤ c && c ≤ '9'

/-- The value of a digit in base sixteen. -/
def digit? (c : Char) : Option Nat :=
  if isDigit c then some (c.toNat - '0'.toNat)
  else if 'a' ≤ c ∧ c ≤ 'f' then some (c.toNat - 'a'.toNat + 10)
  else if 'A' ≤ c ∧ c ≤ 'F' then some (c.toNat - 'A'.toNat + 10)
  else none

/-- The digits of a base, which underscores may separate: at least one, with no underscore at either
end and no two next to each other. -/
def digits? (base : Nat) : List Char → Option (List Nat)
  | [] => none
  | c :: rest => do
      let digit ← (digit? c).filter (· < base)
      match rest with
      | [] => return [digit]
      | '_' :: after => return digit :: (← digits? base after)
      | after => return digit :: (← digits? base after)

def ofDigits (base : Nat) (digits : List Nat) : Nat :=
  digits.foldl (fun value digit => value * base + digit) 0

/-- A word without its sign, and whether the sign was a minus. -/
def unsigned (word : List Char) : Bool × List Char :=
  match word with
  | '-' :: rest => (true, rest)
  | '+' :: rest => (false, rest)
  | _ => (false, word)

/-- The digits in front of a decimal point: no zero comes before another digit. -/
def whole? (word : List Char) : Option (List Nat) :=
  match word with
  | '0' :: _ :: _ => none
  | _ => digits? 10 word

/-- The words that an integer can be. -/
def inRange (value : Int) : Option Int :=
  if Int64.minValue.toInt ≤ value ∧ value ≤ Int64.maxValue.toInt then some value else none

def integer? (word : List Char) : Option Int :=
  match word with
  | '0' :: 'x' :: rest => (digits? 16 rest).bind fun digits => inRange (ofDigits 16 digits)
  | '0' :: 'o' :: rest => (digits? 8 rest).bind fun digits => inRange (ofDigits 8 digits)
  | '0' :: 'b' :: rest => (digits? 2 rest).bind fun digits => inRange (ofDigits 2 digits)
  | _ => do
      let (isNegative, rest) := unsigned word
      let value : Int := ofDigits 10 (← whole? rest)
      inRange (if isNegative then -value else value)

/-- Half a unit above the greatest double: what is not below it rounds to infinity. -/
def doubleLimit : Nat :=
  Nat.pow 2 1024 - Nat.pow 2 970

/-- Whether the number `digits · 10 ^ exponent` is finite as a double. -/
def isFinite (digits : List Nat) (exponent : Int) : Bool :=
  let digits := digits.dropWhile (· = 0)
  let magnitude := digits.length + exponent
  if digits.isEmpty || magnitude < 309 then true
  else if 309 < magnitude then false
  else if exponent < 0 then ofDigits 10 digits < doubleLimit * Nat.pow 10 exponent.natAbs
  else ofDigits 10 digits * Nat.pow 10 exponent.toNat < doubleLimit

/-- A whole part with a fraction, an exponent or both. A number too great for a double is refused,
unless it is negative. -/
def isFloat (word : List Char) : Bool :=
  let (isNegative, rest) := unsigned word
  if rest = ['i', 'n', 'f'] ∨ rest = ['n', 'a', 'n'] then true
  else
    let isMark (c : Char) : Bool := c = 'e' || c = 'E'
    let mantissa := rest.takeWhile fun c => !isMark c
    let power := rest.drop mantissa.length
    let front := mantissa.takeWhile (· ≠ '.')
    let back := mantissa.drop front.length
    let fraction? := if back.isEmpty then some [] else digits? 10 back.tail
    let exponent? : Option Int :=
      if power.isEmpty then some 0
      else
        let (isNegative, digits) := unsigned power.tail
        (digits? 10 digits).map fun digits =>
          if isNegative then -ofDigits 10 digits else ofDigits 10 digits
    match whole? front, fraction?, exponent? with
    | some front, some fraction, some exponent =>
        !(back.isEmpty && power.isEmpty) &&
          (isNegative || isFinite (front ++ fraction) (exponent - fraction.length))
    | _, _, _ => false

/-- A decimal number of as many digits as the text has characters. -/
def fixed? (text : List Char) : Option Nat :=
  if text.all isDigit then some (ofDigits 10 (text.filterMap digit?)) else none

def daysOf (year month : Nat) : Nat :=
  if month = 2 then
    if year % 4 = 0 ∧ (year % 100 ≠ 0 ∨ year % 400 = 0) then 29 else 28
  else if month ∈ [4, 6, 9, 11] then 30
  else 31

/-- A day of the calendar, such as `1979-05-27`. -/
def isDate : List Char → Bool
  | [a, b, c, d, '-', e, f, '-', g, h] =>
      match fixed? [a, b, c, d], fixed? [e, f], fixed? [g, h] with
      | some year, some month, some day =>
          1 ≤ month && month ≤ 12 && 1 ≤ day && day ≤ daysOf year month
      | _, _, _ => false
  | _ => false

/-- A time of the day without its fraction; a minute may have a leap second. -/
def isClock (hour minute second : List Char) : Bool :=
  match fixed? hour, fixed? minute, fixed? second with
  | some hour, some minute, some second => hour < 24 && minute < 60 && second ≤ 60
  | _, _, _ => false

/-- The distance from universal time. -/
def isOffset : List Char → Bool
  | [] => true
  | ['Z'] | ['z'] => true
  | [sign, a, b, ':', c, d] =>
      (sign = '+' || sign = '-') && isClock [a, b] [c, d] ['0', '0']
  | _ => false

/-- A time, such as `07:32:00.5`, with an offset if one is allowed. -/
def isTime (withOffset : Bool) : List Char → Bool
  | a :: b :: ':' :: c :: d :: ':' :: e :: f :: rest =>
      let offset :=
        match rest with
        | '.' :: digits => if digits.head?.any isDigit then digits.dropWhile isDigit else rest
        | _ => rest
      isClock [a, b] [c, d] [e, f] && (if withOffset then isOffset offset else offset.isEmpty)
  | _ => false

/-- A date, a time or both. -/
def isMoment (word : List Char) : Bool :=
  isDate word || isTime false word ||
    match word.drop 10 with
    | mark :: time => (mark = 'T' || mark = 't') && isDate (word.take 10) && isTime true time
    | [] => false

end WordC.Toml
