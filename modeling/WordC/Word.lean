/-!
# Machine words

Every cell, register, instruction and value is one signed 64-bit word, whose arithmetic wraps.
-/

namespace WordC

abbrev Word := Int64

/-- The word that counts `n`; counts beyond the largest word wrap. -/
def Word.ofCount (n : Nat) : Word :=
  Int64.ofNat n

/-- A word used as an address or a count; negative words are neither. -/
def Word.count? (word : Word) : Option Nat :=
  if word.toInt < 0 then none else some word.toInt.toNat

def Word.ofBool (condition : Bool) : Word :=
  if condition then 1 else 0

/-- The 64 bits of a word read without a sign. -/
def Word.bits (word : Word) : Nat :=
  word.toUInt64.toNat

/-- The low eight bits. -/
def Word.byte (word : Word) : UInt8 :=
  word.toUInt64.toUInt8

def Word.ofByte (byte : UInt8) : Word :=
  Int64.ofNat byte.toNat

def Word.text (word : Word) : String :=
  toString word.toInt

/-- The largest word. -/
def Word.greatest : Nat :=
  Nat.pow 2 63 - 1

end WordC
