/-!
# Terminal styles

How a terminal is told to style a text is not settled here: styles are functions on texts, and each
puts escape sequences around a text. Styles nest.
-/

namespace WordC.Text

inductive Colour where
  | red
  | green
  | yellow
  | magenta
  | cyan
  | white
  | brightGreen
  | brightYellow
  | brightCyan
deriving DecidableEq

/-- The styles of a terminal. -/
structure Styles where
  coloured : Colour → String → String
  bold : String → String
  dimmed : String → String

/-- Runs of escape sequences: an escape character and a bracket, digits and an `m`. -/
inductive Sequences : List Char → Prop where
  | nil : Sequences []
  | cons {digits rest : List Char} (hne : digits ≠ []) (hdigits : ∀ c ∈ digits, c.isDigit = true)
      (h : Sequences rest) : Sequences ('\x1b' :: '[' :: (digits ++ 'm' :: rest))

/-- A style adds escape sequences around a text and nothing else. -/
def Surrounds (style : String → String) : Prop :=
  ∀ text, ∃ before after, Sequences before ∧ Sequences after ∧
    (style text).toList = before ++ text.toList ++ after

namespace Styles

/-- What the styles of a terminal promise. -/
structure Escaping (styles : Styles) : Prop where
  coloured : ∀ colour, Surrounds (styles.coloured colour)
  bold : Surrounds styles.bold
  dimmed : Surrounds styles.dimmed

end Styles

def Colour.code : Colour → Nat
  | red => 31
  | green => 32
  | yellow => 33
  | magenta => 35
  | cyan => 36
  | white => 37
  | brightGreen => 92
  | brightYellow => 93
  | brightCyan => 96

/-- The sequence that changes the style to the one with this code. -/
def escape (code : Nat) : String :=
  "\x1b[" ++ toString code ++ "m"

/-- The styles of the terminals that the program writes to: one sequence switches a style on and one
switches it off again. -/
def Styles.common : Styles where
  coloured colour text := escape colour.code ++ text ++ escape 39
  bold text := escape 1 ++ text ++ escape 0
  dimmed text := escape 2 ++ text ++ escape 0

end WordC.Text
