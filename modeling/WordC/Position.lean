/-!
# Places in a text

A byte offset into a source text is shown to the user as a line and a column.
-/

namespace WordC

/-- A line and a column, both counted from 1; the column counts characters. -/
structure Position where
  line : Nat
  column : Nat
deriving DecidableEq, Inhabited

namespace Position

/-- The place of a symbol that was declared nowhere. -/
def unset : Position :=
  { line := 0, column := 0 }

def start : Position :=
  { line := 1, column := 1 }

/-- The position behind a character that stands at `position`. -/
def after (position : Position) (c : Char) : Position :=
  if c = '\n' then { line := position.line + 1, column := 1 }
  else { position with column := position.column + 1 }

/-- Walks `bytes` bytes into a text that begins at `position`. The end of the text stands for every
offset past it; there is no position inside a character. -/
def advance? (position : Position) : List Char → Nat → Option Position
  | _, 0 => some position
  | [], _ => some position
  | c :: rest, bytes =>
      if bytes < c.utf8Size then none
      else advance? (position.after c) rest (bytes - c.utf8Size)

def locate? (source : String) (offset : Nat) : Option Position :=
  start.advance? source.toList offset

/-- The position of an offset that lies between two characters. -/
def locate (source : String) (offset : Nat) : Position :=
  (locate? source offset).getD unset

def text (position : Position) : String :=
  toString position.line ++ ":" ++ toString position.column

end Position

end WordC
