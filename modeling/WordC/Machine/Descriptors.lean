import WordC.Host

/-!
# File descriptors
-/

namespace WordC

/-- Open files by their descriptor. Descriptors count up and none is handed out twice. -/
structure Descriptors where
  handles : List (Word × Handle)
  next : Word

namespace Descriptors

/-- The first descriptor behind standard input, output and error. -/
def first : Word := 3

def none : Descriptors :=
  { handles := [], next := first }

def insert (descriptors : Descriptors) (handle : Handle) : Word × Descriptors :=
  (descriptors.next,
    { handles := (descriptors.next, handle) :: descriptors.handles
      next := descriptors.next + 1 })

def find? (descriptors : Descriptors) (descriptor : Word) : Option Handle :=
  descriptors.handles.lookup descriptor

/-- What a descriptor reads from. Zero stands for standard input. -/
def stream? (descriptors : Descriptors) (descriptor : Word) : Option System.Stream :=
  if descriptor = 0 then some .input else (descriptors.find? descriptor).map .file

/-- The descriptors that are left after closing one, if it was open. -/
def close? (descriptors : Descriptors) (descriptor : Word) : Option Descriptors :=
  if (descriptors.find? descriptor).isSome then
    some { descriptors with
      handles := descriptors.handles.filter fun (key, _) => key != descriptor }
  else Option.none

end Descriptors

end WordC
