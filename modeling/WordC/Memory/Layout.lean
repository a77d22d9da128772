/-!
# Segments of the memory pool

Text, data and heap each take a quarter of the pool; the stack has the rest, at the top.
-/

namespace WordC

/-- The words from `start` up to but not including `stop`. -/
structure Extent where
  start : Nat
  stop : Nat
deriving DecidableEq, Inhabited

namespace Extent

def size (extent : Extent) : Nat :=
  extent.stop - extent.start

def contains (extent : Extent) (address : Nat) : Bool :=
  extent.start ≤ address && address < extent.stop

end Extent

inductive Segment where
  | text
  | data
  | heap
  | stack
deriving DecidableEq

def Segment.name : Segment → String
  | text => "text"
  | data => "data"
  | heap => "heap"
  | stack => "stack"

/-- The extents of the four segments. -/
structure Layout where
  text : Extent
  data : Extent
  heap : Extent
  stack : Extent
deriving DecidableEq, Inhabited

namespace Layout

/-- The smallest pool that leaves every segment usable. -/
def smallestPool : Nat := 64

def partition? (words : Nat) : Option Layout :=
  if words < smallestPool then none
  else
    let quarter := words / 4
    some {
      text := { start := 0, stop := quarter }
      data := { start := quarter, stop := 2 * quarter }
      heap := { start := 2 * quarter, stop := 3 * quarter }
      stack := { start := 3 * quarter, stop := words } }

def poolSize (layout : Layout) : Nat :=
  layout.stack.stop

def extent (layout : Layout) : Segment → Extent
  | .text => layout.text
  | .data => layout.data
  | .heap => layout.heap
  | .stack => layout.stack

def segmentOf? (layout : Layout) (address : Nat) : Option Segment :=
  [Segment.text, .data, .heap, .stack].find? fun segment =>
    (layout.extent segment).contains address

end Layout

end WordC
