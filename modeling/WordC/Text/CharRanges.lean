/-!
# Sets of characters

A property of characters is kept as the ascending list of the ranges of code points that have it,
both ends included.
-/

namespace WordC

abbrev CharRanges := List (Nat × Nat)

/-- Ranges ascend, so the search stops at the first one that starts above the code point. -/
def CharRanges.containsCode (code : Nat) : CharRanges → Bool
  | [] => false
  | (first, last) :: rest =>
      decide (first ≤ code) && (decide (code ≤ last) || containsCode code rest)

def CharRanges.contains (ranges : CharRanges) (c : Char) : Bool :=
  ranges.containsCode c.toNat

end WordC
