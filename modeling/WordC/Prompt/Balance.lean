import WordC.Text.Blank

/-!
# Unfinished input

Input is read on while a bracket or a literal is open, and while it ends in a character after which
something has to follow.
-/

namespace WordC.Prompt

/-- The bracket that closes an opening one. -/
def closer? : Char → Option Char
  | '(' => some ')'
  | '[' => some ']'
  | '\x7b' => some '\x7d'
  | _ => none

def isCloser (c : Char) : Bool :=
  c = ')' || c = ']' || c = '\x7d'

mutual

/-- Whether all brackets and literals are closed, where `pending` lists the brackets that still have
to come. A bracket that closes nothing counts as balanced: it is for the compiler to refuse. -/
def isBalancedFrom (pending : List Char) : List Char → Bool
  | [] => pending.isEmpty
  | c :: rest =>
      if c = '"' ∨ c = '\'' then isClosedFrom pending c rest
      else
        match closer? c, pending with
        | some closer, _ => isBalancedFrom (closer :: pending) rest
        | none, [] => isCloser c || isBalancedFrom [] rest
        | none, closer :: outer =>
            if isCloser c then c != closer || isBalancedFrom outer rest
            else isBalancedFrom pending rest

/-- The same inside a literal, which ends at the quote it began with. A backslash takes the next
character with it. -/
def isClosedFrom (pending : List Char) (quote : Char) : List Char → Bool
  | [] => false
  | '\\' :: [] => false
  | '\\' :: _ :: rest => isClosedFrom pending quote rest
  | c :: rest =>
      if c = quote then isBalancedFrom pending rest else isClosedFrom pending quote rest

end

def isBalanced (input : String) : Bool :=
  isBalancedFrom [] input.toList

/-- Characters that cannot end an input. -/
def continuations : List Char := [
  '\\', '+', '-', '*', '/', '=', ',', '(', '\x7b', '&', '|']

/-- Whether an input is complete, so that it can be answered. -/
def isComplete (input : String) : Bool :=
  isBalanced input &&
    !(Text.trimEnd input.toList).getLast?.any fun c => continuations.contains c

end WordC.Prompt
