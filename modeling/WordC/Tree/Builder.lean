import WordC.Tree

/-!
# Building a tree

A tree grows from left to right while its rules are opened and closed. The program's rule is always
open.
-/

namespace WordC.Tree

/-- A rule that is open and the children it has so far, the last one first. -/
structure Builder.Frame where
  rule : Rule
  children : List Tree

structure Builder where
  /-- The rule opened last. -/
  innermost : Builder.Frame
  /-- The rules around it, the outermost last. -/
  outer : List Builder.Frame

namespace Builder

def Frame.add (frame : Frame) (tree : Tree) : Frame :=
  { frame with children := tree :: frame.children }

def Frame.close (frame : Frame) : Tree :=
  ofRule frame.rule frame.children.reverse

def initial : Builder :=
  { innermost := { rule := .program, children := [] }, outer := [] }

def openRule (builder : Builder) (rule : Rule) : Builder :=
  { innermost := { rule, children := [] }, outer := builder.innermost :: builder.outer }

/-- Changes the rule opened last. -/
def retag (builder : Builder) (rule : Rule) : Builder :=
  { builder with innermost := { builder.innermost with rule } }

/-- Closes the rule opened last, unless it is the outermost. -/
def closeRule (builder : Builder) : Builder :=
  match builder.outer with
  | [] => builder
  | parent :: outer => { innermost := parent.add builder.innermost.close, outer }

def terminal (builder : Builder) (text : String) : Builder :=
  { builder with innermost := builder.innermost.add (.terminal text) }

/-- Closes every rule and gives the node of the outermost. -/
def finish (builder : Builder) : Tree :=
  go builder.innermost builder.outer
where
  go (innermost : Frame) : List Frame → Tree
    | [] => .node innermost.rule innermost.children.reverse
    | parent :: outer => go (parent.add innermost.close) outer

end Builder

end WordC.Tree
