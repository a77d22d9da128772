import WordC.Proofs.Tree.Builder

/-!
# Building inside of a tree

What is built on its own can be built inside of any rule just as well. As long as a rule that is
opened on the way is closed, the rules around are not looked at.
-/

namespace WordC.Tree.Builder

variable {builder context : Builder}

/-- The rules of a builder inside of the innermost rule of a context. Its outermost rule is that of
the context, which has the children of both. -/
def into (builder context : Builder) : Builder :=
  go builder.innermost builder.outer
where
  go (frame : Frame) : List Frame → Builder
    | [] => { context with
        innermost := { context.innermost with
          children := frame.children ++ context.innermost.children } }
    | parent :: outer =>
        let around := go parent outer
        { innermost := frame, outer := around.innermost :: around.outer }

/-- A builder at its start adds nothing to the context. -/
theorem into_initial (context : Builder) : initial.into context = context :=
  rfl

theorem into_openRule (rule : Rule) :
    (builder.openRule rule).into context = (builder.into context).openRule rule :=
  rfl

theorem into_terminal (text : String) :
    (builder.terminal text).into context = (builder.into context).terminal text := by
  obtain ⟨innermost, outer⟩ := builder
  cases outer with
  | nil => rfl
  | cons parent outer => rfl

theorem into_retag (rule : Rule) (h : builder.outer ≠ []) :
    (builder.retag rule).into context = (builder.into context).retag rule := by
  obtain ⟨innermost, outer⟩ := builder
  cases outer with
  | nil => exact absurd rfl h
  | cons parent outer => rfl

theorem into_closeRule (h : builder.outer ≠ []) :
    builder.closeRule.into context = (builder.into context).closeRule := by
  obtain ⟨innermost, outer⟩ := builder
  cases outer with
  | nil => exact absurd rfl h
  | cons parent outer =>
      cases outer with
      | nil => rfl
      | cons next outer => rfl

end WordC.Tree.Builder
