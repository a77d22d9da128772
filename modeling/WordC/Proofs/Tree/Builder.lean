import WordC.Tree.Builder

/-!
# What a tree keeps

However its rules are opened, closed and changed, a tree that grows keeps the texts of its tokens in
order, and no level of an expression shows with a single child.
-/

namespace WordC.Tree

variable {rule : Rule} {children : List Tree}

/-- No level of an expression has exactly one child, here or anywhere below. -/
inductive Collapsed : Tree → Prop where
  | terminal (text : String) : Collapsed (.terminal text)
  | node {rule : Rule} {children : List Tree}
      (hlevel : rule.isTransparent = true → children.length ≠ 1)
      (h : ∀ child ∈ children, Collapsed child) : Collapsed (.node rule children)

theorem forestTerminals_append (front back : List Tree) :
    forestTerminals (front ++ back) = forestTerminals front ++ forestTerminals back := by
  induction front with
  | nil => rfl
  | cons tree front ih =>
      rw [List.cons_append, forestTerminals, forestTerminals, ih, List.append_assoc]

theorem terminals_ofRule (rule : Rule) (children : List Tree) :
    (ofRule rule children).terminals = forestTerminals children := by
  unfold ofRule
  split
  · rw [forestTerminals, forestTerminals, List.append_nil]
  · rw [terminals]

theorem collapsed_ofRule (rule : Rule) (h : ∀ child ∈ children, child.Collapsed) :
    (ofRule rule children).Collapsed := by
  unfold ofRule
  split
  · exact h _ List.mem_cons_self
  · next hshown =>
      refine .node (fun hrule hlength => ?_) h
      obtain ⟨child, rfl⟩ := List.length_eq_one_iff.1 hlength
      exact hshown child hrule rfl

namespace Builder

/-- The texts of the tokens that an open rule has so far. -/
def Frame.terminals (frame : Frame) : List String :=
  forestTerminals frame.children.reverse

/-- The texts of the tokens recorded so far. -/
def terminals (builder : Builder) : List String :=
  builder.outer.foldr (fun frame texts => texts ++ frame.terminals) [] ++
    builder.innermost.terminals

theorem Frame.terminals_add (frame : Frame) (tree : Tree) :
    (frame.add tree).terminals = frame.terminals ++ tree.terminals := by
  rw [Frame.terminals, Frame.add, List.reverse_cons, forestTerminals_append, forestTerminals,
    forestTerminals, List.append_nil]
  rfl

theorem Frame.terminals_close (frame : Frame) : frame.close.terminals = frame.terminals :=
  terminals_ofRule _ _

@[simp] theorem terminals_openRule (builder : Builder) (rule : Rule) :
    (builder.openRule rule).terminals = builder.terminals :=
  List.append_nil _

@[simp] theorem terminals_retag (builder : Builder) (rule : Rule) :
    (builder.retag rule).terminals = builder.terminals := rfl

@[simp] theorem terminals_closeRule (builder : Builder) :
    builder.closeRule.terminals = builder.terminals := by
  obtain ⟨innermost, outer⟩ := builder
  cases outer with
  | nil => rfl
  | cons parent outer =>
      rw [closeRule, terminals, Frame.terminals_add, Frame.terminals_close, ← List.append_assoc]
      rfl

@[simp] theorem terminals_terminal (builder : Builder) (text : String) :
    (builder.terminal text).terminals = builder.terminals ++ [text] := by
  rw [terminal, terminals, Frame.terminals_add, ← List.append_assoc]
  rfl

theorem terminals_finish (builder : Builder) : builder.finish.terminals = builder.terminals := by
  obtain ⟨innermost, outer⟩ := builder
  rw [finish]
  induction outer generalizing innermost with
  | nil =>
      rw [finish.go, Tree.terminals]
      rfl
  | cons parent outer ih =>
      rw [finish.go, ih, terminals, Frame.terminals_add, Frame.terminals_close, ← List.append_assoc]
      rfl

/-- The rule opened first. -/
def outermost (innermost : Frame) : List Frame → Rule
  | [] => innermost.rule
  | parent :: outer => outermost parent outer

/-- No level shows with a single child so far. -/
def Settled (builder : Builder) : Prop :=
  ∀ frame ∈ builder.innermost :: builder.outer, ∀ tree ∈ frame.children, tree.Collapsed

/-- No level shows with a single child so far, and none is outermost, so closing rules makes
none. -/
structure Collapsed (builder : Builder) : Prop where
  children : ∀ frame ∈ builder.innermost :: builder.outer, ∀ tree ∈ frame.children, tree.Collapsed
  outermost : (outermost builder.innermost builder.outer).isTransparent = false

theorem Frame.collapsed_add {frame : Frame} {tree : Tree}
    (h : ∀ child ∈ frame.children, child.Collapsed) (htree : tree.Collapsed) :
    ∀ child ∈ (frame.add tree).children, child.Collapsed :=
  List.forall_mem_cons.2 ⟨htree, h⟩

theorem Frame.collapsed_close {frame : Frame} (h : ∀ child ∈ frame.children, child.Collapsed) :
    frame.close.Collapsed :=
  collapsed_ofRule _ fun child hmem => h child (List.mem_reverse.1 hmem)

theorem outermost_add (frame : Frame) (tree : Tree) (outer : List Frame) :
    Builder.outermost (frame.add tree) outer = Builder.outermost frame outer := by
  cases outer with
  | nil => rfl
  | cons parent outer => rfl

variable {builder : Builder}

/-! ## Settled builders -/

theorem settled_initial : initial.Settled := by
  rintro frame (_ | ⟨_, ⟨⟩⟩) tree ⟨⟩

namespace Settled

theorem openRule (h : builder.Settled) (rule : Rule) : (builder.openRule rule).Settled :=
  List.forall_mem_cons.2 ⟨fun _ hmem => absurd hmem List.not_mem_nil, h⟩

theorem retag (h : builder.Settled) (rule : Rule) : (builder.retag rule).Settled :=
  List.forall_mem_cons.2 (List.forall_mem_cons.1 h)

theorem terminal (h : builder.Settled) (text : String) : (builder.terminal text).Settled := by
  obtain ⟨hinnermost, houter⟩ := List.forall_mem_cons.1 h
  exact List.forall_mem_cons.2 ⟨Frame.collapsed_add hinnermost (.terminal text), houter⟩

theorem closeRule (h : builder.Settled) : builder.closeRule.Settled := by
  obtain ⟨innermost, outer⟩ := builder
  cases outer with
  | nil => exact h
  | cons parent outer =>
      obtain ⟨hinnermost, houter⟩ := List.forall_mem_cons.1 h
      obtain ⟨hparent, hrest⟩ := List.forall_mem_cons.1 houter
      refine List.forall_mem_cons.2 ⟨?_, hrest⟩
      exact Frame.collapsed_add hparent (Frame.collapsed_close hinnermost)

/-- The node of the outermost rule stays, whatever its children. -/
theorem finish (h : builder.Settled) :
    ∃ children, builder.finish = .node (outermost builder.innermost builder.outer) children ∧
      ∀ child ∈ children, child.Collapsed := by
  obtain ⟨innermost, outer⟩ := builder
  rw [Builder.finish]
  induction outer generalizing innermost with
  | nil =>
      have hchildren := h innermost List.mem_cons_self
      exact ⟨_, rfl, fun child hmem => hchildren child (List.mem_reverse.1 hmem)⟩
  | cons parent outer ih =>
      obtain ⟨children, hfinish, hchildren⟩ := ih _ h.closeRule
      refine ⟨children, hfinish.trans ?_, hchildren⟩
      rw [outermost_add]
      rfl

end Settled

/-! ## Builders of a program -/

theorem collapsed_initial : initial.Collapsed where
  children := settled_initial
  outermost := rfl

theorem Collapsed.openRule (h : builder.Collapsed) (rule : Rule) :
    (builder.openRule rule).Collapsed where
  children := Settled.openRule h.children rule
  outermost := h.outermost

theorem Collapsed.retag (h : builder.Collapsed) (hrule : rule.isTransparent = false) :
    (builder.retag rule).Collapsed where
  children := Settled.retag h.children rule
  outermost := by
    obtain ⟨innermost, outer⟩ := builder
    cases outer with
    | nil => exact hrule
    | cons parent outer => exact h.outermost

theorem Collapsed.terminal (h : builder.Collapsed) (text : String) :
    (builder.terminal text).Collapsed where
  children := Settled.terminal h.children text
  outermost := by
    rw [Builder.terminal, outermost_add]
    exact h.outermost

theorem Collapsed.closeRule (h : builder.Collapsed) : builder.closeRule.Collapsed := by
  refine ⟨Settled.closeRule h.children, ?_⟩
  have houtermost := h.outermost
  obtain ⟨innermost, outer⟩ := builder
  cases outer with
  | nil => exact houtermost
  | cons parent outer =>
      rw [Builder.closeRule, outermost_add]
      exact houtermost

theorem Collapsed.finish (h : builder.Collapsed) : builder.finish.Collapsed := by
  obtain ⟨children, hfinish, hchildren⟩ := Settled.finish h.children
  rw [hfinish]
  refine .node (fun hshown => ?_) hchildren
  rw [h.outermost] at hshown
  cases hshown

end Builder

end WordC.Tree
