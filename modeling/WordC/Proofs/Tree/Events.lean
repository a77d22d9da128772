import WordC.Proofs.Tree.Grafts

/-!
# Trees from any events

Rules need not be opened and closed in pairs for a tree to come about. Whatever the order of events,
the tree has the texts of the tokens in order, and below its root no level of an expression shows
with a single child. So a level that is opened and closed around events which add one node and are
complete in themselves leaves no trace.
-/

namespace WordC.Tree.Builder

/-- What happens to a builder, in any order. -/
inductive Event where
  | openRule (rule : Rule)
  | retag (rule : Rule)
  | closeRule
  | terminal (text : String)

variable {builder context : Builder} {events block : List Event} {rule : Rule} {tree : Tree}

/-- The text of a token that an event records. -/
def Event.text? : Event → Option String
  | .terminal text => some text
  | _ => none

def perform (builder : Builder) : Event → Builder
  | .openRule rule => builder.openRule rule
  | .retag rule => builder.retag rule
  | .closeRule => builder.closeRule
  | .terminal text => builder.terminal text

def performAll (builder : Builder) (events : List Event) : Builder :=
  events.foldl perform builder

@[simp] theorem performAll_nil : builder.performAll [] = builder := rfl

@[simp] theorem performAll_cons (event : Event) :
    builder.performAll (event :: events) = (builder.perform event).performAll events := rfl

@[simp] theorem performAll_append (events' : List Event) :
    builder.performAll (events ++ events') = (builder.performAll events).performAll events' :=
  List.foldl_append

/-! ## What one event keeps -/

theorem terminals_perform (builder : Builder) (event : Event) :
    (builder.perform event).terminals = builder.terminals ++ event.text?.toList := by
  cases event with
  | openRule rule => simp [perform, Event.text?]
  | retag rule => simp [perform, Event.text?]
  | closeRule => simp [perform, Event.text?]
  | terminal text => simp [perform, Event.text?]

theorem Settled.perform (h : builder.Settled) (event : Event) : (builder.perform event).Settled := by
  cases event with
  | openRule rule => exact h.openRule rule
  | retag rule => exact h.retag rule
  | closeRule => exact h.closeRule
  | terminal text => exact h.terminal text

theorem terminals_performAll (builder : Builder) (events : List Event) :
    (builder.performAll events).terminals = builder.terminals ++ events.filterMap Event.text? := by
  induction events generalizing builder with
  | nil => simp
  | cons event rest ih =>
      rw [performAll_cons, ih, terminals_perform, List.append_assoc, List.filterMap_cons]
      cases event.text? <;> rfl

theorem Settled.performAll (h : builder.Settled) (events : List Event) :
    (builder.performAll events).Settled := by
  induction events generalizing builder with
  | nil => exact h
  | cons event rest ih => exact ih (h.perform event)

/-! ## Events that are complete in themselves -/

/-- With so many rules of their own open, the events close each of these and each that they open,
and they close and change no other. -/
inductive Enclosed : Nat → List Event → Prop
  | nil : Enclosed 0 []
  | openRule {depth : Nat} {rest : List Event} (rule : Rule) (h : Enclosed (depth + 1) rest) :
      Enclosed depth (.openRule rule :: rest)
  | retag {depth : Nat} {rest : List Event} (rule : Rule) (h : Enclosed (depth + 1) rest) :
      Enclosed (depth + 1) (.retag rule :: rest)
  | closeRule {depth : Nat} {rest : List Event} (h : Enclosed depth rest) :
      Enclosed (depth + 1) (.closeRule :: rest)
  | terminal {depth : Nat} {rest : List Event} (text : String) (h : Enclosed depth rest) :
      Enclosed depth (.terminal text :: rest)

/-- Such events can be performed inside of any rule, for they do not look at the rules around. -/
theorem Enclosed.into_performAll (h : Enclosed builder.outer.length events) (context : Builder) :
    (builder.performAll events).outer = [] ∧
      (builder.performAll events).into context = (builder.into context).performAll events := by
  generalize hdepth : builder.outer.length = depth at h
  induction h generalizing builder with
  | nil => exact ⟨List.length_eq_zero_iff.1 hdepth, rfl⟩
  | openRule rule _ ih =>
      rw [performAll_cons, performAll_cons, perform, perform, ← into_openRule]
      exact ih (congrArg Nat.succ hdepth)
  | retag rule _ ih =>
      have hne : builder.outer ≠ [] := List.ne_nil_of_length_eq_add_one hdepth
      rw [performAll_cons, performAll_cons, perform, perform, ← into_retag rule hne]
      exact ih hdepth
  | @closeRule depth rest _ ih =>
      have hne : builder.outer ≠ [] := List.ne_nil_of_length_eq_add_one hdepth
      rw [performAll_cons, performAll_cons, perform, perform, ← into_closeRule hne]
      refine ih ?_
      obtain ⟨innermost, outer⟩ := builder
      cases outer with
      | nil => exact absurd rfl hne
      | cons parent outer => exact Nat.succ.inj hdepth
  | terminal text _ ih =>
      rw [performAll_cons, performAll_cons, perform, perform, ← into_terminal]
      exact ih hdepth

/-- A builder whose innermost rule has more children. -/
def addAll (context : Builder) (children : List Tree) : Builder :=
  { context with
    innermost := { context.innermost with children := children ++ context.innermost.children } }

/-- What such events add to a rule does not depend on the rule or on what is around it. -/
theorem Enclosed.exists_added (h : Enclosed 0 block) :
    ∃ children, ∀ context : Builder, context.performAll block = context.addAll children := by
  refine ⟨(initial.performAll block).innermost.children, fun context => ?_⟩
  obtain ⟨houter, hinto⟩ := @into_performAll initial block h context
  rw [into_initial] at hinto
  rw [← hinto, into, houter]
  rfl

/-! ## Levels around one node -/

/-- How many nodes the rule opened last has so far. -/
def nodeCount (builder : Builder) : Nat :=
  builder.innermost.children.length

theorem ofRule_single (hrule : rule.isTransparent = true) : ofRule rule [tree] = tree := by
  simp [ofRule, hrule]

/-- A level around events that add one node is closed to that node. -/
theorem performAll_level (hrule : rule.isTransparent = true) (hblock : Enclosed 0 block)
    (hone : (context.performAll block).nodeCount = context.nodeCount + 1) :
    context.performAll (.openRule rule :: block ++ [.closeRule]) = context.performAll block := by
  obtain ⟨children, hadded⟩ := hblock.exists_added
  rw [hadded] at hone
  obtain ⟨tree, rfl⟩ : ∃ tree, children = [tree] := by
    refine List.length_eq_one_iff.1 ?_
    rw [nodeCount, nodeCount, addAll, List.length_append] at hone
    omega
  rw [List.cons_append, performAll_cons, performAll_append, hadded, hadded]
  change (Builder.mk (context.innermost.add (ofRule rule [tree])) context.outer) = _
  rw [ofRule_single hrule]
  rfl

/-- Whatever is opened, changed and closed, the tree has the recorded texts, and no level shows
below its root with a single child, nor does one that is put around a single node. -/
theorem finish_performAll (events : List Event) :
    (∃ rule children, (initial.performAll events).finish = .node rule children ∧
      ∀ child ∈ children, child.Collapsed) ∧
    (initial.performAll events).finish.terminals = events.filterMap Event.text? ∧
    ∀ front block back rule, events = front ++ block ++ back → rule.isTransparent = true →
      Enclosed 0 block →
      (initial.performAll (front ++ block)).nodeCount = (initial.performAll front).nodeCount + 1 →
      (initial.performAll (front ++ .openRule rule :: block ++ .closeRule :: back)).finish =
        (initial.performAll events).finish := by
  refine ⟨?_, ?_, ?_⟩
  · obtain ⟨children, hfinish, hchildren⟩ := (settled_initial.performAll events).finish
    exact ⟨_, children, hfinish, hchildren⟩
  · rw [terminals_finish, terminals_performAll]
    rfl
  · rintro front block back rule rfl hrule hblock hone
    rw [performAll_append] at hone
    have hlevel := performAll_level hrule hblock hone
    have hevents : front ++ .openRule rule :: block ++ .closeRule :: back =
        front ++ (.openRule rule :: block ++ [.closeRule]) ++ back := by
      simp
    rw [hevents, performAll_append, performAll_append, hlevel, performAll_append,
      performAll_append]

/-- The events of a call whose rule is known only when its parenthesis has been read. -/
def calling : List Event :=
  [.openRule .unary, .terminal "f", .retag .call, .terminal "(", .terminal ")", .closeRule]

theorem enclosed_calling : Enclosed 0 calling :=
  .openRule _ (.terminal _ (.retag _ (.terminal _ (.terminal _ (.closeRule .nil)))))

/-- A level around a call in a statement that is never closed. -/
theorem finish_performAll_calling :
    Rule.additive.isTransparent = true ∧ Enclosed 0 calling ∧
      (initial.performAll ([.closeRule, .openRule .returnStatement, .terminal "return"] ++
          calling)).nodeCount =
        (initial.performAll [.closeRule, .openRule .returnStatement, .terminal "return"]).nodeCount
          + 1 ∧
      (initial.performAll ([.closeRule, .openRule .returnStatement, .terminal "return"] ++
          .openRule .additive :: calling ++ .closeRule :: [.terminal ";"])).finish =
        (initial.performAll ([.closeRule, .openRule .returnStatement, .terminal "return"] ++
          calling ++ [.terminal ";"])).finish :=
  ⟨rfl, enclosed_calling, rfl,
    (finish_performAll _).2.2 _ _ _ _ rfl rfl enclosed_calling rfl⟩

end WordC.Tree.Builder
