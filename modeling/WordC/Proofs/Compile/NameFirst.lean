import WordC.Compiler.Statement
import WordC.Proofs.Compile.Names
import WordC.Proofs.Compile.Repeats
import WordC.Proofs.Machine.Sound

/-!
# Names at the start of a statement

A statement takes the name it starts with before it knows whether it is an assignment. An expression
that begins with a name taken already compiles as it does where nothing was taken: the name is its
first operand, which stands in no rule of its own in the tree, as it adds only one child.
-/

namespace WordC.Compiler

open WordC.Tree (Builder)

variable {α β : Type} {bound n depth : Nat} {s : State} {name : String}

/-- Two results with the same value and state, or with the same error behind the same code. -/
inductive Agree : EStateM.Result Error State α → EStateM.Result Error State α → Prop where
  | ok (value : α) (s : State) : Agree (.ok value s) (.ok value s)
  | error (error : Error) {s s' : State} (hmachine : s.machine = s'.machine) :
      Agree (.error error s) (.error error s')

namespace Agree

theorem refl (result : EStateM.Result Error State α) : Agree result result := by
  cases result with
  | ok value s => exact .ok value s
  | error error s => exact .error error rfl

theorem trans {first second third : EStateM.Result Error State α} (h : Agree first second)
    (h' : Agree second third) : Agree first third := by
  cases h with
  | ok value s => exact h'
  | error error hmachine =>
      cases h' with
      | error _ hmachine' => exact .error error (hmachine.trans hmachine')

theorem bind {action other : Compile α} {s' : State} (h : Agree (action s) (other s'))
    (next : α → Compile β) : Agree ((action >>= next) s) ((other >>= next) s') := by
  generalize hfirst : action s = first at h
  generalize hsecond : other s' = second at h
  cases h with
  | ok value after =>
      rw [bind_run_of_ok hfirst, bind_run_of_ok hsecond]
      exact refl _
  | error error hmachine =>
      rw [bind_run_of_error hfirst, bind_run_of_error hsecond]
      exact .error error hmachine

end Agree

/-! ## The first operand -/

/-- What is built in a rule that does not show, and adds one child, is built in the rule around. -/
theorem into_openRule_closeRule {builder : Builder} (context : Builder) {child : Tree} {rule : Rule}
    (hrule : rule.isTransparent = true) (houter : builder.outer = [])
    (hchildren : builder.innermost.children = [child]) :
    (builder.into (context.openRule rule)).closeRule = builder.into context := by
  obtain ⟨innermost, outer⟩ := builder
  obtain ⟨innerRule, children⟩ := innermost
  cases houter
  cases hchildren
  simp [Builder.into, Builder.into.go, Builder.openRule, Builder.closeRule, Builder.Frame.add,
    Builder.Frame.close, Tree.ofRule, hrule]

/-- The state without what its tree has so far. -/
def State.bare (s : State) : State :=
  { s with compiler := { s.compiler with tree := .initial } }

theorem State.bare_onto (s : State) : s.bare.onto s.compiler.tree = s :=
  rfl

theorem stands_bare (s : State) : Stands s.compiler.bound s.compiler.supply 0 s.bare :=
  ⟨rfl, Nat.le_refl _, rfl⟩

/-- An action that closes what it opens adds to the innermost rule at most. -/
theorem outer_of_stays {action : Compile α} (haction : Stays action) {value : α} {s' : State}
    (hok : action s = .ok value s') : s'.compiler.tree.outer = s.compiler.tree.outer := by
  have hechoes := haction s.bare (stands_bare s)
  have hsame := hechoes.same s.compiler.tree
  rw [s.bare_onto, hok] at hsame
  cases hbare : action s.bare with
  | error error after =>
      rw [hbare] at hsame
      cases hsame
  | ok value' after =>
      rw [hbare] at hsame
      cases hsame
      have houter := List.length_eq_zero_iff.1 (hechoes.stands _ _ hbare).1.depth
      simp only [State.onto, onto, Builder.into, houter]
      rfl

/-- Writing code leaves the compiler as it is. -/
theorem compiler_onMachine {action : Action α} {value : α} {s' : State}
    (hok : onMachine action s = .ok value s') : s'.compiler = s.compiler := by
  unfold onMachine at hok
  cases hresult : action s.machine with
  | ok result machine' =>
      simp only [hresult] at hok
      cases hok
      rfl
  | error error machine' =>
      simp only [hresult] at hok
      cases hok

theorem compiler_emit {opcode : Opcode} {s' : State} (hok : emit opcode s = .ok () s') :
    s'.compiler = s.compiler := by
  obtain ⟨site, middle, hwrite, hpure⟩ := bind_eq_ok.1 hok
  cases hpure
  exact compiler_onMachine hwrite

theorem compiler_emitWith {opcode : Opcode} {operand : Word} {s' : State}
    (hok : emitWith opcode operand s = .ok () s') : s'.compiler = s.compiler := by
  obtain ⟨_, middle, hemit, hrest⟩ := bind_eq_ok.1 hok
  obtain ⟨site, last, hwrite, hpure⟩ := bind_eq_ok.1 hrest
  cases hpure
  exact (compiler_onMachine hwrite).trans (compiler_emit hemit)

theorem taken_take {token : Token} {s' : State} (hok : take s = .ok token s') :
    s'.compiler.tree = s.compiler.tree ∧ s'.compiler.bound = s.compiler.bound := by
  obtain ⟨machine, source, current, upcoming, bound, symbols, tree, frame, startup, pending⟩ := s
  cases upcoming with
  | failed error => cases hok
  | done offset =>
      cases hok
      exact ⟨rfl, rfl⟩
  | cons next rest =>
      cases hok
      exact ⟨rfl, rfl⟩

theorem state_resolve {position : Position} {symbol : Symbol} {s' : State}
    (hok : resolve name position s = .ok symbol s') : s' = s := by
  rw [resolve_run] at hok
  split at hok <;> cases hok
  rfl

theorem exists_child_of_call {token : Token} {symbol : Symbol} {position : Position} {s' : State}
    (hchildren : s.compiler.tree.innermost.children = [])
    (hok : (do
      openRule .call
      record token
      call expression symbol position
      closeRule) s = .ok () s') :
    ∃ child, s'.compiler.tree.innermost.children = [child] := by
  obtain ⟨_, opened, hopen, hok⟩ := bind_eq_ok.1 hok
  cases hopen
  obtain ⟨_, recorded, hrecord, hok⟩ := bind_eq_ok.1 hok
  cases hrecord
  obtain ⟨_, called, hcall, hclose⟩ := bind_eq_ok.1 hok
  have hstays : Stays (call expression symbol position) :=
    repeats_call (fun _ => repeats_expression) symbol position
  have houter := outer_of_stays hstays hcall
  cases hclose
  refine ⟨called.compiler.tree.innermost.close, ?_⟩
  change called.compiler.tree.closeRule.innermost.children = _
  rw [Builder.closeRule, houter]
  exact congrArg (_ :: ·) hchildren

/-- A variable, a constant and a call add one child each. -/
theorem exists_child_of_nameValue {token : Token} {s' : State}
    (hchildren : s.compiler.tree.innermost.children = [])
    (hok : nameValue expression token s = .ok () s') :
    ∃ child, s'.compiler.tree.innermost.children = [child] := by
  obtain ⟨position, middle, hlocate, hname⟩ := bind_eq_ok.1 hok
  have hmiddle : middle = s := by
    cases hlocate
    rfl
  subst hmiddle
  cases hkind : token.kind with
  | identifier name =>
      rw [hkind] at hname
      obtain ⟨symbol, found, hresolve, hvalue⟩ := bind_eq_ok.1 hname
      obtain rfl := state_resolve hresolve
      cases hcls : symbol.cls with
      | object =>
          rw [hcls] at hvalue
          obtain ⟨_, recorded, hrecord, hload⟩ := bind_eq_ok.1 hvalue
          obtain ⟨_, addressed, haddress, hload⟩ := bind_eq_ok.1 hload
          rw [compiler_emit hload, compiler_emitWith haddress]
          cases hrecord
          exact ⟨_, congrArg (_ :: ·) hchildren⟩
      | constant =>
          rw [hcls] at hvalue
          obtain ⟨_, recorded, hrecord, hload⟩ := bind_eq_ok.1 hvalue
          rw [compiler_emitWith hload]
          cases hrecord
          exact ⟨_, congrArg (_ :: ·) hchildren⟩
      | function =>
          rw [hcls] at hvalue
          exact exists_child_of_call hchildren hvalue
      | system =>
          rw [hcls] at hvalue
          exact exists_child_of_call hchildren hvalue
  | _ =>
      rw [hkind] at hname
      cases hname

/-- In front of a name an operand opens its rule, takes the name and closes the rule. -/
theorem unary_run (hname : s.compiler.current.kind = .identifier name) (most : Nat) :
    unary (most + 1) s =
      ((take >>= nameValue (cascade (unary most) (unary most) levels)) >>= fun _ => closeRule)
        (s.bare.onto (s.compiler.tree.openRule .unary)) := by
  have hopen : openRule .unary s =
      .ok () (s.bare.onto (s.compiler.tree.openRule .unary)) := rfl
  have hpeek : peek (s.bare.onto (s.compiler.tree.openRule .unary)) =
      .ok (.identifier name) (s.bare.onto (s.compiler.tree.openRule .unary)) :=
    congrArg (EStateM.Result.ok · _) hname
  have hprimary (nested : Compile Unit) :
      primary nested (s.bare.onto (s.compiler.tree.openRule .unary)) =
        (take >>= nameValue nested) (s.bare.onto (s.compiler.tree.openRule .unary)) := by
    rw [primary, bind_run_of_ok hpeek]
  rw [unary, bind_run_of_ok hopen, bind_run_of_ok hpeek]
  change EStateM.bind _ _ _ = EStateM.bind _ _ _
  unfold EStateM.bind
  rw [hprimary]

/-- The first operand, whether its name is taken in front of its rule or inside. -/
theorem agree_unary (hname : s.compiler.current.kind = .identifier name)
    (hsupply : s.compiler.supply < s.compiler.bound) :
    Agree ((take >>= nameValue expression) s) (unary s.compiler.bound s) := by
  obtain ⟨most, hmost⟩ := Nat.exists_eq_add_one_of_ne_zero (Nat.ne_zero_of_lt hsupply)
  have hrepeats : RepeatsAt (.identifier name) s.compiler.bound s.compiler.supply 0 0
      (take >>= nameValue expression)
      (take >>= nameValue (cascade (unary most) (unary most) levels)) :=
    repeatsAt_take (by nofun) fun token m hm =>
      repeats_nameValue (fun _ => repeats_expression_cascade (by omega) (by omega)) token
  have hplain : Repeats s.compiler.bound s.compiler.supply 0 0 (take >>= nameValue expression)
      (take >>= nameValue expression) :=
    repeats_take.bind fun token => repeats_nameValue (fun _ => repeats_expression) token
  have hhead := (hplain s.bare (stands_bare s)).same s.compiler.tree
  have hopened := (hrepeats s.bare (stands_bare s) hname).same (s.compiler.tree.openRule .unary)
  rw [s.bare_onto] at hhead
  rw [hmost, unary_run hname]
  cases hbare : (take >>= nameValue expression) s.bare with
  | error error after =>
      rw [hbare] at hhead hopened
      rw [hhead, bind_run_of_error hopened]
      exact .error error rfl
  | ok value after =>
      have hdepth := ((hplain s.bare (stands_bare s)).stands value after hbare).1.depth
      have houter := List.length_eq_zero_iff.1 hdepth
      obtain ⟨token, taken, htake, hvalue⟩ := bind_eq_ok.1 hbare
      have hchildren : taken.compiler.tree.innermost.children = [] := by
        have htree : taken.compiler.tree = .initial := (taken_take htake).1
        rw [htree]
        rfl
      obtain ⟨child, hchild⟩ := exists_child_of_nameValue hchildren hvalue
      have hclose : closeRule (after.onto (s.compiler.tree.openRule .unary)) =
          .ok () (after.onto s.compiler.tree) := by
        have hrule : Rule.unary.isTransparent = true := rfl
        have htree := into_openRule_closeRule s.compiler.tree hrule houter hchild
        change EStateM.Result.ok () (State.mk after.machine _) = _
        simp only [State.onto, onto, htree]
      rw [hbare] at hhead hopened
      rw [hhead, bind_run_of_ok hopened, hclose]
      exact .refl _

/-! ## Expressions -/

theorem agree_take_openRule {next : Token → Compile α} (rule : Rule) :
    Agree ((take >>= fun head => openRule rule >>= fun _ => next head) s)
      ((openRule rule >>= fun _ => take >>= next) s) := by
  obtain ⟨machine, source, current, upcoming, bound, symbols, tree, frame, startup, pending⟩ := s
  cases upcoming with
  | failed error => exact .error error rfl
  | done offset => exact .refl _
  | cons next rest => exact .refl _

/-- Taking the name commutes with opening the rules of the levels. -/
theorem agree_cascade {first : Token → Compile Unit} {operand : Compile Unit}
    (plain : Compile Unit) (holds : State → Prop)
    (hopen : ∀ s rule, holds s → holds (s.bare.onto (s.compiler.tree.openRule rule)))
    (hfirst : ∀ s, holds s → Agree ((take >>= first) s) (plain s)) (levels : List Level) :
    ∀ s, holds s → Agree ((take >>= fun head => cascade (first head) operand levels) s)
      (cascade plain operand levels s) := by
  induction levels with
  | nil => exact hfirst
  | cons level tighter ih =>
      intro s hs
      have hinner := ih (s.bare.onto (s.compiler.tree.openRule level.rule)) (hopen s _ hs)
      have hrest := hinner.bind (fun _ => do
        chain level (cascade operand operand tighter) (← view (·.bound))
        closeRule)
      refine (agree_take_openRule level.rule).trans ?_
      rw [bind_assoc] at hrest
      exact hrest

theorem take_expressionFrom_run (s : State) :
    (take >>= expressionFrom) s =
      (take >>= fun head =>
        cascade (nameValue expression head) (unary s.compiler.bound) levels) s := by
  cases htake : take s with
  | error error s' => rw [bind_run_of_error htake, bind_run_of_error htake]
  | ok head s' =>
      have hview : view (·.bound) s' = .ok s.compiler.bound s' :=
        congrArg (EStateM.Result.ok · s') (taken_take htake).2
      rw [bind_run_of_ok htake, bind_run_of_ok htake, expressionFrom, bind_run_of_ok hview]

theorem agree_expression (hname : s.compiler.current.kind = .identifier name)
    (hsupply : s.compiler.supply < s.compiler.bound) :
    Agree ((take >>= expressionFrom) s) (expression s) := by
  rw [take_expressionFrom_run]
  refine agree_cascade (unary s.compiler.bound)
    (fun t => t.compiler.current.kind = .identifier name ∧
      t.compiler.supply < t.compiler.bound ∧ t.compiler.bound = s.compiler.bound)
    (fun _ _ h => h) (fun t ht => ?_) levels s ⟨hname, hsupply, rfl⟩
  rw [← ht.2.2]
  exact agree_unary ht.1 ht.2.1

/-- A statement that starts with a name and is no assignment. -/
theorem statementAt_run {head : Token} {s' : State}
    (hname : s.compiler.current.kind = .identifier name) (htake : take s = .ok head s')
    (hequal : s'.compiler.current.kind ≠ .punctuator .equal) (most : Nat) :
    statementAt (most + 1) s =
      (take >>= fun head => expressionStatement (expressionFrom head)) s := by
  have hpeek : peek s = .ok (.identifier name) s := congrArg (EStateM.Result.ok · s) hname
  have hmark : atMark .equal s' = .ok false s' := by
    change EStateM.Result.ok (decide (s'.compiler.current.kind = .punctuator .equal)) s' = _
    rw [decide_eq_false hequal]
  rw [statementAt, bind_run_of_ok hpeek]
  simp only
  rw [bind_run_of_ok htake, bind_run_of_ok htake, bind_run_of_ok hmark]
  rfl

/-- At a name it makes no difference whether an expression is compiled, or the name taken and the
rest compiled: the result is the same, and so is the whole state behind it. That holds of the
statement around, too. The bound is above the number of tokens in every compilation. -/
theorem expressionFrom_agrees (hname : s.compiler.current.kind = .identifier name)
    (hsupply : s.compiler.supply < s.compiler.bound) :
    Agree ((take >>= expressionFrom) s) (expression s) ∧
      ∀ head s', take s = .ok head s' → s'.compiler.current.kind ≠ .punctuator .equal →
        ∀ most, Agree (statementAt (most + 1) s) (expressionStatement expression s) := by
  refine ⟨agree_expression hname hsupply, fun head s' htake hequal most => ?_⟩
  rw [statementAt_run hname htake hequal]
  refine (agree_take_openRule .expressionStatement).trans ?_
  have hinner : Agree
      ((take >>= expressionFrom) (s.bare.onto (s.compiler.tree.openRule .expressionStatement)))
      (expression (s.bare.onto (s.compiler.tree.openRule .expressionStatement))) :=
    agree_expression hname hsupply
  have hrest := hinner.bind (fun _ => do
    expectMark .semicolon
    closeRule)
  rw [bind_assoc] at hrest
  exact hrest

/-- In front of the call `exit(x);` where `x` is a local variable. -/
def calling : State :=
  { machine := .small
    compiler :=
      { source := "exit(x);"
        current := { kind := .identifier "exit", text := "exit", start := 0 }
        upcoming :=
          .cons { kind := .punctuator .leftParen, text := "(", start := 4 }
            (.cons { kind := .identifier "x", text := "x", start := 5 }
              (.cons { kind := .punctuator .rightParen, text := ")", start := 6 }
                (.cons { kind := .punctuator .semicolon, text := ";", start := 7 } (.done 8))))
        bound := 6
        symbols := Program.initialSymbols.enter.add
          { name := "x", cls := .object, type := .int, value := 1 }
        tree := .initial
        frame := { used := 1, greatest := 1 }
        startup := 1
        pendingCalls := [] } }

theorem expressionFrom_agrees_calling :
    calling.compiler.current.kind = .identifier "exit" ∧
      calling.compiler.supply < calling.compiler.bound ∧
      Agree ((take >>= expressionFrom) calling) (expression calling) ∧
      ∀ head s', take calling = .ok head s' →
        s'.compiler.current.kind ≠ .punctuator .equal →
        ∀ most, Agree (statementAt (most + 1) calling) (expressionStatement expression calling) :=
  have hsupply : calling.compiler.supply < calling.compiler.bound := by decide
  ⟨rfl, hsupply, expressionFrom_agrees rfl hsupply⟩

end WordC.Compiler
