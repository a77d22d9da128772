import WordC.Proofs.Accept.Expressions
import WordC.Proofs.Compile.Statements

/-!
# Accepted statements

Where the compiler gives a result for a statement, the tokens begin with a statement that resolves
and that takes an `else` behind it, if there is one.
-/

namespace WordC.Compiler

open WordC.Core (Binding Cell Env Place)
open Syntax (Closes Declaration Declarator Expr Stmt declaratorData resolveDeclarators?)

variable {α : Type} {origin : Origin} {a b : Sketch}

/-! ## Local declarations -/

theorem ends_declareLocal {symbol : Symbol} {place : Place} (hinside : a.env.locals ≠ [])
    (hplace : place.isLocal = true) (hcls : symbol.cls = .object)
    (hvalue : symbol.value = place.operand) :
    Ends origin a (declare symbol) fun added b => ∃ env,
      a.env.declare? symbol.name place = some env ∧ b = { a with env } ∧
        added.Records (.object place) := by
  intro s hfits added s' hok
  have hfree := needs_declare s hfits added s' hok
  obtain ⟨env, hdeclare⟩ := Env.declare?_of_innermost hinside hfree
  obtain ⟨b, ⟨rfl, hrecords⟩, hfits'⟩ :=
    (reaches_declareLocal hdeclare hplace hcls hvalue).ends s hfits added s' hok
  exact ⟨_, ⟨env, hdeclare, rfl, hrecords⟩, hfits'⟩

/-- A variable that has been declared may have an initial value. -/
theorem ends_initial {β : Type} {name : String} {symbol : Symbol} {place : Place}
    {next : Unit → Compile β} {post : β → Sketch → Prop} (hrecords : symbol.Records (.object place))
    (hnext : ∀ (declarator : Declarator) (rest : List Token.Kind) (stores : List Core.Stmt),
      declarator.name = name → declarator.isGrammatical →
      .identifier name :: a.ahead = declarator.tokens ++ rest →
      declarator.resolve? a.env place a.dataHere = some stores →
      Ends origin
        (a.after rest (Core.cells ((Core.Stmt.ofList stores).code a.here)) declarator.data)
        (next ()) post) :
    Ends origin a
      (atMark .equal >>= fun initialized =>
        if initialized then
          advance >>= fun _ => expression >>= fun _ => emitStore symbol >>= next
        else next ()) post := by
  refine ends_atMark ?_ ?_
  · intro ahead hahead
    refine (does_advance hahead).ends ?_
    refine Ends.bind ends_expression ?_
    rintro _ _ ⟨e, rest, value, hfinds, rfl⟩
    have htokens : ahead = e.tokens ++ rest := hfinds.tokens
    have hresolves := hfinds.resolves
    rw [Sketch.dataHere_after] at hresolves
    refine (does_emitStore hrecords).ends ?_
    have hsketch : ((a.after ahead [] []).value rest value e.data).after rest
        (Core.cells place.store) [] =
        a.after rest (Core.cells ((Core.Stmt.ofList [.store place value]).code a.here)) e.data := by
      simp [Sketch.value, Core.Stmt.ofList, Core.Stmt.code]
    change Ends origin (((a.after ahead [] []).value rest value e.data).after rest _ _) _ _
    rw [hsketch]
    refine hnext ⟨name, some e⟩ rest [.store place value] rfl hfinds.grammatical ?_ ?_
    · rw [hahead, htokens]
      rfl
    · exact Option.map_eq_some_iff.2 ⟨value, hresolves, rfl⟩
  · intro _
    have hsame := hnext ⟨name, none⟩ a.ahead [] rfl rfl rfl rfl
    rw [show a.after a.ahead (Core.cells ((Core.Stmt.ofList []).code a.here))
      (Declarator.mk name none).data = a from Sketch.after_self] at hsame
    exact hsame

/-- One variable of a declaration. What follows is read with the variable in scope. -/
theorem ends_localVariable {type : TypeName} {rounds : Nat} {post : Unit → Sketch → Prop}
    (hinside : a.env.locals ≠ [])
    (hnext : ∀ (declarator : Declarator) (rest : List Token.Kind) (env : Env)
      (stores : List Core.Stmt), declarator.isGrammatical → a.ahead = declarator.tokens ++ rest →
      a.env.declare? declarator.name (.slot (a.frame.used + 1)) = some env →
      declarator.resolve? env (.slot (a.frame.used + 1)) a.dataHere = some stores →
      Ends origin
        ((a.after rest (Core.cells ((Core.Stmt.ofList stores).code a.here)) declarator.data).declared
          env 1)
        (atMark .comma >>= fun more =>
          if more then advance >>= fun _ => localVariables type rounds else pure ()) post) :
    Ends origin a (localVariables type (rounds + 1)) post := by
  refine Ends.bind ends_expectIdentifier ?_
  rintro ⟨name, position⟩ _ ⟨behind, hahead, rfl⟩
  refine (does_frame _).ends ?_
  refine does_viewFrame.ends ?_
  refine Ends.bind (@ends_declareLocal _ _ _ (.slot (a.frame.used + 1)) hinside rfl rfl rfl) ?_
  rintro symbol _ ⟨env, hdeclare, rfl, hrecords⟩
  refine @ends_initial _ _ _ name _ _ _ _ hrecords ?_
  rintro declarator rest stores rfl hgrammatical htokens hresolve
  have hdata : (a.after behind [] []).dataHere = a.dataHere := Sketch.dataHere_after
  have hnext := hnext declarator rest env stores hgrammatical (hahead.trans htokens) hdeclare
    (hdata ▸ hresolve)
  change Ends origin (((a.after behind [] []).declared env 1).after rest _ _) _ _
  rw [Sketch.after_declared, Sketch.after_after]
  change Ends origin ((a.after rest (Core.cells ((Core.Stmt.ofList stores).code
    (a.after behind [] []).here)) declarator.data).declared env 1) _ _
  rw [Sketch.here_after]
  exact hnext

theorem separated_cons_cons (first second : Declarator) (others : List Declarator) :
    Syntax.separated ((first :: second :: others).map Declarator.tokens) =
      first.tokens ++ .punctuator .comma ::
        Syntax.separated ((second :: others).map Declarator.tokens) := by
  simp [Syntax.separated, Syntax.further]

/-- Variables are declared one after the other, with commas between them. -/
theorem ends_localVariables {type : TypeName} (rounds : Nat) :
    ∀ a : Sketch, a.env.locals ≠ [] → a.ahead.length < rounds →
      Ends origin a (localVariables type rounds) fun _ b => ∃ first others inner stores,
        (first :: others).all Declarator.isGrammatical ∧
        a.ahead = Syntax.separated ((first :: others).map Declarator.tokens) ++ b.ahead ∧
        resolveDeclarators? a.env a.frame.used a.dataHere (first :: others) =
          some (inner, stores) := by
  induction rounds with
  | zero =>
      intro a _ hrounds
      omega
  | succ rounds ih =>
      intro a hinside hrounds
      refine ends_localVariable hinside ?_
      intro first behind env stores hgrammatical htokens hdeclare hresolve
      refine ends_atMark ?_ ?_
      · intro rest hrest
        change behind = .punctuator .comma :: rest at hrest
        subst hrest
        have hlength := congrArg List.length htokens
        rw [List.length_append, List.length_cons] at hlength
        refine (does_advance rfl).ends ?_
        rw [Sketch.after_declared, Sketch.after_after, List.append_nil, List.append_nil]
        refine Ends.weaken (ih _ (Env.locals_ne_nil_of_declare? hdeclare) ?_) ?_
        · rw [Sketch.ahead_declared, Sketch.ahead_after]
          omega
        · rintro _ b ⟨second, others, inner, back, hothers, hahead, hback⟩
          rw [Sketch.ahead_declared, Sketch.ahead_after] at hahead
          rw [Sketch.dataHere_declared, Sketch.dataHere_after] at hback
          refine ⟨first, second :: others, inner, stores ++ back, ?_, ?_, ?_⟩
          · rw [List.all_cons, hgrammatical, hothers]
            rfl
          · rw [separated_cons_cons, List.append_assoc, List.cons_append, ← hahead]
            exact htokens
          · exact Syntax.resolveDeclarators?_cons_eq_some.2
              ⟨env, stores, back, hdeclare, hresolve, hback, rfl⟩
      · intro _
        refine Ends.pure ⟨first, [], env, stores, ?_, ?_, ?_⟩
        · rw [List.all_cons, hgrammatical]
          rfl
        · rw [htokens]
          simp [Syntax.separated, Syntax.further]
        · exact Syntax.resolveDeclarators?_cons_eq_some.2
            ⟨env, stores, [], hdeclare, hresolve, rfl, (List.append_nil _).symm⟩

/-- Declarations at the front of tokens. -/
structure Declares (env : Env) (used start : Nat) (tokens : List Token.Kind)
    (declarations : List Declaration) (rest : List Token.Kind) (inner : Env)
    (stores : List Core.Stmt) : Prop where
  grammatical : declarations.all Declaration.isGrammatical
  tokens : tokens = declarations.flatMap Declaration.tokens ++ rest
  resolves : resolveDeclarators? env used start (declarations.flatMap Declaration.declarators) =
    some (inner, stores)

theorem needs_localDeclaration (hinside : a.env.locals ≠ []) :
    Needs origin a localDeclaration (∃ declaration rest inner stores,
      Declares a.env a.frame.used a.dataHere a.ahead [declaration] rest inner stores) := by
  refine does_openRule.needs ?_
  refine Needs.bind ends_expectType ?_
  rintro type _ ⟨behind, hahead, rfl⟩
  refine Needs.bind reaches_bound.ends ?_
  rintro rounds _ ⟨rfl, hrounds⟩
  refine Needs.bind (ends_localVariables rounds _ hinside hrounds) ?_
  rintro _ b ⟨first, others, inner, stores, hgrammatical, htokens, hresolve⟩
  rw [Sketch.ahead_after] at htokens
  rw [Sketch.dataHere_after] at hresolve
  refine Needs.first (Needs.of_ends ends_expectMark ?_)
  rintro _ _ ⟨rest, hrest, -⟩
  refine ⟨⟨type, first, others⟩, rest, inner, stores, ?_, ?_, ?_⟩
  · rw [List.all_cons, Declaration.isGrammatical]
    exact Bool.and_eq_true_iff.2 ⟨hgrammatical, rfl⟩
  · rw [hahead, htokens, hrest]
    simp [Declaration.tokens, Declaration.declarators]
  · rw [List.flatMap_singleton]
    exact hresolve

theorem ends_localDeclaration (hinside : a.env.locals ≠ []) :
    Ends origin a localDeclaration fun _ b => ∃ declaration rest inner stores,
      Declares a.env a.frame.used a.dataHere a.ahead [declaration] rest inner stores ∧
        b = (a.after rest (Core.cells ((Core.Stmt.ofList stores).code a.here))
          (declaratorData declaration.declarators)).declared inner
            declaration.declarators.length := by
  refine (needs_localDeclaration hinside).ends ?_
  rintro ⟨declaration, rest, inner, stores, hdeclares⟩
  have hgrammatical : declaration.isGrammatical := by simpa using hdeclares.grammatical
  have htokens : a.ahead = declaration.tokens ++ rest := by simpa using hdeclares.tokens
  have hresolves := hdeclares.resolves
  rw [List.flatMap_singleton] at hresolves
  exact (does_localDeclaration hgrammatical htokens hresolves).reaches
    ⟨declaration, rest, inner, stores, hdeclares, rfl⟩

/-- The declarations at the start of a block. -/
theorem ends_localDeclarations (rounds : Nat) :
    ∀ a : Sketch, a.env.locals ≠ [] → a.ahead.length < rounds →
      a.frame.used ≤ a.frame.greatest →
      Ends origin a (localDeclarations rounds) fun _ b => ∃ declarations rest inner stores,
        Declares a.env a.frame.used a.dataHere a.ahead declarations rest inner stores ∧
          b = (a.after rest (Core.cells ((Core.Stmt.ofList stores).code a.here))
            (declaratorData (declarations.flatMap Declaration.declarators))).declared inner
              (declarations.flatMap Declaration.declarators).length := by
  induction rounds with
  | zero =>
      intro a _ hrounds
      omega
  | succ rounds ih =>
      intro a hinside hrounds hframe
      refine does_peek.ends ?_
      by_cases htype : a.current.isType
      · rw [if_pos htype]
        refine Ends.bind (ends_localDeclaration hinside) ?_
        rintro _ _ ⟨declaration, rest, next, front, hfirst, rfl⟩
        have htokens : a.ahead = declaration.tokens ++ rest := by simpa using hfirst.tokens
        have hlength := congrArg List.length htokens
        rw [List.length_append, Declaration.tokens, List.length_cons] at hlength
        obtain ⟨-, -, hnext⟩ := Syntax.env_of_resolveDeclarators? hfirst.resolves
        refine (ih _ (hnext hinside) ?_ (Nat.le_max_right _ _)).weaken ?_
        · rw [Sketch.ahead_declared, Sketch.ahead_after]
          omega
        rintro _ _ ⟨declarations, rest', inner, back, hothers, rfl⟩
        have hresolves := hothers.resolves
        rw [Sketch.dataHere_declared, Sketch.dataHere_after] at hresolves
        refine ⟨declaration :: declarations, rest', inner, front ++ back, ⟨?_, ?_, ?_⟩, ?_⟩
        · rw [List.all_cons, hothers.grammatical, Bool.and_true]
          simpa using hfirst.grammatical
        · rw [htokens, List.flatMap_cons, List.append_assoc, ← hothers.tokens]
          rfl
        · have hfront := hfirst.resolves
          rw [List.flatMap_singleton] at hfront
          exact Syntax.resolveDeclarators?_append hfront hresolves
        · rw [Sketch.after_declared, Sketch.after_after, Sketch.declared_declared,
            Sketch.here_declared, Sketch.here_after, Core.Stmt.code_ofList_append, Core.cells_append,
            Core.length_cells, List.flatMap_cons, Syntax.declaratorData_append, List.length_append]
      · rw [if_neg htype]
        refine Ends.pure ⟨[], a.ahead, a.env, [], ⟨rfl, rfl, rfl⟩, ?_⟩
        simp [Core.Stmt.ofList, Core.Stmt.code, declaratorData, Sketch.after_self, Sketch.declared,
          Nat.max_eq_left hframe]

/-! ## Statements -/

/-- A statement at the front of tokens. An `else` that follows is not one that it would take. -/
structure FindsStatement (env : Env) (used start : Nat) (tokens : List Token.Kind)
    (statement : Stmt) (rest : List Token.Kind) (core : Core.Stmt) : Prop where
  grammatical : statement.isGrammatical
  tokens : tokens = statement.tokens ++ rest
  behind : statement.endsOpen → rest.head? ≠ some (.keyword .elseKw)
  resolves : statement.resolve? env used start = some core

/-- The action gives a result only if a statement is ahead. -/
def AcceptsStatement (origin : Origin) (bound : Nat) (action : Compile Unit) : Prop :=
  ∀ a : Sketch, a.env.locals ≠ [] → a.ahead.length < bound → a.frame.used ≤ a.frame.greatest →
    Needs origin a action (∃ statement rest core,
      FindsStatement a.env a.frame.used a.dataHere a.ahead statement rest core)

theorem AcceptsStatement.ends {bound : Nat} {action : Compile Unit}
    (haccepts : AcceptsStatement origin bound action) (hperforms : Performs origin bound action)
    (hinside : a.env.locals ≠ []) (hbound : a.ahead.length < bound)
    (hframe : a.frame.used ≤ a.frame.greatest) :
    Ends origin a action fun _ b => ∃ statement rest core,
      FindsStatement a.env a.frame.used a.dataHere a.ahead statement rest core ∧
        b = a.stated rest core statement.data (statement.peak a.frame.used) := by
  refine (haccepts a hinside hbound hframe).ends ?_
  rintro ⟨statement, rest, core, hfinds⟩
  exact (hperforms a statement rest core hfinds.grammatical hfinds.tokens hfinds.behind hbound hframe
    hfinds.resolves).reaches ⟨statement, rest, core, hfinds, rfl⟩

/-- Statements up to the closing brace. -/
theorem needs_statements {action : Compile Unit} {bound : Nat}
    (haccepts : AcceptsStatement origin bound action) (hperforms : Performs origin bound action)
    (rounds : Nat) :
    ∀ a : Sketch, a.env.locals ≠ [] → a.ahead.length < bound → a.ahead.length < rounds →
      a.frame.used ≤ a.frame.greatest →
      Needs origin a (statements action rounds) (∃ body rest cores, Stmt.areGrammatical body ∧
        a.ahead = Stmt.bodyTokens body ++ .punctuator .rightBrace :: rest ∧
        Stmt.resolveBody? a.env a.frame.used a.dataHere body = some cores) := by
  induction rounds with
  | zero =>
      intro a _ _ hrounds
      omega
  | succ rounds ih =>
      intro a hinside hbound hrounds hframe
      refine needs_atMark ?_ ?_
      · intro rest hahead _ _ _ _ _
        exact ⟨[], rest, [], rfl, hahead, rfl⟩
      · intro _
        refine Needs.bind (haccepts.ends hperforms hinside hbound hframe) ?_
        rintro _ _ ⟨statement, behind, core, hfinds, rfl⟩
        obtain ⟨kind, more, hstatement, _⟩ := statement.tokens_eq_cons
        have hlength := congrArg List.length hfinds.tokens
        rw [List.length_append, hstatement, List.length_cons] at hlength
        refine (ih (a.stated behind core statement.data (statement.peak a.frame.used)) hinside ?_ ?_
          (Sketch.used_le_stated hframe)).weaken ?_
        · change behind.length < bound
          omega
        · change behind.length < rounds
          omega
        rintro ⟨body, rest, cores, hgrammatical, htokens, hresolves⟩
        rw [Sketch.dataHere_stated] at hresolves
        refine ⟨statement :: body, rest, core :: cores, ?_, ?_, ?_⟩
        · rw [Stmt.areGrammatical, hfinds.grammatical, hgrammatical]
          rfl
        · rw [hfinds.tokens, Stmt.bodyTokens, List.append_assoc, ← htokens]
          rfl
        · rw [Stmt.resolveBody?, hfinds.resolves]
          simp only [Option.bind_eq_bind, Option.bind_some]
          rw [show Stmt.resolveBody? a.env a.frame.used (a.dataHere + statement.data.length) body =
            some cores from hresolves]
          rfl

/-- What stands between the braces of a block. -/
theorem needs_blockContents {action : Compile Unit} {bound : Nat}
    (haccepts : AcceptsStatement origin bound action) (hperforms : Performs origin bound action)
    (hinside : a.env.locals ≠ []) (hbound : a.ahead.length < bound)
    (hframe : a.frame.used ≤ a.frame.greatest) :
    Needs origin a (blockContents action) (∃ declarations body rest inner stores cores,
      (Stmt.block declarations body).isGrammatical ∧
      a.ahead = declarations.flatMap Declaration.tokens ++ Stmt.bodyTokens body ++
        .punctuator .rightBrace :: rest ∧
      resolveDeclarators? a.env a.frame.used a.dataHere
        (declarations.flatMap Declaration.declarators) = some (inner, stores) ∧
      Stmt.resolveBody? inner
        (a.frame.used + (declarations.flatMap Declaration.declarators).length)
        (a.dataHere + (declaratorData (declarations.flatMap Declaration.declarators)).length) body =
          some cores) := by
  refine Needs.bind reaches_bound.ends ?_
  rintro rounds a ⟨rfl, hrounds⟩
  refine Needs.bind (ends_localDeclarations rounds a hinside hrounds hframe) ?_
  rintro _ _ ⟨declarations, behind, inner, stores, hdeclares, rfl⟩
  have hlength := congrArg List.length hdeclares.tokens
  rw [List.length_append] at hlength
  obtain ⟨-, -, hinner⟩ := Syntax.env_of_resolveDeclarators? hdeclares.resolves
  refine (needs_statements haccepts hperforms rounds _ (hinner hinside) ?_ ?_
    (Nat.le_max_right _ _)).weaken ?_
  · rw [Sketch.ahead_declared, Sketch.ahead_after]
    omega
  · rw [Sketch.ahead_declared, Sketch.ahead_after]
    omega
  rintro ⟨body, rest, cores, hgrammatical, htokens, hresolves⟩
  rw [Sketch.ahead_declared, Sketch.ahead_after] at htokens
  rw [Sketch.dataHere_declared, Sketch.dataHere_after] at hresolves
  refine ⟨declarations, body, rest, inner, stores, cores, ?_, ?_, hdeclares.resolves, hresolves⟩
  · rw [Stmt.isGrammatical, hdeclares.grammatical, hgrammatical]
    rfl
  · rw [hdeclares.tokens, htokens, List.append_assoc]

theorem needs_block {action : Compile Unit} {bound : Nat}
    (haccepts : AcceptsStatement origin bound action) (hperforms : Performs origin bound action)
    (hbound : a.ahead.length ≤ bound) (hframe : a.frame.used ≤ a.frame.greatest) :
    Needs origin a (block action) (∃ statement rest core,
      FindsStatement a.env a.frame.used a.dataHere a.ahead statement rest core) := by
  refine does_openRule.needs ?_
  refine Needs.bind ends_expectMark ?_
  rintro _ _ ⟨ahead, hahead, rfl⟩
  rw [hahead, List.length_cons] at hbound
  refine does_enterScope.needs ?_
  refine does_viewFrame.needs ?_
  let entered : Sketch := { a.after ahead [] [] with env := a.env.enter }
  refine Needs.first ((needs_blockContents (a := entered) haccepts hperforms
    (List.cons_ne_nil _ _) ?_ hframe).weaken ?_)
  · change ahead.length < bound
    omega
  rintro ⟨declarations, body, rest, inner, stores, cores, hgrammatical, htokens, hstores, hcores⟩
  change ahead = _ at htokens
  refine ⟨.block declarations body, rest, .ofList (stores ++ cores), hgrammatical, ?_,
    Bool.noConfusion, ?_⟩
  · rw [hahead, htokens]
    simp [Stmt.tokens]
  · have hdataHere : (a.after ahead [] []).dataHere = a.dataHere := Sketch.dataHere_after
    change resolveDeclarators? a.env.enter a.frame.used (a.after ahead [] []).dataHere _ = _
      at hstores
    change Stmt.resolveBody? inner (a.frame.used + _) ((a.after ahead [] []).dataHere + _) body = _
      at hcores
    rw [hdataHere] at hstores hcores
    exact Stmt.resolve?_block_eq_some.2 ⟨inner, stores, cores, hstores, hcores, rfl⟩

/-- The condition of a statement stands in parentheses. -/
theorem ends_condition {kind : Token.Kind} (hkind : kind ≠ .endOfInput) :
    Ends origin a (expect kind >>= fun _ => condition) fun jump b =>
      ∃ (test : Expr) (rest : List Token.Kind) (value : Core.Expr), test.isGrammatical ∧
        a.ahead = kind :: .punctuator .leftParen ::
          (test.tokens ++ .punctuator .rightParen :: rest) ∧
        test.resolve? a.env a.dataHere = some value ∧
        jump = a.here + Core.size (value.code a.here) + 1 ∧
        b = a.tested rest value test.data := by
  refine Ends.bind (ends_expect hkind) ?_
  rintro _ _ ⟨behind, hbehind, rfl⟩
  refine Ends.bind ends_expectMark ?_
  rintro _ _ ⟨ahead, hahead, rfl⟩
  refine Ends.bind ends_expression ?_
  rintro _ _ ⟨test, closing, value, hfinds, rfl⟩
  refine Ends.bind ends_expectMark ?_
  rintro _ _ ⟨rest, hrest, rfl⟩
  have htokens : ahead = test.tokens ++ closing := hfinds.tokens
  have hresolves := hfinds.resolves
  rw [Sketch.after_after, Sketch.dataHere_after] at hresolves
  change behind = _ at hahead
  change closing = _ at hrest
  refine does_emitPending.ends_of ?_
  refine ⟨test, rest, value, hfinds.grammatical, ?_, hresolves, ?_, ?_⟩
  · rw [hbehind, hahead, htokens, hrest]
  · simp [Sketch.value, Core.length_cells]
  · simp [Sketch.value, Sketch.tested]

theorem needs_whileStatement {action : Compile Unit} {bound : Nat}
    (haccepts : AcceptsStatement origin bound action) (hinside : a.env.locals ≠ [])
    (hbound : a.ahead.length ≤ bound) (hframe : a.frame.used ≤ a.frame.greatest) :
    Needs origin a (whileStatement action) (∃ statement rest core,
      FindsStatement a.env a.frame.used a.dataHere a.ahead statement rest core) := by
  rw [whileStatement_eq]
  refine does_openRule.needs ?_
  refine does_here.needs ?_
  refine Needs.bind (ends_condition Token.Kind.noConfusion) ?_
  rintro _ _ ⟨test, behind, value, hgrammatical, hahead, hresolves, rfl, rfl⟩
  refine Needs.first ((haccepts (a.tested behind value test.data) hinside
    (Sketch.length_lt_of_condition hahead hbound) hframe).weaken ?_)
  rintro ⟨body, rest, core, hfinds⟩
  have hbehind : behind = body.tokens ++ rest := hfinds.tokens
  have hbody := hfinds.resolves
  rw [Sketch.dataHere_tested] at hbody
  refine ⟨.whileLoop test body, rest, .whileLoop value core, ?_, ?_, hfinds.behind,
    Stmt.resolve?_whileLoop_eq_some.2 ⟨value, core, hresolves, hbody, rfl⟩⟩
  · rw [Stmt.isGrammatical, hgrammatical, hfinds.grammatical]
    rfl
  · rw [hahead, hbehind]
    simp [Stmt.tokens]

/-- An `else` belongs to the statement if there is one. -/
theorem needs_ifStatement {action : Compile Unit} {bound : Nat}
    (haccepts : AcceptsStatement origin bound action) (hperforms : Performs origin bound action)
    (hinside : a.env.locals ≠ []) (hbound : a.ahead.length ≤ bound)
    (hframe : a.frame.used ≤ a.frame.greatest) :
    Needs origin a (ifStatement action) (∃ statement rest core,
      FindsStatement a.env a.frame.used a.dataHere a.ahead statement rest core) := by
  rw [ifStatement_eq]
  refine does_openRule.needs ?_
  refine Needs.bind (ends_condition Token.Kind.noConfusion) ?_
  rintro _ _ ⟨test, behind, value, hgrammatical, hahead, hresolves, rfl, rfl⟩
  have hlength := Sketch.length_lt_of_condition hahead hbound
  refine Needs.bind (haccepts.ends (a := a.tested behind value test.data) hperforms hinside hlength
    hframe) ?_
  rintro _ _ ⟨consequence, more, core, hfinds, rfl⟩
  have hbehind : behind = consequence.tokens ++ more := hfinds.tokens
  have hconsequence := hfinds.resolves
  rw [Sketch.dataHere_tested] at hconsequence
  rw [Sketch.stated_tested]
  refine needs_atKind Token.Kind.noConfusion ?_ ?_
  · intro rest hrest
    obtain rfl : more = .keyword .elseKw :: rest := hrest
    rw [if_pos rfl]
    refine does_otherwise.needs ?_
    rw [hbehind] at hlength
    refine Needs.first ((haccepts (a.passed rest value core (test.data ++ consequence.data) _) hinside
      (Sketch.length_lt_of_else hlength) (Nat.le_trans hframe (Nat.le_max_left _ _))).weaken ?_)
    rintro ⟨alternative, last, other, hother⟩
    have hrest : rest = alternative.tokens ++ last := hother.tokens
    have halternative := hother.resolves
    rw [Sketch.dataHere_passed, List.length_append, ← Nat.add_assoc] at halternative
    have hopen : consequence.endsOpen = false := by
      cases hopens : consequence.endsOpen with
      | false => rfl
      | true => exact absurd rfl (hfinds.behind hopens)
    refine ⟨.ifElse test consequence alternative, last, .ifElse value core other, ?_, ?_,
      hother.behind, Stmt.resolve?_ifElse_eq_some.2
        ⟨value, core, other, hresolves, hconsequence, halternative, rfl⟩⟩
    · rw [Stmt.isGrammatical, hgrammatical, hfinds.grammatical, hopen, hother.grammatical]
      rfl
    · rw [hahead, hbehind, hrest]
      simp [Stmt.tokens]
  · intro helse _ _ _ _ _
    refine ⟨.ifThen test consequence, more, .ifThen value core, ?_, ?_, fun _ => helse,
      Stmt.resolve?_ifThen_eq_some.2 ⟨value, core, hresolves, hconsequence, rfl⟩⟩
    · rw [Stmt.isGrammatical, hgrammatical, hfinds.grammatical]
      rfl
    · rw [hahead, hbehind]
      simp [Stmt.tokens]

/-- A value is wanted unless the semicolon follows at once. -/
theorem needs_returnStatement :
    Needs origin a returnStatement (∃ statement rest core,
      FindsStatement a.env a.frame.used a.dataHere a.ahead statement rest core) := by
  refine does_openRule.needs ?_
  refine Needs.bind (ends_expect Token.Kind.noConfusion) ?_
  rintro _ _ ⟨ahead, hahead, rfl⟩
  refine needs_atMark ?_ ?_
  · intro rest hrest _ _ _ _ _
    rw [Sketch.ahead_after] at hrest
    refine ⟨.leave none, rest, .leave none, rfl, ?_, Bool.noConfusion, rfl⟩
    rw [hahead, hrest]
    rfl
  · intro _
    refine Needs.bind ends_expression ?_
    rintro _ _ ⟨e, behind, value, hfinds, rfl⟩
    have htokens : ahead = e.tokens ++ behind := hfinds.tokens
    have hresolves := hfinds.resolves
    rw [Sketch.dataHere_after] at hresolves
    refine Needs.first (Needs.of_ends ends_expectMark ?_)
    rintro _ _ ⟨rest, hrest, -⟩
    change behind = _ at hrest
    refine ⟨.leave (some e), rest, .leave (some value), hfinds.grammatical, ?_, Bool.noConfusion, ?_⟩
    · rw [hahead, htokens, hrest]
      simp [Stmt.tokens]
    · rw [Stmt.resolve?, show e.resolve? a.env a.dataHere = some value from hresolves]
      rfl

/-- Only a variable is assigned to. -/
theorem needs_assignment {head : Token} {name : String} (hhead : head.kind = .identifier name) :
    Needs origin a (assignment head) (∃ statement rest core,
      FindsStatement a.env a.frame.used a.dataHere (.identifier name :: a.ahead) statement rest
        core) := by
  refine does_openRule.needs ?_
  refine does_record.needs ?_
  refine Needs.bind reaches_locate.ends ?_
  rintro position a rfl
  rw [hhead]
  refine Needs.bind ends_resolve ?_
  rintro symbol a ⟨rfl, binding, hmeans⟩
  have hfind := hmeans.find
  have hrecords := hmeans.records
  by_cases hcls : symbol.cls = .object
  · change Needs origin a (if symbol.cls ≠ .object then _ else _) _
    rw [if_neg (not_not_intro hcls)]
    refine Needs.bind ends_expectMark ?_
    rintro _ _ ⟨ahead, hahead, rfl⟩
    refine Needs.bind ends_expression ?_
    rintro _ _ ⟨e, behind, value, hfinds, rfl⟩
    have htokens : ahead = e.tokens ++ behind := hfinds.tokens
    have hresolves := hfinds.resolves
    rw [Sketch.dataHere_after] at hresolves
    refine Needs.first (Needs.of_ends ends_expectMark ?_)
    rintro _ _ ⟨rest, hrest, -⟩
    change behind = _ at hrest
    cases binding with
    | object place =>
        refine ⟨.assign name e, rest, .store place value, hfinds.grammatical, ?_, Bool.noConfusion,
          ?_⟩
        · rw [hahead, htokens, hrest]
          simp [Stmt.tokens]
        · exact Stmt.resolve?_assign_eq_some.2 ⟨place, value, hfind, hresolves, rfl⟩
    | constant value => cases hcls.symm.trans hrecords.1
    | function arity => cases hcls.symm.trans hrecords.1
    | system request => cases hcls.symm.trans hrecords.1
  · change Needs origin a (if symbol.cls ≠ .object then _ else _) _
    rw [if_pos hcls]
    exact Needs.first Needs.throw

theorem needs_expressionStatement {front : List Token.Kind} {action : Compile Unit}
    (haction : Ends origin a action fun _ b => ∃ e rest value,
      Finds a.env a.dataHere (front ++ a.ahead) 0 0 e rest value ∧ b = a.value rest value e.data) :
    Needs origin a (expressionStatement action) (∃ statement rest core,
      FindsStatement a.env a.frame.used a.dataHere (front ++ a.ahead) statement rest core) := by
  refine does_openRule.needs ?_
  refine Needs.bind haction ?_
  rintro _ _ ⟨e, behind, value, hfinds, rfl⟩
  refine Needs.first (Needs.of_ends ends_expectMark ?_)
  rintro _ _ ⟨rest, hrest, -⟩
  change behind = _ at hrest
  refine ⟨.evaluate e, rest, .evaluate value, hfinds.grammatical, ?_, Bool.noConfusion, ?_⟩
  · rw [hfinds.tokens, hrest]
    simp [Stmt.tokens]
  · rw [Stmt.resolve?, hfinds.resolves]
    rfl

theorem accepts_statementAt (depth : Nat) : AcceptsStatement origin depth (statementAt depth) := by
  induction depth with
  | zero =>
      intro a _ hbound
      omega
  | succ depth ih =>
      intro a hinside hbound hframe
      have hperforms : Performs origin depth (statementAt depth) := performs_statementAt depth
      have hbound' : a.ahead.length ≤ depth := Nat.le_of_lt_succ hbound
      refine does_peek.needs ?_
      split
      case h_1 => exact needs_block ih hperforms hbound' hframe
      case h_2 => exact needs_ifStatement ih hperforms hinside hbound' hframe
      case h_3 => exact needs_whileStatement ih hinside hbound' hframe
      case h_4 => exact needs_returnStatement
      case h_5 hcurrent =>
        obtain ⟨rest, hahead⟩ := Sketch.ahead_of_current hcurrent Token.Kind.noConfusion
        intro _ _ _ _ _
        exact ⟨.empty, rest, .skip, rfl, hahead, Bool.noConfusion, rfl⟩
      case h_6 name hcurrent =>
        obtain ⟨rest, hahead⟩ := Sketch.ahead_of_current hcurrent Token.Kind.noConfusion
        refine Needs.bind (reaches_take hahead).ends ?_
        rintro head _ ⟨hhead, rfl⟩
        have hdataHere : (a.after rest [] []).dataHere = a.dataHere := Sketch.dataHere_after
        rw [hahead, ← hdataHere]
        refine needs_atMark ?_ ?_
        · intro _ _
          exact needs_assignment (a := a.after rest [] []) hhead
        · intro _
          exact @needs_expressionStatement _ (a.after rest [] []) [.identifier name] _
            (ends_expressionFrom hhead)
      case h_7 => exact @needs_expressionStatement _ _ [] _ ends_expression

end WordC.Compiler
