import WordC.Proofs.Compile.Scopes

/-!
# From point to point

Reading a statement or a declaration takes the table of symbols from the point in front of it to the
point behind it. There is one lemma for each rule that declares a name or opens a scope; all others
leave the table alone.
-/

namespace WordC.Compiler

open WordC.Core (Cell Env)
open Symbol.Table (At)
open Syntax (Closes Declaration Declarator Expr Point Stmt)

variable {α β : Type} {origin : Origin} {a b : Sketch} {p q : Point} {offsets : List Word}
  {pre mid post : Symbol.Table → Prop}

/-! ## Local declarations -/

/-- Stores the initial value of a variable, if there is one. -/
def initialized (symbol : Symbol) : Compile Unit := do
  if ← atMark .equal then
    advance
    expression
    emitStore symbol

theorem initialized_bind (symbol : Symbol) (next : Unit → Compile β) :
    (atMark .equal >>= fun found =>
      if found then
        advance >>= fun _ => expression >>= fun _ => emitStore symbol >>= next
      else next ()) = initialized symbol >>= next := by
  rw [initialized, bind_assoc]
  refine bind_congr fun found => ?_
  cases found <;> simp

theorem rests_emitStore (symbol : Symbol) : Rests (emitStore symbol) :=
  (rests_emit _).bind fun _ => (Repeats.rests (repeats_emitAddress _)).bind fun _ => rests_emit _

theorem rests_initialized (symbol : Symbol) : Rests (initialized symbol) :=
  (rests_atMark _).bind fun _ => .ite
    (rests_advance.bind fun _ => rests_expression.bind fun _ => rests_emitStore symbol) (.pure _)

/-- One variable of a declaration. -/
theorem moves_localVariable {type : TypeName} {declarator : Declarator} {rest : List Token.Kind}
    {env : Env} {stores : List Core.Stmt} {rounds : Nat}
    (hgrammatical : declarator.isGrammatical) (hahead : a.ahead = declarator.tokens ++ rest)
    (hcloses : Closes 0 rest) (hequal : rest.head? ≠ some (.punctuator .equal))
    (hdeclare : a.env.declare? declarator.name (.slot (a.frame.used + 1)) = some env)
    (hresolve : declarator.resolve? env (.slot (a.frame.used + 1)) a.dataHere = some stores)
    (hscopes : p.scopes ≠ [])
    (hnext : Moves origin
      ((a.after rest (Core.cells ((Core.Stmt.ofList stores).code a.here)) declarator.data).declared
        env 1)
      (At (p.declare declarator.name) (offsets ++ [Word.ofCount (a.frame.used + 1)]))
      (atMark .comma >>= fun more =>
        if more then advance >>= fun _ => localVariables type rounds else pure ()) post) :
    Moves origin a (At p offsets) (localVariables type (rounds + 1)) post := by
  have htokens : ∃ behind, declarator.tokens ++ rest = .identifier declarator.name :: behind :=
    ⟨_, rfl⟩
  obtain ⟨behind, hbehind⟩ := htokens
  rw [hbehind] at hahead
  refine (reaches_expectIdentifier hahead).rests (Repeats.rests repeats_expectIdentifier) ?_
  rintro ⟨name, position⟩ _ ⟨hname, rfl⟩
  change name = declarator.name at hname
  subst hname
  refine (does_frame _).rests (.update fun _ => rfl) ?_
  refine does_viewFrame.rests (rests_view _) ?_
  refine (reaches_declareLocal hdeclare rfl rfl rfl).moves (shifts_declare_local hscopes _).moves ?_
  rintro symbol _ ⟨rfl, hrecords⟩
  have hdoes := @reaches_initial origin ((a.after behind [] []).declared env 1) _ declarator symbol _
    rest stores pure _ hrecords hgrammatical hbehind.symm hcloses hequal
    (by
      change declarator.resolve? env _ (a.after behind [] []).dataHere = _
      rw [Sketch.dataHere_after]
      exact hresolve) Does.pure
  rw [initialized_bind, bind_pure] at hdoes
  rw [Sketch.after_declared, Sketch.after_after, Sketch.here_declared, Sketch.here_after] at hdoes
  rw [initialized_bind]
  exact Does.rests hdoes (rests_initialized symbol) hnext

theorem moves_localVariables {type : TypeName} (first : Declarator) (others : List Declarator) :
    ∀ (a : Sketch) (p : Point) (offsets : List Word) (rest : List Token.Kind) (inner : Env)
      (stores : List Core.Stmt) (rounds : Nat), p.scopes ≠ [] →
      (first :: others).all Declarator.isGrammatical →
      a.ahead = Syntax.separated ((first :: others).map Declarator.tokens) ++
        .punctuator .semicolon :: rest →
      a.ahead.length < rounds →
      Syntax.resolveDeclarators? a.env a.frame.used a.dataHere (first :: others) =
        some (inner, stores) →
      Moves origin a (At p offsets) (localVariables type rounds)
        (At (p.declareAll ((first :: others).map (·.name)))
          (offsets ++ Syntax.slots a.frame.used (first :: others).length)) := by
  induction others generalizing first with
  | nil =>
      intro a p offsets rest inner stores rounds hscopes hgrammatical hahead hrounds hresolve
      obtain ⟨next, front, back, hdeclare, hfirst, hback, rfl⟩ :=
        Syntax.resolveDeclarators?_cons_eq_some.1 hresolve
      obtain ⟨rounds, rfl⟩ : ∃ more, rounds = more + 1 := ⟨rounds - 1, by omega⟩
      have htokens : a.ahead = first.tokens ++ .punctuator .semicolon :: rest := by
        simpa [Syntax.separated, Syntax.further] using hahead
      have hfirstGrammatical : first.isGrammatical := by simpa using hgrammatical
      refine moves_localVariable hfirstGrammatical htokens (Syntax.closes_mark (by decide))
        (by simp) hdeclare hfirst hscopes ?_
      refine does_atMark.rests (rests_atMark _) ?_
      rw [if_neg (by simp [Sketch.current, Sketch.declared, Sketch.after])]
      exact (Rests.pure ()).shifts.moves
  | cons second others ih =>
      intro a p offsets rest inner stores rounds hscopes hgrammatical hahead hrounds hresolve
      obtain ⟨next, front, back, hdeclare, hfirst, hback, rfl⟩ :=
        Syntax.resolveDeclarators?_cons_eq_some.1 hresolve
      obtain ⟨rounds, rfl⟩ : ∃ more, rounds = more + 1 := ⟨rounds - 1, by omega⟩
      rw [List.all_cons, Bool.and_eq_true] at hgrammatical
      obtain ⟨hfirstGrammatical, hothers⟩ := hgrammatical
      have htokens : a.ahead = first.tokens ++ .punctuator .comma ::
          (Syntax.separated ((second :: others).map Declarator.tokens) ++
            .punctuator .semicolon :: rest) := by
        rw [hahead]
        simp [Syntax.separated, Syntax.further]
      have hlength := congrArg List.length htokens
      rw [List.length_append, List.length_cons] at hlength
      refine moves_localVariable hfirstGrammatical htokens (Syntax.closes_mark (by decide))
        (by simp) hdeclare hfirst hscopes ?_
      refine does_atMark.rests (rests_atMark _) ?_
      rw [if_pos (by simp [Sketch.current, Sketch.declared, Sketch.after])]
      refine (does_advance rfl).rests rests_advance ?_
      rw [Sketch.after_declared, Sketch.after_after, List.append_nil, List.append_nil]
      have hslots : offsets ++ Syntax.slots a.frame.used (first :: second :: others).length =
          offsets ++ [Word.ofCount (a.frame.used + 1)] ++
            Syntax.slots (a.frame.used + 1) (second :: others).length := by
        rw [List.append_assoc]
        rfl
      rw [hslots]
      refine ih second _ (p.declare first.name) _ rest inner back rounds hscopes hothers rfl ?_ ?_
      · rw [Sketch.ahead_declared, Sketch.ahead_after]
        omega
      · rw [Sketch.dataHere_declared, Sketch.dataHere_after]
        exact hback

theorem moves_localDeclaration {declaration : Declaration} {rest : List Token.Kind} {inner : Env}
    {stores : List Core.Stmt} (hscopes : p.scopes ≠ []) (hgrammatical : declaration.isGrammatical)
    (hahead : a.ahead = declaration.tokens ++ rest)
    (hresolve : Syntax.resolveDeclarators? a.env a.frame.used a.dataHere declaration.declarators =
      some (inner, stores)) :
    Moves origin a (At p offsets) localDeclaration
      (At (p.declareAll (declaration.declarators.map (·.name)))
        (offsets ++ Syntax.slots a.frame.used declaration.declarators.length)) := by
  have htokens : a.ahead = .keyword (.type declaration.type) ::
      (Syntax.separated (declaration.declarators.map Declarator.tokens) ++
        .punctuator .semicolon :: rest) := by
    rw [hahead]
    simp [Declaration.tokens]
  refine does_openRule.rests (rests_openRule _) ?_
  refine (does_expectType htokens).rests (Repeats.rests repeats_expectType) ?_
  refine reaches_bound.rests (rests_view _) ?_
  rintro rounds _ ⟨rfl, hrounds⟩
  refine (moves_localVariables declaration.first declaration.rest _ p offsets rest inner stores
    rounds hscopes hgrammatical rfl hrounds ?_).bind fun _ => ?_
  · rw [Sketch.dataHere_after]
    exact hresolve
  · exact ((rests_expect _).bind fun _ => rests_closeRule).shifts

/-- The declarations at the start of a block. -/
theorem moves_localDeclarations (declarations : List Declaration) :
    ∀ (a : Sketch) (p : Point) (offsets : List Word) (kind : Token.Kind) (rest : List Token.Kind)
      (inner : Env) (stores : List Core.Stmt) (rounds : Nat), p.scopes ≠ [] →
      declarations.all Declaration.isGrammatical →
      a.ahead = declarations.flatMap Declaration.tokens ++ kind :: rest → kind.isType = false →
      a.ahead.length < rounds →
      Syntax.resolveDeclarators? a.env a.frame.used a.dataHere
        (declarations.flatMap Declaration.declarators) = some (inner, stores) →
      Moves origin a (At p offsets) (localDeclarations rounds)
        (At (p.declareAll (Syntax.declaredNames declarations))
          (offsets ++ Syntax.slots a.frame.used (Syntax.declaredNames declarations).length)) := by
  induction declarations with
  | nil =>
      intro a p offsets kind rest inner stores rounds _ _ hahead hkind hrounds _
      obtain ⟨rounds, rfl⟩ : ∃ more, rounds = more + 1 := ⟨rounds - 1, by omega⟩
      refine does_peek.rests (Repeats.rests repeats_peek) ?_
      rw [Sketch.current_of_ahead hahead, hkind, if_neg Bool.false_ne_true]
      change Moves origin a (At p offsets) _ (At p (offsets ++ []))
      rw [List.append_nil]
      exact (Rests.pure ()).shifts.moves
  | cons declaration declarations ih =>
      intro a p offsets kind rest inner stores rounds hscopes hgrammatical hahead hkind hrounds
        hresolve
      rw [List.flatMap_cons] at hahead hresolve
      rw [List.all_cons, Bool.and_eq_true] at hgrammatical
      rw [List.append_assoc] at hahead
      obtain ⟨next, front, back, hfront, hback, rfl⟩ :=
        Syntax.resolveDeclarators?_append_eq_some hresolve
      obtain ⟨rounds, rfl⟩ : ∃ more, rounds = more + 1 := ⟨rounds - 1, by omega⟩
      have hcurrent : a.current = .keyword (.type declaration.type) := by
        rw [Sketch.current, hahead]
        rfl
      have hlength := congrArg List.length hahead
      rw [List.length_append, Declaration.tokens, List.length_cons] at hlength
      refine does_peek.rests (Repeats.rests repeats_peek) ?_
      have htype : (Token.Kind.keyword (.type declaration.type)).isType = true := rfl
      rw [hcurrent, if_pos htype]
      refine (does_localDeclaration hgrammatical.1 hahead hfront).moves
        (moves_localDeclaration hscopes hgrammatical.1 hahead hfront) ?_
      let names := declaration.declarators.map (·.name)
      have hnames : Syntax.declaredNames (declaration :: declarations) =
          names ++ Syntax.declaredNames declarations := by
        simp [Syntax.declaredNames, names]
      have hslots : offsets ++ Syntax.slots a.frame.used
          (Syntax.declaredNames (declaration :: declarations)).length =
          offsets ++ Syntax.slots a.frame.used declaration.declarators.length ++
            Syntax.slots (a.frame.used + declaration.declarators.length)
              (Syntax.declaredNames declarations).length := by
        rw [hnames, List.length_append, Syntax.slots_append, List.append_assoc, List.length_map]
      rw [hslots, hnames, Point.declareAll_append]
      refine ih _ (p.declareAll names) _ kind rest inner back rounds ?_ hgrammatical.2 rfl hkind ?_
        ?_
      · rw [Point.scopes_declareAll]
        exact hscopes
      · rw [Sketch.ahead_declared, Sketch.ahead_after]
        omega
      · rw [Sketch.dataHere_declared, Sketch.dataHere_after]
        exact hback

/-! ## Statements -/

/-- Wherever the action finds a statement ahead, it takes the table behind it. -/
def Passes (origin : Origin) (bound : Nat) (action : Compile Unit) : Prop :=
  ∀ (a : Sketch) (p : Point) (offsets : List Word) (statement : Stmt) (rest : List Token.Kind)
    (core : Core.Stmt), p.scopes ≠ [] → statement.isGrammatical →
    a.ahead = statement.tokens ++ rest →
    (statement.endsOpen → rest.head? ≠ some (.keyword .elseKw)) → a.ahead.length < bound →
    a.frame.used ≤ a.frame.greatest →
    statement.resolve? a.env a.frame.used a.dataHere = some core →
    Moves origin a (At p offsets) action
      (At (statement.behind p) (offsets ++ statement.slots a.frame.used))

variable {action : Compile Unit} {bound : Nat}

theorem moves_statements (hdoes : Performs origin bound action)
    (haction : Passes origin bound action) (body : List Stmt) :
    ∀ (a : Sketch) (p : Point) (offsets : List Word) (rest : List Token.Kind)
      (cores : List Core.Stmt) (rounds : Nat), p.scopes ≠ [] → Stmt.areGrammatical body →
      a.ahead = Stmt.bodyTokens body ++ .punctuator .rightBrace :: rest →
      a.ahead.length < bound → a.ahead.length < rounds → a.frame.used ≤ a.frame.greatest →
      Stmt.resolveBody? a.env a.frame.used a.dataHere body = some cores →
      Moves origin a (At p offsets) (statements action rounds)
        (At (Stmt.bodyBehind body p) (offsets ++ Stmt.bodySlots a.frame.used body)) := by
  induction body with
  | nil =>
      intro a p offsets rest cores rounds _ _ hahead _ hrounds _ _
      obtain ⟨rounds, rfl⟩ : ∃ more, rounds = more + 1 := ⟨rounds - 1, by omega⟩
      refine does_atMark.rests (rests_atMark _) ?_
      rw [decide_eq_true (Sketch.current_of_ahead hahead), if_neg (not_not_intro rfl),
        Stmt.bodyBehind, Stmt.bodySlots, List.append_nil]
      exact (Rests.pure ()).shifts.moves
  | cons statement body ih =>
      intro a p offsets rest cores rounds hscopes hgrammatical hahead hbound hrounds hframe hresolve
      rw [Stmt.areGrammatical, Bool.and_eq_true] at hgrammatical
      rw [Stmt.bodyTokens, List.append_assoc] at hahead
      simp only [Stmt.resolveBody?, Option.bind_eq_bind, Option.bind_eq_some_iff,
        Option.some.injEq] at hresolve
      obtain ⟨core, hcore, cores, hcores, rfl⟩ := hresolve
      obtain ⟨rounds, rfl⟩ : ∃ more, rounds = more + 1 := ⟨rounds - 1, by omega⟩
      obtain ⟨kind, more, htokens, -⟩ := statement.tokens_eq_cons
      have hcurrent := Sketch.current_ne_rightBrace hahead
      have helse : (Stmt.bodyTokens body ++ .punctuator .rightBrace :: rest).head? ≠
          some (.keyword .elseKw) := by
        obtain ⟨next, behind, hnext, -, hne⟩ := Stmt.head_bodyTokens body rest
        rw [hnext]
        exact fun heq => hne (Option.some.inj heq)
      have hlength := congrArg List.length hahead
      rw [List.length_append, htokens, List.length_cons] at hlength
      refine does_atMark.rests (rests_atMark _) ?_
      rw [decide_eq_false hcurrent, if_pos Bool.false_ne_true]
      refine (hdoes a statement _ core hgrammatical.1 hahead (fun _ => helse) hbound hframe
        hcore).moves (haction a p offsets statement _ core hscopes hgrammatical.1 hahead
          (fun _ => helse) hbound hframe hcore) ?_
      rw [Stmt.bodyBehind, Stmt.bodySlots, ← List.append_assoc]
      refine ih _ (statement.behind p) _ rest cores rounds ?_ hgrammatical.2 rfl ?_ ?_ ?_ ?_
      · rw [Stmt.scopes_behind]
        exact hscopes
      · change List.length (Stmt.bodyTokens body ++ .punctuator .rightBrace :: rest) < bound
        omega
      · change List.length (Stmt.bodyTokens body ++ .punctuator .rightBrace :: rest) < rounds
        omega
      · exact Nat.le_trans hframe (Nat.le_max_left _ _)
      · rw [Sketch.dataHere_stated]
        exact hcores

theorem moves_blockContents (hdoes : Performs origin bound action)
    (haction : Passes origin bound action) {declarations : List Declaration} {body : List Stmt}
    {rest : List Token.Kind} {inner : Env} {stores cores : List Core.Stmt} (hscopes : p.scopes ≠ [])
    (hgrammatical : (Stmt.block declarations body).isGrammatical)
    (hahead : a.ahead = declarations.flatMap Declaration.tokens ++ Stmt.bodyTokens body ++
      .punctuator .rightBrace :: rest)
    (hbound : a.ahead.length < bound) (hframe : a.frame.used ≤ a.frame.greatest)
    (hstores : Syntax.resolveDeclarators? a.env a.frame.used a.dataHere
      (declarations.flatMap Declaration.declarators) = some (inner, stores))
    (hcores : Stmt.resolveBody? inner
      (a.frame.used + (declarations.flatMap Declaration.declarators).length)
      (a.dataHere +
        (Syntax.declaratorData (declarations.flatMap Declaration.declarators)).length) body =
          some cores) :
    Moves origin a (At p offsets) (blockContents action)
      (At (Stmt.bodyBehind body (p.declareAll (Syntax.declaredNames declarations)))
        (offsets ++ (Stmt.block declarations body).slots a.frame.used)) := by
  rw [Stmt.isGrammatical, Bool.and_eq_true] at hgrammatical
  rw [List.append_assoc] at hahead
  obtain ⟨kind, more, hbody, htype, -⟩ := Stmt.head_bodyTokens body rest
  have hlength := congrArg List.length hahead
  rw [List.length_append] at hlength
  refine reaches_bound.rests (rests_view _) ?_
  rintro rounds a ⟨rfl, hrounds⟩
  rw [hbody] at hahead
  refine (does_localDeclarations declarations _ kind more inner stores rounds hgrammatical.1 hahead
    htype hrounds hframe hstores).moves (moves_localDeclarations declarations _ p offsets kind more
      inner stores rounds hscopes hgrammatical.1 hahead htype hrounds hstores) ?_
  rw [Stmt.slots, ← List.append_assoc, Stmt.length_declaredNames]
  refine moves_statements hdoes haction body _ (p.declareAll _) _ rest cores rounds ?_
    hgrammatical.2 hbody.symm ?_ ?_ ?_ ?_
  · rw [Point.scopes_declareAll]
    exact hscopes
  · rw [Sketch.ahead_declared, Sketch.ahead_after, ← hbody]
    omega
  · rw [Sketch.ahead_declared, Sketch.ahead_after, ← hbody]
    omega
  · exact Nat.le_max_right _ _
  · rw [Sketch.dataHere_declared, Sketch.dataHere_after]
    exact hcores

theorem moves_block (hdoes : Performs origin bound action) (haction : Passes origin bound action)
    {declarations : List Declaration} {body : List Stmt} {rest : List Token.Kind}
    {core : Core.Stmt} (hgrammatical : (Stmt.block declarations body).isGrammatical)
    (hahead : a.ahead = (Stmt.block declarations body).tokens ++ rest)
    (hbound : a.ahead.length ≤ bound) (hframe : a.frame.used ≤ a.frame.greatest)
    (hresolve : (Stmt.block declarations body).resolve? a.env a.frame.used a.dataHere =
      some core) :
    Moves origin a (At p offsets) (block action)
      (At ((Stmt.block declarations body).behind p)
        (offsets ++ (Stmt.block declarations body).slots a.frame.used)) := by
  have htokens : a.ahead = .punctuator .leftBrace ::
      (declarations.flatMap Declaration.tokens ++ Stmt.bodyTokens body ++
        .punctuator .rightBrace :: rest) := by
    rw [hahead]
    simp [Stmt.tokens]
  have hlength := congrArg List.length htokens
  rw [List.length_cons] at hlength
  obtain ⟨inner, stores, cores, hstores, hcores, rfl⟩ := Stmt.resolve?_block_eq_some.1 hresolve
  refine does_openRule.rests (rests_openRule _) ?_
  refine (does_expect htokens).rests (rests_expect _) ?_
  refine does_enterScope.moves shifts_enterScope.moves ?_
  refine does_viewFrame.rests (rests_view _) ?_
  have hscopes : p.enter.scopes ≠ [] := List.cons_ne_nil _ _
  let names := Syntax.declaredNames declarations
  have hscopes' : (Stmt.bodyBehind body (p.enter.declareAll names)).scopes ≠ [] := by
    rw [Stmt.scopes_bodyBehind, Point.scopes_declareAll]
    exact hscopes
  rw [Stmt.behind]
  let entered : Sketch :=
    { a.after (declarations.flatMap Declaration.tokens ++ Stmt.bodyTokens body ++
        .punctuator .rightBrace :: rest) [] [] with env := a.env.enter }
  have hdataHere : entered.dataHere = a.dataHere := by
    simp [entered, Sketch.dataHere, Sketch.after]
  have hbound' : entered.ahead.length < bound := by
    change List.length (_ ++ _) < bound
    omega
  refine (moves_blockContents (a := entered) hdoes haction hscopes hgrammatical rfl hbound' hframe
    (hdataHere.symm ▸ hstores) (hdataHere.symm ▸ hcores)).bind fun _ => ?_
  refine (rests_expect _).shifts.bind fun _ => ?_
  refine (shifts_leaveScope hscopes').bind fun _ => ?_
  exact ((Rests.update (by intro; rfl)).bind fun _ => rests_closeRule).shifts

theorem rests_condition (kind : Token.Kind) : Rests (expect kind >>= fun _ => condition) :=
  (rests_expect _).bind fun _ => (rests_expect _).bind fun _ => rests_expression.bind fun _ =>
    (rests_expect _).bind fun _ => rests_emitPending _

theorem rests_otherwise (skipThen : Nat) : Rests (otherwise skipThen) :=
  rests_advance.bind fun _ => (rests_emitPending _).bind fun _ => (rests_patchHere _).bind fun _ =>
    .pure _

theorem moves_whileStatement (haction : Passes origin bound action) {e : Expr} {body : Stmt}
    {rest : List Token.Kind} {core : Core.Stmt} (hscopes : p.scopes ≠ [])
    (hgrammatical : (Stmt.whileLoop e body).isGrammatical)
    (hahead : a.ahead = (Stmt.whileLoop e body).tokens ++ rest)
    (helse : body.endsOpen → rest.head? ≠ some (.keyword .elseKw))
    (hbound : a.ahead.length ≤ bound) (hframe : a.frame.used ≤ a.frame.greatest)
    (hresolve : (Stmt.whileLoop e body).resolve? a.env a.frame.used a.dataHere = some core) :
    Moves origin a (At p offsets) (whileStatement action)
      (At (body.behind p) (offsets ++ body.slots a.frame.used)) := by
  have htokens : a.ahead = .keyword .whileKw :: .punctuator .leftParen ::
      (e.tokens ++ .punctuator .rightParen :: (body.tokens ++ rest)) := by
    rw [hahead]
    simp [Stmt.tokens]
  rw [Stmt.isGrammatical, Bool.and_eq_true] at hgrammatical
  obtain ⟨test, inner, htest, hinner, rfl⟩ := Stmt.resolve?_whileLoop_eq_some.1 hresolve
  rw [whileStatement_eq]
  refine does_openRule.rests (rests_openRule _) ?_
  refine does_here.rests (Repeats.rests repeats_here) ?_
  refine (does_condition test hgrammatical.1 htokens htest).rests (rests_condition _) ?_
  refine (haction (a.tested _ test _) p offsets body rest inner hscopes hgrammatical.2 rfl helse
    (Sketch.length_lt_of_condition htokens hbound) hframe ?_).bind fun _ => ?_
  · rw [Sketch.dataHere_tested]
    exact hinner
  exact ((Repeats.rests (repeats_emitWith _ _)).bind fun _ => (rests_patchHere _).bind fun _ =>
    rests_closeRule).shifts

theorem moves_ifThen (hdoes : Performs origin bound action) (haction : Passes origin bound action)
    {e : Expr} {consequence : Stmt} {rest : List Token.Kind} {core : Core.Stmt}
    (hscopes : p.scopes ≠ []) (hgrammatical : (Stmt.ifThen e consequence).isGrammatical)
    (hahead : a.ahead = (Stmt.ifThen e consequence).tokens ++ rest)
    (helse : rest.head? ≠ some (.keyword .elseKw))
    (hbound : a.ahead.length ≤ bound) (hframe : a.frame.used ≤ a.frame.greatest)
    (hresolve : (Stmt.ifThen e consequence).resolve? a.env a.frame.used a.dataHere = some core) :
    Moves origin a (At p offsets) (ifStatement action)
      (At (consequence.behind p) (offsets ++ consequence.slots a.frame.used)) := by
  have htokens : a.ahead = .keyword .ifKw :: .punctuator .leftParen ::
      (e.tokens ++ .punctuator .rightParen :: (consequence.tokens ++ rest)) := by
    rw [hahead]
    simp [Stmt.tokens]
  rw [Stmt.isGrammatical, Bool.and_eq_true] at hgrammatical
  obtain ⟨test, inner, htest, hinner, rfl⟩ := Stmt.resolve?_ifThen_eq_some.1 hresolve
  rw [ifStatement_eq]
  refine does_openRule.rests (rests_openRule _) ?_
  refine (does_condition test hgrammatical.1 htokens htest).rests (rests_condition _) ?_
  let tested := a.tested (consequence.tokens ++ rest) test e.data
  have hbound' : tested.ahead.length < bound := Sketch.length_lt_of_condition htokens hbound
  have hinner' : consequence.resolve? tested.env tested.frame.used tested.dataHere = some inner := by
    rw [Sketch.dataHere_tested]
    exact hinner
  refine (hdoes tested consequence rest inner hgrammatical.2 rfl (fun _ => helse) hbound' hframe
    hinner').moves (haction tested p offsets consequence rest inner hscopes hgrammatical.2 rfl
      (fun _ => helse) hbound' hframe hinner') ?_
  refine does_atKind.rests (Repeats.rests (repeats_atKind _)) ?_
  rw [if_neg]
  · exact ((rests_patchHere _).bind fun _ => rests_closeRule).shifts.moves
  · rw [decide_eq_true_iff]
    exact Sketch.current_ne Token.Kind.noConfusion helse

theorem moves_ifElse (hdoes : Performs origin bound action) (haction : Passes origin bound action)
    {e : Expr} {consequence alternative : Stmt} {rest : List Token.Kind} {core : Core.Stmt}
    (hscopes : p.scopes ≠ []) (hgrammatical : (Stmt.ifElse e consequence alternative).isGrammatical)
    (hahead : a.ahead = (Stmt.ifElse e consequence alternative).tokens ++ rest)
    (helse : alternative.endsOpen → rest.head? ≠ some (.keyword .elseKw))
    (hbound : a.ahead.length ≤ bound) (hframe : a.frame.used ≤ a.frame.greatest)
    (hresolve : (Stmt.ifElse e consequence alternative).resolve? a.env a.frame.used
      a.dataHere = some core) :
    Moves origin a (At p offsets) (ifStatement action)
      (At (alternative.behind (consequence.behind p))
        (offsets ++ (consequence.slots a.frame.used ++ alternative.slots a.frame.used))) := by
  have htokens : a.ahead = .keyword .ifKw :: .punctuator .leftParen ::
      (e.tokens ++ .punctuator .rightParen ::
        (consequence.tokens ++ .keyword .elseKw :: (alternative.tokens ++ rest))) := by
    rw [hahead]
    simp [Stmt.tokens]
  simp only [Stmt.isGrammatical, Bool.and_eq_true, Bool.not_eq_true'] at hgrammatical
  obtain ⟨⟨⟨hcondition, hconsequence⟩, hopen⟩, halternative⟩ := hgrammatical
  obtain ⟨test, inner, other, htest, hinner, hother, rfl⟩ := Stmt.resolve?_ifElse_eq_some.1 hresolve
  rw [ifStatement_eq]
  refine does_openRule.rests (rests_openRule _) ?_
  refine (does_condition test hcondition htokens htest).rests (rests_condition _) ?_
  let tested := a.tested (consequence.tokens ++ .keyword .elseKw :: (alternative.tokens ++ rest))
    test e.data
  have hbound' : tested.ahead.length < bound := Sketch.length_lt_of_condition htokens hbound
  have hinner' : consequence.resolve? tested.env tested.frame.used tested.dataHere = some inner := by
    rw [Sketch.dataHere_tested]
    exact hinner
  have hclosed : consequence.endsOpen →
      (Token.Kind.keyword .elseKw :: (alternative.tokens ++ rest)).head? ≠
        some (.keyword .elseKw) := by
    intro hopens
    rw [hopen] at hopens
    cases hopens
  refine (hdoes tested consequence _ inner hconsequence rfl hclosed hbound' hframe hinner').moves
    (haction tested p offsets consequence _ inner hscopes hconsequence rfl hclosed hbound' hframe
      hinner') ?_
  refine does_atKind.rests (Repeats.rests (repeats_atKind _)) ?_
  rw [if_pos (by simp [Sketch.current, Sketch.stated]), Sketch.stated_tested]
  refine does_otherwise.rests (rests_otherwise _) ?_
  let passed := a.passed (alternative.tokens ++ rest) test inner (e.data ++ consequence.data)
    (consequence.peak a.frame.used)
  have hbound'' : passed.ahead.length < bound := Sketch.length_lt_of_else hbound'
  have hother' : alternative.resolve? passed.env passed.frame.used passed.dataHere =
      some other := by
    rw [Sketch.dataHere_passed, List.length_append, ← Nat.add_assoc]
    exact hother
  have hscopes' : (consequence.behind p).scopes ≠ [] := by
    rw [Stmt.scopes_behind]
    exact hscopes
  rw [← List.append_assoc]
  refine (haction passed (consequence.behind p) _ alternative rest other hscopes' halternative rfl
    helse hbound'' (Nat.le_trans hframe (Nat.le_max_left _ _)) hother').bind fun _ => ?_
  exact ((rests_patchHere _).bind fun _ => rests_closeRule).shifts

/-! ## Statements at any depth -/

theorem rests_returnStatement : Rests returnStatement := by
  have hend : Rests (expectMark .semicolon >>= fun _ => emit .lev >>= fun _ => closeRule) :=
    (rests_expect _).bind fun _ => (rests_emit _).bind fun _ => rests_closeRule
  exact (rests_openRule _).bind fun _ => (rests_expect _).bind fun _ => (rests_atMark _).bind
    fun _ => .ite (rests_expression.bind fun _ => hend) hend

theorem rests_assignment (target : Token) : Rests (assignment target) := by
  have hend (symbol : Symbol) : Rests (expectMark .equal >>= fun _ => expression >>= fun _ =>
      expectMark .semicolon >>= fun _ => emitStore symbol >>= fun _ => closeRule) :=
    (rests_expect _).bind fun _ => rests_expression.bind fun _ => (rests_expect _).bind fun _ =>
      (rests_emitStore symbol).bind fun _ => rests_closeRule
  refine (rests_openRule _).bind fun _ => (Repeats.rests (repeats_record _)).bind fun _ =>
    (Repeats.rests (repeats_locate _)).bind fun position => ?_
  cases target.kind with
  | identifier name =>
      exact (Repeats.rests (repeats_resolve _ _)).bind fun symbol =>
        .ite ((Rests.throw _).bind fun _ => hend symbol) (hend symbol)
  | _ => exact Repeats.rests (repeats_unexpected _)

theorem rests_expressionStatement {value : Compile Unit} (h : Rests value) :
    Rests (expressionStatement value) :=
  (rests_openRule _).bind fun _ => h.bind fun _ => (rests_expect _).bind fun _ => rests_closeRule

theorem rests_named : Rests named :=
  (Repeats.rests repeats_take).bind fun head => (rests_atMark _).bind fun _ =>
    .ite (rests_assignment head) (rests_expressionStatement (Repeats.rests
      (repeats_expressionFrom head)))

/-- Only a block declares names. -/
theorem Rests.moves_leaf (h : Rests action) {statement : Stmt} (hbehind : statement.behind p = p)
    (hslots : statement.slots a.frame.used = []) :
    Moves origin a (At p offsets) action
      (At (statement.behind p) (offsets ++ statement.slots a.frame.used)) := by
  rw [hbehind, hslots, List.append_nil]
  exact h.shifts.moves

theorem passes_statementAt (depth : Nat) : Passes origin depth (statementAt depth) := by
  induction depth with
  | zero => exact fun a _ _ _ _ _ _ _ _ _ hbound => absurd hbound (Nat.not_lt_zero _)
  | succ depth ih =>
      intro a p offsets statement rest core hscopes hgrammatical hahead helse hbound hframe hresolve
      have hbound' := Nat.le_of_lt_succ hbound
      have hdoes : Performs origin depth (statementAt depth) := performs_statementAt depth
      refine does_peek.rests (Repeats.rests repeats_peek) ?_
      cases statement with
      | block declarations body =>
          have htokens := hahead
          rw [Stmt.tokens] at htokens
          rw [Sketch.current_of_ahead htokens]
          exact moves_block hdoes ih hgrammatical hahead hbound' hframe hresolve
      | ifThen condition consequence =>
          have htokens := hahead
          rw [Stmt.tokens] at htokens
          rw [Sketch.current_of_ahead htokens, Stmt.behind, Stmt.slots]
          exact moves_ifThen hdoes ih hscopes hgrammatical hahead (helse rfl) hbound' hframe
            hresolve
      | ifElse condition consequence alternative =>
          have htokens := hahead
          rw [Stmt.tokens] at htokens
          rw [Sketch.current_of_ahead htokens, Stmt.behind, Stmt.slots]
          exact moves_ifElse hdoes ih hscopes hgrammatical hahead helse hbound' hframe hresolve
      | whileLoop condition body =>
          have htokens := hahead
          rw [Stmt.tokens] at htokens
          rw [Sketch.current_of_ahead htokens, Stmt.behind, Stmt.slots]
          exact moves_whileStatement ih hscopes hgrammatical hahead helse hbound' hframe hresolve
      | empty =>
          rw [Stmt.tokens] at hahead
          rw [Sketch.current_of_ahead hahead]
          exact rests_advance.moves_leaf (by simp only [Stmt.behind]) (by simp only [Stmt.slots])
      | leave value =>
          have hcurrent : a.current = .keyword .returnKw := by
            rw [Sketch.current, hahead]
            cases value <;> rfl
          rw [hcurrent]
          exact rests_returnStatement.moves_leaf (by simp only [Stmt.behind])
            (by simp only [Stmt.slots])
      | assign target value =>
          have htokens := hahead
          rw [Stmt.tokens] at htokens
          rw [Sketch.current_of_ahead htokens]
          exact rests_named.moves_leaf (by simp only [Stmt.behind]) (by simp only [Stmt.slots])
      | evaluate value =>
          obtain ⟨kind, more, hkind, hopens⟩ := value.tokens_eq_cons
          have hcurrent : a.current = kind := by
            rw [Sketch.current, hahead, Stmt.tokens, hkind]
            rfl
          rw [hcurrent]
          refine Rests.moves_leaf ?_ (by simp only [Stmt.behind]) (by simp only [Stmt.slots])
          have hplain := rests_expressionStatement rests_expression
          cases kind with
          | identifier identifier => exact rests_named
          | keyword word =>
              cases word with
              | sizeofKw => exact hplain
              | _ => cases hopens
          | punctuator mark =>
              cases mark
              all_goals first | exact hplain | cases hopens
          | endOfInput => cases hopens
          | _ => exact hplain

theorem passes_statement : Passes origin bound statement := by
  intro a p offsets tree rest core hscopes hgrammatical hahead helse _ hframe hresolve
  refine reaches_bound.rests (rests_view _) ?_
  rintro depth a ⟨rfl, hdepth⟩
  exact passes_statementAt depth a p offsets tree rest core hscopes hgrammatical hahead helse hdepth
    hframe hresolve

end WordC.Compiler
