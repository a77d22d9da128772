import WordC.Proofs.Compile.Points

/-!
# From declaration to declaration

A function declares its parameters in the scope that the outermost block of its body shares. All
other names of a file belong to the scope of the file. So the table of a program stands at the
point behind the file.
-/

namespace WordC.Compiler

open WordC.Core (Env)
open Symbol.Table (At)
open Syntax (Closes Declaration Declarator Heading Item Outline Point Stmt parameterOffsets)

variable {origin : Origin} {a : Sketch} {p : Point} {offsets : List Word} {text data : Nat}
  {frame : Frame} {outline outline' : Outline} {post : Symbol.Table → Prop}

/-! ## Parameters -/

theorem shifts_declareParameters (arity : Nat) (list : List Parameter) :
    ∀ (p : Point) (offsets : List Word) (index : Nat), p.scopes ≠ [] →
      Shifts (At p offsets) (declareParameters arity list index)
        (At (p.declareAll (list.map (·.name)))
          (offsets ++ (List.range' index list.length).map fun index =>
            Word.ofCount index - (Word.ofCount arity + 1))) := by
  induction list with
  | nil =>
      intro p offsets index _
      change Shifts (At p offsets) _ (At p (offsets ++ []))
      rw [List.append_nil]
      exact (Rests.pure ()).shifts
  | cons parameter list ih =>
      intro p offsets index hscopes
      have hrest := ih (p.declare parameter.name)
        (offsets ++ [Word.ofCount index - (Word.ofCount arity + 1)]) (index + 1) hscopes
      rw [List.append_assoc] at hrest
      exact (shifts_declare_local hscopes _).bind fun _ => hrest

theorem rests_patchAll (sites : List Nat) (word : Word) : Rests (patchAll sites word) := by
  induction sites with
  | nil => exact .pure ()
  | cons site sites ih => exact (Rests.onMachine _).bind fun _ => ih

/-- Patches the calls that have been waiting for the function. -/
def patchCalls (symbol : Symbol) : Compile Unit := do
  let pending ← view (·.pendingCalls)
  let (ours, others) := pending.partition fun (name, _) => name == symbol.name
  update fun compiler => { compiler with pendingCalls := others }
  patchAll (ours.map (·.2)) symbol.value

theorem rests_patchCalls (symbol : Symbol) : Rests (patchCalls symbol) :=
  (rests_view _).bind fun _ => (Rests.update (by intro; rfl)).bind fun _ => rests_patchAll _ _

theorem shifts_defineFunction (hscopes : p.scopes = []) (symbol : Symbol) :
    Shifts (At p offsets)
      (view (·.symbols) >>= fun table =>
        match table.defineFunction? symbol.name symbol.value with
        | some (_, symbols) =>
            update (fun compiler => { compiler with symbols }) >>= fun _ => patchCalls symbol
        | none => patchCalls symbol) (At p offsets) := by
  intro s hat value s' hok
  rw [bind_run_of_ok (show view (·.symbols) s = .ok s.compiler.symbols s from rfl)] at hok
  cases hresult : s.compiler.symbols.defineFunction? symbol.name symbol.value with
  | none =>
      rw [hresult] at hok
      exact (rests_patchCalls symbol).shifts s hat value s' hok
  | some result =>
      rw [hresult] at hok
      exact (rests_patchCalls symbol).shifts
        ⟨s.machine, { s.compiler with symbols := result.2 }⟩ (hat.defineFunction hscopes hresult)
        value s' hok

theorem shifts_bindFunction (hscopes : p.scopes = []) (symbol : Symbol) (arity : Nat) :
    Shifts (At p offsets) (bindFunction symbol arity) (At p offsets) := by
  have hdefine : Shifts (At p offsets) _ (At p offsets) := shifts_defineFunction hscopes symbol
  unfold bindFunction
  refine (show Rests (prototype? symbol.name) from (rests_view _).bind fun _ =>
    .pure _).shifts.bind fun found => ?_
  cases found with
  | none => exact (shifts_declare_global hscopes _).bind fun _ => (Rests.pure ()).shifts
  | some prototype =>
      simp only
      by_cases hparams : prototype.params ≠ some arity
      · rw [if_pos hparams]
        exact (Rests.throw _).shifts.bind fun _ => hdefine
      · rw [if_neg hparams]
        exact hdefine

theorem rests_parameterList (rounds : Nat) : ∀ isFirst, Rests (parameterList isFirst rounds) := by
  induction rounds with
  | zero => exact fun _ => .throw _
  | succ rounds ih =>
      exact fun _ => (Repeats.rests repeats_expectType).bind fun _ => (rests_atMark _).bind fun _ =>
        .ite (.pure _) ((Repeats.rests repeats_expectIdentifier).bind fun _ =>
          (rests_atMark _).bind fun _ => .ite
            (rests_advance.bind fun _ => (ih false).bind fun _ => .pure _) (.pure _))

theorem rests_parameters : Rests parameters := by
  have hend (list : List Parameter) :
      Rests (expectMark .rightParen >>= fun _ => closeRule >>= fun _ => pure list) :=
    (rests_expect _).bind fun _ => rests_closeRule.bind fun _ => .pure _
  exact (rests_openRule _).bind fun _ => (rests_expect _).bind fun _ => (rests_atMark _).bind
    fun _ => .ite ((Rests.pure _).bind fun list => hend list)
      ((rests_view _).bind fun rounds => (rests_parameterList rounds true).bind fun list => hend list)

/-! ## Functions -/

theorem shifts_prologue (hscopes : p.scopes = []) (symbol : Symbol) (list : List Parameter) :
    Shifts (At p offsets) (prologue symbol list)
      (At (p.enter.declareAll (list.map (·.name))) (offsets ++ parameterOffsets list.length)) := by
  refine (shifts_bindFunction hscopes symbol _).bind fun _ => ?_
  refine shifts_enterScope.bind fun _ => ?_
  refine (shifts_declareParameters list.length list p.enter offsets 0
    (List.cons_ne_nil _ _)).bind fun _ => ?_
  rw [parameterOffsets, List.range_eq_range']
  exact ((Rests.update (by intro; rfl)).bind fun _ => rests_emitPending _).shifts

theorem shifts_epilogue (hscopes : p.scopes ≠ []) (name : String) (entry : Word)
    (arity site : Nat) :
    Shifts (At p offsets) (epilogue name entry arity site) (At p.leave offsets) := by
  refine (rests_emit _).shifts.bind fun _ => ?_
  refine (rests_view _).shifts.bind fun _ => ?_
  refine (Rests.onMachine _).shifts.bind fun _ => ?_
  refine (shifts_leaveScope hscopes).bind fun _ => ?_
  exact (Rests.onMachine _).shifts

theorem moves_functionBody {declarations : List Declaration} {body : List Stmt}
    {rest : List Token.Kind} {inner : Env} {stores cores : List Core.Stmt} (hscopes : p.scopes ≠ [])
    (hgrammatical : (Stmt.block declarations body).isGrammatical)
    (hahead : a.ahead = (Stmt.block declarations body).tokens ++ rest)
    (hframe : a.frame.used ≤ a.frame.greatest)
    (hstores : Syntax.resolveDeclarators? a.env a.frame.used a.dataHere
      (declarations.flatMap Declaration.declarators) = some (inner, stores))
    (hcores : Stmt.resolveBody? inner
      (a.frame.used + (declarations.flatMap Declaration.declarators).length)
      (a.dataHere +
        (Syntax.declaratorData (declarations.flatMap Declaration.declarators)).length) body =
          some cores) :
    Moves origin a (At p offsets) functionBody
      (At (Stmt.bodyBehind body (p.declareAll (Syntax.declaredNames declarations)))
        (offsets ++ (Stmt.block declarations body).slots a.frame.used)) := by
  have htokens : a.ahead = .punctuator .leftBrace ::
      (declarations.flatMap Declaration.tokens ++ Stmt.bodyTokens body ++
        .punctuator .rightBrace :: rest) := by
    rw [hahead]
    simp [Stmt.tokens]
  refine does_openRule.rests (rests_openRule _) ?_
  refine (does_expect htokens).rests (rests_expect _) ?_
  let entered := a.after (declarations.flatMap Declaration.tokens ++ Stmt.bodyTokens body ++
    .punctuator .rightBrace :: rest) [] []
  have hdataHere : entered.dataHere = a.dataHere := by
    rw [Sketch.dataHere_after]
    rfl
  refine (moves_blockContents (a := entered) performs_statement passes_statement hscopes
    hgrammatical rfl (Nat.lt_succ_self _) hframe (hdataHere.symm ▸ hstores)
    (hdataHere.symm ▸ hcores)).bind fun _ => ?_
  exact ((rests_expect _).bind fun _ => rests_closeRule).shifts

/-- A function behind its name. `bindFunction` has to accept it. -/
theorem moves_function {type : TypeName} {name : String} {position : Position}
    {list : Syntax.Parameters} {declarations : List Declaration} {body : List Stmt}
    {rest : List Token.Kind} {globals : Syntax.Scope Core.Binding} {awaiting : List String}
    {statements : List Core.Stmt} (houtside : a.env.locals = []) (hscopes : p.scopes = [])
    (hgrammatical : (Stmt.block declarations body).isGrammatical)
    (hahead : a.ahead = .punctuator .leftParen :: (list.tokens ++ .punctuator .rightParen ::
      ((Stmt.block declarations body).tokens ++ rest)))
    (hbind : ∀ (b : Sketch) (symbol : Symbol), b.env = a.env → b.awaiting = a.awaiting →
      symbol.name = name → symbol.cls = .function → symbol.defined = true →
      symbol.value = Word.ofCount b.here →
      Does origin b (bindFunction symbol list.names.length) () (b.defined name globals awaiting))
    (hresolve : Syntax.resolveFunction? globals a.dataHere list.names declarations body =
      some statements) :
    Moves origin a (At p offsets) (function type name position)
      (At (Stmt.bodyBehind body ((p.enter.declareAll list.names).declareAll
          (Syntax.declaredNames declarations))).leave
        (offsets ++ (parameterOffsets list.names.length ++
          (Stmt.block declarations body).slots 0))) := by
  obtain ⟨scope, inner, stores, cores, hscope, hstores, hcores, rfl⟩ :=
    Syntax.resolveFunction?_eq_some.1 hresolve
  refine (reaches_parameters hahead).rests rests_parameters ?_
  rintro found _ ⟨hnames, rfl⟩
  refine does_atMark.rests (rests_atMark _) ?_
  rw [if_neg (by simp [Sketch.current, Stmt.tokens])]
  refine does_here.rests (Repeats.rests repeats_here) ?_
  rw [prologue_bind]
  let opened := a.after ((Stmt.block declarations body).tokens ++ rest) [] []
  have hprologue : Shifts (At p offsets) _ _ := shifts_prologue hscopes
    { name, cls := .function, type, value := Word.ofCount opened.here, position } found
  rw [hnames, show found.length = list.names.length by rw [← hnames, List.length_map]] at hprologue
  refine (does_prologue (a := opened) houtside hnames (hbind opened _ rfl rfl rfl rfl rfl rfl)
    hscope).moves hprologue.moves ?_
  have hdataHere : (opened.entered name scope globals awaiting).dataHere = a.dataHere :=
    (opened.dataHere_entered _ _ _ _).trans Sketch.dataHere_after
  rw [← hdataHere] at hstores hcores
  have hinside : (p.enter.declareAll list.names).scopes ≠ [] := by
    rw [Point.scopes_declareAll]
    exact List.cons_ne_nil _ _
  have hbehind : (Stmt.bodyBehind body ((p.enter.declareAll list.names).declareAll
      (Syntax.declaredNames declarations))).scopes ≠ [] := by
    rw [Stmt.scopes_bodyBehind, Point.scopes_declareAll]
    exact hinside
  rw [← List.append_assoc]
  refine (moves_functionBody (a := opened.entered name scope globals awaiting) hinside hgrammatical
    rfl (Nat.le_refl _) hstores hcores).bind fun _ => ?_
  exact shifts_epilogue hbehind _ _ _ _

/-- A function that joins the outline. -/
theorem moves_outlinedFunction {type : TypeName} {name : String} {position : Position}
    {list : Syntax.Parameters} {declarations : List Declaration} {body : List Stmt}
    {rest : List Token.Kind} {statements : List Core.Stmt} (hscopes : p.scopes = [])
    (hgrammatical : (Stmt.block declarations body).isGrammatical)
    (hdefine : outline.define? name list.names.length = some outline')
    (hresolve : Syntax.resolveFunction? outline'.globals (data + outline'.data.length) list.names
      declarations body = some statements) :
    Moves origin
      (outlined text data frame outline (.punctuator .leftParen :: (list.tokens ++
        .punctuator .rightParen :: ((Stmt.block declarations body).tokens ++ rest))))
      (At p offsets) (function type name position)
      (At (Stmt.bodyBehind body ((p.enter.declareAll list.names).declareAll
          (Syntax.declaredNames declarations))).leave
        (offsets ++ (parameterOffsets list.names.length ++
          (Stmt.block declarations body).slots 0))) := by
  rw [(sections_of_define? hdefine).2] at hresolve
  exact moves_function rfl hscopes hgrammatical rfl
    (fun _ _ henv hawaiting hname hcls hdefined hvalue =>
      reaches_bindFunction henv hawaiting hdefine hname hcls hdefined hvalue) hresolve

theorem moves_prototype {type : TypeName} {name : String} {position : Position}
    {list : Syntax.Parameters} {rest : List Token.Kind} (hscopes : p.scopes = []) :
    Moves origin
      (outlined text data frame outline (.punctuator .leftParen :: (list.tokens ++
        .punctuator .rightParen :: .punctuator .semicolon :: rest)))
      (At p offsets) (function type name position) (At p offsets) := by
  refine (reaches_parameters rfl).rests rests_parameters ?_
  rintro found _ ⟨hnames, rfl⟩
  rw [outlined_after]
  refine (does_atMark_of_ahead rfl).rests (rests_atMark _) ?_
  refine (does_advance rfl).rests rests_advance ?_
  exact ((shifts_declare_global hscopes _).bind fun _ => (Rests.pure ()).shifts).moves

/-! ## Variables and enumerations -/

theorem rests_initializer (address : Nat) : Rests (initializer address) :=
  (rests_view _).bind fun _ => (rests_patchHere _).bind fun _ => rests_expression.bind fun _ =>
    (rests_emit _).bind fun _ => (Repeats.rests (repeats_emitWith _ _)).bind fun _ =>
      (rests_emit _).bind fun _ => (rests_emitPending _).bind fun _ => .update (by intro; rfl)

theorem moves_globalVariable {type : TypeName} {declarator : Declarator} {rest : List Token.Kind}
    {rounds : Nat} (hscopes : p.scopes = []) (hgrammatical : declarator.isGrammatical)
    (hcloses : Closes 0 rest) (hequal : rest.head? ≠ some (.punctuator .equal))
    (hparen : rest.head? ≠ some (.punctuator .leftParen))
    (hvariable : outline.addVariable? data declarator = some outline')
    (hnext : Moves origin (outlined text data frame outline' rest) (At p offsets)
      (atMark .comma >>= fun more =>
        if more then advance >>= fun _ => globalNames type rounds else expectMark .semicolon)
      post) :
    Moves origin (outlined text data frame outline (declarator.tokens ++ rest)) (At p offsets)
      (globalNames type (rounds + 1)) post := by
  obtain ⟨name, initial⟩ := declarator
  obtain ⟨globals, hdeclare, hinitial⟩ := Outline.addVariable?_cases hvariable
  have htokens : ∃ behind, (Declarator.mk name initial).tokens ++ rest =
      .identifier name :: behind ∧ behind.head? ≠ some (.punctuator .leftParen) := by
    cases initial with
    | none => exact ⟨rest, rfl, hparen⟩
    | some value => exact ⟨.punctuator .equal :: (value.tokens ++ rest), rfl, by simp⟩
  obtain ⟨behind, hbehind, hfunction⟩ := htokens
  refine (reaches_expectIdentifier hbehind).rests (Repeats.rests repeats_expectIdentifier) ?_
  rintro ⟨found, position⟩ _ ⟨hfound, rfl⟩
  change found = name at hfound
  subst hfound
  rw [outlined_after]
  refine (does_atMark_of_ne hfunction).rests (rests_atMark _) ?_
  refine does_allocate.rests (Rests.onMachine _) ?_
  refine (@reaches_declareGlobal _ _ _ (.object (.global (data + outline.data.length))) _ rfl
    hdeclare ⟨rfl, rfl, rfl⟩ Symbol.Class.noConfusion).moves
      (shifts_declare_global hscopes _).moves ?_
  rintro symbol a rfl
  let declared : Outline := { outline with globals, data := outline.data ++ [0] }
  have hsketch : ({ (outlined text data frame outline behind).after behind [] [0] with
      env := { outline.env with globals } } : Sketch) =
      outlined text data frame declared behind := by
    simp [outlined, declared, Sketch.after, Outline.env]
  change Moves origin { (outlined text data frame outline behind).after behind [] [0] with
      env := { outline.env with globals } } _ _ _
  rw [hsketch]
  rcases hinitial with ⟨rfl, rfl⟩ | ⟨value, resolved, rfl, hresolve, rfl⟩
  · cases hbehind
    exact (does_atMark_of_ne hequal).rests (rests_atMark _) hnext
  · cases hbehind
    refine (does_atMark_of_ahead rfl).rests (rests_atMark _) ?_
    refine (does_advance rfl).rests rests_advance ?_
    rw [outlined_after]
    exact (does_initializer hgrammatical hcloses hresolve).rests (rests_initializer _) hnext

theorem moves_globalVariables {type : TypeName} {rest : List Token.Kind} (hscopes : p.scopes = [])
    (before : List Declarator) :
    ∀ (outline : Outline) (rounds : Nat), before.all Declarator.isGrammatical →
      (leadingTokens before ++ rest).length < rounds →
      outline.variables? data before = some outline' →
      (∀ rounds, rest.length < rounds →
        Moves origin (outlined text data frame outline' rest) (At p offsets)
          (globalNames type rounds) post) →
      Moves origin (outlined text data frame outline (leadingTokens before ++ rest))
        (At p offsets) (globalNames type rounds) post := by
  induction before with
  | nil =>
      intro outline rounds _ hrounds hvariables hnext
      cases hvariables
      exact hnext rounds hrounds
  | cons declarator others ih =>
      intro outline rounds hgrammatical hrounds hvariables hnext
      rw [List.all_cons, Bool.and_eq_true] at hgrammatical
      obtain ⟨next, hvariable, hothers⟩ := Option.bind_eq_some_iff.1 hvariables
      have htokens : leadingTokens (declarator :: others) ++ rest =
          declarator.tokens ++ .punctuator .comma ::
            (leadingTokens others ++ rest) := by
        simp [leadingTokens]
      rw [htokens] at hrounds ⊢
      rw [List.length_append, List.length_cons] at hrounds
      obtain ⟨rounds, rfl⟩ : ∃ more, rounds = more + 1 := ⟨rounds - 1, by omega⟩
      refine moves_globalVariable hscopes hgrammatical.1 (Syntax.closes_mark (by decide)) (by simp)
        (by simp) hvariable ?_
      refine (does_atMark_of_ahead rfl).rests (rests_atMark _) ?_
      refine (does_advance rfl).rests rests_advance ?_
      rw [outlined_after]
      exact ih next rounds hgrammatical.2 (by omega) hothers hnext

theorem moves_globalNames_variables {declaration : Declaration} {rest : List Token.Kind}
    {rounds : Nat} (hscopes : p.scopes = []) (hgrammatical : declaration.isGrammatical)
    (hrounds : (Syntax.separated (declaration.declarators.map Declarator.tokens) ++
      .punctuator .semicolon :: rest).length < rounds)
    (hvariables : outline.variables? data declaration.declarators = some outline') :
    Moves origin
      (outlined text data frame outline
        (Syntax.separated (declaration.declarators.map Declarator.tokens) ++
          .punctuator .semicolon :: rest))
      (At p offsets) (globalNames declaration.type rounds) (At p offsets) := by
  obtain ⟨front, last, hlast⟩ : ∃ front last, declaration.declarators = front ++ [last] :=
    ⟨_, _, (List.dropLast_append_getLast (List.cons_ne_nil declaration.first declaration.rest)).symm⟩
  rw [Declaration.isGrammatical, hlast, List.all_append, Bool.and_eq_true] at hgrammatical
  rw [hlast, variables?_append] at hvariables
  obtain ⟨next, hfront, hback⟩ := Option.bind_eq_some_iff.1 hvariables
  rw [hlast, separated_concat, List.append_assoc] at hrounds ⊢
  refine moves_globalVariables hscopes front outline rounds hgrammatical.1 hrounds hfront ?_
  intro rounds hrounds
  obtain ⟨rounds, rfl⟩ : ∃ more, rounds = more + 1 := ⟨rounds - 1, by omega⟩
  obtain ⟨final, hvariable, heq⟩ := Option.bind_eq_some_iff.1 hback
  cases heq
  refine moves_globalVariable hscopes (by simpa using hgrammatical.2)
    (Syntax.closes_mark (by decide)) (by simp) (by simp) hvariable ?_
  refine (does_atMark_of_ne (by simp [outlined])).rests (rests_atMark _) ?_
  exact (rests_expect _).shifts.moves

theorem rests_constant : Rests constant := by
  have hend (negative : Bool) : Rests (literalValue negative) := by
    refine (Repeats.rests repeats_peek).bind fun kind => ?_
    have hbehind (value : Word) : Rests (advance >>= fun _ =>
        pure (if negative then -value else value) : Compile Word) :=
      rests_advance.bind fun _ => .pure _
    cases kind with
    | number value => exact (Rests.pure value).bind hbehind
    | character c => exact (Rests.pure (Word.ofCount c.toNat)).bind hbehind
    | _ => exact (Repeats.rests (repeats_unexpected .constant)).bind hbehind
  exact (rests_atMark _).bind fun negative =>
    .ite (rests_advance.bind fun _ => hend negative) (hend negative)

theorem shifts_enumerators (hscopes : p.scopes = []) (rounds : Nat) :
    ∀ value, Shifts (At p offsets) (enumerators value rounds) (At p offsets) := by
  induction rounds with
  | zero => exact fun _ => (Rests.throw _).shifts
  | succ rounds ih =>
      intro value
      have hdeclare (name : String) (position : Position) (value : Word) :
          Shifts (At p offsets)
            (declare { name, cls := .constant, type := .int, value, position } >>= fun _ =>
              atMark .comma >>= fun more =>
                if more then advance >>= fun _ => enumerators (value + 1) rounds else pure ())
            (At p offsets) := by
        refine (shifts_declare_global hscopes _).bind fun _ => ?_
        refine (rests_atMark _).shifts.bind fun more => ?_
        cases more with
        | false => exact (Rests.pure ()).shifts
        | true => exact rests_advance.shifts.bind fun _ => ih _
      refine (rests_atMark _).shifts.bind fun found => ?_
      cases found with
      | true => exact (Rests.pure ()).shifts
      | false =>
          refine (Repeats.rests repeats_expectIdentifier).shifts.bind fun name => ?_
          refine (rests_atMark _).shifts.bind fun equal => ?_
          cases equal with
          | false => exact (Rests.pure value).shifts.bind fun value => hdeclare _ _ value
          | true =>
              exact rests_advance.shifts.bind fun _ => rests_constant.shifts.bind fun value =>
                hdeclare _ _ value

theorem shifts_enumDeclaration (hscopes : p.scopes = []) :
    Shifts (At p offsets) enumDeclaration (At p offsets) := by
  have hend : Shifts (At p offsets) (expectMark .leftBrace >>= fun _ => view (·.bound) >>=
      fun rounds => enumerators 0 rounds >>= fun _ => expectMark .rightBrace >>= fun _ =>
        expectMark .semicolon >>= fun _ => closeRule) (At p offsets) :=
    (rests_expect _).shifts.bind fun _ => (rests_view _).shifts.bind fun rounds =>
      (shifts_enumerators hscopes rounds 0).bind fun _ =>
        ((rests_expect _).bind fun _ => (rests_expect _).bind fun _ => rests_closeRule).shifts
  refine (rests_openRule _).shifts.bind fun _ => (rests_expect _).shifts.bind fun _ => ?_
  refine (Repeats.rests repeats_peek).shifts.bind fun kind => ?_
  cases kind with
  | identifier name => exact rests_advance.shifts.bind fun _ => hend
  | _ => exact (Rests.pure ()).shifts.bind fun _ => hend

/-! ## Files -/

theorem moves_globalNames {type : TypeName} {ahead : List Token.Kind} {q : Point}
    {offsets' : List Word}
    (hnames : ∀ rounds, ahead.length < rounds →
      Moves origin (outlined text data frame outline ahead) (At p offsets)
        (globalNames type rounds) (At q offsets')) :
    Moves origin (outlined text data frame outline (.keyword (.type type) :: ahead)) (At p offsets)
      globalDeclaration (At q offsets') := by
  refine does_atKind.rests (Repeats.rests (repeats_atKind _)) ?_
  rw [if_neg (by simp [Sketch.current, outlined])]
  refine does_openRule.rests (rests_openRule _) ?_
  refine (does_expectType rfl).rests (Repeats.rests repeats_expectType) ?_
  rw [outlined_after]
  refine reaches_bound.rests (rests_view _) ?_
  rintro rounds _ ⟨rfl, hrounds⟩
  exact (hnames rounds hrounds).bind fun _ => rests_closeRule.shifts

theorem moves_heading {heading : Heading} {rest : List Token.Kind} {q : Point}
    {offsets' : List Word} (hscopes : p.scopes = []) (hgrammatical : heading.isGrammatical)
    (hbefore : outline.variables? data heading.before = some outline')
    (hnext : ∀ position, Moves origin (outlined text data frame outline' (.punctuator .leftParen ::
        (heading.parameters.tokens ++ .punctuator .rightParen :: rest))) (At p offsets)
      (function heading.type heading.name position) (At q offsets')) :
    Moves origin (outlined text data frame outline (heading.tokens ++ rest)) (At p offsets)
      globalDeclaration (At q offsets') := by
  have htokens : heading.tokens ++ rest = .keyword (.type heading.type) ::
      (leadingTokens heading.before ++ .identifier heading.name :: .punctuator .leftParen ::
        (heading.parameters.tokens ++ .punctuator .rightParen :: rest)) := by
    simp [Heading.tokens, leadingTokens]
  rw [htokens]
  refine moves_globalNames fun rounds hrounds => ?_
  refine moves_globalVariables hscopes heading.before outline rounds hgrammatical hrounds hbefore ?_
  intro rounds hrounds
  obtain ⟨rounds, rfl⟩ : ∃ more, rounds = more + 1 := ⟨rounds - 1, by omega⟩
  refine (reaches_expectIdentifier rfl).rests (Repeats.rests repeats_expectIdentifier) ?_
  rintro ⟨found, position⟩ _ ⟨hfound, rfl⟩
  change found = heading.name at hfound
  subst hfound
  rw [outlined_after]
  refine (does_atMark_of_ahead rfl).rests (rests_atMark _) ?_
  refine (does_tree fun tree => tree.retag .functionDeclaration).rests (.update (by intro; rfl)) ?_
  exact hnext position

/-- A declaration takes the table to the point behind it. -/
theorem moves_globalDeclaration {item : Item} {rest : List Token.Kind} (hscopes : p.scopes = [])
    (hgrammatical : item.isGrammatical) (hresolve : item.resolve? data outline = some outline') :
    Moves origin (outlined text data frame outline (item.tokens ++ rest)) (At p offsets)
      globalDeclaration (At (item.behind p) (offsets ++ item.offsets)) := by
  cases item with
  | enumeration tag members trailing =>
      refine does_atKind.rests (Repeats.rests (repeats_atKind _)) ?_
      rw [if_pos (by simp [Sketch.current, outlined, Item.tokens])]
      simp only [Item.behind, Item.offsets, List.append_nil]
      exact (shifts_enumDeclaration hscopes).moves
  | objects declaration =>
      have htokens : (Item.objects declaration).tokens ++ rest =
          .keyword (.type declaration.type) ::
            (Syntax.separated (declaration.declarators.map Declarator.tokens) ++
              .punctuator .semicolon :: rest) := by
        simp [Item.tokens, Declaration.tokens]
      rw [htokens]
      simp only [Item.behind, Item.offsets, List.append_nil]
      exact moves_globalNames fun rounds hrounds =>
        moves_globalNames_variables hscopes hgrammatical hrounds hresolve
  | prototype heading =>
      obtain ⟨next, hbefore, hprototype⟩ := Option.bind_eq_some_iff.1 hresolve
      have htokens : (Item.prototype heading).tokens ++ rest =
          heading.tokens ++ .punctuator .semicolon :: rest := by
        simp [Item.tokens]
      rw [htokens]
      simp only [Item.behind, Item.offsets, List.append_nil]
      exact moves_heading hscopes hgrammatical hbefore fun _ => moves_prototype hscopes
  | function heading declarations body =>
      simp only [Item.resolve?, Option.bind_eq_bind, Option.bind_eq_some_iff,
        Option.some.injEq] at hresolve
      obtain ⟨next, hbefore, last, hdefine, statements, hbody, rfl⟩ := hresolve
      rw [Item.isGrammatical, Bool.and_eq_true] at hgrammatical
      have htokens : (Item.function heading declarations body).tokens ++ rest =
          heading.tokens ++ ((Stmt.block declarations body).tokens ++ rest) := by
        simp [Item.tokens]
      rw [htokens]
      exact moves_heading hscopes hgrammatical.1 hbefore fun _ =>
        moves_outlinedFunction hscopes hgrammatical.2 hdefine hbody

theorem moves_globalDeclarations (file : Syntax.File) :
    ∀ (p : Point) (offsets : List Word) (outline : Outline) (frame : Frame) (rounds : Nat),
      p.scopes = [] → file.isGrammatical → file.tokens.length < rounds →
      file.resolve? data outline = some outline' →
      Moves origin (outlined text data frame outline file.tokens) (At p offsets)
        (globalDeclarations rounds) (At (file.behind p) (offsets ++ file.offsets)) := by
  induction file with
  | nil =>
      intro p offsets outline frame rounds _ _ hrounds _
      cases rounds with
      | zero => omega
      | succ rounds =>
          refine does_atKind.rests (Repeats.rests (repeats_atKind _)) ?_
          change Moves _ _ _ (pure ()) (At p (offsets ++ []))
          rw [List.append_nil]
          exact (Rests.pure ()).shifts.moves
  | cons item file ih =>
      intro p offsets outline frame rounds hscopes hgrammatical hrounds hresolve
      obtain ⟨next, hitem, hfile⟩ := Option.bind_eq_some_iff.1 hresolve
      rw [Syntax.File.isGrammatical, List.all_cons, Bool.and_eq_true] at hgrammatical
      cases rounds with
      | zero => omega
      | succ rounds =>
          obtain ⟨keyword, behind, hbehind⟩ := item.tokens_eq_cons
          have htokens : Syntax.File.tokens (item :: file) =
              item.tokens ++ Syntax.File.tokens file := rfl
          rw [htokens] at hrounds ⊢
          rw [List.length_append, hbehind, List.length_cons] at hrounds
          refine does_atKind.rests (Repeats.rests (repeats_atKind _)) ?_
          rw [if_pos (by simp [Sketch.current, outlined, hbehind])]
          obtain ⟨_, hencloses, _⟩ := Point.exists_encloses_item p item
          refine (reaches_globalDeclaration hgrammatical.1 hitem).moves
            (moves_globalDeclaration hscopes hgrammatical.1 hitem) ?_
          rintro _ _ ⟨frame, rfl⟩
          have hrest := ih (item.behind p) (offsets ++ item.offsets) next frame rounds
            (hencloses.scopes.trans hscopes) hgrammatical.2 (by omega) hfile
          rw [List.append_assoc] at hrest
          exact hrest

/-! ## Programs -/

/-- Only such values does the action give. -/
def Gives {α : Type} (action : Compile α) (good : α → Prop) : Prop :=
  ∀ s value s', action s = .ok value s' → good value

theorem Gives.pure {α : Type} {good : α → Prop} {value : α} (h : good value) :
    Gives (pure value) good := by
  rintro s _ _ ⟨⟩
  exact h

theorem Gives.behind {α β : Type} {action : Compile α} {next : α → Compile β} {good : β → Prop}
    (h : ∀ value, Gives (next value) good) : Gives (action >>= next) good := by
  intro s value s' hok
  obtain ⟨first, between, -, hsecond⟩ := bind_eq_ok.1 hok
  exact h first between value s' hsecond

theorem Gives.ite {α : Type} {condition : Prop} [Decidable condition] {first second : Compile α}
    {good : α → Prop} (hfirst : Gives first good) (hsecond : Gives second good) :
    Gives (if condition then first else second) good := by
  by_cases h : condition
  · rwa [if_pos h]
  · rwa [if_neg h]

/-- A program lists the symbols that were there when its file ended. -/
theorem symbols_of_finish {entry : Nat} {s s' : State} {program : Program}
    (hok : finish entry s = .ok program s') :
    program.symbols = s.compiler.symbols.symbols := by
  obtain ⟨table, between, hview, hrest⟩ := bind_eq_ok.1 hok
  have htable : table = s.compiler.symbols := by
    cases hview
    rfl
  rw [← htable]
  refine (show Gives _ fun program : Program =>
    program.symbols = table.symbols from ?_) _ _ _ hrest
  cases table.symbols.find? fun symbol => symbol.cls = .function && !symbol.defined
  all_goals
    repeat' first
      | exact .pure rfl
      | refine .ite ?_ ?_
      | refine .behind fun _ => ?_

/-- What a program is compiled from, up to the end of its file. -/
def declarations : Compile Nat := do
  let entry := (← get).machine.textEnd
  let startup ← emitPending .jmp
  update fun compiler => { compiler with startup }
  globalDeclarations (← view (·.bound))
  return entry

theorem program_eq : program = declarations >>= finish := by
  simp only [program, declarations, bind_assoc, pure_bind]

theorem moves_declarations {file : Syntax.File} (hgrammatical : file.isGrammatical)
    (hresolve : file.resolve? origin.base.dataEnd Outline.empty = some outline) :
    Moves origin (initial origin.base file.tokens) (At .initial []) declarations
      (At (file.behind .initial) file.offsets) := by
  have htextEnd : Rests (get >>= fun s => pure s.machine.textEnd : Compile Nat) := by
    rintro s _ _ ⟨⟩
    rfl
  change Moves origin _ _ ((get >>= fun s => pure s.machine.textEnd : Compile Nat) >>=
    fun entry => emitPending .jmp >>= fun startup =>
      update (fun compiler => { compiler with startup }) >>= fun _ => view (·.bound) >>=
        fun rounds => globalDeclarations rounds >>= fun _ => pure entry) _
  refine does_textEnd.rests htextEnd ?_
  refine does_emitPending.rests (rests_emitPending _) ?_
  refine does_startup.rests (.update (by intro; rfl)) ?_
  refine reaches_bound.rests (rests_view _) ?_
  rintro rounds _ ⟨rfl, hrounds⟩
  exact (moves_globalDeclarations file .initial [] Outline.empty {} rounds rfl hgrammatical hrounds
    hresolve).bind fun _ => (Rests.pure _).shifts

theorem at_initialSymbols : At .initial [] Program.initialSymbols where
  proper := ⟨Nat.le_refl _, nofun, nofun⟩
  indexed := Symbol.Table.indexed_initialSymbols
  scopes := rfl
  last := rfl
  declared := by decide
  offsets := by decide

/-- The table of a compiled program. -/
theorem exists_table {file : Syntax.File} {s s' : State} {found : Program}
    (hgrammatical : file.isGrammatical)
    (hresolve : file.resolve? origin.base.dataEnd Outline.empty = some outline)
    (hfits : (initial origin.base file.tokens).Fits origin s)
    (hsymbols : s.compiler.symbols = Program.initialSymbols)
    (hok : program s = .ok found s') :
    ∃ table, table.symbols = found.symbols ∧ At (file.behind .initial) file.offsets table := by
  rw [program_eq] at hok
  obtain ⟨entry, between, hdeclarations, hfinish⟩ := bind_eq_ok.1 hok
  exact ⟨_, (symbols_of_finish hfinish).symm, moves_declarations hgrammatical hresolve s hfits
    (hsymbols ▸ at_initialSymbols) entry between hdeclarations⟩

end WordC.Compiler
