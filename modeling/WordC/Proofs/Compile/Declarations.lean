import WordC.Proofs.Compile.Bodies
import WordC.Proofs.Target.Draft

/-!
# Declarations are compiled

Between two declarations a compilation is where the outline of the file so far puts it: the outline
says which names there are and which sections have been drafted.
-/

namespace WordC.Compiler

open WordC.Core (Binding Cell Draft Env Place)
open Syntax (Closes Constant Declaration Declarator Enumerator Expr Heading Item Outline Scope Stmt)

variable {α : Type} {origin : Origin} {a b : Sketch} {text data : Nat} {frame : Frame}
  {outline outline' : Outline}

/-- The sketch of a compilation that has read the declarations of an outline. -/
def outlined (text data : Nat) (frame : Frame) (outline : Outline) (ahead : List Token.Kind) :
    Sketch where
  textStart := text
  dataStart := data
  ahead
  env := outline.env
  awaiting := outline.awaiting
  entries := Core.entries (text + 2) outline.sections
  frame
  cells := (Draft.ofSections text outline.sections).cells
  data := outline.data
  startup := text + (Draft.ofSections text outline.sections).front.length

theorem here_outlined {ahead : List Token.Kind} :
    (outlined text data frame outline ahead).here =
      (Draft.ofSections text outline.sections).stop text :=
  rfl

theorem outlined_after {ahead rest : List Token.Kind} :
    (outlined text data frame outline ahead).after rest [] [] =
      outlined text data frame outline rest := by
  simp [outlined, Sketch.after]

/-! ## Variables -/

/-- An outline whose open jump leads to the next instruction. -/
def opened (text data : Nat) (frame : Frame) (outline : Outline) (ahead : List Token.Kind) :
    Sketch :=
  let draft := Draft.ofSections text outline.sections
  { outlined text data frame outline ahead with
    cells := draft.front ++ .known (Word.ofCount (draft.stop text)) :: draft.back }

theorem here_opened {ahead : List Token.Kind} :
    (opened text data frame outline ahead).here =
      (Draft.ofSections text outline.sections).stop text := by
  simp [opened, outlined, Sketch.here, Draft.stop, Draft.cells]

theorem does_patchStartup {ahead : List Token.Kind} :
    Does origin (outlined text data frame outline ahead)
      (patchHere (outlined text data frame outline ahead).startup) ()
      (opened text data frame outline ahead) :=
  does_patchOpen rfl rfl

/-- Computes and stores the initial value of a global, up to the jump behind it. -/
theorem reaches_initialValue {β : Type} {value : Expr} {resolved : Core.Expr}
    {rest : List Token.Kind} {address : Nat} {next : Nat → Compile β} {post : β → Sketch → Prop}
    (hgrammatical : value.isGrammatical) (hahead : a.ahead = value.tokens ++ rest)
    (hcloses : Closes 0 rest) (hresolve : value.resolve? a.env a.dataHere = some resolved)
    (hnext : Reaches origin
      (a.after rest (Core.cells (Core.Section.initializerCode a.here address resolved) ++
        [.known Opcode.jmp.word, .hole]) value.data)
      (next (a.here + Core.size (Core.Section.initializerCode a.here address resolved) + 1)) post) :
    Reaches origin a
      (expression >>= fun _ => emit .push >>= fun _ => emitWith .imm (Word.ofCount address) >>=
        fun _ => emit .si >>= fun _ => emitPending .jmp >>= next) post := by
  refine (does_expression hgrammatical hahead hcloses hresolve).bind ?_
  refine does_emit.bind ?_
  refine does_emitWith.bind ?_
  refine does_emit.bind ?_
  refine does_emitPending.bind ?_
  convert hnext using 1
  · simp [Sketch.value, Core.Section.initializerCode, Core.Place.store, Core.Place.isLocal,
      Core.Place.operand]
  · simp [Sketch.value, Core.Section.initializerCode, Core.Place.store, Core.Place.isLocal,
      Core.Place.operand, Core.length_cells, Nat.add_assoc]

/-- An initializer joins the start-up code. -/
theorem does_initializer {value : Expr} {resolved : Core.Expr} {rest : List Token.Kind}
    {address : Nat} (hgrammatical : value.isGrammatical) (hcloses : Closes 0 rest)
    (hresolve : value.resolve? outline.env (data + outline.data.length) = some resolved) :
    Does origin (outlined text data frame outline (value.tokens ++ rest)) (initializer address) ()
      (outlined text data frame
        { outline with
          sections := outline.sections ++ [.initializer address resolved]
          data := outline.data ++ value.data } rest) := by
  refine does_viewStartup.bind ?_
  refine does_patchStartup.bind ?_
  refine reaches_initialValue hgrammatical rfl hcloses hresolve ?_
  refine does_startup.reaches ⟨rfl, ?_⟩
  rw [here_opened]
  apply Sketch.ext
  all_goals try rfl
  · change _ = Core.entries (text + 2) (outline.sections ++ [.initializer address resolved])
    rw [Core.entries_append]
    exact (List.append_nil _).symm
  · simp [outlined, opened, Sketch.after, Draft.ofSections_append, Draft.add, Draft.cells]
  · simp [outlined, Draft.ofSections_append, Draft.add, Draft.stop, Draft.cells,
      Core.length_cells]
    omega

/-- One variable of a global declaration. -/
theorem reaches_globalVariable {type : TypeName} {declarator : Declarator} {rest : List Token.Kind}
    {rounds : Nat} {post : Unit → Sketch → Prop} (hgrammatical : declarator.isGrammatical)
    (hcloses : Closes 0 rest) (hequal : rest.head? ≠ some (.punctuator .equal))
    (hparen : rest.head? ≠ some (.punctuator .leftParen))
    (hvariable : outline.addVariable? data declarator = some outline')
    (hnext : Reaches origin (outlined text data frame outline' rest)
      (atMark .comma >>= fun more =>
        if more then advance >>= fun _ => globalNames type rounds else expectMark .semicolon)
      post) :
    Reaches origin (outlined text data frame outline (declarator.tokens ++ rest))
      (globalNames type (rounds + 1)) post := by
  obtain ⟨name, initial⟩ := declarator
  obtain ⟨globals, hdeclare, hinitial⟩ := Outline.addVariable?_cases hvariable
  have htokens : ∃ behind, (Declarator.mk name initial).tokens ++ rest =
      .identifier name :: behind ∧ behind.head? ≠ some (.punctuator .leftParen) := by
    cases initial with
    | none => exact ⟨rest, rfl, hparen⟩
    | some value => exact ⟨.punctuator .equal :: (value.tokens ++ rest), rfl, by simp⟩
  obtain ⟨behind, hbehind, hfunction⟩ := htokens
  refine (reaches_expectIdentifier hbehind).bind ?_
  rintro ⟨found, position⟩ _ ⟨hfound, rfl⟩
  change found = name at hfound
  subst hfound
  rw [outlined_after]
  refine (does_atMark_of_ne hfunction).bind ?_
  refine does_allocate.bind ?_
  refine (@reaches_declareGlobal _ _ _ (.object (.global (data + outline.data.length))) _ rfl
    hdeclare ⟨rfl, rfl, rfl⟩ Symbol.Class.noConfusion).bind ?_
  rintro symbol a rfl
  let declared : Outline := { outline with globals, data := outline.data ++ [0] }
  have hsketch : ({ (outlined text data frame outline behind).after behind [] [0] with
      env := { outline.env with globals } } : Sketch) =
      outlined text data frame declared behind := by
    simp [outlined, declared, Sketch.after, Outline.env]
  change Reaches origin { (outlined text data frame outline behind).after behind [] [0] with
      env := { outline.env with globals } } _ _
  rw [hsketch]
  rcases hinitial with ⟨rfl, rfl⟩ | ⟨value, resolved, rfl, hresolve, rfl⟩
  · cases hbehind
    refine (does_atMark_of_ne hequal).bind ?_
    exact hnext
  · cases hbehind
    refine (does_atMark_of_ahead rfl).bind ?_
    refine (does_advance rfl).bind ?_
    rw [outlined_after]
    refine (does_initializer hgrammatical hcloses hresolve).bind ?_
    exact hnext

/-- Variables with a comma behind each. -/
def leadingTokens (before : List Declarator) : List Token.Kind :=
  before.flatMap (·.tokens ++ [.punctuator .comma])

/-- Variables are compiled in front of what follows. -/
theorem reaches_globalVariables {type : TypeName} {rest : List Token.Kind}
    {post : Unit → Sketch → Prop} (before : List Declarator) :
    ∀ (outline : Outline) (rounds : Nat), before.all Declarator.isGrammatical →
      (leadingTokens before ++ rest).length < rounds →
      outline.variables? data before = some outline' →
      (∀ rounds, rest.length < rounds →
        Reaches origin (outlined text data frame outline' rest) (globalNames type rounds) post) →
      Reaches origin
        (outlined text data frame outline
          (leadingTokens before ++ rest))
        (globalNames type rounds) post := by
  induction before with
  | nil =>
      intro outline rounds _ hrounds hvariables hnext
      cases hvariables
      exact hnext rounds hrounds
  | cons declarator others ih =>
      intro outline rounds hgrammatical hrounds hvariables hnext
      rw [List.all_cons, Bool.and_eq_true] at hgrammatical
      obtain ⟨next, hvariable, hothers⟩ := Option.bind_eq_some_iff.1 hvariables
      have htokens : leadingTokens (declarator :: others) ++ rest =
          declarator.tokens ++ .punctuator .comma ::
            (leadingTokens others ++ rest) := by
        simp [leadingTokens]
      rw [htokens] at hrounds ⊢
      rw [List.length_append, List.length_cons] at hrounds
      obtain ⟨rounds, rfl⟩ : ∃ more, rounds = more + 1 := ⟨rounds - 1, by omega⟩
      refine reaches_globalVariable hgrammatical.1 (Syntax.closes_mark (by decide)) (by simp)
        (by simp) hvariable ?_
      refine (does_atMark_of_ahead rfl).bind ?_
      refine (does_advance rfl).bind ?_
      rw [outlined_after]
      exact ih next rounds hgrammatical.2 (by omega) hothers hnext

theorem separated_concat (front : List Declarator) (last : Declarator) :
    Syntax.separated ((front ++ [last]).map Declarator.tokens) =
      leadingTokens front ++ last.tokens := by
  have hfurther : ∀ front : List Declarator,
      Syntax.further ((front ++ [last]).map Declarator.tokens) =
        .punctuator .comma :: (leadingTokens front ++ last.tokens) := by
    intro front
    induction front with
    | nil => simp [Syntax.further, leadingTokens]
    | cons part front ih =>
        rw [List.cons_append, List.map_cons, Syntax.further, List.flatMap_cons]
        rw [show List.flatMap (.punctuator .comma :: ·) ((front ++ [last]).map Declarator.tokens) =
          Syntax.further ((front ++ [last]).map Declarator.tokens) from rfl, ih]
        simp [leadingTokens]
  cases front with
  | nil => simp [Syntax.separated, Syntax.further, leadingTokens]
  | cons part front =>
      rw [List.cons_append, List.map_cons, Syntax.separated, hfurther]
      simp [leadingTokens]

theorem variables?_append {front back : List Declarator} {outline : Outline} :
    outline.variables? data (front ++ back) =
      (outline.variables? data front).bind (Outline.variables? data · back) := by
  induction front generalizing outline with
  | nil => rfl
  | cons declarator front ih =>
      rw [List.cons_append, Outline.variables?, Outline.variables?]
      cases outline.addVariable? data declarator with
      | none => rfl
      | some next => exact ih

theorem does_globalNames_variables {declaration : Declaration} {rest : List Token.Kind}
    {rounds : Nat} (hgrammatical : declaration.isGrammatical)
    (hrounds : (Syntax.separated (declaration.declarators.map Declarator.tokens) ++
      .punctuator .semicolon :: rest).length < rounds)
    (hvariables : outline.variables? data declaration.declarators = some outline') :
    Does origin
      (outlined text data frame outline
        (Syntax.separated (declaration.declarators.map Declarator.tokens) ++
          .punctuator .semicolon :: rest))
      (globalNames declaration.type rounds) () (outlined text data frame outline' rest) := by
  obtain ⟨front, last, hlast⟩ : ∃ front last, declaration.declarators = front ++ [last] :=
    ⟨_, _, (List.dropLast_append_getLast (List.cons_ne_nil declaration.first declaration.rest)).symm⟩
  rw [Declaration.isGrammatical, hlast, List.all_append, Bool.and_eq_true] at hgrammatical
  rw [hlast, variables?_append] at hvariables
  obtain ⟨next, hfront, hback⟩ := Option.bind_eq_some_iff.1 hvariables
  rw [hlast, separated_concat, List.append_assoc] at hrounds ⊢
  refine reaches_globalVariables front outline rounds hgrammatical.1 hrounds hfront ?_
  intro rounds hrounds
  obtain ⟨rounds, rfl⟩ : ∃ more, rounds = more + 1 := ⟨rounds - 1, by omega⟩
  obtain ⟨final, hvariable, heq⟩ := Option.bind_eq_some_iff.1 hback
  cases heq
  refine reaches_globalVariable (by simpa using hgrammatical.2) (Syntax.closes_mark (by decide))
    (by simp) (by simp) hvariable ?_
  refine (does_atMark_of_ne (by simp [outlined])).bind ?_
  refine (does_expect rfl).reaches ⟨rfl, ?_⟩
  rw [outlined_after]

/-! ## Functions -/

theorem reaches_bindFunction {name : String} {arity : Nat} {symbol : Symbol}
    (houtside : a.env = outline.env) (hawaiting : a.awaiting = outline.awaiting)
    (hdefine : outline.define? name arity = some outline') (hname : symbol.name = name)
    (hcls : symbol.cls = .function) (hdefined : symbol.defined = true)
    (hvalue : symbol.value = Word.ofCount a.here) :
    Does origin a (bindFunction symbol arity) ()
      (a.defined name outline'.globals outline'.awaiting) := by
  subst hname
  unfold Outline.define? at hdefine
  by_cases hmem : symbol.name ∈ outline.awaiting
  · rw [if_pos hmem] at hdefine
    by_cases hlookup : outline.globals.lookup symbol.name = some (.function arity)
    · rw [if_pos hlookup] at hdefine
      cases hdefine
      have hdoes := @reaches_bindFunction_of_prototype origin a _ _ (by rw [houtside]; rfl)
        (by rw [hawaiting]; exact hmem) (by rw [houtside]; exact hlookup) hvalue
      rw [houtside, hawaiting] at hdoes
      exact hdoes
    · rw [if_neg hlookup] at hdefine
      cases hdefine
  · rw [if_neg hmem] at hdefine
    obtain ⟨globals, hdeclare, heq⟩ := Option.bind_eq_some_iff.1 hdefine
    cases heq
    have hdoes := @reaches_bindFunction_of_new origin a _ _ _ (by rw [houtside]; rfl)
      (by rw [hawaiting]; exact hmem) (by rw [houtside]; exact hdeclare) hcls hdefined hvalue
    rw [hawaiting] at hdoes
    exact hdoes

theorem sections_of_define? {name : String} {arity : Nat}
    (h : outline.define? name arity = some outline') :
    outline'.sections = outline.sections ∧ outline'.data = outline.data := by
  unfold Outline.define? at h
  by_cases hmem : name ∈ outline.awaiting
  · rw [if_pos hmem] at h
    by_cases hlookup : outline.globals.lookup name = some (.function arity)
    · rw [if_pos hlookup] at h
      cases h
      exact ⟨rfl, rfl⟩
    · rw [if_neg hlookup] at h
      cases h
  · rw [if_neg hmem] at h
    obtain ⟨globals, _, heq⟩ := Option.bind_eq_some_iff.1 h
    cases heq
    exact ⟨rfl, rfl⟩

/-- A function joins the sections behind the start-up code. -/
theorem reaches_outlinedFunction {type : TypeName} {name : String} {position : Position}
    {list : Syntax.Parameters} {declarations : List Declaration} {body : List Stmt}
    {rest : List Token.Kind} {statements : List Core.Stmt}
    (hgrammatical : (Stmt.block declarations body).isGrammatical)
    (hdefine : outline.define? name list.names.length = some outline')
    (hresolve : Syntax.resolveFunction? outline'.globals (data + outline'.data.length) list.names
      declarations body = some statements) :
    Reaches origin
      (outlined text data frame outline (.punctuator .leftParen :: (list.tokens ++
        .punctuator .rightParen :: ((Stmt.block declarations body).tokens ++ rest))))
      (function type name position) fun _ b => ∃ frame', b = outlined text data frame'
        { outline' with
          sections := outline'.sections ++
            [.function name list.names.length ((Stmt.block declarations body).peak 0)
              (.ofList statements)]
          data := outline'.data ++ (Stmt.block declarations body).data } rest := by
  obtain ⟨hsections, hdata⟩ := sections_of_define? hdefine
  rw [hdata] at hresolve
  let finished : Frame :=
    { used := (declarations.flatMap Declaration.declarators).length
      greatest := (Stmt.block declarations body).peak 0 }
  refine (@reaches_function _ _ _ _ _ _ _ _ _ _ outline'.awaiting _ rfl hgrammatical rfl ?_
    hresolve).reaches ⟨finished, ?_⟩
  · intro b symbol henv hawaiting hname hcls hdefined hvalue
    exact reaches_bindFunction henv hawaiting hdefine hname hcls hdefined hvalue
  · apply Sketch.ext
    all_goals try rfl
    · change _ = Core.entries (text + 2) (outline'.sections ++ _)
      rw [hsections, Core.entries_append, ← Draft.stop_ofSections]
      rfl
    · rw [Sketch.completed, here_outlined]
      simp [outlined, Sketch.after, hsections, Draft.ofSections_append, Draft.add, Draft.cells]
    · simp [outlined, Sketch.completed, Sketch.after, hdata]
    · change _ = text + (Draft.ofSections text (outline'.sections ++ _)).front.length
      rw [hsections, Draft.ofSections_append]
      rfl

theorem does_prototype {type : TypeName} {name : String} {position : Position}
    {list : Syntax.Parameters} {rest : List Token.Kind}
    (hprototype : outline.prototype? name list.names.length = some outline') :
    Does origin
      (outlined text data frame outline (.punctuator .leftParen :: (list.tokens ++
        .punctuator .rightParen :: .punctuator .semicolon :: rest)))
      (function type name position) () (outlined text data frame outline' rest) := by
  obtain ⟨globals, hdeclare, heq⟩ := Option.bind_eq_some_iff.1 hprototype
  cases heq
  refine (reaches_parameters rfl).bind ?_
  rintro found _ ⟨hnames, rfl⟩
  have harity : found.length = list.names.length := by
    rw [← hnames, List.length_map]
  rw [outlined_after]
  refine (does_atMark_of_ahead rfl).bind ?_
  refine (does_advance rfl).bind ?_
  rw [outlined_after]
  refine (reaches_declarePrototype rfl hdeclare rfl
    (congrArg some harity) rfl).bind ?_
  rintro symbol _ rfl
  exact Does.pure

/-- The name of a function is told from that of a variable by the parenthesis behind it. -/
theorem reaches_globalNames_function {type : TypeName} {name : String} {rest : List Token.Kind}
    {rounds : Nat} {post : Unit → Sketch → Prop}
    (hnext : ∀ position, Reaches origin
      (outlined text data frame outline (.punctuator .leftParen :: rest))
      (function type name position) post) :
    Reaches origin
      (outlined text data frame outline (.identifier name :: .punctuator .leftParen :: rest))
      (globalNames type (rounds + 1)) post := by
  refine (reaches_expectIdentifier rfl).bind ?_
  rintro ⟨found, position⟩ _ ⟨hfound, rfl⟩
  change found = name at hfound
  subst hfound
  rw [outlined_after]
  refine (does_atMark_of_ahead rfl).bind ?_
  refine (does_tree fun tree => tree.retag .functionDeclaration).bind ?_
  exact hnext position

/-! ## Enumerations -/

/-- A constant behind its sign. -/
def literalValue (negative : Bool) : Compile Word := do
  let value ←
    match ← peek with
    | .number value => pure value
    | .character c => pure (Word.ofCount c.toNat)
    | _ => unexpected .constant
  advance
  return if negative then -value else value

theorem does_constant {constant : Constant} {rest : List Token.Kind}
    (hahead : a.ahead = constant.tokens ++ rest) :
    Does origin a Compiler.constant constant.value (a.after rest [] []) := by
  obtain ⟨negative, literal⟩ := constant
  have hliteral : ∀ b : Sketch, b.ahead = literal.kind :: rest →
      Does origin b (literalValue negative) (Constant.mk negative literal).value
        (b.after rest [] []) := by
    intro b hb
    refine does_peek.bind ?_
    rw [Sketch.current_of_ahead hb]
    cases literal with
    | number value => exact Does.pure.bind ((does_advance hb).bind Does.pure)
    | character c => exact Does.pure.bind ((does_advance hb).bind Does.pure)
  refine does_atMark.bind ?_
  cases negative with
  | true =>
      rw [decide_eq_true (Sketch.current_of_ahead hahead)]
      refine (does_advance hahead).bind ?_
      refine (hliteral _ rfl).reaches ⟨rfl, ?_⟩
      rw [Sketch.after_after]
      rfl
  | false =>
      have hminus : a.current ≠ .punctuator .minus := by
        rw [Sketch.current_of_ahead hahead]
        cases literal <;> exact Token.Kind.noConfusion
      rw [decide_eq_false hminus]
      exact hliteral a hahead

/-- One member of an enumeration. -/
theorem reaches_enumerator {enumerator : Enumerator} {value : Word} {globals : Scope Binding}
    {rest : List Token.Kind} {rounds : Nat} {post : Unit → Sketch → Prop}
    (hequal : rest.head? ≠ some (.punctuator .equal))
    (hdeclare : outline.globals.declare? enumerator.name
      (.constant ((enumerator.value.map Constant.value).getD value)) = some globals)
    (hnext : Reaches origin (outlined text data frame { outline with globals } rest)
      (atMark .comma >>= fun more =>
        if more then advance >>= fun _ =>
          enumerators ((enumerator.value.map Constant.value).getD value + 1) rounds
        else pure ()) post) :
    Reaches origin (outlined text data frame outline (enumerator.tokens ++ rest))
      (enumerators value (rounds + 1)) post := by
  obtain ⟨name, constant⟩ := enumerator
  refine (does_atMark_of_ne (by simp [outlined, Enumerator.tokens])).bind ?_
  refine (reaches_expectIdentifier rfl).bind ?_
  rintro ⟨found, position⟩ _ ⟨hfound, rfl⟩
  change found = name at hfound
  subst hfound
  rw [outlined_after]
  cases constant with
  | none =>
      refine (does_atMark_of_ne hequal).bind ?_
      refine Does.pure.bind ?_
      refine (@reaches_declareGlobal _ _ _ (.constant value) _ rfl hdeclare ⟨rfl, rfl⟩
        Symbol.Class.noConfusion).bind ?_
      rintro symbol _ rfl
      exact hnext
  | some constant =>
      refine (does_atMark_of_ahead rfl).bind ?_
      refine (does_advance rfl).bind ?_
      rw [outlined_after]
      refine (does_constant rfl).bind ?_
      rw [outlined_after]
      refine (@reaches_declareGlobal _ _ _ (.constant constant.value) _ rfl hdeclare ⟨rfl, rfl⟩
        Symbol.Class.noConfusion).bind ?_
      rintro symbol _ rfl
      exact hnext

theorem does_enumerators (members : List Enumerator) :
    ∀ (outline : Outline) (trailing : Bool) (value : Word) (rest : List Token.Kind)
      (rounds : Nat), (trailing → members ≠ []) →
      (Syntax.separated (members.map Enumerator.tokens)).length < rounds →
      outline.enumerators? value members = some outline' →
      Does origin
        (outlined text data frame outline (Syntax.separated (members.map Enumerator.tokens) ++
          ((if trailing then [.punctuator .comma] else []) ++ .punctuator .rightBrace :: rest)))
        (enumerators value rounds) ()
        (outlined text data frame outline' (.punctuator .rightBrace :: rest)) := by
  induction members with
  | nil =>
      intro outline trailing value rest rounds htrailing hrounds hmembers
      cases hmembers
      have hnone : trailing = false := by
        cases trailing with
        | false => rfl
        | true => exact absurd rfl (htrailing rfl)
      subst hnone
      cases rounds with
      | zero => omega
      | succ rounds =>
          exact (does_atMark_of_ahead rfl).bind Does.pure
  | cons member others ih =>
      intro outline trailing value rest rounds _ hrounds hmembers
      obtain ⟨globals, hdeclare, hothers⟩ := Option.bind_eq_some_iff.1 hmembers
      cases rounds with
      | zero => omega
      | succ rounds =>
          cases others with
          | nil =>
              cases hothers
              have htokens : Syntax.separated ([member].map Enumerator.tokens) = member.tokens := by
                simp [Syntax.separated, Syntax.further]
              rw [htokens]
              cases trailing with
              | false =>
                  refine reaches_enumerator (by simp) hdeclare ?_
                  refine (does_atMark_of_ne (by simp [outlined])).bind ?_
                  exact Does.pure
              | true =>
                  refine reaches_enumerator (by simp) hdeclare ?_
                  refine (does_atMark_of_ahead rfl).bind ?_
                  refine (does_advance rfl).bind ?_
                  rw [outlined_after]
                  cases rounds with
                  | zero =>
                      -- The member itself has taken a round.
                      rw [htokens, Enumerator.tokens, List.length_cons] at hrounds
                      omega
                  | succ rounds => exact (does_atMark_of_ahead rfl).bind Does.pure
          | cons second others =>
              have htokens : Syntax.separated ((member :: second :: others).map Enumerator.tokens) =
                  member.tokens ++ .punctuator .comma ::
                    Syntax.separated ((second :: others).map Enumerator.tokens) := by
                simp [Syntax.separated, Syntax.further]
              rw [htokens, List.length_append, List.length_cons] at hrounds
              rw [htokens, List.append_assoc, List.cons_append]
              refine reaches_enumerator (by simp) hdeclare ?_
              refine (does_atMark_of_ahead rfl).bind ?_
              refine (does_advance rfl).bind ?_
              rw [outlined_after]
              exact ih _ trailing _ rest rounds (fun _ => List.cons_ne_nil _ _) (by omega) hothers

theorem does_enumDeclaration {tag : Option String} {members : List Enumerator} {trailing : Bool}
    {rest : List Token.Kind} (hgrammatical : (Item.enumeration tag members trailing).isGrammatical)
    (hmembers : outline.enumerators? 0 members = some outline') :
    Does origin
      (outlined text data frame outline ((Item.enumeration tag members trailing).tokens ++ rest))
      enumDeclaration () (outlined text data frame outline' rest) := by
  have htrailing : trailing → members ≠ [] := by
    rintro htrue rfl
    subst htrue
    cases hgrammatical
  have hbehind : ∀ ahead : List Token.Kind, (Item.enumeration tag members trailing).tokens ++ rest =
      .keyword .enumKw :: ahead → ahead = tag.toList.map Token.Kind.identifier ++
        .punctuator .leftBrace :: (Syntax.separated (members.map Enumerator.tokens) ++
          ((if trailing then [.punctuator .comma] else []) ++
            .punctuator .rightBrace :: .punctuator .semicolon :: rest)) := by
    intro ahead h
    rw [← (List.cons_eq_cons.1 h).2]
    simp
  refine does_openRule.bind ?_
  refine (does_expect rfl).bind ?_
  rw [outlined_after, hbehind _ rfl]
  refine does_peek.bind ?_
  have hopened : Reaches origin
      (outlined text data frame outline (.punctuator .leftBrace ::
        (Syntax.separated (members.map Enumerator.tokens) ++
          ((if trailing then [.punctuator .comma] else []) ++
            .punctuator .rightBrace :: .punctuator .semicolon :: rest))))
      (expectMark .leftBrace >>= fun _ => view (·.bound) >>= fun bound =>
        enumerators 0 bound >>= fun _ => expectMark .rightBrace >>= fun _ =>
          expectMark .semicolon >>= fun _ => closeRule)
      fun result b => result = () ∧ b = outlined text data frame outline' rest := by
    refine (does_expect rfl).bind ?_
    rw [outlined_after]
    refine reaches_bound.bind ?_
    rintro rounds _ ⟨rfl, hrounds⟩
    refine (does_enumerators members outline trailing 0 _ rounds htrailing ?_ hmembers).bind ?_
    · change (Syntax.separated (members.map Enumerator.tokens) ++ _).length < rounds at hrounds
      rw [List.length_append] at hrounds
      omega
    · refine (does_expect rfl).bind ?_
      rw [outlined_after]
      refine (does_expect rfl).bind ?_
      rw [outlined_after]
      exact does_closeRule
  cases tag with
  | none => exact hopened
  | some tag =>
      refine (does_advance rfl).bind ?_
      rw [outlined_after]
      exact hopened

/-! ## Files -/

/-- The compilation has read what an outline says; the frame of the last function is left over. -/
def Outlines (text data : Nat) (outline : Outline) (rest : List Token.Kind) (b : Sketch) : Prop :=
  ∃ frame, b = outlined text data frame outline rest

/-- What the names behind a type reach, the declaration reaches. -/
theorem reaches_globalNames {type : TypeName} {ahead : List Token.Kind}
    {post : Unit → Sketch → Prop}
    (hnames : ∀ rounds, ahead.length < rounds →
      Reaches origin (outlined text data frame outline ahead) (globalNames type rounds) post) :
    Reaches origin (outlined text data frame outline (.keyword (.type type) :: ahead))
      globalDeclaration post := by
  refine does_atKind.bind ?_
  rw [if_neg (by simp [Sketch.current, outlined])]
  refine does_openRule.bind ?_
  refine (does_expectType rfl).bind ?_
  rw [outlined_after]
  refine reaches_bound.bind ?_
  rintro rounds _ ⟨rfl, hrounds⟩
  refine (hnames rounds hrounds).bind ?_
  intro _ b hpost
  exact does_closeRule.reaches hpost

theorem reaches_heading {heading : Heading} {rest : List Token.Kind}
    {post : Unit → Sketch → Prop} (hgrammatical : heading.isGrammatical)
    (hbefore : outline.variables? data heading.before = some outline')
    (hnext : ∀ position, Reaches origin
      (outlined text data frame outline' (.punctuator .leftParen :: (heading.parameters.tokens ++
        .punctuator .rightParen :: rest)))
      (function heading.type heading.name position) post) :
    Reaches origin (outlined text data frame outline (heading.tokens ++ rest)) globalDeclaration
      post := by
  have htokens : heading.tokens ++ rest = .keyword (.type heading.type) ::
      (leadingTokens heading.before ++ .identifier heading.name :: .punctuator .leftParen ::
        (heading.parameters.tokens ++ .punctuator .rightParen :: rest)) := by
    simp [Heading.tokens, leadingTokens]
  rw [htokens]
  refine reaches_globalNames fun rounds hrounds => ?_
  refine reaches_globalVariables heading.before outline rounds hgrammatical hrounds hbefore ?_
  intro rounds hrounds
  obtain ⟨rounds, rfl⟩ : ∃ more, rounds = more + 1 := ⟨rounds - 1, by omega⟩
  exact reaches_globalNames_function hnext

theorem reaches_globalDeclaration {item : Item} {rest : List Token.Kind}
    (hgrammatical : item.isGrammatical) (hresolve : item.resolve? data outline = some outline') :
    Reaches origin (outlined text data frame outline (item.tokens ++ rest)) globalDeclaration
      fun _ b => Outlines text data outline' rest b := by
  cases item with
  | enumeration tag members trailing =>
      refine does_atKind.bind ?_
      rw [if_pos (by simp [Sketch.current, outlined, Item.tokens])]
      exact (does_enumDeclaration hgrammatical hresolve).reaches ⟨frame, rfl⟩
  | objects declaration =>
      have htokens : (Item.objects declaration).tokens ++ rest =
          .keyword (.type declaration.type) ::
            (Syntax.separated (declaration.declarators.map Declarator.tokens) ++
              .punctuator .semicolon :: rest) := by
        simp [Item.tokens, Declaration.tokens]
      rw [htokens]
      refine reaches_globalNames fun rounds hrounds => ?_
      exact (does_globalNames_variables hgrammatical hrounds hresolve).reaches ⟨frame, rfl⟩
  | prototype heading =>
      obtain ⟨next, hbefore, hprototype⟩ := Option.bind_eq_some_iff.1 hresolve
      have htokens : (Item.prototype heading).tokens ++ rest =
          heading.tokens ++ .punctuator .semicolon :: rest := by
        simp [Item.tokens]
      rw [htokens]
      refine reaches_heading hgrammatical hbefore fun position => ?_
      exact (does_prototype hprototype).reaches ⟨frame, rfl⟩
  | function heading declarations body =>
      simp only [Item.resolve?, Option.bind_eq_bind, Option.bind_eq_some_iff,
        Option.some.injEq] at hresolve
      obtain ⟨next, hbefore, last, hdefine, statements, hbody, rfl⟩ := hresolve
      rw [Item.isGrammatical, Bool.and_eq_true] at hgrammatical
      have htokens : (Item.function heading declarations body).tokens ++ rest =
          heading.tokens ++ ((Stmt.block declarations body).tokens ++ rest) := by
        simp [Item.tokens]
      rw [htokens]
      refine reaches_heading hgrammatical.1 hbefore fun position => ?_
      exact reaches_outlinedFunction hgrammatical.2 hdefine hbody

theorem reaches_globalDeclarations (file : Syntax.File) :
    ∀ (outline : Outline) (frame : Frame) (rounds : Nat), file.isGrammatical →
      file.tokens.length < rounds → file.resolve? data outline = some outline' →
      Reaches origin (outlined text data frame outline file.tokens) (globalDeclarations rounds)
        fun _ b => Outlines text data outline' [] b := by
  induction file with
  | nil =>
      intro outline frame rounds _ hrounds hresolve
      cases hresolve
      cases rounds with
      | zero => omega
      | succ rounds =>
          refine does_atKind.bind ?_
          exact Reaches.pure ⟨frame, rfl⟩
  | cons item file ih =>
      intro outline frame rounds hgrammatical hrounds hresolve
      obtain ⟨next, hitem, hfile⟩ := Option.bind_eq_some_iff.1 hresolve
      rw [Syntax.File.isGrammatical, List.all_cons, Bool.and_eq_true] at hgrammatical
      cases rounds with
      | zero => omega
      | succ rounds =>
          obtain ⟨keyword, behind, hbehind⟩ := item.tokens_eq_cons
          have htokens : Syntax.File.tokens (item :: file) =
              item.tokens ++ Syntax.File.tokens file := rfl
          rw [htokens] at hrounds ⊢
          rw [List.length_append, hbehind, List.length_cons] at hrounds
          refine does_atKind.bind ?_
          rw [if_pos (by simp [Sketch.current, outlined, hbehind])]
          refine (reaches_globalDeclaration hgrammatical.1 hitem).bind ?_
          rintro _ _ ⟨frame, rfl⟩
          exact ih next frame rounds hgrammatical.2 (by omega) hfile

end WordC.Compiler
