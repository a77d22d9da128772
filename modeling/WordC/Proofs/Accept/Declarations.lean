import WordC.Proofs.Accept.Statements
import WordC.Proofs.Compile.Programs

/-!
# Accepted declarations

Where the compiler gives a result for a whole text, the text is a file that resolves. Each
declaration is read in front of an outline of those before it, so the outline of the file is found
step by step.
-/

namespace WordC.Compiler

open WordC.Core (Binding Cell Draft Env Place)
open Syntax (Closes Constant Declaration Declarator Enumerator Expr Heading Item Outline Scope Stmt
  declaratorData parameterBindings parameterScope? resolveDeclarators?)

variable {α : Type} {origin : Origin} {a b : Sketch} {text data : Nat} {frame : Frame}
  {outline outline' : Outline}

/-! ## Parameters -/

/-- A parameter behind its type, and those behind a comma. -/
theorem ends_parameterNamed {type : TypeName} {behind : List Token.Kind} {rounds : Nat}
    (hahead : a.ahead = .keyword (.type type) :: behind)
    (hothers : ∀ more : List Token.Kind, more.length < behind.length →
      Ends origin (a.after more [] []) (parameterList false rounds) fun found b =>
        ∃ second others rest, found.map (·.name) = (second :: others).map (·.2) ∧
          more = parameterTokens (second :: others) ++ rest ∧ b = a.after rest [] []) :
    Ends origin (a.after behind [] []) (parameterNamed type rounds) fun found b =>
      ∃ first others rest, found.map (·.name) = (first :: others).map (·.2) ∧
        a.ahead = parameterTokens (first :: others) ++ rest ∧ b = a.after rest [] [] := by
  refine Ends.bind ends_expectIdentifier ?_
  rintro ⟨name, position⟩ _ ⟨rest, hrest, rfl⟩
  rw [Sketch.ahead_after] at hrest
  subst hrest
  rw [Sketch.after_after, List.append_nil, List.append_nil]
  refine ends_atMark ?_ ?_
  · intro more hmore
    rw [Sketch.ahead_after] at hmore
    subst hmore
    refine (does_advance rfl).ends ?_
    rw [Sketch.after_after, List.append_nil]
    refine Ends.bind (hothers more (by simp only [List.length_cons]; omega)) ?_
    rintro found _ ⟨second, others, last, hnames, htokens, rfl⟩
    refine Ends.pure ⟨(type, name), second :: others, last, ?_, ?_, rfl⟩
    · rw [List.map_cons, hnames]
      rfl
    · rw [hahead, parameterTokens_cons, htokens]
      rfl
  · intro _
    refine Ends.pure ⟨(type, name), [], rest, rfl, ?_, rfl⟩
    rw [hahead, parameterTokens_singleton]
    rfl

/-- Parameters with commas between them, or a lone `void`. -/
theorem ends_parameterList (rounds : Nat) :
    ∀ (a : Sketch) (isFirst : Bool), a.ahead.length < rounds →
      Ends origin a (parameterList isFirst rounds) fun found b =>
        ∃ (list : Syntax.Parameters) (rest : List Token.Kind),
        found.map (·.name) = list.names ∧ a.ahead = list.tokens ++ rest ∧
        b = a.after rest [] [] ∧
        (isFirst = false → ∃ first others, list = .list (first :: others)) := by
  induction rounds with
  | zero =>
      intro a _ hrounds
      omega
  | succ rounds ih =>
      intro a isFirst hrounds
      refine Ends.bind ends_expectType ?_
      rintro type _ ⟨behind, hahead, rfl⟩
      rw [hahead, List.length_cons] at hrounds
      have hothers : ∀ more : List Token.Kind, more.length < behind.length →
          Ends origin (a.after more [] []) (parameterList false rounds) fun found b =>
            ∃ second others rest, found.map (·.name) = (second :: others).map (·.2) ∧
              more = parameterTokens (second :: others) ++ rest ∧ b = a.after rest [] [] := by
        intro more hmore
        refine (ih (a.after more [] []) false (by rw [Sketch.ahead_after]; omega)).weaken ?_
        rintro found _ ⟨list, rest, hnames, htokens, rfl, hlist⟩
        obtain ⟨second, others, rfl⟩ := hlist rfl
        exact ⟨second, others, rest, hnames, htokens, Sketch.after_after⟩
      have hlist : Ends origin (a.after behind [] []) (parameterNamed type rounds) fun found b =>
            ∃ (list : Syntax.Parameters) (rest : List Token.Kind),
              found.map (·.name) = list.names ∧ a.ahead = list.tokens ++ rest ∧
              b = a.after rest [] [] ∧
              (isFirst = false → ∃ first others, list = .list (first :: others)) := by
        refine (ends_parameterNamed hahead hothers).weaken ?_
        rintro found _ ⟨first, others, rest, hnames, htokens, rfl⟩
        exact ⟨.list (first :: others), rest, hnames, htokens, rfl, fun _ => ⟨first, others, rfl⟩⟩
      refine ends_atMark ?_ ?_
      · intro rest hrest
        by_cases hvoid : type = .void ∧ isFirst = true ∧ true = true
        · rw [if_pos hvoid]
          obtain ⟨rfl, rfl, -⟩ := hvoid
          exact Ends.pure ⟨.void, behind, rfl, hahead, rfl, Bool.noConfusion⟩
        · rw [if_neg hvoid]
          exact hlist
      · intro _
        rw [if_neg (fun hvoid => Bool.false_ne_true hvoid.2.2)]
        exact hlist

theorem ends_parameters :
    Ends origin a parameters fun found b => ∃ (list : Syntax.Parameters) (rest : List Token.Kind),
      found.map (·.name) = list.names ∧
      a.ahead = .punctuator .leftParen :: (list.tokens ++ .punctuator .rightParen :: rest) ∧
      b = a.after rest [] [] := by
  refine does_openRule.ends ?_
  refine Ends.bind ends_expectMark ?_
  rintro _ _ ⟨ahead, hahead, rfl⟩
  have hclose : ∀ (found : List Parameter) (list : Syntax.Parameters) (behind : List Token.Kind),
      found.map (·.name) = list.names → ahead = list.tokens ++ behind →
      Ends origin (a.after behind [] [])
        (expectMark .rightParen >>= fun _ => closeRule >>= fun _ => pure found)
        fun found b => ∃ (list : Syntax.Parameters) (rest : List Token.Kind),
          found.map (·.name) = list.names ∧
          a.ahead = .punctuator .leftParen :: (list.tokens ++ .punctuator .rightParen :: rest) ∧
          b = a.after rest [] [] := by
    intro found list behind hnames htokens
    refine Ends.bind ends_expectMark ?_
    rintro _ _ ⟨rest, hrest, rfl⟩
    rw [Sketch.ahead_after] at hrest
    subst hrest
    refine does_closeRule.ends ?_
    refine Ends.pure ⟨list, rest, hnames, ?_, Sketch.after_after⟩
    rw [hahead, htokens]
  refine ends_atMark ?_ ?_
  · intro _ _
    exact hclose [] (.list []) ahead rfl rfl
  · intro _
    refine Ends.bind reaches_bound.ends ?_
    rintro rounds _ ⟨rfl, hrounds⟩
    refine Ends.bind (ends_parameterList rounds _ true hrounds) ?_
    rintro found _ ⟨list, behind, hnames, htokens, rfl, -⟩
    rw [Sketch.after_after]
    exact hclose found list behind hnames htokens

/-- No parameter is declared twice. -/
theorem ends_declareParameters (names : List String) :
    ∀ (a : Sketch) (list : List Parameter) (arity index : Nat) (scope : Scope Binding),
      list.map (·.name) = names → arity = index + names.length → a.env.locals = [scope] →
      Ends origin a (declareParameters arity list index) fun _ b => ∃ declared,
        parameterScope? scope (parameterBindings names) = some declared ∧
          b = { a with env := { a.env with locals := [declared] } } := by
  induction names with
  | nil =>
      intro a list arity index scope hnames _ hlocals
      cases list with
      | nil =>
          refine Ends.pure ⟨scope, rfl, ?_⟩
          rw [show ({ a.env with locals := [scope] } : Env) = a.env by rw [← hlocals]]
      | cons parameter list => cases hnames
  | cons name names ih =>
      intro a list arity index scope hnames harity hlocals
      cases list with
      | nil => cases hnames
      | cons parameter list =>
          obtain ⟨hname, hrest⟩ := List.cons_eq_cons.1 hnames
          change parameter.name = name at hname
          subst hname
          rw [List.length_cons] at harity
          have hvalue : Word.ofCount index - (Word.ofCount arity + 1) =
              (Place.parameter (names.length + 2)).operand := by
            rw [harity, Word.ofCount_parameter]
            rfl
          have hinside : a.env.locals ≠ [] := by
            rw [hlocals]
            exact List.cons_ne_nil _ _
          refine Ends.bind (ends_declareLocal hinside rfl
            rfl hvalue) ?_
          rintro _ _ ⟨env, hdeclare, rfl, -⟩
          obtain ⟨locals, hdeclared, rfl⟩ := Option.map_eq_some_iff.1 hdeclare
          rw [hlocals] at hdeclared
          obtain ⟨next, hnext, rfl⟩ := Option.map_eq_some_iff.1 hdeclared
          refine (ih { a with env := { a.env with locals := [next] } } list arity (index + 1) next
            hrest (by omega) rfl).weaken ?_
          rintro _ _ ⟨declared, hscope, rfl⟩
          refine ⟨declared, ?_, rfl⟩
          rw [parameterBindings, parameterScope?, Option.bind_eq_some_iff]
          exact ⟨next, hnext, hscope⟩

/-! ## Functions -/

theorem accepts_statement {bound : Nat} : AcceptsStatement origin bound statement := by
  intro a hinside _ hframe
  refine Needs.bind reaches_bound.ends ?_
  rintro depth a ⟨rfl, hdepth⟩
  exact accepts_statementAt depth a hinside hdepth hframe

/-- A function gets a body if its name is new or has a prototype with as many parameters. -/
theorem needs_bindFunction {symbol : Symbol} {arity : Nat} (henv : a.env = outline.env)
    (hawaiting : a.awaiting = outline.awaiting) :
    Needs origin a (bindFunction symbol arity)
      (∃ outline', outline.define? symbol.name arity = some outline') := by
  intro s hfits _ s' hok
  have houtside : a.env.locals = [] := by
    rw [henv]
    rfl
  unfold Outline.define?
  by_cases hmem : symbol.name ∈ outline.awaiting
  · rw [if_pos hmem]
    obtain ⟨found, given, _, _, hlookup, hlevel, hglobals, hrecords, hdefined⟩ :=
      Sketch.prototype_of_awaiting hfits.models hfits.functions houtside (hawaiting ▸ hmem)
    rw [henv] at hglobals
    have hglobals : outline.globals.lookup symbol.name = some (.function given) := hglobals
    by_cases harity : given = arity
    · rw [hglobals, if_pos (by rw [harity])]
      exact ⟨_, rfl⟩
    · have hsome : prototype? symbol.name s = .ok (some found) s := by
        rw [prototype?_run, hlookup, Option.filter_some, if_pos]
        simp [hlevel, hrecords.1, hdefined]
      unfold bindFunction at hok
      rw [bind_run_of_ok hsome] at hok
      have hparams : found.params ≠ some arity := by
        rw [hrecords.2]
        exact fun h => harity (Option.some.inj h)
      change (if found.params ≠ some arity then _ else _ : Compile Unit) s = _ at hok
      rw [if_pos hparams] at hok
      obtain ⟨_, _, hthrow, _⟩ := bind_eq_ok.1 hok
      exact absurd hthrow throw_ne_ok
  · rw [if_neg hmem]
    have hnone : prototype? symbol.name s = .ok none s := by
      rw [prototype?_run, hfits.no_prototype (hawaiting ▸ hmem)]
    rw [bindFunction_run_of_none hnone] at hok
    obtain ⟨_, middle, hdeclare, _⟩ := bind_eq_ok.1 hok
    have hfree := needs_declare s hfits _ middle hdeclare
    rw [henv] at hfree
    have hscope : outline.globals.declare? symbol.name (Binding.function arity) =
        some ((symbol.name, .function arity) :: outline.globals) :=
      Scope.declare?_eq_some.2 ⟨hfree, rfl⟩
    exact ⟨_, by rw [hscope]; rfl⟩

/-- Behind its parameters a function has a body or is a prototype. -/
def IsFunction (data : Nat) (outline : Outline) (name : String) (ahead : List Token.Kind) : Prop :=
  (∃ (list : Syntax.Parameters) (rest : List Token.Kind) (outline' : Outline),
    ahead = .punctuator .leftParen :: (list.tokens ++ .punctuator .rightParen ::
      .punctuator .semicolon :: rest) ∧
    outline.prototype? name list.names.length = some outline') ∨
  ∃ (list : Syntax.Parameters) (declarations : List Declaration) (body : List Stmt)
    (rest : List Token.Kind) (middle : Outline) (statements : List Core.Stmt),
    (Stmt.block declarations body).isGrammatical ∧
    ahead = .punctuator .leftParen :: (list.tokens ++ .punctuator .rightParen ::
      ((Stmt.block declarations body).tokens ++ rest)) ∧
    outline.define? name list.names.length = some middle ∧
    Syntax.resolveFunction? middle.globals (data + middle.data.length) list.names declarations
      body = some statements

theorem needs_functionBody (hinside : a.env.locals ≠ [])
    (hframe : a.frame.used ≤ a.frame.greatest) :
    Needs origin a functionBody (∃ declarations body rest inner stores cores,
      (Stmt.block declarations body).isGrammatical ∧
      a.ahead = (Stmt.block declarations body).tokens ++ rest ∧
      resolveDeclarators? a.env a.frame.used a.dataHere
        (declarations.flatMap Declaration.declarators) = some (inner, stores) ∧
      Stmt.resolveBody? inner
        (a.frame.used + (declarations.flatMap Declaration.declarators).length)
        (a.dataHere + (declaratorData (declarations.flatMap Declaration.declarators)).length) body =
          some cores) := by
  refine does_openRule.needs ?_
  refine Needs.bind ends_expectMark ?_
  rintro _ _ ⟨ahead, hahead, rfl⟩
  have hdataHere : (a.after ahead [] []).dataHere = a.dataHere := Sketch.dataHere_after
  refine Needs.first ((needs_blockContents (a := a.after ahead [] [])
    accepts_statement performs_statement hinside (Nat.lt_succ_self _) hframe).weaken ?_)
  rintro ⟨declarations, body, rest, inner, stores, cores, hgrammatical, htokens, hstores, hcores⟩
  rw [hdataHere] at hstores hcores
  refine ⟨declarations, body, rest, inner, stores, cores, hgrammatical, ?_, hstores, hcores⟩
  rw [hahead, show ahead = _ from htokens]
  simp [Stmt.tokens]

theorem needs_function {type : TypeName} {name : String} {position : Position}
    {ahead : List Token.Kind} :
    Needs origin (outlined text data frame outline ahead) (function type name position)
      (IsFunction data outline name ahead) := by
  refine Needs.bind ends_parameters ?_
  rintro found _ ⟨list, behind, hnames, htokens, rfl⟩
  have harity : found.length = list.names.length := by
    rw [← hnames, List.length_map]
  have htokens : ahead = .punctuator .leftParen ::
    (list.tokens ++ .punctuator .rightParen :: behind) := htokens
  rw [outlined_after]
  refine needs_atMark ?_ ?_
  · intro rest hrest
    change behind = _ at hrest
    subst hrest
    refine (does_advance rfl).needs ?_
    rw [outlined_after]
    refine Needs.first (needs_declare.weaken ?_)
    intro hfree
    have hscope : outline.globals.declare? name (Binding.function list.names.length) =
        some ((name, .function list.names.length) :: outline.globals) :=
      Scope.declare?_eq_some.2 ⟨hfree, rfl⟩
    exact .inl ⟨list, rest, _, htokens, by rw [Outline.prototype?, hscope]; rfl⟩
  · intro _
    refine does_here.needs ?_
    refine @Needs.bind _ _ _ _ _ _ (fun _ b => ∃ middle,
      outline.define? name list.names.length = some middle ∧
        b = (outlined text data frame outline behind).defined name middle.globals
          middle.awaiting) _ ?_ ?_
    · rw [harity]
      refine (needs_bindFunction rfl rfl).ends ?_
      rintro ⟨middle, hdefine⟩
      exact (@reaches_bindFunction origin (outlined text data frame outline behind) _ _ _ _
        { name, cls := .function, type, value := _, position } rfl rfl hdefine rfl rfl rfl
        rfl).reaches ⟨middle, hdefine, rfl⟩
    · rintro _ _ ⟨middle, hdefine, rfl⟩
      obtain ⟨-, hdata⟩ := sections_of_define? hdefine
      refine does_enterScope.needs ?_
      let bound : Sketch := (outlined text data frame outline behind).defined name middle.globals
        middle.awaiting
      refine Needs.bind (ends_declareParameters list.names { bound with env := bound.env.enter } found
        found.length 0 [] hnames (harity.trans (Nat.zero_add _).symm) rfl) ?_
      rintro _ _ ⟨scope, hscope, rfl⟩
      refine (does_frame fun _ => {}).needs ?_
      refine does_emitPending.needs ?_
      have hdataHere : ((outlined text data frame outline behind).entered name scope middle.globals
          middle.awaiting).dataHere = data + middle.data.length := by
        rw [Sketch.dataHere_entered, hdata]
        rfl
      refine Needs.first ((needs_functionBody
        (a := (outlined text data frame outline behind).entered name scope middle.globals
          middle.awaiting) (List.cons_ne_nil _ _) (Nat.le_refl _)).weaken ?_)
      rintro ⟨declarations, body, rest, inner, stores, cores, hgrammatical, hbody, hstores, hcores⟩
      rw [hdataHere] at hstores hcores
      refine .inr ⟨list, declarations, body, rest, middle, stores ++ cores, hgrammatical, ?_,
        hdefine, ?_⟩
      · rw [htokens, show behind = _ from hbody]
      · exact Syntax.resolveFunction?_eq_some.2
          ⟨scope, inner, stores, cores, hscope, hstores, hcores, rfl⟩

/-! ## Enumerations -/

theorem ends_constant :
    Ends origin a Compiler.constant fun value b => ∃ (constant : Constant) (rest : List Token.Kind),
      value = constant.value ∧ a.ahead = constant.tokens ++ rest ∧ b = a.after rest [] [] := by
  have hliteral : ∀ (negative : Bool) (b : Sketch),
      Ends origin b (literalValue negative) fun value c =>
        ∃ (literal : Syntax.Literal) (rest : List Token.Kind),
          value = (Constant.mk negative literal).value ∧ b.ahead = literal.kind :: rest ∧
            c = b.after rest [] [] := by
    intro negative b
    refine does_peek.ends ?_
    cases hcurrent : b.current with
    | number value =>
        obtain ⟨rest, hahead⟩ := Sketch.ahead_of_current hcurrent Token.Kind.noConfusion
        refine Does.pure.ends ((does_advance hahead).ends ?_)
        exact Ends.pure ⟨.number value, rest, rfl, hahead, rfl⟩
    | character c =>
        obtain ⟨rest, hahead⟩ := Sketch.ahead_of_current hcurrent Token.Kind.noConfusion
        refine Does.pure.ends ((does_advance hahead).ends ?_)
        exact Ends.pure ⟨.character c, rest, rfl, hahead, rfl⟩
    | _ => exact @Ends.bind _ _ _ _ _ _ (fun _ _ => False) _ ends_unexpected fun _ _ h => h.elim
  refine ends_atMark ?_ ?_
  · intro behind hahead
    refine (does_advance hahead).ends ?_
    refine (hliteral true _).weaken ?_
    rintro value _ ⟨literal, rest, hvalue, htokens, rfl⟩
    rw [Sketch.ahead_after] at htokens
    refine ⟨⟨true, literal⟩, rest, hvalue, ?_, Sketch.after_after⟩
    rw [hahead, htokens]
    rfl
  · intro _
    refine (hliteral false a).weaken ?_
    rintro value _ ⟨literal, rest, hvalue, htokens, rfl⟩
    exact ⟨⟨false, literal⟩, rest, hvalue, htokens, rfl⟩

/-- No name outside of functions is declared twice. -/
theorem ends_declareGlobal {symbol : Symbol} {binding : Binding} {ahead : List Token.Kind}
    (hrecords : ({ symbol with level := Symbol.globalLevel, scope := 1 } : Symbol).Records binding)
    (hcls : symbol.cls ≠ .function) :
    Ends origin (outlined text data frame outline ahead) (declare symbol) fun _ b => ∃ globals,
      outline.globals.declare? symbol.name binding = some globals ∧
        b = outlined text data frame { outline with globals } ahead := by
  intro s hfits _ s' hok
  have hfree := needs_declare s hfits _ s' hok
  have hscope : outline.globals.declare? symbol.name binding =
      some ((symbol.name, binding) :: outline.globals) :=
    Scope.declare?_eq_some.2 ⟨hfree, rfl⟩
  obtain ⟨_, rfl, hfits'⟩ :=
    (reaches_declareGlobal (a := outlined text data frame outline ahead) rfl hscope hrecords
      hcls).ends s hfits _ s' hok
  exact ⟨_, ⟨_, hscope, rfl⟩, hfits'⟩

theorem separated_enumerators (first second : Enumerator) (others : List Enumerator) :
    Syntax.separated ((first :: second :: others).map Enumerator.tokens) =
      first.tokens ++ .punctuator .comma ::
        Syntax.separated ((second :: others).map Enumerator.tokens) := by
  simp [Syntax.separated, Syntax.further]

/-- One member of an enumeration. -/
theorem ends_enumerator {value : Word} {ahead : List Token.Kind} {rounds : Nat}
    {post : Unit → Sketch → Prop} (hmore : ahead.head? ≠ some (.punctuator .rightBrace))
    (hnext : ∀ (enumerator : Enumerator) (rest : List Token.Kind) (globals : Scope Binding),
      ahead = enumerator.tokens ++ rest →
      outline.globals.declare? enumerator.name
        (.constant ((enumerator.value.map Constant.value).getD value)) = some globals →
      Ends origin (outlined text data frame { outline with globals } rest)
        (atMark .comma >>= fun more =>
          if more then advance >>= fun _ =>
            enumerators ((enumerator.value.map Constant.value).getD value + 1) rounds
          else pure ()) post) :
    Ends origin (outlined text data frame outline ahead) (enumerators value (rounds + 1)) post := by
  refine (does_atMark_of_ne hmore).ends ?_
  refine Ends.bind ends_expectIdentifier ?_
  rintro ⟨name, position⟩ _ ⟨behind, hahead, rfl⟩
  change ahead = _ at hahead
  rw [outlined_after]
  refine ends_atMark ?_ ?_
  · intro more hequal
    change behind = _ at hequal
    subst hequal
    refine (does_advance rfl).ends ?_
    rw [outlined_after]
    refine Ends.bind ends_constant ?_
    rintro _ _ ⟨constant, rest, rfl, htokens, rfl⟩
    change more = _ at htokens
    rw [outlined_after]
    refine Ends.bind (@ends_declareGlobal _ _ _ _ _ _ (.constant constant.value) _ ⟨rfl, rfl⟩
      Symbol.Class.noConfusion) ?_
    rintro _ _ ⟨globals, hdeclare, rfl⟩
    refine hnext ⟨name, some constant⟩ rest globals ?_ hdeclare
    rw [hahead, htokens]
    rfl
  · intro _
    refine Does.pure.ends ?_
    refine Ends.bind (@ends_declareGlobal _ _ _ _ _ _ (.constant value) _ ⟨rfl, rfl⟩
      Symbol.Class.noConfusion) ?_
    rintro _ _ ⟨globals, hdeclare, rfl⟩
    exact hnext ⟨name, none⟩ behind globals hahead hdeclare

theorem ends_enumerators (rounds : Nat) :
    ∀ (outline : Outline) (value : Word) (ahead : List Token.Kind), ahead.length < rounds →
      Ends origin (outlined text data frame outline ahead) (enumerators value rounds) fun _ b =>
        ∃ (members : List Enumerator) (trailing : Bool) (outline' : Outline),
          (trailing → members ≠ []) ∧
          ahead = Syntax.separated (members.map Enumerator.tokens) ++
            ((if trailing then [.punctuator .comma] else []) ++ b.ahead) ∧
          outline.enumerators? value members = some outline' := by
  induction rounds with
  | zero =>
      intro outline value ahead hrounds
      omega
  | succ rounds ih =>
      intro outline value ahead hrounds
      by_cases hover : ahead.head? = some (.punctuator .rightBrace)
      · obtain ⟨rest, rfl⟩ := List.head?_eq_some_iff.1 hover
        refine (does_atMark_of_ahead rfl).ends ?_
        exact Ends.pure ⟨[], false, outline, Bool.noConfusion, rfl, rfl⟩
      · refine ends_enumerator hover ?_
        intro member behind globals htokens hdeclare
        have hresolve : ∀ others : List Enumerator, outline.enumerators? value (member :: others) =
            Outline.enumerators? { outline with globals }
              ((member.value.map Constant.value).getD value + 1) others := by
          intro others
          rw [Outline.enumerators?, hdeclare]
          rfl
        refine ends_atMark ?_ ?_
        · intro rest hrest
          change behind = _ at hrest
          subst hrest
          have hlength := congrArg List.length htokens
          rw [List.length_append, List.length_cons] at hlength
          refine (does_advance rfl).ends ?_
          rw [outlined_after]
          refine (ih _ _ rest (by omega)).weaken ?_
          rintro _ b ⟨others, trailing, outline', htrailing, hothers, hmembers⟩
          cases others with
          | nil =>
              have hnone : trailing = false := by
                cases trailing with
                | false => rfl
                | true => exact absurd rfl (htrailing rfl)
              subst hnone
              refine ⟨[member], true, outline', fun _ => List.cons_ne_nil _ _, ?_,
                (hresolve []).trans hmembers⟩
              rw [htokens, hothers]
              simp [Syntax.separated, Syntax.further]
          | cons second others =>
              refine ⟨member :: second :: others, trailing, outline',
                fun _ => List.cons_ne_nil _ _, ?_, (hresolve _).trans hmembers⟩
              rw [separated_enumerators, htokens, hothers]
              simp
        · intro _
          refine Ends.pure ⟨[member], false, { outline with globals }, Bool.noConfusion, ?_,
            hresolve []⟩
          rw [htokens]
          simp [Syntax.separated, Syntax.further, outlined]

theorem needs_enumDeclaration {ahead : List Token.Kind} :
    Needs origin (outlined text data frame outline ahead) enumDeclaration
      (∃ tag members trailing rest outline',
        (Item.enumeration tag members trailing).isGrammatical ∧
        ahead = (Item.enumeration tag members trailing).tokens ++ rest ∧
        outline.enumerators? 0 members = some outline') := by
  refine does_openRule.needs ?_
  refine Needs.bind (ends_expect Token.Kind.noConfusion) ?_
  rintro _ _ ⟨behind, hahead, rfl⟩
  change ahead = _ at hahead
  subst hahead
  rw [outlined_after]
  have hmembers : ∀ (tag : Option String) (opened : List Token.Kind),
      behind = tag.toList.map Token.Kind.identifier ++ opened →
      Needs origin (outlined text data frame outline opened)
        (expectMark .leftBrace >>= fun _ => view (·.bound) >>= fun bound =>
          enumerators 0 bound >>= fun _ => expectMark .rightBrace >>= fun _ =>
            expectMark .semicolon >>= fun _ => closeRule)
        (∃ tag members trailing rest outline',
          (Item.enumeration tag members trailing).isGrammatical ∧
          .keyword .enumKw :: behind = (Item.enumeration tag members trailing).tokens ++ rest ∧
          outline.enumerators? 0 members = some outline') := by
    intro tag opened hbehind
    refine Needs.bind ends_expectMark ?_
    rintro _ _ ⟨inner, hinner, rfl⟩
    change opened = _ at hinner
    subst hinner
    rw [outlined_after]
    refine Needs.bind reaches_bound.ends ?_
    rintro rounds _ ⟨rfl, hrounds⟩
    refine Needs.bind (ends_enumerators rounds outline 0 inner hrounds) ?_
    rintro _ b ⟨members, trailing, outline', htrailing, htokens, hresolve⟩
    refine Needs.bind ends_expectMark ?_
    rintro _ _ ⟨closed, hclosed, rfl⟩
    refine Needs.of_ends (Ends.bind ends_expectMark fun _ _ h => ?_) fun _ _ h => h
    obtain ⟨rest, hrest, rfl⟩ := h
    rw [Sketch.ahead_after] at hrest
    refine does_closeRule.ends_of ⟨tag, members, trailing, rest, outline', ?_, ?_, hresolve⟩
    · cases trailing with
      | false => rfl
      | true =>
          cases members with
          | nil => exact absurd rfl (htrailing rfl)
          | cons first others => rfl
    · rw [hbehind, htokens, hclosed, hrest]
      simp [Item.tokens]
  refine does_peek.needs ?_
  cases hcurrent : (outlined text data frame outline behind).current with
  | identifier tag =>
      obtain ⟨opened, hopened⟩ := Sketch.ahead_of_current hcurrent Token.Kind.noConfusion
      change behind = _ at hopened
      subst hopened
      refine (does_advance rfl).needs ?_
      rw [outlined_after]
      exact hmembers (some tag) opened rfl
  | _ => exact hmembers none behind rfl

/-! ## Global variables -/

theorem needs_initializer {ahead : List Token.Kind} {address : Nat} :
    Needs origin (outlined text data frame outline ahead) (initializer address)
      (∃ e rest value, Finds outline.env (data + outline.data.length) ahead 0 0 e rest value) := by
  refine does_viewStartup.needs ?_
  refine does_patchStartup.needs ?_
  refine Needs.bind ends_expression ?_
  rintro _ _ ⟨e, rest, value, hfinds, -⟩
  intro _ _ _ _ _
  exact ⟨e, rest, value, hfinds⟩

theorem ends_initializer {ahead : List Token.Kind} {address : Nat} :
    Ends origin (outlined text data frame outline ahead) (initializer address) fun _ b =>
      ∃ e rest value, Finds outline.env (data + outline.data.length) ahead 0 0 e rest value ∧
        b = outlined text data frame
          { outline with
            sections := outline.sections ++ [.initializer address value]
            data := outline.data ++ e.data } rest := by
  refine needs_initializer.ends ?_
  rintro ⟨e, rest, value, hfinds⟩
  obtain rfl := hfinds.tokens
  exact (does_initializer hfinds.grammatical hfinds.closes hfinds.resolves).reaches
    ⟨e, rest, value, hfinds, rfl⟩

/-- One variable of a global declaration. -/
theorem needs_globalVariable {type : TypeName} {name : String} {position : Position}
    {behind : List Token.Kind} {rounds : Nat} {condition : Prop}
    (hnext : ∀ (declarator : Declarator) (rest : List Token.Kind) (outline' : Outline),
      declarator.isGrammatical → .identifier name :: behind = declarator.tokens ++ rest →
      outline.addVariable? data declarator = some outline' →
      Needs origin (outlined text data frame outline' rest)
        (atMark .comma >>= fun more =>
          if more then advance >>= fun _ => globalNames type rounds else expectMark .semicolon)
        condition) :
    Needs origin (outlined text data frame outline behind)
      (onMachine (Machine.allocateGlobal 0) >>= fun address =>
        declare { name, cls := .object, type, value := Word.ofCount address, position } >>= fun _ =>
        atMark .equal >>= fun initialized =>
          if initialized then
            advance >>= fun _ => initializer address >>= fun _ => atMark .comma >>= fun more =>
              if more then advance >>= fun _ => globalNames type rounds else expectMark .semicolon
          else atMark .comma >>= fun more =>
            if more then advance >>= fun _ => globalNames type rounds else expectMark .semicolon)
      condition := by
  refine does_allocate.needs ?_
  have hstored : (outlined text data frame outline behind).after behind [] [0] =
      outlined text data frame { outline with data := outline.data ++ [0] } behind := by
    simp [outlined, Sketch.after, Outline.env]
  rw [show (outlined text data frame outline behind).ahead = behind from rfl, hstored]
  refine Needs.bind (@ends_declareGlobal _ _ _ _ _ _
    (.object (.global (data + outline.data.length))) _ ⟨rfl, rfl, rfl⟩
    Symbol.Class.noConfusion) ?_
  rintro _ _ ⟨globals, hdeclare, rfl⟩
  have hdeclare : outline.globals.declare? name
      (.object (.global (data + outline.data.length))) = some globals := hdeclare
  refine needs_atMark ?_ ?_
  · intro valued hequal
    change behind = _ at hequal
    subst hequal
    refine (does_advance rfl).needs ?_
    rw [outlined_after]
    refine Needs.bind ends_initializer ?_
    rintro _ _ ⟨e, rest, value, hfinds, rfl⟩
    refine hnext ⟨name, some e⟩ rest _ hfinds.grammatical ?_ ?_
    · rw [show valued = _ from hfinds.tokens]
      rfl
    · rw [Outline.addVariable?, hdeclare]
      simp only [Option.bind_eq_bind, Option.bind_some]
      exact Option.bind_eq_some_iff.2 ⟨value, hfinds.resolves, rfl⟩
  · intro _
    refine hnext ⟨name, none⟩ behind _ rfl rfl ?_
    rw [Outline.addVariable?, hdeclare]
    rfl

/-- The names behind a type: variables, or variables and a function. -/
def IsNames (data : Nat) (outline : Outline) (ahead : List Token.Kind) : Prop :=
  (∃ first others rest outline', (first :: others).all Declarator.isGrammatical ∧
    ahead = Syntax.separated ((first :: others).map Declarator.tokens) ++
      .punctuator .semicolon :: rest ∧
    outline.variables? data (first :: others) = some outline') ∨
  ∃ before name behind middle, before.all Declarator.isGrammatical ∧
    ahead = leadingTokens before ++ .identifier name :: behind ∧
    outline.variables? data before = some middle ∧ IsFunction data middle name behind

theorem needs_globalNames {type : TypeName} (rounds : Nat) :
    ∀ (outline : Outline) (ahead : List Token.Kind), ahead.length < rounds →
      Needs origin (outlined text data frame outline ahead) (globalNames type rounds)
        (IsNames data outline ahead) := by
  induction rounds with
  | zero =>
      intro outline ahead hrounds
      omega
  | succ rounds ih =>
      intro outline ahead hrounds
      refine Needs.bind ends_expectIdentifier ?_
      rintro ⟨name, position⟩ _ ⟨behind, hahead, rfl⟩
      change ahead = _ at hahead
      rw [outlined_after]
      refine needs_atMark ?_ ?_
      · intro _ _
        refine (does_tree fun tree => tree.retag .functionDeclaration).needs ?_
        refine needs_function.weaken fun hfunction => ?_
        exact .inr ⟨[], name, behind, outline, rfl, hahead, rfl, hfunction⟩
      · intro _
        refine needs_globalVariable ?_
        intro first rest next hgrammatical htokens hvariable
        rw [← hahead] at htokens
        have hvariables : ∀ others : List Declarator,
            outline.variables? data (first :: others) = next.variables? data others := by
          intro others
          rw [Outline.variables?, hvariable]
          rfl
        refine needs_atMark ?_ ?_
        · intro more hmore
          change rest = _ at hmore
          subst hmore
          have hlength := congrArg List.length htokens
          rw [List.length_append, List.length_cons] at hlength
          refine (does_advance rfl).needs ?_
          rw [outlined_after]
          refine (ih next more (by omega)).weaken ?_
          rintro (⟨second, others, last, outline', hothers, hmore, hresolve⟩ |
            ⟨before, name, behind, middle, hbefore, hmore, hresolve, hfunction⟩)
          · refine .inl ⟨first, second :: others, last, outline', ?_, ?_,
              (hvariables _).trans hresolve⟩
            · rw [List.all_cons, hgrammatical, hothers]
              rfl
            · rw [htokens, separated_cons_cons, hmore]
              simp
          · refine .inr ⟨first :: before, name, behind, middle, ?_, ?_,
              (hvariables _).trans hresolve, hfunction⟩
            · rw [List.all_cons, hgrammatical, hbefore]
              rfl
            · rw [htokens, hmore]
              simp [leadingTokens]
        · intro _
          refine Needs.of_ends ends_expectMark ?_
          rintro _ _ ⟨last, hlast, -⟩
          change rest = _ at hlast
          refine .inl ⟨first, [], last, next, ?_, ?_, hvariables []⟩
          · rw [List.all_cons, hgrammatical]
            rfl
          · rw [htokens, hlast]
            simp [Syntax.separated, Syntax.further]

/-! ## Files -/

theorem needs_globalDeclaration {ahead : List Token.Kind} :
    Needs origin (outlined text data frame outline ahead) globalDeclaration
      (∃ (item : Item) (rest : List Token.Kind) (outline' : Outline), item.isGrammatical ∧
        ahead = item.tokens ++ rest ∧ item.resolve? data outline = some outline') := by
  refine needs_atKind Token.Kind.noConfusion ?_ ?_
  · intro _ _
    refine needs_enumDeclaration.weaken ?_
    rintro ⟨tag, members, trailing, rest, outline', hgrammatical, htokens, hresolve⟩
    exact ⟨.enumeration tag members trailing, rest, outline', hgrammatical, htokens, hresolve⟩
  · intro _
    refine does_openRule.needs ?_
    refine Needs.bind ends_expectType ?_
    rintro type _ ⟨behind, hahead, rfl⟩
    change ahead = _ at hahead
    rw [outlined_after]
    refine Needs.bind reaches_bound.ends ?_
    rintro rounds _ ⟨rfl, hrounds⟩
    refine Needs.first ((needs_globalNames rounds outline behind hrounds).weaken ?_)
    rintro (⟨first, others, rest, outline', hgrammatical, htokens, hresolve⟩ |
      ⟨before, name, inner, middle, hbefore, htokens, hresolve, hfunction⟩)
    · refine ⟨.objects ⟨type, first, others⟩, rest, outline', hgrammatical, ?_, hresolve⟩
      rw [hahead, htokens]
      simp [Item.tokens, Declaration.tokens, Declaration.declarators]
    · rcases hfunction with ⟨list, rest, outline', hinner, hprototype⟩ |
        ⟨list, declarations, body, rest, last, statements, hbody, hinner, hdefine, hstatements⟩
      · refine ⟨.prototype ⟨type, before, name, list⟩, rest, outline', hbefore, ?_, ?_⟩
        · rw [hahead, htokens, hinner]
          simp [Item.tokens, Heading.tokens, leadingTokens]
        · rw [Item.resolve?, hresolve]
          exact hprototype
      · let compiled : Outline :=
          { last with
            sections := last.sections ++
              [.function name list.names.length ((Stmt.block declarations body).peak 0)
                (.ofList statements)]
            data := last.data ++ (Stmt.block declarations body).data }
        refine ⟨.function ⟨type, before, name, list⟩ declarations body, rest, compiled, ?_, ?_, ?_⟩
        · rw [Item.isGrammatical, hbody, Bool.and_true]
          exact hbefore
        · rw [hahead, htokens, hinner]
          simp [Item.tokens, Heading.tokens, leadingTokens]
        · rw [Item.resolve?, hresolve]
          simp only [Option.bind_eq_bind, Option.bind_some]
          rw [show middle.define? name (Heading.arity ⟨type, before, name, list⟩) = some last
            from hdefine]
          simp only [Option.bind_some, hstatements]
          rfl

theorem Sketch.Fits.ahead_eq_nil {s : State} (h : a.Fits origin s)
    (hcurrent : a.current = .endOfInput) : a.ahead = [] := by
  have hproper := h.ahead.proper
  unfold Sketch.current at hcurrent
  cases hahead : a.ahead with
  | nil => rfl
  | cons kind rest =>
      rw [hahead] at hcurrent hproper
      change kind = .endOfInput at hcurrent
      rw [hcurrent] at hproper
      exact absurd List.mem_cons_self hproper

theorem ends_globalDeclaration {ahead : List Token.Kind} :
    Ends origin (outlined text data frame outline ahead) globalDeclaration fun _ b =>
      ∃ (item : Item) (rest : List Token.Kind) (outline' : Outline), item.isGrammatical ∧
        ahead = item.tokens ++ rest ∧ item.resolve? data outline = some outline' ∧
        Outlines text data outline' rest b := by
  intro s hfits _ s' hok
  obtain ⟨item, rest, outline', hgrammatical, rfl, hresolve⟩ :=
    needs_globalDeclaration s hfits _ s' hok
  obtain ⟨b, hb, hfits'⟩ :=
    (reaches_globalDeclaration hgrammatical
      hresolve).ends s hfits _ s' hok
  exact ⟨b, ⟨item, rest, outline', hgrammatical, rfl, hresolve, hb⟩, hfits'⟩

theorem ends_globalDeclarations (rounds : Nat) :
    ∀ (outline : Outline) (frame : Frame) (ahead : List Token.Kind), ahead.length < rounds →
      Ends origin (outlined text data frame outline ahead) (globalDeclarations rounds) fun _ b =>
        ∃ (file : Syntax.File) (outline' : Outline), file.isGrammatical ∧ ahead = file.tokens ∧
          file.resolve? data outline = some outline' ∧ Outlines text data outline' [] b := by
  induction rounds with
  | zero =>
      intro outline frame ahead hrounds
      omega
  | succ rounds ih =>
      intro outline frame ahead hrounds
      refine does_atKind.ends ?_
      by_cases hcurrent : (outlined text data frame outline ahead).current = .endOfInput
      · rw [decide_eq_true hcurrent]
        intro s hfits _ s' hok
        obtain ⟨-, rfl⟩ := pure_eq_ok.1 hok
        obtain rfl : ahead = [] := hfits.ahead_eq_nil hcurrent
        exact ⟨_, ⟨[], outline, rfl, rfl, rfl, frame, rfl⟩, hfits⟩
      · rw [decide_eq_false hcurrent]
        refine Ends.bind ends_globalDeclaration ?_
        rintro _ _ ⟨item, rest, next, hgrammatical, rfl, hresolve, frame, rfl⟩
        obtain ⟨keyword, behind, hitem⟩ := item.tokens_eq_cons
        rw [List.length_append, hitem, List.length_cons] at hrounds
        refine (ih next frame rest (by omega)).weaken ?_
        rintro _ b ⟨file, outline', hfile, rfl, hothers, hb⟩
        refine ⟨item :: file, outline', ?_, rfl, Option.bind_eq_some_iff.2 ⟨next, hresolve, hothers⟩,
          hb⟩
        rw [Syntax.File.isGrammatical, List.all_cons, hgrammatical]
        exact hfile

/-- Every name that awaits a body has a symbol without one. -/
theorem awaiting_eq_nil {s : State} (h : a.Fits origin s)
    (hnone : (s.compiler.symbols.symbols.find? fun symbol =>
      symbol.cls = .function && !symbol.defined) = none) : a.awaiting = [] := by
  rw [List.eq_nil_iff_forall_not_mem]
  intro name hmem
  obtain ⟨arity, hlookup⟩ := h.functions.declared name (.inl hmem)
  obtain ⟨symbol, hfind, hrecords⟩ := h.models.globals.findIn?_of_lookup hlookup
  have hsymbol := Symbol.Table.mem_of_findIn? hfind
  have hentry := h.functions.entry symbol hsymbol hrecords.1
  rw [h.models.indexed.name_of_findIn? hfind, if_pos hmem] at hentry
  refine absurd ?_ (List.find?_eq_none.1 hnone symbol hsymbol)
  simp [hrecords.1, hentry]

/-- No call of the host is named `main`. -/
theorem lookup_main {binding : Binding} (hfind : outline.env.find? "main" = some binding)
    (hbinding : binding = .function 0) : outline.globals.lookup "main" = some (.function 0) := by
  subst hbinding
  change List.findSome? _ [outline.globals, Core.builtins] = _ at hfind
  rw [List.findSome?_cons] at hfind
  cases hlookup : outline.globals.lookup "main" with
  | some found =>
      rw [hlookup] at hfind
      exact hfind
  | none =>
      rw [hlookup] at hfind
      have hbuiltin : Core.builtins.lookup "main" = none := by decide
      simp [hbuiltin] at hfind

/-- Every prototype has got its body, and `main` is a function without parameters. -/
theorem needs_finish {entry : Nat} :
    Needs origin (outlined text data frame outline []) (finish entry)
      (outline.awaiting = [] ∧ outline.globals.lookup "main" = some (.function 0)) := by
  refine Needs.bind ends_view ?_
  rintro table _ ⟨rfl, s, hfits, rfl⟩
  cases hfind : s.compiler.symbols.symbols.find? fun symbol =>
      symbol.cls = .function && !symbol.defined with
  | some prototype => exact Needs.first Needs.throw
  | none =>
      have hawaiting : outline.awaiting = [] := awaiting_eq_nil hfits hfind
      refine Needs.bind ends_view ?_
      rintro token _ ⟨rfl, -⟩
      refine Needs.bind reaches_locate.ends ?_
      rintro position _ rfl
      refine Needs.bind ends_resolve ?_
      rintro main _ ⟨rfl, binding, hmeans⟩
      have hrecords := hmeans.records
      by_cases hcls : main.cls = .function
      · rw [if_neg (not_not_intro hcls)]
        change Needs origin _ (if main.params ≠ some 0 then _ else _) _
        by_cases hparams : main.params = some 0
        · intro _ _ _ _ _
          refine ⟨hawaiting, lookup_main hmeans.find ?_⟩
          cases binding with
          | function arity => rw [Option.some.inj (hrecords.2.symm.trans hparams)]
          | system request => cases hcls.symm.trans hrecords.1
          | object place => cases hcls.symm.trans hrecords.1
          | constant value => cases hcls.symm.trans hrecords.1
        · rw [if_pos hparams]
          exact Needs.first Needs.throw
      · rw [if_pos hcls]
        exact Needs.first Needs.throw

/-- A compilation gives a result only if the text is a file that resolves. -/
theorem needs_program {ahead : List Token.Kind} :
    Needs origin (initial origin.base ahead) program
      (∃ (file : Syntax.File) (outline : Outline), file.isGrammatical ∧ ahead = file.tokens ∧
        file.resolve? origin.base.dataEnd Outline.empty = some outline ∧ outline.awaiting = [] ∧
        outline.globals.lookup "main" = some (.function 0)) := by
  change Needs origin _ ((get >>= fun s => pure s.machine.textEnd : Compile Nat) >>= fun entry =>
    emitPending .jmp >>= fun startup =>
      update (fun compiler => { compiler with startup }) >>= fun _ =>
        view (·.bound) >>= fun rounds => globalDeclarations rounds >>= fun _ => finish entry) _
  refine does_textEnd.needs ?_
  refine does_emitPending.needs ?_
  refine does_startup.needs ?_
  refine Needs.bind reaches_bound.ends ?_
  rintro rounds _ ⟨rfl, hrounds⟩
  refine Needs.bind (ends_globalDeclarations rounds Outline.empty {} ahead hrounds) ?_
  rintro _ _ ⟨file, outline, hgrammatical, htokens, hresolve, frame, rfl⟩
  refine needs_finish.weaken ?_
  rintro ⟨hawaiting, hmain⟩
  exact ⟨file, outline, hgrammatical, htokens, hresolve, hawaiting, hmain⟩

end WordC.Compiler
