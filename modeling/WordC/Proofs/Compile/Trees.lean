import WordC.Proofs.Accept.Language
import WordC.Proofs.Compile.Records
import WordC.Proofs.Token.Lossless

/-!
# The tree of a program

Statements and declarations record their tokens as expressions do; there is one lemma for each rule
of the language. A program has a token for each declaration, so none is left when the rounds are
over.
-/

namespace WordC

theorem Token.Stream.texts_eq {stream : Token.Stream} {tokens : List Token}
    (h : stream.toList? = .ok tokens) : stream.texts = tokens.map (·.text) := by
  induction stream generalizing tokens with
  | done offset =>
      cases h
      rfl
  | failed error => cases h
  | cons token rest ih =>
      obtain ⟨others, hothers, rfl⟩ := Token.Stream.toList?_cons h
      rw [texts, ih hothers, List.map_cons]

namespace Compiler

variable {held : List String} {statement : Compile Unit}

/-! ## Statements -/

theorem keeps_emitStore (symbol : Symbol) : Keeps (emitStore symbol) :=
  (keeps_emit _).bind fun _ => (keeps_emitAddress symbol).bind fun _ => keeps_emit _

theorem settles_localVariables (type : TypeName) (rounds : Nat) :
    Settles [] (localVariables type rounds) := by
  induction rounds with
  | zero => exact (Keeps.throw _).settles
  | succ rounds ih =>
      refine settles_expectIdentifier.bind fun found => (Keeps.update (by intro; rfl)).next fun _ =>
        (Keeps.view _).next fun slot => (keeps_declare _).next fun symbol => ?_
      have hmore : Settles [] (atMark .comma >>= fun more =>
          if more then advance >>= fun _ => localVariables type rounds else Pure.pure ()) :=
        settles_ifMark ih (Keeps.pure _).settles
      exact settles_ifMark (settles_expression.bind fun _ => (keeps_emitStore symbol).next fun _ =>
        hmore) hmore

theorem settles_localDeclaration : Settles [] localDeclaration :=
  (keeps_openRule _).next fun _ => gains_expectType.settles.bind fun type => (Keeps.view _).next
    fun _ => (settles_localVariables type _).bind fun _ => (settles_expectMark _).bind fun _ =>
    keeps_closeRule.settles

theorem settles_localDeclarations (rounds : Nat) : Settles [] (localDeclarations rounds) := by
  induction rounds with
  | zero => exact (Keeps.throw _).settles
  | succ rounds ih =>
      exact keeps_peek.next fun _ =>
        .ite (settles_localDeclaration.bind fun _ => ih) (Keeps.pure _).settles

theorem settles_statements (hstatement : Settles [] statement) (rounds : Nat) :
    Settles [] (statements statement rounds) := by
  induction rounds with
  | zero => exact (Keeps.throw _).settles
  | succ rounds ih =>
      exact (keeps_atMark _).next fun _ =>
        .ite (hstatement.bind fun _ => ih) (Keeps.pure _).settles

theorem settles_blockContents (hstatement : Settles [] statement) :
    Settles [] (blockContents statement) :=
  (Keeps.view _).next fun _ => (settles_localDeclarations _).bind fun _ =>
    settles_statements hstatement _

theorem settles_block (hstatement : Settles [] statement) : Settles [] (block statement) :=
  (keeps_openRule _).next fun _ => (settles_expectMark _).bind fun _ => keeps_enterScope.next
    fun _ => (Keeps.view _).next fun _ => (settles_blockContents hstatement).bind fun _ =>
    (settles_expectMark _).bind fun _ => keeps_leaveScope.next fun _ =>
    (Keeps.update (by intro; rfl)).next fun _ =>
    keeps_closeRule.settles

theorem settles_ifStatement (hstatement : Settles [] statement) :
    Settles [] (ifStatement statement) := by
  refine (keeps_openRule _).next fun _ => (settles_expect _ (by nofun)).bind fun _ =>
    (settles_expectMark _).bind fun _ => settles_expression.bind fun _ =>
    (settles_expectMark _).bind fun _ => (keeps_emitPending _).next fun skipThen =>
    hstatement.bind fun _ => settles_ifKind ?_ ?_ (by nofun)
  · exact (keeps_emitPending _).next fun skipElse => (keeps_patchHere _).next fun _ =>
      hstatement.bind fun _ => (keeps_patchHere _).next fun _ => keeps_closeRule.settles
  · exact (keeps_patchHere _).next fun _ => keeps_closeRule.settles

theorem settles_whileStatement (hstatement : Settles [] statement) :
    Settles [] (whileStatement statement) :=
  (keeps_openRule _).next fun _ => keeps_here.next fun _ =>
    (settles_expect _ (by nofun)).bind fun _ =>
    (settles_expectMark _).bind fun _ => settles_expression.bind fun _ =>
    (settles_expectMark _).bind fun _ => (keeps_emitPending _).next fun _ => hstatement.bind
    fun _ => (keeps_emitWith _ _).next fun _ => (keeps_patchHere _).next fun _ =>
    keeps_closeRule.settles

theorem settles_returnStatement : Settles [] returnStatement := by
  have hbehind : Settles [] (do
      expectMark .semicolon
      emit .lev
      closeRule) :=
    (settles_expectMark _).bind fun _ => (keeps_emit _).next fun _ => keeps_closeRule.settles
  exact (keeps_openRule _).next fun _ => (settles_expect _ (by nofun)).bind fun _ =>
    (keeps_atMark _).next
    fun _ => .ite (settles_expression.bind fun _ => hbehind) hbehind

theorem settles_assignment (target : Token) : Settles [target.text] (assignment target) := by
  refine (keeps_openRule _).next fun _ => (settles_record target).bind fun _ =>
    (keeps_locate target).next fun position => ?_
  cases target.kind with
  | identifier name =>
      refine (keeps_resolve name position).next fun symbol => ?_
      refine .ite ((Keeps.throw _).next fun _ => ?_) ?_
      all_goals
        exact (settles_expectMark _).bind fun _ => settles_expression.bind fun _ =>
          (settles_expectMark _).bind fun _ => (keeps_emitStore symbol).next fun _ =>
          keeps_closeRule.settles
  | _ => exact settles_unexpected _

theorem settles_expressionStatement {value : Compile Unit} (hvalue : Settles held value) :
    Settles held (expressionStatement value) :=
  (keeps_openRule _).next fun _ => hvalue.bind fun _ => (settles_expectMark _).bind fun _ =>
    keeps_closeRule.settles

theorem settles_statementAt (depth : Nat) : Settles [] (statementAt depth) := by
  induction depth with
  | zero => exact (Keeps.throw _).settles
  | succ depth ih =>
      have hvalue := settles_expressionStatement settles_expression
      refine settles_peek fun kind => ?_
      cases kind with
      | punctuator mark =>
          cases mark with
          | leftBrace => exact (settles_block ih).settlesAt
          | semicolon => exact settlesAt_advance (by nofun)
          | _ => exact hvalue.settlesAt
      | keyword word =>
          cases word with
          | ifKw => exact (settles_ifStatement ih).settlesAt
          | whileKw => exact (settles_whileStatement ih).settlesAt
          | returnKw => exact settles_returnStatement.settlesAt
          | _ => exact hvalue.settlesAt
      | identifier name =>
          exact settlesAt_take (fun head _ => (keeps_atMark _).next fun _ =>
            .ite (settles_assignment head)
              (settles_expressionStatement (settles_expressionFrom head))) (by nofun)
      | _ => exact hvalue.settlesAt

theorem settles_statement : Settles [] Compiler.statement :=
  (Keeps.view _).next fun depth => settles_statementAt depth

/-! ## Declarations -/

theorem settles_initializer (address : Nat) : Settles [] (initializer address) :=
  (Keeps.view _).next fun _ => (keeps_patchHere _).next fun _ => settles_expression.bind fun _ =>
    (keeps_emit _).next fun _ => (keeps_emitWith _ _).next fun _ => (keeps_emit _).next fun _ =>
    (keeps_emitPending _).next fun _ => (Keeps.update (by intro; rfl)).settles

theorem settles_constant : Settles [] constant := by
  refine settles_atMark ((settlesAt_advance (by nofun)).bind fun _ => ?_) ?_
  all_goals
    refine settles_peek fun kind => ?_
    cases kind with
    | number value => exact (settlesAt_advance (by nofun)).bind fun _ => (Keeps.pure _).settles
    | character c => exact (settlesAt_advance (by nofun)).bind fun _ => (Keeps.pure _).settles
    | _ => exact settlesAt_unexpected _

theorem settles_enumerators (value : Word) (rounds : Nat) :
    Settles [] (enumerators value rounds) := by
  induction rounds generalizing value with
  | zero => exact (Keeps.throw _).settles
  | succ rounds ih =>
      refine (keeps_atMark _).next fun _ => .ite ?_ (Keeps.pure _).settles
      refine settles_expectIdentifier.bind fun found => ?_
      have hbehind (value : Word) : Settles [] (do
          let _ ← declare
            { name := found.1, cls := .constant, type := .int, value, position := found.2 }
          if ← atMark .comma then
            advance
            enumerators (value + 1) rounds) :=
        (keeps_declare _).next fun _ => settles_ifMark (ih (value + 1)) (Keeps.pure _).settles
      exact settles_ifMark (settles_constant.bind hbehind) (hbehind value)

theorem gains_enumDeclaration : Gains enumDeclaration := by
  refine (keeps_openRule _).nextGains fun _ => (gains_expect _ (by nofun)).bind fun _ =>
    settles_peek fun kind => ?_
  have hbehind : Settles [] (do
      expectMark .leftBrace
      enumerators 0 (← view (·.bound))
      expectMark .rightBrace
      expectMark .semicolon
      closeRule) :=
    (settles_expectMark _).bind fun _ => (Keeps.view _).next fun _ =>
      (settles_enumerators 0 _).bind fun _ => (settles_expectMark _).bind fun _ =>
      (settles_expectMark _).bind fun _ => keeps_closeRule.settles
  cases kind with
  | identifier name => exact (settlesAt_advance (by nofun)).bind fun _ => hbehind
  | _ => exact hbehind.settlesAt

theorem settles_parameterList (isFirst : Bool) (rounds : Nat) :
    Settles [] (parameterList isFirst rounds) := by
  induction rounds generalizing isFirst with
  | zero => exact (Keeps.throw _).settles
  | succ rounds ih =>
      refine gains_expectType.settles.bind fun type => (keeps_atMark _).next fun _ =>
        .ite (Keeps.pure _).settles ?_
      exact settles_expectIdentifier.bind fun found =>
        settles_ifMark ((ih false).bind fun _ => (Keeps.pure _).settles) (Keeps.pure _).settles

theorem settles_parameters : Settles [] parameters := by
  have hbehind (list : List Parameter) : Settles [] (do
      expectMark .rightParen
      closeRule
      return list) :=
    (settles_expectMark _).bind fun _ => keeps_closeRule.next fun _ => (Keeps.pure list).settles
  exact (keeps_openRule _).next fun _ => (settles_expectMark _).bind fun _ =>
    (keeps_atMark _).next fun _ => .ite (hbehind [])
      ((Keeps.view _).next fun _ => (settles_parameterList true _).bind hbehind)

theorem keeps_declareParameters (arity : Nat) (list : List Parameter) (index : Nat) :
    Keeps (declareParameters arity list index) := by
  induction list generalizing index with
  | nil => exact .pure _
  | cons parameter rest ih => exact (keeps_declare _).bind fun _ => ih (index + 1)

theorem keeps_patchAll (sites : List Nat) (word : Word) : Keeps (patchAll sites word) := by
  induction sites with
  | nil => exact .pure _
  | cons site rest ih => exact (keeps_patch site word).bind fun _ => ih

theorem keeps_bindFunction (symbol : Symbol) (arity : Nat) : Keeps (bindFunction symbol arity) := by
  have hprototype : Keeps (prototype? symbol.name) := (Keeps.view _).bind fun _ => .pure _
  refine hprototype.bind fun found => ?_
  cases found with
  | none => exact (keeps_declare _).bind fun _ => .pure _
  | some prototype =>
      refine .guard ((Keeps.view _).bind fun symbols => ?_)
      cases symbols.defineFunction? symbol.name symbol.value
      case' some defined => refine (Keeps.update (by intro; rfl)).bind fun _ => ?_
      all_goals
        exact (Keeps.view _).bind fun _ => (Keeps.update (by intro; rfl)).bind fun _ =>
          keeps_patchAll _ _

theorem settles_functionBody : Settles [] functionBody :=
  (keeps_openRule _).next fun _ => (settles_expectMark _).bind fun _ =>
    (settles_blockContents settles_statement).bind fun _ => (settles_expectMark _).bind fun _ =>
    keeps_closeRule.settles

theorem settles_function (type : TypeName) (name : String) (position : Position) :
    Settles [] (function type name position) := by
  refine settles_parameters.bind fun list => settles_ifMark ?_ ?_
  · exact (keeps_declare _).next fun _ => (Keeps.pure _).settles
  · exact keeps_here.next fun entry => (keeps_bindFunction _ _).next fun _ => keeps_enterScope.next
      fun _ => (keeps_declareParameters _ list 0).next fun _ =>
        (Keeps.update (by intro; rfl)).next fun _ =>
      (keeps_emitPending _).next fun _ => settles_functionBody.bind fun _ => (keeps_emit _).next
      fun _ => (Keeps.view _).next fun _ => (keeps_patch _ _).next fun _ => keeps_leaveScope.next
      fun _ => (Keeps.onMachine _).settles

/-- Behind the first name the rule may change, to one that is no level of an expression. -/
theorem keeps_retag : Keeps (update fun compiler =>
    { compiler with tree := compiler.tree.retag .functionDeclaration }) :=
  .updateTree (fun _ => rfl) (fun _ => rfl) (fun _ => rfl)
    (fun _ => Tree.Builder.terminals_retag _ _)
    fun _ h => h.retag rfl

theorem settles_globalNames (type : TypeName) (rounds : Nat) :
    Settles [] (globalNames type rounds) := by
  induction rounds with
  | zero => exact (Keeps.throw _).settles
  | succ rounds ih =>
      refine settles_expectIdentifier.bind fun found => (keeps_atMark _).next fun _ => .ite ?_ ?_
      · exact keeps_retag.next fun _ => settles_function type _ _
      · have hmore : Settles [] (atMark .comma >>= fun more =>
            if more then advance >>= fun _ => globalNames type rounds
            else expectMark .semicolon) :=
          settles_ifMark ih (settles_expectMark _)
        exact (Keeps.onMachine _).next fun address => (keeps_declare _).next fun _ =>
          settles_ifMark ((settles_initializer address).bind fun _ => hmore) hmore

theorem gains_globalDeclaration : Gains globalDeclaration := by
  refine (keeps_atKind _).nextGains fun isEnum => ?_
  cases isEnum with
  | true => exact gains_enumDeclaration
  | false =>
      exact (keeps_openRule _).nextGains fun _ => gains_expectType.bind fun type =>
        (Keeps.view _).next fun _ => (settles_globalNames type _).bind fun _ =>
        keeps_closeRule.settles

/-! ## Programs -/

/-- Each declaration takes a token, so there are rounds enough for all of them. -/
theorem turns_globalDeclarations (stream : Token.Stream) (rounds : Nat) (least : Nat)
    (hrounds : stream.texts.length < least + rounds) :
    Turns (Recorded stream [] least) (globalDeclarations rounds) fun _ s =>
      Recorded stream [] 0 s ∧ s.compiler.current.kind = .endOfInput := by
  induction rounds generalizing least with
  | zero =>
      intro s _ s' hrecorded _
      have hlength := congrArg List.length hrecorded.texts
      have hleast := hrecorded.least
      rw [List.length_append] at hlength
      omega
  | succ rounds ih =>
      intro s _ s' hrecorded hok
      by_cases hend : s.compiler.current.kind = .endOfInput
      · have hdone : s' = s := by
          change (if ¬decide (s.compiler.current.kind = Token.Kind.endOfInput) = true then _
            else pure () : Compile Unit) s = .ok _ s' at hok
          rw [if_neg (by simpa using hend)] at hok
          exact (pure_eq_ok.1 hok).2
        subst hdone
        exact ⟨hrecorded.mono (Nat.zero_le _), hend⟩
      · change (if ¬decide (s.compiler.current.kind = Token.Kind.endOfInput) = true then
          globalDeclaration >>= fun _ => globalDeclarations rounds else pure () : Compile Unit) s =
          .ok _ s' at hok
        rw [if_pos (by simpa using hend)] at hok
        exact ((gains_globalDeclaration stream least).bind fun _ =>
          ih (least + 1) (by omega)) hrecorded hok

/-- The tree of a program has the texts of all tokens, and it is known that they end. -/
theorem turns_finish (stream : Token.Stream) (entry : Nat) :
    Turns (fun s => Recorded stream [] 0 s ∧ s.compiler.current.kind = .endOfInput) (finish entry)
      fun program _ => stream.failure? = none ∧ program.tree.terminals = stream.texts ∧
        program.tree.Collapsed := by
  refine (Keeps.view _).turns fun symbols => ?_
  cases symbols.symbols.find? fun symbol => symbol.cls = .function && !symbol.defined
  case' some prototype => refine (Keeps.throw _).turns fun _ => ?_
  all_goals
    refine (Keeps.view _).turns fun token => (keeps_locate token).turns fun _ =>
      (keeps_resolve _ _).turns fun main => ?_
    have hlast : Turns (fun s => Recorded stream [] 0 s ∧ s.compiler.current.kind = .endOfInput)
        (do
          patchHere (← view (·.startup))
          emitWith .call main.value
          emit .exit
          onMachine (modify fun machine => machine.report
            (.compiled entry machine.textEnd machine.dataLength symbols.symbols.length))
          return { entry, symbols := symbols.symbols, tree := (← view (·.tree)).finish })
        fun (program : Program) _ => stream.failure? = none ∧
          program.tree.terminals = stream.texts ∧ program.tree.Collapsed := by
      refine (Keeps.view _).turns fun _ => (keeps_patchHere _).turns fun _ =>
        (keeps_emitWith _ _).turns fun _ => (keeps_emit _).turns fun _ =>
        (Keeps.onMachine _).turns fun _ => ?_
      rintro s program s' ⟨hrecorded, hend⟩ hok
      have hprogram : program.tree = s.compiler.tree.finish := by
        cases hok
        rfl
      have htexts := hrecorded.texts
      rw [remaining, if_pos hend, List.append_nil, List.append_nil] at htexts
      rw [hprogram, Tree.Builder.terminals_finish]
      exact ⟨hrecorded.ended hend, htexts, hrecorded.collapsed.finish⟩
    exact .ite ((Keeps.throw _).turns fun _ => .ite ((Keeps.throw _).turns fun _ => hlast) hlast)
      (.ite ((Keeps.throw _).turns fun _ => hlast) hlast)

theorem turns_program (stream : Token.Stream) :
    Turns (Recorded stream [] 0) program fun program _ => stream.failure? = none ∧
      program.tree.terminals = stream.texts ∧ program.tree.Collapsed := by
  have hget : Keeps (get : Compile State) :=
    ⟨by rintro s _ s' ⟨⟩; rfl, by rintro stream held least s _ s' hrecorded ⟨⟩; exact hrecorded⟩
  refine (hget.recorded stream [] 0).bind fun _ => ((keeps_emitPending _).recorded stream [] 0).bind
    fun _ => ((Keeps.update (by intro; rfl)).recorded stream [] 0).bind fun _ => ?_
  intro s program s' hrecorded hok
  have hrounds : stream.texts.length < 0 + s.compiler.bound := by
    rw [Nat.zero_add]
    exact hrecorded.bound
  exact ((turns_globalDeclarations stream _ 0 hrounds).bind fun _ =>
    turns_finish stream _) hrecorded hok

theorem recorded_starting_done {machine : Machine} {source : String} {offset : Nat} :
    Recorded (.done offset) [] 0 ⟨machine, starting source (.endAt offset) (.done offset)⟩ where
  texts := rfl
  least := Nat.le_refl 0
  collapsed := Tree.Builder.collapsed_initial
  failure := rfl
  proper := List.not_mem_nil
  ended := fun _ => rfl
  bound := Nat.zero_lt_succ _

theorem recorded_starting_cons {machine : Machine} {source : String} {token : Token}
    {rest : Token.Stream} (hproper : Token.Kind.endOfInput ∉ (Token.Stream.cons token rest).kinds) :
    Recorded (.cons token rest) [] 0 ⟨machine, starting source token rest⟩ := by
  rw [Token.Stream.kinds, List.mem_cons, not_or] at hproper
  have hkind : token.kind ≠ .endOfInput := Ne.symm hproper.1
  exact
    { texts := by
        change (if token.kind = .endOfInput then [] else token.text :: rest.texts) = _
        rw [if_neg hkind, Token.Stream.texts]
      least := Nat.le_refl 0
      collapsed := Tree.Builder.collapsed_initial
      failure := rfl
      proper := hproper.2
      ended := fun hend => absurd hend hkind
      bound := by
        change rest.texts.length + 1 < rest.length + 2
        rw [rest.length_texts]
        exact Nat.lt_succ_self _ }

theorem program_of_start {source : String} {current : Token} {upcoming : Token.Stream}
    {machine machine' : Machine} {result : Program}
    (hok : compile.start source current upcoming machine = .ok result machine') :
    ∃ s, program ⟨machine, starting source current upcoming⟩ = .ok result s := by
  unfold compile.start at hok
  simp only at hok
  split at hok
  · next found machine'' compiler hrun =>
      cases hok
      exact ⟨_, hrun⟩
  · cases hok

end Compiler

open Compiler

/-- The tree of a program has the texts of the tokens of its source, each once and in order, and no
level of an expression shows in it with a single child. -/
theorem compile_tree {source : String} {machine machine' : Machine} {program : Program}
    (hok : compile source machine = .ok program machine') :
    ∃ tokens, tokenize source = .ok tokens ∧
      program.tree.terminals = tokens.map (·.text) ∧ program.tree.Collapsed := by
  have hwhole : (Token.Stream.ofSource source).failure? = none ∧
      program.tree.terminals = (Token.Stream.ofSource source).texts ∧ program.tree.Collapsed := by
    have hproper := Token.Stream.proper_read source { rest := source.toList, offset := 0 }
    change Token.Kind.endOfInput ∉ (Token.Stream.ofSource source).kinds at hproper
    rw [compile] at hok
    cases hstream : Token.Stream.ofSource source with
    | failed error =>
        rw [hstream] at hok
        cases hok
    | done offset =>
        rw [hstream] at hok
        obtain ⟨s, hrun⟩ := program_of_start hok
        exact turns_program _ recorded_starting_done hrun
    | cons token rest =>
        rw [hstream] at hok hproper
        obtain ⟨s, hrun⟩ := program_of_start hok
        exact turns_program _ (recorded_starting_cons hproper) hrun
  obtain ⟨hfailure, hterminals, hcollapsed⟩ := hwhole
  obtain ⟨tokens, htokens⟩ := Token.Stream.exists_toList? hfailure
  exact ⟨tokens, htokens, hterminals.trans (Token.Stream.texts_eq htokens), hcollapsed⟩

theorem compile_tree_countdown : ∃ program machine' tokens,
    compile countdown Machine.small = .ok program machine' ∧ tokenize countdown = .ok tokens ∧
      program.tree.terminals = tokens.map (·.text) ∧ program.tree.Collapsed := by
  obtain ⟨program, machine', hok⟩ := isCompiled_iff.1 isCompiled_countdown
  obtain ⟨tokens, htree⟩ := compile_tree hok
  exact ⟨program, machine', tokens, hok, htree⟩

end WordC
