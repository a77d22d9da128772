import WordC.Program
import WordC.Proofs.Machine.Respects

/-!
# The compiler and its machine

The compiler sees of its machine how far text and data reach, and changes it by writing text and
data only. So it respects every relation of machines that writing respects, whether it succeeds or
not: there is one lemma for each rule of the language, and no rule has an argument of its own.
-/

namespace WordC

/-- A relation of machines that writing text and data respects. -/
structure Machine.Emission (related : Machine → Machine → Prop) : Prop where
  textEnd : ∀ ⦃m n⦄, related m n → m.textEnd = n.textEnd
  dataLength : ∀ ⦃m n⦄, related m n → m.dataLength = n.dataLength
  emitWord : ∀ word, Respects related (Machine.emitWord word)
  patch : ∀ address word, Respects related (Machine.patch address word)
  allocate : ∀ words, Respects related (Machine.allocate words)
  report : ∀ ⦃m n⦄ event, related m n → related (m.report event) (n.report event)

namespace Compiler

/-- The states of the same compilation on related machines. -/
structure State.Related (related : Machine → Machine → Prop) (s t : State) : Prop where
  machine : related s.machine t.machine
  compiler : s.compiler = t.compiler

variable {related : Machine → Machine → Prop} {α β : Type}

/-- An action of the compiler that respects a relation of machines. -/
def Carries (related : Machine → Machine → Prop) (action : Compile α) : Prop :=
  Respects (State.Related related) action

namespace Carries

theorem pure (value : α) : Carries related (pure value) :=
  Respects.pure value

theorem throw (error : Error) : Carries related (throw error : Compile α) :=
  Respects.throw error

theorem bind {action : Compile α} {next : α → Compile β} (haction : Carries related action)
    (hnext : ∀ value, Carries related (next value)) : Carries related (action >>= next) :=
  Respects.bind haction hnext

theorem ite {condition : Prop} [Decidable condition] {first second : Compile α}
    (hfirst : Carries related first) (hsecond : Carries related second) :
    Carries related (if condition then first else second) :=
  Respects.ite (fun _ => hfirst) fun _ => hsecond

theorem guard {condition : Prop} [Decidable condition] {error : Error} {next : Compile α}
    (hnext : Carries related next) :
    Carries related (if condition then ((MonadExcept.throw error : Compile PUnit) >>= fun _ => next)
      else next) :=
  .ite ((throw error).bind fun _ => hnext) hnext

theorem onMachine {action : Action α} (haction : Respects related action) :
    Carries related (onMachine action) := by
  rintro ⟨m, compiler⟩ ⟨n, compiler'⟩ ⟨hmachine, hcompiler⟩
  change compiler = compiler' at hcompiler
  subst hcompiler
  have hresult := haction hmachine
  unfold Compiler.onMachine
  simp only
  generalize action m = first at hresult ⊢
  generalize action n = second at hresult ⊢
  cases hresult with
  | ok hrelated => exact .ok ⟨hrelated, rfl⟩
  | error hrelated => exact .error ⟨hrelated, rfl⟩

theorem view (field : Compiler → α) : Carries related (view field) := by
  rintro ⟨m, compiler⟩ ⟨n, compiler'⟩ ⟨hmachine, hcompiler⟩
  change compiler = compiler' at hcompiler
  subst hcompiler
  exact .ok ⟨hmachine, rfl⟩

theorem update (change : Compiler → Compiler) : Carries related (update change) := by
  rintro ⟨m, compiler⟩ ⟨n, compiler'⟩ ⟨hmachine, hcompiler⟩
  change compiler = compiler' at hcompiler
  subst hcompiler
  exact .ok ⟨hmachine, rfl⟩

theorem ofExcept (result : Except Error α) : Carries related (ofExcept result) := by
  cases result with
  | ok value => exact pure value
  | error error => exact throw error

end Carries

open Carries

/-! ## Tokens, rules and names -/

theorem carries_openRule (rule : Rule) : Carries related (openRule rule) :=
  .update _

theorem carries_closeRule : Carries related closeRule :=
  .update _

theorem carries_record (token : Token) : Carries related (record token) :=
  .update _

theorem carries_peek : Carries related peek :=
  .view _

theorem carries_locate (token : Token) : Carries related (locate token) :=
  (Carries.view _).bind fun _ => .pure _

theorem carries_unexpected (expected : Expected) :
    Carries related (unexpected expected : Compile α) :=
  (Carries.view _).bind fun _ => (carries_locate _).bind fun _ => .throw _

theorem carries_take : Carries related take := by
  refine (Carries.view _).bind fun token => (Carries.view _).bind fun upcoming => ?_
  cases upcoming with
  | failed error => exact .throw error
  | done offset => exact (Carries.update _).bind fun _ => .pure token
  | cons next rest => exact (Carries.update _).bind fun _ => .pure token

theorem carries_advance : Carries related advance :=
  carries_take.bind fun _ => carries_record _

theorem carries_atKind (kind : Token.Kind) : Carries related (atKind kind) :=
  carries_peek.bind fun _ => .pure _

theorem carries_atMark (mark : Punctuator) : Carries related (atMark mark) :=
  carries_atKind _

theorem carries_expect (kind : Token.Kind) : Carries related (expect kind) :=
  (carries_atKind kind).bind fun _ => .ite carries_advance (carries_unexpected _)

theorem carries_expectMark (mark : Punctuator) : Carries related (expectMark mark) :=
  carries_expect _

theorem carries_expectIdentifier : Carries related expectIdentifier := by
  refine (Carries.view _).bind fun token => ?_
  cases token.kind with
  | identifier name =>
      exact (carries_locate token).bind fun _ => carries_advance.bind fun _ => .pure _
  | _ => exact carries_unexpected _

theorem carries_expectType : Carries related expectType := by
  refine carries_peek.bind fun kind => ?_
  cases kind.typeName? with
  | some type => exact carries_advance.bind fun _ => .pure type
  | none => exact carries_unexpected _

theorem carries_declare (symbol : Symbol) : Carries related (declare symbol) :=
  (Carries.view _).bind fun _ => (Carries.ofExcept _).bind fun _ =>
    (Carries.update _).bind fun _ => .pure _

theorem carries_resolve (name : String) (position : Position) :
    Carries related (resolve name position) :=
  (Carries.view _).bind fun _ => .ofExcept _

theorem carries_enterScope : Carries related enterScope :=
  .update _

theorem carries_leaveScope : Carries related leaveScope := by
  refine (Carries.view _).bind fun symbols => ?_
  cases symbols.leave? with
  | some outside => exact .update _
  | none => exact .throw _

/-! ## Instructions -/

variable (hemission : Machine.Emission related)

include hemission

theorem carries_here : Carries related here := by
  rintro ⟨m, compiler⟩ ⟨n, compiler'⟩ h
  change Alike _ (.ok (Word.ofCount m.textEnd) _) (.ok (Word.ofCount n.textEnd) _)
  rw [hemission.textEnd h.machine]
  exact .ok h

theorem carries_emit (opcode : Opcode) : Carries related (emit opcode) :=
  (Carries.onMachine (hemission.emitWord _)).bind fun _ => .pure _

theorem carries_emitWith (opcode : Opcode) (operand : Word) :
    Carries related (emitWith opcode operand) :=
  (carries_emit hemission opcode).bind fun _ =>
    (Carries.onMachine (hemission.emitWord operand)).bind fun _ => .pure _

theorem carries_emitPending (opcode : Opcode) : Carries related (emitPending opcode) :=
  (carries_emit hemission opcode).bind fun _ => .onMachine (hemission.emitWord _)

theorem carries_patch (site : Nat) (word : Word) : Carries related (patch site word) :=
  .onMachine (hemission.patch site word)

theorem carries_patchHere (site : Nat) : Carries related (patchHere site) :=
  (carries_here hemission).bind fun _ => carries_patch hemission site _

theorem carries_emitAddress (symbol : Symbol) : Carries related (emitAddress symbol) :=
  carries_emitWith hemission _ _

/-! ## Expressions -/

variable {operand argument statement : Compile Unit}

theorem carries_linkOperand (hoperand : Carries related operand) (link : Link) :
    Carries related (linkOperand operand link) := by
  cases link with
  | combines operator =>
      exact (carries_emit hemission _).bind fun _ => hoperand.bind fun _ => carries_emit hemission _
  | decides jump =>
      exact (carries_emitPending hemission _).bind fun _ => hoperand.bind fun _ =>
        (carries_patchHere hemission _).bind fun _ => (carries_emit hemission _).bind fun _ =>
        (carries_emitWith hemission _ _).bind fun _ => carries_emit hemission _

theorem carries_chain (level : Level) (hoperand : Carries related operand) (rounds : Nat) :
    Carries related (chain level operand rounds) := by
  induction rounds with
  | zero => exact .throw _
  | succ rounds ih =>
      refine carries_peek.bind fun kind => ?_
      cases level.link? kind with
      | none => exact .pure _
      | some link =>
          exact carries_advance.bind fun _ =>
            (carries_linkOperand hemission hoperand link).bind fun _ => ih

theorem carries_cascade {first : Compile Unit} (hfirst : Carries related first)
    (hoperand : Carries related operand) (levels : List Level) :
    Carries related (cascade first operand levels) := by
  induction levels generalizing first with
  | nil => exact hfirst
  | cons level tighter ih =>
      exact (carries_openRule _).bind fun _ => (ih hfirst).bind fun _ =>
        (Carries.view _).bind fun _ =>
        (carries_chain hemission level (ih hoperand) _).bind fun _ => carries_closeRule

theorem carries_arguments (hargument : Carries related argument) (rounds : Nat) :
    Carries related (arguments argument rounds) := by
  induction rounds with
  | zero => exact .throw _
  | succ rounds ih =>
      exact hargument.bind fun _ => (carries_emit hemission _).bind fun _ =>
        (carries_atMark _).bind fun _ =>
        .ite (carries_advance.bind fun _ => ih.bind fun _ => .pure _) (.pure _)

theorem carries_emitCall (callee : Symbol) (given : Nat) (position : Position) :
    Carries related (emitCall callee given position) := by
  have hadjust : Carries related
      (if 0 < given then emitWith .adj (Word.ofCount given) else Pure.pure ()) :=
    .ite (carries_emitWith hemission _ _) (.pure _)
  refine .ite ?_ (.ite ?_ ?_)
  · cases (Opcode.ofWord? callee.value).filter (·.isTrap) with
    | some trap => exact carries_emitWith hemission _ _
    | none => exact .throw _
  · exact (carries_emitWith hemission _ _).bind fun _ => hadjust
  · exact (carries_emitPending hemission _).bind fun _ => (Carries.update _).bind fun _ => hadjust

theorem carries_call (hargument : Carries related argument) (callee : Symbol)
    (position : Position) : Carries related (call argument callee position) := by
  refine (carries_expectMark _).bind fun _ => (carries_atMark _).bind fun _ =>
    .ite ((Carries.pure 0).bind fun given => ?_)
      ((Carries.view _).bind fun _ => (carries_arguments hemission hargument _).bind fun given => ?_)
  all_goals
    refine (carries_expectMark _).bind fun _ => ?_
    cases callee.params with
    | some expected => exact .guard (carries_emitCall hemission callee given position)
    | none => exact carries_emitCall hemission callee given position

theorem carries_nameValue (hargument : Carries related argument) (token : Token) :
    Carries related (nameValue argument token) := by
  refine (carries_locate token).bind fun position => ?_
  cases token.kind with
  | identifier name =>
      refine (carries_resolve name position).bind fun symbol => ?_
      have hcall : Carries related (do
          openRule .call
          record token
          call argument symbol position
          closeRule) :=
        (carries_openRule _).bind fun _ => (carries_record token).bind fun _ =>
          (carries_call hemission hargument symbol position).bind fun _ => carries_closeRule
      cases symbol.cls with
      | object =>
          exact (carries_record token).bind fun _ => (carries_emitAddress hemission symbol).bind
            fun _ => carries_emit hemission _
      | constant => exact (carries_record token).bind fun _ => carries_emitWith hemission _ _
      | function => exact hcall
      | system => exact hcall
  | _ => exact carries_unexpected _

theorem carries_addressOf : Carries related addressOf := by
  refine carries_expectIdentifier.bind fun found => (carries_resolve _ _).bind fun symbol => ?_
  exact .guard (carries_emitAddress hemission symbol)

theorem carries_primary {nested : Compile Unit} (hnested : Carries related nested) :
    Carries related (primary nested) := by
  have hload (word : Word) : Carries related (advance >>= fun _ => emitWith .imm word) :=
    carries_advance.bind fun _ => carries_emitWith hemission _ _
  refine carries_peek.bind fun kind => ?_
  cases kind with
  | number value => exact hload value
  | character c => exact hload _
  | string text => exact (Carries.onMachine (hemission.allocate _)).bind fun _ => hload _
  | identifier name =>
      exact carries_take.bind fun token => carries_nameValue hemission hnested token
  | punctuator mark =>
      cases mark with
      | leftParen =>
          exact carries_advance.bind fun _ => hnested.bind fun _ => carries_expectMark _
      | _ => exact carries_unexpected _
  | _ => exact carries_unexpected _

theorem carries_unary (depth : Nat) : Carries related (unary depth) := by
  induction depth with
  | zero => exact .throw _
  | succ depth ih =>
      refine (carries_openRule _).bind fun _ => carries_peek.bind fun kind => ?_
      have hclose (word : Word) (operator : Operator) : Carries related (do
          emit .push
          emitWith .imm word
          emit (.binary operator)
          closeRule) :=
        (carries_emit hemission _).bind fun _ => (carries_emitWith hemission _ _).bind fun _ =>
          (carries_emit hemission _).bind fun _ => carries_closeRule
      have hprimary : Carries related (do
          primary (cascade (unary depth) (unary depth) levels)
          closeRule) :=
        (carries_primary hemission (carries_cascade hemission ih ih levels)).bind fun _ =>
          carries_closeRule
      cases kind with
      | punctuator mark =>
          cases mark with
          | minus =>
              exact carries_advance.bind fun _ => (carries_emitWith hemission _ _).bind fun _ =>
                (carries_emit hemission _).bind fun _ => ih.bind fun _ =>
                (carries_emit hemission _).bind fun _ => carries_closeRule
          | plus => exact carries_advance.bind fun _ => ih.bind fun _ => carries_closeRule
          | bang => exact carries_advance.bind fun _ => ih.bind fun _ => hclose 0 .eq
          | tilde => exact carries_advance.bind fun _ => ih.bind fun _ => hclose (-1) .xor
          | star =>
              exact carries_advance.bind fun _ => ih.bind fun _ =>
                (carries_emit hemission _).bind fun _ => carries_closeRule
          | amp =>
              exact carries_advance.bind fun _ => (carries_addressOf hemission).bind fun _ =>
                carries_closeRule
          | _ => exact hprimary
      | keyword word =>
          cases word with
          | sizeofKw =>
              exact carries_advance.bind fun _ => (carries_expectMark _).bind fun _ =>
                carries_expectType.bind fun _ => (carries_expectMark _).bind fun _ =>
                (carries_emitWith hemission _ _).bind fun _ => carries_closeRule
          | _ => exact hprimary
      | _ => exact hprimary

theorem carries_expression : Carries related expression :=
  (Carries.view _).bind fun depth => carries_cascade hemission (carries_unary hemission depth)
    (carries_unary hemission depth) levels

theorem carries_expressionFrom (head : Token) : Carries related (expressionFrom head) :=
  (Carries.view _).bind fun depth => carries_cascade hemission
    (carries_nameValue hemission (carries_expression hemission) head)
    (carries_unary hemission depth) levels

/-! ## Statements -/

theorem carries_emitStore (symbol : Symbol) : Carries related (emitStore symbol) :=
  (carries_emit hemission _).bind fun _ => (carries_emitAddress hemission symbol).bind fun _ =>
    carries_emit hemission _

theorem carries_localVariables (type : TypeName) (rounds : Nat) :
    Carries related (localVariables type rounds) := by
  induction rounds with
  | zero => exact .throw _
  | succ rounds ih =>
      refine carries_expectIdentifier.bind fun found => (Carries.update _).bind fun _ =>
        (Carries.view _).bind fun slot => (carries_declare _).bind fun symbol =>
        (carries_atMark _).bind fun _ => ?_
      have hmore : Carries related (atMark .comma >>= fun more =>
          if more then advance >>= fun _ => localVariables type rounds else Pure.pure ()) :=
        (carries_atMark _).bind fun _ => .ite (carries_advance.bind fun _ => ih) (.pure _)
      exact .ite (carries_advance.bind fun _ => (carries_expression hemission).bind fun _ =>
        (carries_emitStore hemission symbol).bind fun _ => hmore) hmore

theorem carries_localDeclaration : Carries related localDeclaration :=
  (carries_openRule _).bind fun _ => carries_expectType.bind fun type =>
    (Carries.view _).bind fun _ =>
    (carries_localVariables hemission type _).bind fun _ => (carries_expectMark _).bind fun _ =>
    carries_closeRule

theorem carries_localDeclarations (rounds : Nat) : Carries related (localDeclarations rounds) := by
  induction rounds with
  | zero => exact .throw _
  | succ rounds ih =>
      exact carries_peek.bind fun _ =>
        .ite ((carries_localDeclaration hemission).bind fun _ => ih) (.pure _)

omit hemission in
theorem carries_statements (hstatement : Carries related statement) (rounds : Nat) :
    Carries related (statements statement rounds) := by
  induction rounds with
  | zero => exact .throw _
  | succ rounds ih =>
      exact (carries_atMark _).bind fun _ => .ite (hstatement.bind fun _ => ih) (.pure _)

theorem carries_blockContents (hstatement : Carries related statement) :
    Carries related (blockContents statement) :=
  (Carries.view _).bind fun _ => (carries_localDeclarations hemission _).bind fun _ =>
    carries_statements hstatement _

theorem carries_block (hstatement : Carries related statement) :
    Carries related (block statement) :=
  (carries_openRule _).bind fun _ => (carries_expectMark _).bind fun _ =>
    carries_enterScope.bind fun _ => (Carries.view _).bind fun _ =>
    (carries_blockContents hemission hstatement).bind fun _ => (carries_expectMark _).bind fun _ =>
    carries_leaveScope.bind fun _ => (Carries.update _).bind fun _ => carries_closeRule

theorem carries_ifStatement (hstatement : Carries related statement) :
    Carries related (ifStatement statement) := by
  refine (carries_openRule _).bind fun _ => (carries_expect _).bind fun _ =>
    (carries_expectMark _).bind fun _ => (carries_expression hemission).bind fun _ =>
    (carries_expectMark _).bind fun _ => (carries_emitPending hemission _).bind fun skipThen =>
    hstatement.bind fun _ => (carries_atKind _).bind fun _ => ?_
  refine .ite ?_ ((carries_patchHere hemission _).bind fun _ => carries_closeRule)
  exact carries_advance.bind fun _ => (carries_emitPending hemission _).bind fun skipElse =>
    (carries_patchHere hemission _).bind fun _ => hstatement.bind fun _ =>
    (carries_patchHere hemission _).bind fun _ => carries_closeRule

theorem carries_whileStatement (hstatement : Carries related statement) :
    Carries related (whileStatement statement) :=
  (carries_openRule _).bind fun _ => (carries_here hemission).bind fun _ =>
    (carries_expect _).bind fun _ => (carries_expectMark _).bind fun _ =>
    (carries_expression hemission).bind fun _ => (carries_expectMark _).bind fun _ =>
    (carries_emitPending hemission _).bind fun _ => hstatement.bind fun _ =>
    (carries_emitWith hemission _ _).bind fun _ => (carries_patchHere hemission _).bind fun _ =>
    carries_closeRule

theorem carries_returnStatement : Carries related returnStatement := by
  have hbehind : Carries related (do
      expectMark .semicolon
      emit .lev
      closeRule) :=
    (carries_expectMark _).bind fun _ => (carries_emit hemission _).bind fun _ => carries_closeRule
  exact (carries_openRule _).bind fun _ => (carries_expect _).bind fun _ =>
    (carries_atMark _).bind fun _ =>
    .ite ((carries_expression hemission).bind fun _ => hbehind) hbehind

theorem carries_assignment (target : Token) : Carries related (assignment target) := by
  refine (carries_openRule _).bind fun _ => (carries_record target).bind fun _ =>
    (carries_locate target).bind fun position => ?_
  cases target.kind with
  | identifier name =>
      refine (carries_resolve name position).bind fun symbol => ?_
      exact .guard ((carries_expectMark _).bind fun _ => (carries_expression hemission).bind fun _ =>
        (carries_expectMark _).bind fun _ => (carries_emitStore hemission symbol).bind fun _ =>
        carries_closeRule)
  | _ => exact carries_unexpected _

omit hemission in
theorem carries_expressionStatement {value : Compile Unit} (hvalue : Carries related value) :
    Carries related (expressionStatement value) :=
  (carries_openRule _).bind fun _ => hvalue.bind fun _ => (carries_expectMark _).bind fun _ =>
    carries_closeRule

theorem carries_statementAt (depth : Nat) : Carries related (statementAt depth) := by
  induction depth with
  | zero => exact .throw _
  | succ depth ih =>
      have hvalue := carries_expressionStatement (carries_expression hemission)
      refine carries_peek.bind fun kind => ?_
      cases kind with
      | punctuator mark =>
          cases mark with
          | leftBrace => exact carries_block hemission ih
          | semicolon => exact carries_advance
          | _ => exact hvalue
      | keyword word =>
          cases word with
          | ifKw => exact carries_ifStatement hemission ih
          | whileKw => exact carries_whileStatement hemission ih
          | returnKw => exact carries_returnStatement hemission
          | _ => exact hvalue
      | identifier name =>
          exact carries_take.bind fun head => (carries_atMark _).bind fun _ =>
            .ite (carries_assignment hemission head)
              (carries_expressionStatement (carries_expressionFrom hemission head))
      | _ => exact hvalue

theorem carries_statement : Carries related Compiler.statement :=
  (Carries.view _).bind fun depth => carries_statementAt hemission depth

/-! ## Declarations -/

theorem carries_initializer (address : Nat) : Carries related (initializer address) :=
  (Carries.view _).bind fun _ => (carries_patchHere hemission _).bind fun _ =>
    (carries_expression hemission).bind fun _ => (carries_emit hemission _).bind fun _ =>
    (carries_emitWith hemission _ _).bind fun _ => (carries_emit hemission _).bind fun _ =>
    (carries_emitPending hemission _).bind fun _ => .update _

omit hemission in
theorem carries_constant : Carries related constant := by
  refine (carries_atMark _).bind fun negative => .ite (carries_advance.bind fun _ => ?_) ?_
  all_goals
    refine carries_peek.bind fun kind => ?_
    cases kind with
    | number value => exact carries_advance.bind fun _ => .pure _
    | character c => exact carries_advance.bind fun _ => .pure _
    | _ => exact (carries_unexpected _).bind fun _ => carries_advance.bind fun _ => .pure _

omit hemission in
theorem carries_enumerators (value : Word) (rounds : Nat) :
    Carries related (enumerators value rounds) := by
  induction rounds generalizing value with
  | zero => exact .throw _
  | succ rounds ih =>
      refine (carries_atMark _).bind fun _ => .ite ?_ (.pure _)
      refine carries_expectIdentifier.bind fun found => (carries_atMark _).bind fun _ => ?_
      have hbehind (value : Word) : Carries related (do
          let _ ← declare
            { name := found.1, cls := .constant, type := .int, value, position := found.2 }
          if ← atMark .comma then
            advance
            enumerators (value + 1) rounds) :=
        (carries_declare _).bind fun _ => (carries_atMark _).bind fun _ =>
          .ite (carries_advance.bind fun _ => ih (value + 1)) (.pure _)
      exact .ite (carries_advance.bind fun _ => carries_constant.bind hbehind) (hbehind value)

omit hemission in
theorem carries_enumDeclaration : Carries related enumDeclaration := by
  refine (carries_openRule _).bind fun _ => (carries_expect _).bind fun _ =>
    carries_peek.bind fun kind => ?_
  have hbehind : Carries related (do
      expectMark .leftBrace
      enumerators 0 (← view (·.bound))
      expectMark .rightBrace
      expectMark .semicolon
      closeRule) :=
    (carries_expectMark _).bind fun _ => (Carries.view _).bind fun _ =>
      (carries_enumerators 0 _).bind fun _ => (carries_expectMark _).bind fun _ =>
      (carries_expectMark _).bind fun _ => carries_closeRule
  cases kind with
  | identifier name => exact carries_advance.bind fun _ => hbehind
  | _ => exact hbehind

omit hemission in
theorem carries_parameterList (isFirst : Bool) (rounds : Nat) :
    Carries related (parameterList isFirst rounds) := by
  induction rounds generalizing isFirst with
  | zero => exact .throw _
  | succ rounds ih =>
      refine carries_expectType.bind fun type => (carries_atMark _).bind fun _ =>
        .ite (.pure _) ?_
      exact carries_expectIdentifier.bind fun found => (carries_atMark _).bind fun _ =>
        .ite (carries_advance.bind fun _ => (ih false).bind fun _ => .pure _) (.pure _)

omit hemission in
theorem carries_parameters : Carries related parameters := by
  have hbehind (list : List Parameter) : Carries related (do
      expectMark .rightParen
      closeRule
      return list) :=
    (carries_expectMark _).bind fun _ => carries_closeRule.bind fun _ => .pure list
  exact (carries_openRule _).bind fun _ => (carries_expectMark _).bind fun _ =>
    (carries_atMark _).bind fun _ => .ite (hbehind [])
      ((Carries.view _).bind fun _ => (carries_parameterList true _).bind hbehind)

omit hemission in
theorem carries_declareParameters (arity : Nat) (list : List Parameter) (index : Nat) :
    Carries related (declareParameters arity list index) := by
  induction list generalizing index with
  | nil => exact .pure _
  | cons parameter rest ih => exact (carries_declare _).bind fun _ => ih (index + 1)

omit hemission in
theorem carries_prototype? (name : String) : Carries related (prototype? name) :=
  (Carries.view _).bind fun _ => .pure _

theorem carries_patchAll (sites : List Nat) (word : Word) :
    Carries related (patchAll sites word) := by
  induction sites with
  | nil => exact .pure _
  | cons site rest ih => exact (carries_patch hemission site word).bind fun _ => ih

theorem carries_bindFunction (symbol : Symbol) (arity : Nat) :
    Carries related (bindFunction symbol arity) := by
  refine (carries_prototype? symbol.name).bind fun found => ?_
  cases found with
  | none => exact (carries_declare _).bind fun _ => .pure _
  | some prototype =>
      refine .guard ((Carries.view _).bind fun symbols => ?_)
      cases symbols.defineFunction? symbol.name symbol.value
      case' some defined => refine (Carries.update _).bind fun _ => ?_
      all_goals
        exact (Carries.view _).bind fun _ => (Carries.update _).bind fun _ =>
          carries_patchAll hemission _ _

theorem carries_functionBody : Carries related functionBody :=
  (carries_openRule _).bind fun _ => (carries_expectMark _).bind fun _ =>
    (carries_blockContents hemission (carries_statement hemission)).bind fun _ =>
    (carries_expectMark _).bind fun _ => carries_closeRule

theorem carries_function (type : TypeName) (name : String) (position : Position) :
    Carries related (function type name position) := by
  refine carries_parameters.bind fun list => (carries_atMark _).bind fun _ => .ite ?_ ?_
  · exact carries_advance.bind fun _ => (carries_declare _).bind fun _ => .pure _
  · exact (carries_here hemission).bind fun entry =>
      (carries_bindFunction hemission _ _).bind fun _ => carries_enterScope.bind fun _ =>
      (carries_declareParameters _ list 0).bind fun _ => (Carries.update _).bind fun _ =>
      (carries_emitPending hemission _).bind fun _ => (carries_functionBody hemission).bind fun _ =>
      (carries_emit hemission _).bind fun _ => (Carries.view _).bind fun _ =>
      (carries_patch hemission _ _).bind fun _ => carries_leaveScope.bind fun _ =>
      .onMachine (Respects.modify fun _ _ h => hemission.report _ h)

theorem carries_globalNames (type : TypeName) (rounds : Nat) :
    Carries related (globalNames type rounds) := by
  induction rounds with
  | zero => exact .throw _
  | succ rounds ih =>
      refine carries_expectIdentifier.bind fun found => (carries_atMark _).bind fun _ => .ite ?_ ?_
      · exact (Carries.update _).bind fun _ => carries_function hemission type _ _
      · have hmore : Carries related (atMark .comma >>= fun more =>
            if more then advance >>= fun _ => globalNames type rounds
            else expectMark .semicolon) :=
          (carries_atMark _).bind fun _ =>
            .ite (carries_advance.bind fun _ => ih) (carries_expectMark _)
        exact (Carries.onMachine (hemission.allocate _)).bind fun address =>
          (carries_declare _).bind fun _ => (carries_atMark _).bind fun _ =>
          .ite (carries_advance.bind fun _ => (carries_initializer hemission address).bind
            fun _ => hmore) hmore

theorem carries_globalDeclaration : Carries related globalDeclaration :=
  (carries_atKind _).bind fun _ => .ite carries_enumDeclaration
    ((carries_openRule _).bind fun _ => carries_expectType.bind fun type =>
      (Carries.view _).bind fun _ => (carries_globalNames hemission type _).bind fun _ =>
      carries_closeRule)

theorem carries_globalDeclarations (rounds : Nat) :
    Carries related (globalDeclarations rounds) := by
  induction rounds with
  | zero => exact .throw _
  | succ rounds ih =>
      exact (carries_atKind _).bind fun _ =>
        .ite ((carries_globalDeclaration hemission).bind fun _ => ih) (.pure _)

/-! ## Programs -/

theorem carries_finish (entry : Nat) : Carries related (finish entry) := by
  refine (Carries.view _).bind fun symbols => ?_
  have hreport : Respects related (modify fun machine => machine.report
      (.compiled entry machine.textEnd machine.dataLength symbols.symbols.length) : Action Unit) := by
    refine Respects.modify fun m n h => ?_
    rw [hemission.textEnd h, hemission.dataLength h]
    exact hemission.report _ h
  cases symbols.symbols.find? fun symbol => symbol.cls = .function && !symbol.defined
  case' some prototype => refine (Carries.throw _).bind fun _ => ?_
  all_goals
    exact (Carries.view _).bind fun token => (carries_locate token).bind fun _ =>
      (carries_resolve _ _).bind fun main => .guard <| .guard <| (Carries.view _).bind fun _ =>
      (carries_patchHere hemission _).bind fun _ => (carries_emitWith hemission _ _).bind fun _ =>
      (carries_emit hemission _).bind fun _ => (Carries.onMachine hreport).bind fun _ =>
      (Carries.view _).bind fun _ => .pure _

theorem carries_program : Carries related program := by
  rintro ⟨m, compiler⟩ ⟨n, compiler'⟩ h
  change Alike _
    ((emitPending .jmp >>= fun startup => update (fun compiler => { compiler with startup }) >>=
      fun _ => view (·.bound) >>= fun bound => globalDeclarations bound >>= fun _ =>
      finish m.textEnd) ⟨m, compiler⟩)
    ((emitPending .jmp >>= fun startup => update (fun compiler => { compiler with startup }) >>=
      fun _ => view (·.bound) >>= fun bound => globalDeclarations bound >>= fun _ =>
      finish n.textEnd) ⟨n, compiler'⟩)
  rw [hemission.textEnd h.machine]
  exact ((carries_emitPending hemission _).bind fun _ => (Carries.update _).bind fun _ =>
    (Carries.view _).bind fun _ => (carries_globalDeclarations hemission _).bind fun _ =>
    carries_finish hemission _) h

end Compiler

/-- Compiling a source text respects what writing text and data respects. -/
theorem respects_compile {related : Machine → Machine → Prop}
    (hemission : Machine.Emission related) (source : String) :
    Respects related (compile source) := by
  have hstart (current : Token) (upcoming : Token.Stream) :
      Respects related (compile.start source current upcoming) := by
    intro m n h
    unfold compile.start
    have hrelated (compiler : Compiler) :
        Compiler.State.Related related ⟨m, compiler⟩ ⟨n, compiler⟩ := ⟨h, rfl⟩
    have hresult := Compiler.carries_program hemission (hrelated
      { source, current, upcoming, bound := upcoming.length + 2, symbols := Program.initialSymbols,
        tree := .initial, frame := {}, startup := 0, pendingCalls := [] })
    simp only
    generalize Compiler.program _ = first at hresult ⊢
    generalize Compiler.program _ = second at hresult ⊢
    cases hresult with
    | ok hrelated => exact .ok hrelated.machine
    | error hrelated => exact .error hrelated.machine
  intro m n h
  unfold compile
  cases Token.Stream.ofSource source with
  | failed error => exact .error h
  | done offset => exact hstart _ _ h
  | cons token rest => exact hstart _ _ h

end WordC
