import WordC.Proofs.Compile.Levels

/-!
# Expressions are compiled

Every expression that resolves is compiled, whatever follows it, and what is written is its code.
-/

namespace WordC.Compiler

open WordC.Core (Binding Cell Instr)
open Syntax (Binary Closes Expr operandRank)

variable {α : Type} {origin : Origin} {a b : Sketch}

theorem Sketch.Means.after {name : String} {binding : Binding} {symbol : Symbol}
    {ahead : List Token.Kind} {cells : List Cell} {data : List Word}
    (h : a.Means name binding symbol) : (a.after ahead cells data).Means name binding symbol :=
  ⟨h.find, h.named, h.records, h.entry⟩

/-! ## Calls -/

theorem arguments_succ (argument : Compile Unit) (rounds : Nat) :
    arguments argument (rounds + 1) = argument >>= fun _ => emit .push >>= fun _ =>
      atMark .comma >>= fun more =>
        if more then advance >>= fun _ => arguments argument rounds >>= fun others =>
          pure (others + 1)
        else pure 1 :=
  rfl

/-- An argument is compiled and pushed. -/
theorem reaches_pushed {β : Type} {argument : Compile Unit} {bound : Nat} {e : Expr}
    {rest : List Token.Kind} {value : Core.Expr} {next : Unit → Compile β}
    {post : β → Sketch → Prop} (hargument : Compiles origin 0 bound argument)
    (hgrammatical : e.isGrammatical) (hahead : a.ahead = e.tokens ++ rest) (hcloses : Closes 0 rest)
    (hbound : a.ahead.length < bound) (hresolve : e.resolve? a.env a.dataHere = some value)
    (hnext : Reaches origin
      (a.after rest (Core.cells (value.code a.here ++ [.plain .push])) e.data) (next ()) post) :
    Reaches origin a (argument >>= fun _ => emit .push >>= next) post := by
  refine (hargument a e rest value (Nat.zero_le _) hgrammatical hahead hcloses hbound hresolve).bind
    ?_
  refine does_emit.bind ?_
  rw [Sketch.value, Sketch.after_after, List.append_nil, Sketch.ahead_after]
  rw [Core.cells_append] at hnext
  exact hnext

/-- Arguments up to the closing parenthesis. -/
theorem does_arguments {argument : Compile Unit} {bound : Nat}
    (hargument : Compiles origin 0 bound argument) (first : Expr) (others : List Expr) :
    ∀ (a : Sketch) (rest : List Token.Kind) (values : List Core.Expr) (rounds : Nat),
      Expr.areGrammatical (first :: others) →
      a.ahead = Expr.argumentTokens (first :: others) ++ .punctuator .rightParen :: rest →
      a.ahead.length < bound → a.ahead.length < rounds →
      Expr.resolveArguments? a.env a.dataHere (first :: others) = some values →
      Does origin a (arguments argument rounds) values.length
        (a.after (.punctuator .rightParen :: rest) (Core.cells (Core.Expr.argumentCode a.here values))
          (Expr.argumentData (first :: others))) := by
  induction others generalizing first with
  | nil =>
      intro a rest values rounds hgrammatical hahead hbound hrounds hresolve
      simp only [Expr.areGrammatical, Bool.and_true] at hgrammatical
      simp only [Expr.argumentTokens, Expr.furtherTokens, List.append_nil] at hahead
      simp only [Expr.resolveArguments?, Option.bind_eq_bind, Option.bind_eq_some_iff,
        Option.some.injEq] at hresolve
      obtain ⟨value, hvalue, _, rfl, rfl⟩ := hresolve
      obtain ⟨rounds, rfl⟩ : ∃ more, rounds = more + 1 := ⟨rounds - 1, by omega⟩
      rw [arguments_succ]
      refine reaches_pushed hargument hgrammatical hahead
        (Syntax.closes_mark (by decide)) hbound hvalue ?_
      refine does_atMark.bind ?_
      rw [if_neg (by simp [Sketch.current])]
      refine Reaches.pure ⟨rfl, ?_⟩
      simp [Core.Expr.argumentCode, Expr.argumentData]
  | cons second others ih =>
      intro a rest values rounds hgrammatical hahead hbound hrounds hresolve
      rw [Expr.areGrammatical, Bool.and_eq_true] at hgrammatical
      obtain ⟨hfirst, hothers⟩ := hgrammatical
      have htokens : a.ahead = first.tokens ++ .punctuator .comma ::
          (Expr.argumentTokens (second :: others) ++ .punctuator .rightParen :: rest) := by
        rw [hahead]
        simp [Expr.argumentTokens, Expr.furtherTokens]
      rw [Expr.resolveArguments?] at hresolve
      simp only [Option.bind_eq_bind, Option.bind_eq_some_iff, Option.some.injEq] at hresolve
      obtain ⟨value, hvalue, values, hvalues, rfl⟩ := hresolve
      obtain ⟨rounds, rfl⟩ : ∃ more, rounds = more + 1 := ⟨rounds - 1, by omega⟩
      have hlength := congrArg List.length htokens
      rw [List.length_append, List.length_cons] at hlength
      rw [arguments_succ]
      refine reaches_pushed hargument hfirst htokens (Syntax.closes_mark (by decide)) hbound hvalue
        ?_
      refine does_atMark.bind ?_
      rw [if_pos (by simp [Sketch.current])]
      refine (does_advance rfl).bind ?_
      rw [Sketch.after_after, List.append_nil, List.append_nil]
      refine (ih second _ rest values rounds hothers rfl ?_ ?_ ?_).bind ?_
      · rw [Sketch.ahead_after]
        omega
      · rw [Sketch.ahead_after]
        omega
      · rw [Sketch.dataHere_after]
        exact hvalues
      · refine Reaches.pure ⟨rfl, ?_⟩
        simp [Core.Expr.argumentCode, Expr.argumentData, Core.length_cells, Nat.add_assoc]

/-- Arguments in parentheses, of which there may be none. -/
theorem does_givenArguments {argument : Compile Unit} {bound : Nat}
    (hargument : Compiles origin 0 bound argument) {args : List Expr} {rest : List Token.Kind}
    {values : List Core.Expr} (hgrammatical : Expr.areGrammatical args)
    (hahead : a.ahead = Expr.argumentTokens args ++ .punctuator .rightParen :: rest)
    (hbound : a.ahead.length < bound)
    (hresolve : Expr.resolveArguments? a.env a.dataHere args = some values) :
    Does origin a
      (atMark .rightParen >>= fun none =>
        if none then pure 0 else view (·.bound) >>= arguments argument)
      values.length
      (a.after (.punctuator .rightParen :: rest) (Core.cells (Core.Expr.argumentCode a.here values))
        (Expr.argumentData args)) := by
  refine does_atMark.bind ?_
  cases args with
  | nil =>
      cases hresolve
      rw [if_pos (decide_eq_true (Sketch.current_of_ahead hahead))]
      refine Reaches.pure ⟨rfl, ?_⟩
      have hsame := (@Sketch.after_self a).symm
      rw [hahead] at hsame
      exact hsame
  | cons first others =>
      obtain ⟨kind, behind, htokens, hopens⟩ := first.tokens_eq_cons
      have hcurrent : a.current ≠ .punctuator .rightParen := by
        rw [Sketch.current, hahead, Expr.argumentTokens, htokens]
        rintro heq
        change kind = _ at heq
        rw [heq] at hopens
        cases hopens
      rw [if_neg (by simpa using hcurrent)]
      refine reaches_bound.bind ?_
      rintro rounds b ⟨rfl, hrounds⟩
      exact does_arguments hargument first others b rest values rounds hgrammatical hahead hbound
        hrounds hresolve

/-- What a call does once its arguments are counted. -/
def finishCall (callee : Symbol) (position : Position) (given : Nat) : Compile Unit :=
  match callee.params with
  | some expected =>
      if expected ≠ given then
        (throw (.argumentCount callee.name expected given position) : Compile Unit) >>= fun _ =>
          emitCall callee given position
      else emitCall callee given position
  | none => emitCall callee given position

theorem call_eq (argument : Compile Unit) (callee : Symbol) (position : Position) :
    call argument callee position =
      (expectMark .leftParen >>= fun _ =>
        (atMark .rightParen >>= fun none =>
          if none then pure 0 else view (·.bound) >>= arguments argument) >>= fun given =>
        expectMark .rightParen >>= fun _ => finishCall callee position given) := by
  unfold call
  refine congrArg _ (funext fun _ => ?_)
  rw [bind_assoc]
  refine congrArg _ (funext fun none => ?_)
  cases none with
  | true => rfl
  | false => exact (bind_assoc _ _ _).symm

theorem does_finishCall {name : String} {binding : Binding} {symbol : Symbol} {position : Position}
    {values : List Core.Expr} {value : Core.Expr} (start : Nat)
    (hmeans : a.Means name binding symbol)
    (hcall : Expr.resolveCall? name values binding = some value) :
    ∃ code, value.code start = Core.Expr.argumentCode start values ++ code ∧
      Does origin a (finishCall symbol position values.length) ()
        (a.after a.ahead (Core.cells code) []) := by
  cases binding with
  | function arity =>
      simp only [Expr.resolveCall?, Option.ite_none_right_eq_some, Option.some.injEq] at hcall
      obtain ⟨harity, rfl⟩ := hcall
      refine ⟨_, rfl, ?_⟩
      unfold finishCall
      rw [hmeans.records.2]
      simp only [ne_eq, harity, not_true_eq_false, if_false]
      exact does_emitCall hmeans
  | system request =>
      simp only [Expr.resolveCall?, Option.ite_none_right_eq_some, Option.some.injEq] at hcall
      obtain ⟨harity, rfl⟩ := hcall
      refine ⟨_, rfl, ?_⟩
      unfold finishCall
      rw [hmeans.records.2.2]
      cases hrequest : request.arity? with
      | none => exact does_emitTrap hmeans
      | some arity =>
          rw [hrequest] at harity
          simp only [Option.all_some, beq_iff_eq] at harity
          simp only [ne_eq, harity, not_true_eq_false, if_false]
          exact does_emitTrap hmeans
  | object place => cases hcall
  | constant word => cases hcall

/-- The code of a call is that of its arguments and of the call itself. -/
theorem does_call {argument : Compile Unit} {bound : Nat}
    (hargument : Compiles origin 0 bound argument) {name : String} {binding : Binding}
    {symbol : Symbol} {position : Position} {args : List Expr} {rest : List Token.Kind}
    {values : List Core.Expr} {value : Core.Expr} (hmeans : a.Means name binding symbol)
    (hgrammatical : Expr.areGrammatical args)
    (hahead : a.ahead = .punctuator .leftParen ::
      (Expr.argumentTokens args ++ .punctuator .rightParen :: rest))
    (hbound : a.ahead.length < bound)
    (hresolve : Expr.resolveArguments? a.env a.dataHere args = some values)
    (hcall : Expr.resolveCall? name values binding = some value) :
    Does origin a (call argument symbol position) ()
      (a.value rest value (Expr.argumentData args)) := by
  rw [call_eq]
  refine (does_expect hahead).bind ?_
  have hbound' : (Expr.argumentTokens args ++ .punctuator .rightParen :: rest).length < bound := by
    rw [hahead, List.length_cons] at hbound
    omega
  refine (@does_givenArguments _ _ _ _ hargument _ _ values hgrammatical rfl hbound' ?_).bind ?_
  · rw [Sketch.dataHere_after]
    exact hresolve
  refine (does_expect rfl).bind ?_
  rw [Sketch.after_after, Sketch.after_after, List.nil_append, List.nil_append, List.append_nil,
    List.append_nil, Sketch.here_after, List.length_nil, Nat.add_zero]
  have hmeans' : (a.after rest (Core.cells (Core.Expr.argumentCode a.here values))
      (Expr.argumentData args)).Means name binding symbol := hmeans.after
  obtain ⟨code, hcode, hdoes⟩ := does_finishCall a.here hmeans' hcall
  rw [Sketch.after_after, Sketch.ahead_after, List.append_nil, ← Core.cells_append, ← hcode] at hdoes
  exact hdoes

/-! ## Names -/

/-- The name of a variable or constant stands for its value. -/
theorem does_nameValue_name {argument : Compile Unit} {token : Token} {identifier : String}
    {value : Core.Expr} (hkind : token.kind = .identifier identifier)
    (hresolve : (Expr.name identifier).resolve? a.env a.dataHere = some value) :
    Does origin a (nameValue argument token) () (a.value a.ahead value []) := by
  rw [Expr.resolve?, Option.bind_eq_some_iff] at hresolve
  obtain ⟨binding, hfind, hvalue⟩ := hresolve
  refine reaches_locate.bind ?_
  rintro position _ rfl
  rw [hkind]
  refine (reaches_resolve hfind).bind ?_
  rintro symbol _ ⟨rfl, hmeans⟩
  cases binding with
  | object place =>
      cases hvalue
      rw [hmeans.records.1]
      refine does_record.bind ?_
      refine (does_emitAddress hmeans.records).bind ?_
      refine does_emit.reaches ⟨rfl, ?_⟩
      simp [Sketch.value, Core.Expr.code]
  | constant word =>
      cases hvalue
      rw [hmeans.records.1, hmeans.records.2]
      refine does_record.bind ?_
      exact does_emitWith
  | function arity => cases hvalue
  | system request => cases hvalue

theorem does_nameValue_call {argument : Compile Unit} {bound : Nat} {token : Token}
    {callee : String} {args : List Expr} {rest : List Token.Kind} {value : Core.Expr}
    (hargument : Compiles origin 0 bound argument) (hkind : token.kind = .identifier callee)
    (hgrammatical : (Expr.call callee args).isGrammatical)
    (hahead : a.ahead = .punctuator .leftParen ::
      (Expr.argumentTokens args ++ .punctuator .rightParen :: rest))
    (hbound : a.ahead.length < bound)
    (hresolve : (Expr.call callee args).resolve? a.env a.dataHere = some value) :
    Does origin a (nameValue argument token) () (a.value rest value (Expr.argumentData args)) := by
  rw [Expr.isGrammatical] at hgrammatical
  simp only [Expr.resolve?, Option.bind_eq_bind, Option.bind_eq_some_iff] at hresolve
  obtain ⟨values, hvalues, binding, hfind, hvalue⟩ := hresolve
  refine reaches_locate.bind ?_
  rintro position _ rfl
  rw [hkind]
  refine (reaches_resolve hfind).bind ?_
  rintro symbol b ⟨rfl, hmeans⟩
  have hcall : Does origin b
      (openRule .call >>= fun _ => record token >>= fun _ =>
        call argument symbol position >>= fun _ => closeRule) ()
      (b.value rest value (Expr.argumentData args)) := by
    refine does_openRule.bind ?_
    refine does_record.bind ?_
    refine (does_call hargument hmeans hgrammatical hahead hbound hvalues hvalue).bind ?_
    exact does_closeRule
  cases binding with
  | function arity =>
      rw [hmeans.records.1]
      exact hcall
  | system request =>
      rw [hmeans.records.1]
      exact hcall
  | object place => cases hvalue
  | constant word => cases hvalue

theorem does_addressOf {identifier : String} {rest : List Token.Kind} {value : Core.Expr}
    (hahead : a.ahead = .identifier identifier :: rest)
    (hresolve : (Expr.addressOf identifier).resolve? a.env a.dataHere = some value) :
    Does origin a addressOf () (a.value rest value []) := by
  rw [Expr.resolve?, Option.bind_eq_some_iff] at hresolve
  obtain ⟨binding, hfind, hvalue⟩ := hresolve
  cases binding with
  | object place =>
      cases hvalue
      refine (reaches_expectIdentifier hahead).bind ?_
      rintro ⟨name, position⟩ b ⟨hname, rfl⟩
      change name = identifier at hname
      subst hname
      have hfind' : (a.after rest [] []).env.find? name = some (.object place) := hfind
      refine (reaches_resolve hfind').bind ?_
      rintro symbol _ ⟨rfl, hmeans⟩
      rw [if_neg (not_not_intro hmeans.records.1)]
      refine (does_emitAddress hmeans.records).reaches ⟨rfl, ?_⟩
      simp [Sketch.value, Core.Expr.code]
  | constant word => cases hvalue
  | function arity => cases hvalue
  | system request => cases hvalue

/-! ## Operands -/

theorem does_primary {nested : Compile Unit} {bound : Nat} {e : Expr} {rest : List Token.Kind}
    {value : Core.Expr} (hnested : Compiles origin 0 bound nested)
    (he : (∀ op operand, e ≠ .unary op operand) ∧ (∀ op left right, e ≠ .binary op left right) ∧
      (∀ type, e ≠ .sizeof type) ∧ ∀ identifier, e ≠ .addressOf identifier)
    (hgrammatical : e.isGrammatical) (hahead : a.ahead = e.tokens ++ rest)
    (hbound : a.ahead.length ≤ bound)
    (hresolve : e.resolve? a.env a.dataHere = some value) :
    Does origin a (primary nested) () (a.value rest value e.data) := by
  obtain ⟨hunary, hbinary, hsizeof, haddressOf⟩ := he
  refine does_peek.bind ?_
  cases e with
  | literal literal =>
      cases hresolve
      cases literal with
      | number word =>
          have htokens : a.ahead = .number word :: rest := hahead
          rw [Sketch.current_of_ahead htokens]
          refine (does_advance htokens).bind ?_
          refine does_emitWith.reaches ⟨rfl, ?_⟩
          simp [Sketch.value, Core.Expr.code, Expr.data, Syntax.Literal.value]
      | character c =>
          have htokens : a.ahead = .character c :: rest := hahead
          rw [Sketch.current_of_ahead htokens]
          refine (does_advance htokens).bind ?_
          refine does_emitWith.reaches ⟨rfl, ?_⟩
          simp [Sketch.value, Core.Expr.code, Expr.data, Syntax.Literal.value]
  | string text =>
      cases hresolve
      have htokens : a.ahead = .string text :: rest := hahead
      rw [Sketch.current_of_ahead htokens]
      refine does_allocate.bind ?_
      rw [htokens]
      refine (does_advance rfl).bind ?_
      refine does_emitWith.reaches ⟨rfl, ?_⟩
      simp [Sketch.value, Core.Expr.code, Expr.data, Syntax.stringWords]
  | name identifier =>
      rw [Sketch.current_of_ahead hahead]
      refine (reaches_take hahead).bind ?_
      rintro token _ ⟨hkind, rfl⟩
      refine Reaches.weaken (does_nameValue_name hkind hresolve) ?_
      rintro _ b ⟨-, rfl⟩
      refine ⟨rfl, ?_⟩
      simp [Sketch.value, Expr.data]
  | call callee args =>
      have htokens : a.ahead = .identifier callee :: .punctuator .leftParen ::
          (Expr.argumentTokens args ++ .punctuator .rightParen :: rest) := by
        rw [hahead]
        simp [Expr.tokens]
      rw [Sketch.current_of_ahead htokens]
      refine (reaches_take htokens).bind ?_
      rintro token _ ⟨hkind, rfl⟩
      rw [htokens, List.length_cons] at hbound
      refine Reaches.weaken (@does_nameValue_call _ _ _ _ _ _ _ _ value hnested hkind hgrammatical
        rfl (Nat.lt_of_succ_le hbound) ?_) ?_
      · rw [Sketch.dataHere_after]
        exact hresolve
      · rintro _ b ⟨-, rfl⟩
        exact ⟨rfl, by simp [Sketch.value, Expr.data]⟩
  | group inner =>
      have htokens : a.ahead = .punctuator .leftParen ::
          (inner.tokens ++ .punctuator .rightParen :: rest) := by
        rw [hahead]
        simp [Expr.tokens]
      rw [Sketch.current_of_ahead htokens]
      refine (does_advance htokens).bind ?_
      rw [htokens, List.length_cons] at hbound
      refine (hnested _ inner (.punctuator .rightParen :: rest) value (Nat.zero_le _) hgrammatical
        rfl (Syntax.closes_mark (by decide)) (Nat.lt_of_succ_le hbound) ?_).bind ?_
      · rw [Sketch.dataHere_after]
        exact hresolve
      · refine (does_expect rfl).reaches ⟨rfl, ?_⟩
        simp [Sketch.value, Expr.data]
  | sizeof type => exact absurd rfl (hsizeof type)
  | addressOf identifier => exact absurd rfl (haddressOf identifier)
  | unary op operand => exact absurd rfl (hunary op operand)
  | binary op left right => exact absurd rfl (hbinary op left right)

/-- The operand of a unary operator, whose mark has been read, and what is written around it. -/
theorem does_operand {depth : Nat} {operand : Expr} {rest : List Token.Kind}
    {inner value : Core.Expr}
    {next : Unit → Compile Unit} (before after : List Instr)
    (hunary : Compiles origin operandRank depth (unary depth))
    (hrank : operand.rank = operandRank) (hgrammatical : operand.isGrammatical)
    (hbound : (operand.tokens ++ rest).length < depth)
    (hresolve : operand.resolve? a.env a.dataHere = some inner)
    (hcode : value.code a.here = before ++ inner.code (a.here + Core.size before) ++ after)
    (hnext : ∀ b : Sketch, b.ahead = rest →
      Does origin b (next ()) () (b.after rest (Core.cells after) [])) :
    Does origin (a.after (operand.tokens ++ rest) (Core.cells before) [])
      (unary depth >>= next) () (a.value rest value operand.data) := by
  have hinner : operand.resolve? (a.after (operand.tokens ++ rest) (Core.cells before) []).env
      (a.after (operand.tokens ++ rest) (Core.cells before) []).dataHere = some inner := by
    rw [Sketch.dataHere_after]
    exact hresolve
  refine (hunary _ operand rest inner (Nat.le_of_eq hrank.symm) hgrammatical rfl
    (Syntax.closes_operandRank _) hbound hinner).bind ?_
  refine (hnext _ rfl).reaches ⟨rfl, ?_⟩
  rw [Sketch.value, Sketch.value, hcode]
  simp [Core.length_cells]

/-- The accumulator is combined with a word. -/
theorem does_combine {operator : Operator} {word : Word} :
    Does origin a (emit .push >>= fun _ => emitWith .imm word >>= fun _ =>
        emit (.binary operator) >>= fun _ => closeRule) ()
      (a.after a.ahead
        (Core.cells [.plain .push, .withWord .imm word, .plain (.binary operator)]) []) := by
  refine does_emit.bind ?_
  refine does_emitWith.bind ?_
  refine does_emit.bind ?_
  rw [Sketch.after_after, Sketch.after_after]
  exact does_closeRule

theorem does_sizeof {type : TypeName} {rest : List Token.Kind}
    (hahead : a.ahead = .punctuator .leftParen :: .keyword (.type type) ::
      .punctuator .rightParen :: rest) :
    Does origin a (expectMark .leftParen >>= fun _ => expectType >>= fun _ =>
        expectMark .rightParen >>= fun _ => emitWith .imm 1 >>= fun _ => closeRule) ()
      (a.after rest (Core.cells [.withWord .imm 1]) []) := by
  refine (does_expect hahead).bind ?_
  refine (does_expectType rfl).bind ?_
  refine (does_expect rfl).bind ?_
  refine does_emitWith.bind ?_
  refine does_closeRule.reaches ⟨rfl, ?_⟩
  simp

theorem compiles_unary (depth : Nat) : Compiles origin operandRank depth (unary depth) := by
  induction depth with
  | zero => exact fun a e rest value _ _ _ _ hbound => absurd hbound (Nat.not_lt_zero _)
  | succ depth ih =>
      intro a e rest value hrank hgrammatical hahead _ hbound hresolve
      have hprimary : ((∀ op operand, e ≠ .unary op operand) ∧
          (∀ op left right, e ≠ .binary op left right) ∧ (∀ type, e ≠ .sizeof type) ∧
          ∀ identifier, e ≠ .addressOf identifier) →
          Does origin a
            (primary (cascade (unary depth) (unary depth) levels) >>= fun _ => closeRule) ()
            (a.value rest value e.data) := fun he =>
        (does_primary (compiles_cascade ih) he hgrammatical hahead (Nat.le_of_lt_succ hbound)
          hresolve).bind does_closeRule
      refine does_openRule.bind ?_
      refine does_peek.bind ?_
      cases e with
      | binary op left right =>
          have := op.rank_lt
          simp only [Expr.rank] at hrank
          omega
      | unary op operand =>
          simp only [Expr.isGrammatical, Bool.and_eq_true, beq_iff_eq] at hgrammatical
          obtain ⟨hoperand, hgrammatical⟩ := hgrammatical
          obtain ⟨inner, hinner, rfl⟩ := Option.map_eq_some_iff.1 hresolve
          have htokens : a.ahead = .punctuator op.mark :: (operand.tokens ++ rest) := hahead
          rw [Sketch.current_of_ahead htokens]
          rw [htokens, List.length_cons] at hbound
          have hbehind : (operand.tokens ++ rest).length < depth := Nat.lt_of_succ_lt_succ hbound
          cases op with
          | minus =>
              refine (does_advance htokens).bind ?_
              refine does_emitWith.bind ?_
              refine does_emit.bind ?_
              rw [Sketch.after_after, Sketch.after_after]
              refine does_operand [.withWord .imm 0, .plain .push] [.plain (.binary .sub)] ih
                hoperand hgrammatical hbehind hinner ?_ ?_
              · simp [Syntax.Unary.resolve, Core.Expr.code]
              · rintro b rfl
                exact does_emit.bind does_closeRule
          | plus =>
              refine (does_advance htokens).bind ?_
              refine does_operand [] [] ih hoperand hgrammatical hbehind hinner ?_ ?_
              · simp [Syntax.Unary.resolve]
              · rintro b rfl
                refine does_closeRule.reaches ⟨rfl, ?_⟩
                exact Sketch.after_self.symm
          | bang =>
              refine (does_advance htokens).bind ?_
              refine does_operand [] [.plain .push, .withWord .imm 0, .plain (.binary .eq)] ih
                hoperand hgrammatical hbehind hinner ?_ ?_
              · simp [Syntax.Unary.resolve, Core.Expr.code]
              · rintro b rfl
                exact does_combine
          | tilde =>
              refine (does_advance htokens).bind ?_
              refine does_operand [] [.plain .push, .withWord .imm (-1), .plain (.binary .xor)] ih
                hoperand hgrammatical hbehind hinner ?_ ?_
              · simp [Syntax.Unary.resolve, Core.Expr.code]
              · rintro b rfl
                exact does_combine
          | star =>
              refine (does_advance htokens).bind ?_
              refine does_operand [] [.plain .li] ih hoperand hgrammatical hbehind hinner ?_ ?_
              · simp [Syntax.Unary.resolve, Core.Expr.code]
              · rintro b rfl
                exact does_emit.bind does_closeRule
      | addressOf identifier =>
          have htokens : a.ahead = .punctuator .amp :: .identifier identifier :: rest := hahead
          rw [Sketch.current_of_ahead htokens]
          refine (does_advance htokens).bind ?_
          refine (@does_addressOf _ _ _ _ value rfl ?_).bind ?_
          · rw [Sketch.dataHere_after]
            exact hresolve
          · refine does_closeRule.reaches ⟨rfl, ?_⟩
            simp [Sketch.value, Expr.data]
      | sizeof type =>
          cases hresolve
          have htokens : a.ahead = .keyword .sizeofKw :: .punctuator .leftParen ::
              .keyword (.type type) :: .punctuator .rightParen :: rest := hahead
          rw [Sketch.current_of_ahead htokens]
          refine (does_advance htokens).bind ?_
          refine (does_sizeof rfl).reaches ⟨rfl, ?_⟩
          simp [Sketch.value, Core.Expr.code, Expr.data]
      | literal literal =>
          cases literal with
          | number word =>
              rw [Sketch.current_of_ahead hahead]
              exact hprimary (by simp)
          | character c =>
              rw [Sketch.current_of_ahead hahead]
              exact hprimary (by simp)
      | string text =>
          rw [Sketch.current_of_ahead hahead]
          exact hprimary (by simp)
      | name identifier =>
          rw [Sketch.current_of_ahead hahead]
          exact hprimary (by simp)
      | call callee args =>
          rw [Expr.tokens] at hahead
          rw [Sketch.current_of_ahead hahead]
          exact hprimary (by simp)
      | group inner =>
          rw [Expr.tokens] at hahead
          rw [Sketch.current_of_ahead hahead]
          exact hprimary (by simp)

theorem does_expression {e : Expr} {rest : List Token.Kind} {value : Core.Expr}
    (hgrammatical : e.isGrammatical) (hahead : a.ahead = e.tokens ++ rest) (hcloses : Closes 0 rest)
    (hresolve : e.resolve? a.env a.dataHere = some value) :
    Does origin a expression () (a.value rest value e.data) := by
  refine reaches_bound.bind ?_
  rintro depth _ ⟨rfl, hdepth⟩
  exact compiles_cascade (compiles_unary depth) _ e rest value (Nat.zero_le _) hgrammatical hahead
    hcloses hdepth hresolve

theorem compiles_expression {bound : Nat} : Compiles origin 0 bound expression :=
  fun _ _ _ _ _ hgrammatical hahead hcloses _ hresolve =>
    does_expression hgrammatical hahead hcloses hresolve

/-- An operand whose first token, a name, has been taken. -/
theorem does_nameValue {argument : Compile Unit} {bound : Nat} {head : Token} {identifier : String}
    {e : Expr} {rest : List Token.Kind} {value : Core.Expr}
    (hargument : Compiles origin 0 bound argument) (hhead : head.kind = .identifier identifier)
    (hrank : e.rank = operandRank) (hgrammatical : e.isGrammatical)
    (hahead : .identifier identifier :: a.ahead = e.tokens ++ rest)
    (hbound : a.ahead.length < bound) (hresolve : e.resolve? a.env a.dataHere = some value) :
    Does origin a (nameValue argument head) () (a.value rest value e.data) := by
  cases e with
  | name other =>
      obtain ⟨hname, rfl⟩ := List.cons_eq_cons.1 hahead
      exact does_nameValue_name (hhead.trans hname) hresolve
  | call callee args =>
      rw [Expr.tokens] at hahead
      obtain ⟨hname, htokens⟩ := List.cons_eq_cons.1 hahead
      have hargs : a.ahead = .punctuator .leftParen ::
          (Expr.argumentTokens args ++ .punctuator .rightParen :: rest) := by
        rw [htokens]
        simp
      exact does_nameValue_call hargument (hhead.trans hname) hgrammatical hargs hbound hresolve
  | literal literal => cases literal <;> cases hahead
  | string text => cases hahead
  | sizeof type => cases hahead
  | addressOf other => cases hahead
  | unary op operand => rw [Expr.tokens] at hahead; cases hahead
  | group inner => rw [Expr.tokens] at hahead; cases hahead
  | binary op left right => exact absurd hrank (Nat.ne_of_lt op.rank_lt)

/-- An expression whose first token, a name, has been taken. -/
theorem does_expressionFrom {head : Token} {identifier : String} {e : Expr} {rest : List Token.Kind}
    {value : Core.Expr} (hhead : head.kind = .identifier identifier)
    (hgrammatical : e.isGrammatical)
    (hahead : .identifier identifier :: a.ahead = e.tokens ++ rest) (hcloses : Closes 0 rest)
    (hresolve : e.resolve? a.env a.dataHere = some value) :
    Does origin a (expressionFrom head) () (a.value rest value e.data) := by
  refine reaches_bound.bind ?_
  rintro depth a ⟨rfl, hdepth⟩
  have htokens : .identifier identifier :: a.ahead = e.leading.tokens ++ (e.trailing ++ rest) := by
    rw [hahead, e.tokens_eq_leading, List.append_assoc]
  have hbehind : (e.trailing ++ rest).length < depth := by
    have hlength := congrArg List.length htokens
    have hpos := List.length_pos_of_ne_nil e.leading.tokens_ne_nil
    rw [List.length_cons, List.length_append] at hlength
    omega
  refine continues_cascade (compiles_unary depth) levels 0 a _ rfl e rest value (Nat.zero_le _)
    hgrammatical hcloses hbehind hresolve ?_
  intro lead hlead
  exact does_nameValue compiles_expression hhead e.rank_leading
    (Expr.isGrammatical_leading hgrammatical) htokens hdepth hlead

end WordC.Compiler
