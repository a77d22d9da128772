import WordC.Compiler.Statement
import WordC.Proofs.Compile.Expressions

/-!
# Statements are compiled

Every statement that resolves is compiled, unless an `else` follows that it would take. A block
leaves the names and the slots around it as they were, only the most slots ever in use may have
grown.
-/

namespace WordC

open WordC.Core (Binding Cell Env Instr Place)
open Syntax (Closes Declaration Declarator Expr Scope Stmt declaratorData resolveDeclarators?)

namespace Compiler

variable {α : Type} {origin : Origin} {a b : Sketch}

/-! ## Local declarations -/

/-- The sketch with more local variables. -/
def Sketch.declared (a : Sketch) (env : Env) (count : Nat) : Sketch :=
  { a with
    env
    frame :=
      { used := a.frame.used + count, greatest := max a.frame.greatest (a.frame.used + count) } }

@[simp] theorem Sketch.after_declared {env : Env} {count : Nat} {ahead : List Token.Kind}
    {cells : List Cell} {data : List Word} :
    (a.declared env count).after ahead cells data = (a.after ahead cells data).declared env count :=
  rfl

@[simp] theorem Sketch.declared_declared {env env' : Env} {count count' : Nat} :
    (a.declared env count).declared env' count' = a.declared env' (count + count') := by
  unfold declared
  simp only [mk.injEq, Frame.mk.injEq, true_and, and_true]
  omega

@[simp] theorem Sketch.ahead_declared {env : Env} {count : Nat} :
    (a.declared env count).ahead = a.ahead := rfl

@[simp] theorem Sketch.here_declared {env : Env} {count : Nat} :
    (a.declared env count).here = a.here := rfl

@[simp] theorem Sketch.dataHere_declared {env : Env} {count : Nat} :
    (a.declared env count).dataHere = a.dataHere := rfl

theorem does_emitStore {symbol : Symbol} {place : Place}
    (hrecords : symbol.Records (.object place)) :
    Does origin a (emitStore symbol) () (a.after a.ahead (Core.cells place.store) []) := by
  refine does_emit.bind ?_
  refine (does_emitAddress hrecords).bind ?_
  refine does_emit.reaches ⟨rfl, ?_⟩
  simp [Core.Place.store]

/-- Compiles the initial value of a variable that has been declared, if there is one. -/
theorem reaches_initial {β : Type} {declarator : Declarator} {symbol : Symbol} {place : Place}
    {rest : List Token.Kind} {stores : List Core.Stmt} {next : Unit → Compile β}
    {post : β → Sketch → Prop} (hrecords : symbol.Records (.object place))
    (hgrammatical : declarator.isGrammatical)
    (hahead : .identifier declarator.name :: a.ahead = declarator.tokens ++ rest)
    (hcloses : Closes 0 rest) (hequal : rest.head? ≠ some (.punctuator .equal))
    (hresolve : declarator.resolve? a.env place a.dataHere = some stores)
    (hnext : Reaches origin
      (a.after rest (Core.cells ((Core.Stmt.ofList stores).code a.here)) declarator.data)
      (next ()) post) :
    Reaches origin a
      (atMark .equal >>= fun initialized =>
        if initialized then
          advance >>= fun _ => expression >>= fun _ => emitStore symbol >>= next
        else next ()) post := by
  obtain ⟨name, initial⟩ := declarator
  refine does_atMark.bind ?_
  cases initial with
  | none =>
      cases hresolve
      have hrest : a.ahead = rest := (List.cons_eq_cons.1 hahead).2
      have hcurrent : a.current ≠ .punctuator .equal := by
        intro hcurrent
        obtain ⟨more, hmore⟩ := Sketch.ahead_of_current hcurrent Token.Kind.noConfusion
        rw [← hrest, hmore] at hequal
        exact hequal rfl
      rw [if_neg (by simpa using hcurrent)]
      subst hrest
      rw [show a = a.after a.ahead [] [] from Sketch.after_self.symm]
      exact hnext
  | some value =>
      obtain ⟨resolved, hvalue, rfl⟩ := Option.map_eq_some_iff.1 hresolve
      have htokens : a.ahead = .punctuator .equal :: (value.tokens ++ rest) :=
        (List.cons_eq_cons.1 hahead).2
      rw [if_pos (decide_eq_true (Sketch.current_of_ahead htokens))]
      refine (does_advance htokens).bind ?_
      refine (@does_expression _ _ _ _ resolved hgrammatical rfl hcloses ?_).bind ?_
      · rw [Sketch.dataHere_after]
        exact hvalue
      refine (does_emitStore hrecords).bind ?_
      have hsketch :
          ((a.after (value.tokens ++ rest) [] []).value rest resolved value.data).after rest
            (Core.cells place.store) [] =
          a.after rest (Core.cells ((Core.Stmt.ofList [.store place resolved]).code a.here))
            value.data := by
        simp [Sketch.value, Core.Stmt.ofList, Core.Stmt.code]
      rw [show (Sketch.value (a.after (value.tokens ++ rest) [] []) rest resolved value.data).ahead =
        rest from rfl, hsketch]
      exact hnext

/-- One variable of a declaration. What follows is read with the variable in scope. -/
theorem reaches_localVariable {type : TypeName} {declarator : Declarator} {rest : List Token.Kind}
    {env : Env} {stores : List Core.Stmt} {rounds : Nat} {post : Unit → Sketch → Prop}
    (hgrammatical : declarator.isGrammatical) (hahead : a.ahead = declarator.tokens ++ rest)
    (hcloses : Closes 0 rest) (hequal : rest.head? ≠ some (.punctuator .equal))
    (hdeclare : a.env.declare? declarator.name (.slot (a.frame.used + 1)) = some env)
    (hresolve : declarator.resolve? env (.slot (a.frame.used + 1)) a.dataHere = some stores)
    (hnext : Reaches origin
      ((a.after rest (Core.cells ((Core.Stmt.ofList stores).code a.here)) declarator.data).declared
        env 1)
      (atMark .comma >>= fun more =>
        if more then advance >>= fun _ => localVariables type rounds else pure ()) post) :
    Reaches origin a (localVariables type (rounds + 1)) post := by
  have htokens : ∃ behind, declarator.tokens ++ rest = .identifier declarator.name :: behind :=
    ⟨_, rfl⟩
  obtain ⟨behind, hbehind⟩ := htokens
  rw [hbehind] at hahead
  refine (reaches_expectIdentifier hahead).bind ?_
  rintro ⟨name, position⟩ _ ⟨hname, rfl⟩
  change name = declarator.name at hname
  subst hname
  refine (does_frame _).bind ?_
  refine does_viewFrame.bind ?_
  refine (reaches_declareLocal hdeclare rfl rfl rfl).bind ?_
  rintro symbol _ ⟨rfl, hrecords⟩
  have hsketch : ({ a.after behind [] [] with frame := a.frame.allocate, env } : Sketch) =
      (a.after behind [] []).declared env 1 := rfl
  refine @reaches_initial _ _ _ _ _ _ _ stores _ _ hrecords hgrammatical hbehind.symm hcloses
    hequal ?_ ?_
  · change declarator.resolve? env _ (a.after behind [] []).dataHere = _
    rw [Sketch.dataHere_after]
    exact hresolve
  · change Reaches origin (((a.after behind [] []).declared env 1).after rest _ _) _ _
    rw [Sketch.after_declared, Sketch.after_after]
    change Reaches origin ((a.after rest (Core.cells ((Core.Stmt.ofList stores).code
      (a.after behind [] []).here)) declarator.data).declared env 1) _ _
    rw [Sketch.here_after]
    exact hnext

theorem does_localVariables {type : TypeName} (first : Declarator) (others : List Declarator) :
    ∀ (a : Sketch) (rest : List Token.Kind) (inner : Env) (stores : List Core.Stmt) (rounds : Nat),
      (first :: others).all Declarator.isGrammatical →
      a.ahead = Syntax.separated ((first :: others).map Declarator.tokens) ++
        .punctuator .semicolon :: rest →
      a.ahead.length < rounds →
      resolveDeclarators? a.env a.frame.used a.dataHere (first :: others) = some (inner, stores) →
      Does origin a (localVariables type rounds) ()
        ((a.after (.punctuator .semicolon :: rest)
          (Core.cells ((Core.Stmt.ofList stores).code a.here))
          (declaratorData (first :: others))).declared inner (first :: others).length) := by
  induction others generalizing first with
  | nil =>
      intro a rest inner stores rounds hgrammatical hahead hrounds hresolve
      obtain ⟨next, front, back, hdeclare, hfirst, hback, rfl⟩ :=
        Syntax.resolveDeclarators?_cons_eq_some.1 hresolve
      cases hback
      obtain ⟨rounds, rfl⟩ : ∃ more, rounds = more + 1 := ⟨rounds - 1, by omega⟩
      have htokens : a.ahead = first.tokens ++ .punctuator .semicolon :: rest := by
        simpa [Syntax.separated, Syntax.further] using hahead
      have hfirstGrammatical : first.isGrammatical := by simpa using hgrammatical
      refine reaches_localVariable hfirstGrammatical htokens (Syntax.closes_mark (by decide))
        (by simp) hdeclare hfirst ?_
      refine does_atMark.bind ?_
      rw [if_neg (by simp [Sketch.current, Sketch.declared, Sketch.after])]
      refine Reaches.pure ⟨rfl, ?_⟩
      rw [Syntax.declaratorData_cons, List.append_nil]
      simp [declaratorData]
  | cons second others ih =>
      intro a rest inner stores rounds hgrammatical hahead hrounds hresolve
      obtain ⟨next, front, back, hdeclare, hfirst, hback, rfl⟩ :=
        Syntax.resolveDeclarators?_cons_eq_some.1 hresolve
      obtain ⟨rounds, rfl⟩ : ∃ more, rounds = more + 1 := ⟨rounds - 1, by omega⟩
      rw [List.all_cons, Bool.and_eq_true] at hgrammatical
      obtain ⟨hfirstGrammatical, hothers⟩ := hgrammatical
      have htokens : a.ahead = first.tokens ++ .punctuator .comma ::
          (Syntax.separated ((second :: others).map Declarator.tokens) ++
            .punctuator .semicolon :: rest) := by
        rw [hahead]
        simp [Syntax.separated, Syntax.further]
      have hlength := congrArg List.length htokens
      rw [List.length_append, List.length_cons] at hlength
      refine reaches_localVariable hfirstGrammatical htokens (Syntax.closes_mark (by decide))
        (by simp) hdeclare hfirst ?_
      refine does_atMark.bind ?_
      rw [if_pos (by simp [Sketch.current, Sketch.declared, Sketch.after])]
      refine (does_advance rfl).bind ?_
      rw [Sketch.after_declared, Sketch.after_after, List.append_nil, List.append_nil]
      refine (ih second _ rest inner back rounds hothers rfl ?_ ?_).reaches ⟨rfl, ?_⟩
      · rw [Sketch.ahead_declared, Sketch.ahead_after]
        omega
      · rw [Sketch.dataHere_declared, Sketch.dataHere_after]
        exact hback
      · rw [Sketch.after_declared, Sketch.after_after, Sketch.declared_declared,
          Sketch.here_declared, Sketch.here_after, Core.Stmt.code_ofList_append, Core.cells_append,
          Core.length_cells, Syntax.declaratorData_cons first, List.length_cons (a := first),
          Nat.add_comm 1]

theorem does_localDeclaration {declaration : Declaration} {rest : List Token.Kind} {inner : Env}
    {stores : List Core.Stmt} (hgrammatical : declaration.isGrammatical)
    (hahead : a.ahead = declaration.tokens ++ rest)
    (hresolve : resolveDeclarators? a.env a.frame.used a.dataHere declaration.declarators =
      some (inner, stores)) :
    Does origin a localDeclaration ()
      ((a.after rest (Core.cells ((Core.Stmt.ofList stores).code a.here))
        (declaratorData declaration.declarators)).declared inner declaration.declarators.length) := by
  have htokens : a.ahead = .keyword (.type declaration.type) ::
      (Syntax.separated (declaration.declarators.map Declarator.tokens) ++
        .punctuator .semicolon :: rest) := by
    rw [hahead]
    simp [Declaration.tokens]
  refine does_openRule.bind ?_
  refine (does_expectType htokens).bind ?_
  refine reaches_bound.bind ?_
  rintro rounds _ ⟨rfl, hrounds⟩
  refine (does_localVariables declaration.first declaration.rest _ rest inner stores rounds
    hgrammatical rfl hrounds ?_).bind ?_
  · rw [Sketch.dataHere_after]
    exact hresolve
  · refine (does_expect rfl).bind ?_
    refine does_closeRule.reaches ⟨rfl, ?_⟩
    simp [Declaration.declarators]

/-- The declarations at the start of a block. -/
theorem does_localDeclarations (declarations : List Declaration) :
    ∀ (a : Sketch) (kind : Token.Kind) (rest : List Token.Kind) (inner : Env)
      (stores : List Core.Stmt) (rounds : Nat),
      declarations.all Declaration.isGrammatical →
      a.ahead = declarations.flatMap Declaration.tokens ++ kind :: rest → kind.isType = false →
      a.ahead.length < rounds → a.frame.used ≤ a.frame.greatest →
      resolveDeclarators? a.env a.frame.used a.dataHere
        (declarations.flatMap Declaration.declarators) = some (inner, stores) →
      Does origin a (localDeclarations rounds) ()
        ((a.after (kind :: rest) (Core.cells ((Core.Stmt.ofList stores).code a.here))
          (declaratorData (declarations.flatMap Declaration.declarators))).declared inner
            (declarations.flatMap Declaration.declarators).length) := by
  induction declarations with
  | nil =>
      intro a kind rest inner stores rounds _ hahead hkind hrounds hframe hresolve
      cases hresolve
      obtain ⟨rounds, rfl⟩ : ∃ more, rounds = more + 1 := ⟨rounds - 1, by omega⟩
      refine does_peek.bind ?_
      rw [Sketch.current_of_ahead hahead, hkind, if_neg Bool.false_ne_true]
      refine Reaches.pure ⟨rfl, ?_⟩
      rw [List.flatMap_nil, List.nil_append] at hahead
      rw [← hahead]
      simp [Core.Stmt.ofList, Core.Stmt.code, declaratorData, Sketch.after_self, Sketch.declared,
        Nat.max_eq_left hframe]
  | cons declaration declarations ih =>
      intro a kind rest inner stores rounds hgrammatical hahead hkind hrounds hframe hresolve
      rw [List.flatMap_cons] at hahead hresolve
      rw [List.all_cons, Bool.and_eq_true] at hgrammatical
      rw [List.append_assoc] at hahead
      obtain ⟨next, front, back, hfront, hback, rfl⟩ :=
        Syntax.resolveDeclarators?_append_eq_some hresolve
      obtain ⟨rounds, rfl⟩ : ∃ more, rounds = more + 1 := ⟨rounds - 1, by omega⟩
      have hcurrent : a.current = .keyword (.type declaration.type) := by
        rw [Sketch.current, hahead]
        rfl
      refine does_peek.bind ?_
      have htype : (Token.Kind.keyword (.type declaration.type)).isType = true := rfl
      rw [hcurrent, if_pos htype]
      refine (does_localDeclaration hgrammatical.1 hahead hfront).bind ?_
      have hlength := congrArg List.length hahead
      rw [List.length_append, Declaration.tokens, List.length_cons] at hlength
      refine (ih _ kind rest inner back rounds hgrammatical.2 rfl hkind ?_ ?_ ?_).reaches ⟨rfl, ?_⟩
      · rw [Sketch.ahead_declared, Sketch.ahead_after]
        omega
      · exact Nat.le_max_right _ _
      · rw [Sketch.dataHere_declared, Sketch.dataHere_after]
        exact hback
      · rw [Sketch.after_declared, Sketch.after_after, Sketch.declared_declared,
          Sketch.here_declared, Sketch.here_after, Core.Stmt.code_ofList_append, Core.cells_append,
          Core.length_cells, List.flatMap_cons, Syntax.declaratorData_append, List.length_append]

/-! ## Statements -/

/-- The sketch behind a statement. -/
def Sketch.stated (a : Sketch) (rest : List Token.Kind) (core : Core.Stmt) (data : List Word)
    (peak : Nat) : Sketch :=
  { a.after rest (Core.cells (core.code a.here)) data with
    frame := { used := a.frame.used, greatest := max a.frame.greatest peak } }

theorem Sketch.here_stated {rest : List Token.Kind} {core : Core.Stmt} {data : List Word}
    {peak : Nat} : (a.stated rest core data peak).here = a.here + Core.size (core.code a.here) :=
  @Sketch.here_after a rest _ data

theorem Sketch.stated_stated {rest rest' : List Token.Kind} {first second : Core.Stmt}
    {data data' : List Word} {peak peak' : Nat} :
    (a.stated rest first data peak).stated rest' second data' peak' =
      a.stated rest' (.seq first second) (data ++ data') (max peak peak') := by
  have hhere := @here_stated a rest first data peak
  unfold stated at hhere ⊢
  rw [hhere]
  simp [after, Core.Stmt.code, Nat.max_assoc]

theorem Sketch.dataHere_stated {rest : List Token.Kind} {core : Core.Stmt} {data : List Word}
    {peak : Nat} : (a.stated rest core data peak).dataHere = a.dataHere + data.length :=
  @Sketch.dataHere_after a rest (Core.cells (core.code a.here)) _

theorem Sketch.used_le_stated {rest : List Token.Kind} {core : Core.Stmt} {data : List Word}
    {peak : Nat} (h : a.frame.used ≤ a.frame.greatest) :
    (a.stated rest core data peak).frame.used ≤ (a.stated rest core data peak).frame.greatest :=
  Nat.le_trans h (Nat.le_max_left a.frame.greatest peak)

/-- A statement that writes code and needs no slots. -/
theorem Sketch.after_eq_stated {rest : List Token.Kind} {core : Core.Stmt} {data : List Word}
    {peak : Nat} (hpeak : peak ≤ a.frame.greatest) :
    a.after rest (Core.cells (core.code a.here)) data = a.stated rest core data peak := by
  unfold stated
  rw [Nat.max_eq_left hpeak]
  rfl

/-- The action compiles every statement that it finds ahead, if less than `bound` tokens are
ahead. -/
def Performs (origin : Origin) (bound : Nat) (action : Compile Unit) : Prop :=
  ∀ (a : Sketch) (statement : Stmt) (rest : List Token.Kind) (core : Core.Stmt),
    statement.isGrammatical → a.ahead = statement.tokens ++ rest →
    (statement.endsOpen → rest.head? ≠ some (.keyword .elseKw)) → a.ahead.length < bound →
    a.frame.used ≤ a.frame.greatest →
    statement.resolve? a.env a.frame.used a.dataHere = some core →
    Does origin a action () (a.stated rest core statement.data (statement.peak a.frame.used))

/-- A statement does not begin with the brace that ends a block. -/
theorem Sketch.current_ne_rightBrace {statement : Stmt} {rest : List Token.Kind}
    (hahead : a.ahead = statement.tokens ++ rest) : a.current ≠ .punctuator .rightBrace := by
  obtain ⟨kind, more, htokens, hopens⟩ := statement.tokens_eq_cons
  rw [Sketch.current, hahead, htokens]
  rintro heq
  change kind = _ at heq
  rw [heq] at hopens
  cases hopens

theorem does_statements {action : Compile Unit} {bound : Nat}
    (haction : Performs origin bound action)
    (body : List Stmt) :
    ∀ (a : Sketch) (rest : List Token.Kind) (cores : List Core.Stmt) (rounds : Nat),
      Stmt.areGrammatical body → a.ahead = Stmt.bodyTokens body ++ .punctuator .rightBrace :: rest →
      a.ahead.length < bound → a.ahead.length < rounds → a.frame.used ≤ a.frame.greatest →
      Stmt.resolveBody? a.env a.frame.used a.dataHere body = some cores →
      Does origin a (statements action rounds) ()
        (a.stated (.punctuator .rightBrace :: rest) (.ofList cores) (Stmt.bodyData body)
          (Stmt.bodyPeak a.frame.used body)) := by
  induction body with
  | nil =>
      intro a rest cores rounds _ hahead _ hrounds hframe hresolve
      cases hresolve
      obtain ⟨rounds, rfl⟩ : ∃ more, rounds = more + 1 := ⟨rounds - 1, by omega⟩
      refine does_atMark.bind ?_
      rw [decide_eq_true (Sketch.current_of_ahead hahead), if_neg (not_not_intro rfl)]
      refine Reaches.pure ⟨rfl, ?_⟩
      rw [Stmt.bodyTokens, List.nil_append] at hahead
      rw [← hahead]
      exact Sketch.after_self.symm.trans (@Sketch.after_eq_stated _ _ .skip _ _ hframe)
  | cons statement body ih =>
      intro a rest cores rounds hgrammatical hahead hbound hrounds hframe hresolve
      rw [Stmt.areGrammatical, Bool.and_eq_true] at hgrammatical
      rw [Stmt.bodyTokens, List.append_assoc] at hahead
      simp only [Stmt.resolveBody?, Option.bind_eq_bind, Option.bind_eq_some_iff,
        Option.some.injEq] at hresolve
      obtain ⟨core, hcore, cores, hcores, rfl⟩ := hresolve
      obtain ⟨rounds, rfl⟩ : ∃ more, rounds = more + 1 := ⟨rounds - 1, by omega⟩
      obtain ⟨kind, more, htokens, -⟩ := statement.tokens_eq_cons
      have hcurrent := Sketch.current_ne_rightBrace hahead
      have helse : (Stmt.bodyTokens body ++ .punctuator .rightBrace :: rest).head? ≠
          some (.keyword .elseKw) := by
        obtain ⟨next, behind, hnext, -, hne⟩ := Stmt.head_bodyTokens body rest
        rw [hnext]
        exact fun heq => hne (Option.some.inj heq)
      have hlength := congrArg List.length hahead
      rw [List.length_append, htokens, List.length_cons] at hlength
      refine does_atMark.bind ?_
      rw [decide_eq_false hcurrent, if_pos Bool.false_ne_true]
      refine (haction a statement _ core hgrammatical.1 hahead (fun _ => helse) hbound hframe
        hcore).bind ?_
      refine (ih _ rest cores rounds hgrammatical.2 rfl ?_ ?_ ?_ ?_).reaches ⟨rfl, ?_⟩
      · change List.length (Stmt.bodyTokens body ++ .punctuator .rightBrace :: rest) < bound
        omega
      · change List.length (Stmt.bodyTokens body ++ .punctuator .rightBrace :: rest) < rounds
        omega
      · exact Nat.le_trans hframe (Nat.le_max_left _ _)
      · rw [Sketch.dataHere_stated]
        exact hcores
      · rw [Sketch.stated_stated]
        rfl

/-- The sketch behind the contents of a block, whose names are still in scope. -/
def Sketch.contents (a : Sketch) (rest : List Token.Kind) (inner : Env) (cores : List Core.Stmt)
    (data : List Word) (count peak : Nat) : Sketch :=
  { a.after rest (Core.cells ((Core.Stmt.ofList cores).code a.here)) data with
    env := inner
    frame := { used := a.frame.used + count, greatest := max a.frame.greatest peak } }

theorem does_blockContents {action : Compile Unit} {bound : Nat}
    (haction : Performs origin bound action) {declarations : List Declaration} {body : List Stmt}
    {rest : List Token.Kind} {inner : Env} {stores cores : List Core.Stmt}
    (hgrammatical : (Stmt.block declarations body).isGrammatical)
    (hahead : a.ahead = declarations.flatMap Declaration.tokens ++ Stmt.bodyTokens body ++
      .punctuator .rightBrace :: rest)
    (hbound : a.ahead.length < bound) (hframe : a.frame.used ≤ a.frame.greatest)
    (hstores : resolveDeclarators? a.env a.frame.used a.dataHere
      (declarations.flatMap Declaration.declarators) = some (inner, stores))
    (hcores : Stmt.resolveBody? inner
      (a.frame.used + (declarations.flatMap Declaration.declarators).length)
      (a.dataHere + (declaratorData (declarations.flatMap Declaration.declarators)).length) body =
        some cores) :
    Does origin a (blockContents action) ()
      (a.contents (.punctuator .rightBrace :: rest) inner (stores ++ cores)
        (Stmt.block declarations body).data (declarations.flatMap Declaration.declarators).length
        ((Stmt.block declarations body).peak a.frame.used)) := by
  rw [Stmt.isGrammatical, Bool.and_eq_true] at hgrammatical
  rw [List.append_assoc] at hahead
  obtain ⟨kind, more, hbody, htype, -⟩ := Stmt.head_bodyTokens body rest
  have hlength := congrArg List.length hahead
  rw [List.length_append] at hlength
  refine reaches_bound.bind ?_
  rintro rounds a ⟨rfl, hrounds⟩
  rw [hbody] at hahead
  refine (does_localDeclarations declarations _ kind more inner stores rounds hgrammatical.1 hahead
    htype hrounds hframe hstores).bind ?_
  refine (does_statements haction body _ rest cores rounds hgrammatical.2 hbody.symm ?_ ?_ ?_
    ?_).reaches ⟨rfl, ?_⟩
  · rw [Sketch.ahead_declared, Sketch.ahead_after, ← hbody]
    omega
  · rw [Sketch.ahead_declared, Sketch.ahead_after, ← hbody]
    omega
  · exact Nat.le_max_right _ _
  · rw [Sketch.dataHere_declared, Sketch.dataHere_after]
    exact hcores
  · have hpeak := Stmt.le_bodyPeak
      (a.frame.used + (declarations.flatMap Declaration.declarators).length) body
    unfold Sketch.stated Sketch.contents
    rw [Sketch.after_declared, Sketch.after_after, Sketch.here_declared, Sketch.here_after,
      Core.Stmt.code_ofList_append, Core.cells_append, Core.length_cells, Stmt.data, Stmt.peak]
    simp only [Sketch.declared, Sketch.frame_after, Sketch.mk.injEq, Frame.mk.injEq, true_and,
      and_true]
    omega

/-- A block has a scope of its own. -/
theorem does_block {action : Compile Unit} {bound : Nat} (haction : Performs origin bound action)
    {declarations : List Declaration} {body : List Stmt} {rest : List Token.Kind}
    {core : Core.Stmt} (hgrammatical : (Stmt.block declarations body).isGrammatical)
    (hahead : a.ahead = (Stmt.block declarations body).tokens ++ rest)
    (hbound : a.ahead.length ≤ bound) (hframe : a.frame.used ≤ a.frame.greatest)
    (hresolve : (Stmt.block declarations body).resolve? a.env a.frame.used a.dataHere = some core) :
    Does origin a (block action) ()
      (a.stated rest core (Stmt.block declarations body).data
        ((Stmt.block declarations body).peak a.frame.used)) := by
  have htokens : a.ahead = .punctuator .leftBrace ::
      (declarations.flatMap Declaration.tokens ++ Stmt.bodyTokens body ++
        .punctuator .rightBrace :: rest) := by
    rw [hahead]
    simp [Stmt.tokens]
  have hlength := congrArg List.length htokens
  rw [List.length_cons] at hlength
  obtain ⟨inner, stores, cores, hstores, hcores, rfl⟩ := Stmt.resolve?_block_eq_some.1 hresolve
  refine does_openRule.bind ?_
  refine (does_expect htokens).bind ?_
  refine does_enterScope.bind ?_
  refine does_viewFrame.bind ?_
  let entered : Sketch :=
    { a.after (declarations.flatMap Declaration.tokens ++ Stmt.bodyTokens body ++
        .punctuator .rightBrace :: rest) [] [] with env := a.env.enter }
  have hdataHere : entered.dataHere = a.dataHere := by
    simp [entered, Sketch.dataHere, Sketch.after]
  have hhere : entered.here = a.here := by
    simp [entered, Sketch.here, Sketch.after]
  have hstores' : resolveDeclarators? entered.env entered.frame.used entered.dataHere
      (declarations.flatMap Declaration.declarators) = some (inner, stores) := by
    rw [hdataHere]
    exact hstores
  have hcores' : Stmt.resolveBody? inner
      (entered.frame.used + (declarations.flatMap Declaration.declarators).length)
      (entered.dataHere +
        (declaratorData (declarations.flatMap Declaration.declarators)).length) body =
      some cores := by
    rw [hdataHere]
    exact hcores
  have hbound' : entered.ahead.length < bound := by
    change List.length (_ ++ _) < bound
    omega
  refine (does_blockContents (a := entered) haction hgrammatical rfl hbound' hframe hstores'
    hcores').bind ?_
  refine (does_expect rfl).bind ?_
  obtain ⟨htail, hglobals, hne⟩ := Syntax.env_of_resolveDeclarators? hstores
  have hlocals : ∃ scope, inner.locals = scope :: a.env.locals := by
    cases hscopes : inner.locals with
    | nil => exact absurd hscopes (hne (List.cons_ne_nil _ _))
    | cons scope outer =>
        rw [hscopes] at htail
        exact ⟨scope, by rw [show outer = a.env.locals from htail]⟩
  obtain ⟨scope, hlocals⟩ := hlocals
  refine (does_leaveScope hlocals).bind ?_
  refine (does_frame fun frame => { frame with used := a.frame.used }).bind ?_
  refine does_closeRule.reaches ⟨rfl, ?_⟩
  have henv : ({ inner with locals := a.env.locals } : Env) = a.env := by
    rw [show inner.globals = a.env.globals from hglobals]
  unfold Sketch.stated Sketch.contents
  rw [hhere]
  simp [Sketch.after, entered, henv]

/-! ## Conditions -/

/-- The condition in front of a statement, and the jump that skips it. -/
def condition : Compile Nat := do
  expectMark .leftParen
  expression
  expectMark .rightParen
  emitPending .jz

/-- Between two branches: the first one ends with a jump over the other, and the jump that skips it
leads behind that. -/
def otherwise (skipThen : Nat) : Compile Nat := do
  advance
  let skipElse ← emitPending .jmp
  patchHere skipThen
  return skipElse

theorem otherwise_bind {β : Type} (skipThen : Nat) (next : Nat → Compile β) :
    (advance >>= fun _ => emitPending .jmp >>= fun skipElse => patchHere skipThen >>= fun _ =>
      next skipElse) = otherwise skipThen >>= next := by
  simp only [otherwise, bind_assoc, pure_bind]

theorem ifStatement_eq (action : Compile Unit) :
    ifStatement action = openRule .ifStatement >>= fun _ =>
      (expect (.keyword .ifKw) >>= fun _ => condition) >>= fun skipThen => action >>= fun _ =>
      atKind (.keyword .elseKw) >>= fun found =>
      if found then
        otherwise skipThen >>= fun skipElse => action >>= fun _ => patchHere skipElse >>= fun _ =>
          closeRule
      else patchHere skipThen >>= fun _ => closeRule := by
  simp only [ifStatement, condition, bind_assoc, ← otherwise_bind]

theorem whileStatement_eq (action : Compile Unit) :
    whileStatement action = openRule .whileStatement >>= fun _ => here >>= fun start =>
      (expect (.keyword .whileKw) >>= fun _ => condition) >>= fun exit => action >>= fun _ =>
      emitWith .jmp start >>= fun _ => patchHere exit >>= fun _ => closeRule := by
  simp only [whileStatement, condition, bind_assoc]

section Conditions

variable {rest rest' : List Token.Kind} {test : Core.Expr} {inner : Core.Stmt} {jump : Cell}
  {back back' : List Cell} {data data' : List Word} {peak bound : Nat} {kind : Token.Kind} {e : Expr}

namespace Sketch

/-- The sketch behind a condition and the jump that skips what depends on it. -/
def tested (a : Sketch) (rest : List Token.Kind) (test : Core.Expr) (data : List Word) : Sketch :=
  a.after rest (Core.cells (test.code a.here) ++ [.known Opcode.jz.word, .hole]) data

/-- The sketch behind what depends on a condition. Its jump may have no target yet, and a jump to
somewhere else may follow. -/
def guarded (a : Sketch) (rest : List Token.Kind) (test : Core.Expr) (jump : Cell)
    (inner : Core.Stmt) (back : List Cell) (data : List Word) (peak : Nat) : Sketch :=
  { a.after rest (Core.cells (test.code a.here) ++ [.known Opcode.jz.word] ++ jump ::
      (Core.cells (inner.code (a.here + Core.size (test.code a.here) + 2)) ++ back)) data with
    frame := { a.frame with greatest := max a.frame.greatest peak } }

/-- The sketch in front of the second branch. -/
def passed (a : Sketch) (rest : List Token.Kind) (test : Core.Expr) (inner : Core.Stmt)
    (data : List Word) (peak : Nat) : Sketch :=
  let body := inner.code (a.here + Core.size (test.code a.here) + 2)
  { a.after rest
      (Core.cells (test.code a.here) ++
        [.known Opcode.jz.word,
          .known (Word.ofCount
            (a.here + Core.size (test.code a.here) + 2 + Core.size body + 2))] ++
        Core.cells body ++ [.known Opcode.jmp.word, .hole]) data with
    frame := { a.frame with greatest := max a.frame.greatest peak } }

theorem here_tested :
    (a.tested rest test data).here = a.here + Core.size (test.code a.here) + 2 := by
  simp [tested, Core.length_cells, Nat.add_assoc]

theorem dataHere_tested : (a.tested rest test data).dataHere = a.dataHere + data.length :=
  dataHere_after

theorem frame_tested : (a.tested rest test data).frame = a.frame := rfl

theorem stated_tested : (a.tested rest test data).stated rest' inner data' peak =
    a.guarded rest' test .hole inner [] (data ++ data') peak := by
  unfold stated
  rw [here_tested]
  simp [tested, guarded, after]

theorem here_guarded : (a.guarded rest test jump inner back data peak).here =
    a.here + Core.size (test.code a.here) + 2 +
      Core.size (inner.code (a.here + Core.size (test.code a.here) + 2)) + back.length := by
  simp [guarded, here, after, Core.length_cells]
  omega

theorem guarded_after : (a.guarded rest test jump inner back data peak).after rest' back' [] =
    a.guarded rest' test jump inner (back ++ back') data peak := by
  simp [guarded, after]

theorem here_passed : (a.passed rest test inner data peak).here =
    a.here + Core.size (test.code a.here) + 2 +
      Core.size (inner.code (a.here + Core.size (test.code a.here) + 2)) + 2 := by
  simp [passed, here, after, Core.length_cells]
  omega

theorem dataHere_passed : (a.passed rest test inner data peak).dataHere = a.dataHere + data.length := by
  simp [passed, dataHere, after, Nat.add_assoc]

/-- Less is ahead behind a condition. -/
theorem length_lt_of_condition (hahead : a.ahead = kind :: .punctuator .leftParen ::
      (e.tokens ++ .punctuator .rightParen :: rest))
    (hbound : a.ahead.length ≤ bound) : rest.length < bound := by
  rw [hahead, List.length_cons, List.length_cons, List.length_append, List.length_cons] at hbound
  omega

/-- Less is ahead of a second branch. -/
theorem length_lt_of_else {text : List Token.Kind} (h : (text ++ kind :: rest).length < bound) :
    rest.length < bound := by
  rw [List.length_append, List.length_cons] at h
  omega

end Sketch

theorem does_condition (test : Core.Expr) (hgrammatical : e.isGrammatical)
    (hahead : a.ahead = kind :: .punctuator .leftParen ::
      (e.tokens ++ .punctuator .rightParen :: rest))
    (hresolve : e.resolve? a.env a.dataHere = some test) :
    Does origin a (expect kind >>= fun _ => condition)
      (a.here + Core.size (test.code a.here) + 1) (a.tested rest test e.data) := by
  refine (does_expect hahead).bind ?_
  refine (does_expect rfl).bind ?_
  refine (@does_expression _ _ _ _ test hgrammatical rfl (Syntax.closes_mark (by decide)) ?_).bind
    ?_
  · rw [Sketch.after_after, Sketch.dataHere_after]
    exact hresolve
  refine (does_expect rfl).bind ?_
  refine does_emitPending.reaches ⟨?_, ?_⟩
  · simp [Sketch.value, Core.length_cells]
  · simp [Sketch.value, Sketch.tested]

/-- The jump gets its target once everything that it skips is there. -/
theorem does_patchGuard :
    Does origin (a.guarded rest test .hole inner back data peak)
      (patchHere (a.here + Core.size (test.code a.here) + 1)) ()
      (a.guarded rest test
        (.known (Word.ofCount (a.guarded rest test .hole inner back data peak).here)) inner back
        data peak) := by
  let framed : Sketch := { a with frame := { a.frame with greatest := max a.frame.greatest peak } }
  have hframed : framed.here = a.here := rfl
  have hsite : a.here + Core.size (test.code a.here) + 1 =
      framed.here + (Core.cells (test.code a.here) ++ [Cell.known Opcode.jz.word]).length := by
    simp [hframed, Core.length_cells, Nat.add_assoc]
  have hhere : (a.guarded rest test .hole inner back data peak).here =
      framed.here + ((Core.cells (test.code a.here) ++ [Cell.known Opcode.jz.word]).length + 1 +
        (Core.cells (inner.code (a.here + Core.size (test.code a.here) + 2)) ++ back).length) := by
    rw [Sketch.here_guarded]
    simp [hframed, Core.length_cells]
    omega
  rw [hhere]
  exact does_patchHere hsite

theorem does_otherwise :
    Does origin (a.guarded (.keyword .elseKw :: rest) test .hole inner [] data peak)
      (otherwise (a.here + Core.size (test.code a.here) + 1))
      (a.here + Core.size (test.code a.here) + 2 +
        Core.size (inner.code (a.here + Core.size (test.code a.here) + 2)) + 1)
      (a.passed rest test inner data peak) := by
  refine (does_advance rfl).bind ?_
  rw [Sketch.guarded_after]
  refine does_emitPending.bind ?_
  rw [Sketch.guarded_after, Sketch.here_guarded]
  refine does_patchGuard.bind ?_
  refine Reaches.pure ⟨rfl, ?_⟩
  rw [Sketch.here_guarded]
  simp [Sketch.guarded, Sketch.passed]

end Conditions

theorem does_whileStatement {action : Compile Unit} {bound : Nat}
    (haction : Performs origin bound action) {condition : Expr} {body : Stmt}
    {rest : List Token.Kind} {core : Core.Stmt}
    (hgrammatical : (Stmt.whileLoop condition body).isGrammatical)
    (hahead : a.ahead = (Stmt.whileLoop condition body).tokens ++ rest)
    (helse : body.endsOpen → rest.head? ≠ some (.keyword .elseKw))
    (hbound : a.ahead.length ≤ bound) (hframe : a.frame.used ≤ a.frame.greatest)
    (hresolve : (Stmt.whileLoop condition body).resolve? a.env a.frame.used a.dataHere =
      some core) :
    Does origin a (whileStatement action) ()
      (a.stated rest core (Stmt.whileLoop condition body).data (body.peak a.frame.used)) := by
  have htokens : a.ahead = .keyword .whileKw :: .punctuator .leftParen ::
      (condition.tokens ++ .punctuator .rightParen :: (body.tokens ++ rest)) := by
    rw [hahead]
    simp [Stmt.tokens]
  rw [Stmt.isGrammatical, Bool.and_eq_true] at hgrammatical
  obtain ⟨test, inner, htest, hinner, rfl⟩ := Stmt.resolve?_whileLoop_eq_some.1 hresolve
  rw [whileStatement_eq]
  refine does_openRule.bind ?_
  refine does_here.bind ?_
  refine (does_condition test hgrammatical.1 htokens htest).bind ?_
  refine (haction (a.tested _ test _) body rest inner hgrammatical.2 rfl helse
    (Sketch.length_lt_of_condition htokens hbound) hframe ?_).bind ?_
  · rw [Sketch.dataHere_tested]
    exact hinner
  rw [Sketch.stated_tested, Sketch.frame_tested]
  refine does_emitWith.bind ?_
  rw [Sketch.guarded_after]
  refine does_patchGuard.bind ?_
  refine does_closeRule.reaches ⟨rfl, ?_⟩
  rw [Sketch.here_guarded]
  simp [Sketch.guarded, Sketch.stated, Stmt.data, Core.Stmt.code]

theorem does_ifThen {action : Compile Unit} {bound : Nat} (haction : Performs origin bound action)
    {condition : Expr} {consequence : Stmt} {rest : List Token.Kind} {core : Core.Stmt}
    (hgrammatical : (Stmt.ifThen condition consequence).isGrammatical)
    (hahead : a.ahead = (Stmt.ifThen condition consequence).tokens ++ rest)
    (helse : rest.head? ≠ some (.keyword .elseKw))
    (hbound : a.ahead.length ≤ bound) (hframe : a.frame.used ≤ a.frame.greatest)
    (hresolve : (Stmt.ifThen condition consequence).resolve? a.env a.frame.used a.dataHere =
      some core) :
    Does origin a (ifStatement action) ()
      (a.stated rest core (Stmt.ifThen condition consequence).data
        (consequence.peak a.frame.used)) := by
  have htokens : a.ahead = .keyword .ifKw :: .punctuator .leftParen ::
      (condition.tokens ++ .punctuator .rightParen :: (consequence.tokens ++ rest)) := by
    rw [hahead]
    simp [Stmt.tokens]
  rw [Stmt.isGrammatical, Bool.and_eq_true] at hgrammatical
  obtain ⟨test, inner, htest, hinner, rfl⟩ := Stmt.resolve?_ifThen_eq_some.1 hresolve
  rw [ifStatement_eq]
  refine does_openRule.bind ?_
  refine (does_condition test hgrammatical.1 htokens htest).bind ?_
  refine (haction (a.tested _ test _) consequence rest inner hgrammatical.2 rfl (fun _ => helse)
    (Sketch.length_lt_of_condition htokens hbound) hframe ?_).bind ?_
  · rw [Sketch.dataHere_tested]
    exact hinner
  have hcurrent : (a.guarded rest test .hole inner [] (condition.data ++ consequence.data)
      (consequence.peak a.frame.used)).current ≠ .keyword .elseKw :=
    Sketch.current_ne Token.Kind.noConfusion helse
  rw [Sketch.stated_tested, Sketch.frame_tested]
  refine does_atKind.bind ?_
  rw [if_neg (by simpa using hcurrent)]
  refine does_patchGuard.bind ?_
  refine does_closeRule.reaches ⟨rfl, ?_⟩
  rw [Sketch.here_guarded]
  simp [Sketch.guarded, Sketch.stated, Stmt.data, Core.Stmt.code]

theorem does_ifElse {action : Compile Unit} {bound : Nat} (haction : Performs origin bound action)
    {condition : Expr} {consequence alternative : Stmt} {rest : List Token.Kind} {core : Core.Stmt}
    (hgrammatical : (Stmt.ifElse condition consequence alternative).isGrammatical)
    (hahead : a.ahead = (Stmt.ifElse condition consequence alternative).tokens ++ rest)
    (helse : alternative.endsOpen → rest.head? ≠ some (.keyword .elseKw))
    (hbound : a.ahead.length ≤ bound) (hframe : a.frame.used ≤ a.frame.greatest)
    (hresolve : (Stmt.ifElse condition consequence alternative).resolve? a.env a.frame.used
      a.dataHere = some core) :
    Does origin a (ifStatement action) ()
      (a.stated rest core (Stmt.ifElse condition consequence alternative).data
        (max (consequence.peak a.frame.used) (alternative.peak a.frame.used))) := by
  have htokens : a.ahead = .keyword .ifKw :: .punctuator .leftParen ::
      (condition.tokens ++ .punctuator .rightParen ::
        (consequence.tokens ++ .keyword .elseKw :: (alternative.tokens ++ rest))) := by
    rw [hahead]
    simp [Stmt.tokens]
  simp only [Stmt.isGrammatical, Bool.and_eq_true, Bool.not_eq_true'] at hgrammatical
  obtain ⟨⟨⟨hcondition, hconsequence⟩, hopen⟩, halternative⟩ := hgrammatical
  obtain ⟨test, inner, other, htest, hinner, hother, rfl⟩ := Stmt.resolve?_ifElse_eq_some.1 hresolve
  have hlength := Sketch.length_lt_of_condition htokens hbound
  rw [ifStatement_eq]
  refine does_openRule.bind ?_
  refine (does_condition test hcondition htokens htest).bind ?_
  refine (haction (a.tested _ test _) consequence _ inner hconsequence rfl (fun hopens => ?_) hlength
    hframe ?_).bind ?_
  · rw [hopen] at hopens
    cases hopens
  · rw [Sketch.dataHere_tested]
    exact hinner
  rw [Sketch.stated_tested, Sketch.frame_tested]
  refine does_atKind.bind ?_
  rw [if_pos (by simp [Sketch.current, Sketch.guarded])]
  refine does_otherwise.bind ?_
  let passed := a.passed (alternative.tokens ++ rest) test inner
    (condition.data ++ consequence.data) (consequence.peak a.frame.used)
  let body := inner.code (a.here + Core.size (test.code a.here) + 2)
  let skipped := a.here + Core.size (test.code a.here) + 2 + Core.size body + 2
  have hpassed : passed.here = skipped := Sketch.here_passed
  refine (haction passed alternative rest other halternative rfl helse
    (Sketch.length_lt_of_else hlength) (Nat.le_trans hframe (Nat.le_max_left _ _)) ?_).bind ?_
  · rw [Sketch.dataHere_passed, List.length_append, ← Nat.add_assoc]
    exact hother
  -- What is left is the hole of the second jump, in the frame of both branches.
  let last : Sketch :=
    { a with
      frame := { a.frame with
        greatest := max (max a.frame.greatest (consequence.peak a.frame.used))
          (alternative.peak a.frame.used) } }
  let front := Core.cells (test.code a.here) ++ [.known Opcode.jz.word,
    .known (Word.ofCount skipped)] ++ Core.cells body ++ [.known Opcode.jmp.word]
  have hfinal : passed.stated rest other alternative.data (alternative.peak passed.frame.used) =
      last.after rest (front ++ .hole :: Core.cells (other.code skipped))
        (condition.data ++ consequence.data ++ alternative.data) := by
    unfold Sketch.stated
    rw [hpassed]
    simp [last, passed, front, skipped, body, Sketch.passed, Sketch.after]
  have hsite : a.here + Core.size (test.code a.here) + 2 + Core.size body + 1 =
      last.here + front.length := by
    simp [last, front, Sketch.here, Core.length_cells]
    omega
  have hskipped : last.here + (front.length + 1) = skipped := by rw [← Nat.add_assoc, ← hsite]
  rw [hfinal]
  refine (does_patchHere hsite).bind ?_
  rw [← Nat.add_assoc, hskipped]
  refine does_closeRule.reaches ⟨rfl, ?_⟩
  unfold Sketch.stated
  simp [last, front, skipped, body, Sketch.after, Stmt.data, Core.Stmt.code, Core.length_cells,
    Nat.max_assoc]

theorem does_returnStatement {value : Option Expr} {rest : List Token.Kind} {core : Core.Stmt}
    (hgrammatical : (Stmt.leave value).isGrammatical)
    (hahead : a.ahead = (Stmt.leave value).tokens ++ rest)
    (hframe : a.frame.used ≤ a.frame.greatest)
    (hresolve : (Stmt.leave value).resolve? a.env a.frame.used a.dataHere = some core) :
    Does origin a returnStatement () (a.stated rest core (Stmt.leave value).data a.frame.used) := by
  refine does_openRule.bind ?_
  cases value with
  | none =>
      cases hresolve
      rw [Stmt.tokens] at hahead
      refine (does_expect hahead).bind ?_
      refine does_atMark.bind ?_
      rw [if_neg (by simp [Sketch.current])]
      refine (does_expect rfl).bind ?_
      refine does_emit.bind ?_
      refine does_closeRule.reaches ⟨rfl, ?_⟩
      rw [← Sketch.after_eq_stated hframe]
      simp [Core.Stmt.code, Stmt.data]
  | some value =>
      obtain ⟨resolved, hvalue, rfl⟩ := Option.map_eq_some_iff.1 hresolve
      have htokens : a.ahead = .keyword .returnKw ::
          (value.tokens ++ .punctuator .semicolon :: rest) := by
        rw [hahead]
        simp [Stmt.tokens]
      obtain ⟨kind, more, hkind, hopens⟩ := value.tokens_eq_cons
      have hcurrent : kind ≠ .punctuator .semicolon := by
        rintro rfl
        cases hopens
      refine (does_expect htokens).bind ?_
      refine does_atMark.bind ?_
      rw [if_pos (by simpa [Sketch.current, hkind] using hcurrent)]
      refine (@does_expression _ _ _ _ resolved hgrammatical rfl (Syntax.closes_mark (by decide))
        ?_).bind ?_
      · rw [Sketch.dataHere_after]
        exact hvalue
      refine (does_expect rfl).bind ?_
      refine does_emit.bind ?_
      refine does_closeRule.reaches ⟨rfl, ?_⟩
      rw [← Sketch.after_eq_stated hframe]
      simp [Sketch.value, Core.Stmt.code, Stmt.data]

/-- An assignment whose target has been taken. -/
theorem does_assignment {target : String} {head : Token} {value : Expr} {rest : List Token.Kind}
    {core : Core.Stmt} (hhead : head.kind = .identifier target)
    (hgrammatical : (Stmt.assign target value).isGrammatical)
    (hahead : .identifier target :: a.ahead = (Stmt.assign target value).tokens ++ rest)
    (hframe : a.frame.used ≤ a.frame.greatest)
    (hresolve : (Stmt.assign target value).resolve? a.env a.frame.used a.dataHere = some core) :
    Does origin a (assignment head) ()
      (a.stated rest core (Stmt.assign target value).data a.frame.used) := by
  have htokens : a.ahead = .punctuator .equal ::
      (value.tokens ++ .punctuator .semicolon :: rest) := by
    rw [Stmt.tokens] at hahead
    rw [(List.cons_eq_cons.1 hahead).2]
    simp
  obtain ⟨place, resolved, hfind, hvalue, rfl⟩ := Stmt.resolve?_assign_eq_some.1 hresolve
  refine does_openRule.bind ?_
  refine does_record.bind ?_
  refine reaches_locate.bind ?_
  rintro position a rfl
  rw [hhead]
  refine (reaches_resolve hfind).bind ?_
  rintro symbol a ⟨rfl, hmeans⟩
  rw [if_neg (not_not_intro hmeans.records.1)]
  refine (does_expect htokens).bind ?_
  refine (@does_expression _ _ _ _ resolved hgrammatical rfl (Syntax.closes_mark (by decide))
    ?_).bind ?_
  · rw [Sketch.dataHere_after]
    exact hvalue
  refine (does_expect rfl).bind ?_
  refine (does_emitStore hmeans.records).bind ?_
  refine does_closeRule.reaches ⟨rfl, ?_⟩
  rw [← Sketch.after_eq_stated hframe]
  simp [Sketch.value, Core.Stmt.code, Stmt.data]

/-- A statement that is an expression, whose value `action` computes. -/
theorem does_expressionStatement {action : Compile Unit} {value : Expr} {rest : List Token.Kind}
    {resolved : Core.Expr} (hframe : a.frame.used ≤ a.frame.greatest)
    (haction : Does origin a action ()
      (a.value (.punctuator .semicolon :: rest) resolved value.data)) :
    Does origin a (expressionStatement action) ()
      (a.stated rest (.evaluate resolved) value.data a.frame.used) := by
  refine does_openRule.bind ?_
  refine Does.bind haction ?_
  refine (does_expect rfl).bind ?_
  refine does_closeRule.reaches ⟨rfl, ?_⟩
  rw [← Sketch.after_eq_stated hframe]
  simp [Sketch.value, Core.Stmt.code]

/-- A statement that begins with a name. -/
def named : Compile Unit := do
  let head ← take
  if ← atMark .equal then assignment head
  else expressionStatement (expressionFrom head)

theorem does_named_assign {target : String} {value : Expr} {rest : List Token.Kind}
    {core : Core.Stmt} (hgrammatical : (Stmt.assign target value).isGrammatical)
    (hahead : a.ahead = (Stmt.assign target value).tokens ++ rest)
    (hframe : a.frame.used ≤ a.frame.greatest)
    (hresolve : (Stmt.assign target value).resolve? a.env a.frame.used a.dataHere = some core) :
    Does origin a named () (a.stated rest core (Stmt.assign target value).data a.frame.used) := by
  rw [Stmt.tokens] at hahead
  refine (reaches_take hahead).bind ?_
  rintro head _ ⟨hhead, rfl⟩
  refine does_atMark.bind ?_
  rw [if_pos (by simp [Sketch.current])]
  refine Does.reaches (@does_assignment _ _ _ _ _ rest core hhead hgrammatical ?_ hframe ?_) ⟨rfl, ?_⟩
  · rw [Stmt.tokens]
    rfl
  · rw [Sketch.dataHere_after]
    exact hresolve
  · simp [Sketch.stated]

theorem does_named_evaluate {identifier : String} {value : Expr} {more rest : List Token.Kind}
    {resolved : Core.Expr} (hgrammatical : value.isGrammatical)
    (htokens : value.tokens = .identifier identifier :: more)
    (hahead : a.ahead = .identifier identifier :: (more ++ .punctuator .semicolon :: rest))
    (hframe : a.frame.used ≤ a.frame.greatest)
    (hresolve : value.resolve? a.env a.dataHere = some resolved) :
    Does origin a named () (a.stated rest (.evaluate resolved) value.data a.frame.used) := by
  refine (reaches_take hahead).bind ?_
  rintro head _ ⟨hhead, rfl⟩
  have hequal := Expr.head?_behind_name htokens
  have hcurrent : (a.after (more ++ .punctuator .semicolon :: rest) [] []).current ≠
      .punctuator .equal := by
    cases more with
    | nil => simp [Sketch.current]
    | cons next behind => simpa [Sketch.current] using hequal
  refine does_atMark.bind ?_
  rw [if_neg (by simpa using hcurrent)]
  refine Does.reaches (@does_expressionStatement _ _ _ _ rest resolved hframe
    (does_expressionFrom hhead hgrammatical ?_ (Syntax.closes_mark (by decide)) ?_)) ⟨rfl, ?_⟩
  · rw [htokens]
    rfl
  · rw [Sketch.dataHere_after]
    exact hresolve
  · simp [Sketch.stated]

theorem performs_statementAt (depth : Nat) : Performs origin depth (statementAt depth) := by
  induction depth with
  | zero => exact fun a _ _ _ _ _ _ hbound => absurd hbound (Nat.not_lt_zero _)
  | succ depth ih =>
      intro a statement rest core hgrammatical hahead helse hbound hframe hresolve
      have hbound' := Nat.le_of_lt_succ hbound
      refine does_peek.bind ?_
      cases statement with
      | empty =>
          cases hresolve
          rw [Stmt.tokens] at hahead
          rw [Sketch.current_of_ahead hahead]
          refine (does_advance hahead).reaches ⟨rfl, ?_⟩
          exact @Sketch.after_eq_stated _ _ .skip _ _ hframe
      | block declarations body =>
          have htokens := hahead
          rw [Stmt.tokens] at htokens
          rw [Sketch.current_of_ahead htokens]
          exact does_block ih hgrammatical hahead hbound' hframe hresolve
      | ifThen condition consequence =>
          have htokens := hahead
          rw [Stmt.tokens] at htokens
          rw [Sketch.current_of_ahead htokens]
          exact does_ifThen ih hgrammatical hahead (helse rfl) hbound' hframe hresolve
      | ifElse condition consequence alternative =>
          have htokens := hahead
          rw [Stmt.tokens] at htokens
          rw [Sketch.current_of_ahead htokens]
          exact does_ifElse ih hgrammatical hahead helse hbound' hframe hresolve
      | whileLoop condition body =>
          have htokens := hahead
          rw [Stmt.tokens] at htokens
          rw [Sketch.current_of_ahead htokens]
          exact does_whileStatement ih hgrammatical hahead helse hbound' hframe hresolve
      | leave value =>
          have hcurrent : a.current = .keyword .returnKw := by
            rw [Sketch.current, hahead]
            cases value <;> rfl
          rw [hcurrent]
          exact does_returnStatement hgrammatical hahead hframe hresolve
      | assign target value =>
          have htokens := hahead
          rw [Stmt.tokens] at htokens
          rw [Sketch.current_of_ahead htokens]
          exact does_named_assign hgrammatical hahead hframe hresolve
      | evaluate value =>
          obtain ⟨resolved, hvalue, rfl⟩ := Option.map_eq_some_iff.1 hresolve
          have htokens : a.ahead = value.tokens ++ .punctuator .semicolon :: rest := by
            rw [hahead]
            simp [Stmt.tokens]
          have hplain : Does origin a (expressionStatement expression) ()
              (a.stated rest (.evaluate resolved) value.data a.frame.used) :=
            does_expressionStatement hframe
              (does_expression hgrammatical htokens (Syntax.closes_mark (by decide)) hvalue)
          obtain ⟨kind, more, hkind, hopens⟩ := value.tokens_eq_cons
          rw [hkind] at htokens
          rw [Sketch.current_of_ahead htokens]
          cases kind with
          | identifier identifier =>
              exact does_named_evaluate hgrammatical hkind htokens hframe hvalue
          | number word => exact hplain
          | character c => exact hplain
          | string text => exact hplain
          | keyword word =>
              cases word with
              | sizeofKw => exact hplain
              | _ => cases hopens
          | punctuator mark =>
              cases mark
              all_goals first | exact hplain | cases hopens
          | endOfInput => cases hopens

end Compiler

end WordC
