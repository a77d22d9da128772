import WordC.Proofs.Compile.Expressions

/-!
# Accepted expressions

Where the compiler gives a result for an expression, the tokens begin with an expression that
resolves. So the compiler takes no text that is not in the language. What it leads to is known from
the other direction: it is what the expression compiles to.
-/

namespace WordC.Compiler

open WordC.Core (Binding Env)
open Syntax (Binary Closes Expr Unary operandRank)

variable {origin : Origin} {a b : Sketch}

/-- An expression of that rank at the front of tokens. No operator of rank `stop` or tighter
follows. -/
structure Finds (env : Env) (start : Nat) (tokens : List Token.Kind) (rank stop : Nat) (e : Expr)
    (rest : List Token.Kind) (value : Core.Expr) : Prop where
  rank : rank ≤ e.rank
  grammatical : e.isGrammatical
  tokens : tokens = e.tokens ++ rest
  closes : Closes stop rest
  resolves : e.resolve? env start = some value

/-- The action gives a result only if an expression of that rank is ahead. -/
def Accepts (origin : Origin) (rank bound : Nat) (action : Compile Unit) : Prop :=
  ∀ a : Sketch, a.ahead.length < bound →
    Needs origin a action
      (∃ e rest value, Finds a.env a.dataHere a.ahead rank rank e rest value)

/-- Where an action leads that compiles expressions behind tokens that have been taken. -/
def Leads (origin : Origin) (a : Sketch) (front : List Token.Kind) (rank stop : Nat)
    (action : Compile Unit) : Prop :=
  Ends origin a action fun _ b => ∃ e rest value,
    Finds a.env a.dataHere (front ++ a.ahead) rank stop e rest value ∧
      b = a.value rest value e.data

theorem leads_of_needs {front : List Token.Kind} {rank stop : Nat} {action : Compile Unit}
    (hneeds : Needs origin a action (∃ e rest value,
      Finds a.env a.dataHere (front ++ a.ahead) rank stop e rest value))
    (hdoes : ∀ e rest value, Finds a.env a.dataHere (front ++ a.ahead) rank stop e rest value →
      Does origin a action () (a.value rest value e.data)) :
    Leads origin a front rank stop action := by
  refine hneeds.ends ?_
  rintro ⟨e, rest, value, hfinds⟩
  exact (hdoes e rest value hfinds).reaches ⟨e, rest, value, hfinds, rfl⟩

theorem Accepts.leads {rank bound : Nat} {action : Compile Unit}
    (haccepts : Accepts origin rank bound action) (hcompiles : Compiles origin rank bound action)
    (hbound : a.ahead.length < bound) : Leads origin a [] rank rank action := by
  refine leads_of_needs (haccepts a hbound) ?_
  intro e rest value hfinds
  exact hcompiles a e rest value hfinds.rank hfinds.grammatical hfinds.tokens hfinds.closes hbound
    hfinds.resolves

/-! ## Operators -/

theorem needs_linkOperand {op : Binary} {operand : Compile Unit} {bound : Nat}
    {rest : List Token.Kind} {first : Core.Expr} {data : List Word}
    (hoperand : Accepts origin (op.rank + 1) bound operand) (hbound : rest.length < bound) :
    Needs origin (a.value rest first data) (linkOperand operand (linkOf op))
      (∃ e rest' value, Finds a.env (a.dataHere + data.length) rest (op.rank + 1) (op.rank + 1) e
        rest' value) := by
  cases op with
  | word operator =>
      refine does_emit.needs ?_
      refine Needs.first ((hoperand _ hbound).weaken ?_)
      rintro ⟨e, rest', value, hfinds⟩
      refine ⟨e, rest', value, ?_⟩
      simpa [Sketch.value] using hfinds
  | logical connective =>
      refine does_emitPending.needs ?_
      refine Needs.first ((hoperand _ hbound).weaken ?_)
      rintro ⟨e, rest', value, hfinds⟩
      refine ⟨e, rest', value, ?_⟩
      simpa [Sketch.value] using hfinds

theorem ends_linkOperand {op : Binary} {operand : Compile Unit} {bound : Nat}
    {rest : List Token.Kind} {first : Core.Expr} {data : List Word}
    (hoperand : Accepts origin (op.rank + 1) bound operand)
    (hcompiles : Compiles origin (op.rank + 1) bound operand) (hbound : rest.length < bound) :
    Ends origin (a.value rest first data) (linkOperand operand (linkOf op)) fun _ b =>
      ∃ e rest' value,
        Finds a.env (a.dataHere + data.length) rest (op.rank + 1) (op.rank + 1) e rest' value ∧
          b = a.value rest' (op.resolve first value) (data ++ e.data) := by
  refine (needs_linkOperand hoperand hbound).ends ?_
  rintro ⟨e, rest', value, hfinds⟩
  have hdoes := @does_linkOperand _ a _ _ _ _ _ first _ _ hcompiles hfinds.rank hfinds.grammatical
    hfinds.closes (hfinds.tokens ▸ hbound) hfinds.resolves
  rw [← hfinds.tokens] at hdoes
  exact hdoes.reaches ⟨e, rest', value, hfinds, rfl⟩

/-- Behind an expression that no operator of its level follows, no looser operator follows
either. -/
theorem Closes.of_link?_eq_none {level : Level} {rank : Nat} {rest : List Token.Kind}
    (hlevel : levels[rank]? = some level) (hcloses : Closes (rank + 1) rest)
    (hlink : level.link? (rest.headD .endOfInput) = none) : Closes rank rest := by
  intro op hop
  have hlt := hcloses op hop
  rcases Nat.lt_or_eq_of_le (Nat.le_of_lt_succ hlt) with h | h
  · exact h
  · subst h
    obtain ⟨behind, rfl⟩ := List.head?_eq_some_iff.1 hop
    change level.link? (.punctuator op.mark) = none at hlink
    rw [link?_mark hlevel] at hlink
    cases hlink

/-- A level goes on with operators of its rank as long as there are any. -/
theorem leads_chain {level : Level} {rank bound : Nat} {operand : Compile Unit}
    {front : List Token.Kind} (hlevel : levels[rank]? = some level)
    (hoperand : Accepts origin (rank + 1) bound operand)
    (hcompiles : Compiles origin (rank + 1) bound operand) (rounds : Nat) :
    ∀ (e : Expr) (rest : List Token.Kind) (value : Core.Expr), rest.length < rounds →
      rest.length < bound →
      Finds a.env a.dataHere (front ++ a.ahead) rank (rank + 1) e rest value →
      Ends origin (a.value rest value e.data) (chain level operand rounds) fun _ b =>
        ∃ e rest value, Finds a.env a.dataHere (front ++ a.ahead) rank rank e rest value ∧
          b = a.value rest value e.data := by
  induction rounds with
  | zero =>
      intro e rest value hrounds
      omega
  | succ rounds ih =>
      intro e rest value hrounds hbound hfinds
      rw [chain_succ]
      refine does_peek.ends ?_
      rw [show (a.value rest value e.data).current = rest.headD .endOfInput from rfl]
      cases hlink : level.link? (rest.headD .endOfInput) with
      | none =>
          exact Ends.pure ⟨e, rest, value,
            { hfinds with closes := Closes.of_link?_eq_none hlevel hfinds.closes hlink }, rfl⟩
      | some link =>
          obtain ⟨op, rfl, hkind, rfl⟩ := rank_of_link? hlevel hlink
          cases rest with
          | nil => cases hkind
          | cons kind behind =>
              change kind = .punctuator op.mark at hkind
              subst hkind
              rw [List.length_cons] at hrounds hbound
              refine (does_advance rfl).ends ?_
              rw [Sketch.value, Sketch.after_after, List.append_nil, List.append_nil]
              refine Ends.bind (ends_linkOperand (a := a) hoperand hcompiles (by omega)) ?_
              rintro _ _ ⟨right, rest', second, hright, rfl⟩
              have hlength := congrArg List.length hright.tokens
              rw [List.length_append] at hlength
              refine ih (.binary op e right) rest' (op.resolve value second) (by omega) (by omega) ?_
              exact
                { rank := Nat.le_refl _
                  grammatical := by
                    simp [Expr.isGrammatical, hfinds.rank, hfinds.grammatical, hright.grammatical,
                      Nat.lt_of_succ_le hright.rank]
                  tokens := by
                    rw [hfinds.tokens, hright.tokens]
                    simp [Expr.tokens]
                  closes := hright.closes
                  resolves := by
                    simp [Expr.resolve?, hfinds.resolves, hright.resolves] }

theorem Leads.accepts {rank bound : Nat} {action : Compile Unit}
    (h : ∀ a : Sketch, a.ahead.length < bound → Leads origin a [] rank rank action) :
    Accepts origin rank bound action := by
  intro a hbound
  refine Needs.of_ends (h a hbound) ?_
  rintro _ b ⟨e, rest, value, hfinds, -⟩
  exact ⟨e, rest, value, hfinds⟩

/-- A token that has been taken and the expression it begins leave no more tokens ahead. -/
theorem Finds.length_le {env : Env} {start rank stop : Nat} {front rest : List Token.Kind}
    {e : Expr}
    {value : Core.Expr} (h : Finds env start (front ++ a.ahead) rank stop e rest value)
    (hfront : front.length ≤ 1) : rest.length ≤ a.ahead.length := by
  have hlength := congrArg List.length h.tokens
  rw [List.length_append, List.length_append] at hlength
  have hpositive := List.length_pos_iff.2 e.tokens_ne_nil
  omega

/-- The levels from some rank on accept the expressions of that rank. -/
theorem leads_cascade {bound : Nat} {operand : Compile Unit}
    (hoperand : Accepts origin operandRank bound operand)
    (hcompiles : Compiles origin operandRank bound operand) (tighter : List Level) :
    ∀ (rank : Nat) (a : Sketch) (front : List Token.Kind) (first : Compile Unit),
      levels.drop rank = tighter → rank ≤ operandRank → front.length ≤ 1 →
      a.ahead.length < bound → Leads origin a front operandRank operandRank first →
      Leads origin a front rank rank (cascade first operand tighter) := by
  induction tighter with
  | nil =>
      intro rank a front first hdrop hrank _ _ hfirst
      have hlength : operandRank ≤ rank := List.drop_eq_nil_iff.1 hdrop
      rw [Nat.le_antisymm hrank hlength]
      exact hfirst
  | cons level tighter ih =>
      intro rank a front first hdrop hrank hfront hbound hfirst
      have hlevel : levels[rank]? = some level := by
        rw [← List.head?_drop, hdrop]
        rfl
      have hdrop' : levels.drop (rank + 1) = tighter := by
        rw [← List.tail_drop, hdrop]
        rfl
      have hrank' : rank + 1 ≤ operandRank :=
        Nat.succ_le_of_lt (List.getElem?_eq_some_iff.1 hlevel).1
      have hright : Accepts origin (rank + 1) bound (cascade operand operand tighter) :=
        Leads.accepts fun b hb => ih (rank + 1) b [] operand hdrop' hrank' (Nat.zero_le _) hb
          (hoperand.leads hcompiles hb)
      have hrightCompiles : Compiles origin (rank + 1) bound (cascade operand operand tighter) :=
        Continues.compiles hcompiles fun b =>
          continues_cascade hcompiles tighter (rank + 1) b operand hdrop'
      rw [cascade_cons]
      refine does_openRule.ends ?_
      refine @Ends.bind _ _ _ _ _ _ (fun _ b => ∃ e rest value,
        Finds a.env a.dataHere (front ++ a.ahead) rank rank e rest value ∧
          b = a.value rest value e.data) _ ?_ ?_
      · refine Ends.bind (ih (rank + 1) a front first hdrop' hrank' hfront hbound hfirst) ?_
        rintro _ _ ⟨e, rest, value, hfinds, rfl⟩
        have hlength := hfinds.length_le hfront
        refine Ends.bind reaches_bound.ends ?_
        rintro rounds _ ⟨rfl, hrounds⟩
        exact leads_chain hlevel hright hrightCompiles rounds e rest value hrounds (by omega)
          { hfinds with rank := Nat.le_of_succ_le hfinds.rank }
      · intro _ b hb
        exact does_closeRule.ends_of hb

/-! ## Calls -/

/-- Arguments are expressions with commas between them. -/
theorem ends_arguments {argument : Compile Unit} {bound : Nat}
    (haccepts : Accepts origin 0 bound argument) (hcompiles : Compiles origin 0 bound argument)
    (rounds : Nat) :
    ∀ a : Sketch, a.ahead.length < bound → a.ahead.length < rounds →
      Ends origin a (arguments argument rounds) fun given b =>
        ∃ first others rest values, Expr.areGrammatical (first :: others) ∧
          a.ahead = Expr.argumentTokens (first :: others) ++ rest ∧
          Expr.resolveArguments? a.env a.dataHere (first :: others) = some values ∧
          given = values.length ∧
          b = a.after rest (Core.cells (Core.Expr.argumentCode a.here values))
            (Expr.argumentData (first :: others)) := by
  induction rounds with
  | zero =>
      intro a _ hrounds
      omega
  | succ rounds ih =>
      intro a hbound hrounds
      rw [arguments_succ]
      refine Ends.bind (haccepts.leads hcompiles hbound) ?_
      rintro _ _ ⟨e, behind, value, hfinds, rfl⟩
      have htokens : a.ahead = e.tokens ++ behind := hfinds.tokens
      refine does_emit.ends ?_
      rw [Sketch.value, Sketch.after_after, List.append_nil, Sketch.ahead_after]
      refine ends_atMark ?_ ?_
      · intro rest hrest
        change behind = .punctuator .comma :: rest at hrest
        subst hrest
        have hlength := congrArg List.length htokens
        rw [List.length_append, List.length_cons] at hlength
        refine (does_advance rfl).ends ?_
        rw [Sketch.after_after, List.append_nil, List.append_nil]
        refine Ends.bind (ih _ ?_ ?_) ?_
        · rw [Sketch.ahead_after]
          omega
        · rw [Sketch.ahead_after]
          omega
        · rintro given _ ⟨second, others, rest', values, hgrammatical, hahead, hresolve, rfl, rfl⟩
          rw [Sketch.ahead_after] at hahead
          rw [Sketch.dataHere_after, Sketch.env_after] at hresolve
          refine Ends.pure ⟨e, second :: others, rest', value :: values, ?_, ?_, ?_, rfl, ?_⟩
          · rw [Expr.areGrammatical, hfinds.grammatical, hgrammatical]
            rfl
          · rw [htokens, hahead]
            simp [Expr.argumentTokens, Expr.furtherTokens]
          · rw [Expr.resolveArguments?, hfinds.resolves]
            simp only [Option.bind_eq_bind, Option.bind_some, hresolve]
          · simp [Core.Expr.argumentCode, Expr.argumentData, Core.length_cells, Nat.add_assoc]
      · intro _
        refine Ends.pure ⟨e, [], behind, [value], ?_, ?_, ?_, rfl, ?_⟩
        · rw [Expr.areGrammatical, hfinds.grammatical]
          rfl
        · rw [htokens]
          simp [Expr.argumentTokens, Expr.furtherTokens]
        · simp [Expr.resolveArguments?, hfinds.resolves]
        · simp [Core.Expr.argumentCode, Expr.argumentData]

/-- A call gets as many arguments as its name asks for. -/
theorem needs_finishCall {name : String} {binding : Binding} {symbol : Symbol}
    {position : Position} {values : List Core.Expr} (hmeans : a.Means name binding symbol)
    (hcallable : symbol.cls = .function ∨ symbol.cls = .system) :
    Needs origin a (finishCall symbol position values.length)
      (∃ value, Expr.resolveCall? name values binding = some value) := by
  have hrecords := hmeans.records
  unfold finishCall
  cases binding with
  | function arity =>
      rw [hrecords.2]
      change Needs origin a (if arity ≠ values.length then _ else _) _
      by_cases harity : arity = values.length
      · intro _ _ _ _ _
        exact ⟨.call name values, if_pos harity⟩
      · rw [if_pos harity]
        exact Needs.first Needs.throw
  | system request =>
      rw [hrecords.2.2]
      cases harity : request.arity? with
      | none =>
          intro _ _ _ _ _
          exact ⟨.trap request values, by simp [Expr.resolveCall?, harity]⟩
      | some arity =>
          change Needs origin a (if arity ≠ values.length then _ else _) _
          by_cases hlength : arity = values.length
          · intro _ _ _ _ _
            exact ⟨.trap request values, by simp [Expr.resolveCall?, harity, hlength]⟩
          · rw [if_pos hlength]
            exact Needs.first Needs.throw
  | object place =>
      rw [hrecords.1] at hcallable
      rcases hcallable with h | h <;> cases h
  | constant value =>
      rw [hrecords.1] at hcallable
      rcases hcallable with h | h <;> cases h

theorem needs_call {argument : Compile Unit} {bound : Nat}
    (haccepts : Accepts origin 0 bound argument) (hcompiles : Compiles origin 0 bound argument)
    {name : String} {binding : Binding} {symbol : Symbol} {position : Position}
    (hbound : a.ahead.length < bound) (hmeans : a.Means name binding symbol)
    (hcallable : symbol.cls = .function ∨ symbol.cls = .system) :
    Needs origin a (call argument symbol position)
      (∃ args rest values value, Expr.areGrammatical args ∧
        a.ahead = .punctuator .leftParen ::
          (Expr.argumentTokens args ++ .punctuator .rightParen :: rest) ∧
        Expr.resolveArguments? a.env a.dataHere args = some values ∧
        Expr.resolveCall? name values binding = some value) := by
  rw [call_eq]
  refine Needs.bind ends_expectMark ?_
  rintro _ _ ⟨ahead, hahead, rfl⟩
  rw [hahead, List.length_cons] at hbound
  refine @Needs.bind _ _ _ _ _ _ (fun given b => ∃ args rest values, Expr.areGrammatical args ∧
      ahead = Expr.argumentTokens args ++ rest ∧
      Expr.resolveArguments? a.env a.dataHere args = some values ∧ given = values.length ∧
      ∃ cells data, b = a.after rest cells data) _ ?_ ?_
  · refine ends_atMark ?_ ?_
    · intro rest _
      exact Ends.pure ⟨[], ahead, [], rfl, rfl, rfl, rfl, [], [], rfl⟩
    · intro _
      refine Ends.bind reaches_bound.ends ?_
      rintro rounds _ ⟨rfl, hrounds⟩
      refine (ends_arguments haccepts hcompiles rounds _ ?_ hrounds).weaken ?_
      · rw [Sketch.ahead_after]
        omega
      · rintro given _ ⟨first, others, rest, values, hgrammatical, htokens, hresolve, hgiven, rfl⟩
        rw [Sketch.dataHere_after] at hresolve
        rw [Sketch.after_after]
        exact ⟨first :: others, rest, values, hgrammatical, htokens, hresolve, hgiven, _, _, rfl⟩
  · rintro _ _ ⟨args, rest, values, hgrammatical, htokens, hresolve, rfl, cells, data, rfl⟩
    refine Needs.bind ends_expectMark ?_
    rintro _ _ ⟨behind, hbehind, rfl⟩
    rw [Sketch.ahead_after] at hbehind
    subst hbehind
    refine (needs_finishCall ((hmeans.after).after) hcallable).weaken ?_
    rintro ⟨value, hcall⟩
    exact ⟨args, behind, values, value, hgrammatical, by rw [hahead, htokens], hresolve, hcall⟩

/-! ## Operands -/

theorem finds_operand {env : Env} {start : Nat} {tokens rest : List Token.Kind} {e : Expr}
    {value : Core.Expr} (hrank : e.rank = operandRank) (hgrammatical : e.isGrammatical)
    (htokens : tokens = e.tokens ++ rest) (hresolves : e.resolve? env start = some value) :
    Finds env start tokens operandRank operandRank e rest value :=
  { rank := Nat.le_of_eq hrank.symm
    grammatical := hgrammatical
    tokens := htokens
    closes := Syntax.closes_operandRank rest
    resolves := hresolves }

/-- A name that has been taken is a value or is called. -/
theorem needs_nameValue {argument : Compile Unit} {bound : Nat} {token : Token} {name : String}
    (haccepts : Accepts origin 0 bound argument) (hcompiles : Compiles origin 0 bound argument)
    (hbound : a.ahead.length < bound) (hkind : token.kind = .identifier name) :
    Needs origin a (nameValue argument token)
      (∃ e rest value, Finds a.env a.dataHere (.identifier name :: a.ahead) operandRank operandRank
        e rest value) := by
  unfold nameValue
  refine Needs.bind reaches_locate.ends ?_
  rintro position a rfl
  rw [hkind]
  refine Needs.bind ends_resolve ?_
  rintro symbol a ⟨rfl, binding, hmeans⟩
  have hrecords := hmeans.records
  have hcall : symbol.cls = .function ∨ symbol.cls = .system →
      Needs origin a
        (openRule .call >>= fun _ => record token >>= fun _ => call argument symbol position >>=
          fun _ => closeRule)
        (∃ e rest value, Finds a.env a.dataHere (.identifier name :: a.ahead) operandRank operandRank
          e rest value) := by
    intro hcallable
    refine does_openRule.needs ?_
    refine does_record.needs ?_
    refine Needs.first ?_
    refine (needs_call haccepts hcompiles hbound hmeans hcallable).weaken ?_
    rintro ⟨args, rest, values, value, hgrammatical, hahead, hvalues, hresolve⟩
    refine ⟨.call name args, rest, value, finds_operand rfl hgrammatical ?_ ?_⟩
    · rw [hahead]
      simp [Expr.tokens]
    · simp [Expr.resolve?, hvalues, hmeans.find, hresolve]
  cases binding with
  | object place =>
      intro _ _ _ _ _
      refine ⟨.name name, a.ahead, .load place, finds_operand rfl rfl rfl ?_⟩
      rw [Expr.resolve?, hmeans.find]
      rfl
  | constant value =>
      intro _ _ _ _ _
      refine ⟨.name name, a.ahead, .constant value, finds_operand rfl rfl rfl ?_⟩
      rw [Expr.resolve?, hmeans.find]
      rfl
  | function arity =>
      rw [hrecords.1]
      exact hcall (.inl hrecords.1)
  | system request =>
      rw [hrecords.1]
      exact hcall (.inr hrecords.1)

theorem needs_addressOf :
    Needs origin a addressOf
      (∃ name rest value, a.ahead = .identifier name :: rest ∧
        (Expr.addressOf name).resolve? a.env a.dataHere = some value) := by
  refine Needs.bind ends_expectIdentifier ?_
  rintro ⟨name, position⟩ _ ⟨rest, hahead, rfl⟩
  refine Needs.bind ends_resolve ?_
  rintro symbol _ ⟨rfl, binding, hmeans⟩
  have hrecords := hmeans.records
  have hfind : a.env.find? name = some binding := hmeans.find
  by_cases hcls : symbol.cls = .object
  · intro _ _ _ _ _
    cases binding with
    | object place =>
        refine ⟨name, rest, .address place, hahead, ?_⟩
        rw [Expr.resolve?, hfind]
        rfl
    | constant value => cases hcls.symm.trans hrecords.1
    | function arity => cases hcls.symm.trans hrecords.1
    | system request => cases hcls.symm.trans hrecords.1
  · rw [if_pos hcls]
    exact Needs.first Needs.throw

theorem needs_primary {nested : Compile Unit} {bound : Nat}
    (haccepts : Accepts origin 0 bound nested) (hcompiles : Compiles origin 0 bound nested)
    (hbound : a.ahead.length ≤ bound) :
    Needs origin a (primary nested)
      (∃ e rest value, Finds a.env a.dataHere a.ahead operandRank operandRank e rest value) := by
  refine does_peek.needs ?_
  cases hcurrent : a.current with
  | number value =>
      obtain ⟨rest, hahead⟩ := Sketch.ahead_of_current hcurrent Token.Kind.noConfusion
      intro _ _ _ _ _
      exact ⟨.literal (.number value), rest, _, finds_operand rfl rfl hahead rfl⟩
  | character c =>
      obtain ⟨rest, hahead⟩ := Sketch.ahead_of_current hcurrent Token.Kind.noConfusion
      intro _ _ _ _ _
      exact ⟨.literal (.character c), rest, _, finds_operand rfl rfl hahead rfl⟩
  | string text =>
      obtain ⟨rest, hahead⟩ := Sketch.ahead_of_current hcurrent Token.Kind.noConfusion
      intro _ _ _ _ _
      exact ⟨.string text, rest, _, finds_operand rfl rfl hahead rfl⟩
  | identifier name =>
      obtain ⟨rest, hahead⟩ := Sketch.ahead_of_current hcurrent Token.Kind.noConfusion
      rw [hahead, List.length_cons] at hbound
      refine Needs.bind (reaches_take hahead).ends ?_
      rintro token _ ⟨hkind, rfl⟩
      refine (needs_nameValue haccepts hcompiles (by rw [Sketch.ahead_after]; omega) hkind).weaken ?_
      rintro ⟨e, behind, value, hfinds⟩
      rw [Sketch.dataHere_after, Sketch.ahead_after, ← hahead] at hfinds
      exact ⟨e, behind, value, hfinds⟩
  | punctuator mark =>
      cases mark with
      | leftParen =>
          refine needs_advance hcurrent Token.Kind.noConfusion fun behind hahead => ?_
          rw [hahead, List.length_cons] at hbound
          refine Needs.bind (haccepts.leads hcompiles ?_) ?_
          · rw [Sketch.ahead_after]
            omega
          rintro _ _ ⟨e, middle, value, hfinds, rfl⟩
          refine Needs.of_ends ends_expectMark ?_
          rintro _ _ ⟨rest, hrest, -⟩
          change middle = .punctuator .rightParen :: rest at hrest
          subst hrest
          refine ⟨.group e, rest, value, finds_operand rfl hfinds.grammatical ?_ ?_⟩
          · have htokens : behind = e.tokens ++ .punctuator .rightParen :: rest := hfinds.tokens
            rw [hahead, htokens]
            simp [Expr.tokens]
          · have hresolves := hfinds.resolves
            rw [Sketch.dataHere_after] at hresolves
            exact hresolves
      | _ => exact needs_unexpected
  | _ => exact needs_unexpected

/-- Behind the mark of a unary operator stands its operand. -/
theorem needs_unary_operand {depth : Nat} {rest : List Token.Kind} {cells : List Core.Cell}
    {next : Unit → Compile Unit} (op : Unary)
    (haccepts : Accepts origin operandRank depth (unary depth))
    (hahead : a.ahead = .punctuator op.mark :: rest) (hbound : a.ahead.length < depth + 1) :
    Needs origin (a.after rest cells []) (unary depth >>= next)
      (∃ e rest value, Finds a.env a.dataHere a.ahead operandRank operandRank e rest value) := by
  rw [hahead, List.length_cons] at hbound
  refine Needs.first ((haccepts _ (Nat.lt_of_succ_lt_succ hbound)).weaken ?_)
  rintro ⟨e, behind, value, hfinds⟩
  have hrank := Nat.le_antisymm hfinds.rank e.rank_le
  have htokens : rest = e.tokens ++ behind := hfinds.tokens
  have hresolves := hfinds.resolves
  rw [Sketch.dataHere_after] at hresolves
  refine ⟨.unary op e, behind, op.resolve value, finds_operand rfl ?_ ?_ ?_⟩
  · simp [Expr.isGrammatical, ← hrank, hfinds.grammatical]
  · rw [hahead, htokens]
    rfl
  · rw [Expr.resolve?, show e.resolve? a.env a.dataHere = some value from hresolves]
    rfl

theorem needs_sizeof {rest : List Token.Kind} {next : TypeName → Compile Unit}
    (hahead : a.ahead = .keyword .sizeofKw :: rest) :
    Needs origin (a.after rest [] [])
      (expectMark .leftParen >>= fun _ => expectType >>= fun type =>
        expectMark .rightParen >>= fun _ => next type)
      (∃ e rest value, Finds a.env a.dataHere a.ahead operandRank operandRank e rest value) := by
  refine Needs.bind ends_expectMark ?_
  rintro _ _ ⟨behind, hopen, rfl⟩
  refine Needs.bind ends_expectType ?_
  rintro type _ ⟨more, htype, rfl⟩
  refine Needs.bind ends_expectMark ?_
  rintro _ _ ⟨last, hclose, rfl⟩
  rw [Sketch.ahead_after] at hopen htype hclose
  intro _ _ _ _ _
  refine ⟨.sizeof type, last, .constant 1, finds_operand rfl rfl ?_ rfl⟩
  rw [hahead, hopen, htype, hclose]
  rfl

theorem accepts_unary (depth : Nat) : Accepts origin operandRank depth (unary depth) := by
  induction depth with
  | zero => exact fun _ _ => .throw
  | succ depth ih =>
      intro a hbound
      refine does_openRule.needs ?_
      refine does_peek.needs ?_
      split
      case h_1 hcurrent =>
        refine needs_advance hcurrent Token.Kind.noConfusion fun rest hahead => ?_
        refine does_emitWith.needs ?_
        refine does_emit.needs ?_
        simp only [Sketch.after_after, Sketch.ahead_after, List.append_nil]
        exact needs_unary_operand .minus ih hahead hbound
      case h_2 hcurrent =>
        exact needs_advance hcurrent Token.Kind.noConfusion fun rest hahead =>
          needs_unary_operand .plus ih hahead hbound
      case h_3 hcurrent =>
        exact needs_advance hcurrent Token.Kind.noConfusion fun rest hahead =>
          needs_unary_operand .bang ih hahead hbound
      case h_4 hcurrent =>
        exact needs_advance hcurrent Token.Kind.noConfusion fun rest hahead =>
          needs_unary_operand .tilde ih hahead hbound
      case h_5 hcurrent =>
        exact needs_advance hcurrent Token.Kind.noConfusion fun rest hahead =>
          needs_unary_operand .star ih hahead hbound
      case h_6 hcurrent =>
        refine needs_advance hcurrent Token.Kind.noConfusion fun rest hahead => ?_
        refine Needs.first (needs_addressOf.weaken ?_)
        rintro ⟨name, behind, value, hbehind, hresolve⟩
        rw [Sketch.ahead_after] at hbehind
        refine ⟨.addressOf name, behind, value, finds_operand rfl rfl ?_ hresolve⟩
        rw [hahead, hbehind]
        rfl
      case h_7 hcurrent =>
        exact needs_advance hcurrent Token.Kind.noConfusion fun rest hahead => needs_sizeof hahead
      case h_8 =>
        refine Needs.first ?_
        refine @needs_primary _ _ _ depth ?_ ?_ (by omega)
        · refine Leads.accepts fun b hb => ?_
          exact leads_cascade ih (compiles_unary depth) levels 0 b [] _ rfl (Nat.zero_le _)
            (Nat.zero_le _) hb (ih.leads (compiles_unary depth) hb)
        · exact compiles_cascade (compiles_unary depth)

/-! ## Expressions -/

theorem accepts_expression {bound : Nat} : Accepts origin 0 bound expression := by
  refine Leads.accepts fun a _ => ?_
  refine Ends.bind reaches_bound.ends ?_
  rintro depth a ⟨rfl, hdepth⟩
  exact leads_cascade (accepts_unary depth) (compiles_unary depth) levels 0 a [] _ rfl
    (Nat.zero_le _) (Nat.zero_le _) hdepth ((accepts_unary depth).leads (compiles_unary depth) hdepth)

/-- What an expression leads to. -/
theorem ends_expression :
    Ends origin a expression fun _ b => ∃ e rest value,
      Finds a.env a.dataHere a.ahead 0 0 e rest value ∧ b = a.value rest value e.data :=
  accepts_expression.leads compiles_expression (Nat.lt_succ_self _)

/-- What an expression leads to whose first token, a name, has been taken. -/
theorem ends_expressionFrom {head : Token} {name : String} (hhead : head.kind = .identifier name) :
    Ends origin a (expressionFrom head) fun _ b => ∃ e rest value,
      Finds a.env a.dataHere (.identifier name :: a.ahead) 0 0 e rest value ∧
        b = a.value rest value e.data := by
  refine Ends.bind reaches_bound.ends ?_
  rintro depth a ⟨rfl, hdepth⟩
  refine leads_cascade (accepts_unary depth) (compiles_unary depth) levels 0 a [.identifier name] _
    rfl (Nat.zero_le _) (Nat.le_refl _) hdepth ?_
  refine leads_of_needs (needs_nameValue accepts_expression compiles_expression hdepth hhead) ?_
  intro e rest value hfinds
  exact does_nameValue compiles_expression hhead (Nat.le_antisymm e.rank_le hfinds.rank)
    hfinds.grammatical hfinds.tokens hdepth hfinds.resolves

end WordC.Compiler
