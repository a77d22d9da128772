import WordC.Proofs.Target.Agreement

/-!
# Resolving keeps the meaning

What a tree resolves to is evaluated to the same value as the tree itself, by recursion on the tree.
That functions do the same in both evaluations is an assumption here; it is proved along the depth
of calls once all functions of a file are at hand.
-/

namespace WordC.Syntax

open WordC.Core (Binding Env Place Store)

/-- Functions of the file do the same in both evaluations, and leave the variables of their callers
alone. -/
def InvokesAgree (globals : Scope Binding) (invoke : String → List Word → Evaluation Values Word)
    (resolved : String → List Word → Evaluation Store Word) : Prop :=
  ∀ callee arguments, globals.lookup callee = some (.function arguments.length) →
    ∀ values store, GlobalsAgree globals values store →
      Matches (fun _ values' store' => GlobalsAgree globals values' store' ∧
          ∀ place, place.isLocal = true → store' place = store place)
        (invoke callee arguments values) (resolved callee arguments store)

/-- What is known about the names at a place of a file. -/
structure Setting (constants : Values) (globals : Scope Binding) (visible : List String)
    (env : Env) : Prop where
  names : Names constants globals
  among : Among globals env
  visible : ∀ callee ∈ visible, ∃ arity, env.globals.lookup callee = some (.function arity)

variable {constants : Values} {globals : Scope Binding} {visible : List String} {env env' : Env}
  {locals : Scopes (Option Word)} {invoke : String → List Word → Evaluation Values Word}
  {resolved : String → List Word → Evaluation Store Word}

theorem Setting.congr (h : Setting constants globals visible env)
    (hglobals : env'.globals = env.globals) : Setting constants globals visible env' where
  names := h.names
  among := fun name binding hlookup => h.among name binding (hglobals ▸ hlookup)
  visible := by
    rw [hglobals]
    exact h.visible

/-! ## Expressions -/

/-- What holds before and behind an expression. -/
abbrev Around (globals : Scope Binding) (env : Env) (locals : Scopes (Option Word)) :
    Values → Store → Prop :=
  Agree globals env.locals locals

theorem follows_name (hsetting : Setting constants globals visible env) {identifier : String}
    {value : Core.Expr} (h : (env.find? identifier).bind Expr.resolveName? = some value) :
    Follows (Around globals env locals) (fun _ => Around globals env locals)
      (readName constants locals identifier) (value.eval resolved) := by
  intro values store hagree
  obtain ⟨binding, hfind, hvalue⟩ := Option.bind_eq_some_iff.1 h
  unfold readName
  rcases hagree.locals.find? identifier with
    ⟨hnone, hlocals⟩ | ⟨place, content, hfound, hlocals, -, hword⟩
  · rw [hlocals]
    cases binding with
    | object place =>
        cases hvalue
        have hglobal := lookup_of_find? hsetting.among hnone hfind fun request => by simp
        change Matches _
          (resultOf .undefined (values.lookup identifier <|> constants.lookup identifier) values)
          (.ok (store place, store))
        rw [hagree.globals.object identifier place hglobal]
        exact .ok hagree
    | constant word =>
        cases hvalue
        have hglobal := lookup_of_find? hsetting.among hnone hfind fun request => by simp
        change Matches _
          (resultOf .undefined (values.lookup identifier <|> constants.lookup identifier) values)
          (.ok (word, store))
        rw [hagree.globals.constant identifier word hglobal,
          hsetting.names.constant identifier word hglobal]
        exact .ok hagree
    | function arity => cases hvalue
    | system request => cases hvalue
  · rw [Env.find?_of_locals hfound] at hfind
    cases hfind
    cases hvalue
    rw [hlocals]
    cases content with
    | none => exact .undefined
    | some word =>
        change Matches _ (.ok (word, values)) (.ok (store place, store))
        rw [hword word rfl]
        exact .ok hagree

/-- Operators on one operand are left to those on two. -/
theorem eval_resolve_unary (op : Unary) (operand : Core.Expr) :
    (op.resolve operand).eval resolved =
      operand.eval resolved >>= fun value => resultOf .undefined (op.value? value) := by
  cases op with
  | minus =>
      simp only [Unary.resolve, Core.Expr.eval, pure_bind, Unary.value?, Operator.apply?,
        Int64.ofInt_neg, Int64.ofInt_toInt, Int64.zero_sub, resultOf]
  | plus => simp only [Unary.resolve, Unary.value?, resultOf, bind_pure]
  | bang =>
      simp only [Unary.resolve, Core.Expr.eval, pure_bind, Unary.value?, Operator.apply?,
        Word.toInt_eq_zero, resultOf]
      rfl
  | tilde =>
      simp only [Unary.resolve, Core.Expr.eval, pure_bind, Unary.value?, Operator.apply?,
        Int64.xor_neg_one, resultOf]
  | star => rfl

theorem follows_binary {related : Values → Store → Prop} {action next : Evaluation Values Word}
    {left right : Core.Expr}
    (hleft : Follows related (fun _ => related) action (left.eval resolved))
    (hright : Follows related (fun _ => related) next (right.eval resolved)) (op : Operator) :
    Follows related (fun _ => related)
      (do
        let first ← action
        let second ← next
        resultOf .divisionByZero (op.value? first second))
      ((Core.Expr.binary op left right).eval resolved) := by
  rw [Core.Expr.eval]
  refine hleft.bind fun first => hright.bind fun second => ?_
  rw [Operator.value?_eq]
  exact .resultOf _ _

theorem follows_logical {related : Values → Store → Prop} {action next : Evaluation Values Word}
    {left right : Core.Expr}
    (hleft : Follows related (fun _ => related) action (left.eval resolved))
    (hright : Follows related (fun _ => related) next (right.eval resolved))
    (connective : Connective) :
    Follows related (fun _ => related)
      (do
        let first ← action
        if connective.isDecided first then return truth first
        let second ← next
        return truth second)
      ((Core.Expr.logical connective left right).eval resolved) := by
  rw [Core.Expr.eval]
  refine hleft.bind fun first => .ite (.pure _ fun _ _ h => h) ?_
  exact hright.bind fun second => .pure _ fun _ _ h => h

/-- A call of what a name stands for. -/
theorem follows_call (hsetting : Setting constants globals visible env)
    (hinvokes : InvokesAgree globals invoke resolved) {callee : String} {arguments : List Core.Expr}
    {value : Core.Expr}
    {action : Evaluation Values (List Word)}
    (h : (env.find? callee).bind (Expr.resolveCall? callee arguments) = some value)
    (harguments : Follows (Around globals env locals)
      (fun words values store => words.length = arguments.length ∧
        Around globals env locals values store)
      action (Core.Expr.evalAll resolved arguments)) :
    Follows (Around globals env locals) (fun _ => Around globals env locals)
      (action >>= fun words => File.callsAmong visible invoke callee words)
      (value.eval resolved) := by
  obtain ⟨binding, hfind, hvalue⟩ := Option.bind_eq_some_iff.1 h
  cases binding with
  | object place => cases hvalue
  | constant word => cases hvalue
  | function arity =>
      rw [Expr.resolveCall?] at hvalue
      by_cases harity : arity = arguments.length
      · rw [if_pos harity] at hvalue
        cases hvalue
        rw [Core.Expr.eval]
        refine harguments.bind fun words values store hagree => ?_
        obtain ⟨hlength, hagree⟩ := hagree
        have hlookup : globals.lookup callee = some (.function arity) := by
          rcases hagree.locals.find? callee with
            ⟨hnone, -⟩ | ⟨place, _, hfound, -, -, -⟩
          · exact lookup_of_find? hsetting.among hnone hfind fun request => by simp
          · rw [Env.find?_of_locals hfound] at hfind
            cases hfind
        unfold File.callsAmong
        by_cases hvisible : callee ∈ visible
        · rw [if_pos hvisible]
          rw [harity, ← hlength] at hlookup
          exact (hinvokes callee words hlookup values store hagree.globals).mono
            fun _ _ _ hafter => ⟨hafter.1, hagree.locals.mono hafter.2⟩
        · rw [if_neg hvisible]
          exact .undefined
      · rw [if_neg harity] at hvalue
        cases hvalue
  | system request =>
      rw [Expr.resolveCall?] at hvalue
      by_cases harity : request.arity?.all (· == arguments.length) = true
      · rw [if_pos harity] at hvalue
        cases hvalue
        rw [Core.Expr.eval]
        refine harguments.bind fun words values store hagree => ?_
        -- The file has not declared a function of that name yet.
        have hhidden : callee ∉ visible := by
          intro hmem
          obtain ⟨arity, hlookup⟩ := hsetting.visible callee hmem
          rcases hagree.2.locals.find? callee with
            ⟨hnone, -⟩ | ⟨place, _, hfound, -, -, -⟩
          · rw [Env.find?_eq, hnone, hlookup] at hfind
            cases hfind
          · rw [Env.find?_of_locals hfound] at hfind
            cases hfind
        unfold File.callsAmong
        rw [if_neg hhidden]
        exact .undefined
      · rw [if_neg harity] at hvalue
        cases hvalue

mutual

theorem follows_expr (hsetting : Setting constants globals visible env)
    (hinvokes : InvokesAgree globals invoke resolved) :
    ∀ {e : Expr} {start : Nat} {value : Core.Expr},
    e.resolve? env start = some value →
    Follows (Around globals env locals) (fun _ => Around globals env locals)
      (e.eval constants (File.callsAmong visible invoke) locals) (value.eval resolved)
  | .literal word, _, _, h => by
      cases h
      exact .pure _ fun _ _ h => h
  | .sizeof _, _, _, h => by
      cases h
      exact .pure _ fun _ _ h => h
  | .string _, _, _, _ => .undefined _
  | .addressOf _, _, _, _ => .undefined _
  | .name _, _, _, h => follows_name hsetting h
  | .unary op operand, _, _, h => by
      obtain ⟨inner, hinner, rfl⟩ := Option.map_eq_some_iff.1 h
      rw [eval_resolve_unary, Expr.eval]
      exact (follows_expr hsetting hinvokes hinner).bind fun value => .resultOf _ _
  | .binary op left right, _, _, h => by
      simp only [Expr.resolve?, Option.bind_eq_bind, Option.bind_eq_some_iff,
        Option.some.injEq] at h
      obtain ⟨first, hfirst, second, hsecond, rfl⟩ := h
      cases op with
      | word op =>
          rw [Expr.eval]
          exact follows_binary (follows_expr hsetting hinvokes hfirst)
            (follows_expr hsetting hinvokes hsecond) op
      | logical connective =>
          rw [Expr.eval]
          exact follows_logical (follows_expr hsetting hinvokes hfirst)
            (follows_expr hsetting hinvokes hsecond) connective
  | .call callee arguments, _, _, h => by
      obtain ⟨values, hvalues, hcall⟩ := Option.bind_eq_some_iff.1 h
      rw [Expr.eval]
      exact follows_call hsetting hinvokes hcall (follows_arguments hsetting hinvokes hvalues)
  | .group inner, _, _, h => by
      rw [Expr.eval]
      exact follows_expr (e := inner) hsetting hinvokes h

theorem follows_arguments (hsetting : Setting constants globals visible env)
    (hinvokes : InvokesAgree globals invoke resolved) :
    ∀ {arguments : List Expr} {start : Nat} {values : List Core.Expr},
    Expr.resolveArguments? env start arguments = some values →
    Follows (Around globals env locals)
      (fun words globalValues store => words.length = values.length ∧
        Around globals env locals globalValues store)
      (Expr.evalAll constants (File.callsAmong visible invoke) locals arguments)
      (Core.Expr.evalAll resolved values)
  | [], _, _, h => by
      cases h
      exact .pure _ fun _ _ h => ⟨rfl, h⟩
  | argument :: rest, _, _, h => by
      simp only [Expr.resolveArguments?, Option.bind_eq_bind, Option.bind_eq_some_iff,
        Option.some.injEq] at h
      obtain ⟨first, hfirst, others, hothers, rfl⟩ := h
      rw [Expr.evalAll, Core.Expr.evalAll]
      refine (follows_expr hsetting hinvokes hfirst).bind fun word =>
        (follows_arguments hsetting hinvokes hothers).bind fun words => ?_
      refine .pure _ fun _ _ h => ⟨?_, h.2⟩
      rw [List.length_cons, List.length_cons, h.1]

end

/-! ## Statements -/

theorem follows_valueOf (hsetting : Setting constants globals visible env)
    (hinvokes : InvokesAgree globals invoke resolved) {e : Expr} {start : Nat} {value : Core.Expr}
    (h : e.resolve? env start = some value) :
    Follows (Mirrors globals env) (fun _ => Mirrors globals env)
      (e.valueOf constants (File.callsAmong visible invoke)) (value.eval resolved) := by
  intro state store hmirrors
  exact (follows_expr hsetting hinvokes h state.globals store hmirrors).bind_left
    fun word globals' store' hagree => ⟨{ state with globals := globals' }, rfl, hagree⟩

variable {used start rounds : Nat}

theorem follows_assign (hsetting : Setting constants globals visible env)
    (happart : Apart used env.locals) {name : String} {place : Place}
    (hplace : env.find? name = some (.object place)) (word : Word) :
    Follows (Mirrors globals env) (fun _ => Mirrors globals env) (modify (·.assign name word))
      (modify (Store.set place word)) :=
  .modify fun _ _ hmirrors =>
    hmirrors.assign hsetting.names hsetting.among happart hplace word

theorem exec_store_seq (place : Place) (value : Core.Expr) (next : Core.Stmt) :
    (Core.Stmt.seq (.store place value) next).exec resolved rounds =
      value.eval resolved >>= fun word =>
        modify (Store.set place word) >>= fun _ => next.exec resolved rounds := by
  simp only [Core.Stmt.exec, bind_assoc, pure_bind]

/-- Declarations of local variables and what comes behind them. -/
theorem follows_declarators (rounds : Nat) {declarators : List Declarator} {inner : Env}
    {stores rest : List Core.Stmt} {next : Evaluation Variables (Option Word)}
    {post : Option Word → Variables → Store → Prop}
    (hsetting : Setting constants globals visible env) (happart : Apart used env.locals)
    (hinvokes : InvokesAgree globals invoke resolved)
    (h : resolveDeclarators? env used start declarators = some (inner, stores))
    (hnext : Setting constants globals visible inner →
      Apart (used + declarators.length) inner.locals →
      Follows (Mirrors globals inner) post next ((Core.Stmt.ofList rest).exec resolved rounds)) :
    Follows (Mirrors globals env) post
      (execDeclarators constants (File.callsAmong visible invoke) declarators >>= fun _ => next)
      ((Core.Stmt.ofList (stores ++ rest)).exec resolved rounds) := by
  induction declarators generalizing env used start stores with
  | nil =>
      cases h
      exact hnext hsetting happart
  | cons declarator declarators ih =>
      obtain ⟨middle, first, others, hdeclare, hfirst, hrest, rfl⟩ :=
        resolveDeclarators?_cons_eq_some.1 h
      have hmiddle : Setting constants globals visible middle := hsetting.congr (by
        obtain ⟨locals, -, rfl⟩ := Option.map_eq_some_iff.1 hdeclare
        rfl)
      have hothers := ih hmiddle (happart.declare hdeclare) hrest fun hinner happart' =>
        hnext hinner (by
          rw [List.length_cons, ← Nat.add_assoc, Nat.add_right_comm]
          exact happart')
      have hplace : middle.find? declarator.name = some (.object (.slot (used + 1))) := by
        rw [Env.find?_of_declare? hdeclare, if_pos rfl]
      rw [execDeclarators, bind_assoc, Declarator.exec]
      intro state store hmirrors
      have hdeclared := hmirrors.declare hdeclare rfl
      unfold Declarator.resolve? at hfirst
      cases hinitial : declarator.initial with
      | none =>
          rw [hinitial] at hfirst
          cases hfirst
          exact hothers (state.declare declarator.name) store hdeclared
      | some e =>
          rw [hinitial] at hfirst
          obtain ⟨value, hvalue, rfl⟩ := Option.map_eq_some_iff.1 hfirst
          rw [List.append_assoc, List.singleton_append, Core.Stmt.ofList_cons, exec_store_seq]
          have hstored := (follows_valueOf hmiddle hinvokes hvalue).bind fun word =>
            (follows_assign hmiddle (happart.declare hdeclare) hplace word).bind fun _ => hothers
          have hafter := hstored (state.declare declarator.name) store hdeclared
          simp only [bind_assoc]
          exact hafter

theorem exec_block (calls : String → List Word → Evaluation Values Word)
    (declarations : List Declaration) (body : List Stmt) :
    (Stmt.block declarations body).exec constants calls rounds =
      modify Variables.enter >>= fun _ =>
        (execDeclarators constants calls (declarations.flatMap Declaration.declarators) >>= fun _ =>
          Stmt.execAll constants calls rounds body) >>= fun result =>
            modify Variables.leave >>= fun _ => pure result := by
  rw [Stmt.exec]
  simp only [bind_assoc]

mutual

theorem follows_stmt : ∀ {statement : Stmt} {env : Env} {used start : Nat} {value : Core.Stmt},
    Setting constants globals visible env → Apart used env.locals →
    InvokesAgree globals invoke resolved →
    statement.resolve? env used start = some value →
    Follows (Mirrors globals env) (fun _ => Mirrors globals env)
      (statement.exec constants (File.callsAmong visible invoke) rounds)
      (value.exec resolved rounds)
  | .empty, _, _, _, _, _, _, _, h => by
      cases h
      exact .pure none fun _ _ h => h
  | .block declarations body, env, used, start, _, hsetting, happart, hinvokes, h => by
      obtain ⟨inner, stores, statements, hdeclarators, hbody, rfl⟩ :=
        Stmt.resolve?_block_eq_some.1 h
      have htail := (env_of_resolveDeclarators? hdeclarators).1
      have henter : Setting constants globals visible env.enter := hsetting.congr rfl
      have hblock := follows_declarators rounds henter happart.enter hinvokes
        hdeclarators fun hinner happart' => follows_body hinner happart' hinvokes hbody
      rw [exec_block]
      intro state store hmirrors
      exact (hblock state.enter store hmirrors.enter).bind_left fun result state' store' hinner =>
        ⟨state'.leave, rfl, hinner.leave htail⟩
  | .ifThen condition consequence, _, _, _, _, hsetting, happart, hinvokes, h => by
      obtain ⟨test, inner, htest, hinner, rfl⟩ := Stmt.resolve?_ifThen_eq_some.1 h
      rw [Stmt.exec, Core.Stmt.exec]
      exact (follows_valueOf hsetting hinvokes htest).bind fun word =>
        .ite (follows_stmt hsetting happart hinvokes hinner) (.pure none fun _ _ h => h)
  | .ifElse condition consequence alternative, _, _, _, _, hsetting, happart, hinvokes, h => by
      obtain ⟨test, inner, other, htest, hinner, hother, rfl⟩ := Stmt.resolve?_ifElse_eq_some.1 h
      rw [Stmt.exec, Core.Stmt.exec]
      exact (follows_valueOf hsetting hinvokes htest).bind fun word =>
        .ite (follows_stmt hsetting happart hinvokes hinner)
          (follows_stmt hsetting happart hinvokes hother)
  | .whileLoop condition body, _, _, _, _, hsetting, happart, hinvokes, h => by
      obtain ⟨test, inner, htest, hinner, rfl⟩ := Stmt.resolve?_whileLoop_eq_some.1 h
      rw [Stmt.exec, Core.Stmt.exec]
      exact .repeatWhile ((follows_valueOf hsetting hinvokes htest).bind fun word =>
        .pure _ fun _ _ h => h) (follows_stmt hsetting happart hinvokes hinner) rounds
  | .leave none, _, _, _, _, _, _, _, _ => .undefined _
  | .leave (some e), _, _, _, _, hsetting, _, hinvokes, h => by
      obtain ⟨value, hvalue, rfl⟩ := Option.map_eq_some_iff.1 h
      rw [Stmt.exec, Core.Stmt.exec]
      exact (follows_valueOf hsetting hinvokes hvalue).bind fun word =>
        .pure (some word) fun _ _ h => h
  | .assign target e, env, _, _, _, hsetting, happart, hinvokes, h => by
      obtain ⟨place, value, hplace, hvalue, rfl⟩ := Stmt.resolve?_assign_eq_some.1 h
      rw [Stmt.exec, Core.Stmt.exec]
      exact (follows_valueOf hsetting hinvokes hvalue).bind fun word =>
        (follows_assign hsetting happart hplace word).bind fun _ => .pure none fun _ _ h => h
  | .evaluate e, _, _, _, _, hsetting, _, hinvokes, h => by
      obtain ⟨value, hvalue, rfl⟩ := Option.map_eq_some_iff.1 h
      rw [Stmt.exec, Core.Stmt.exec]
      exact (follows_valueOf hsetting hinvokes hvalue).bind fun _ => .pure none fun _ _ h => h

theorem follows_body :
    ∀ {body : List Stmt} {env : Env} {used start : Nat} {values : List Core.Stmt},
    Setting constants globals visible env → Apart used env.locals →
    InvokesAgree globals invoke resolved →
    Stmt.resolveBody? env used start body = some values →
    Follows (Mirrors globals env) (fun _ => Mirrors globals env)
      (Stmt.execAll constants (File.callsAmong visible invoke) rounds body)
      ((Core.Stmt.ofList values).exec resolved rounds)
  | [], _, _, _, _, _, _, _, h => by
      cases h
      exact .pure none fun _ _ h => h
  | statement :: rest, _, _, _, _, hsetting, happart, hinvokes, h => by
      simp only [Stmt.resolveBody?, Option.bind_eq_bind, Option.bind_eq_some_iff,
        Option.some.injEq] at h
      obtain ⟨first, hfirst, others, hothers, rfl⟩ := h
      rw [Stmt.execAll, Core.Stmt.ofList_cons, Core.Stmt.exec]
      refine (follows_stmt hsetting happart hinvokes hfirst).bind fun result => ?_
      cases result with
      | some word => exact .pure (some word) fun _ _ h => h
      | none => exact follows_body hsetting happart hinvokes hothers

end

/-! ## Functions -/

theorem scope_of_parameterScope? {β : Type} {scope declared : Scope β} {entries : List (String × β)}
    (h : parameterScope? scope entries = some declared) : declared = entries.reverse ++ scope := by
  induction entries generalizing scope with
  | nil =>
      cases h
      rfl
  | cons entry rest ih =>
      obtain ⟨next, hnext, hrest⟩ := Option.bind_eq_some_iff.1 h
      obtain ⟨-, rfl⟩ := Scope.declare?_eq_some.1 hnext
      rw [ih hrest, List.reverse_cons, List.append_assoc]
      rfl

theorem exists_distance {names : List String} {binding : Binding}
    (h : binding ∈ (parameterBindings names).map Prod.snd) :
    ∃ distance, binding = .object (.parameter distance) ∧ distance < names.length + 2 := by
  induction names with
  | nil => cases h
  | cons name rest ih =>
      rw [List.length_cons]
      rcases List.mem_cons.1 h with rfl | hmem
      · exact ⟨rest.length + 2, rfl, by omega⟩
      · obtain ⟨distance, rfl, hlt⟩ := ih hmem
        exact ⟨distance, rfl, by omega⟩

theorem nodup_parameterBindings (names : List String) :
    ((parameterBindings names).map Prod.snd).Nodup := by
  induction names with
  | nil => exact List.nodup_nil
  | cons name rest ih =>
      refine List.nodup_cons.2 ⟨fun hmem => ?_, ih⟩
      obtain ⟨distance, hdistance, hlt⟩ := exists_distance hmem
      cases hdistance
      omega

theorem apart_parameters (names : List String) : Apart 0 [(parameterBindings names).reverse] where
  nodup := by
    rw [List.flatten_singleton, List.map_reverse]
    exact (List.reverse_perm _).nodup_iff.2 (nodup_parameterBindings names)
  slots := by
    intro index hmem
    rw [List.flatten_singleton, List.map_reverse, List.mem_reverse] at hmem
    obtain ⟨distance, hdistance, -⟩ := exists_distance hmem
    cases hdistance

/-- At the entry of a function its parameters have the values of the arguments. -/
theorem shows_parameters {names : List String} (front : List Word) {back : List Word}
    {store : Store}
    (hlength : back.length = names.length) :
    List.Forall₂ (Shows (store.enter (front ++ back))) (parameterBindings names)
      (names.zip (back.map some)) := by
  induction names generalizing front back with
  | nil => exact .nil
  | cons name rest ih =>
      cases back with
      | nil => cases hlength
      | cons word back =>
          rw [List.length_cons, List.length_cons, Nat.succ_inj] at hlength
          refine .cons ⟨rfl, _, rfl, rfl, fun found hfound => ?_⟩ ?_
          · cases hfound
            change (front ++ word :: back).getD
              ((front ++ word :: back).length + 1 - (rest.length + 2)) 0 = word
            have hindex : (front ++ word :: back).length + 1 - (rest.length + 2) = front.length := by
              rw [List.length_append, List.length_cons]
              omega
            rw [hindex]
            simp
          · have hrest := ih (front ++ [word]) hlength
            rwa [List.append_assoc] at hrest

/-- The state in which a function begins. -/
def Variables.ofCall (parameters : List String) (arguments : List Word) (globals : Values) :
    Variables :=
  { globals, locals := [(parameters.zip (arguments.map some)).reverse] }

theorem mirrors_ofCall (hnames : Names constants globals) {values : Values} {store : Store}
    (h : GlobalsAgree globals values store) {parameters : List String} {arguments : List Word}
    (hlength : arguments.length = parameters.length) (inner : Scope Binding) :
    Mirrors globals { locals := [(parameterBindings parameters).reverse], globals := inner }
      (.ofCall parameters arguments values) (store.enter arguments) where
  globals := h.congr hnames fun place hplace => by
    cases place with
    | global address => rfl
    | slot index => cases hplace
    | parameter distance => cases hplace
  locals := .cons (List.forall₂_reverse_iff.2 (shows_parameters [] hlength)) .nil

/-- The body of a function and what it resolves to. -/
theorem follows_function (rounds : Nat) {inner : Scope Binding} {parameters : List String}
    {declarations : List Declaration} {body : List Stmt} {statements : List Core.Stmt}
    (hsetting : Setting constants globals visible { locals := [], globals := inner })
    (hinvokes : InvokesAgree globals invoke resolved)
    (h : resolveFunction? inner start parameters declarations body = some statements)
    {values : Values} {store : Store} (hagree : GlobalsAgree globals values store)
    {arguments : List Word} (hlength : arguments.length = parameters.length) :
    Matches (fun _ state inside => GlobalsAgree globals state.globals inside)
      ((execDeclarators constants (File.callsAmong visible invoke)
          (declarations.flatMap Declaration.declarators) >>= fun _ =>
        Stmt.execAll constants (File.callsAmong visible invoke) rounds body)
        (.ofCall parameters arguments values))
      ((Core.Stmt.ofList statements).exec resolved rounds (store.enter arguments)) := by
  obtain ⟨scope, last, stores, resolvedBody, hscope, hdeclarators, hbody, rfl⟩ :=
    resolveFunction?_eq_some.1 h
  obtain rfl := (scope_of_parameterScope? hscope).trans (List.append_nil _)
  have hentered : Setting constants globals visible
      { locals := [(parameterBindings parameters).reverse], globals := inner } := hsetting.congr rfl
  have hfollows := follows_declarators rounds hentered
    (apart_parameters parameters) hinvokes hdeclarators fun hlast happart =>
      follows_body hlast happart hinvokes hbody
  exact (hfollows _ _ (mirrors_ofCall hsetting.names hagree hlength inner)).mono
    fun _ _ _ hmirrors => hmirrors.globals

end WordC.Syntax
