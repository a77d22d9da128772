import WordC.Proofs.Compile.Functions
import WordC.Proofs.Compile.Statements

/-!
# Parameters and bodies

Parameters are declared in a scope of their own, which the outermost block of the body shares. The
number of slots is known behind the body and patched into the instruction in front of it.
-/

namespace WordC

open WordC.Core (Binding Cell Env Place)
open Syntax (Declaration Declarator Scope Stmt declaratorData parameterScope? parameterBindings
  resolveDeclarators?)

/-- The last parameter lies nearest to the base pointer. -/
theorem Word.ofCount_parameter (index behind : Nat) :
    ofCount index - (ofCount (index + (behind + 1)) + 1) = -ofCount (behind + 2) := by
  unfold ofCount
  rw [Int64.ofNat_add, Int64.ofNat_add, Int64.ofNat_add]
  grind

namespace Compiler

variable {α : Type} {origin : Origin} {a b : Sketch}

/-! ## Reading parameters -/

def parameterTokens (parameters : List (TypeName × String)) : List Token.Kind :=
  (Syntax.Parameters.list parameters).tokens

theorem parameterTokens_singleton (type : TypeName) (name : String) :
    parameterTokens [(type, name)] = [.keyword (.type type), .identifier name] := rfl

theorem parameterTokens_cons (first second : TypeName × String)
    (others : List (TypeName × String)) :
    parameterTokens (first :: second :: others) =
      .keyword (.type first.1) :: .identifier first.2 :: .punctuator .comma ::
        parameterTokens (second :: others) := by
  simp [parameterTokens, Syntax.Parameters.tokens, Syntax.separated, Syntax.further]

/-- The rest of a parameter list behind a type. -/
def parameterNamed (type : TypeName) (rounds : Nat) : Compile (List Parameter) := do
  let (name, position) ← expectIdentifier
  let parameter : Parameter := { name, type, position }
  if ← atMark .comma then
    advance
    return parameter :: (← parameterList false rounds)
  else return [parameter]

/-- A type in front of a name is no lone `void`. -/
theorem reaches_parameterNamed {type : TypeName} {name : String} {behind : List Token.Kind}
    {isFirst : Bool} {rounds : Nat} {post : List Parameter → Sketch → Prop}
    (hahead : a.ahead = .keyword (.type type) :: .identifier name :: behind)
    (hnext : Reaches origin (a.after (.identifier name :: behind) [] [])
      (parameterNamed type rounds) post) :
    Reaches origin a (parameterList isFirst (rounds + 1)) post := by
  refine (does_expectType hahead).bind ?_
  refine does_atMark.bind ?_
  rw [if_neg (by simp [Sketch.current])]
  exact hnext

theorem reaches_parameterList_next (first : TypeName × String) (others : List (TypeName × String)) :
    ∀ (a : Sketch) (isFirst : Bool) (rest : List Token.Kind) (rounds : Nat),
      a.ahead = parameterTokens (first :: others) ++ .punctuator .rightParen :: rest →
      a.ahead.length < rounds →
      Reaches origin a (parameterList isFirst rounds) fun list b =>
        list.map (·.name) = (first :: others).map (·.2) ∧
          b = a.after (.punctuator .rightParen :: rest) [] [] := by
  induction others generalizing first with
  | nil =>
      intro a isFirst rest rounds hahead hrounds
      obtain ⟨rounds, rfl⟩ : ∃ more, rounds = more + 1 := ⟨rounds - 1, by omega⟩
      rw [parameterTokens_singleton] at hahead
      refine reaches_parameterNamed hahead ?_
      refine (reaches_expectIdentifier rfl).bind ?_
      rintro ⟨found, position⟩ _ ⟨hfound, rfl⟩
      refine does_atMark.bind ?_
      rw [if_neg (by simp [Sketch.current])]
      refine Reaches.pure ⟨congrArg (fun name => [name]) hfound, ?_⟩
      simp
  | cons second others ih =>
      intro a isFirst rest rounds hahead hrounds
      obtain ⟨rounds, rfl⟩ : ∃ more, rounds = more + 1 := ⟨rounds - 1, by omega⟩
      rw [parameterTokens_cons, List.cons_append, List.cons_append, List.cons_append] at hahead
      have hlength := congrArg List.length hahead
      rw [List.length_cons, List.length_cons, List.length_cons] at hlength
      refine reaches_parameterNamed hahead ?_
      refine (reaches_expectIdentifier rfl).bind ?_
      rintro ⟨found, position⟩ _ ⟨hfound, rfl⟩
      refine does_atMark.bind ?_
      rw [if_pos (by simp [Sketch.current])]
      refine (does_advance rfl).bind ?_
      refine (ih second _ false rest rounds rfl ?_).bind ?_
      · rw [Sketch.ahead_after]
        omega
      · rintro list _ ⟨hlist, rfl⟩
        refine Reaches.pure ⟨?_, ?_⟩
        · rw [List.map_cons, hlist, List.map_cons (l := second :: others)]
          exact congrArg (· :: (second :: others).map (·.2)) hfound
        · simp

theorem reaches_parameters {list : Syntax.Parameters} {rest : List Token.Kind}
    (hahead : a.ahead = .punctuator .leftParen :: (list.tokens ++ .punctuator .rightParen :: rest)) :
    Reaches origin a parameters fun found b =>
      found.map (·.name) = list.names ∧ b = a.after rest [] [] := by
  refine does_openRule.bind ?_
  refine (does_expect hahead).bind ?_
  refine does_atMark.bind ?_
  have hclose : ∀ (found : List Parameter) (b : Sketch), found.map (·.name) = list.names →
      b = a.after (.punctuator .rightParen :: rest) [] [] →
      Reaches origin b
        (expectMark .rightParen >>= fun _ => closeRule >>= fun _ => pure found)
        fun found b => found.map (·.name) = list.names ∧ b = a.after rest [] [] := by
    rintro found _ hnames rfl
    refine (does_expect rfl).bind ?_
    refine does_closeRule.bind ?_
    refine Reaches.pure ⟨hnames, ?_⟩
    simp
  cases list with
  | void =>
      rw [if_neg (by simp [Sketch.current, Syntax.Parameters.tokens])]
      refine reaches_bound.bind ?_
      rintro rounds b ⟨rfl, hrounds⟩
      obtain ⟨rounds, rfl⟩ : ∃ more, rounds = more + 1 := ⟨rounds - 1, by omega⟩
      have htype : Does origin
          (a.after (Syntax.Parameters.void.tokens ++ .punctuator .rightParen :: rest) [] [])
          expectType .void (a.after (.punctuator .rightParen :: rest) [] []) := by
        refine (does_expectType rfl).reaches ⟨rfl, ?_⟩
        simp
      refine @Reaches.bind _ _ _ _ _ _ (fun found b => found = [] ∧
        b = a.after (.punctuator .rightParen :: rest) [] []) _ ?_ ?_
      · refine htype.bind ?_
        refine does_atMark.bind ?_
        rw [if_pos (by simp [Sketch.current])]
        exact Reaches.pure ⟨rfl, rfl⟩
      · rintro found b ⟨rfl, hb⟩
        exact hclose [] b rfl hb
  | list list =>
      cases list with
      | nil =>
          rw [if_pos (by simp [Sketch.current, Syntax.Parameters.tokens, Syntax.separated])]
          exact hclose [] _ rfl rfl
      | cons first others =>
          rw [if_neg (by simp [Sketch.current, Syntax.Parameters.tokens, Syntax.separated])]
          refine reaches_bound.bind ?_
          rintro rounds b ⟨rfl, hrounds⟩
          refine (reaches_parameterList_next first others _ true rest rounds rfl hrounds).bind ?_
          rintro found b ⟨hnames, hb⟩
          refine hclose found b hnames ?_
          simp [hb]

/-! ## Declaring parameters -/

theorem does_declareParameters (names : List String) :
    ∀ (a : Sketch) (list : List Parameter) (arity index : Nat) (scope declared : Scope Binding),
      list.map (·.name) = names → arity = index + names.length → a.env.locals = [scope] →
      parameterScope? scope (parameterBindings names) = some declared →
      Does origin a (declareParameters arity list index) ()
        { a with env := { a.env with locals := [declared] } } := by
  induction names with
  | nil =>
      intro a list arity index scope declared hnames _ hlocals hscope
      cases list with
      | nil =>
          cases hscope
          rw [show ({ a.env with locals := [scope] } : Env) = a.env by rw [← hlocals]]
          exact Does.pure
      | cons parameter list => cases hnames
  | cons name names ih =>
      intro a list arity index scope declared hnames harity hlocals hscope
      cases list with
      | nil => cases hnames
      | cons parameter list =>
          obtain ⟨hname, hrest⟩ := List.cons_eq_cons.1 hnames
          change parameter.name = name at hname
          subst hname
          rw [parameterBindings, parameterScope?, Option.bind_eq_some_iff] at hscope
          obtain ⟨next, hnext, hscope⟩ := hscope
          rw [List.length_cons] at harity
          have hdeclare : a.env.declare? parameter.name (.parameter (names.length + 2)) =
              some { a.env with locals := [next] } := by
            rw [Env.declare?, hlocals, Syntax.Scopes.declare?, hnext]
            rfl
          have hvalue : Word.ofCount index - (Word.ofCount arity + 1) =
              (Place.parameter (names.length + 2)).operand := by
            rw [harity, Word.ofCount_parameter]
            rfl
          refine (reaches_declareLocal hdeclare rfl rfl
            hvalue).bind ?_
          rintro _ _ ⟨rfl, -⟩
          exact ih { a with env := { a.env with locals := [next] } } list arity (index + 1) next
            declared hrest (by omega) rfl hscope

/-! ## Bodies -/

theorem performs_statement {bound : Nat} : Performs origin bound statement := by
  intro a tree rest core hgrammatical hahead helse _ hframe hresolve
  refine reaches_bound.bind ?_
  rintro depth a ⟨rfl, hdepth⟩
  exact performs_statementAt depth a tree rest core hgrammatical hahead helse hdepth hframe hresolve

theorem does_functionBody {declarations : List Declaration} {body : List Stmt}
    {rest : List Token.Kind} {inner : Env} {stores cores : List Core.Stmt}
    (hgrammatical : (Stmt.block declarations body).isGrammatical)
    (hahead : a.ahead = (Stmt.block declarations body).tokens ++ rest)
    (hframe : a.frame.used ≤ a.frame.greatest)
    (hstores : resolveDeclarators? a.env a.frame.used a.dataHere
      (declarations.flatMap Declaration.declarators) = some (inner, stores))
    (hcores : Stmt.resolveBody? inner
      (a.frame.used + (declarations.flatMap Declaration.declarators).length)
      (a.dataHere + (declaratorData (declarations.flatMap Declaration.declarators)).length) body =
        some cores) :
    Does origin a functionBody ()
      (a.contents rest inner (stores ++ cores) (Stmt.block declarations body).data
        (declarations.flatMap Declaration.declarators).length
        ((Stmt.block declarations body).peak a.frame.used)) := by
  have htokens : a.ahead = .punctuator .leftBrace ::
      (declarations.flatMap Declaration.tokens ++ Stmt.bodyTokens body ++
        .punctuator .rightBrace :: rest) := by
    rw [hahead]
    simp [Stmt.tokens]
  refine does_openRule.bind ?_
  refine (does_expect htokens).bind ?_
  let entered := a.after (declarations.flatMap Declaration.tokens ++ Stmt.bodyTokens body ++
    .punctuator .rightBrace :: rest) [] []
  have hdataHere : entered.dataHere = a.dataHere := by
    rw [Sketch.dataHere_after]
    rfl
  have hhere : entered.here = a.here := by
    rw [Sketch.here_after]
    rfl
  refine (does_blockContents (a := entered) performs_statement
    hgrammatical rfl (Nat.lt_succ_self _) hframe (hdataHere.symm ▸ hstores)
    (hdataHere.symm ▸ hcores)).bind ?_
  refine (does_expect rfl).bind ?_
  refine does_closeRule.reaches ⟨rfl, ?_⟩
  unfold Sketch.contents
  rw [hhere]
  simp [entered, Sketch.after]

/-- A note in the journal changes nothing else. -/
theorem does_report {event : Machine → Event} :
    Does origin a (onMachine (modify fun machine => machine.report (event machine))) () a :=
  does_unseen fun _ hfits => ⟨_, rfl,
    { hfits with
      machine := { hfits.machine with sound := { hfits.machine.sound with } } }⟩

/-! ## Functions -/

/-- What stands in front of the body of a function: its entry and the instruction that makes room
for its variables. Gives the address of the word that says how many. -/
def prologue (symbol : Symbol) (list : List Parameter) : Compile Nat := do
  bindFunction symbol list.length
  enterScope
  declareParameters list.length list 0
  update fun compiler => { compiler with frame := {} }
  emitPending .ent

theorem prologue_bind {β : Type} (symbol : Symbol) (list : List Parameter)
    (next : Nat → Compile β) :
    (bindFunction symbol list.length >>= fun _ => enterScope >>= fun _ =>
      declareParameters list.length list 0 >>= fun _ =>
      update (fun compiler => { compiler with frame := {} }) >>= fun _ =>
      emitPending .ent >>= next) = prologue symbol list >>= next := by
  simp only [prologue, bind_assoc]

/-- The sketch in front of the body: no slot is in use, and one word is open. -/
def Sketch.entered (a : Sketch) (name : String) (scope globals : Scope Binding)
    (awaiting : List String) : Sketch :=
  { a.after a.ahead [.known Opcode.ent.word, .hole] [] with
    env := { locals := [scope], globals }
    awaiting
    entries := a.entries ++ [(name, a.here)]
    frame := {} }

theorem does_prologue {name : String} {names : List String} {list : List Parameter}
    {scope globals : Scope Binding} {awaiting : List String} {symbol : Symbol}
    (houtside : a.env.locals = []) (hnames : list.map (·.name) = names)
    (hbind : Does origin a (bindFunction symbol names.length) () (a.defined name globals awaiting))
    (hscope : parameterScope? [] (parameterBindings names) = some scope) :
    Does origin a (prologue symbol list) (a.here + 1) (a.entered name scope globals awaiting) := by
  have harity : list.length = names.length := by
    rw [← hnames, List.length_map]
  unfold prologue
  rw [harity]
  refine hbind.bind ?_
  refine does_enterScope.bind ?_
  have hlocals : (a.defined name globals awaiting).env.enter.locals = [[]] := by
    change [] :: a.env.locals = [[]]
    rw [houtside]
  refine (does_declareParameters names
    { a.defined name globals awaiting with env := (a.defined name globals awaiting).env.enter }
    list names.length 0 [] scope hnames (Nat.zero_add _).symm hlocals hscope).bind ?_
  refine (does_frame fun _ => {}).bind ?_
  exact does_emitPending

/-- What stands behind the body of a function: it returns, and the word that the prologue has left
open says how many variables there have been. -/
def epilogue (name : String) (entry : Word) (arity site : Nat) : Compile Unit := do
  emit .lev
  let locals := Word.ofCount (← view (·.frame.greatest))
  patch site locals
  leaveScope
  onMachine (modify fun machine => machine.report (.functionCompiled name entry arity locals))

/-- The sketch behind the body: its variables are still in scope, and the word is still open. -/
def Sketch.filled (a : Sketch) (name : String) (inner : Env) (awaiting : List String)
    (rest : List Token.Kind) (body : Core.Stmt) (data : List Word) (frame : Frame) : Sketch :=
  { a.after rest ([.known Opcode.ent.word] ++ .hole :: Core.cells (body.code (a.here + 2))) data with
    env := inner
    awaiting
    entries := a.entries ++ [(name, a.here)]
    frame }

/-- The sketch behind a function: it has its entry, its code and the data of its strings. -/
def Sketch.completed (a : Sketch) (name : String) (env : Env) (awaiting : List String)
    (rest : List Token.Kind) (body : Core.Stmt) (data : List Word) (frame : Frame) : Sketch :=
  { a.after rest (Core.cells (Core.Section.functionCode a.here frame.greatest body)) data with
    env
    awaiting
    entries := a.entries ++ [(name, a.here)]
    frame }

theorem Sketch.here_entered (a : Sketch) (name : String) (scope globals : Scope Binding)
    (awaiting : List String) : (a.entered name scope globals awaiting).here = a.here + 2 := by
  simp [entered, here, after, Nat.add_assoc]

theorem Sketch.dataHere_entered (a : Sketch) (name : String) (scope globals : Scope Binding)
    (awaiting : List String) : (a.entered name scope globals awaiting).dataHere = a.dataHere := by
  simp [entered, dataHere, after]

theorem does_enteredBody {name : String} {scope globals : Scope Binding} {awaiting : List String}
    {declarations : List Declaration} {body : List Stmt} {rest : List Token.Kind} {inner : Env}
    {stores cores : List Core.Stmt} (hgrammatical : (Stmt.block declarations body).isGrammatical)
    (hahead : a.ahead = (Stmt.block declarations body).tokens ++ rest)
    (hstores : resolveDeclarators? { locals := [scope], globals } 0 a.dataHere
      (declarations.flatMap Declaration.declarators) = some (inner, stores))
    (hcores : Stmt.resolveBody? inner (0 + (declarations.flatMap Declaration.declarators).length)
      (a.dataHere + (declaratorData (declarations.flatMap Declaration.declarators)).length) body =
        some cores) :
    Does origin (a.entered name scope globals awaiting) functionBody ()
      (a.filled name inner awaiting rest (.ofList (stores ++ cores))
        (Stmt.block declarations body).data
        { used := (declarations.flatMap Declaration.declarators).length
          greatest := (Stmt.block declarations body).peak 0 }) := by
  rw [← a.dataHere_entered name scope globals awaiting] at hstores hcores
  refine (does_functionBody (a := a.entered name scope globals awaiting) hgrammatical hahead
    (Nat.le_refl _) hstores hcores).reaches ⟨rfl, ?_⟩
  unfold Sketch.contents Sketch.filled
  rw [Sketch.here_entered]
  simp [Sketch.entered, Sketch.after]

theorem does_epilogue {name : String} {inner : Env} {scope : Scope Binding}
    {outer : Syntax.Scopes Binding} {awaiting : List String} {rest : List Token.Kind}
    {body : Core.Stmt} {data : List Word} {frame : Frame} {entry : Word} {arity : Nat}
    (hinner : inner.locals = scope :: outer) :
    Does origin (a.filled name inner awaiting rest body data frame)
      (epilogue name entry arity (a.here + 1)) ()
      (a.completed name { inner with locals := outer } awaiting rest body data frame) := by
  let last : Sketch :=
    { a with env := inner, awaiting, entries := a.entries ++ [(name, a.here)], frame }
  have hreturned : (a.filled name inner awaiting rest body data frame).after rest
        [.known Opcode.lev.word] [] =
      last.after rest ([.known Opcode.ent.word] ++ .hole ::
        (Core.cells (body.code (a.here + 2)) ++ [.known Opcode.lev.word])) data := by
    simp [last, Sketch.filled, Sketch.after]
  refine does_emit.bind ?_
  change Reaches origin ((a.filled name inner awaiting rest body data frame).after rest _ []) _ _
  rw [hreturned]
  refine does_viewFrame.bind ?_
  refine (does_patch rfl).bind ?_
  refine (does_leaveScope hinner).bind ?_
  refine does_report.reaches ⟨rfl, ?_⟩
  simp [last, Sketch.completed, Sketch.after, Core.Section.functionCode]

/-- Behind the declarations of a body, its outermost scope is the only one. -/
theorem locals_of_resolveDeclarators? {declarators : List Declarator} {scope globals : Scope Binding}
    {inner : Env} {used start : Nat} {stores : List Core.Stmt}
    (h : resolveDeclarators? { locals := [scope], globals } used start declarators =
      some (inner, stores)) :
    inner.globals = globals ∧ ∃ scope, inner.locals = [scope] := by
  obtain ⟨htail, hglobals, hne⟩ := Syntax.env_of_resolveDeclarators? h
  obtain ⟨first, outer, hcons⟩ := List.exists_cons_of_ne_nil (hne (List.cons_ne_nil _ _))
  rw [hcons] at htail
  exact ⟨hglobals, first, by rw [hcons, show outer = [] from htail]⟩

/-- A function behind its name. `bindFunction` has to accept it. -/
theorem reaches_function {type : TypeName} {name : String} {position : Position}
    {list : Syntax.Parameters} {declarations : List Declaration} {body : List Stmt}
    {rest : List Token.Kind} {globals : Scope Binding} {awaiting : List String}
    {statements : List Core.Stmt} (houtside : a.env.locals = [])
    (hgrammatical : (Stmt.block declarations body).isGrammatical)
    (hahead : a.ahead = .punctuator .leftParen :: (list.tokens ++ .punctuator .rightParen ::
      ((Stmt.block declarations body).tokens ++ rest)))
    (hbind : ∀ (b : Sketch) (symbol : Symbol), b.env = a.env → b.awaiting = a.awaiting →
      symbol.name = name → symbol.cls = .function → symbol.defined = true →
      symbol.value = Word.ofCount b.here →
      Does origin b (bindFunction symbol list.names.length) () (b.defined name globals awaiting))
    (hresolve : Syntax.resolveFunction? globals a.dataHere list.names declarations body =
      some statements) :
    Does origin a (function type name position) ()
      (a.completed name { locals := [], globals } awaiting rest (.ofList statements)
        (Stmt.block declarations body).data
        { used := (declarations.flatMap Declaration.declarators).length
          greatest := (Stmt.block declarations body).peak 0 }) := by
  obtain ⟨scope, inner, stores, cores, hscope, hstores, hcores, rfl⟩ :=
    Syntax.resolveFunction?_eq_some.1 hresolve
  obtain ⟨hglobals, first, hinner⟩ := locals_of_resolveDeclarators? hstores
  refine (reaches_parameters hahead).bind ?_
  rintro found _ ⟨hnames, rfl⟩
  refine does_atMark.bind ?_
  rw [if_neg (by simp [Sketch.current, Stmt.tokens])]
  refine does_here.bind ?_
  rw [prologue_bind]
  let opened := a.after ((Stmt.block declarations body).tokens ++ rest) [] []
  have hdataHere : opened.dataHere = a.dataHere := Sketch.dataHere_after
  rw [← hdataHere] at hstores hcores
  refine (does_prologue (a := opened) houtside hnames (hbind opened _ rfl rfl rfl rfl rfl rfl)
    hscope).bind ?_
  refine (does_enteredBody hgrammatical rfl hstores hcores).bind ?_
  refine (does_epilogue hinner).reaches ⟨rfl, ?_⟩
  rw [hglobals]
  simp [opened, Sketch.completed, Sketch.after, Sketch.here]

end Compiler

end WordC
