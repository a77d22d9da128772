import WordC.Proofs.Compile.Progress
import WordC.Proofs.Compile.Yields
import WordC.Proofs.Machine.Pristine

/-!
# How a compilation ends

Every source is compiled to an end, be it a program or an error that points at the source. Either
way the machine is as it was, but for what was appended to its text and data.
-/

namespace WordC

namespace Compiler.Course

open Token (Landmark)

variable {course : Course} {a b : Mark}

/-! ## Declarations -/

theorem goes_initializer (address : Nat) :
    course.GoesBoth a (initializer address) fun _ => a.Leads 1 := by
  refine (goes_view (p := fun site => site ∈ a.sites) (fun _ _ => rfl) fun _ hat =>
    hat.startup).bind ?_
  rintro startup b ⟨rfl, hstartup⟩
  refine (goes_patchHere hstartup).stay fun _ => goes_expression.bind fun _ c hc =>
    (goes_emit _).stay fun _ => (goes_emitWith _ _).stay fun _ => (goes_emit _).stay fun _ =>
    (goes_emitPending _).bind ?_
  rintro site _ rfl
  refine (goes_update (b := c.withSite site) (fun _ _ => rfl) fun s hat => ?_).rests
    (hc.withSite site) (Nat.le_refl _)
  exact { hat with startup := List.mem_cons_self }

/-- The number of a constant, behind its sign. -/
theorem goes_unsigned (negative : Bool) (hb : a.Leads 0 b) :
    course.GoesBoth b
      (do
        let value ←
          match ← peek with
          | .number value => Pure.pure value
          | .character c => Pure.pure (Word.ofCount c.toNat)
          | _ => unexpected .constant
        advance
        return if negative then -value else value) fun _ => a.Leads 1 := by
  refine goes_peek.bind ?_
  rintro kind c ⟨rfl, hleft⟩
  cases kind with
  | number value =>
      exact (goes_advance (hleft nofun)).on hb fun _ _ hd => .pure (hd.least (by omega))
  | character value =>
      exact (goes_advance (hleft nofun)).on hb fun _ _ hd => .pure (hd.least (by omega))
  | _ => exact (goes_unexpected _).never

theorem goes_constant : course.GoesBoth a constant fun _ => a.Leads 1 := by
  refine (goes_atMark _).bind ?_
  rintro negative b ⟨rfl, hleft⟩
  exact .ite (fun hnegative => (goes_advance (hleft hnegative)).bind fun _ c hc =>
    goes_unsigned negative (hc.least (Nat.zero_le _))) fun _ => goes_unsigned negative (.refl b)

theorem goes_enumerators (value : Word) {rounds rounds' : Nat} (hrounds : a.left < rounds)
    (hrounds' : a.left < rounds') :
    course.Goes a (enumerators value rounds) (enumerators value rounds') fun _ => a.Leads 0 := by
  induction rounds generalizing a value rounds' with
  | zero => exact absurd hrounds (Nat.not_lt_zero _)
  | succ rounds ih =>
      obtain ⟨rounds', rfl⟩ := Nat.exists_eq_add_one_of_ne_zero (Nat.ne_zero_of_lt hrounds')
      refine (goes_atMark _).bind ?_
      rintro closed a' ⟨rfl, -⟩
      refine .ite (fun _ => ?_) fun _ => .pure (.refl a')
      refine goes_expectIdentifier.bind ?_
      rintro ⟨name, position⟩ b ⟨hb, hposition⟩
      have hbehind (value : Word) (c : Mark) (hc : a'.Leads 1 c) : course.Goes c
          (do
            let _ ← declare { name, cls := .constant, type := .int, value, position }
            if ← atMark .comma then
              advance
              enumerators (value + 1) rounds)
          (do
            let _ ← declare { name, cls := .constant, type := .int, value, position }
            if ← atMark .comma then
              advance
              enumerators (value + 1) rounds') fun _ => a'.Leads 0 := by
        refine (goes_declare hposition).stay fun _ => (goes_atMark _).bind ?_
        rintro more d ⟨rfl, hleft⟩
        refine .ite (fun hmore => (goes_advance (hleft hmore)).on hc fun _ e he => ?_)
          fun _ => .pure (hc.least (Nat.zero_le _))
        have hlt := he.lt
        exact (ih (value + 1) (by omega) (by omega)).ends he (Nat.zero_le _)
      refine (goes_atMark _).bind ?_
      rintro given c ⟨rfl, hleft⟩
      exact .ite (fun hgiven => (goes_advance (hleft hgiven)).on hb fun _ d hd =>
        goes_constant.on hd fun value e he => hbehind value e (he.least (by omega)))
        fun _ => hbehind value _ hb

theorem goes_enumDeclaration :
    course.GoesBoth a enumDeclaration fun _ => a.Leads 1 := by
  refine (goes_openRule _).stay fun _ => (goes_expectWord _).bind fun _ b hb => goes_peek.bind ?_
  rintro kind c ⟨rfl, hleft⟩
  have hbehind (d : Mark) (hd : a.Leads 1 d) : course.GoesBoth d
      (do
        expectMark .leftBrace
        enumerators 0 (← view (·.bound))
        expectMark .rightBrace
        expectMark .semicolon
        closeRule) fun _ => a.Leads 1 :=
    (goes_expectMark _).on hd fun _ _ he => goes_bound fun _ _ hrounds hrounds' =>
      (goes_enumerators 0 hrounds hrounds').on he fun _ _ hf => (goes_expectMark _).on hf
      fun _ _ hg => (goes_expectMark _).on hg fun _ _ hk => goes_closeRule.rests hk (by omega)
  cases kind with
  | identifier name =>
      exact (goes_advance (hleft nofun)).on hb fun _ d hd => hbehind d (hd.least (by omega))
  | _ => exact hbehind _ hb

theorem goes_parameterList (isFirst : Bool) {rounds rounds' : Nat} (hrounds : a.left < rounds)
    (hrounds' : a.left < rounds') :
    course.Goes a (parameterList isFirst rounds) (parameterList isFirst rounds') fun list b =>
      a.Leads 1 b ∧ ∀ parameter ∈ list, parameter.position.IsLandmark course.source := by
  induction rounds generalizing a isFirst rounds' with
  | zero => exact absurd hrounds (Nat.not_lt_zero _)
  | succ rounds ih =>
      obtain ⟨rounds', rfl⟩ := Nat.exists_eq_add_one_of_ne_zero (Nat.ne_zero_of_lt hrounds')
      refine goes_expectType.bind fun type b hb => (goes_atMark _).bind ?_
      rintro closed b ⟨rfl, -⟩
      refine .ite (fun _ => .pure ⟨hb, fun _ hmem => absurd hmem List.not_mem_nil⟩) fun _ => ?_
      refine goes_expectIdentifier.bind ?_
      rintro ⟨name, position⟩ c ⟨hbc, hposition⟩
      have hc : a.Leads 1 c := (hb.trans hbc).least (by omega)
      refine (goes_atMark _).bind ?_
      rintro more d ⟨rfl, hleft⟩
      refine .ite (fun hmore => (goes_advance (hleft hmore)).on hc fun _ e he => ?_) fun _ =>
        .pure ⟨hc, List.forall_mem_singleton.2 hposition⟩
      have hlt := he.lt
      refine (ih false (by omega) (by omega)).bind ?_
      rintro rest f ⟨hf, hrest⟩
      exact .pure ⟨(he.trans hf).least (by omega), List.forall_mem_cons.2 ⟨hposition, hrest⟩⟩

theorem goes_parameters :
    course.GoesBoth a parameters fun list b =>
      a.Leads 1 b ∧ ∀ parameter ∈ list, parameter.position.IsLandmark course.source := by
  have hbehind (list : List Parameter)
      (hlist : ∀ parameter ∈ list, parameter.position.IsLandmark course.source) (b : Mark)
      (hb : a.Leads 1 b) : course.GoesBoth b
      (do
        expectMark .rightParen
        closeRule
        return list) fun list b =>
      a.Leads 1 b ∧ ∀ parameter ∈ list, parameter.position.IsLandmark course.source :=
    (goes_expectMark _).on hb fun _ _ hc => goes_closeRule.stay fun _ =>
      .pure ⟨hc.least (by omega), hlist⟩
  refine (goes_openRule _).stay fun _ => (goes_expectMark _).bind fun _ b hb =>
    (goes_atMark _).bind ?_
  rintro closed b ⟨rfl, -⟩
  refine .ite (fun _ => hbehind [] (fun _ hmem => absurd hmem List.not_mem_nil) _ hb) fun _ =>
    goes_bound fun rounds rounds' hrounds hrounds' =>
      (goes_parameterList true hrounds hrounds').bind ?_
  rintro list c ⟨hc, hlist⟩
  exact hbehind list hlist c ((hb.trans hc).least (by omega))

theorem goes_declareParameters (arity : Nat) {list : List Parameter}
    (hlist : ∀ parameter ∈ list, parameter.position.IsLandmark course.source) (index : Nat) :
    course.GoesBoth a (declareParameters arity list index)
      fun _ b => b = a := by
  induction list generalizing index with
  | nil => exact .pure rfl
  | cons parameter rest ih =>
      obtain ⟨hposition, hrest⟩ := List.forall_mem_cons.1 hlist
      exact (goes_declare hposition).stay fun _ => ih hrest (index + 1)

/-- The calls that wait for a function are given its address. -/
theorem goes_patchCalls (symbol : Symbol) :
    course.GoesBoth a
      (do
        let pending ← view (·.pendingCalls)
        let (ours, others) := pending.partition fun (name, _) => name == symbol.name
        update fun compiler => { compiler with pendingCalls := others }
        patchAll (ours.map (·.2)) symbol.value) fun _ b => b = a := by
  refine (goes_view (p := fun calls => ∀ call ∈ calls, call.2 ∈ a.sites) (fun _ _ => rfl)
    fun _ hat => hat.pending).bind ?_
  rintro calls a ⟨rfl, hcalls⟩
  simp only [List.partition_eq_filter_filter]
  refine (goes_update (b := a) (fun _ _ => rfl) fun s hat => { hat with
    pending := fun call hcall => hcalls call (List.mem_filter.1 hcall).1 }).stay fun _ =>
    goes_patchAll (fun site hsite => ?_) _
  obtain ⟨call, hcall, rfl⟩ := List.mem_map.1 hsite
  exact hcalls call (List.mem_filter.1 hcall).1

theorem goes_bindFunction {symbol : Symbol} (hposition : symbol.position.IsLandmark course.source)
    (arity : Nat) :
    course.GoesBoth a (bindFunction symbol arity) fun _ b => b = a := by
  have hprototype : course.GoesBoth a (prototype? symbol.name)
      fun _ b => b = a := (goes_look fun _ _ => rfl).stay fun _ => .pure rfl
  refine hprototype.stay fun found => ?_
  cases found with
  | none => exact Goes.stay (goes_declare hposition) fun _ => .pure rfl
  | some prototype =>
      refine .guard (.argumentCount hposition) fun _ => goes_symbols.bind ?_
      rintro table b ⟨rfl, htable⟩
      cases hdefine : table.defineFunction? symbol.name symbol.value with
      | none => exact goes_patchCalls symbol
      | some defined =>
          exact (goes_setSymbols (htable.define hdefine)).stay fun _ => goes_patchCalls symbol

theorem goes_functionBody : course.GoesBoth a functionBody fun _ => a.Leads 1 :=
  (goes_openRule _).stay fun _ => (goes_expectMark _).bind fun _ _ hb =>
    (goes_blockContents (fun _ _ => goes_statement) hb.lt).on hb fun _ _ hc =>
    (goes_expectMark _).on hc fun _ _ hd => goes_closeRule.rests hd (by omega)

theorem goes_function (type : TypeName) (name : String) {position : Position}
    (hposition : position.IsLandmark course.source) :
    course.GoesBoth a (function type name position) fun _ =>
      a.Leads 1 := by
  refine goes_parameters.bind ?_
  rintro list b ⟨hb, hlist⟩
  refine (goes_atMark _).bind ?_
  rintro isPrototype b ⟨rfl, hleft⟩
  refine .ite (fun h => (goes_advance (hleft h)).on hb fun _ _ hc => ?_) fun _ => ?_
  · exact (goes_declare hposition).stay fun _ => .pure (hc.least (by omega))
  · refine goes_here.stay fun entry => (goes_bindFunction hposition _).stay fun _ =>
      goes_enterScope.bind ?_
    rintro _ _ rfl
    refine (goes_declareParameters _ hlist 0).stay fun _ => (goes_frame fun _ => {}).stay fun _ =>
      (goes_emitPending _).bind ?_
    rintro frameSize _ rfl
    refine goes_functionBody.bind fun _ c hc => (goes_emit _).stay fun _ =>
      (goes_look fun _ _ => rfl).stay fun greatest => ?_
    have hframe : frameSize ∈ c.sites := hc.sites List.mem_cons_self
    have hinner := ((Mark.Leads.refl b.enter).withSite frameSize).trans hc
    have hlevel : c.level ≠ 0 := hinner.level ▸ Nat.succ_ne_zero b.level
    have hleads : a.Leads 1 c.leave := (hb.trans hinner.leave).least (by omega)
    refine (goes_patch hframe _).stay fun _ => (goes_leaveScope hlevel).bind ?_
    rintro _ _ rfl
    exact goes_report.rests hleads (Nat.le_refl _)

theorem goes_globalNames (type : TypeName) {rounds rounds' : Nat} (hrounds : a.left < rounds)
    (hrounds' : a.left < rounds') :
    course.Goes a (globalNames type rounds) (globalNames type rounds') fun _ => a.Leads 1 := by
  induction rounds generalizing a rounds' with
  | zero => exact absurd hrounds (Nat.not_lt_zero _)
  | succ rounds ih =>
      obtain ⟨rounds', rfl⟩ := Nat.exists_eq_add_one_of_ne_zero (Nat.ne_zero_of_lt hrounds')
      refine goes_expectIdentifier.bind ?_
      rintro ⟨name, position⟩ b ⟨hb, hposition⟩
      refine (goes_atMark _).bind ?_
      rintro isFunction b ⟨rfl, -⟩
      refine .ite (fun _ => (goes_tree fun tree => tree.retag .functionDeclaration).stay
        fun _ => ?_) fun _ => ?_
      · exact (goes_function type name hposition).ends hb (by omega)
      have hmore (c : Mark) (hc : a.Leads 1 c) : course.Goes c
          (atMark .comma >>= fun more =>
            if more then advance >>= fun _ => globalNames type rounds
            else expectMark .semicolon)
          (atMark .comma >>= fun more =>
            if more then advance >>= fun _ => globalNames type rounds'
            else expectMark .semicolon) fun _ => a.Leads 1 := by
        refine (goes_atMark _).bind ?_
        rintro more d ⟨rfl, hleft⟩
        refine .ite (fun hmore => (goes_advance (hleft hmore)).on hc fun _ e he => ?_)
          fun _ => (goes_expectMark _).ends hc (by omega)
        have hlt := he.lt
        exact (ih (by omega) (by omega)).ends he (by omega)
      refine (goes_allocate _).stay fun address => (goes_declare hposition).stay fun _ =>
        (goes_atMark _).bind ?_
      rintro given c ⟨rfl, hleft⟩
      exact .ite (fun hgiven => (goes_advance (hleft hgiven)).on hb fun _ d hd =>
        (goes_initializer address).on hd fun _ e he => hmore e (he.least (by omega)))
        fun _ => hmore _ hb

theorem goes_globalDeclaration :
    course.GoesBoth a globalDeclaration fun _ => a.Leads 1 := by
  refine (goes_atKind _).bind ?_
  rintro isEnum b ⟨rfl, -⟩
  exact .ite (fun _ => goes_enumDeclaration) fun _ => (goes_openRule _).stay fun _ =>
    goes_expectType.bind fun type _ hb => goes_bound fun _ _ hrounds hrounds' =>
    (goes_globalNames type hrounds hrounds').on hb fun _ _ hc => goes_closeRule.rests hc (by omega)

theorem goes_globalDeclarations {rounds rounds' : Nat} (hrounds : a.left < rounds)
    (hrounds' : a.left < rounds') :
    course.Goes a (globalDeclarations rounds) (globalDeclarations rounds') fun _ =>
      a.Leads 0 := by
  induction rounds generalizing a rounds' with
  | zero => exact absurd hrounds (Nat.not_lt_zero _)
  | succ rounds ih =>
      obtain ⟨rounds', rfl⟩ := Nat.exists_eq_add_one_of_ne_zero (Nat.ne_zero_of_lt hrounds')
      refine (goes_atKind _).bind ?_
      rintro ended b ⟨rfl, -⟩
      refine .ite (fun _ => goes_globalDeclaration.bind fun _ c hc => ?_) fun _ => .pure (.refl b)
      have hlt := hc.lt
      exact (ih (by omega) (by omega)).ends hc (Nat.zero_le _)

/-! ## Programs -/

theorem goes_finish (entry : Nat) :
    course.GoesBoth a (finish entry) fun program _ => program.entry = entry := by
  refine goes_symbols.bind ?_
  rintro table b ⟨rfl, htable⟩
  have hmain : course.GoesBoth b
      (do
        let position ← locate (← view (·.current))
        let main ← resolve "main" position
        if main.cls ≠ .function then throw (.undefinedName main.name position)
        if main.params ≠ some 0 then
          throw (.argumentCount main.name 0 (main.params.getD 0) main.position)
        patchHere (← view (·.startup))
        emitWith .call main.value
        emit .exit
        onMachine (modify fun machine =>
          machine.report
            (.compiled entry machine.textEnd machine.dataLength table.symbols.length))
        return { entry, symbols := table.symbols, tree := (← view (·.tree)).finish : Program })
      fun program _ => program.entry = entry := by
    refine goes_current.bind ?_
    rintro token b ⟨rfl, -, htoken⟩
    refine (goes_locate htoken).bind ?_
    rintro position b ⟨rfl, hposition⟩
    refine (goes_resolve hposition).bind ?_
    rintro main b ⟨rfl, hplaced⟩
    refine .guard (.undefinedName hposition) fun hcls => ?_
    have hfunction : main.cls = .function := Classical.not_not.1 hcls
    refine .guard (.argumentCount (hplaced (hfunction ▸ nofun))) fun _ => ?_
    refine (goes_view (p := fun site => site ∈ b.sites) (fun _ _ => rfl) fun _ hat =>
      hat.startup).bind ?_
    rintro startup b ⟨rfl, hstartup⟩
    exact (goes_patchHere hstartup).stay fun _ => (goes_emitWith _ _).stay fun _ =>
      (goes_emit _).stay fun _ => goes_report.stay fun _ => (goes_look fun _ _ => rfl).stay
      fun _ => .pure rfl
  cases hfound : table.symbols.find? fun symbol => symbol.cls = .function && !symbol.defined with
  | none => exact hmain
  | some prototype =>
      have hcls : prototype.cls = .function := by
        have hproperty := List.find?_some hfound
        simp only [Bool.and_eq_true, decide_eq_true_eq] at hproperty
        exact hproperty.1
      have hposition := htable.symbols prototype (List.mem_of_find?_eq_some hfound) (hcls ▸ nofun)
      exact (Goes.throw (.undefinedName hposition)).never

/-- Writing a pending instruction is the same on every compiler. -/
theorem emitPending_cases {m : Machine} (h : course.origin.Grows m) (opcode : Opcode) :
    (∃ m', course.origin.Grows m' ∧ ∀ compiler,
      emitPending opcode ⟨m, compiler⟩ = .error (.segmentFull .text) ⟨m', compiler⟩) ∨
    ∃ site m', course.origin.Grows m' ∧ course.origin.textEnd ≤ site ∧ site < m'.textEnd ∧
      ∀ compiler, emitPending opcode ⟨m, compiler⟩ = .ok site ⟨m', compiler⟩ := by
  have hwrite {word : Word} {m m' : Machine} {site : Nat}
      (hok : Machine.emitWord word m = .ok site m') (compiler : Compiler) :
      onMachine (Machine.emitWord word) ⟨m, compiler⟩ = .ok site ⟨m', compiler⟩ := by
    unfold onMachine
    simp only [hok]
  have hfull {word : Word} {m : Machine}
      (herror : Machine.emitWord word m = .error (.segmentFull .text) m) (compiler : Compiler) :
      onMachine (Machine.emitWord word) ⟨m, compiler⟩ =
        .error (.segmentFull .text) ⟨m, compiler⟩ := by
    unfold onMachine
    simp only [herror]
  have hemit {m m' : Machine} {site : Nat} (hok : Machine.emitWord opcode.word m = .ok site m')
      (compiler : Compiler) : emit opcode ⟨m, compiler⟩ = .ok () ⟨m', compiler⟩ :=
    bind_run_of_ok (hwrite hok compiler)
  rcases h.emitWord opcode.word with herror | ⟨m', hok, -, hgrows⟩
  · exact .inl ⟨m, h, fun compiler => bind_run_of_error (bind_run_of_error (hfull herror compiler))⟩
  rcases hgrows.emitWord Opcode.plac.word with herror | ⟨m'', hok', htextEnd, hgrows'⟩
  · refine .inl ⟨m', hgrows, fun compiler => ?_⟩
    exact (bind_run_of_ok (hemit hok compiler)).trans (hfull herror compiler)
  · refine .inr ⟨m'.textEnd, m'', hgrows', hgrows.textEnd, htextEnd ▸ Nat.lt_succ_self _,
      fun compiler => ?_⟩
    exact (bind_run_of_ok (hemit hok compiler)).trans (hwrite hok' compiler)

/-- A whole compilation, from a state about which everything is known but where the start-up code
ends. -/
theorem outcome_program {m : Machine} {compiler : Compiler} (hmachine : course.origin.Grows m)
    (hat : ∀ m site, course.origin.Grows m → course.origin.textEnd ≤ site → site < m.textEnd →
      course.At (a.withSite site) ⟨m, { compiler with startup := site }⟩) :
    course.Outcome (fun program _ => program.entry = m.textEnd) (program ⟨m, compiler⟩)
      (program ⟨m, { compiler with bound := course.bound }⟩) := by
  have hprogram (compiler : Compiler) : program ⟨m, compiler⟩ =
      (emitPending .jmp >>= fun startup => update (fun compiler => { compiler with startup }) >>=
        fun _ => view (·.bound) >>= fun bound => globalDeclarations bound >>= fun _ =>
        finish m.textEnd) ⟨m, compiler⟩ := rfl
  have hrest (b : Mark) : course.GoesBoth b (view (·.bound) >>= fun bound =>
      globalDeclarations bound >>= fun _ => finish m.textEnd)
      fun program _ => program.entry = m.textEnd :=
    goes_bound fun _ _ hrounds hrounds' => (goes_globalDeclarations hrounds hrounds').bind
      fun _ _ _ => goes_finish _
  rw [hprogram, hprogram]
  rcases emitPending_cases hmachine .jmp with ⟨m', hgrows, herror⟩ |
    ⟨site, m', hgrows, hstart, hstop, hok⟩
  · rw [bind_run_of_error (herror _), bind_run_of_error (herror _)]
    exact .error .segmentFull hgrows
  · rw [bind_run_of_ok (hok _), bind_run_of_ok (hok _)]
    exact hrest _ _ (hat m' site hgrows hstart hstop)

end Compiler.Course

/-! ## Compiling -/

/-- Compiling with another bound on how often a construct may repeat. -/
def compileWithin (bound : Nat) (source : String) : Action Program := fun machine =>
  match Token.Stream.ofSource source with
  | .failed error => .error error machine
  | .done offset => start (.endAt offset) (.done offset) machine
  | .cons token rest => start token rest machine
where
  start (current : Token) (upcoming : Token.Stream) : Action Program := fun machine =>
    let compiler : Compiler := {
      source
      current
      upcoming
      bound
      symbols := Program.initialSymbols
      tree := .initial
      frame := {}
      startup := 0
      pendingCalls := [] }
    match Compiler.program ⟨machine, compiler⟩ with
    | .ok program ⟨machine, _⟩ => .ok program machine
    | .error error ⟨machine, _⟩ => .error error machine

/-- How compiling a source into a machine ends. -/
inductive Ending (source : String) (m : Machine) :
    EStateM.Result Error Machine Program → Prop where
  | ok {program : Program} {m' : Machine} (hentry : program.entry = m.textEnd) (h : m.Grows m') :
      Ending source m (.ok program m')
  | error {error : Error} {m' : Machine} (hreports : error.Reports source) (h : m.Grows m') :
      Ending source m (.error error m')

section

variable {m : Machine} {source : String} {bound : Nat}

open Compiler in
theorem ending_start (h : m.Sound) {current : Token} {upcoming : Token.Stream}
    (hcurrent : Token.Landmark source current.start) (hupcoming : upcoming.IsRest source)
    (hbound : (if current.kind = .endOfInput then 0 else upcoming.length + 1) < bound) :
    Ending source m (compile.start source current upcoming m) ∧
      compileWithin.start bound source current upcoming m =
        compile.start source current upcoming m := by
  let course : Course := { origin := m, source, bound }
  let a : Mark :=
    { left := if current.kind = .endOfInput then 0 else upcoming.length + 1
      level := 1
      sites := [] }
  have hleft : a.left ≤ upcoming.length + 1 := by
    simp only [a]
    split <;> omega
  let compiler : Compiler :=
    { source, current, upcoming, bound := upcoming.length + 2, symbols := Program.initialSymbols,
      tree := .initial, frame := {}, startup := 0, pendingCalls := [] }
  have hat (m' : Machine) (site : Nat) (hgrows : m.Grows m') (hstart : m.textEnd ≤ site)
      (hstop : site < m'.textEnd) :
      course.At (a.withSite site) ⟨m', { compiler with startup := site }⟩ :=
    { machine := hgrows
      source := rfl
      current := hcurrent
      upcoming := hupcoming
      left := rfl
      bound := Nat.lt_succ_of_le hleft
      other := hbound
      symbols := by
        intro symbol hsymbol hcls
        obtain ⟨trap, -, rfl⟩ :=
          List.mem_map.1 (show symbol ∈ Program.systemCalls from hsymbol)
        exact absurd rfl hcls
      level := rfl
      sites := List.forall_mem_singleton.2 ⟨hstart, hstop⟩
      startup := List.mem_singleton_self _
      pending := fun _ hcall => absurd hcall List.not_mem_nil }
  have hprogram : course.Outcome (fun found _ => found.entry = m.textEnd) (program ⟨m, compiler⟩)
      (program ⟨m, { compiler with bound := course.bound }⟩) :=
    Course.outcome_program h.grows hat
  unfold compileWithin.start compile.start
  simp only
  generalize program _ = first at hprogram ⊢
  generalize program _ = second at hprogram ⊢
  cases hprogram with
  | ok hentry hat => exact ⟨.ok hentry hat.machine, rfl⟩
  | error hreports hgrows => exact ⟨.error hreports hgrows, rfl⟩

theorem ending_compile (h : m.Sound) (source : String)
    (hbound : (Token.Stream.ofSource source).length < bound) :
    Ending source m (compile source m) ∧ compileWithin bound source m = compile source m := by
  have hrest := Token.Stream.IsRest.ofSource source
  unfold compileWithin compile
  cases hstream : Token.Stream.ofSource source with
  | failed error =>
      rw [hstream] at hrest
      exact ⟨.error hrest.failed h.grows, rfl⟩
  | done offset =>
      rw [hstream] at hrest hbound
      exact ending_start h hrest.done hrest (Nat.lt_of_le_of_lt (Nat.zero_le _) hbound)
  | cons token rest =>
      rw [hstream] at hrest hbound
      obtain ⟨hkind, hmark, hbehind⟩ := hrest.cons
      refine ending_start h hmark hbehind ?_
      rw [if_neg hkind]
      exact hbound

/-! ### The machine -/

/-- A machine to which text and data may have been appended. -/
structure Machine.Appended (m m' : Machine) : Prop where
  text : ∀ address, m.layout.text.start ≤ address → address < m.textEnd →
    m'.word? address = m.word? address
  data : ∀ address, m.layout.data.start ≤ address → address < m.dataEnd →
    m'.word? address = m.word? address
  textEnd : m.textEnd ≤ m'.textEnd
  dataEnd : m.dataEnd ≤ m'.dataEnd
  /-- Heap and stack. -/
  work : ∀ address, m.layout.heap.start ≤ address → address < m.layout.stack.stop →
    m'.word? address = m.word? address
  pc : m'.pc = m.pc
  sp : m'.sp = m.sp
  bp : m'.bp = m.bp
  acc : m'.acc = m.acc
  cycles : m'.cycles = m.cycles
  heap : m'.heap = m.heap
  descriptors : m'.descriptors = m.descriptors
  system : m'.host.system = m.host.system
  asked : m'.host.asked = m.host.asked
  sink : m'.host.sink = m.host.sink
  status : m'.status = m.status ∨ m.status = .idle ∧ m'.status = .loaded

theorem Machine.status_after_compile (m : Machine) (source : String) :
    (m.after (compile source)).status = m.status ∨
      m.status = .idle ∧ (m.after (compile source)).status = .loaded := by
  refine @after_compile m
    (fun m' => m'.status = m.status ∨ m.status = .idle ∧ m'.status = .loaded) ?_ ?_ ?_
    (fun _ _ hstatus => hstatus) (.inl rfl) source
  · intro word m' hstatus
    by_cases hrunnable : m'.status = .idle
    · have hidle : m.status = .idle := by
        rcases hstatus with hsame | ⟨hidle, -⟩
        · exact hsame ▸ hrunnable
        · exact hidle
      rcases after_emitWord m' word with hfull | ⟨-, hwritten⟩
      · rwa [hfull]
      · rw [hwritten]
        exact .inr ⟨hidle, if_pos hrunnable⟩
    · rcases after_emitWord m' word with hfull | ⟨-, hwritten⟩
      · rwa [hfull]
      · rw [hwritten]
        simp only [if_neg hrunnable]
        exact hstatus
  · intro address word m' hstatus
    rw [status_patch]
    exact hstatus
  · intro words m' hstatus
    rw [status_allocate]
    exact hstatus

/-- What is not free lies in the written text, in the used data or above both segments. -/
theorem Machine.Grows.appended {m m' : Machine} (h : m.Grows m') (hsound : m.Sound)
    (hafter : m.after (compile source) = m') : m.Appended m' := by
  have hpart {β : Type} {part : Machine → β}
      (hwrite : ∀ m memory textEnd dataEnd dataImage status,
        part { m with memory, textEnd, dataEnd, dataImage, status } = part m)
      (hreport : ∀ m event, part (m.report event) = part m) : part m' = part m :=
    hafter ▸ Machine.eq_after_compile hwrite hreport m source
  have hordered := hsound.ordered
  have htextStop := hsound.textStop
  have hdataStart := hsound.dataStart
  have hdataStop := hsound.dataStop
  have hdata := hordered.data
  have hheap := hordered.heap
  have hsegment := hordered.dataStop
  refine
    { text := fun address _ hbelow => h.kept address ?_
      data := fun address habove hbelow => h.kept address ?_
      textEnd := h.textEnd
      dataEnd := h.dataEnd
      work := fun address habove _ => h.kept address ?_
      pc := hpart (fun _ _ _ _ _ _ => rfl) fun _ _ => rfl
      sp := hpart (fun _ _ _ _ _ _ => rfl) fun _ _ => rfl
      bp := hpart (fun _ _ _ _ _ _ => rfl) fun _ _ => rfl
      acc := hpart (fun _ _ _ _ _ _ => rfl) fun _ _ => rfl
      cycles := hpart (fun _ _ _ _ _ _ => rfl) fun _ _ => rfl
      heap := hpart (fun _ _ _ _ _ _ => rfl) fun _ _ => rfl
      descriptors := hpart (fun _ _ _ _ _ _ => rfl) fun _ _ => rfl
      system := @hpart _ (fun m => m.host.system) (fun _ _ _ _ _ _ => rfl) fun _ _ => rfl
      asked := @hpart _ (fun m => m.host.asked) (fun _ _ _ _ _ _ => rfl) fun _ _ => rfl
      sink := @hpart _ (fun m => m.host.sink) (fun _ _ _ _ _ _ => rfl) fun _ _ => rfl
      status := hafter ▸ m.status_after_compile source }
  all_goals
    unfold Machine.IsFree
    omega

/-- Compiling only appends, whether it succeeds or not, and a program begins where the text has
ended. -/
theorem compile_appends (h : m.Reached) (source : String) :
    m.Appended (m.after (compile source)) ∧
    ∀ program m', compile source m = .ok program m' → program.entry = m.textEnd := by
  obtain ⟨layout, hunspent⟩ := h.unspent
  have hsound := hunspent.intact.intact.sound
  have hending := (ending_compile hsound source (Nat.lt_succ_self _)).1
  constructor
  · cases hcompile : compile source m with
    | ok program m' =>
        rw [hcompile] at hending
        have hafter := Machine.after_of_ok hcompile
        cases hending with
        | ok _ hgrows => exact hafter.symm ▸ hgrows.appended hsound hafter
    | error error m' =>
        rw [hcompile] at hending
        have hafter := Machine.after_of_error hcompile
        cases hending with
        | error _ hgrows => exact hafter.symm ▸ hgrows.appended hsound hafter
  · intro program m' hcompile
    rw [hcompile] at hending
    cases hending with
    | ok hentry _ => exact hentry

/-- The compiler stops at the missing expression, with a jump to be patched already written. -/
theorem compile_appends_exiting :
    Machine.exiting.Reached ∧
    Machine.exiting.Appended (Machine.exiting.after (compile "int x = ;")) ∧
    ∀ program m', compile "int x = ;" Machine.exiting = .ok program m' →
      program.entry = Machine.exiting.textEnd := by
  have hreached : Machine.exiting.Reached :=
    (Machine.Reached.create Machine.create_small).performAll _
  exact ⟨hreached, compile_appends hreached "int x = ;"⟩

/-! ### The error -/

/-- Compiling comes to an end by itself: no loop uses up its rounds, and with any higher bound on how
often a construct may repeat the outcome is the same. An error is one of the compiler, its position
that of a landmark of the source, and every landmark can be located. -/
theorem compile_reports (h : m.Reached) (source : String) :
    (∀ m', compile source m ≠ .error .exhausted m') ∧
    (∀ bound, (Token.Stream.ofSource source).length < bound →
      compileWithin bound source m = compile source m) ∧
    (∀ error m', compile source m = .error error m' → error.Reports source) ∧
    ∀ offset, Token.Landmark source offset →
      ∃ position, Position.locate? source offset = some position := by
  obtain ⟨layout, hunspent⟩ := h.unspent
  have hsound := hunspent.intact.intact.sound
  have hreports : ∀ error m', compile source m = .error error m' → error.Reports source := by
    intro error m' hcompile
    have hending := (ending_compile hsound source (Nat.lt_succ_self _)).1
    rw [hcompile] at hending
    cases hending with
    | error hreports _ => exact hreports
  refine ⟨fun m' hcompile => ?_, fun bound hbound => (ending_compile hsound source hbound).2,
    hreports, fun offset hmark => hmark.exists_locate⟩
  -- Running out of rounds is none of the errors that a source is charged with.
  cases hreports _ m' hcompile

/-- A comment that is not closed, behind characters of more than one byte. -/
theorem compile_reports_exiting :
    Machine.exiting.Reached ∧
    (∀ m', compile "/* é */ int é /*" Machine.exiting ≠ .error .exhausted m') ∧
    (∀ bound, (Token.Stream.ofSource "/* é */ int é /*").length < bound →
      compileWithin bound "/* é */ int é /*" Machine.exiting =
        compile "/* é */ int é /*" Machine.exiting) ∧
    (∀ error m', compile "/* é */ int é /*" Machine.exiting = .error error m' →
      error.Reports "/* é */ int é /*") ∧
    ∀ offset, Token.Landmark "/* é */ int é /*" offset →
      ∃ position, Position.locate? "/* é */ int é /*" offset = some position := by
  have hreached : Machine.exiting.Reached :=
    (Machine.Reached.create Machine.create_small).performAll _
  exact ⟨hreached, compile_reports hreached "/* é */ int é /*"⟩

end

end WordC
