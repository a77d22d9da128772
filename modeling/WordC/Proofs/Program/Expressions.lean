import WordC.Proofs.Compile.Precedence
import WordC.Proofs.Machine.Calls
import WordC.Proofs.Program.Evaluation

/-!
# Compiled expressions

What the compiler writes for an expression without calls computes that expression, wherever in a
program it is written and in whatever state a machine gets there, as long as the base pointer is at
the frame of the function around it.
-/

namespace WordC.Compiler

open WordC.Core (Context Env)
open Syntax (Expr Prints)

variable {env : Env} {tree : Expr} {value : Core.Expr} {s s' : State} {m : Machine}
  {context : Context}

/-- The compiler has read a text of a tree and has written code. -/
structure Writes (env : Env) (tree : Expr) (value : Core.Expr) (s s' : State) : Prop where
  text : ∃ (origin : Origin) (a : Sketch) (text rest : List Token.Kind) (stop : Punctuator),
    a.Fits origin s ∧ a.env = env ∧ Prints 0 tree text ∧
      stop ∈ [.semicolon, .rightParen, .comma] ∧
      kindsAhead s.compiler = text ++ .punctuator stop :: rest
  resolve : tree.resolve? env s.machine.dataEnd = some value
  run : expression s = .ok () s'

theorem Writes.emits (h : Writes env tree value s s') :
    ∃ entries, Emits entries (value.code s.machine.textEnd) tree.data s s' := by
  obtain ⟨origin, a, text, rest, stop, hfits, rfl, hprints, hstop, hahead⟩ := h.text
  have hfits' := (does_of_prints hfits hprints h.resolve hstop hahead).fits_of_ok hfits h.run
  rw [hfits.textEnd]
  exact ⟨a.entries, hfits.emits hfits'⟩

/-- A machine is about to carry out what was written between two states of a compilation. -/
structure Due (s s' : State) (m : Machine) : Prop where
  intact : m.Intact
  small : m.layout.poolSize < 2 ^ 63
  textEnd : s'.machine.textEnd ≤ m.textEnd
  text : ∀ address, s.machine.textEnd ≤ address → address < s'.machine.textEnd →
    m.memory[address]? = s'.machine.memory[address]?
  pc : m.pc = s.machine.textEnd

theorem Due.hosts (h : Due s s' m) {entries : List (String × Nat)} {code : List Core.Instr}
    {data : List Word} (hemits : Emits entries code data s s') :
    m.Hosts s.machine.textEnd code where
  above := by
    rw [h.intact.sound.ordered.textStart]
    exact Nat.zero_le _
  stop := hemits.textEnd ▸ h.textEnd
  words := by
    intro index word hword
    obtain ⟨hindex, -⟩ := List.getElem?_eq_some_iff.1 hword
    have hstop : s.machine.textEnd + index < s'.machine.textEnd := by
      rw [hemits.textEnd]
      exact Nat.add_lt_add_left hindex _
    rw [h.text _ (Nat.le_add_right _ _) hstop]
    exact hemits.text index _ hword

theorem Due.setCycleLimit (h : Due s s' m) (limit : Option Nat) :
    Due s s' (m.setCycleLimit limit) :=
  { h with intact := ((Machine.IntactWith.mk h.intact rfl).setCycleLimit limit).intact }

theorem inFrame_setCycleLimit (h : m.InFrame context) (limit : Option Nat) :
    (m.setCycleLimit limit).InFrame context :=
  ⟨h.slots, h.parameters, h.data⟩

theorem account_setCycleLimit (m : Machine) (limit : Option Nat) (data : Nat) :
    tree.account env (m.setCycleLimit limit).bp (m.setCycleLimit limit).memory data =
      tree.account env m.bp m.memory data := rfl

theorem clears_setCycleLimit {account : Account} (h : m.Clears account) (limit : Option Nat) :
    (m.setCycleLimit limit).Clears account := h

/-- Wherever the code of an expression without calls has been written, a machine that is about to
carry it out gets to its end with the value of the expression and with nothing else changed, or to
the fault that the expression runs into, unless it runs out of stack or of cycles. A right operand
that the left one decides is never carried out. -/
theorem runs_of_writes (hwrites : Writes env tree value s s') (hfree : tree.isCallFree)
    (hdue : Due s s' m) (hframe : m.InFrame context) (henv : env.Valid context)
    (hclears : m.Clears (tree.account env m.bp m.memory s.machine.dataEnd)) (tracing : Bool) :
    m.Computes tracing (value.Passes m.bp m.memory s.machine.textEnd) s'.machine.textEnd
      (tree.account env m.bp m.memory s.machine.dataEnd) := by
  obtain ⟨entries, hemits⟩ := hwrites.emits
  obtain ⟨hcallFree, haccount⟩ := Syntax.Expr.account_of_resolve? hfree hwrites.resolve
  have hvalid := Syntax.Expr.valid_of_resolve? henv hwrites.resolve
  rw [← haccount, hemits.textEnd]
  exact (Machine.evaluates_expr hdue.intact hframe hdue.small value hcallFree hvalid
    (hdue.hosts hemits) (.refl hdue.intact.spStart) hdue.pc (haccount ▸ hclears)).computes

/-! ## A guarded division

The division stands in a function with a parameter `p` and a local variable `n`, in a file with a
global variable `g`. -/

def integer (name : String) (value : Word) : Symbol :=
  { name, cls := .object, type := .int, value }

def names : Env where
  locals := [[("n", .object (.slot 1)), ("p", .object (.parameter 2))]]
  globals := [("g", .object (.global 64))]

def surroundings : Context :=
  { arity := 1, slots := 1, data := ⟨64, 65⟩, functions := fun _ => none }

theorem valid_names : names.Valid surroundings := by
  refine Core.Env.valid_of_scopes ?_
  simp only [names, List.forall_mem_cons, List.not_mem_nil, false_imp_iff, implies_true, and_true]
  exact ⟨⟨by decide, by decide⟩, ⟨by decide, by decide⟩, by decide, by decide⟩

/-- The symbols of the names, in the order of their declarations. -/
def declaredNames : Symbol.Table :=
  let file := Program.initialSymbols.add (integer "g" 64)
  (file.enter.add (integer "p" (-2))).add (integer "n" 1)

theorem models_declaredNames : declaredNames.Models names := by
  have hinitial := Symbol.Table.models_initialSymbols
  have hglobal : Syntax.Scope.declare? [] (integer "g" 64).name (.object (.global 64)) =
      some names.globals := rfl
  have hfile := (hinitial.declareGlobal rfl hglobal ⟨rfl, rfl, rfl⟩).2.1.enter
  have hparameter : Env.declare? ⟨[[]], names.globals⟩ (integer "p" (-2)).name (.parameter 2) =
      some ⟨[[("p", .object (.parameter 2))]], names.globals⟩ := rfl
  have hinside := (hfile.declareLocal hparameter rfl rfl rfl).2.1
  have hlocal : Env.declare? ⟨[[("p", .object (.parameter 2))]], names.globals⟩
      (integer "n" 1).name (.slot 1) = some names := rfl
  exact (hinside.declareLocal hlocal rfl rfl rfl).2.1

theorem functions_declaredNames : declaredNames.Functions names.globals [] [] := by
  have hvariable : ∀ name value, (integer name value).cls ≠ .function :=
    fun _ _ => Symbol.Class.noConfusion
  have hglobal : Syntax.Scope.declare? [] "g" (.object (.global 64)) = some names.globals := rfl
  have hfile := (Symbol.Table.functions_initialSymbols.add_other (hvariable "g" 64)).declare hglobal
  have hinside : Symbol.Table.Functions (Program.initialSymbols.add (integer "g" 64)).enter
      names.globals [] [] := hfile.congr rfl
  exact (hinside.add_other (hvariable "p" (-2))).add_other (hvariable "n" 1)

/-- A conjunction whose last operand would divide by zero. -/
def guarded : Expr :=
  .binary (.logical .conjunction)
    (.binary (.logical .conjunction)
      (.binary (.word .eq) (.name "p") (.binary (.word .add) (.addressOf "g") (.name "n")))
      (.unary .star (.name "p")))
    (.binary (.word .div) (.literal (.number 1)) (.name "g"))

def guardedValue : Core.Expr :=
  .logical .conjunction
    (.logical .conjunction
      (.binary .eq (.load (.parameter 2)) (.binary .add (.address (.global 64)) (.load (.slot 1))))
      (.follow (.load (.parameter 2))))
    (.binary .div (.constant 1) (.load (.global 64)))

def guardedCode : List Core.Instr :=
  guardedValue.code 0

/-- A machine with the word of the global variable. -/
def furnished : Machine :=
  Machine.small.performAll [.allocate [0]]

/-- The machine with the code of the conjunction and no more. -/
def coded : Machine :=
  furnished.performAll ((Core.cells guardedCode).map fun cell => .emit (cell.word []))

/-- The machine in a frame of the function, whose parameter points to the global variable. -/
def guarding : Machine :=
  { coded with memory := Memory.copy coded.memory 252 [0, 0, 0, 64], sp := 252, bp := 253 }

theorem intactWith_furnished : furnished.IntactWith Machine.small.layout :=
  (Machine.IntactWith.mk (Machine.intact_create Machine.create_small).1 rfl).performAll _

theorem intact_guarding : guarding.Intact := by
  have hcoded : coded.Intact := (intactWith_furnished.performAll _).intact
  have hconfined : coded.Confined (fun _ => True) guarding :=
    hcoded.change (Memory.size_copy _ _ _) (fun _ hout => absurd trivial hout) hcoded.heap
      (by decide +kernel) (by decide +kernel)
  exact hconfined.intact

theorem exists_writes_guarded :
    ∃ s s', Writes names guarded guardedValue s s' ∧ s.machine.textEnd = 0 := by
  have hkinds : (Token.Stream.ofSource "p == &g + n && *p && 1 / g;").kinds =
      guarded.print 0 ++ [.punctuator .semicolon] := by
    decide +kernel
  obtain ⟨origin, s, hmachine, hahead, hfits⟩ :=
    exists_fits_of_kinds intactWith_furnished.intact.sound hkinds
  have hnames := hfits.withSymbols models_declaredNames functions_declaredNames fun _ => id
  have hprints := guarded.prints_print 0
  have hdoes : Does origin _ expression () _ := does_of_prints hnames hprints rfl (by decide) hahead
  have hlayout : origin.base.layout = Machine.small.layout := by
    rw [← hfits.machine.layout, hmachine]
    rfl
  obtain ⟨s', hrun, -⟩ := hdoes.run hnames
    ⟨by rw [hlayout]; decide, by rw [hlayout]; decide, fun _ => List.cons_ne_nil _ _⟩
  have hstart : s.machine.textEnd = 0 := by
    rw [hmachine]
    rfl
  exact ⟨_, s', ⟨⟨origin, _, _, _, _, hnames, rfl, hprints, by decide, hahead⟩, rfl, hrun⟩, hstart⟩

theorem due_guarding {s s' : State} (hwrites : Writes names guarded guardedValue s s')
    (hstart : s.machine.textEnd = 0) : Due s s' guarding := by
  obtain ⟨entries, hemits⟩ := hwrites.emits
  rw [hstart] at hemits
  have hstop : s'.machine.textEnd = Core.size guardedCode := by
    rw [hemits.textEnd, hstart, Nat.zero_add]
    rfl
  have htextEnd : guarding.textEnd = Core.size guardedCode := by decide +kernel
  have hcells : ∀ address < Core.size guardedCode, guarding.memory[address]?.map .known =
      (Core.cells guardedCode)[address]? := by decide +kernel
  have hpc : guarding.pc = 0 := by decide +kernel
  refine ⟨intact_guarding, by decide +kernel, Nat.le_of_eq (hstop.trans htextEnd.symm),
    fun address _ haddress => ?_, hpc.trans hstart.symm⟩
  rw [hstop] at haddress
  have hcell := hcells address haddress
  rw [List.getElem?_eq_getElem haddress, Option.map_eq_some_iff] at hcell
  obtain ⟨word, hword, hknown⟩ := hcell
  have hwritten : (Core.cells guardedCode)[address]? = some (.known word) := by
    rw [List.getElem?_eq_getElem haddress, hknown]
  have hemitted : s'.machine.memory[s.machine.textEnd + address]? = some word :=
    hemits.text address _ hwritten
  rw [hstart, Nat.zero_add] at hemitted
  rw [hword, hemitted]

theorem follow_guarding :
    Memory.follow guarding.memory 64 = { followed := [64], outcome := .ok 0 } := by
  have hinside : 0 ≤ (64 : Word).toInt ∧ (64 : Word).toInt < guarding.memory.size := by
    decide +kernel
  have hword : guarding.memory.getD (64 : Word).toInt.toNat 0 = 0 := by decide +kernel
  rw [Memory.follow, if_pos hinside, hword]

theorem account_guarded (data : Nat) :
    guarded.account names guarding.bp guarding.memory data =
      { followed := [64], outcome := .ok 0 } := by
  have hp : Syntax.wordOf names guarding.bp guarding.memory "p" = 64 := by decide +kernel
  have hn : Syntax.wordOf names guarding.bp guarding.memory "n" = 0 := by decide +kernel
  have hstar : Syntax.Unary.account guarding.memory .star 64 = _ := follow_guarding
  simp only [guarded, Syntax.Expr.account, hp, hn, Account.ofWord_andThen, hstar]
  rfl

/-- The parameter points below the stack. -/
theorem clears_guarded (data : Nat) :
    guarding.Clears (guarded.account names guarding.bp guarding.memory data) := by
  rw [account_guarded]
  intro pointer hmem address hcount
  rw [List.mem_singleton.1 hmem, show (64 : Word).count? = some 64 from rfl] at hcount
  cases hcount
  decide +kernel

theorem inFrame_guarding : guarding.InFrame surroundings :=
  ⟨by decide +kernel, fun _ => by decide +kernel, by decide +kernel⟩

theorem runs_of_writes_guarded :
    ∃ s s', Writes names guarded guardedValue s s' ∧ guarded.isCallFree ∧ Due s s' guarding ∧
      guarding.InFrame surroundings ∧ names.Valid surroundings ∧
      guarding.Clears (guarded.account names guarding.bp guarding.memory s.machine.dataEnd) ∧
      guarding.Computes false
        (guardedValue.Passes guarding.bp guarding.memory s.machine.textEnd) s'.machine.textEnd
        (guarded.account names guarding.bp guarding.memory s.machine.dataEnd) := by
  obtain ⟨s, s', hwrites, hstart⟩ := exists_writes_guarded
  have hdue := due_guarding hwrites hstart
  exact ⟨s, s', hwrites, rfl, hdue, inFrame_guarding, valid_names, clears_guarded _,
    runs_of_writes hwrites rfl hdue inFrame_guarding valid_names (clears_guarded _) false⟩

/-- If no cycles are allowed, the value is not computed, though there is one. -/
theorem guarding_stopped :
    ∃ s s' m, Writes names guarded guardedValue s s' ∧ guarded.isCallFree ∧ Due s s' m ∧
      m.InFrame surroundings ∧ names.Valid surroundings ∧
      m.Clears (guarded.account names m.bp m.memory s.machine.dataEnd) ∧
      (guarded.account names m.bp m.memory s.machine.dataEnd).outcome = .ok 0 ∧
      ∀ tracing steps, Machine.runSteps tracing (steps + 1) m = .error (.cycleLimit 0) m := by
  obtain ⟨s, s', hwrites, hstart⟩ := exists_writes_guarded
  refine ⟨s, s', guarding.setCycleLimit (some 0), hwrites, rfl,
    (due_guarding hwrites hstart).setCycleLimit _, inFrame_setCycleLimit inFrame_guarding _,
    valid_names, ?_, ?_, fun tracing steps => ?_⟩
  · rw [account_setCycleLimit]
    exact clears_setCycleLimit (clears_guarded _) _
  · rw [account_setCycleLimit, account_guarded]
  have hstep : Machine.step tracing (guarding.setCycleLimit (some 0)) = .error (.cycleLimit 0) _ :=
    Machine.step_of_limit rfl (Nat.zero_le _)
  rw [Machine.runSteps, Machine.bind_of_error hstep]

end WordC.Compiler
