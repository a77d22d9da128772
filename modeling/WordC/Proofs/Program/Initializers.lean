import Mathlib.Data.Nat.Find
import WordC.Proofs.Machine.Counting
import WordC.Proofs.Program.Correctness
import WordC.Proofs.Program.Tours

/-!
# Start-up code runs the initializers

Functions and the code of initial values stand in the text in any order. The start-up code threads
its way through them: it comes to each initial value in turn, stores it and jumps over what lies in
between, and after the last one it calls `main`.
-/

namespace WordC

open WordC.Core (Context Instr Place Section)
open Machine (runFrom)

/-! ## What a start does -/

/-- A run of a program with these sections from its entry on. -/
structure Boot where
  start : Machine
  entry : Nat
  sections : List Section
  tracing : Bool

namespace Boot

variable (boot : Boot)

/-- The run has come to a machine after a number of steps. -/
def Reaches (n : Nat) (m : Machine) : Prop :=
  runFrom boot.entry boot.tracing n boot.start = .ok none m

def Fails (n : Nat) (error : Error) : Prop :=
  ∃ m, runFrom boot.entry boot.tracing n boot.start = .error error m

def Returns (n : Nat) (word : Word) : Prop :=
  ∃ m, runFrom boot.entry boot.tracing n boot.start = .ok (some word) m

/-- The return addresses of the calls that are open after a number of steps. -/
def calls (n : Nat) : List Nat :=
  boot.start.openCalls boot.entry boot.tracing n

/-- The sections with their addresses. -/
def placed : List (Nat × Section) :=
  Core.placed (boot.entry + 2) boot.sections

/-- An address in the code of a function. -/
def InFunction (pc : Nat) : Prop :=
  ∃ place ∈ boot.placed, place.2.name?.isSome ∧ (Core.extent place).contains pc

/-- While no call is open, the run is at an address after a number of steps. -/
structure Stands (n address : Nat) (m : Machine) : Prop where
  reaches : boot.Reaches n m
  outside : boot.calls n = []
  pc : m.pc = address

/-- The run is in the code of an initial value, or in a function while a call is open. Outside of
functions it stores to the global of this initial value only. -/
structure Within (address slot : Nat) (value : Core.Expr) (n : Nat) : Prop where
  code : ∀ m, boot.Reaches n m → boot.calls n = [] →
    (Core.extent (address, .initializer slot value)).contains m.pc
  store : ∀ m instruction, boot.Reaches n m → boot.calls n = [] → m.fetch = .ok instruction →
    instruction.opcode = .si → m.acc = Word.ofCount slot
  called : ∀ m, boot.Reaches n m → boot.calls n ≠ [] → boot.InFunction m.pc

/-- From the step `first` on, the run is in the code of an initial value. It has the value at the
step `last` and stores it in the word of the global and nowhere else, on its way out. -/
structure Stores (address slot : Nat) (value : Core.Expr) (first last : Nat)
    (begun evaluated stored : Machine) : Prop where
  begins : boot.Stands first address begun
  within : ∀ n, first ≤ n → n < last + 4 → boot.Within address slot value n
  le : first ≤ last
  evaluates : boot.Stands last (address + Core.size (value.code address)) evaluated
  ends : boot.Stands (last + 4) stored.pc stored
  word : stored.memory[slot]? = some evaluated.acc
  kept : ∀ other < boot.start.layout.stack.start, other ≠ slot →
    stored.memory[other]? = evaluated.memory[other]?
  /-- What is stored is the value of the expression, if that has one. -/
  value : ∀ depth word store,
    value.eval (Core.invoke boot.sections depth) begun.initialStore = .ok (word, store) →
      evaluated.acc = word

/-- The run calls `main`, and exits with its value as soon as it is back. -/
structure CallsMain (n address : Nat) (m : Machine) : Prop where
  here : boot.Stands n address m
  call : ∃ target slots body, (target, .function "main" 0 slots body) ∈ boot.placed ∧
    m.fetch = .ok { opcode := .call, operand := some (Word.ofCount target) } ∧
    ((∃ m', boot.Reaches (n + 1) m' ∧ boot.calls (n + 1) = [address + 2] ∧ m'.pc = target) ∨
      ∃ limit, boot.Fails (n + 1) (.cycleLimit limit))
  called : ∀ later m, n < later → boot.Reaches later m → boot.calls later ≠ [] →
    boot.InFunction m.pc
  back : ∀ later m, n < later → boot.Reaches later m → boot.calls later = [] →
    m.pc = address + 2 ∧ m.fetch = .ok { opcode := .exit, operand := none } ∧
      (boot.Returns (later + 1) m.acc ∨ ∃ limit, boot.Fails (later + 1) (.cycleLimit limit))
  value : ∀ steps word, boot.Returns steps word → ∃ later m, n < later ∧ later < steps ∧
    boot.Stands later (address + 2) m ∧ m.acc = word

/-- From a step on, the run goes through the sections that begin at an address: it passes over
functions and stores one initial value after the other, and then calls `main`. It may be held up by
an initial value. -/
inductive Visits : Nat → Nat → List Section → Prop where
  | function {n address arity slots : Nat} {name : String} {body : Core.Stmt}
      {rest : List Section}
      (h : Visits n (address + (Section.function name arity slots body).width address) rest) :
      Visits n address (.function name arity slots body :: rest)
  | initializer {first last address slot : Nat} {value : Core.Expr} {rest : List Section}
      {begun evaluated stored : Machine}
      (hstores : boot.Stores address slot value first last begun evaluated stored)
      (h : Visits (last + 4) (address + (Section.initializer slot value).width address) rest) :
      Visits first address (.initializer slot value :: rest)
  | faults {first address slot steps : Nat} {value : Core.Expr} {rest : List Section}
      {begun : Machine} {error : Error} (hbegins : boot.Stands first address begun)
      (hwithin : ∀ n, first ≤ n → boot.Within address slot value n)
      (hfails : boot.Fails steps error) : Visits first address (.initializer slot value :: rest)
  | forever {first address slot : Nat} {value : Core.Expr} {rest : List Section} {begun : Machine}
      (hbegins : boot.Stands first address begun)
      (hwithin : ∀ n, first ≤ n → boot.Within address slot value n)
      (hgoes : ∀ n, ∃ m, boot.Reaches n m) : Visits first address (.initializer slot value :: rest)
  | main {n address : Nat} {m : Machine} (h : boot.CallsMain n address m) : Visits n address []

end Boot

namespace Image

variable {image : Image} {start m m' : Machine} {tracing : Bool} {instr : Instr}
  {n first last address slot : Nat} {value : Core.Expr}

/-- The run of a program from its entry. -/
def boot (image : Image) (start : Machine) (tracing : Bool) : Boot :=
  { start, entry := image.start, sections := image.sections, tracing }

/-- The instructions of functions. -/
def functionLines (image : Image) : List (Nat × Instr) :=
  image.placed.flatMap fun place =>
    if place.2.name?.isSome then Core.lines place.1 (place.2.body place.1) else []

theorem mem_functionLines {line : Nat × Instr} : line ∈ image.functionLines ↔
    ∃ place ∈ image.placed, place.2.name?.isSome ∧
      line ∈ Core.lines place.1 (place.2.body place.1) := by
  simp only [functionLines, List.mem_flatMap, List.mem_ite_nil_right]

theorem contains_initializer {pc : Nat} (hstart : address ≤ pc)
    (hstop : pc < address + Core.size (value.code address) + 6) :
    (Core.extent (address, .initializer slot value)).contains pc := by
  have hwidth : (Section.initializer slot value).width address =
      Core.size (value.code address) + 6 := by
    rw [← Section.size_code address 0, Section.code, Section.initializerCode, Core.size_append,
      Core.size_append]
    rfl
  rw [Extent.contains_iff]
  simp only [Core.extent, hwidth]
  omega

/-- What is carried out to evaluate an initial value: its code, and functions. -/
def valueLines (image : Image) (address : Nat) (value : Core.Expr) : List (Nat × Instr) :=
  Core.lines address (value.code address) ++ image.functionLines

/-- The code of an initial value in the text of a program, and where it leads. -/
structure Chunk (image : Image) (address slot : Nat) (value : Core.Expr) (next : Nat) : Prop where
  placed : (address, .initializer slot value) ∈ image.placed
  code : image.Has address ((Section.initializer slot value).code address next)
  leads : next < image.base.textEnd

namespace Chunk

variable {next : Nat} (hchunk : image.Chunk address slot value next)

include hchunk

theorem front : image.Has address (value.code address) :=
  hchunk.code.initializer.1

theorem store : image.Has (address + Core.size (value.code address)) (Place.global slot).store :=
  hchunk.code.initializer.2.1

theorem jump :
    (address + Core.size (value.code address) + 4, .jump .jmp next) ∈ image.lines :=
  hchunk.code.initializer.2.2

theorem part (hloaded : image.Loaded) : image.Part (image.valueLines address value) where
  loaded := hloaded
  lines := by
    intro line hline
    rcases List.mem_append.1 hline with hvalue | hfunction
    · exact hchunk.front line hvalue
    · obtain ⟨place, hmem, -, hline⟩ := mem_functionLines.1 hfunction
      exact Core.mem_lines_programCode.2 (.inr (.inl ⟨place, hmem, hline⟩))
  functions := fun _ _ _ _ _ hfunction _ hline =>
    List.mem_append_right _ (mem_functionLines.2 ⟨_, hfunction, rfl, hline⟩)

omit hchunk in
/-- Outside of functions only the code of the initial value itself is carried out. -/
theorem mem_of_valueLines {line : Nat × Instr} (hline : line ∈ image.valueLines address value)
    (hstartup : image.InStartup line.1) : line ∈ Core.lines address (value.code address) := by
  rcases List.mem_append.1 hline with hvalue | hfunction
  · exact hvalue
  · obtain ⟨place, hmem, hisFunction, hline⟩ := mem_functionLines.1 hfunction
    have hinside : image.InFunction line.1 := ⟨place, hmem, hisFunction, line.2, hline⟩
    exact absurd hstartup hinside.not_inStartup

end Chunk

namespace Tour

variable (htour : image.Tour start tracing)

include htour

/-! ## Single steps -/

theorem execute_of_reaches (hrun : (image.boot start tracing).Reaches n m)
    (hnext : (image.boot start tracing).Reaches (n + 1) m') (hline : (m.pc, instr) ∈ image.lines) :
    Machine.execute (instr.linked image.entries) (m.advance tracing (instr.linked image.entries)) =
      .ok none m' := by
  have hstep := htour.step_eq hrun hnext
  have hfetch := htour.loaded.fetch_eq (htour.steady hrun) hline rfl
  rcases Machine.step_cases tracing m with
    ⟨limit, hstopped⟩ | ⟨error, -, hstopped⟩ | ⟨fetched, hfetched, hexecuted⟩
  · cases hstep.symm.trans hstopped
  · cases hstep.symm.trans hstopped
  · cases hfetch.symm.trans hfetched
    exact hexecuted.symm.trans hstep

/-- What an instruction that cannot fail does in a run. -/
structure Advances (image : Image) (start : Machine) (tracing : Bool) (n : Nat)
    (instruction : Instruction) (m m' : Machine) : Prop where
  only : ∀ found, (image.boot start tracing).Reaches (n + 1) found → found = m'
  calls : (image.boot start tracing).calls (n + 1) =
    instruction.returns m.pc ((image.boot start tracing).calls n)
  goes : (image.boot start tracing).Reaches (n + 1) m' ∨
    ∃ limit, (image.boot start tracing).Fails (n + 1) (.cycleLimit limit)

theorem advances (hrun : (image.boot start tracing).Reaches n m)
    (hline : (m.pc, instr) ∈ image.lines)
    (hexecute : Machine.execute (instr.linked image.entries)
      (m.advance tracing (instr.linked image.entries)) = .ok none m') :
    Advances image start tracing n (instr.linked image.entries) m m' where
  only := fun found hfound => by
    cases (htour.execute_of_reaches hrun hfound hline).symm.trans hexecute
    rfl
  calls := Machine.openCalls_succ hrun (htour.loaded.fetch_eq (htour.steady hrun) hline rfl)
  goes := by
    have hfetch := htour.loaded.fetch_eq (htour.steady hrun) hline rfl
    rcases Machine.step_cases tracing m with
      ⟨limit, hstep⟩ | ⟨error, hunfetched, -⟩ | ⟨fetched, hfetched, hstep⟩
    · exact .inr ⟨limit, Machine.runFrom_succ_eq_error htour.ready.isRunnable hrun hstep⟩
    · cases hfetch.symm.trans hunfetched
    · cases hfetch.symm.trans hfetched
      exact .inl ((Machine.runFrom_succ_eq_ok_none htour.ready.isRunnable).2
        ⟨m, hrun, hstep.trans hexecute⟩)

theorem inFunction_boot (hrun : (image.boot start tracing).Reaches n m)
    (hopen : (image.boot start tracing).calls n ≠ []) :
    (image.boot start tracing).InFunction m.pc := by
  obtain ⟨place, hplaced, hfunction, hinside⟩ := htour.inFunction hrun hopen
  exact ⟨place, hplaced, hfunction, hinside.contains⟩

omit htour in
theorem Advances.stands {instruction : Instruction}
    (h : Advances image start tracing n instruction m m')
    (hstands : (image.boot start tracing).Stands n address m)
    (hquiet : ∀ pc, instruction.returns pc [] = []) {next : Nat} (hpc : m'.pc = next) :
    (image.boot start tracing).Stands (n + 1) next m' ∨
      ∃ limit, (image.boot start tracing).Fails (n + 1) (.cycleLimit limit) := by
  refine h.goes.imp_left fun hrun => ⟨hrun, ?_, hpc⟩
  rw [h.calls, hstands.outside]
  exact hquiet m.pc

theorem pushes (hstands : (image.boot start tracing).Stands n address m)
    (hline : (address, .plain .push) ∈ image.lines) (hroom : image.stack.start < m.sp) :
    ∃ m', Advances image start tracing n (Instr.linked image.entries (.plain .push)) m m' ∧
      m'.pc = address + 1 ∧ m'.sp + 1 = m.sp ∧ m'.bp = m.bp ∧ m'.memory[m'.sp]? = some m.acc ∧
      ∀ other < image.stack.start, m'.memory[other]? = m.memory[other]? := by
  have hsteady := htour.steady hstands.reaches
  have hintact := htour.intact hstands.reaches
  have hlayout := hsteady.stack_eq
  have hpc := hstands.pc
  have hstop := hintact.spStop
  rw [← hintact.size_eq] at hstop
  refine ⟨_, htour.advances hstands.reaches (hpc ▸ hline) (Machine.execute_push ?_), ?_, ?_, rfl,
    ?_, fun other hother => ?_⟩
  · change m.layout.stack.start < m.sp
    rw [hlayout]
    exact hroom
  · rw [← hpc]
    rfl
  · change m.sp - 1 + 1 = m.sp
    omega
  · exact Machine.getElem?_setWord_self (by change m.sp - 1 < m.memory.size; omega) m.acc
  · exact Machine.getElem?_setWord_of_ne (by change m.sp - 1 ≠ other; omega) m.acc

theorem loads (hstands : (image.boot start tracing).Stands n address m)
    (hline : (address, (Place.global slot).load) ∈ image.lines) :
    ∃ m', Advances image start tracing n ((Place.global slot).load.linked image.entries) m m' ∧
      m'.pc = address + 2 ∧ m'.sp = m.sp ∧ m'.bp = m.bp ∧ m'.acc = Word.ofCount slot ∧
      m'.memory = m.memory := by
  have hpc := hstands.pc
  refine ⟨_, htour.advances hstands.reaches (hpc ▸ hline)
    (Place.execute_load _ (fun _ hslot => by cases hslot) image.entries), ?_, rfl, rfl, rfl, rfl⟩
  rw [← hpc]
  rfl

theorem writes {word : Word} (hstands : (image.boot start tracing).Stands n address m)
    (hline : (address, .plain .si) ∈ image.lines) (hslot : (Place.global slot).Valid image.context)
    (hacc : m.acc = Word.ofCount slot) (hsp : m.sp < image.stack.stop)
    (hword : m.memory[m.sp]? = some word) :
    ∃ m', Advances image start tracing n (Instr.linked image.entries (.plain .si)) m m' ∧
      m'.pc = address + 1 ∧ m'.sp = m.sp + 1 ∧ m'.bp = m.bp ∧ m'.memory[slot]? = some word ∧
      ∀ other, other ≠ slot → m'.memory[other]? = m.memory[other]? := by
  have hsteady := htour.steady hstands.reaches
  have hpc := hstands.pc
  have hbounds : image.context.data.start ≤ slot ∧ slot < image.context.data.stop := hslot
  have hstart := htour.loaded.dataStart
  have hstop := htour.loaded.dataStop
  have hdata := htour.loaded.data_le_stack
  have hstack : image.stack.start < image.stack.stop := htour.loaded.sound.ordered.stackStop
  have hsmall := htour.loaded.stack_lt
  have hsize : m.memory.size = image.stack.stop := by
    rw [hsteady.size, htour.loaded.stackStop]
  let next := m.advance tracing (Instr.linked image.entries (.plain .si))
  have hpop : next.sp < next.layout.stack.stop := by
    change m.sp < m.layout.stack.stop
    rw [hsteady.layout]
    exact hsp
  have htext : next.layout.text.stop ≤ slot := by
    change m.layout.text.stop ≤ slot
    rw [hsteady.layout]
    omega
  have hlast : slot < m.memory.size := by omega
  have hexecute := Machine.execute_si (m := next) hpop hacc (by omega) hlast htext
  refine ⟨_, htour.advances hstands.reaches (hpc ▸ hline) hexecute, ?_, rfl, rfl, ?_,
    fun other hother => Machine.getElem?_setWord_of_ne (Ne.symm hother) _⟩
  · rw [← hpc]
    rfl
  · refine (Machine.getElem?_setWord_self hlast _).trans ?_
    exact congrArg some (Machine.wordAt_eq (m := m) hword)

theorem leaps {target : Nat} (hstands : (image.boot start tracing).Stands n address m)
    (hline : (address, .jump .jmp target) ∈ image.lines) (htarget : target < image.base.textEnd) :
    ∃ m', Advances image start tracing n (Instr.linked image.entries (.jump .jmp target)) m m' ∧
      m'.pc = target ∧ m'.sp = m.sp ∧ m'.bp = m.bp ∧ m'.memory = m.memory := by
  have hpc := hstands.pc
  have hinside := htour.loaded.isTarget (htour.steady hstands.reaches) htarget
  exact ⟨_, htour.advances hstands.reaches (hpc ▸ hline)
    (Machine.execute_jmp ⟨hinside.start, hinside.stop, hinside.small⟩), rfl, rfl, rfl, rfl⟩

/-! ## Initial values -/

section Initializer

variable {next : Nat}

/-- Where the run is in a chunk while no call is open, and what it stores there. -/
theorem within_of_line (h : ∀ m, (image.boot start tracing).Reaches n m →
    (image.boot start tracing).calls n = [] → ∃ instr, (m.pc, instr) ∈ image.lines ∧
      address ≤ m.pc ∧ m.pc < address + Core.size (value.code address) + 6 ∧
      (instr.opcode = .si → m.acc = Word.ofCount slot)) :
    (image.boot start tracing).Within address slot value n where
  code := by
    intro m hrun hnone
    obtain ⟨instr, -, hstart, hstop, -⟩ := h m hrun hnone
    exact contains_initializer hstart hstop
  store := by
    intro m instruction hrun hnone hfetch hopcode
    obtain ⟨instr, hline, -, -, hstore⟩ := h m hrun hnone
    cases (htour.loaded.fetch_eq (htour.steady hrun) hline rfl).symm.trans hfetch
    exact hstore hopcode
  called := fun m hrun hopen => htour.inFunction_boot hrun hopen

theorem within_of_stands {pc : Nat} (hstands : (image.boot start tracing).Stands n pc m)
    (hline : (pc, instr) ∈ image.lines) (hstart : address ≤ pc)
    (hstop : pc < address + Core.size (value.code address) + 6)
    (hstore : instr.opcode = .si → m.acc = Word.ofCount slot) :
    (image.boot start tracing).Within address slot value n := by
  refine htour.within_of_line fun found hfound _ => ?_
  cases hstands.reaches.symm.trans hfound
  have hpc := hstands.pc
  exact ⟨instr, hpc ▸ hline, hpc ▸ hstart, hpc ▸ hstop, hstore⟩

omit htour in
/-- A run that has failed is nowhere any more. -/
theorem not_reaches_of_fails (hrunnable : start.status.isRunnable) {steps : Nat} {error : Error}
    (hfails : (image.boot start tracing).Fails steps error) (hle : steps ≤ n) :
    ¬(image.boot start tracing).Reaches n m := by
  intro hrun
  obtain ⟨stopped, hfails⟩ := hfails
  obtain ⟨m', hbefore⟩ := Machine.exists_runFrom_of_le hrunnable hle hrun
  cases hbefore.symm.trans hfails

theorem within_of_fails {steps : Nat} {error : Error}
    (hfails : (image.boot start tracing).Fails steps error) (hle : steps ≤ n) :
    (image.boot start tracing).Within address slot value n :=
  htour.within_of_line fun _ hfound _ =>
    absurd hfound (not_reaches_of_fails htour.ready.isRunnable hfails hle)

variable (hchunk : image.Chunk address slot value next)

include hchunk

/-- From its first instruction on, an initial value is evaluated until it is there, with nothing on
the stack again, or for ever. -/
theorem evaluates (hstands : (image.boot start tracing).Stands first address m)
    (hstarting : image.Starting m) :
    (∃ last m', first ≤ last ∧
      (image.boot start tracing).Stands last (address + Core.size (value.code address)) m' ∧
      image.Starting m' ∧
      ∀ n, first ≤ n → n < last → (image.boot start tracing).Within address slot value n) ∨
      ∀ n, first ≤ n → (image.boot start tracing).Within address slot value n := by
  have hvalue := (htour.loaded.sections _ (Core.mem_of_mem_placed hchunk.placed)).2
  let stretch : Stretch :=
    { text := image.valueLines address value
      goal := fun calls m' =>
        calls = [] ∧ image.After m 0 (address + Core.size (value.code address)) m'
      tracing }
  have hpart : image.Part stretch.text := hchunk.part htour.loaded
  have hsafe : ∀ found, (image.boot start tracing).Reaches first found → ∀ more,
      image.Safe stretch ((image.boot start tracing).calls first) more found := by
    intro found hfound more
    cases hstands.reaches.symm.trans hfound
    rw [hstands.outside]
    have hframed := hstarting.framed htour.loaded
    exact hpart.safe_expr value hvalue (fun _ hline => List.mem_append_left _ hline)
      (htour.loaded.lt_textEnd hchunk.store.store.1) hframed hstands.pc
      (fun fewer _ => hpart.callsSafe fewer) fun m' hafter => .of_goal ⟨rfl, hafter⟩
  -- As long as the value is not there, the run is in its code.
  have hwithin : ∀ n, first ≤ n → (∀ fewer, first ≤ fewer → fewer ≤ n → ∀ m,
      (image.boot start tracing).Reaches fewer m →
        ¬stretch.goal ((image.boot start tracing).calls fewer) m) →
      (image.boot start tracing).Within address slot value n := by
    intro n hle hbefore
    refine htour.within_of_line fun m' hrun hnone => ?_
    have hthere := Machine.safe_of_runFrom htour.ready.isRunnable hle hsafe
      (fun fewer hfirst hlt => hbefore fewer hfirst (Nat.le_of_lt hlt)) (htour.spares n) hrun 1
    obtain ⟨instruction, hlisted, -⟩ :=
      (hthere.resolve_left (hbefore n hle (Nat.le_refl n) m' hrun)).1.located
    obtain ⟨instr, hline, -⟩ := mem_linked.1 hlisted
    have hvalue := Chunk.mem_of_valueLines hline (htour.inStartup hrun hnone)
    have hbounds := Core.bounds_of_mem_lines hvalue
    refine ⟨instr, hchunk.front _ hvalue, hbounds.1, by omega, fun hopcode => ?_⟩
    have hevaluates := value.evaluates_code address instr (Core.mem_of_mem_lines hvalue)
    rw [hopcode] at hevaluates
    cases hevaluates
  classical
  by_cases hreached : ∃ n, first ≤ n ∧ ∃ m', (image.boot start tracing).Reaches n m' ∧
      stretch.goal ((image.boot start tracing).calls n) m'
  · obtain ⟨hle, m', hrun, hnone, hafter⟩ := Nat.find_spec hreached
    refine .inl ⟨Nat.find hreached, m', hle, ⟨hrun, hnone, hafter.pc⟩, hstarting.after hafter,
      fun n hfirst hlt => hwithin n hfirst fun fewer hfirst hle m hrun hgoal => ?_⟩
    exact Nat.find_min hreached (Nat.lt_of_le_of_lt hle hlt) ⟨hfirst, m, hrun, hgoal⟩
  · exact .inr fun n hle => hwithin n hle fun fewer hfirst _ m hrun hgoal =>
      hreached ⟨fewer, hfirst, m, hrun, hgoal⟩

/-- A value that is there is stored in four steps, unless the limit stops the run. -/
theorem stores (hstands :
      (image.boot start tracing).Stands last (address + Core.size (value.code address)) m)
    (hstarting : image.Starting m) :
    (∀ n, last ≤ n → n < last + 4 → (image.boot start tracing).Within address slot value n) ∧
      ((∃ m', (image.boot start tracing).Stands (last + 4) next m' ∧ image.Starting m' ∧
          m'.memory[slot]? = some m.acc ∧ ∀ other < image.stack.start, other ≠ slot →
            m'.memory[other]? = m.memory[other]?) ∨
        ∃ steps, steps ≤ last + 4 ∧ ∃ limit,
          (image.boot start tracing).Fails steps (.cycleLimit limit)) := by
  have hdata := (htour.loaded.sections _ (Core.mem_of_mem_placed hchunk.placed)).1
  obtain ⟨hpush, hload, hsi⟩ := hchunk.store.store
  have hstack : image.stack.start < image.stack.stop := htour.loaded.sound.ordered.stackStop
  have hsp := hstarting.sp
  have hnext {k : Nat} (h : ∀ n, last ≤ n → n < k →
      (image.boot start tracing).Within address slot value n)
      (hk : (image.boot start tracing).Within address slot value k) : ∀ n, last ≤ n → n < k + 1 →
        (image.boot start tracing).Within address slot value n := by
    intro n hfirst hlt
    rcases Nat.lt_succ_iff_lt_or_eq.1 hlt with hbefore | rfl
    · exact h n hfirst hbefore
    · exact hk
  have hfailed {k : Nat} {limit : Nat} (h : ∀ n, last ≤ n → n < k →
      (image.boot start tracing).Within address slot value n)
      (hfails : (image.boot start tracing).Fails k (.cycleLimit limit)) (hle : k ≤ last + 4) :
      (∀ n, last ≤ n → n < last + 4 → (image.boot start tracing).Within address slot value n) ∧
        ∃ steps, steps ≤ last + 4 ∧ ∃ limit,
          (image.boot start tracing).Fails steps (.cycleLimit limit) := by
    refine ⟨fun n hfirst _ => ?_, k, hle, limit, hfails⟩
    rcases Nat.lt_or_ge n k with hlt | hge
    · exact h n hfirst hlt
    · exact htour.within_of_fails hfails hge
  have hfirst : ∀ n, last ≤ n → n < last + 1 →
      (image.boot start tracing).Within address slot value n :=
    hnext (fun _ hle hlt => absurd hlt (Nat.not_lt.2 hle))
      (htour.within_of_stands hstands hpush (by omega) (by omega) nofun)
  obtain ⟨first, hadvances, hpc, hpushed, hbp, htop, hkept⟩ :=
    htour.pushes hstands hpush (by omega)
  rcases hadvances.stands hstands (fun _ => rfl) hpc with hstands₁ | ⟨limit, hfails⟩
  swap
  · exact (hfailed hfirst hfails (by omega)).imp_right .inr
  have hsecond := hnext hfirst
    (htour.within_of_stands hstands₁ hload (by omega) (by omega) nofun)
  obtain ⟨second, hadvances, hpc, hsp₂, hbp₂, hacc, hmemory⟩ := htour.loads hstands₁ hload
  rcases hadvances.stands hstands₁ (fun _ => rfl) hpc with hstands₂ | ⟨limit, hfails⟩
  swap
  · exact (hfailed hsecond hfails (by omega)).imp_right .inr
  have hthird := hnext hsecond
    (htour.within_of_stands hstands₂ hsi (by omega) (by omega) fun _ => hacc)
  obtain ⟨third, hadvances, hpc, hsp₃, hbp₃, hword, hothers⟩ :=
    htour.writes hstands₂ hsi hdata hacc (by omega)
      (by rw [hmemory, hsp₂]; exact htop)
  rcases hadvances.stands hstands₂ (fun _ => rfl) hpc with hstands₃ | ⟨limit, hfails⟩
  swap
  · exact (hfailed hthird hfails (by omega)).imp_right .inr
  have hlast := hnext hthird
    (htour.within_of_stands hstands₃ hchunk.jump (by omega) (by omega) nofun)
  obtain ⟨fourth, hadvances, hpc, hsp₄, hbp₄, hmemory₄⟩ :=
    htour.leaps hstands₃ hchunk.jump hchunk.leads
  rcases hadvances.stands hstands₃ (fun _ => rfl) hpc with hstands₄ | ⟨limit, hfails⟩
  swap
  · exact (hfailed hlast hfails (by omega)).imp_right .inr
  refine ⟨hlast, .inl ⟨fourth, hstands₄, ?_, ?_, fun other hother hne => ?_⟩⟩
  · exact
      { steady := htour.steady hstands₄.reaches
        sp := by omega
        bp := by rw [hbp₄, hbp₃, hbp₂, hbp, hstarting.bp] }
  · rw [hmemory₄, hword]
  · rw [hmemory₄, hothers other hne, hmemory, hkept other hother]

/-- What is there at the end of the code of a value is the value of the expression. -/
theorem acc_of_eval (hnodup : (Core.names image.sections).Nodup) (hle : first ≤ last)
    (hbegins : (image.boot start tracing).Stands first address m) (hstarting : image.Starting m)
    (hevaluates :
      (image.boot start tracing).Stands last (address + Core.size (value.code address)) m')
    {depth : Nat} {word : Word} {store : Core.Store}
    (heval : value.eval (Core.invoke image.sections depth) m.initialStore = .ok (word, store)) :
    m'.acc = word := by
  have hrunnable := htour.ready.isRunnable
  have hvalue := (htour.loaded.sections _ (Core.mem_of_mem_placed hchunk.placed)).2
  have hstop := htour.loaded.lt_textEnd hchunk.store.store.1
  have hstartup := htour.inStartup hevaluates.reaches hevaluates.outside
  obtain ⟨more, rfl⟩ := Nat.exists_eq_add_of_le hle
  have hrest := (Machine.runFrom_add_eq_ok_none hrunnable hbegins.reaches).1 hevaluates.reaches
  -- Without a limit, the run follows the evaluation until the value is there or the stack is full.
  have hunlimited : image.Starting (m.setCycleLimit none) :=
    ⟨hstarting.steady.congr rfl rfl rfl rfl, hstarting.sp, hstarting.bp⟩
  let route : Route := { text := image.valueLines address value, tracing }
  have hpart : image.Part route.text := hchunk.part htour.loaded
  have hmeets := hpart.meets_expr (hpart.invokesMeet hnodup depth) value hvalue
    (fun _ hline => List.mem_append_left _ hline) hstop (hunlimited.shows htour.loaded rfl)
    hbegins.pc
  have hstore : (m.setCycleLimit none).initialStore = m.initialStore := rfl
  rw [hstore, heval] at hmeets
  obtain ⟨steps, hpassed, hend⟩ := Machine.Walks.exists_runSteps hmeets
  -- It does not get past the end of the code, and there it is only once.
  have hbefore : steps ≤ more := by
    refine Nat.le_of_not_lt fun hlt => ?_
    obtain ⟨passed, hrun, instr, hline⟩ := hpassed more hlt
    cases hrun.symm.trans (Machine.runSteps_unlimited hrest)
    have hinside := Core.bounds_of_mem_lines (Chunk.mem_of_valueLines hline hstartup)
    have hpos : 0 < instr.cells.length := Nat.zero_lt_succ _
    have hpc : m'.pc = _ := hevaluates.pc
    change _ ∧ m'.pc + instr.cells.length ≤ _ at hinside
    omega
  obtain ⟨found, hfound⟩ := Machine.exists_runFrom_of_le hrunnable
    (Nat.add_le_add_left hbefore first) hevaluates.reaches
  have hsteps := Machine.runSteps_unlimited
    ((Machine.runFrom_add_eq_ok_none hrunnable hbegins.reaches).1 hfound)
  rcases hend with ⟨ended, hended, hgood⟩ | ⟨error, ended, hended, -⟩
  · cases hsteps.symm.trans hended
    have hpc : found.pc = m'.pc := hgood.after.pc.trans hevaluates.pc.symm
    have houtside : (image.boot start tracing).calls (first + steps) = [] := by
      by_contra hopen
      exact (htour.inFunction hfound hopen).not_inStartup (hpc ▸ hstartup)
    rcases Nat.eq_or_lt_of_le hbefore with rfl | hlt
    · cases hfound.symm.trans hevaluates.reaches
      exact hgood.acc
    · exact absurd (htour.grows (Nat.add_lt_add_left hlt first) houtside hfound hevaluates.outside
        hevaluates.reaches) (by omega)
  · cases hsteps.symm.trans hended

end Initializer

/-! ## The end -/

/-- A run gives its word at the end of the start-up code. -/
theorem stands_of_returns {steps : Nat} {word : Word}
    (hreturns : (image.boot start tracing).Returns steps word) : ∃ later m, later < steps ∧
      (image.boot start tracing).Stands later
        (Core.sectionsStop (image.start + 2) image.sections + 2) m ∧ m.acc = word := by
  obtain ⟨halted, hhalted⟩ :
    ∃ m, runFrom image.start tracing steps start = .ok (some word) m := hreturns
  obtain ⟨later, hlt, m, stopped, hrun, hstep⟩ :=
    Machine.exists_step_of_runFrom htour.ready.isRunnable hhalted
  have hend := (htour.harmless hrun).outcome
  obtain ⟨instr, hline, hfetch⟩ := htour.located hrun
  rw [hstep] at hend
  have hfetched : m.fetch = .ok { opcode := .exit, operand := none } := hend.1
  have hopcode : instr.opcode = .exit :=
    congrArg Instruction.opcode (Except.ok.inj (hfetch.symm.trans hfetched))
  have hexit := Core.exit_mem_lines hline hopcode
  refine ⟨later, m, hlt, ⟨hrun, ?_, congrArg Prod.fst hexit⟩, ?_⟩
  · by_contra hopen
    obtain ⟨place, hplaced, -, found, hfound⟩ := htour.inFunction hrun hopen
    cases Core.eq_of_mem_lines
      (Core.mem_lines_programCode.2 (.inr (.inl ⟨place, hplaced, hfound⟩))) hline rfl
    exact place.2.body_ne_exit place.1 _ (Core.mem_of_mem_lines hfound) hopcode
  · rcases Machine.step_cases tracing m with
      ⟨limit, hstopped⟩ | ⟨error, -, hstopped⟩ | ⟨fetched, hfetched', hexecuted⟩
    · cases hstep.symm.trans hstopped
    · cases hstep.symm.trans hstopped
    · cases hfetched.symm.trans hfetched'
      cases hstep.symm.trans hexecuted
      rfl

/-- A run that does not get out of an initial value faults or goes on for ever. -/
theorem held_up (hplaced : (address, .initializer slot value) ∈ image.placed)
    (hstands : (image.boot start tracing).Stands first address m)
    (hwithin : ∀ n, first ≤ n → (image.boot start tracing).Within address slot value n)
    {rest : List Section} :
    (image.boot start tracing).Visits first address (.initializer slot value :: rest) := by
  have hbounds := Core.bounds_of_mem_placed hplaced
  have hbegins : (Core.extent (address, .initializer slot value)).contains address :=
    contains_initializer (Nat.le_refl address) (by omega)
  rw [Extent.contains_iff] at hbegins
  have hpc := hstands.pc
  by_cases hgoes : ∀ n, ∃ m, (image.boot start tracing).Reaches n m
  · exact .forever hstands hwithin hgoes
  · obtain ⟨steps, hstopped⟩ := not_forall.1 hgoes
    cases hrun : runFrom image.start tracing steps start with
    | error error stopped => exact .faults hstands hwithin ⟨stopped, hrun⟩
    | ok result stopped =>
        cases result with
        | none => exact absurd ⟨stopped, hrun⟩ hstopped
        | some word =>
            obtain ⟨later, found, -, hlater, -⟩ := htour.stands_of_returns ⟨stopped, hrun⟩
            have hlaterPc := hlater.pc
            rcases Nat.lt_or_ge later first with hlt | hge
            · have hgrows := htour.grows hlt hlater.outside hlater.reaches hstands.outside
                hstands.reaches
              omega
            · have hcode := (hwithin later hge).code found hlater.reaches hlater.outside
              rw [Extent.contains_iff] at hcode
              omega

/-- With nothing on the stack, `main` is called, and there is only the `EXIT` to come back to. -/
theorem callsMain
    (hstands : (image.boot start tracing).Stands n
      (Core.sectionsStop (image.start + 2) image.sections) m)
    (hstarting : image.Starting m) :
    (image.boot start tracing).CallsMain n
      (Core.sectionsStop (image.start + 2) image.sections) m := by
  generalize hstop : Core.sectionsStop (image.start + 2) image.sections = stop at hstands ⊢
  have hfinale : ∀ line ∈ Core.lines stop Core.finale, line ∈ image.lines := fun line hline =>
    Core.mem_lines_programCode.2 (.inr (.inr (hstop ▸ hline)))
  have hcall : (stop, Instr.call "main") ∈ image.lines := hfinale _ List.mem_cons_self
  have hexit : (stop + 2, .plain .exit) ∈ image.lines :=
    hfinale _ (List.mem_cons_of_mem _ List.mem_cons_self)
  have hpc := hstands.pc
  have hsteady := htour.steady hstands.reaches
  obtain ⟨target, slots, body, hplaced, hentry⟩ := htour.loaded.functions "main" 0 htour.loaded.main
  have hlinked := Core.Instr.linked_call hentry
  have henter : (target, .withWord .ent (Word.ofCount slots)) ∈ image.lines :=
    Core.mem_lines_programCode.2 (.inr (.inl ⟨_, hplaced, List.mem_cons_self⟩))
  have htarget := htour.loaded.isTarget hsteady (htour.loaded.lt_textEnd henter)
  have hadvances := htour.advances hstands.reaches (hpc ▸ hcall) (by
    rw [hlinked]
    refine Machine.execute_call ⟨htarget.start, htarget.stop, htarget.small⟩ ?_
    change m.layout.stack.start < m.sp
    rw [hsteady.layout, hstarting.sp]
    exact htour.loaded.sound.ordered.stackStop)
  have hcalls : (image.boot start tracing).calls (n + 1) = [stop + 2] := by
    rw [hadvances.calls, hstands.outside, hlinked, ← hpc]
    rfl
  have hback : ∀ later m, n < later → (image.boot start tracing).Reaches later m →
      (image.boot start tracing).calls later = [] → m.pc = stop + 2 := by
    intro later m hlt hrun hnone
    have hnested := htour.nested (· = stop + 2) (Nat.succ_le_of_lt hlt)
      (fun found hfound => ?_) (fun between before after instr _ _ hgoes _ hthere => ?_) hrun
    · change Nested _ _ m.pc ((image.boot start tracing).calls later) at hnested
      rw [hnone] at hnested
      exact hnested
    · change Nested _ _ found.pc ((image.boot start tracing).calls (n + 1))
      rw [hcalls]
      refine ⟨htour.inFunction hfound ?_, rfl⟩
      change (image.boot start tracing).calls (n + 1) ≠ []
      rw [hcalls]
      exact List.cons_ne_nil _ _
    · have hline := Core.eq_of_mem_lines hexit hgoes.line hthere
      exact absurd (congrArg (·.2.opcode) hline) hgoes.stays
  refine
    { here := hstands
      call := ⟨target, slots, body, hplaced, ?_, ?_⟩
      called := fun later m _ hrun hopen => htour.inFunction_boot hrun hopen
      back := fun later found hlt hrun hnone => ?_
      value := fun steps word hreturns => ?_ }
  · rw [← hlinked]
    exact htour.loaded.fetch_eq hsteady hcall hpc
  · exact hadvances.goes.imp_left fun hrun => ⟨_, hrun, hcalls, rfl⟩
  · have hthere := hback later found hlt hrun hnone
    have hfetch := htour.loaded.fetch_eq (htour.steady hrun) hexit hthere
    refine ⟨hthere, hfetch, ?_⟩
    rcases Machine.step_cases tracing found with
      ⟨limit, hstep⟩ | ⟨error, hunfetched, -⟩ | ⟨fetched, hfetched, hstep⟩
    · exact .inr ⟨limit, Machine.runFrom_succ_eq_error htour.ready.isRunnable hrun hstep⟩
    · cases hfetch.symm.trans hunfetched
    · cases hfetch.symm.trans hfetched
      exact .inl (Machine.runFrom_succ_eq_ok_some htour.ready.isRunnable hrun hstep)
  · obtain ⟨later, found, hlt, hlater, hacc⟩ := htour.stands_of_returns hreturns
    rw [hstop] at hlater
    refine ⟨later, found, ?_, hlt, hlater, hacc⟩
    have hlaterPc := hlater.pc
    rcases Nat.lt_trichotomy n later with hbefore | rfl | hafter
    · exact hbefore
    · cases hstands.reaches.symm.trans hlater.reaches
      omega
    · have hgrows := htour.grows hafter hlater.outside hlater.reaches hstands.outside
        hstands.reaches
      omega

/-! ## The whole start -/

theorem visits (hnodup : (Core.names image.sections).Nodup) (sections : List Section)
    (hcode : image.Has address (Core.sectionsCode address sections))
    (hplaced : ∀ place ∈ Core.placed address sections, place ∈ image.placed)
    (hstop : Core.sectionsStop address sections =
      Core.sectionsStop (image.start + 2) image.sections)
    (hstands : (image.boot start tracing).Stands first (Core.nextStart address sections) m)
    (hstarting : image.Starting m) : (image.boot start tracing).Visits first address sections := by
  induction sections generalizing address first m with
  | nil =>
      have hlast : address = Core.sectionsStop (image.start + 2) image.sections := hstop
      rw [hlast] at hstands ⊢
      exact .main (htour.callsMain hstands hstarting)
  | cons part rest ih =>
      obtain ⟨hpart, hrest⟩ := hcode.sections rfl
      have hothers := fun place hmem => hplaced place (List.mem_cons_of_mem _ hmem)
      cases part with
      | function name arity slots body =>
          exact .function (ih hrest hothers hstop hstands hstarting)
      | initializer slot value =>
          have hchunk : image.Chunk address slot value (Core.nextStart
              (address + (Section.initializer slot value).width address) rest) :=
            { placed := hplaced _ List.mem_cons_self
              code := hpart
              leads := htour.loaded.part.nextStart_lt hrest }
          rcases htour.evaluates hchunk hstands hstarting with
            ⟨last, evaluated, hle, hevaluates, hevaluated, hbefore⟩ | hwithin
          · obtain ⟨hduring, hends⟩ := htour.stores hchunk hevaluates hevaluated
            rcases hends with
              ⟨stored, hstored, hnext, hword, hkept⟩ | ⟨steps, hsteps, limit, hfails⟩
            · have hlayout : start.layout.stack = image.stack := by
                rw [htour.ready.starting.steady.layout]
                rfl
              have hstores : (image.boot start tracing).Stores address slot value first last m
                  evaluated stored :=
                { begins := hstands
                  within := fun n hfirst hlt => (Nat.lt_or_ge n last).elim
                    (hbefore n hfirst) fun hge => hduring n hge hlt
                  le := hle
                  evaluates := hevaluates
                  ends := ⟨hstored.reaches, hstored.outside, rfl⟩
                  word := hword
                  kept := fun other hother => hkept other (hlayout ▸ hother)
                  value := fun _ _ _ heval => htour.acc_of_eval hchunk hnodup hle hstands hstarting
                    hevaluates heval }
              exact .initializer hstores (ih hrest hothers hstop hstored hnext)
            · refine htour.held_up hchunk.placed hstands fun n hfirst => ?_
              rcases Nat.lt_or_ge n last with hlt | hge
              · exact hbefore n hfirst hlt
              · rcases Nat.lt_or_ge n (last + 4) with hlt | hlate
                · exact hduring n hge hlt
                · exact htour.within_of_fails hfails (Nat.le_trans hsteps hlate)
          · exact htour.held_up hchunk.placed hstands hwithin

/-- Unless it may not take a single step, a run jumps to where the start-up code goes on and visits
the sections in turn. -/
theorem visits_program (hnodup : (Core.names image.sections).Nodup) :
    (image.boot start tracing).Visits 1 (image.start + 2) image.sections ∨
      ∃ limit, (image.boot start tracing).Fails 1 (.cycleLimit limit) := by
  have hstarted := htour.ready.started image.start
  have hstands : (image.boot start tracing).Stands 0 image.start (start.started image.start) :=
    ⟨(Machine.runFrom_eq_ok_none htour.ready.isRunnable).2 rfl, rfl, rfl⟩
  have hjump : (image.start, .jump .jmp (Core.nextStart (image.start + 2) image.sections)) ∈
      image.lines := List.mem_cons_self
  have hcode : image.Has (image.start + 2) (Core.sectionsCode (image.start + 2) image.sections) :=
    fun _ hline => List.mem_cons_of_mem _ hline
  obtain ⟨m', hadvances, hpc, hsp, hbp, -⟩ := htour.leaps hstands hjump
    (htour.loaded.part.nextStart_lt hcode)
  refine (hadvances.stands hstands (fun _ => rfl) hpc).imp_left fun hnext => ?_
  exact htour.visits hnodup image.sections hcode (fun _ hmem => hmem) rfl hnext
    { steady := htour.steady hnext.reaches
      sp := hsp.trans hstarted.sp
      bp := hbp.trans hstarted.bp }

end Tour

end Image

end WordC
