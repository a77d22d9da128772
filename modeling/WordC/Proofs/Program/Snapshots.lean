import WordC.Proofs.Machine.Rewinding
import WordC.Proofs.Memory.Strings
import WordC.Proofs.Program.Startup

/-!
# Runs without branches

Where a run takes no branch, the machine after each of its steps is known: how many cycles it has
taken, the registers, the words on the stack and what has been written. Below the stack nothing
changes. Each instruction leads from one snapshot to the next, as long as the limit allows one more
cycle and the stack has room for one more word.
-/

namespace WordC

open WordC.Core (Instr)
open Syntax (stringWords)
open Text.Utf8 (encode)

namespace Machine

/-- Whether the machine may take more cycles. -/
def Allows (m : Machine) (cycles : Nat) : Prop :=
  ∀ limit, m.cycleLimit = some limit → m.cycles + cycles ≤ limit

/-- One cycle has changed neither the text nor the heap. -/
structure Ticks (m m' : Machine) : Prop where
  layout : m'.layout = m.layout
  textEnd : m'.textEnd = m.textEnd
  heap : m'.heap = m.heap
  cycles : m'.cycles = m.cycles + 1
  cycleLimit : m'.cycleLimit = m.cycleLimit

variable {m : Machine} {tracing : Bool} {instruction : Instruction}

theorem Allows.mono {cycles fewer : Nat} (h : m.Allows cycles) (hle : fewer ≤ cycles) :
    m.Allows fewer := by
  intro limit hlimit
  have hcycles := h limit hlimit
  omega

theorem sink_advance : (m.advance tracing instruction).host.sink = m.host.sink := by
  cases tracing <;> rfl

/-- A function without slots saves the base pointer and no more. -/
theorem entered_zero : m.entered 0 =
    { m.setWord (m.sp - 1) (Word.ofCount m.bp) with sp := m.sp - 1, bp := m.sp - 1 } := by
  have hsize : Extent.size { start := m.sp - 1 - 0, stop := m.sp - 1 } = 0 := Nat.sub_self _
  rw [entered, fill, hsize]
  rfl

end Machine

/-- What is known of a machine in a run. The top of the stack comes first. -/
structure Snapshot where
  pc : Nat
  bp : Nat
  acc : Word
  stack : List Word
  sink : Sink

/-- The machine is the one of a snapshot but for the stack. -/
structure Snapshot.Registers (snapshot : Snapshot) (m : Machine) : Prop where
  pc : m.pc = snapshot.pc
  bp : m.bp = snapshot.bp
  acc : m.acc = snapshot.acc
  sink : m.host.sink = snapshot.sink

namespace Image

/-- The machine that some cycles have led to, with what has not changed. -/
structure Shot (image : Image) (first : Machine) (taken : Nat) (snapshot : Snapshot) (m : Machine) :
    Prop where
  registers : snapshot.Registers m
  cycles : m.cycles = first.cycles + taken
  cycleLimit : m.cycleLimit = first.cycleLimit
  steady : image.Steady m
  below : ∀ address < image.stack.start, m.memory[address]? = first.memory[address]?
  sp : m.sp + snapshot.stack.length = image.stack.stop
  stack : Memory.Holds m.memory m.sp snapshot.stack

/-- A run gets to a machine of which this is known. -/
def Reaches (image : Image) (tracing : Bool) (first : Machine) (taken : Nat) (snapshot : Snapshot) :
    Prop :=
  ∃ m, image.Shot first taken snapshot m ∧
    ∀ more, Machine.runSteps tracing (taken + more) first = Machine.runSteps tracing more m

variable {image : Image} {tracing : Bool} {first m m' : Machine} {taken : Nat}
  {snapshot next : Snapshot} {instr : Instr} {word : Word}

namespace Shot

theorem trans (h : image.Shot first taken snapshot m) (hnext : image.Shot m 1 next m') :
    image.Shot first (taken + 1) next m' :=
  { hnext with
    cycles := by rw [hnext.cycles, h.cycles, Nat.add_assoc]
    cycleLimit := hnext.cycleLimit.trans h.cycleLimit
    below := fun address hbelow => (hnext.below address hbelow).trans (h.below address hbelow) }

theorem layout (h : image.Shot first taken snapshot m) : m.layout.stack = image.stack :=
  h.steady.stack_eq

theorem room (h : image.Shot first taken snapshot m)
    (hroom : image.stack.start + snapshot.stack.length < image.stack.stop) :
    m.layout.stack.start < m.sp := by
  have hsp := h.sp
  rw [h.layout]
  omega

theorem isTarget (h : image.Shot first taken snapshot m) (hloaded : image.Loaded) {target : Nat}
    (htarget : target < image.base.textEnd) (instruction : Instruction) :
    (m.advance tracing instruction).IsTarget target := by
  have hsteady : image.Steady (m.advance tracing instruction) := h.steady.congr rfl rfl rfl rfl
  exact hloaded.isTarget hsteady htarget

/-- Some words are taken from the stack, or none. -/
theorem popped (h : image.Shot first taken snapshot m) (words : List Word)
    (hstack : snapshot.stack = words ++ next.stack) (hregisters : next.Registers m')
    (hticks : m.Ticks m') (hmemory : m'.memory = m.memory) (hsp : m'.sp = m.sp + words.length) :
    image.Shot m 1 next m' where
  registers := hregisters
  cycles := hticks.cycles
  cycleLimit := hticks.cycleLimit
  steady := h.steady.congr hticks.layout hticks.textEnd hmemory hticks.heap
  below := fun address _ => by rw [hmemory]
  sp := by
    have hbefore := h.sp
    rw [hstack, List.length_append] at hbefore
    omega
  stack := by
    rw [hmemory, hsp]
    exact Memory.Holds.right (hstack ▸ h.stack)

/-- A word is put on the stack. -/
theorem pushed (h : image.Shot first taken snapshot m) (hloaded : image.Loaded)
    (hroom : image.stack.start + snapshot.stack.length < image.stack.stop)
    (hstack : next.stack = word :: snapshot.stack) (hregisters : next.Registers m')
    (hticks : m.Ticks m') (hmemory : m'.memory = (m.setWord (m.sp - 1) word).memory)
    (hsp : m'.sp = m.sp - 1) : image.Shot m 1 next m' := by
  have hbefore := h.sp
  have htext := hloaded.text_le_stack
  have hsize : m.memory.size = image.stack.stop := by
    rw [h.steady.size, hloaded.stackStop]
  have hlast : m.sp - 1 + 1 = m.sp := Nat.sub_add_cancel (by omega)
  exact
    { registers := hregisters
      cycles := hticks.cycles
      cycleLimit := hticks.cycleLimit
      steady := (h.steady.setWord (by omega) word).congr hticks.layout hticks.textEnd hmemory
        hticks.heap
      below := fun address hbelow => by
        rw [hmemory, Machine.getElem?_setWord_of_ne (by omega)]
      sp := by
        rw [hsp, hstack, List.length_cons]
        omega
      stack := by
        rw [hmemory, hsp, hstack]
        refine .cons (Machine.getElem?_setWord_self (by omega) word) ?_
        rw [hlast]
        exact h.stack.congr fun other hother _ => Machine.getElem?_setWord_of_ne (by omega) word }

end Shot

namespace Reaches

/-- A run begins with nothing on the stack. -/
theorem start (hstarting : image.Starting first) :
    image.Reaches tracing first 0
      { pc := first.pc
        bp := image.stack.stop
        acc := first.acc
        stack := []
        sink := first.host.sink } := by
  refine ⟨first, ?_, fun more => by rw [Nat.zero_add]⟩
  exact
    { registers := ⟨rfl, hstarting.bp, rfl, rfl⟩
      cycles := rfl
      cycleLimit := rfl
      steady := hstarting.steady
      below := fun _ _ => rfl
      sp := hstarting.sp
      stack := fun _ _ hword => by cases hword }

section Steps

variable (hloaded : image.Loaded)

include hloaded

/-- A step carries out the instruction of its line. -/
theorem step_eq (h : image.Shot first taken snapshot m) (hallows : first.Allows (taken + 1))
    (hline : (snapshot.pc, instr) ∈ image.lines) :
    Machine.step tracing m = Machine.execute (instr.linked image.entries)
      (m.advance tracing (instr.linked image.entries)) := by
  refine Machine.step_of_fetch (fun limit hlimit => ?_)
    (hloaded.fetch_eq h.steady hline h.registers.pc)
  have hle := hallows limit (h.cycleLimit.symm.trans hlimit)
  have hcycles := h.cycles
  omega

theorem step (h : image.Reaches tracing first taken snapshot) (hallows : first.Allows (taken + 1))
    (hline : (snapshot.pc, instr) ∈ image.lines)
    (hexecute : ∀ m, image.Shot first taken snapshot m →
      ∃ m', Machine.execute (instr.linked image.entries)
        (m.advance tracing (instr.linked image.entries)) = .ok none m' ∧ image.Shot m 1 next m') :
    image.Reaches tracing first (taken + 1) next := by
  obtain ⟨m, hshot, hruns⟩ := h
  obtain ⟨m', hresult, hnext⟩ := hexecute m hshot
  have hstep := (step_eq hloaded hshot hallows hline).trans hresult
  refine ⟨m', hshot.trans hnext, fun more => ?_⟩
  rw [Nat.add_assoc, Nat.add_comm 1, hruns, Machine.runSteps_succ_of_step hstep]

/-! ## Instructions -/

variable (h : image.Reaches tracing first taken snapshot) (hallows : first.Allows (taken + 1))

include h hallows

theorem jump {target : Nat} (hline : (snapshot.pc, .jump .jmp target) ∈ image.lines)
    (htarget : target < image.base.textEnd) :
    image.Reaches tracing first (taken + 1) { snapshot with pc := target } := by
  refine step hloaded h hallows hline fun m hshot => ?_
  have hkept := hshot.registers
  exact ⟨_, Machine.execute_jmp (hshot.isTarget hloaded htarget _),
    hshot.popped [] rfl
      ⟨rfl, hkept.bp, hkept.acc, Machine.sink_advance.trans hkept.sink⟩
      ⟨rfl, rfl, rfl, rfl, rfl⟩ rfl rfl⟩

theorem imm (hline : (snapshot.pc, .withWord .imm word) ∈ image.lines) :
    image.Reaches tracing first (taken + 1)
      { snapshot with pc := snapshot.pc + 2, acc := word } := by
  refine step hloaded h hallows hline fun m hshot => ⟨_, rfl, ?_⟩
  have hkept := hshot.registers
  exact hshot.popped [] rfl
    ⟨congrArg (· + 2) hkept.pc, hkept.bp, rfl, Machine.sink_advance.trans hkept.sink⟩
    ⟨rfl, rfl, rfl, rfl, rfl⟩ rfl rfl

theorem push (hroom : image.stack.start + snapshot.stack.length < image.stack.stop)
    (hline : (snapshot.pc, .plain .push) ∈ image.lines) :
    image.Reaches tracing first (taken + 1)
      { snapshot with pc := snapshot.pc + 1, stack := snapshot.acc :: snapshot.stack } := by
  refine step hloaded h hallows hline fun m hshot => ?_
  have hkept := hshot.registers
  refine ⟨_, Machine.execute_push (hshot.room hroom), hshot.pushed hloaded hroom rfl
    ⟨congrArg (· + 1) hkept.pc, hkept.bp, hkept.acc, Machine.sink_advance.trans hkept.sink⟩
    ⟨rfl, rfl, rfl, rfl, rfl⟩ ?_ rfl⟩
  rw [← hkept.acc]
  rfl

theorem call {name : String} {target : Nat}
    (hroom : image.stack.start + snapshot.stack.length < image.stack.stop)
    (hline : (snapshot.pc, .call name) ∈ image.lines)
    (hentry : image.entries.lookup name = some target) (htarget : target < image.base.textEnd) :
    image.Reaches tracing first (taken + 1)
      { snapshot with
        pc := target
        stack := Word.ofCount (snapshot.pc + 2) :: snapshot.stack } := by
  refine step hloaded h hallows hline fun m hshot => ?_
  have hkept := hshot.registers
  rw [Core.Instr.linked_call hentry]
  refine ⟨_, Machine.execute_call (hshot.isTarget hloaded htarget _) (hshot.room hroom),
    hshot.pushed hloaded hroom rfl
      ⟨rfl, hkept.bp, hkept.acc, Machine.sink_advance.trans hkept.sink⟩
      ⟨rfl, rfl, rfl, rfl, rfl⟩ ?_ rfl⟩
  rw [← hkept.pc]
  rfl

/-- The entry of a function without slots. -/
theorem enter (hroom : image.stack.start + snapshot.stack.length < image.stack.stop)
    (hline : (snapshot.pc, .withWord .ent 0) ∈ image.lines) :
    image.Reaches tracing first (taken + 1)
      { snapshot with
        pc := snapshot.pc + 2
        bp := image.stack.stop - (snapshot.stack.length + 1)
        stack := Word.ofCount snapshot.bp :: snapshot.stack } := by
  refine step hloaded h hallows hline fun m hshot => ?_
  have hkept := hshot.registers
  have hsp := hshot.sp
  have hroom' := hshot.room hroom
  have hentered : Machine.execute ((Instr.withWord .ent 0).linked image.entries)
      (m.advance tracing ((Instr.withWord .ent 0).linked image.entries)) = .ok none _ :=
    Machine.execute_ent (by decide) hroom' (Nat.zero_le _)
  rw [Machine.entered_zero] at hentered
  refine ⟨_, hentered, hshot.pushed hloaded hroom rfl
    ⟨congrArg (· + 2) hkept.pc, ?_, hkept.acc, Machine.sink_advance.trans hkept.sink⟩
    ⟨rfl, rfl, rfl, rfl, rfl⟩ ?_ rfl⟩
  · change m.sp - 1 = image.stack.stop - (snapshot.stack.length + 1)
    omega
  · rw [← hkept.bp]
    rfl

/-- The end of a function without slots. -/
theorem leave {saved target : Nat} {rest : List Word}
    (hstack : snapshot.stack = Word.ofCount saved :: Word.ofCount target :: rest)
    (hbp : snapshot.bp + snapshot.stack.length = image.stack.stop)
    (hsaved : image.stack.start ≤ saved ∧ saved ≤ image.stack.stop)
    (hline : (snapshot.pc, .plain .lev) ∈ image.lines) (htarget : target < image.base.textEnd) :
    image.Reaches tracing first (taken + 1)
      { snapshot with pc := target, bp := saved, stack := rest } := by
  refine step hloaded h hallows hline fun m hshot => ?_
  have hkept := hshot.registers
  have hsp := hshot.sp
  have hbottom : m.bp = m.sp := by
    rw [hkept.bp]
    omega
  have hheld := hshot.stack
  rw [hstack] at hheld
  have hlength := congrArg List.length hstack
  simp only [List.length_cons] at hlength
  have hlayout := hshot.layout
  have hsmall := hloaded.stack_lt
  let inner := m.advance tracing ((Instr.plain .lev).linked image.entries)
  have hfirst : inner.wordAt inner.bp = Word.ofCount saved :=
    Machine.wordAt_eq (hbottom.symm ▸ hheld.head)
  have hsecond : inner.wordAt (inner.bp + 1) = Word.ofCount target :=
    Machine.wordAt_eq (hbottom.symm ▸ hheld.tail.head)
  have hinner : inner.layout.stack = image.stack := hlayout
  have hbase : inner.bp = m.sp := hbottom
  have hleft : Machine.execute ((Instr.plain .lev).linked image.entries) inner = .ok none _ :=
    Machine.execute_lev (by rw [hinner]; omega) hfirst (by omega) (by rw [hinner]; exact hsaved.1)
      (by rw [hinner]; exact hsaved.2) hsecond (hshot.isTarget hloaded htarget _)
  refine ⟨_, hleft, hshot.popped [Word.ofCount saved, Word.ofCount target] hstack
    ⟨rfl, rfl, hkept.acc, Machine.sink_advance.trans hkept.sink⟩ ⟨rfl, rfl, rfl, rfl, rfl⟩ rfl ?_⟩
  change m.bp + 2 = m.sp + 2
  rw [hbottom]

/-- A string is printed, and its bytes are counted. -/
theorem printf {text : String} {template address : Nat} {rest : List Word}
    (htext : '\x00' ∉ text.toList)
    (htemplate : Memory.Holds first.memory template (stringWords "%s"))
    (htemplateStop : template + (stringWords "%s").length ≤ image.stack.start)
    (hstring : Memory.Holds first.memory address (stringWords text))
    (hstringStop : address + (stringWords text).length ≤ image.stack.start)
    (hmode : snapshot.sink.mode = .accepts)
    (hstack : snapshot.stack = Word.ofCount address :: Word.ofCount template :: rest)
    (hline : (snapshot.pc, .withWord (.trap .printf) (Word.ofCount 2)) ∈ image.lines) :
    image.Reaches tracing first (taken + 1)
      { snapshot with
        pc := snapshot.pc + 2
        acc := Word.ofCount (encode text).length
        stack := rest
        sink := { snapshot.sink with written := snapshot.sink.written ++ encode text } } := by
  refine step hloaded h hallows hline fun m hshot => ?_
  have hkept := hshot.registers
  have hsp := hshot.sp
  have hheld := hshot.stack
  rw [hstack] at hsp hheld
  have hsmall := hloaded.stack_lt
  have hstackStop : image.stack.start < image.stack.stop := hloaded.sound.ordered.stackStop
  let inner := m.advance tracing ((Instr.withWord (.trap .printf) (Word.ofCount 2)).linked
    image.entries)
  let popped : Machine := { inner with sp := inner.sp + 2 }
  have hinner : inner.layout.stack = image.stack := hshot.layout
  have hpop : Machine.popArguments (Word.ofCount 2) inner = .ok (inner.arguments 2) popped :=
    Machine.popArguments_eq (by decide) (by
      rw [hinner, ← hsp]
      exact Nat.add_le_add_left (by simp) _)
  have harguments : inner.arguments 2 = [Word.ofCount template, Word.ofCount address] := by
    have hwords : inner.words { start := inner.sp, stop := inner.sp + 2 } =
        [Word.ofCount address, Word.ofCount template] :=
      Machine.words_of_holds (@Memory.Holds.left _ _ [_, _] rest hheld)
    rw [Machine.arguments, hwords]
    rfl
  have hread : ∀ {start : Nat} {value : String}, '\x00' ∉ value.toList →
      Memory.Holds first.memory start (stringWords value) →
      start + (stringWords value).length ≤ image.stack.start →
      Machine.bytesAt (Word.ofCount start) popped = .ok (encode value) popped := by
    intro start value hvalue hwords hstop
    have hkept : Memory.Holds popped.memory start (stringWords value) :=
      hwords.congr fun other _ hother => hshot.below other (by omega)
    exact Machine.bytesAt_of_holds (by omega) (Text.Utf8.ne_zero_of_mem_encode hvalue) hkept
  have hsink : popped.host.sink = snapshot.sink := Machine.sink_advance.trans hkept.sink
  obtain ⟨host, hprintf, hwritten⟩ := Machine.printf_string (hread (by decide) htemplate
    htemplateStop) (hread htext hstring hstringStop) (by rw [hsink, hmode])
  have htrap : Machine.trap .printf (Word.ofCount 2) inner =
      .ok (Word.ofCount (encode text).length) { popped with host } := by
    rw [Machine.trap, Machine.bind_of_ok hpop, harguments]
    exact hprintf
  have hexecute : Machine.execute
      ((Instr.withWord (.trap .printf) (Word.ofCount 2)).linked image.entries) inner =
        .ok none { popped with host, acc := Word.ofCount (encode text).length } := by
    change (Machine.trap .printf (Word.ofCount 2) >>= fun word =>
      Machine.load word >>= fun _ => pure none) inner = _
    rw [Machine.bind_of_ok htrap]
    rfl
  rw [hsink] at hwritten
  exact ⟨_, hexecute, hshot.popped [Word.ofCount address, Word.ofCount template] hstack
    ⟨congrArg (· + 2) hkept.pc, hkept.bp, rfl, hwritten⟩ ⟨rfl, rfl, rfl, rfl, rfl⟩ rfl rfl⟩

/-- The program exits with the accumulator. -/
theorem exit (hline : (snapshot.pc, .plain .exit) ∈ image.lines) (more : Nat) :
    ∃ m, Machine.runSteps tracing (taken + 1 + more) first = .ok (some snapshot.acc) m ∧
      m.host.sink = snapshot.sink := by
  obtain ⟨m, hshot, hruns⟩ := h
  have hkept := hshot.registers
  have hstep : Machine.step tracing m = .ok (some m.acc) _ := step_eq hloaded hshot hallows hline
  refine ⟨m.advance tracing ((Instr.plain .exit).linked image.entries), ?_,
    Machine.sink_advance.trans hkept.sink⟩
  rw [Nat.add_assoc, Nat.add_comm 1, hruns, Machine.runSteps, Machine.bind_of_ok hstep,
    hkept.acc]
  rfl

end Steps

end Reaches

end Image

/-! ## Compiled programs -/

namespace Compiler.Leaves

variable {source : String} {machine machine' : Machine} {program : Program}
  {outline : Syntax.Outline} {hsound : machine.Sound} {layout : Layout}

/-- Data lies below the stack. -/
theorem data_le_stack (h : Leaves machine hsound source outline program machine') :
    machine.dataEnd + outline.data.length ≤ machine'.layout.stack.start := by
  have hdataEnd := h.dataEnd
  have hdataStop := h.sound.dataStop
  have hdata := h.sound.ordered.data_le_stack
  omega

/-- A program that is run for the first time finds the data that was compiled. -/
theorem holds_reset (h : Leaves machine hsound source outline program machine')
    (hintact : machine.IntactWith layout) (hok : compile source machine = .ok program machine') :
    Memory.Holds machine'.reset.memory machine.dataEnd outline.data := by
  have hcompiled := hintact.backed.compile source
  rw [Machine.after_of_ok hok] at hcompiled
  have hdataEnd := h.dataEnd
  obtain ⟨frame, compiler, hfits⟩ := h.fits
  have hdata : Memory.Holds machine'.memory machine.dataEnd outline.data := hfits.data
  exact hdata.congr fun other hstart hstop => hcompiled.getElem?_reset hstart (by omega)

end Compiler.Leaves

end WordC
