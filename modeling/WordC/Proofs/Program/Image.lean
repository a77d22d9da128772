import WordC.Proofs.Machine.Traps
import WordC.Proofs.Program.Patches

/-!
# A program in the text of a machine

The text of a program does not change while it runs. What an instruction is can be read off the
place of the code that it belongs to, and after the fetch it does what its opcode says.
-/

namespace WordC

open WordC.Core (Context Instr Section)

/-- Code whose instructions are among these, at its address. -/
def Core.Has (text : List (Nat × Instr)) (start : Nat) (code : List Instr) : Prop :=
  ∀ line ∈ Core.lines start code, line ∈ text

/-- The instructions that a run is followed through. -/
structure Route where
  text : List (Nat × Instr)
  tracing : Bool

/-- Code that is on a route, at its address. -/
abbrev Route.Has (route : Route) (start : Nat) (code : List Instr) : Prop :=
  Core.Has route.text start code

/-- An address of an instruction that is on a route. -/
def Route.Passes (route : Route) (pc : Nat) : Prop :=
  ∃ instr, (pc, instr) ∈ route.text

/-! ## Images -/

/-- A program in the text of a machine, which has just been compiled. -/
structure Image where
  base : Machine
  /-- Where the program begins. -/
  start : Nat
  sections : List Section
  context : Context

namespace Image

variable {image : Image} {m m' : Machine}

def entries (image : Image) : List (String × Nat) :=
  Core.entries (image.start + 2) image.sections

def lines (image : Image) : List (Nat × Instr) :=
  Core.lines image.start (Core.programCode image.start image.sections)

def placed (image : Image) : List (Nat × Section) :=
  Core.placed (image.start + 2) image.sections

/-- The program is complete and stays inside of its machine. -/
structure Loaded (image : Image) : Prop where
  sound : image.base.Sound
  small : image.base.layout.poolSize < 2 ^ 63
  textEnd : image.base.textEnd =
    image.start + Core.size (Core.programCode image.start image.sections)
  words : ∀ index cell,
    (Core.cells (Core.programCode image.start image.sections))[index]? = some cell →
      image.base.memory[image.start + index]? = some (cell.word image.entries)
  sections : ∀ part ∈ image.sections, part.Valid image.context
  dataStart : image.base.layout.text.stop ≤ image.context.data.start
  dataStop : image.context.data.stop ≤ image.base.layout.data.stop
  slots : ∀ name arity slots body, Section.function name arity slots body ∈ image.sections →
    slots < 2 ^ 63
  functions : ∀ name arity, image.context.functions name = some arity →
    ∃ address slots body, (address, .function name arity slots body) ∈ image.placed ∧
      image.entries.lookup name = some address
  main : image.context.functions "main" = some 0

/-- Code that is part of the program, at its address. -/
abbrev Has (image : Image) (start : Nat) (code : List Instr) : Prop :=
  Core.Has image.lines start code

theorem has_append {text : List (Nat × Instr)} {start : Nat} {front back : List Instr} :
    Core.Has text start (front ++ back) ↔
      Core.Has text start front ∧ Core.Has text (start + Core.size front) back := by
  unfold Core.Has
  rw [Core.lines_append]
  exact List.forall_mem_append

theorem has_cons {text : List (Nat × Instr)} {start : Nat} {instr : Instr} {rest : List Instr} :
    Core.Has text start (instr :: rest) ↔
      (start, instr) ∈ text ∧ Core.Has text (start + instr.cells.length) rest :=
  List.forall_mem_cons

/-- All of a program. -/
def route (image : Image) (tracing : Bool) : Route :=
  { text := image.lines, tracing }

/-- A part of a program that has all of its functions. -/
structure Part (image : Image) (text : List (Nat × Instr)) : Prop where
  loaded : image.Loaded
  lines : ∀ line ∈ text, line ∈ image.lines
  functions : ∀ address name arity slots body,
    (address, .function name arity slots body) ∈ image.placed →
      Core.Has text address (Section.functionCode address slots body)

theorem Loaded.part {image : Image} (h : image.Loaded) : image.Part image.lines where
  loaded := h
  lines := fun _ hline => hline
  functions := fun _ _ _ _ _ hplaced _ hline =>
    Core.mem_lines_programCode.2 (.inr (.inl ⟨_, hplaced, hline⟩))

/-- What no instruction changes, and where the heap is. -/
structure Steady (image : Image) (m : Machine) : Prop where
  layout : m.layout = image.base.layout
  textEnd : m.textEnd = image.base.textEnd
  size : m.memory.size = image.base.memory.size
  text : ∀ address < image.base.layout.text.stop, m.memory[address]? = image.base.memory[address]?
  heap : m.heap.Inside m.layout.heap

end Image

namespace Core

/-- The words of an instruction stand in the code where its line says. -/
theorem getElem?_of_mem_lines {start : Nat} {code : List Instr} {line : Nat × Instr}
    (h : line ∈ lines start code) :
    ∃ offset, line.1 = start + offset ∧ offset + line.2.cells.length ≤ size code ∧
      ∀ index < line.2.cells.length,
        (cells code)[offset + index]? = line.2.cells[index]? := by
  induction code generalizing start with
  | nil => cases h
  | cons instr rest ih =>
      rw [size_cons, cells_cons]
      rcases List.mem_cons.1 h with rfl | hmem
      · refine ⟨0, rfl, by simp only; omega, fun index hindex => ?_⟩
        rw [Nat.zero_add, List.getElem?_append_left hindex]
      · obtain ⟨offset, haddress, hsize, hcells⟩ := ih hmem
        refine ⟨instr.cells.length + offset, by omega, by omega, fun index hindex => ?_⟩
        rw [List.getElem?_append_right (by omega), ← hcells index hindex]
        congr 1
        omega

end Core

namespace Image

variable {image : Image} {m m' : Machine} {line : Nat × Instr}

namespace Loaded

variable (hloaded : image.Loaded)

include hloaded

theorem getElem?_memory (hline : line ∈ image.lines) {index : Nat} {cell : Core.Cell}
    (hcell : line.2.cells[index]? = some cell) :
    image.base.memory[line.1 + index]? = some (cell.word image.entries) := by
  obtain ⟨offset, haddress, -, hcells⟩ := Core.getElem?_of_mem_lines hline
  obtain ⟨hindex, -⟩ := List.getElem?_eq_some_iff.1 hcell
  rw [haddress, Nat.add_assoc]
  exact hloaded.words (offset + index) cell (by rw [hcells index hindex, hcell])

theorem stop_le (hline : line ∈ image.lines) :
    line.1 + line.2.cells.length ≤ image.base.textEnd := by
  obtain ⟨offset, haddress, hsize, -⟩ := Core.getElem?_of_mem_lines hline
  rw [hloaded.textEnd]
  omega

theorem textStop_lt : image.base.layout.text.stop < 2 ^ 63 :=
  Nat.lt_trans hloaded.sound.ordered.text_lt_poolSize hloaded.small

/-- The address of an instruction, or the one behind it unless the program ends there, may be jumped
to. -/
theorem isTarget (hsteady : image.Steady m) {address : Nat}
    (haddress : address < image.base.textEnd) : m.IsTarget address := by
  have htextStop := hloaded.sound.textStop
  have hsmall := hloaded.textStop_lt
  refine ⟨?_, ?_, by omega⟩
  · rw [hsteady.layout, hloaded.sound.ordered.textStart]
    exact Nat.zero_le _
  · rw [hsteady.textEnd]
    exact haddress

theorem lt_textEnd (hline : line ∈ image.lines) : line.1 < image.base.textEnd := by
  have hstop := hloaded.stop_le hline
  have hpos : 0 < line.2.cells.length := Nat.zero_lt_succ _
  omega

theorem proper (hline : line ∈ image.lines) :
    ∃ inner : Context, inner.functions = image.context.functions ∧ line.2.Proper inner :=
  Core.exists_proper hloaded.sections (by rw [hloaded.main]; rfl) hline

/-- At the address of an instruction the machine fetches it. -/
theorem fetch_eq (hsteady : image.Steady m) (hline : line ∈ image.lines) (hpc : m.pc = line.1) :
    m.fetch = .ok (line.2.linked image.entries) := by
  obtain ⟨address, instr⟩ := line
  obtain ⟨inner, -, hproper⟩ := hloaded.proper hline
  have hstop := hloaded.stop_le hline
  have htextStop := hloaded.sound.textStop
  have hwordAt : ∀ index cell, instr.cells[index]? = some cell →
      m.wordAt (address + index) = cell.word image.entries := by
    intro index cell hcell
    obtain ⟨hindex, -⟩ := List.getElem?_eq_some_iff.1 hcell
    have hword := hloaded.getElem?_memory hline hcell
    rw [← hsteady.text (address + index) (by simp only at hstop; omega)] at hword
    rw [Machine.wordAt, Array.getD_eq_getD_getElem?, hword]
    rfl
  subst hpc
  refine Machine.fetch_eq ?_ ?_ (hproper.isComplete_linked image.entries) hproper.patched
    (hwordAt 0 _ rfl) fun word hword => ?_
  · rw [hsteady.layout, hloaded.sound.ordered.textStart]
    exact Nat.zero_le _
  · rw [Core.Instr.width_linked, hsteady.textEnd]
    exact hstop
  · obtain ⟨opcode, operand⟩ := instr
    cases operand with
    | none => cases hword
    | known known =>
        cases hword
        exact hwordAt 1 _ rfl
    | entry name =>
        rw [hwordAt 1 _ rfl]
        exact Option.some.inj hword

end Loaded

theorem Part.lt_textEnd {text : List (Nat × Instr)} (hpart : image.Part text)
    (hline : line ∈ text) : line.1 < image.base.textEnd :=
  hpart.loaded.lt_textEnd (hpart.lines line hline)

end Image

/-! ## Compiled programs -/

namespace Compiler

open Syntax (Outline)

/-- The image of a program that has been compiled into a machine with this much data. -/
def imageOf (program : Program) (machine : Machine) (data : Nat) (outline : Outline) : Image where
  base := machine
  start := program.entry
  sections := outline.sections
  context := outline.context data

variable {source : String} {machine machine' : Machine} {program : Program} {file : Syntax.File}
  {outline : Outline} {hsound : machine.Sound}

theorem Leaves.layout (h : Leaves machine hsound source outline program machine') :
    machine'.layout = machine.layout := by
  obtain ⟨frame, compiler, hfits⟩ := h.fits
  exact hfits.machine.layout

theorem Leaves.dataEnd (h : Leaves machine hsound source outline program machine') :
    machine'.dataEnd = machine.dataEnd + outline.data.length := by
  obtain ⟨frame, compiler, hfits⟩ := h.fits
  exact hfits.dataEnd

/-- What has been compiled is ready to run, unless a function has more slots than a word can
count. -/
theorem loaded_of_slots (hpool : machine.layout.poolSize < 2 ^ 63)
    (hreads : Reads source machine file outline)
    (hleaves : Leaves machine hsound source outline program machine')
    (hslots : ∀ name arity slots body, Section.function name arity slots body ∈ outline.sections →
      slots < 2 ^ 63) :
    (imageOf program machine' machine.dataEnd outline).Loaded where
  sound := hleaves.sound
  small := by
    change machine'.layout.poolSize < 2 ^ 63
    rw [hleaves.layout]
    exact hpool
  textEnd := hleaves.textEnd
  words := fun _ _ hcell => hleaves.getElem?_memory hreads.awaiting hcell
  sections := hreads.valid.sections
  dataStart := by
    change machine'.layout.text.stop ≤ machine.dataEnd
    rw [hleaves.layout, ← hsound.ordered.data]
    exact hsound.dataStart
  dataStop := by
    have hstop := hleaves.sound.dataStop
    rw [hleaves.dataEnd] at hstop
    exact hstop
  slots := hslots
  functions := fun _ _ hfunction =>
    hreads.exists_section (Outline.arityOf?_eq_some.1 hfunction) (program.entry + 2)
  main := Outline.arityOf?_eq_some.2 hreads.main

/-- A source has fewer characters and a pool fewer words than a word can count. -/
theorem loaded_of_compile (hsource : source.length < 2 ^ 63)
    (hpool : machine.layout.poolSize < 2 ^ 63) (hreads : Reads source machine file outline)
    (hleaves : Leaves machine hsound source outline program machine') :
    (imageOf program machine' machine.dataEnd outline).Loaded := by
  refine loaded_of_slots hpool hreads hleaves fun name arity slots body hmem => ?_
  obtain ⟨tokens, htokenize, htokens⟩ := hreads.tokens
  have hlength := length_tokenize_le htokenize
  have hwithin := @Outline.SlotsWithin.file Outline.empty _ _ source.length _
    (fun _ _ _ _ hnone => absurd hnone List.not_mem_nil)
    (by rw [← htokens, List.length_map]; exact hlength) hreads.resolves
  exact Nat.lt_of_le_of_lt (hwithin name arity slots body hmem) hsource

end Compiler

end WordC
