import WordC.Proofs.Program.Areas
import WordC.Proofs.Program.Startup

/-!
# Where a run of a program is

While no call is open, a run is in the start-up code and only goes ahead there. Otherwise it is in a
function. It gets into a function by calling it or by coming back to it.
-/

namespace WordC

open WordC.Core (Context Instr Place Section)
open Machine (runFrom)

namespace Core

variable {address slots : Nat} {body : Stmt} {line : Nat × Instr}

/-- Only the last instruction of a function has none behind it. -/
theorem exists_line_behind (h : line ∈ lines address (Section.functionCode address slots body))
    (hlev : line.2.opcode ≠ .lev) :
    ∃ next, (line.1 + line.2.cells.length, next) ∈
      lines address (Section.functionCode address slots body) := by
  have hlines : Section.functionCode address slots body =
      (.withWord .ent (Word.ofCount slots) :: body.code (address + 2)) ++ [.plain .lev] := rfl
  rw [hlines, lines_append] at h
  rcases List.mem_append.1 h with hfront | hlast
  · obtain ⟨⟨_, next⟩, hnext, rfl⟩ :=
      exists_line_of_mem_boundaries (behind_mem_boundaries hfront) (.plain .lev) []
    exact ⟨next, hlines ▸ hnext⟩
  · obtain rfl := List.mem_singleton.1 hlast
    exact absurd rfl hlev

end Core

/-- A step goes on behind the instruction or jumps, unless it calls or returns. -/
theorem Instruction.Moves.falls_or_jumps {instruction : Instruction} {pc next : Nat}
    {calls : List Nat} (h : instruction.Moves pc calls next) (hcall : instruction.opcode ≠ .call)
    (hlev : instruction.opcode ≠ .lev) :
    (instruction.opcode ≠ .jmp ∧ next = pc + instruction.width) ∨
      (instruction.opcode.isJump = true ∧ instruction.target? = some next) := by
  obtain ⟨opcode, operand⟩ := instruction
  cases opcode with
  | jmp => exact .inr ⟨rfl, h⟩
  | jz => exact h.imp (⟨nofun, ·⟩) (⟨rfl, ·⟩)
  | jnz => exact h.imp (⟨nofun, ·⟩) (⟨rfl, ·⟩)
  | call => exact absurd rfl hcall
  | lev => exact absurd rfl hlev
  | _ => exact .inl ⟨nofun, h⟩

/-- A step that does not end the run is none of an `EXIT`. -/
theorem Machine.ne_exit_of_step {tracing : Bool} {m m' : Machine} {instruction : Instruction}
    (hstep : Machine.step tracing m = .ok none m') (hfetch : m.fetch = .ok instruction) :
    instruction.opcode ≠ .exit := by
  rintro hexit
  rcases Machine.step_cases tracing m with
    ⟨limit, hstopped⟩ | ⟨error, -, hstopped⟩ | ⟨fetched, hfetched, hexecuted⟩
  · cases hstep.symm.trans hstopped
  · cases hstep.symm.trans hstopped
  · cases hfetch.symm.trans hfetched
    obtain ⟨opcode, operand⟩ := instruction
    cases hexit
    cases hstep.symm.trans hexecuted

namespace Image

variable {image : Image} {start m m' : Machine} {tracing : Bool} {instr : Instr}
  {n first last : Nat}

/-! ## Areas -/

/-- The instructions of the start-up code. -/
def startup (image : Image) : List (Nat × Instr) :=
  (image.start, .jump .jmp (Core.nextStart (image.start + 2) image.sections)) ::
    Core.startupLines (image.start + 2) image.sections

/-- The address of an instruction of the start-up code. -/
def InStartup (image : Image) (pc : Nat) : Prop :=
  ∃ instr, (pc, instr) ∈ image.startup

/-- The address of an instruction of a section. -/
def InSection (place : Nat × Section) (pc : Nat) : Prop :=
  ∃ instr, (pc, instr) ∈ Core.lines place.1 (place.2.body place.1)

/-- The address of an instruction of a function. -/
def InFunction (image : Image) (pc : Nat) : Prop :=
  ∃ place ∈ image.placed, place.2.name?.isSome ∧ InSection place pc

theorem mem_lines_of_startup {line : Nat × Instr} (h : line ∈ image.startup) :
    line ∈ image.lines := by
  rcases List.mem_cons.1 h with rfl | hlater
  · exact List.mem_cons_self
  · exact List.mem_cons_of_mem _ (Core.mem_lines_of_startup hlater)

theorem proceeds_of_startup {line : Nat × Instr} (h : line ∈ image.startup) :
    Core.Proceeds image.startup line := by
  rcases List.mem_cons.1 h with rfl | hlater
  · obtain ⟨next, hnext⟩ := Core.exists_startup_nextStart (image.start + 2) image.sections
    have hle := Core.le_nextStart (image.start + 2) image.sections
    exact
      { falls := fun hjmp => absurd rfl hjmp
        jumps := fun _ => ⟨_, next, by simp only; omega, List.mem_cons_of_mem _ hnext, rfl⟩ }
  · exact (Core.proceeds_of_startup hlater).mono fun _ hmem => List.mem_cons_of_mem _ hmem

theorem InSection.contains {place : Nat × Section} {pc : Nat} (h : InSection place pc) :
    (Core.extent place).contains pc := by
  obtain ⟨instr, hline⟩ := h
  have hbounds := Core.bounds_of_mem_lines hline
  have hpos : 0 < instr.cells.length := Nat.zero_lt_succ _
  rw [Extent.contains_iff, Core.extent, Section.width]
  cases hpart : place.2 with
  | function name arity slots body =>
      rw [hpart] at hbounds
      simp only [Section.body, Section.code] at hbounds ⊢
      omega
  | initializer address value =>
      rw [hpart] at hbounds
      simp only [Section.body, Section.code, Core.size_append] at hbounds ⊢
      omega

/-- The start-up code is no part of a function. -/
theorem InStartup.not_contains {pc : Nat} (h : image.InStartup pc) {place : Nat × Section}
    (hplaced : place ∈ image.placed) (hfunction : place.2.name?.isSome) :
    ¬(Core.extent place).contains pc := by
  obtain ⟨instr, hline⟩ := h
  rcases List.mem_cons.1 hline with heq | hlater
  · cases heq
    have hbounds := (Core.bounds_of_mem_placed hplaced).1
    rw [Extent.contains_iff]
    omega
  · exact Core.not_contains_of_startup hlater hplaced hfunction

theorem InFunction.not_inStartup {pc : Nat} (h : image.InFunction pc) : ¬image.InStartup pc := by
  obtain ⟨place, hplaced, hfunction, hinside⟩ := h
  exact fun hstartup => hstartup.not_contains hplaced hfunction hinside.contains

namespace Loaded

variable (hloaded : image.Loaded) {pc next address : Nat} {calls : List Nat} {area : Nat → Prop}

include hloaded

/-- A jump of the program goes to the address that its code names. -/
theorem target?_linked {target : Nat} {other : Instr} (htarget : (target, other) ∈ image.lines)
    (hoperand : instr.operand = .known (Word.ofCount target)) :
    (instr.linked image.entries).target? = some target := by
  have hinside := hloaded.lt_textEnd htarget
  have htext := hloaded.sound.textStop
  have hsmall := hloaded.textStop_lt
  obtain ⟨opcode, operand⟩ := instr
  cases hoperand
  exact Word.count?_ofCount (by simp only at hinside; omega)

/-- A call goes to the entry of a function. -/
theorem entry_of_call (hline : (pc, instr) ∈ image.lines) (hcall : instr.opcode = .call)
    (hmoves : (instr.linked image.entries).Moves pc calls next) :
    ∃ name arity slots body, instr = .call name ∧
      (next, .function name arity slots body) ∈ image.placed := by
  obtain ⟨inner, hfunctions, hproper⟩ := hloaded.proper hline
  obtain ⟨name, rfl⟩ := hproper.call hcall
  have hsome := (hproper.callee name rfl).2
  rw [hfunctions] at hsome
  obtain ⟨arity, harity⟩ := Option.isSome_iff_exists.1 hsome
  obtain ⟨address, slots, body, hplaced, hentry⟩ := hloaded.functions name arity harity
  have henter : (address, .withWord .ent (Word.ofCount slots)) ∈ image.lines :=
    Core.mem_lines_programCode.2 (.inr (.inl ⟨_, hplaced, List.mem_cons_self⟩))
  have hinside := hloaded.lt_textEnd henter
  have htext := hloaded.sound.textStop
  have hsmall := hloaded.textStop_lt
  have htarget : ((Instr.call name).linked image.entries).target? = some address := by
    change (Word.ofCount ((image.entries.lookup name).getD 0)).count? = _
    rw [hentry, Option.getD_some]
    exact Word.count?_ofCount (by simp only at hinside; omega)
  cases htarget.symm.trans hmoves
  exact ⟨name, arity, slots, body, rfl, hplaced⟩

/-- An instruction stays where the one behind it and those that it may jump to are. -/
theorem stays (hline : (pc, instr) ∈ image.lines)
    (hmoves : (instr.linked image.entries).Moves pc calls next)
    (hfalls : instr.opcode ≠ .lev → instr.opcode ≠ .jmp → area (pc + instr.cells.length))
    (hjumps : instr.opcode.isJump = true → ∃ target other, area target ∧
      (target, other) ∈ image.lines ∧ instr.operand = .known (Word.ofCount target)) :
    (instr.linked image.entries).Stays pc next area image.InFunction where
  call := by
    intro hcall
    have hopcode : instr.opcode = .call := hcall
    obtain ⟨name, arity, slots, body, -, hplaced⟩ := hloaded.entry_of_call hline hopcode hmoves
    refine ⟨?_, _, hplaced, rfl, _, List.mem_cons_self⟩
    rw [Core.Instr.width_linked]
    exact hfalls (by rw [hopcode]; nofun) (by rw [hopcode]; nofun)
  other := by
    intro hcall hlev
    rcases hmoves.falls_or_jumps hcall hlev with ⟨hjmp, rfl⟩ | ⟨hjump, htarget⟩
    · rw [Core.Instr.width_linked]
      exact hfalls hlev hjmp
    · obtain ⟨target, other, harea, hother, hoperand⟩ := hjumps hjump
      cases (hloaded.target?_linked hother hoperand).symm.trans htarget
      exact harea

/-- A function goes on in itself. -/
theorem stays_of_inSection {place : Nat × Section} (hplaced : place ∈ image.placed)
    (hfunction : place.2.name?.isSome) (hinside : InSection place pc)
    (hline : (pc, instr) ∈ image.lines)
    (hmoves : (instr.linked image.entries).Moves pc calls next) :
    (instr.linked image.entries).Stays pc next (InSection place) image.InFunction := by
  obtain ⟨found, hfound⟩ := hinside
  have hbody (line : Nat × Instr) (h : line ∈ Core.lines place.1 (place.2.body place.1)) :
      line ∈ image.lines :=
    Core.mem_lines_programCode.2 (.inr (.inl ⟨place, hplaced, h⟩))
  cases Core.eq_of_mem_lines (hbody _ hfound) hline rfl
  refine hloaded.stays hline hmoves (fun hlev _ => ?_) fun hjump => ?_
  · obtain ⟨address, part⟩ := place
    cases part with
    | function name arity slots body => exact Core.exists_line_behind hfound hlev
    | initializer slot value => cases hfunction
  · obtain ⟨⟨target, other⟩, hother, hoperand⟩ := Section.exists_line_of_jump hfound hjump
    exact ⟨target, other, ⟨other, hother⟩, hbody _ hother, hoperand⟩

theorem stays_of_inFunction (hinside : image.InFunction pc) (hline : (pc, instr) ∈ image.lines)
    (hmoves : (instr.linked image.entries).Moves pc calls next) :
    (instr.linked image.entries).Stays pc next image.InFunction image.InFunction := by
  obtain ⟨place, hplaced, hfunction, hinside⟩ := hinside
  have hstays := hloaded.stays_of_inSection hplaced hfunction hinside hline hmoves
  exact
    { call := fun hcall =>
        ⟨⟨place, hplaced, hfunction, (hstays.call hcall).1⟩, (hstays.call hcall).2⟩
      other := fun hcall hlev => ⟨place, hplaced, hfunction, hstays.other hcall hlev⟩ }

/-- The start-up code goes on in itself, and ahead. -/
theorem stays_of_inStartup (hinside : image.InStartup pc) (hline : (pc, instr) ∈ image.lines)
    (hexit : instr.opcode ≠ .exit) (hmoves : (instr.linked image.entries).Moves pc calls next) :
    (instr.linked image.entries).Stays pc next
      (fun address => image.InStartup address ∧ pc < address) image.InFunction := by
  obtain ⟨found, hfound⟩ := hinside
  cases Core.eq_of_mem_lines (mem_lines_of_startup hfound) hline rfl
  have hproceeds := proceeds_of_startup hfound
  refine hloaded.stays hline hmoves (fun _ hjmp => ?_) fun hjump => ?_
  · have hpos : 0 < instr.cells.length := Nat.zero_lt_succ _
    exact ⟨hproceeds.falls hjmp hexit, by omega⟩
  · obtain ⟨target, other, hahead, hother, hoperand⟩ := hproceeds.jumps hjump
    exact ⟨target, other, ⟨⟨other, hother⟩, hahead⟩, mem_lines_of_startup hother, hoperand⟩

end Loaded

/-! ## Runs -/

/-- A run of a program that spares its stack. -/
structure Tour (image : Image) (start : Machine) (tracing : Bool) : Prop where
  loaded : image.Loaded
  ready : image.Ready start
  spares : ∀ steps, start.SparesStack image.start tracing steps

/-- What is known of a step that does not end the run. -/
structure Goes (image : Image) (start : Machine) (tracing : Bool) (n : Nat) (m m' : Machine)
    (instr : Instr) : Prop where
  line : (m.pc, instr) ∈ image.lines
  fetch : m.fetch = .ok (instr.linked image.entries)
  stays : instr.opcode ≠ .exit
  moves : (instr.linked image.entries).Moves m.pc (start.openCalls image.start tracing n) m'.pc
  calls : start.openCalls image.start tracing (n + 1) =
    (instr.linked image.entries).returns m.pc (start.openCalls image.start tracing n)

namespace Tour

variable (htour : image.Tour start tracing)

include htour

theorem confined (hrun : runFrom image.start tracing n start = .ok none m) :
    start.Confined (start.layout.text.stop ≤ ·) m := by
  have hconfined := htour.ready.intact.after_runFrom image.start tracing n
  rwa [Machine.after_of_ok hrun] at hconfined

theorem intact (hrun : runFrom image.start tracing n start = .ok none m) : m.Intact :=
  (htour.confined hrun).intact

theorem steady (hrun : runFrom image.start tracing n start = .ok none m) : image.Steady m := by
  have hintact := htour.intact hrun
  refine htour.ready.starting.steady.confined (htour.confined hrun) ?_
  exact
    { free := fun block hmem => hintact.heap.inside (List.mem_append_left _ hmem)
      live := fun block hmem => hintact.heap.inside (List.mem_append_right _ hmem) }

theorem runs_zero (hrun : runFrom image.start tracing 0 start = .ok none m) :
    m = start.started image.start := by
  cases (Machine.runFrom_eq_ok_none htour.ready.isRunnable).1 hrun
  rfl

theorem safe (hrun : runFrom image.start tracing n start = .ok none m) (more : Nat) :
    image.Safe (image.whole tracing) (start.openCalls image.start tracing n) more m := by
  refine Machine.safe_of_runFrom htour.ready.isRunnable (Nat.zero_le n) (fun m hstarted => ?_)
    (fun _ _ _ _ _ => not_false) (htour.spares n) hrun more
  rw [htour.runs_zero hstarted]
  exact htour.loaded.safe_started htour.ready tracing

theorem harmless (hrun : runFrom image.start tracing n start = .ok none m) :
    m.Harmless image.listing tracing :=
  ((htour.safe hrun 1).resolve_left not_false).1

theorem located (hrun : runFrom image.start tracing n start = .ok none m) :
    ∃ instr, (m.pc, instr) ∈ image.lines ∧ m.fetch = .ok (instr.linked image.entries) := by
  obtain ⟨instruction, hlisted, hfetch⟩ := (htour.harmless hrun).located
  obtain ⟨instr, hline, rfl⟩ := mem_linked.1 hlisted
  exact ⟨instr, hline, hfetch⟩

theorem step_eq (hrun : runFrom image.start tracing n start = .ok none m)
    (hnext : runFrom image.start tracing (n + 1) start = .ok none m') :
    Machine.step tracing m = .ok none m' := by
  obtain ⟨before, hbefore, hstep⟩ :=
    (Machine.runFrom_succ_eq_ok_none htour.ready.isRunnable).1 hnext
  cases hrun.symm.trans hbefore
  exact hstep

theorem goes (hrun : runFrom image.start tracing n start = .ok none m)
    (hnext : runFrom image.start tracing (n + 1) start = .ok none m') :
    ∃ instr, image.Goes start tracing n m m' instr := by
  have hstep := htour.step_eq hrun hnext
  have hsafe := (htour.safe hrun 2).resolve_left not_false
  obtain ⟨instruction, hfetched, hmoves, -⟩ :=
    hsafe.2 (htour.spares (n + 1) n (Nat.lt_succ_self n) m hrun) m' hstep
  obtain ⟨instr, hline, hfetch⟩ := htour.located hrun
  cases hfetched.symm.trans hfetch
  refine ⟨instr, ?_⟩
  exact
    { line := hline
      fetch := hfetch
      stays := fun hexit => Machine.ne_exit_of_step hstep hfetch hexit
      moves := hmoves
      calls := Machine.openCalls_succ hrun hfetch }

/-- A run stays in two areas if each instruction outside of calls stays in the first one. -/
theorem nested (area : Nat → Prop) (hle : first ≤ n)
    (hfirst : ∀ m, runFrom image.start tracing first start = .ok none m →
      Nested area image.InFunction m.pc (start.openCalls image.start tracing first))
    (hstays : ∀ between m m' instr, first ≤ between → between < n →
      image.Goes start tracing between m m' instr →
      start.openCalls image.start tracing between = [] → area m.pc →
        (instr.linked image.entries).Stays m.pc m'.pc area image.InFunction)
    (hrun : runFrom image.start tracing n start = .ok none m) :
    Nested area image.InFunction m.pc (start.openCalls image.start tracing n) := by
  induction hle generalizing m with
  | refl => exact hfirst m hrun
  | @step n hle ih =>
      obtain ⟨before, hbefore, -⟩ :=
        (Machine.runFrom_succ_eq_ok_none htour.ready.isRunnable).1 hrun
      obtain ⟨instr, hgoes⟩ := htour.goes hbefore hrun
      have hnested := ih (fun between m m' instr hfirst hlt =>
        hstays between m m' instr hfirst (Nat.lt_succ_of_lt hlt)) hbefore
      rw [hgoes.calls]
      refine hnested.moves hgoes.moves (fun hnil harea => ?_) fun hinside => ?_
      · exact hstays n before m instr hle (Nat.lt_succ_self n) hgoes hnil harea
      · exact htour.loaded.stays_of_inFunction hinside hgoes.line hgoes.moves

/-- While no call is open, a run is in the start-up code, and otherwise in a function. -/
theorem nested_startup (hrun : runFrom image.start tracing n start = .ok none m) :
    Nested image.InStartup image.InFunction m.pc (start.openCalls image.start tracing n) := by
  refine htour.nested image.InStartup (Nat.zero_le n) (fun m hstarted => ?_)
    (fun between m m' instr _ _ hgoes _ hstartup => ?_) hrun
  · rw [htour.runs_zero hstarted]
    exact ⟨_, List.mem_cons_self⟩
  · have hstays :=
      htour.loaded.stays_of_inStartup hstartup hgoes.line hgoes.stays hgoes.moves
    exact
      { call := fun hcall => ⟨(hstays.call hcall).1.1, (hstays.call hcall).2⟩
        other := fun hcall hlev => (hstays.other hcall hlev).1 }

theorem inStartup (hrun : runFrom image.start tracing n start = .ok none m)
    (hnone : start.openCalls image.start tracing n = []) : image.InStartup m.pc := by
  have hnested := htour.nested_startup hrun
  rw [hnone] at hnested
  exact hnested

theorem inFunction (hrun : runFrom image.start tracing n start = .ok none m)
    (hopen : start.openCalls image.start tracing n ≠ []) : image.InFunction m.pc :=
  (htour.nested_startup hrun).inner_of_ne_nil hopen

/-- The start-up code is run ahead: behind an instruction come only later ones. -/
theorem grows (hlt : first < last) (hnone : start.openCalls image.start tracing first = [])
    (hrun : runFrom image.start tracing first start = .ok none m)
    (hnone' : start.openCalls image.start tracing last = [])
    (hrun' : runFrom image.start tracing last start = .ok none m') : m.pc < m'.pc := by
  have hnested := htour.nested (fun address => image.InStartup address ∧ m.pc < address)
    (Nat.succ_le_of_lt hlt) (fun next hnext => ?_)
    (fun between before after instr _ _ hgoes _ hahead => ?_) hrun'
  · rw [hnone'] at hnested
    exact hnested.2
  · obtain ⟨instr, hgoes⟩ := htour.goes hrun hnext
    have hmoves := hgoes.moves
    rw [hgoes.calls, hnone]
    rw [hnone] at hmoves
    exact .of_stays (htour.loaded.stays_of_inStartup (htour.inStartup hrun hnone) hgoes.line
      hgoes.stays hmoves) hmoves
  · have hstays :=
      htour.loaded.stays_of_inStartup hahead.1 hgoes.line hgoes.stays hgoes.moves
    exact
      { call := fun hcall =>
          ⟨(hstays.call hcall).1.imp_right (Nat.lt_trans hahead.2), (hstays.call hcall).2⟩
        other := fun hcall hlev =>
          (hstays.other hcall hlev).imp_right (Nat.lt_trans hahead.2) }

/-- A function is entered by a call of its entry, and otherwise only returned to. -/
theorem enters (hrun : runFrom image.start tracing n start = .ok none m)
    (hnext : runFrom image.start tracing (n + 1) start = .ok none m') {place : Nat × Section}
    (hplaced : place ∈ image.placed) (hfunction : place.2.name?.isSome)
    (houtside : ¬(Core.extent place).contains m.pc) (hinside : (Core.extent place).contains m'.pc) :
    ∃ instruction, m.fetch = .ok instruction ∧
      (instruction.opcode = .call ∧ m'.pc = place.1 ∨
        instruction.opcode = .lev ∧ start.openCalls image.start tracing n =
          m'.pc :: start.openCalls image.start tracing (n + 1)) := by
  obtain ⟨instr, hgoes⟩ := htour.goes hrun hnext
  refine ⟨_, hgoes.fetch, ?_⟩
  have hmoves := hgoes.moves
  have hcalls := hgoes.calls
  by_cases hcall : instr.opcode = .call
  · obtain ⟨name, arity, slots, body, -, hentry⟩ :=
      htour.loaded.entry_of_call hgoes.line hcall hmoves
    have hstart : InSection (m'.pc, .function name arity slots body) m'.pc :=
      ⟨_, List.mem_cons_self⟩
    cases Core.eq_of_mem_placed hplaced hentry hinside hstart.contains
    exact .inl ⟨hcall, rfl⟩
  by_cases hlev : instr.opcode = .lev
  · have hopcode : (instr.linked image.entries).opcode = .lev := hlev
    simp only [Instruction.Moves, hopcode] at hmoves
    simp only [Instruction.returns, hopcode] at hcalls
    refine .inr ⟨hlev, ?_⟩
    rw [hcalls]
    exact (List.cons_head?_tail hmoves).symm
  · exfalso
    by_cases hnone : start.openCalls image.start tracing n = []
    · have hstays := htour.loaded.stays_of_inStartup (htour.inStartup hrun hnone) hgoes.line
        hgoes.stays hmoves
      exact (hstays.other hcall hlev).1.not_contains hplaced hfunction hinside
    · obtain ⟨other, hother, hothers, hhere⟩ := htour.inFunction hrun hnone
      have hstays := htour.loaded.stays_of_inSection hother hothers hhere hgoes.line hmoves
      cases Core.eq_of_mem_placed hplaced hother hinside (hstays.other hcall hlev).contains
      exact houtside hhere.contains

end Tour

end Image

end WordC
