import WordC.Proofs.Machine.Calls
import WordC.Proofs.Machine.Runs
import WordC.Proofs.Program.Statements

/-!
# Safe programs

The start-up code of a program runs with an empty stack: it gives the globals their initial values,
calls `main` and exits with the stack empty again. A compiled program is safe for any number of
steps on the machine it was compiled into, and again whenever that machine has been rewound.
-/

namespace WordC

open WordC.Core (Context Instr Place Section)

namespace Image

variable {image : Image} {stretch : Stretch} {steps start : Nat} {m m' : Machine}

/-- The program runs its start-up code: there is nothing on the stack. -/
structure Starting (image : Image) (m : Machine) : Prop where
  steady : image.Steady m
  sp : m.sp = image.stack.stop
  bp : m.bp = image.stack.stop

theorem Starting.framed (hloaded : image.Loaded) (h : image.Starting m) : image.Framed 0 0 m where
  steady := h.steady
  start := by
    rw [h.sp]
    exact Nat.le_of_lt hloaded.sound.ordered.stackStop
  slots := Nat.le_of_eq (h.sp.trans h.bp.symm)
  stop := Nat.le_of_eq h.bp
  parameters := fun hpositive => absurd hpositive (Nat.lt_irrefl 0)

theorem Starting.after (h : image.Starting m) {address : Nat}
    (hafter : image.After m 0 address m') :
    image.Starting m' where
  steady := hafter.steady
  sp := hafter.sp.trans h.sp
  bp := hafter.bp.trans h.bp

theorem Starting.stored (h : image.Starting m) {place : Place} {word : Word} {address : Nat}
    (hstored : image.Stored m place word address m') : image.Starting m' where
  steady := hstored.steady
  sp := hstored.sp.trans h.sp
  bp := hstored.bp.trans h.bp

namespace Part

variable (hpart : image.Part stretch.text)

include hpart

theorem safe_exit (hstarting : image.Starting m) (hline : (start, .plain .exit) ∈ stretch.text)
    (hpc : m.pc = start) : image.Safe stretch [] steps m := by
  refine Safe.weaken (hpart.safe_line hstarting.steady hline rfl hpc ?_ ?_)
  · intro hfetch
    have hlayout := hstarting.steady.stack_eq
    refine ⟨hfetch, ?_, ?_⟩
    · exact hstarting.sp.trans (congrArg Extent.stop hlayout.symm)
    · exact hstarting.bp.trans (congrArg Extent.stop hlayout.symm)
  · intro _ m' hok
    cases hok

theorem safe_sections (sections : List Section)
    (hcode : stretch.Has start (Core.sectionsCode start sections))
    (hvalid : ∀ part ∈ sections, part.Valid image.context) (hstarting : image.Starting m)
    (hpc : m.pc = Core.nextStart start sections) : image.Safe stretch [] steps m := by
  induction sections generalizing start steps m with
  | nil =>
      obtain ⟨hcall, hexit⟩ := hcode.finale
      have hframed := hstarting.framed hpart.loaded
      have hhere : image.After m 0 start m := .of_registers hframed rfl rfl rfl rfl hpc rfl rfl
      exact Safe.weaken (hpart.safe_call hframed hhere hcall hpart.loaded.main
        (hpart.lt_textEnd hexit) (hpart.callsSafe steps) fun m' hafter =>
          hpart.safe_exit (hstarting.after hafter) hexit hafter.pc)
  | cons part rest ih =>
      obtain ⟨hfirst, hrest⟩ := hcode.sections rfl
      have hothers := fun other hmem => hvalid other (List.mem_cons_of_mem _ hmem)
      cases part with
      | function name arity slots body => exact ih hrest hothers hstarting hpc
      | initializer address value =>
          obtain ⟨hdata, hvalue⟩ := hvalid _ List.mem_cons_self
          have hplace : (Place.global address).Valid (image.context.inside 0 0) := hdata
          obtain ⟨hfront, hstore, hover⟩ := hfirst.initializer
          refine hpart.safe_expr value hvalue hfront (hpart.lt_textEnd hstore.store.1)
            (hstarting.framed hpart.loaded) hpc (fun fewer _ => hpart.callsSafe fewer)
            fun first hfirst => ?_
          have hevaluated := hstarting.after hfirst
          refine hpart.safe_store (hevaluated.framed hpart.loaded) hfirst.pc hplace hstore
            fun second hsecond => ?_
          have hstored := hevaluated.stored hsecond
          exact hpart.safe_jmp (hstored.framed hpart.loaded) hsecond.pc hover
            (hpart.nextStart_lt hrest) fun third hthird =>
              ih hrest hothers (hstored.after hthird) hthird.pc

theorem safe_program
    (hcode : stretch.Has image.start (Core.programCode image.start image.sections))
    (hstarting : image.Starting m) (hpc : m.pc = image.start) :
    image.Safe stretch [] steps m := by
  obtain ⟨hjump, hrest⟩ := has_cons.1 hcode
  exact hpart.safe_jmp (hstarting.framed hpart.loaded) hpc hjump
    (hpart.nextStart_lt hrest) fun m' hafter =>
      hpart.safe_sections image.sections hrest hpart.loaded.sections (hstarting.after hafter)
        hafter.pc

end Part

end Image

namespace Machine

variable {machine start m m' : Machine} {listing : List (Nat × Instruction)}
  {goal : List Nat → Machine → Prop} {tracing : Bool} {steps entry : Nat}

/-! ## Whole runs -/

/-- Machines that are ready to run what has been compiled into a machine: with any cycle limit, any
host, and rewound after any run. -/
inductive Prepared (machine : Machine) : Machine → Prop where
  | compiled : Prepared machine machine
  | limited {m : Machine} (h : Prepared machine m) (limit : Option Nat) :
      Prepared machine (m.setCycleLimit limit)
  | hosted {m : Machine} (h : Prepared machine m) (host : Host) : Prepared machine { m with host }
  | rewound {m : Machine} (h : Prepared machine m) (entry : Nat) (tracing : Bool) (steps : Nat) :
      Prepared machine (m.after (runFrom entry tracing steps)).reset

/-- Whether no `memset` or `read` overlaps the stack in the first steps of a run. -/
def SparesStack (start : Machine) (entry : Nat) (tracing : Bool) (steps : Nat) : Prop :=
  ∀ fewer < steps, ∀ m, runFrom entry tracing fewer start = .ok none m → ¬m.OverwritesStack

/-- A run that cannot go wrong as long as it spares its stack: every instruction that it fetches is
one of the listing, and it ends with one of the faults that a program may end with or with an empty
stack. -/
structure RunsSafely (start : Machine) (listing : List (Nat × Instruction)) (entry : Nat)
    (tracing : Bool) : Prop where
  step : ∀ steps m, start.SparesStack entry tracing steps →
    runFrom entry tracing steps start = .ok none m → m.Harmless listing tracing
  fault : ∀ steps error m', start.SparesStack entry tracing steps →
    runFrom entry tracing steps start = .error error m' →
      ∃ fewer < steps, ∃ m, runFrom entry tracing fewer start = .ok none m ∧ m.MayFault error
  exit : ∀ steps word m', start.SparesStack entry tracing steps →
    runFrom entry tracing steps start = .ok (some word) m' →
      m'.sp = m'.layout.stack.stop ∧ m'.bp = m'.layout.stack.stop

/-- As long as a run has not reached a goal, it comes to safe machines only. -/
theorem safe_of_runFrom {first : Nat} (hrunnable : start.status.isRunnable) (hle : first ≤ steps)
    (hsafe : ∀ m, runFrom entry tracing first start = .ok none m → ∀ more,
      Safe listing goal tracing (start.openCalls entry tracing first) more m)
    (hbefore : ∀ fewer, first ≤ fewer → fewer < steps → ∀ m,
      runFrom entry tracing fewer start = .ok none m →
        ¬goal (start.openCalls entry tracing fewer) m)
    (hspares : start.SparesStack entry tracing steps)
    (hrun : runFrom entry tracing steps start = .ok none m) (more : Nat) :
    Safe listing goal tracing (start.openCalls entry tracing steps) more m := by
  induction hle generalizing m more with
  | refl => exact hsafe m hrun more
  | @step steps hle ih =>
      obtain ⟨before, hgoing, hstep⟩ := (runFrom_succ_eq_ok_none hrunnable).1 hrun
      have hfewer := ih (fun fewer hfirst hlt => hbefore fewer hfirst (Nat.lt_succ_of_lt hlt))
        (fun fewer hlt => hspares fewer (Nat.lt_succ_of_lt hlt)) hgoing (more + 1)
      have hno := hbefore steps hle (Nat.lt_succ_self steps) before hgoing
      obtain ⟨instruction, hfetch, -, hnext⟩ := (hfewer.resolve_left hno).2
        (hspares steps (Nat.lt_succ_self steps) before hgoing) m hstep
      rw [openCalls_succ hgoing hfetch]
      exact hnext

/-- Runs that are safe for any number of steps, whatever happens. -/
theorem runsSafely_of_safe (hrunnable : start.status.isRunnable)
    (hsafe : ∀ steps, Safe listing (fun _ _ => False) tracing [] steps (start.started entry)) :
    start.RunsSafely listing entry tracing := by
  have hharmless : ∀ steps m, start.SparesStack entry tracing steps →
      runFrom entry tracing steps start = .ok none m → m.Harmless listing tracing := by
    intro steps m hspares hrun
    have hfirst : ∀ m, runFrom entry tracing 0 start = .ok none m → ∀ more,
        Safe listing (fun _ _ => False) tracing [] more m := by
      intro m hstarted
      cases (runFrom_eq_ok_none hrunnable).1 hstarted
      exact hsafe
    have hthere := safe_of_runFrom hrunnable (Nat.zero_le steps) hfirst
      (fun _ _ _ _ _ => not_false) hspares hrun 1
    exact (hthere.resolve_left not_false).1
  -- A run that ends does so in a step of a machine that is still running.
  have hlast : ∀ steps result, start.SparesStack entry tracing steps →
      runSteps tracing steps (start.started entry) = result → (∀ m', result ≠ .ok none m') →
      ∃ fewer < steps, ∃ m, runFrom entry tracing fewer start = .ok none m ∧ m.MayEnd result := by
    rintro steps _ hspares rfl hended
    obtain ⟨fewer, hlt, m, hsteps, hstep⟩ := exists_step_of_runSteps hended
    have hrun : runFrom entry tracing fewer start = .ok none m :=
      (runFrom_eq_ok_none hrunnable).2 hsteps
    have hm := hharmless fewer m (fun less hless => hspares less (by omega)) hrun
    exact ⟨fewer, hlt, m, hrun, hstep ▸ hm.outcome⟩
  refine
    { step := hharmless
      fault := fun steps error m' hspares hrun => ?_
      exit := fun steps word m' hspares hrun => ?_ }
  · rw [runFrom_eq hrunnable] at hrun
    obtain ⟨stopped, hresult⟩ := settled_eq_error hrun
    exact hlast steps _ hspares hresult fun _ hok => by cases hok
  · rw [runFrom_eq hrunnable] at hrun
    obtain ⟨stopped, hresult, hsp, hbp, hlayout⟩ := settled_eq_ok_some hrun
    obtain ⟨fewer, hlt, m, hm, hend⟩ := hlast steps _ hspares hresult fun _ hok => by cases hok
    rw [hsp, hbp, hlayout]
    exact hend.2

end Machine

/-! ## Compiled programs -/

namespace Image

variable {image : Image} {m m' : Machine}

/-- A machine that may run the program from its entry. -/
structure Ready (image : Image) (m : Machine) : Prop where
  intact : m.Intact
  starting : image.Starting m
  isRunnable : m.status.isRunnable = true

theorem Steady.confined (h : image.Steady m)
    (hconfined : m.Confined (m.layout.text.stop ≤ ·) m') (hheap : m'.heap.Inside m'.layout.heap) :
    image.Steady m' where
  layout := hconfined.keeps.layout.trans h.layout
  textEnd := hconfined.keeps.textEnd.trans h.textEnd
  size := hconfined.keeps.size.trans h.size
  text := by
    intro address hbefore
    rw [hconfined.keeps.memory address (by rw [h.layout]; exact Nat.not_le.2 hbefore)]
    exact h.text address hbefore
  heap := hheap

theorem Ready.started (h : image.Ready m) (entry : Nat) : image.Starting (m.started entry) where
  steady := h.starting.steady.congr rfl rfl rfl rfl
  sp := h.starting.sp
  bp := h.starting.bp

/-- All of a program, to no end. -/
def whole (image : Image) (tracing : Bool) : Stretch :=
  { text := image.lines, goal := fun _ _ => False, tracing }

theorem Loaded.safe_started (hloaded : image.Loaded) (h : image.Ready m) (tracing : Bool)
    (steps : Nat) : image.Safe (image.whole tracing) [] steps (m.started image.start) :=
  @Part.safe_program image (image.whole tracing) _ _ hloaded.part (fun _ hline => hline)
    (h.started image.start) rfl

/-- A machine that is rewound may run the program again. -/
theorem Ready.rewound (h : image.Ready m) (hran : m.Confined (m.layout.text.stop ≤ ·) m') :
    image.Ready m'.reset := by
  have hreset := hran.intact.confined_reset
  have hconfined := hran.trans (hran.keeps.layout ▸ hreset)
  have hlayout : m'.layout.stack = image.stack := by
    rw [hran.keeps.layout, h.starting.steady.layout]
    rfl
  exact
    { intact := hreset.intact
      starting :=
        { steady := h.starting.steady.confined hconfined (Heap.inside_ofRegion _)
          sp := congrArg Extent.stop hlayout
          bp := congrArg Extent.stop hlayout }
      isRunnable := rfl }

/-- The text of a program is in the machine that it has been compiled into. -/
theorem steady_base (hintact : image.base.Intact) : image.Steady image.base where
  layout := rfl
  textEnd := rfl
  size := rfl
  text := fun _ _ => rfl
  heap :=
    { free := fun _ hmem => hintact.heap.inside (List.mem_append_left _ hmem)
      live := fun _ hmem => hintact.heap.inside (List.mem_append_right _ hmem) }

/-- The text stays whatever is done to make the machine ready for a run. -/
theorem Steady.of_prepared (hintact : image.base.Intact) (h : image.base.Prepared m) :
    m.Intact ∧ image.Steady m := by
  induction h with
  | compiled => exact ⟨hintact, steady_base hintact⟩
  | limited _ limit ih =>
      exact ⟨(Machine.IntactWith.setCycleLimit ⟨ih.1, rfl⟩ limit).intact,
        ih.2.congr rfl rfl rfl rfl⟩
  | @hosted m _ host ih =>
      have hmoved : m.Confined (fun _ => False) { m with host } :=
        ih.1.move ih.1.sp_bounds ih.1.bp_bounds
      exact ⟨hmoved.intact, ih.2.congr rfl rfl rfl rfl⟩
  | rewound _ entry tracing steps ih =>
      have hran := ih.1.after_runFrom entry tracing steps
      have hreset := hran.intact.confined_reset
      exact ⟨hreset.intact, ih.2.confined (hran.trans (hran.keeps.layout ▸ hreset))
        (Heap.inside_ofRegion _)⟩

theorem Ready.of_prepared (hbase : image.Ready image.base) (h : image.base.Prepared m) :
    image.Ready m := by
  obtain ⟨hintact, hsteady⟩ := Steady.of_prepared hbase.intact h
  induction h with
  | compiled => exact hbase
  | limited hprepared limit ih | hosted hprepared host ih =>
      obtain ⟨hbefore, hheld⟩ := Steady.of_prepared hbase.intact hprepared
      have hready := ih hbefore hheld
      exact
        { intact := hintact
          starting :=
            { steady := hsteady
              sp := hready.starting.sp
              bp := hready.starting.bp }
          isRunnable := hready.isRunnable }
  | rewound hprepared entry tracing steps ih =>
      obtain ⟨hbefore, hheld⟩ := Steady.of_prepared hbase.intact hprepared
      exact (ih hbefore hheld).rewound (hbefore.after_runFrom entry tracing steps)

end Image

open Compiler

/-- A machine on which nothing is going on: the stack is empty and a run may begin. -/
structure Machine.Idle (m : Machine) : Prop where
  intact : m.Intact
  sp : m.sp = m.layout.stack.stop
  bp : m.bp = m.layout.stack.stop
  isRunnable : m.status.isRunnable = true

theorem Machine.idle_of_create {poolSize : Nat} {host : Host} {machine : Machine}
    (hcreate : Machine.create poolSize host = .ok machine) : machine.Idle := by
  have hnew := Machine.eq_blank_of_create hcreate
  exact
    { intact := (Machine.intact_create hcreate).1
      sp := congrArg Machine.sp hnew
      bp := congrArg Machine.bp hnew
      isRunnable := congrArg (fun new : Machine => new.status.isRunnable) hnew }

theorem Machine.idle_clear {m : Machine} (h : m.Intact) : m.clear.Idle where
  intact := (Machine.IntactWith.clear ⟨h, rfl⟩).intact
  sp := rfl
  bp := rfl
  isRunnable := rfl

section Ready

variable {source : String} {machine machine' : Machine} {program : Program}
  {outline : Syntax.Outline} {hsound : machine.Sound}

/-- Compiling leaves the machine idle. -/
theorem Machine.Idle.compile (hidle : machine.Idle)
    (hok : WordC.compile source machine = .ok program machine')
    (hleaves : Leaves machine hsound source outline program machine') : machine'.Idle := by
  have hcompiled := Machine.IntactWith.compile ⟨hidle.intact, rfl⟩ source
  rw [Machine.after_of_ok hok] at hcompiled
  obtain ⟨frame, compiler, hfits⟩ := hleaves.fits
  have hlayout : machine'.layout = machine.layout := hfits.machine.layout
  refine
    { intact := hcompiled.intact
      sp := ?_
      bp := ?_
      isRunnable := hfits.machine.isRunnable.trans hidle.isRunnable }
  · rw [hlayout, ← hidle.sp]
    exact hfits.machine.sp
  · rw [hlayout, ← hidle.bp]
    exact hfits.machine.bp

/-- What has been compiled into an idle machine may be run there. -/
theorem ready_of_idle (hidle : machine.Idle) (hok : compile source machine = .ok program machine')
    (hleaves : Leaves machine hsound source outline program machine') :
    (imageOf program machine' machine.dataEnd outline).Ready machine' := by
  have hcompiled := hidle.compile hok hleaves
  exact
    { intact := hcompiled.intact
      starting :=
        { steady := Image.steady_base hcompiled.intact
          sp := hcompiled.sp
          bp := hcompiled.bp }
      isRunnable := hcompiled.isRunnable }

/-- What has been compiled into a new machine may be run there. -/
theorem ready_of_compile {poolSize : Nat} {host : Host}
    (hcreate : Machine.create poolSize host = .ok machine)
    (hok : compile source machine = .ok program machine')
    (hleaves : Leaves machine hsound source outline program machine') :
    (imageOf program machine' machine.dataEnd outline).Ready machine' :=
  ready_of_idle (Machine.idle_of_create hcreate) hok hleaves

end Ready

/-- A compiled program cannot go wrong: on the machine it was compiled into, every run from its
entry fetches the instructions of its text and nothing else, as long as no `memset` or `read`
overlaps the stack, and ends with a fault of its own making or with an empty stack. -/
theorem compile_runsSafely {source : String} {poolSize : Nat} {host : Host}
    {machine machine' start : Machine} {program : Program} (hpool : poolSize < 2 ^ 63)
    (hsource : source.length < 2 ^ 63) (hcreate : Machine.create poolSize host = .ok machine)
    (hok : compile source machine = .ok program machine') (hprepared : machine'.Prepared start)
    (tracing : Bool) :
    ∃ listing, Decodes program.entry
        (machine'.words { start := program.entry, stop := machine'.textEnd }) listing ∧
      start.RunsSafely listing program.entry tracing := by
  obtain ⟨hintact, hsize⟩ := Machine.intact_create hcreate
  obtain ⟨file, outline, hreads, hleaves⟩ := reads_of_compile hintact.sound hok
  have hloaded := loaded_of_compile hsource (hsize ▸ hpool) hreads hleaves
  have hready := (ready_of_compile hcreate hok hleaves).of_prepared hprepared
  refine ⟨_, ?_, Machine.runsSafely_of_safe hready.isRunnable
    (hloaded.safe_started hready tracing)⟩
  rw [hleaves.words hreads.awaiting]
  refine Core.decodes_cells fun line hline => ?_
  obtain ⟨inner, -, hproper⟩ := hloaded.proper hline
  exact hproper.isComplete_linked _

theorem compile_runsSafely_countdown :
    256 < 2 ^ 63 ∧ countdown.length < 2 ^ 63 ∧ Machine.create 256 {} = .ok Machine.small ∧
    ∃ program machine', compile countdown Machine.small = .ok program machine' ∧
      machine'.Prepared (machine'.setCycleLimit (some 100)) ∧
      ∃ listing, Decodes program.entry
          (machine'.words { start := program.entry, stop := machine'.textEnd }) listing ∧
        (machine'.setCycleLimit (some 100)).RunsSafely listing program.entry true := by
  have hlength : countdown.length < 2 ^ 63 := by decide +kernel
  obtain ⟨program, machine', hok⟩ := isCompiled_iff.1 isCompiled_countdown
  have hprepared : machine'.Prepared (machine'.setCycleLimit (some 100)) :=
    .limited .compiled (some 100)
  exact ⟨by decide, hlength, Machine.create_small, program, machine', hok, hprepared,
    compile_runsSafely (by decide) hlength Machine.create_small hok hprepared true⟩

end WordC
