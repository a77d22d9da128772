import WordC.Proofs.Program.Simulation
import WordC.Proofs.Program.Startup
import WordC.Proofs.Target.Linking

/-!
# Compiled programs are correct

A run of a compiled program ends as the source says: with the value of `main`, with a division by
zero, or not at all. Only the size of the stack may come in between.
-/

namespace WordC

open WordC.Core (Context Instr Place Section Store)
open Machine (Meets)
open Syntax (Evaluation Stop)

/-! ## Runs -/

namespace Machine

variable {route : Route} {tracing : Bool} {goal : Machine → Prop} {steps more least : Nat}
  {m m' : Machine}

/-- Some run finds the stack full. -/
def StackOverflows (tracing : Bool) (m : Machine) : Prop :=
  ∃ pc steps m', runSteps tracing steps m = .error (.stackOverflow pc) m'

theorem Overflows.stackOverflows (h : m.Overflows tracing) : m.StackOverflows tracing := by
  obtain ⟨pc, m', hstep⟩ := h
  exact ⟨pc, 1, m', by rw [runSteps, bind_of_error hstep]⟩

theorem StackOverflows.of_step (hstep : step tracing m = .ok none m')
    (h : m'.StackOverflows tracing) : m.StackOverflows tracing := by
  obtain ⟨pc, steps, last, hrun⟩ := h
  exact ⟨pc, steps + 1, last, (runSteps_succ_of_step hstep).trans hrun⟩

theorem Leads.exists_runSteps (h : Leads route goal m) : m.StackOverflows route.tracing ∨
    ∃ steps m', runSteps route.tracing steps m = .ok none m' ∧ goal m' := by
  obtain ⟨steps, -, ⟨m', hrun, hgoal⟩ | ⟨_, m', hrun, pc, rfl⟩⟩ := Walks.exists_runSteps h
  · exact .inr ⟨steps, m', hrun, hgoal⟩
  · exact .inl ⟨pc, steps, m', hrun⟩

theorem Lasts.exists_runSteps (h : Lasts tracing least m) :
    m.StackOverflows tracing ∨ ∃ m', runSteps tracing least m = .ok none m' := by
  induction h with
  | zero => exact .inr ⟨_, rfl⟩
  | overflow hfull => exact .inl hfull.stackOverflows
  | step hstep _ ih =>
      rcases ih with hfull | ⟨last, hrun⟩
      · exact .inl (.of_step hstep hfull)
      · exact .inr ⟨last, (runSteps_succ_of_step hstep).trans hrun⟩

/-- A run does what an evaluation says. An evaluation that was cut short has been followed for
`least` steps. -/
def EndsAs (tracing : Bool) (least : Nat) (m : Machine) : Except Stop Word → Prop
  | .ok value => ∃ steps m', runSteps tracing steps m = .ok (some value) m'
  | .error .divisionByZero =>
      ∃ pc steps m', runSteps tracing steps m = .error (.divisionByZero pc) m'
  | .error .unfinished => ∃ m', runSteps tracing least m = .ok none m'
  | .error .undefined => True

theorem Meets.endsAs {good : Word → Store → Machine → Prop} {outcome : Except Stop (Word × Store)}
    (h : Meets route least good m outcome)
    (hgood : ∀ value store m', good value store m' →
      ∃ stopped, step route.tracing m' = .ok (some value) stopped) :
    m.StackOverflows route.tracing ∨ m.EndsAs route.tracing least (outcome.map Prod.fst) := by
  cases outcome with
  | ok result =>
      refine (Leads.exists_runSteps h).imp_right fun hreached => ?_
      obtain ⟨steps, last, hrun, hlast⟩ := hreached
      obtain ⟨stopped, hstep⟩ := hgood _ _ last hlast
      exact ⟨steps + 1, stopped, by rw [runSteps_of_last hrun, runSteps, bind_of_ok hstep]; rfl⟩
  | error stop =>
      cases stop with
      | divisionByZero =>
          refine (Leads.exists_runSteps h).imp_right fun hreached => ?_
          obtain ⟨steps, last, hrun, hlast⟩ := hreached
          obtain ⟨pc, stopped, hstep⟩ := hlast
          exact ⟨pc, steps + 1, stopped,
            by rw [runSteps_of_last hrun, runSteps, bind_of_error hstep]⟩
      | unfinished => exact Lasts.exists_runSteps h
      | undefined => exact .inr trivial

/-- Without a limit to what it is given, an evaluation with a meaning says what a run ends with. -/
theorem endsAs_iff {evaluate : Nat → Except Stop Word}
    (hdefined : ∀ depth, evaluate depth ≠ .error .undefined)
    (h : ∀ depth, m.EndsAs tracing depth (evaluate depth)) :
    (∀ value, (∃ steps m', runSteps tracing steps m = .ok (some value) m') ↔
        ∃ depth, evaluate depth = .ok value) ∧
      ((∃ pc steps m', runSteps tracing steps m = .error (.divisionByZero pc) m') ↔
        ∃ depth, evaluate depth = .error .divisionByZero) := by
  -- As many steps as a run has taken to end are enough for the evaluation.
  have hcases : ∀ steps, (∀ m', runSteps tracing steps m ≠ .ok none m') →
      (∃ value m', evaluate steps = .ok value ∧ runSteps tracing steps m = .ok (some value) m') ∨
        ∃ pc m', evaluate steps = .error .divisionByZero ∧
          runSteps tracing steps m = .error (.divisionByZero pc) m' := by
    intro steps hended
    have hends := h steps
    cases hevaluate : evaluate steps with
    | ok value =>
        rw [hevaluate] at hends
        obtain ⟨more, m', hrun⟩ := hends
        have hsame := runSteps_unique hended fun _ hnone => by cases hrun.symm.trans hnone
        exact .inl ⟨value, m', rfl, hsame.trans hrun⟩
    | error stop =>
        rw [hevaluate] at hends
        cases stop with
        | divisionByZero =>
            obtain ⟨pc, more, m', hrun⟩ := hends
            have hsame := runSteps_unique hended fun _ hnone => by cases hrun.symm.trans hnone
            exact .inr ⟨pc, m', rfl, hsame.trans hrun⟩
        | unfinished =>
            obtain ⟨m', hrun⟩ := hends
            exact absurd hrun (hended m')
        | undefined => exact absurd hevaluate (hdefined steps)
  refine ⟨fun value => ⟨?_, ?_⟩, ?_, ?_⟩
  · rintro ⟨steps, m', hrun⟩
    have hended : ∀ m', runSteps tracing steps m ≠ .ok none m' :=
      fun _ hnone => by cases hrun.symm.trans hnone
    rcases hcases steps hended with ⟨found, last, hevaluate, hsame⟩ | ⟨pc, last, -, hsame⟩
    · cases hrun.symm.trans hsame
      exact ⟨steps, hevaluate⟩
    · cases hrun.symm.trans hsame
  · rintro ⟨depth, hevaluate⟩
    have hends := h depth
    rw [hevaluate] at hends
    exact hends
  · rintro ⟨pc, steps, m', hrun⟩
    have hended : ∀ m', runSteps tracing steps m ≠ .ok none m' :=
      fun _ hnone => by cases hrun.symm.trans hnone
    rcases hcases steps hended with ⟨found, last, -, hsame⟩ | ⟨other, last, hevaluate, -⟩
    · cases hrun.symm.trans hsame
    · exact ⟨steps, hevaluate⟩
  · rintro ⟨depth, hevaluate⟩
    have hends := h depth
    rw [hevaluate] at hends
    exact hends

variable {entry : Nat}

theorem exists_runFrom_ok (h : m.status.isRunnable) (value : Word) :
    (∃ steps m', runFrom entry tracing steps m = .ok (some value) m') ↔
      ∃ steps m', runSteps tracing steps (m.started entry) = .ok (some value) m' := by
  simp only [runFrom_eq h]
  constructor
  · rintro ⟨steps, m', hrun⟩
    obtain ⟨stopped, hresult, -⟩ := settled_eq_ok_some hrun
    exact ⟨steps, stopped, hresult⟩
  · rintro ⟨steps, m', hrun⟩
    exact ⟨steps, _, by rw [hrun]; rfl⟩

theorem exists_runFrom_error (h : m.status.isRunnable) (error : Error) :
    (∃ steps m', runFrom entry tracing steps m = .error error m') ↔
      ∃ steps m', runSteps tracing steps (m.started entry) = .error error m' := by
  simp only [runFrom_eq h]
  constructor
  · rintro ⟨steps, m', hrun⟩
    obtain ⟨stopped, hresult⟩ := settled_eq_error hrun
    exact ⟨steps, stopped, hresult⟩
  · rintro ⟨steps, m', hrun⟩
    exact ⟨steps, _, by rw [hrun]; rfl⟩

end Machine

namespace Image

variable {image : Image} {tracing : Bool} {start depth : Nat} {store : Store} {m m' : Machine}

/-- The machine is about to exit with a value. -/
structure Exiting (image : Image) (value : Word) (m : Machine) : Prop where
  steady : image.Steady m
  unlimited : m.cycleLimit = none
  line : (m.pc, .plain .exit) ∈ image.lines
  acc : m.acc = value

namespace Loaded

variable (hloaded : image.Loaded)

include hloaded

theorem step_of_exiting {value : Word} (h : image.Exiting value m) :
    ∃ stopped, Machine.step tracing m = .ok (some value) stopped := by
  have hfetch := hloaded.fetch_eq h.steady h.line rfl
  rw [Machine.step_of_fetch (by simp [h.unlimited]) hfetch, ← h.acc]
  exact ⟨_, rfl⟩

/-- The initializers run one after the other, and then `main`. -/
theorem meets_sections (hnodup : (Core.names image.sections).Nodup) (sections : List Section)
    (hcode : image.Has start (Core.sectionsCode start sections))
    (hvalid : ∀ part ∈ sections, part.Valid image.context) (hshows : image.Shows 0 0 store m)
    (hpc : m.pc = Core.nextStart start sections) :
    Meets (image.route tracing) depth (fun value _ => image.Exiting value) m
      ((Core.storeInitials image.sections depth sections >>= fun _ =>
        Core.invoke image.sections depth "main" []) store) := by
  have hpart : image.Part (image.route tracing).text := hloaded.part
  have hinvokes : image.InvokesMeet (image.route tracing) depth := hpart.invokesMeet hnodup depth
  induction sections generalizing start m store with
  | nil =>
      obtain ⟨hcall, hexit⟩ := hcode.finale
      have hpushed : image.Pushed 0 0 m 0 start [] store m :=
        { after := .of_registers hshows.framed rfl rfl rfl rfl hpc rfl rfl
          length := rfl
          words := fun _ _ hvalue => by cases hvalue
          shows := hshows }
      refine (hpart.meets_call hinvokes hshows.framed hpushed hcall hloaded.main
        (hloaded.lt_textEnd hexit)).weaken fun value inner last hgood => ?_
      obtain ⟨hafter, hacc, hshown⟩ := hgood
      exact ⟨hafter.steady, hshown.unlimited, by rw [hafter.pc]; exact hexit, hacc⟩
  | cons part rest ih =>
      obtain ⟨hsection, hrest⟩ := hcode.sections rfl
      have hothers := fun other hmem => hvalid other (List.mem_cons_of_mem _ hmem)
      cases part with
      | function name arity slots body => exact ih hrest hothers hshows hpc
      | initializer address value =>
          obtain ⟨hdata, hvalue⟩ := hvalid _ List.mem_cons_self
          have hplace : (Place.global address).Valid (image.context.inside 0 0) := hdata
          obtain ⟨hfront, hstore, hover⟩ := hsection.initializer
          let storeFirst : Evaluation Store Unit := do
            let word ← value.eval (Core.invoke image.sections depth)
            modify (Store.set (.global address) word)
          have hinitialized : Meets (image.route tracing) depth (fun _ inner m' =>
              image.Shows 0 0 inner m' ∧ m'.pc = Core.nextStart
                (start + (Section.initializer address value).width start) rest)
              m (storeFirst store) := by
            refine (hpart.meets_expr hinvokes value hvalue hfront
              (hpart.lt_textEnd hstore.store.1) hshows hpc).bind fun word inner first hfirst => ?_
            obtain ⟨hafter, rfl, hshown⟩ := hfirst
            refine Meets.of_leads (hpart.leads_store hshown hafter.pc hplace hstore)
              fun second hsecond => ?_
            have hset := hsecond.shows hloaded hshown hplace
            exact Meets.of_leads (hpart.steps_jmp hset hsecond.stored.pc hover
              (hpart.nextStart_lt hrest)).leads
              fun third hthird => Meets.pure ⟨hthird.shows hloaded hset, hthird.after.pc⟩
          have hfirst : (Core.storeInitials image.sections depth
                (.initializer address value :: rest) >>=
                fun _ => Core.invoke image.sections depth "main" []) =
              storeFirst >>= fun _ => Core.storeInitials image.sections depth rest >>=
                fun _ => Core.invoke image.sections depth "main" [] := by
            simp only [Core.storeInitials, storeFirst, bind_assoc]
          rw [hfirst]
          exact hinitialized.bind fun _ _ _ hgood => ih hrest hothers hgood.1 hgood.2

theorem meets_program (hnodup : (Core.names image.sections).Nodup)
    (hshows : image.Shows 0 0 store m) (hpc : m.pc = image.start) :
    Meets (image.route tracing) depth (fun value _ => image.Exiting value) m
      ((Core.storeInitials image.sections depth image.sections >>= fun _ =>
        Core.invoke image.sections depth "main" []) store) := by
  have hcode : image.Has image.start (Core.programCode image.start image.sections) :=
    fun _ hline => hline
  obtain ⟨hjump, hrest⟩ := has_cons.1 hcode
  have hpart : image.Part (image.route tracing).text := hloaded.part
  exact Meets.of_leads (hpart.steps_jmp hshows hpc hjump
    (hpart.nextStart_lt hrest)).leads fun first hfirst =>
      hloaded.meets_sections hnodup image.sections hrest hloaded.sections
        (hfirst.shows hloaded hshows) hfirst.after.pc

/-- A run does what the sections of the program say. -/
theorem endsAs_evaluate (hnodup : (Core.names image.sections).Nodup)
    (hshows : image.Shows 0 0 store m) (hpc : m.pc = image.start) (depth : Nat) :
    m.StackOverflows tracing ∨
      m.EndsAs tracing depth (Core.evaluate image.sections depth store) := by
  have hevaluate : Core.evaluate image.sections depth store =
      ((Core.storeInitials image.sections depth image.sections >>= fun _ =>
        Core.invoke image.sections depth "main" []) store).map Prod.fst := by
    simp only [Core.evaluate]
    generalize (Core.storeInitials image.sections depth image.sections >>= fun _ =>
      Core.invoke image.sections depth "main" []) store = outcome
    cases outcome <;> rfl
  have hmeets : Meets (image.route tracing) depth (fun value _ => image.Exiting value) m _ :=
    hloaded.meets_program hnodup hshows hpc
  rw [hevaluate]
  exact hmeets.endsAs fun value _ last hexiting => hloaded.step_of_exiting hexiting

end Loaded

end Image

/-! ## Compiled programs -/

open Compiler

/-- The store of a machine outside of functions. -/
def Machine.initialStore (m : Machine) : Store
  | .global address => m.wordAt address
  | .slot _ | .parameter _ => 0

section Compiled

variable {source : String} {machine machine' : Machine} {program : Program} {file : Syntax.File}
  {outline : Syntax.Outline} {hsound : machine.Sound} {name : String} {place : Place}

/-- Variables of the file are zero in what has been compiled. -/
theorem Compiler.Leaves.initialStore
    (hleaves : Leaves machine hsound source outline program machine')
    (hknown : Syntax.Known file.constants (file.objects []) machine.dataEnd outline.data
      outline.globals)
    (hlookup : outline.globals.lookup name = some (.object place)) :
    machine'.initialStore place = 0 := by
  obtain ⟨address, rfl⟩ := hknown.names.isGlobal name place hlookup
  obtain ⟨hstart, hzero⟩ := hknown.zero name address hlookup
  obtain ⟨frame, compiler, hfits⟩ := hleaves.fits
  have hword : machine'.memory[machine.dataEnd + (address - machine.dataEnd)]? = some 0 :=
    hfits.data _ _ hzero
  rw [Nat.add_sub_cancel' hstart] at hword
  exact Machine.wordAt_eq hword

theorem Image.Starting.shows {image : Image} {m : Machine} (hloaded : image.Loaded)
    (h : image.Starting m) (hunlimited : m.cycleLimit = none) :
    image.Shows 0 0 m.initialStore m := by
  refine ⟨h.framed hloaded, hunlimited, fun place hplace => ?_⟩
  have hbounds := (h.framed hloaded).address_bounds hloaded hplace
  cases place with
  | global address =>
      have hsize : address < m.memory.size := by
        rw [h.steady.size, hloaded.stackStop]
        exact hbounds.2
      change m.memory[address]? = some (m.memory.getD address 0)
      rw [Array.getElem?_eq_getElem hsize, Array.getD_eq_getD_getElem?,
        Array.getElem?_eq_getElem hsize]
      rfl
  | slot index =>
      obtain ⟨hfirst, hlast⟩ : 1 ≤ index ∧ index ≤ 0 := hplace
      omega
  | parameter distance =>
      obtain ⟨hfirst, hlast⟩ : 2 ≤ distance ∧ distance < 0 + 2 := hplace
      omega

theorem shows_started {image : Image} {m : Machine} (hloaded : image.Loaded)
    (hready : image.Ready m) (hunlimited : m.cycleLimit = none) (entry : Nat) :
    image.Shows 0 0 m.initialStore (m.started entry) :=
  (hready.started entry).shows hloaded hunlimited

/-- Unless a run overflows its stack, it ends with a value if the source has that value, and with a
division by zero if the source divides by zero, and otherwise it goes on. -/
theorem compile_correct {tokens : List Token} (hidle : machine.Idle)
    (hpool : machine.layout.poolSize < 2 ^ 63) (hunlimited : machine.cycleLimit = none)
    (hsource : source.length < 2 ^ 63) (hok : compile source machine = .ok program machine')
    (htokenize : tokenize source = .ok tokens)
    (htokens : tokens.map (·.kind) = Syntax.File.tokens file) (hgrammatical : file.isGrammatical)
    (hchecks : file.checks) (hdefined : ∀ depth, file.evaluate depth ≠ .error .undefined)
    (tracing : Bool) :
    (∃ pc steps m, Machine.runFrom program.entry tracing steps machine' =
        .error (.stackOverflow pc) m) ∨
      ((∀ value, (∃ steps m, Machine.runFrom program.entry tracing steps machine' =
            .ok (some value) m) ↔ ∃ depth, file.evaluate depth = .ok value) ∧
        ((∃ pc steps m, Machine.runFrom program.entry tracing steps machine' =
            .error (.divisionByZero pc) m) ↔
          ∃ depth, file.evaluate depth = .error .divisionByZero)) := by
  have hsound := hidle.intact.sound
  obtain ⟨outline, hresolve, hawaiting, hmain⟩ := (file.checks_iff machine.dataEnd).1 hchecks
  have hreads : Reads source machine file outline :=
    ⟨⟨tokens, htokenize, htokens⟩, hgrammatical, hresolve, hawaiting, hmain⟩
  have hleaves := leaves_of_reads hsound hreads hok
  have hloaded := loaded_of_compile hsource hpool hreads hleaves
  have hready := ready_of_idle hidle hok hleaves
  have hlinked : Syntax.Linked file.constants (file.objects []) (file.functions [])
      machine.dataEnd outline :=
    (Syntax.Linked.empty machine.dataEnd).file
      (fun _ hmem => absurd hmem List.not_mem_nil) hresolve
  obtain ⟨frame, compiler, hfits⟩ := hleaves.fits
  have hshows := shows_started hloaded hready (hfits.machine.cycleLimit.trans hunlimited)
    program.entry
  simp only [Machine.exists_runFrom_ok hready.isRunnable,
    Machine.exists_runFrom_error hready.isRunnable]
  by_cases hfull : (machine'.started program.entry).StackOverflows tracing
  · exact .inl hfull
  · refine .inr (Machine.endsAs_iff hdefined fun depth => ?_)
    rw [Syntax.evaluate_eq hlinked hmain
      (fun name place h => hleaves.initialStore hlinked.known h) (hdefined depth)]
    exact (hloaded.endsAs_evaluate hreads.valid.nodup hshows rfl depth).resolve_left hfull

end Compiled

/-- The tree of `countdown`. -/
def countdownFile : Syntax.File :=
  [.prototype ⟨.int, [], "down", .list [(.int, "n")]⟩,
    .function ⟨.int, [], "main", .list []⟩ []
      [.leave (some (.call "down" [.literal (.number 3)]))],
    .function ⟨.int, [], "down", .list [(.int, "n")]⟩ []
      [.whileLoop (.name "n")
          (.assign "n" (.binary (.word .sub) (.name "n") (.literal (.number 1)))),
        .leave (some (.name "n"))]]

theorem kinds_countdown :
    (tokenize countdown).toOption.map (·.map (·.kind)) = some countdownFile.tokens := by
  decide +kernel

theorem evaluate_countdown (depth : Nat) : countdownFile.evaluate (depth + 6) = .ok 0 := by
  rfl

theorem compile_correct_countdown : ∃ program machine' tokens, Machine.small.Idle ∧
    compile countdown Machine.small = .ok program machine' ∧ tokenize countdown = .ok tokens ∧
    tokens.map (·.kind) = countdownFile.tokens ∧
    (∀ depth, countdownFile.evaluate depth ≠ .error .undefined) ∧
    ((∃ pc steps m, Machine.runFrom program.entry false steps machine' =
        .error (.stackOverflow pc) m) ∨
      ((∀ value, (∃ steps m, Machine.runFrom program.entry false steps machine' =
            .ok (some value) m) ↔ ∃ depth, countdownFile.evaluate depth = .ok value) ∧
        ((∃ pc steps m, Machine.runFrom program.entry false steps machine' =
            .error (.divisionByZero pc) m) ↔
          ∃ depth, countdownFile.evaluate depth = .error .divisionByZero))) := by
  obtain ⟨program, machine', hok⟩ := isCompiled_iff.1 isCompiled_countdown
  obtain ⟨tokens, htokenize, htokens⟩ := Option.map_eq_some_iff.1 kinds_countdown
  have htokenize : tokenize countdown = .ok tokens := by
    cases h : tokenize countdown with
    | error error =>
        rw [h] at htokenize
        cases htokenize
    | ok found =>
        rw [h] at htokenize
        cases htokenize
        rfl
  have hidle := Machine.idle_of_create Machine.create_small
  have hshort : ∀ depth < 6, countdownFile.evaluate depth ≠ .error .undefined := by decide +kernel
  have hdefined : ∀ depth, countdownFile.evaluate depth ≠ .error .undefined := by
    intro depth
    rcases Nat.lt_or_ge depth 6 with hlt | hge
    · exact hshort depth hlt
    · obtain ⟨more, rfl⟩ := Nat.exists_eq_add_of_le' hge
      rw [evaluate_countdown]
      nofun
  exact ⟨program, machine', tokens, hidle, hok, htokenize, htokens, hdefined,
    compile_correct hidle (by decide) rfl (by decide +kernel) hok htokenize htokens
      (by decide +kernel) (by decide +kernel) hdefined false⟩

end WordC
