import Mathlib.Data.List.DropRight
import WordC.Proofs.Accept.Language
import WordC.Proofs.Engine.Tracing
import WordC.Proofs.Token.Lossless
import WordC.Proofs.Token.Offsets
import WordC.Session

/-!
# Sessions are replays

A session compiles its declarations anew for every expression, as one text with the expression
behind them. A declaration is kept only if the text compiles with it, so the text that is kept
always compiles; and since the machine is cleared before, a session answers as one that has kept the
same declarations and done nothing else.
-/

namespace WordC

namespace Session

open Compiler (HasRoom Reads compile_of_hasRoom reads_of_compile)
open Machine (IntactWith Peers)
open Syntax (Outline)

variable {poolSize : Nat} {limit : Option Nat} {layout : Layout} {session other : Session}
  {machine : Machine} {source : String} {α : Type}

/-! ## Steps -/

inductive Step where
  | declare (input : String)
  | evaluate (expression : String) (steps : Nat)
  | runSource (source : String) (steps : Nat)
  | reset
deriving DecidableEq

/-- Whether a turn succeeds, and the session behind it. -/
def outcome (turn : Turn α) (session : Session) : Bool × Session :=
  match turn session with
  | .ok _ session => (true, session)
  | .error _ session => (false, session)

def perform (session : Session) : Step → Bool × Session
  | .declare input => outcome (declare input) session
  | .evaluate expression steps => outcome (evaluate expression steps) session
  | .runSource source steps => outcome (runSource source steps) session
  | .reset => (true, session.reset)

/-- A session on a new machine after some steps, with the log of these. Between two steps the host
may change. -/
inductive Reached (poolSize : Nat) (limit : Option Nat) : List (Step × Bool) → Session → Prop
  | start {host : Host} {machine : Machine} (hcreate : Machine.create poolSize host = .ok machine)
      (tracing : Bool) : Reached poolSize limit [] (start (machine.setCycleLimit limit) tracing)
  | perform {log : List (Step × Bool)} {session : Session} (h : Reached poolSize limit log session)
      (step : Step) :
      Reached poolSize limit (log ++ [(step, (session.perform step).1)]) (session.perform step).2
  | replace {log : List (Step × Bool)} {session : Session} (h : Reached poolSize limit log session)
      (host : Host) :
      Reached poolSize limit log { session with machine := { session.machine with host } }

def accepted? : Step × Bool → Option String
  | (.declare input, true) => some input
  | _ => none

/-- The inputs that were accepted as declarations since the last reset. -/
def kept (log : List (Step × Bool)) : List String :=
  (log.rtakeWhile fun entry => entry.1 ≠ .reset).filterMap accepted?

/-- What a step that is not a reset keeps. -/
theorem kept_concat {log : List (Step × Bool)} {step : Step} (hstep : step ≠ .reset)
    (succeeded : Bool) :
    kept (log ++ [(step, succeeded)]) = kept log ++ (accepted? (step, succeeded)).toList := by
  unfold kept
  rw [List.rtakeWhile_concat, if_pos (by simpa using hstep), List.filterMap_append]
  rfl

theorem kept_concat_reset (log : List (Step × Bool)) (succeeded : Bool) :
    kept (log ++ [(.reset, succeeded)]) = [] := by
  unfold kept
  rw [List.rtakeWhile_concat, if_neg (by simp)]
  rfl

/-! ## Turns -/

theorem declare_eq (input : String) (session : Session) :
    declare input session =
      match Engine.compile (session.sourceWith input) session.machine with
      | .ok program machine =>
          .ok () { session with
            machine
            last := some program
            declarations := session.declarations ++ [input] }
      | .error error machine => .error error { session with machine } := by
  obtain ⟨machine, tracing, declarations, last⟩ := session
  change EStateM.bind (onMachine (Engine.compile _)) _ _ = _
  unfold EStateM.bind onMachine
  simp only
  generalize Engine.compile _ machine = result
  cases result <;> rfl

theorem runSource_eq (source : String) (steps : Nat) (session : Session) :
    runSource source steps session =
      match Engine.compile source session.machine with
      | .ok program machine =>
          onMachine (Engine.run program session.tracing steps)
            { session with machine, last := some program }
      | .error error machine => .error error { session with machine } := by
  obtain ⟨machine, tracing, declarations, last⟩ := session
  change EStateM.bind (onMachine (Engine.compile _)) _ _ = _
  unfold EStateM.bind onMachine
  simp only
  generalize Engine.compile _ machine = result
  cases result <;> rfl

theorem evaluate_eq (expression : String) (steps : Nat) (session : Session) :
    evaluate expression steps session = runSource (session.sourceFor expression) steps session :=
  rfl

/-- A declaration is kept if and only if the turn succeeds. -/
theorem outcome_declare (input : String) (session : Session) :
    (outcome (declare input) session).2.declarations = session.declarations ++
        (accepted? (.declare input, (outcome (declare input) session).1)).toList ∧
      (outcome (declare input) session).2.machine =
        session.machine.after (Engine.compile (session.sourceWith input)) := by
  unfold outcome Machine.after
  rw [declare_eq]
  cases Engine.compile (session.sourceWith input) session.machine with
  | ok program machine => exact ⟨rfl, rfl⟩
  | error error machine => exact ⟨(List.append_nil _).symm, rfl⟩

theorem outcome_runSource (source : String) (steps : Nat) (session : Session) :
    (outcome (runSource source steps) session).2.declarations = session.declarations ∧
      (outcome (runSource source steps) session).2.machine =
        session.machine.after (Engine.eval source session.tracing steps) := by
  unfold outcome
  rw [runSource_eq, Engine.eval]
  cases hcompile : Engine.compile source session.machine with
  | error error machine =>
      rw [Machine.after_bind_of_error hcompile]
      exact ⟨rfl, rfl⟩
  | ok program machine =>
      rw [Machine.after_bind_of_ok hcompile]
      unfold onMachine Machine.after
      simp only
      cases Engine.run program session.tracing steps machine <;> exact ⟨rfl, rfl⟩

/-- What a step that is not a reset adds to the declarations. -/
theorem declarations_perform (session : Session) {step : Step} (hstep : step ≠ .reset) :
    (session.perform step).2.declarations =
      session.declarations ++ (accepted? (step, (session.perform step).1)).toList := by
  cases step with
  | declare input => exact (outcome_declare input session).1
  | evaluate expression steps =>
      exact (outcome_runSource _ steps session).1.trans (List.append_nil _).symm
  | runSource source steps =>
      exact (outcome_runSource source steps session).1.trans (List.append_nil _).symm
  | reset => exact absurd rfl hstep

/-! ## The machine of a session -/

/-- What all steps leave alone about the machine. -/
structure Serves (layout : Layout) (limit : Option Nat) (machine : Machine) : Prop where
  intact : machine.IntactWith layout
  limit : machine.cycleLimit = limit

theorem Serves.compile (h : Serves layout limit machine) (source : String) :
    Serves layout limit (machine.after (Engine.compile source)) := by
  refine ⟨Engine.intactWith_compile h.intact source, ?_⟩
  rw [Engine.compile, Machine.after_modify_bind]
  exact (Machine.cycleLimit_compile machine.clear source).trans h.limit

theorem Serves.eval (h : Serves layout limit machine) (source : String) (tracing : Bool)
    (steps : Nat) : Serves layout limit (machine.after (Engine.eval source tracing steps)) := by
  have hcompiled := h.compile source
  rw [Engine.eval]
  cases hcompile : Engine.compile source machine with
  | error error machine' =>
      rw [Machine.after_of_error hcompile] at hcompiled
      rw [Machine.after_bind_of_error hcompile]
      exact hcompiled
  | ok program machine' =>
      rw [Machine.after_of_ok hcompile] at hcompiled
      rw [Machine.after_bind_of_ok hcompile]
      refine ⟨Engine.intactWith_run hcompiled.intact program tracing steps, ?_⟩
      rw [Engine.run, Machine.after_modify_bind]
      have hrun := hcompiled.intact.reset.intact.after_runFrom program.entry tracing steps
      exact hrun.keeps.cycleLimit.trans hcompiled.limit

theorem Serves.perform (h : Serves layout limit session.machine) (step : Step) :
    Serves layout limit (session.perform step).2.machine := by
  cases step with
  | declare input => exact (outcome_declare input session).2 ▸ h.compile _
  | evaluate expression steps => exact (outcome_runSource _ steps session).2 ▸ h.eval _ _ _
  | runSource source steps => exact (outcome_runSource source steps session).2 ▸ h.eval _ _ _
  | reset => exact h

theorem Serves.replace (h : Serves layout limit machine) (host : Host) :
    Serves layout limit { machine with host } :=
  ⟨⟨{ h.intact.intact with sound := { h.intact.intact.sound with } }, h.intact.layout⟩, h.limit⟩

/-! ## Texts that compile -/

/-- A text that is compiled by every machine of a layout. -/
def Compilable (layout : Layout) (source : String) : Prop :=
  ∃ file outline, Reads source (Machine.blank layout none {}) file outline ∧
    HasRoom (Machine.blank layout none {}) outline

theorem compilable_of_compile {program : Program} {machine' : Machine}
    (h : machine.IntactWith layout) (hok : Engine.compile source machine = .ok program machine') :
    Compilable layout source := by
  have hordered := h.intact.sound.ordered
  rw [h.layout] at hordered
  change WordC.compile source machine.clear = _ at hok
  rw [Machine.clear_eq_blank h.intact, h.layout] at hok
  obtain ⟨file, outline, hreads, hleaves⟩ := reads_of_compile (Machine.sound_blank hordered) hok
  have hroom := hleaves.hasRoom
  -- Neither the cycle limit nor the host has a say in this.
  exact ⟨file, outline,
    ⟨hreads.tokens, hreads.grammatical, hreads.resolves, hreads.awaiting, hreads.main⟩,
    hroom.text, hroom.data⟩

theorem Compilable.compile (hsource : Compilable layout source) (h : machine.IntactWith layout) :
    ∃ program machine', Engine.compile source machine = .ok program machine' := by
  have hordered := h.intact.sound.ordered
  rw [h.layout] at hordered
  obtain ⟨file, outline, hreads, hroom⟩ := hsource
  change ∃ program machine', WordC.compile source machine.clear = .ok program machine'
  rw [Machine.clear_eq_blank h.intact, h.layout]
  have hreads' : Reads source (Machine.blank layout machine.cycleLimit machine.host) file outline :=
    ⟨hreads.tokens, hreads.grammatical, hreads.resolves, hreads.awaiting, hreads.main⟩
  exact compile_of_hasRoom (Machine.sound_blank hordered) hreads' ⟨hroom.text, hroom.data⟩

theorem Compilable.of_gap {gap text : List Char} (hgap : Token.IsGap false gap)
    (h : Compilable layout (String.ofList (gap ++ text))) :
    Compilable layout (String.ofList text) := by
  obtain ⟨file, outline, hreads, hroom⟩ := h
  obtain ⟨tokens, htokens, hkinds⟩ := hreads.tokens
  obtain ⟨tokens', htokens', hsame⟩ := tokenize_of_gap hgap htokens
  exact ⟨file, outline, { hreads with tokens := ⟨tokens', htokens', hsame.trans hkinds⟩ }, hroom⟩

/-- The program of a session without declarations. -/
def idle : String :=
  "\nint main() \x7b return 0; \x7d"

def idleFile : Syntax.File :=
  [.function ⟨.int, [], "main", .list []⟩ [] [.leave (some (.literal (.number 0)))]]

def idleOutline : Outline where
  globals := [("main", .function 0)]
  awaiting := []
  sections := [.function "main" 0 0 (.ofList [.leave (some (.constant 0))])]
  data := []

theorem tokenize_idle :
    ∃ tokens, tokenize idle = .ok tokens ∧ tokens.map (·.kind) = idleFile.tokens := by
  have hread : (tokenize idle).toOption.map (List.map (·.kind)) = some idleFile.tokens := by
    decide +kernel
  obtain ⟨tokens, htokens, hkinds⟩ := Option.map_eq_some_iff.1 hread
  exact ⟨tokens, tokenize_eq_ok htokens, hkinds⟩

/-- The smallest text segment has room for it. -/
theorem compilable_idle (hlayout : Layout.partition? poolSize = some layout) :
    Compilable layout idle := by
  obtain ⟨hordered, -⟩ := Layout.ordered_of_partition? hlayout
  have htext := Layout.text_room hlayout
  refine ⟨idleFile, idleOutline, ⟨tokenize_idle, rfl, rfl, rfl, rfl⟩, ?_, ?_⟩
  · change layout.text.start + 11 ≤ layout.text.stop
    omega
  · exact hordered.dataStop

theorem sourceWith_eq (session : Session) (input : String) :
    session.sourceWith input =
      String.intercalate "\n" session.declarations ++ "\n" ++ input ++ idle := rfl

theorem sourceFor_zero (session : Session) :
    session.sourceFor "0" = String.intercalate "\n" session.declarations ++ idle := by
  have hvalue : "\nint main() \x7b return " ++
      String.ofList ((Text.trim "0").toList.reverse.dropWhile (· = ';')).reverse ++ "; \x7d" =
        idle := by decide +kernel
  rw [← hvalue, ← String.append_assoc, ← String.append_assoc]
  rfl

/-- Declarations that could be kept one behind the other. -/
inductive Accepted (layout : Layout) : List String → Prop
  | nil : Accepted layout []
  | concat {declarations : List String} {input : String} (h : Accepted layout declarations)
      (hinput : Compilable layout
        (String.intercalate "\n" declarations ++ "\n" ++ input ++ idle)) :
      Accepted layout (declarations ++ [input])

/-- The text with the last of them has been compiled before, up to a line break in front of the
first. -/
theorem Accepted.compilable {declarations : List String} (h : Accepted layout declarations)
    (hlayout : Layout.partition? poolSize = some layout) :
    Compilable layout (String.intercalate "\n" declarations ++ idle) := by
  cases h with
  | nil => exact compilable_idle hlayout
  | @concat before input h hinput =>
      cases before with
      | cons first rest =>
          rwa [String.intercalate_append_of_ne_nil (List.cons_ne_nil _ _) (List.cons_ne_nil _ _),
            String.intercalate_singleton]
      | nil =>
          have hbreak : Token.IsGap false ['\n'] := .blank (by decide) .nil
          have htext : "" ++ "\n" ++ input ++ idle =
              String.ofList (['\n'] ++ (input ++ idle).toList) := by
            rw [String.ofList_append, String.ofList_toList, String.empty_append,
              String.append_assoc]
          rw [String.intercalate_nil, htext] at hinput
          have hrest := hinput.of_gap hbreak
          rwa [String.ofList_toList] at hrest

/-! ## What a session keeps -/

/-- What holds between two steps. -/
structure Standing (poolSize : Nat) (limit : Option Nat) (layout : Layout)
    (log : List (Step × Bool)) (session : Session) : Prop where
  partition : Layout.partition? poolSize = some layout
  serves : Serves layout limit session.machine
  accepted : Accepted layout session.declarations
  declarations : session.declarations = kept log

theorem declare_eq_ok (h : Serves layout limit session.machine) {input : String}
    (hinput : Compilable layout (session.sourceWith input)) :
    (session.perform (.declare input)).1 = true := by
  obtain ⟨program, machine, hok⟩ := hinput.compile h.intact
  change (outcome _ _).1 = true
  rw [outcome, declare_eq, hok]

theorem compilable_of_declare (h : Serves layout limit session.machine) {input : String}
    (hkept : (session.perform (.declare input)).1 = true) :
    Compilable layout (session.sourceWith input) := by
  change (outcome _ _).1 = true at hkept
  rw [outcome, declare_eq] at hkept
  cases hcompile : Engine.compile (session.sourceWith input) session.machine with
  | ok program machine => exact compilable_of_compile h.intact hcompile
  | error error machine =>
      rw [hcompile] at hkept
      cases hkept

theorem accepted_perform (hserves : Serves layout limit session.machine)
    (h : Accepted layout session.declarations) (step : Step) :
    Accepted layout (session.perform step).2.declarations := by
  by_cases hreset : step = .reset
  · subst hreset
    exact .nil
  · rw [declarations_perform session hreset]
    cases haccepted : accepted? (step, (session.perform step).1) with
    | none => exact (List.append_nil session.declarations).symm ▸ h
    | some input =>
        refine .concat h ?_
        rw [← sourceWith_eq]
        cases step with
        | declare input' =>
            cases hkept : (session.perform (.declare input')).1 with
            | false =>
                rw [hkept] at haccepted
                cases haccepted
            | true =>
                rw [hkept] at haccepted
                cases haccepted
                exact compilable_of_declare hserves hkept
        | evaluate => cases haccepted
        | runSource => cases haccepted
        | reset => cases haccepted

theorem Standing.perform {log : List (Step × Bool)}
    (h : Standing poolSize limit layout log session) (step : Step) :
    Standing poolSize limit layout (log ++ [(step, (session.perform step).1)])
      (session.perform step).2 where
  partition := h.partition
  serves := h.serves.perform step
  accepted := accepted_perform h.serves h.accepted step
  declarations := by
    by_cases hreset : step = .reset
    · subst hreset
      exact (kept_concat_reset log _).symm
    · rw [declarations_perform session hreset, kept_concat hreset, h.declarations]

theorem Reached.standing {log : List (Step × Bool)} (h : Reached poolSize limit log session) :
    ∃ layout, Standing poolSize limit layout log session := by
  induction h with
  | @start host machine hcreate tracing =>
      obtain ⟨hintact, -⟩ := Machine.intact_create hcreate
      have hserves : Serves machine.layout limit (machine.setCycleLimit limit) :=
        ⟨.setCycleLimit ⟨hintact, rfl⟩ limit, rfl⟩
      refine ⟨machine.layout, ?_, hserves, .nil, rfl⟩
      exact Machine.partition?_of_create hcreate
  | perform h step ih =>
      obtain ⟨layout, hstanding⟩ := ih
      exact ⟨layout, hstanding.perform step⟩
  | replace h host ih =>
      obtain ⟨layout, hstanding⟩ := ih
      exact ⟨layout, { hstanding with serves := hstanding.serves.replace host }⟩

/-! ## Answers -/

/-- Sessions whose hosts answer alike and have written the same since. -/
def Echo (written written' : Array UInt8) (session other : Session) : Prop :=
  Host.Echoes written written' session.machine.host other.machine.host

theorem alike_onMachine {written written' : Array UInt8} {action other : Action α}
    {s t : Session} (h : Alike (Peers written written') (action s.machine) (other t.machine)) :
    Alike (Echo written written') (onMachine action s) (onMachine other t) := by
  obtain ⟨machine, tracing, declarations, last⟩ := s
  obtain ⟨machine', tracing', declarations', last'⟩ := t
  unfold onMachine
  simp only at h ⊢
  generalize action machine = first at h
  generalize other machine' = second at h
  cases h with
  | ok h =>
      obtain ⟨host, rfl, hechoes⟩ := h
      exact .ok hechoes
  | error h =>
      obtain ⟨host, rfl, hechoes⟩ := h
      exact .error hechoes

/-- What two sessions answer to one source depends on their machines alone, and these are cleared
first. -/
theorem alike_runSource {written written' : Array UInt8}
    (h : Peers written written' session.machine.clear other.machine.clear) (source : String)
    (steps : Nat) :
    Alike (Echo written written') (runSource source steps session)
      (runSource source steps other) := by
  have hcompiled := Engine.alike_compile h source
  rw [runSource_eq, runSource_eq]
  generalize Engine.compile source session.machine = first at hcompiled
  generalize Engine.compile source other.machine = second at hcompiled
  cases hcompiled with
  | ok h => exact alike_onMachine (Engine.alike_run_traced h _ _ _ steps)
  | error h =>
      obtain ⟨host, rfl, hechoes⟩ := h
      exact .error hechoes

theorem Serves.peers {machine machine' : Machine} (h : Serves layout limit machine)
    (h' : Serves layout limit machine') (hhost : machine.host.AnswersLike machine'.host) :
    Peers machine.host.sink.written machine'.host.sink.written machine.clear machine'.clear := by
  have hlayout := h'.intact.layout.trans h.intact.layout.symm
  have hlimit := h'.limit.trans h.limit.symm
  obtain ⟨host, heq, hsince⟩ :=
    Engine.twins_clear h.intact.intact h'.intact.intact hlayout hlimit hhost
  exact ⟨host, heq, hsince.echoes⟩

theorem Standing.serves_of_partition {log : List (Step × Bool)} {layout' : Layout}
    (h : Standing poolSize limit layout' log session)
    (hlayout : Layout.partition? poolSize = some layout) :
    Serves layout limit session.machine := by
  cases h.partition.symm.trans hlayout
  exact h.serves

/-- A new session accepts them again. -/
theorem Accepted.replay {declarations : List String} (h : Accepted layout declarations)
    (hlayout : Layout.partition? poolSize = some layout) :
    ∃ fresh, Reached poolSize limit (declarations.map fun input => (.declare input, true)) fresh ∧
      fresh.declarations = declarations := by
  induction h with
  | nil =>
      have hcreate : Machine.create poolSize {} = .ok (Machine.blank layout none {}) :=
        Machine.create_of_partition? hlayout
      exact ⟨_, .start hcreate false, rfl⟩
  | @concat before input h hinput ih =>
      obtain ⟨fresh, hreached, hsame⟩ := ih
      obtain ⟨layout', hstanding⟩ := hreached.standing
      have hserves := hstanding.serves_of_partition hlayout
      have hkept : (fresh.perform (.declare input)).1 = true := by
        refine declare_eq_ok hserves ?_
        rw [sourceWith_eq, hsame]
        exact hinput
      have hadded := @declarations_perform fresh (.declare input) nofun
      have hnext := hreached.perform (.declare input)
      rw [hkept] at hadded hnext
      refine ⟨(fresh.perform (.declare input)).2, ?_, ?_⟩
      · rw [List.map_append]
        exact hnext
      · rw [hadded, hsame]
        rfl

/-- A session with a log is a replay of the declarations it has kept. -/
structure Replays (poolSize : Nat) (limit : Option Nat) (log : List (Step × Bool))
    (session : Session) : Prop where
  declarations : session.declarations = kept log
  declare_fails : ∀ {input error after}, declare input session = .error error after →
    after.declarations = session.declarations ∧ after.last = session.last
  runSource_fails : ∀ {source steps error machine},
    Engine.compile source session.machine = .error error machine →
      runSource source steps session = .error error { session with machine }
  evaluate_fails : ∀ {expression steps error machine},
    Engine.compile (session.sourceFor expression) session.machine = .error error machine →
      evaluate expression steps session = .error error { session with machine }
  compiles : ∃ program machine,
    Engine.compile (session.sourceFor "0") session.machine = .ok program machine
  /-- Any other session with the same declarations answers the same. -/
  replays : ∀ {past other}, Reached poolSize limit past other →
    other.declarations = session.declarations →
    session.machine.host.AnswersLike other.machine.host → ∀ expression steps,
      Alike (Echo session.machine.host.sink.written other.machine.host.sink.written)
        (evaluate expression steps session) (evaluate expression steps other)
  /-- An answer is repeated as long as the host answers as it did. -/
  repeats : ∀ expression steps host, session.machine.host.AnswersLike host →
    let later := (session.perform (.evaluate expression steps)).2
    Alike (Echo session.machine.host.sink.written host.sink.written)
      (evaluate expression steps session)
      (evaluate expression steps { later with machine := { later.machine with host } })
  /-- One of those sessions is new and has done nothing but declare what is kept. -/
  replayed : ∃ fresh, Reached poolSize limit
      ((kept log).map fun input => (.declare input, true)) fresh ∧
    fresh.declarations = session.declarations

theorem Reached.answers {log past : List (Step × Bool)}
    (h : Reached poolSize limit log session) (h' : Reached poolSize limit past other)
    (hsame : other.declarations = session.declarations)
    (hhost : session.machine.host.AnswersLike other.machine.host) (expression : String)
    (steps : Nat) :
    Alike (Echo session.machine.host.sink.written other.machine.host.sink.written)
      (evaluate expression steps session) (evaluate expression steps other) := by
  obtain ⟨layout, hstanding⟩ := h.standing
  obtain ⟨layout', hstanding'⟩ := h'.standing
  have hserves := hstanding'.serves_of_partition hstanding.partition
  have hsource : other.sourceFor expression = session.sourceFor expression := by
    unfold sourceFor declared
    rw [hsame]
  rw [evaluate_eq, evaluate_eq, hsource]
  exact alike_runSource (hstanding.serves.peers hserves hhost) _ steps

theorem replays_of_reached {log : List (Step × Bool)}
    (h : Reached poolSize limit log session) : Replays poolSize limit log session := by
  obtain ⟨layout, hstanding⟩ := h.standing
  exact
    { declarations := hstanding.declarations
      declare_fails := by
        intro input error after hfails
        rw [declare_eq] at hfails
        cases hcompile : Engine.compile (session.sourceWith input) session.machine with
        | ok program machine =>
            rw [hcompile] at hfails
            cases hfails
        | error error machine =>
            rw [hcompile] at hfails
            cases hfails
            exact ⟨rfl, rfl⟩
      runSource_fails := by
        intro source steps error machine hfails
        rw [runSource_eq, hfails]
      evaluate_fails := by
        intro expression steps error machine hfails
        rw [evaluate_eq, runSource_eq, hfails]
      compiles := by
        refine Compilable.compile ?_ hstanding.serves.intact
        rw [sourceFor_zero]
        exact hstanding.accepted.compilable hstanding.partition
      replays := fun h' hsame hhost => h.answers h' hsame hhost
      repeats := by
        intro expression steps host hhost later
        have hlater : later.declarations = session.declarations :=
          (outcome_runSource _ steps session).1
        exact h.answers ((h.perform (.evaluate expression steps)).replace host) hlater hhost
          expression steps
      replayed := hstanding.declarations ▸ hstanding.accepted.replay hstanding.partition }

/-- A session that has a variable. -/
def remembering : Session :=
  ((start (Machine.small.setCycleLimit none) false).perform (.declare "int x;")).2

theorem replays_remembering :
    Reached 256 none [(.declare "int x;", true)] remembering ∧
      Replays 256 none [(.declare "int x;", true)] remembering := by
  have hkept : ((start (Machine.small.setCycleLimit none) false).perform
      (.declare "int x;")).1 = true := by decide +kernel
  have hreached : Reached 256 none [(.declare "int x;", true)] remembering :=
    hkept ▸ Reached.perform (.start Machine.create_small false) (.declare "int x;")
  exact ⟨hreached, replays_of_reached hreached⟩

end Session

end WordC
