import WordC.Engine
import WordC.Proofs.Machine.Calls
import WordC.Proofs.Machine.Twins

/-!
# Programs that share a machine

Whatever has been compiled and run on a machine, clearing it leaves nothing of that behind but the
host and the cycle limit. So a source text is evaluated as it would be on a new machine: the two
machines are twins from the moment they are cleared, and every action respects that.
-/

namespace WordC

/-- Whether two hosts give the same answers from now on. -/
structure Host.AnswersLike (host other : Host) : Prop where
  answers : other.answers = host.answers
  mode : other.sink.mode = host.sink.mode

theorem Host.AnswersLike.since {host other : Host} (h : host.AnswersLike other) :
    Host.Since host other host other where
  system := ⟨rfl, rfl⟩
  asked := ⟨[], rfl, rfl⟩
  answers := h.answers
  mode := h.mode
  written := ⟨#[], Array.append_empty.symm, Array.append_empty.symm⟩
  journal := ⟨#[], Array.append_empty.symm, Array.append_empty.symm⟩

namespace Engine

open Machine (Intact IntactWith Twins)

variable {m n : Machine} {layout : Layout} {base base' : Host}

inductive Call where
  | compile (source : String)
  | run (program : Program) (tracing : Bool) (steps : Nat)
  | eval (source : String) (tracing : Bool) (steps : Nat)
  | setCycleLimit (limit : Option Nat)

/-- The machine behind a call, whether the call succeeds, fails or is cut short. -/
def perform (m : Machine) : Call → Machine
  | .compile source => m.after (Engine.compile source)
  | .run program tracing steps => m.after (Engine.run program tracing steps)
  | .eval source tracing steps => m.after (Engine.eval source tracing steps)
  | .setCycleLimit limit => m.setCycleLimit limit

def performAll (m : Machine) (calls : List Call) : Machine :=
  calls.foldl perform m

/-! ## Every call leaves an intact machine -/

theorem intactWith_compile (h : m.IntactWith layout) (source : String) :
    (m.after (Engine.compile source)).IntactWith layout := by
  rw [Engine.compile, Machine.after_modify_bind]
  exact h.clear.compile source

theorem intactWith_run (h : m.IntactWith layout) (program : Program) (tracing : Bool)
    (steps : Nat) : (m.after (Engine.run program tracing steps)).IntactWith layout := by
  rw [Engine.run, Machine.after_modify_bind]
  exact h.reset.runFrom program.entry tracing steps

theorem intactWith_eval (h : m.IntactWith layout) (source : String) (tracing : Bool)
    (steps : Nat) : (m.after (Engine.eval source tracing steps)).IntactWith layout := by
  have hcompiled := intactWith_compile h source
  rw [Engine.eval]
  cases hcompile : Engine.compile source m with
  | ok program m' =>
      rw [Machine.after_of_ok hcompile] at hcompiled
      rw [Machine.after_bind_of_ok hcompile]
      exact intactWith_run hcompiled program tracing steps
  | error error m' =>
      rw [Machine.after_of_error hcompile] at hcompiled
      rw [Machine.after_bind_of_error hcompile]
      exact hcompiled

theorem intactWith_perform (h : m.IntactWith layout) (call : Call) :
    (perform m call).IntactWith layout := by
  cases call with
  | compile source => exact intactWith_compile h source
  | run program tracing steps => exact intactWith_run h program tracing steps
  | eval source tracing steps => exact intactWith_eval h source tracing steps
  | setCycleLimit limit => exact h.setCycleLimit limit

theorem intactWith_performAll (h : m.IntactWith layout) (calls : List Call) :
    (performAll m calls).IntactWith layout := by
  induction calls generalizing m with
  | nil => exact h
  | cons call rest ih => exact ih (intactWith_perform h call)

/-! ## Evaluation cannot tell the difference -/

/-- Intact machines that agree in layout, cycle limit and the host's answers are twins once they are
cleared, whatever else they hold. -/
theorem twins_clear (hm : m.Intact) (hn : n.Intact) (hlayout : n.layout = m.layout)
    (hlimit : n.cycleLimit = m.cycleLimit) (hhost : m.host.AnswersLike n.host) :
    Twins m.host n.host m.clear n.clear := by
  rw [Machine.clear_eq_blank hm, Machine.clear_eq_blank hn, hlayout, hlimit]
  exact ⟨n.host, rfl, hhost.since⟩

theorem respects_run (program : Program) (tracing : Bool) (steps : Nat) :
    Respects (Twins base base') (Engine.run program tracing steps) := by
  refine Respects.bind (Respects.modify ?_) fun _ =>
    Machine.respects_runFrom program.entry tracing steps
  rintro m _ ⟨host, rfl, hsince⟩
  exact ⟨host, rfl, hsince⟩

theorem respects_clear_compile (source : String) :
    Respects (Twins base base') (Engine.compile source) := by
  refine Respects.bind (Respects.modify ?_) fun _ =>
    respects_compile Machine.emission_twins source
  rintro m _ ⟨host, rfl, hsince⟩
  exact ⟨host, rfl, hsince⟩

/-- No action exchanges the system that it asks. -/
theorem system_after {α : Type} {action : Action α}
    (h : ∀ base base', Respects (Twins base base') action) (m : Machine) :
    (m.after action).host.system = m.host.system := by
  have hsame := h m.host m.host ⟨m.host, rfl, .refl m.host⟩
  have hsystem {first second : Machine} (htwins : Twins m.host m.host first second) :
      first.host.system = m.host.system := by
    obtain ⟨host, -, hsince⟩ := htwins
    exact hsince.system.1
  unfold Machine.after
  revert hsame
  generalize action m = result
  intro hsame
  cases hsame with
  | ok htwins => exact hsystem htwins
  | error htwins => exact hsystem htwins

/-- The system that answers is no part of what an engine changes. -/
theorem system_performAll (m : Machine) (calls : List Call) :
    (performAll m calls).host.system = m.host.system := by
  induction calls generalizing m with
  | nil => rfl
  | cons call rest ih =>
      refine (ih (perform m call)).trans ?_
      cases call with
      | compile source => exact system_after (fun _ _ => respects_clear_compile source) m
      | run program tracing steps =>
          exact system_after (fun _ _ => respects_run program tracing steps) m
      | eval source tracing steps =>
          exact system_after (fun _ _ => (respects_clear_compile source).bind fun program =>
            respects_run program tracing steps) m
      | setCycleLimit limit => rfl

theorem alike_eval (h : Twins base base' m.clear n.clear) (source : String) (tracing : Bool)
    (steps : Nat) :
    Alike (Twins base base') (Engine.eval source tracing steps m)
      (Engine.eval source tracing steps n) := by
  have hcleared : Respects (Twins base base') (do
      let program ← WordC.compile source
      Engine.run program tracing steps) :=
    (respects_compile Machine.emission_twins source).bind fun program =>
      respects_run program tracing steps
  exact hcleared h

/-- A machine that is used by nothing but the calls of an engine. -/
def Reachable (poolSize : Nat) (m : Machine) : Prop :=
  ∃ host new calls, Machine.create poolSize host = .ok new ∧ performAll new calls = m

/-- On a machine with any past, a source text is evaluated as on a new machine: with the same result
and with the same effects on machine and host. Clearing alone makes the machine new. -/
theorem eval_of_reachable {poolSize : Nat} {old : Machine} {other : Host}
    (h : Reachable poolSize old) (hother : old.host.AnswersLike other) :
    ∃ fresh, Machine.create poolSize other = .ok fresh ∧
      old.clear = { fresh with cycleLimit := old.cycleLimit, host := old.host } ∧
      ∀ source tracing steps,
        Alike (Twins old.host other) (Engine.eval source tracing steps old)
          (Engine.eval source tracing steps (fresh.setCycleLimit old.cycleLimit)) := by
  obtain ⟨host, new, calls, hcreate, rfl⟩ := h
  obtain ⟨hintact, -⟩ := Machine.intact_create hcreate
  have hold := intactWith_performAll ⟨hintact, rfl⟩ calls
  have hfresh : (Machine.blank new.layout none other).IntactWith new.layout :=
    ⟨Machine.intact_blank hintact.sound.ordered, rfl⟩
  refine ⟨_, Machine.create_of_create hcreate, ?_, fun source tracing steps =>
    alike_eval ?_ source tracing steps⟩
  · rw [Machine.clear_eq_blank hold.intact, hold.layout]
    rfl
  · exact twins_clear hold.intact (hfresh.setCycleLimit _).intact hold.layout.symm rfl hother

/-- A machine on which one text could not be compiled and another has run out of cycles. -/
def used : Machine :=
  performAll .small
    [.compile "int", .setCycleLimit (some 0), .eval "int main() \x7b return 1; \x7d" false 1]

theorem reachable_used : Reachable 256 used :=
  ⟨_, _, _, Machine.create_small, rfl⟩

theorem answersLike_used : used.host.AnswersLike {} := by
  have hsystem : used.host.system = .empty := system_performAll .small _
  have hsame : used.host.asked = [] ∧ Sink.Mode.accepts = used.host.sink.mode := by decide +kernel
  refine ⟨?_, hsame.2⟩
  rw [Host.answers, Host.answers, hsystem, hsame.1]

theorem eval_of_reachable_used :
    Reachable 256 used ∧ used.host.AnswersLike {} ∧
    ∃ fresh, Machine.create 256 {} = .ok fresh ∧
      used.clear = { fresh with cycleLimit := used.cycleLimit, host := used.host } ∧
      ∀ source tracing steps,
        Alike (Twins used.host {}) (Engine.eval source tracing steps used)
          (Engine.eval source tracing steps (fresh.setCycleLimit used.cycleLimit)) :=
  ⟨reachable_used, answersLike_used, eval_of_reachable reachable_used answersLike_used⟩

end Engine

end WordC
