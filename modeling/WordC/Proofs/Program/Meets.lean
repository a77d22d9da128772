import WordC.Proofs.Machine.Walks
import WordC.Proofs.Program.Image
import WordC.Proofs.Target.Semantics

/-!
# Machines that do what an evaluation says

A machine meets an evaluation if it gets to where the value says, or to a division by zero, or keeps
going for at least as many steps as the evaluation was given. It may also run out of stack at any
time. The rules below follow an evaluation part by part.
-/

namespace WordC.Machine

open Syntax (Evaluation Stop)
open WordC.Core (Store)

variable {route : Route} {tracing : Bool} {goal goal' : Machine → Prop} {least fewer : Nat}
  {m m' : Machine} {α β : Type}

/-- The next step finds the stack full. -/
def Overflows (tracing : Bool) (m : Machine) : Prop :=
  ∃ pc m', step tracing m = .error (.stackOverflow pc) m'

/-- The next step divides by zero. -/
def Divides (tracing : Bool) (m : Machine) : Prop :=
  ∃ pc m', step tracing m = .error (.divisionByZero pc) m'

/-- The machine gets to a goal on a route, unless its stack overflows on the way. -/
abbrev Leads (route : Route) (goal : Machine → Prop) : Machine → Prop :=
  Walks route.tracing route.Passes goal fun error _ => ∃ pc, error = .stackOverflow pc

/-- The machine takes at least so many steps, unless its stack overflows. -/
inductive Lasts (tracing : Bool) : Nat → Machine → Prop where
  | zero {m : Machine} : Lasts tracing 0 m
  | step {least : Nat} {m m' : Machine} (hstep : Machine.step tracing m = .ok none m')
      (h : Lasts tracing least m') : Lasts tracing (least + 1) m
  | overflow {least : Nat} {m : Machine} (h : m.Overflows tracing) : Lasts tracing least m

/-- The machine takes a step on a route to a goal, unless its stack overflows. -/
structure Steps (route : Route) (goal : Machine → Prop) (m : Machine) : Prop where
  passes : route.Passes m.pc
  steps : m.Overflows route.tracing ∨ ∃ m', step route.tracing m = .ok none m' ∧ goal m'

theorem Steps.leads (h : Steps route goal m) : Leads route goal m := by
  rcases h.steps with ⟨pc, m', hfull⟩ | ⟨m', hstep, hgoal⟩
  · exact .error h.passes hfull ⟨pc, rfl⟩
  · exact .step h.passes hstep (.here hgoal)

theorem Steps.weaken (h : Steps route goal m) (himp : ∀ m', goal m' → goal' m') :
    Steps route goal' m :=
  ⟨h.passes, h.steps.imp_right fun ⟨m', hstep, hgoal⟩ => ⟨m', hstep, himp m' hgoal⟩⟩

theorem Leads.trans (h : Leads route goal m) (hnext : ∀ m', goal m' → Leads route goal' m') :
    Leads route goal' m :=
  Walks.trans h (fun _ => id) (fun _ _ => id) hnext

theorem Lasts.mono (h : Lasts tracing least m) (hle : fewer ≤ least) : Lasts tracing fewer m := by
  induction h generalizing fewer with
  | zero =>
      obtain rfl := Nat.le_zero.1 hle
      exact .zero
  | step hstep _ ih =>
      cases fewer with
      | zero => exact .zero
      | succ fewer => exact .step hstep (ih (Nat.le_of_succ_le_succ hle))
  | overflow hfull => exact .overflow hfull

/-- Steps that lead somewhere add to those that are taken there. -/
theorem Leads.lasts (h : Leads route goal m)
    (hnext : ∀ m', goal m' → Lasts route.tracing least m') : Lasts route.tracing least m := by
  induction h with
  | here hgoal => exact hnext _ hgoal
  | step _ hstep _ ih => exact (Lasts.step hstep ih).mono (Nat.le_succ _)
  | error _ hstep hfull =>
      obtain ⟨pc, rfl⟩ := hfull
      exact .overflow ⟨pc, _, hstep⟩

/-- The machine does what an evaluation says; `good` says what machines show a value and a store. -/
def Meets (route : Route) (least : Nat) (good : α → Store → Machine → Prop) (m : Machine) :
    Except Stop (α × Store) → Prop
  | .ok (value, store) => Leads route (good value store) m
  | .error .divisionByZero => Leads route (Divides route.tracing) m
  | .error .unfinished => Lasts route.tracing least m
  | .error .undefined => True

variable {good : α → Store → Machine → Prop} {good' : β → Store → Machine → Prop}
  {outcome : Except Stop (α × Store)}

namespace Meets

theorem pure {value : α} {store : Store} (h : good value store m) :
    Meets route least good m ((Pure.pure value : Evaluation Store α) store) :=
  Walks.here h

/-- First the machine gets somewhere on its own. -/
theorem of_leads (h : Leads route goal m)
    (hnext : ∀ m', goal m' → Meets route least good m' outcome) :
    Meets route least good m outcome := by
  cases outcome with
  | ok result => exact h.trans hnext
  | error stop =>
      cases stop with
      | divisionByZero => exact h.trans hnext
      | unfinished => exact h.lasts hnext
      | undefined => trivial

theorem andThen {next : α × Store → Except Stop (β × Store)}
    (h : Meets route least good m outcome)
    (hnext : ∀ value store m', good value store m' →
      Meets route least good' m' (next (value, store))) :
    Meets route least good' m (outcome >>= next) := by
  cases outcome with
  | ok result => exact of_leads h fun m' hgood => hnext result.1 result.2 m' hgood
  | error stop =>
      cases stop with
      | divisionByZero => exact h
      | unfinished => exact h
      | undefined => trivial

theorem bind {action : Evaluation Store α} {next : α → Evaluation Store β} {store : Store}
    (h : Meets route least good m (action store))
    (hnext : ∀ value store m', good value store m' →
      Meets route least good' m' (next value store)) :
    Meets route least good' m ((action >>= next) store) := by
  change Meets route least good' m (action store >>= fun result => next result.1 result.2)
  exact andThen h hnext

/-- Last the machine gets somewhere on its own. -/
theorem leads {good' : α → Store → Machine → Prop} (h : Meets route least good m outcome)
    (hnext : ∀ value store m', good value store m' → Leads route (good' value store) m') :
    Meets route least good' m outcome := by
  cases outcome with
  | ok result => exact Leads.trans h fun m' hgood => hnext result.1 result.2 m' hgood
  | error stop =>
      cases stop with
      | divisionByZero => exact h
      | unfinished => exact h
      | undefined => trivial

theorem weaken {good' : α → Store → Machine → Prop} (h : Meets route least good m outcome)
    (himp : ∀ value store m', good value store m' → good' value store m') :
    Meets route least good' m outcome :=
  h.leads fun value store m' hgood => .here (himp value store m' hgood)

theorem mono (h : Meets route least good m outcome) (hle : fewer ≤ least) :
    Meets route fewer good m outcome := by
  cases outcome with
  | ok result => exact h
  | error stop =>
      cases stop with
      | divisionByZero => exact h
      | unfinished => exact Lasts.mono h hle
      | undefined => trivial

/-- A step on the way to an evaluation is one of the steps that the machine takes. -/
theorem of_steps (h : Steps route goal m)
    (hnext : ∀ m', goal m' → Meets route least good m' outcome) :
    Meets route (least + 1) good m outcome := by
  cases outcome with
  | ok result => exact h.leads.trans hnext
  | error stop =>
      cases stop with
      | divisionByZero => exact h.leads.trans hnext
      | unfinished =>
          rcases h.steps with hfull | ⟨m', hstep, hgoal⟩
          · exact .overflow hfull
          · exact .step hstep (hnext m' hgoal)
      | undefined => trivial

end Meets

end WordC.Machine
