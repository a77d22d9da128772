import WordC.Compiler.State

/-!
# Compiling up to shortage

A compilation may stop for want of room in a segment, or at a text that is no token. Neither says
anything about the construct that was being read. The triple below asks that an action, where it
does not stop for one of these causes, gives a result and a state that satisfy a condition.
-/

namespace WordC.Compiler

variable {α β : Type} {excuse excuse' : Error → Prop} {s s' : State}

/-- Errors that a well-formed construct may end with; `failure?` is that of the scanner, if the
source is no sequence of tokens. -/
def Excused (failure? : Option Error) (error : Error) : Prop :=
  (∃ segment, error = .segmentFull segment) ∨ failure? = some error

/-- Unless it stops with an error for which there is an excuse, the action meets the condition. -/
def Yields (excuse : Error → Prop) (action : Compile α) (s : State) (post : α → State → Prop) :
    Prop :=
  match action s with
  | .ok value s' => post value s'
  | .error error _ => excuse error

/-- A second action goes on from where the first one stops. -/
theorem bind_run_of_ok {action : Compile α} {next : α → Compile β} {value : α}
    (h : action s = .ok value s') : (action >>= next) s = next value s' := by
  change EStateM.bind action next s = _
  unfold EStateM.bind
  rw [h]

theorem bind_run_of_error {action : Compile α} {next : α → Compile β} {error : Error}
    (h : action s = .error error s') : (action >>= next) s = .error error s' := by
  change EStateM.bind action next s = _
  unfold EStateM.bind
  rw [h]

theorem bind_eq_ok {action : Compile α} {next : α → Compile β} {value : β} :
    (action >>= next) s = .ok value s' ↔
      ∃ first middle, action s = .ok first middle ∧ next first middle = .ok value s' := by
  change EStateM.bind action next s = _ ↔ _
  unfold EStateM.bind
  cases action s with
  | ok first middle =>
      constructor
      · intro h
        exact ⟨first, middle, rfl, h⟩
      · rintro ⟨_, _, heq, h⟩
        cases heq
        exact h
  | error error middle =>
      constructor
      · intro h
        cases h
      · rintro ⟨_, _, heq, _⟩
        cases heq

theorem pure_eq_ok {value result : α} :
    (pure value : Compile α) s = .ok result s' ↔ result = value ∧ s' = s := by
  change EStateM.Result.ok value s = _ ↔ _
  constructor
  · intro h
    cases h
    exact ⟨rfl, rfl⟩
  · rintro ⟨rfl, rfl⟩
    rfl

theorem throw_ne_ok {error : Error} {value : α} :
    ¬ (throw error : Compile α) s = .ok value s' := by
  intro h
  cases h

namespace Yields

theorem pure {value : α} {post : α → State → Prop} (h : post value s) :
    Yields excuse (Pure.pure value) s post :=
  h

theorem bind {action : Compile α} {next : α → Compile β} {middle : α → State → Prop}
    {post : β → State → Prop} (hfirst : Yields excuse action s middle)
    (hnext : ∀ value s', middle value s' → Yields excuse (next value) s' post) :
    Yields excuse (action >>= next) s post := by
  change (match EStateM.bind action next s with
    | .ok value s' => post value s'
    | .error error _ => excuse error)
  unfold Yields at hfirst
  unfold EStateM.bind
  cases haction : action s with
  | ok value s' =>
      rw [haction] at hfirst
      exact hnext value s' hfirst
  | error error s' =>
      rw [haction] at hfirst
      exact hfirst

theorem weaken {action : Compile α} {post post' : α → State → Prop}
    (h : Yields excuse action s post) (himp : ∀ value s', post value s' → post' value s')
    (hexcuse : ∀ error, excuse error → excuse' error) : Yields excuse' action s post' := by
  unfold Yields at h ⊢
  cases haction : action s with
  | ok value s' =>
      rw [haction] at h
      exact himp value s' h
  | error error s' =>
      rw [haction] at h
      exact hexcuse error h

/-- What a result satisfies that has been reached. -/
theorem of_ok {action : Compile α} {post : α → State → Prop} {value : α}
    (h : Yields excuse action s post) (hok : action s = .ok value s') : post value s' := by
  unfold Yields at h
  rw [hok] at h
  exact h

end Yields

end WordC.Compiler
