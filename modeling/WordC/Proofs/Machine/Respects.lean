import WordC.Machine.Basic

/-!
# Two runs of one action

An action respects a relation of states if it cannot tell related states apart: from two of them it
gives the same result, and the states it leaves are related again. An action that preserves a
property respects the relation of each state that has it to itself.
-/

namespace WordC

variable {ε σ α β : Type} {related : σ → σ → Prop}

/-- Results that differ only in the states, which are related. -/
inductive Alike (related : σ → σ → Prop) :
    EStateM.Result ε σ α → EStateM.Result ε σ α → Prop
  | ok {value : α} {s t : σ} (h : related s t) : Alike related (.ok value s) (.ok value t)
  | error {error : ε} {s t : σ} (h : related s t) : Alike related (.error error s) (.error error t)

theorem Alike.of_ok {first second : EStateM.Result ε σ α} {value : α} {s : σ}
    (h : Alike related first second) (hfirst : first = .ok value s) :
    ∃ t, second = .ok value t ∧ related s t := by
  cases h with
  | ok hrelated =>
      cases hfirst
      exact ⟨_, rfl, hrelated⟩
  | error _ => cases hfirst

theorem Alike.of_error {first second : EStateM.Result ε σ α} {error : ε} {s : σ}
    (h : Alike related first second) (hfirst : first = .error error s) :
    ∃ t, second = .error error t ∧ related s t := by
  cases h with
  | ok _ => cases hfirst
  | error hrelated =>
      cases hfirst
      exact ⟨_, rfl, hrelated⟩

/-- Two actions go on alike from where two actions have left alike. -/
theorem Alike.bind {action other : EStateM ε σ α} {next next' : α → EStateM ε σ β} {s t : σ}
    (h : Alike related (action s) (other t))
    (hnext : ∀ value ⦃s' t'⦄, related s' t' → Alike related (next value s') (next' value t')) :
    Alike related ((action >>= next) s) ((other >>= next') t) := by
  change Alike related (EStateM.bind action next s) (EStateM.bind other next' t)
  unfold EStateM.bind
  generalize action s = first at h
  generalize other t = second at h
  cases h with
  | ok hrelated => exact hnext _ hrelated
  | error hrelated => exact .error hrelated

def Respects (related : σ → σ → Prop) (action : EStateM ε σ α) : Prop :=
  ∀ ⦃s t : σ⦄, related s t → Alike related (action s) (action t)

namespace Respects

theorem pure (value : α) : Respects related (pure value : EStateM ε σ α) :=
  fun _ _ h => .ok h

theorem throw (error : ε) : Respects related (throw error : EStateM ε σ α) :=
  fun _ _ h => .error h

theorem bind {action : EStateM ε σ α} {next : α → EStateM ε σ β} (haction : Respects related action)
    (hnext : ∀ value, Respects related (next value)) : Respects related (action >>= next) :=
  fun _ _ h => (haction h).bind hnext

/-- What is read from the state may differ; what is done with it may not. -/
theorem get_bind {next : σ → EStateM ε σ β}
    (hnext : ∀ ⦃s t⦄, related s t → Alike related (next s s) (next t t)) :
    Respects related (get >>= next) :=
  fun _ _ h => hnext h

theorem modify {change : σ → σ} (hchange : ∀ ⦃s t⦄, related s t → related (change s) (change t)) :
    Respects related (modify change : EStateM ε σ Unit) :=
  fun _ _ h => .ok (hchange h)

theorem ite {condition : Prop} [Decidable condition] {first second : EStateM ε σ α}
    (hfirst : condition → Respects related first) (hsecond : ¬condition → Respects related second) :
    Respects related (if condition then first else second) := by
  by_cases h : condition
  · rw [if_pos h]
    exact hfirst h
  · rw [if_neg h]
    exact hsecond h

end Respects

end WordC
