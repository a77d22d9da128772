import WordC.Proofs.Engine.Independence
import WordC.Proofs.Machine.Runs

/-!
# Tracing

A run that is traced reports each instruction before it is carried out. The journal is written and
never read, so apart from it a traced run is a run like any other: what it answers, what it prints
and what it leaves behind are the same.
-/

namespace WordC

variable {written written' : Array UInt8}

/-- Hosts that answer alike and that have written the same since the one had written `written` and
the other `written'`. Their journals do not matter. -/
structure Host.Echoes (written written' : Array UInt8) (host host' : Host) : Prop extends
    host.AnswersLike host' where
  output : ∃ output : Array UInt8, host.sink.written = written ++ output ∧
    host'.sink.written = written' ++ output

theorem Host.Echoes.since {host host' : Host} (h : Echoes written written' host host') :
    Since { host with sink.written := written } { host' with sink.written := written' } host
      host' where
  system := ⟨rfl, rfl⟩
  asked := ⟨[], rfl, rfl⟩
  answers := h.answers
  mode := h.mode
  written := h.output
  journal := ⟨#[], Array.append_empty.symm, Array.append_empty.symm⟩

theorem Host.Since.echoes {base base' host host' : Host} (h : Since base base' host host') :
    Echoes base.sink.written base'.sink.written host host' :=
  ⟨⟨h.answers, h.mode⟩, h.written⟩

namespace Machine

variable {m n : Machine} {steps : Nat} {α : Type}

/-- Machines that differ only in what their hosts have written before and in their journals. -/
def Peers (written written' : Array UInt8) (m n : Machine) : Prop :=
  ∃ host, n = { m with host } ∧ Host.Echoes written written' m.host host

/-- What cannot tell twins apart cannot tell peers apart. -/
theorem respects_peers {action : Action α}
    (h : ∀ base base', Respects (Twins base base') action) :
    Respects (Peers written written') action := by
  rintro m _ ⟨host, rfl, hechoes⟩
  have hsame := h _ _ ⟨host, rfl, hechoes.since⟩
  have hpeers {first second : Machine}
      (htwins : Twins { m.host with sink.written := written } { host with sink.written := written' }
        first second) : Peers written written' first second := by
    obtain ⟨host', rfl, hsince⟩ := htwins
    exact ⟨host', rfl, hsince.echoes⟩
  generalize action m = first at hsame
  generalize action { m with host } = second at hsame
  cases hsame with
  | ok htwins => exact .ok (hpeers htwins)
  | error htwins => exact .error (hpeers htwins)

theorem Peers.advance (h : Peers written written' m n) (tracing tracing' : Bool)
    (instruction : Instruction) :
    Peers written written' (m.advance tracing instruction) (n.advance tracing' instruction) := by
  obtain ⟨host, rfl, hechoes⟩ := h
  refine ⟨_, rfl, ?_⟩
  cases tracing <;> cases tracing' <;> exact { hechoes with }

theorem alike_proceed (h : Peers written written' m n) (tracing tracing' : Bool) :
    Alike (Peers written written') (proceed tracing m) (proceed tracing' n) := by
  obtain ⟨host, rfl, hechoes⟩ := h
  rw [proceed_eq, proceed_eq]
  have hfetch : fetch { m with host } = m.fetch := rfl
  rw [hfetch]
  cases m.fetch with
  | error error => exact .error ⟨host, rfl, hechoes⟩
  | ok instruction =>
      refine respects_peers (fun _ _ => ?_) (Peers.advance ⟨host, rfl, hechoes⟩ _ _ _)
      exact kin_id ▸ respects_execute instruction

theorem alike_step (h : Peers written written' m n) (tracing tracing' : Bool) :
    Alike (Peers written written') (step tracing m) (step tracing' n) := by
  rw [step_eq, step_eq]
  refine (respects_peers (fun _ _ => respects_checkCycleLimit) h).bind fun _ _ _ h => ?_
  exact alike_proceed h tracing tracing'

theorem alike_runSteps (h : Peers written written' m n) (tracing tracing' : Bool) (steps : Nat) :
    Alike (Peers written written') (runSteps tracing steps m) (runSteps tracing' steps n) := by
  induction steps generalizing m n with
  | zero => exact .ok h
  | succ steps ih =>
      refine (alike_step h tracing tracing').bind fun result _ _ h => ?_
      cases result with
      | none => exact ih h
      | some word => exact .ok h

theorem alike_settled_peers {first second : EStateM.Result Error Machine (Option Word)}
    (h : Alike (Peers written written') first second) :
    Alike (Peers written written') (settled first) (settled second) := by
  cases h with
  | error h =>
      obtain ⟨host, rfl, hechoes⟩ := h
      exact .error ⟨_, rfl, { hechoes with }⟩
  | @ok value _ _ h =>
      obtain ⟨host, rfl, hechoes⟩ := h
      cases value with
      | none => exact .ok ⟨host, rfl, hechoes⟩
      | some word => exact .ok ⟨_, rfl, { hechoes with }⟩

theorem alike_runFrom (h : Peers written written' m n) (entry : Nat) (tracing tracing' : Bool)
    (steps : Nat) :
    Alike (Peers written written') (runFrom entry tracing steps m)
      (runFrom entry tracing' steps n) := by
  obtain ⟨host, rfl, hechoes⟩ := h
  by_cases hrunnable : m.status.isRunnable
  · rw [runFrom_eq hrunnable, runFrom_eq (m := { m with host }) hrunnable]
    have hstarted : Peers written written' (m.started entry)
        (started { m with host } entry) := ⟨_, rfl, { hechoes with }⟩
    exact alike_settled_peers (alike_runSteps hstarted tracing tracing' steps)
  · rw [runFrom, runFrom, if_pos hrunnable, if_pos hrunnable]
    exact .error ⟨host, rfl, hechoes⟩

end Machine

namespace Engine

open Machine (Peers Twins)

variable {m n : Machine}

theorem alike_compile (h : Peers written written' m.clear n.clear) (source : String) :
    Alike (Peers written written') (Engine.compile source m) (Engine.compile source n) := by
  change Alike _ (WordC.compile source m.clear) (WordC.compile source n.clear)
  exact Machine.respects_peers (fun _ _ => respects_compile Machine.emission_twins source) h

/-- Whether a run is traced makes no difference to what it answers and prints. -/
theorem alike_run_traced (h : Peers written written' m n) (program : Program)
    (tracing tracing' : Bool) (steps : Nat) :
    Alike (Peers written written') (Engine.run program tracing steps m)
      (Engine.run program tracing' steps n) := by
  change Alike _ (Machine.runFrom program.entry tracing steps m.reset)
    (Machine.runFrom program.entry tracing' steps n.reset)
  refine Machine.alike_runFrom ?_ program.entry tracing tracing' steps
  obtain ⟨host, rfl, hechoes⟩ := h
  exact ⟨host, rfl, hechoes⟩

end Engine

end WordC
