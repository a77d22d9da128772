import WordC.Proofs.Engine.Independence

/-!
# Running a program again

A run changes nothing but data, heap and stack, and rewinding the machine restores all of these but
one part: of the data only the words that are in use get back what they held. A program that has
left the rest alone, and that finds the same answers at the host, can be run again any number of
times and does the same each time, whether it exits or fails. A program that stores beyond its data
finds there what the run before has stored.
-/

namespace WordC.Engine

open Machine (Intact Twins)

variable {m n : Machine} {program : Program} {tracing : Bool} {steps : Nat}

/-- What rewinding does not restore is as it was: the data that is not in use and the host's
answers. -/
structure Restorable (m n : Machine) : Prop where
  unused : n.words { start := m.dataEnd, stop := m.layout.data.stop } =
    m.words { start := m.dataEnd, stop := m.layout.data.stop }
  host : m.host.AnswersLike n.host

theorem getElem?_of_words {extent : Extent} (hwords : n.words extent = m.words extent)
    (hsize : n.memory.size = m.memory.size) {address : Nat} (hstart : extent.start ≤ address)
    (hstop : address < extent.stop) : n.memory[address]? = m.memory[address]? := by
  have hsame : (n.memory.extract extent.start extent.stop)[address - extent.start]? =
      (m.memory.extract extent.start extent.stop)[address - extent.start]? := by
    rw [Array.ext' hwords]
  rw [Array.getElem?_extract, Array.getElem?_extract, hsize, Nat.add_sub_cancel' hstart] at hsame
  by_cases hlt : address < m.memory.size
  · rwa [if_pos (by omega), if_pos (by omega)] at hsame
  · rw [Array.getElem?_eq_none (by omega), Array.getElem?_eq_none (by omega)]

/-- A machine that keeps all that rewinding cannot restore is rewound to the same state. -/
theorem reset_eq (h : m.Intact) (hkeeps : m.Keeps (m.layout.text.stop ≤ ·) n)
    (hunused : n.words { start := m.dataEnd, stop := m.layout.data.stop } =
      m.words { start := m.dataEnd, stop := m.layout.data.stop }) :
    n.reset = { m.reset with host := n.host } := by
  have hmemory : n.reset.memory = m.reset.memory := by
    refine Array.ext_getElem? fun address => ?_
    have himage := h.image
    unfold Machine.dataLength at himage
    have hdata := h.sound.dataStart
    have hordered := h.sound.ordered
    have htext := hordered.data
    have hheap := hordered.heap
    have hsize := h.size_eq
    simp only [Machine.reset, Memory.getElem?_fill, Memory.getElem?_copy, Memory.size_copy,
      hkeeps.layout, hkeeps.dataImage, hkeeps.size]
    split
    · rfl
    · split
      · rfl
      · rcases Nat.lt_or_ge address m.layout.text.stop with hbefore | hbehind
        · exact hkeeps.memory address (Nat.not_le.2 hbefore)
        · rcases Nat.lt_or_ge address m.memory.size with hlt | hge
          · exact getElem?_of_words hunused hkeeps.size (by simp only; omega) (by simp only; omega)
          · rw [Array.getElem?_eq_none hge, Array.getElem?_eq_none (hkeeps.size ▸ hge)]
  have hreset : n.reset = { m.reset with
      memory := n.reset.memory
      layout := n.layout
      textEnd := n.textEnd
      dataEnd := n.dataEnd
      dataImage := n.dataImage
      pc := n.layout.text.start
      sp := n.layout.stack.stop
      bp := n.layout.stack.stop
      cycleLimit := n.cycleLimit
      heap := .ofRegion n.layout.heap
      host := n.host } := rfl
  rw [hreset, hmemory, hkeeps.layout, hkeeps.textEnd, hkeeps.dataEnd, hkeeps.dataImage,
    hkeeps.cycleLimit]
  rfl

/-- The machine behind `count` runs of a program. -/
def rerun (program : Program) (tracing : Bool) (steps : Nat) (m : Machine) : Nat → Machine
  | 0 => m
  | count + 1 => (rerun program tracing steps m count).after (Engine.run program tracing steps)

/-- A run keeps the text and whatever rewinding needs. -/
theorem confined_run (h : m.Intact) (program : Program) (tracing : Bool) (steps : Nat) :
    m.Confined (m.layout.text.stop ≤ ·) (m.after (Engine.run program tracing steps)) := by
  have hreset := h.confined_reset
  rw [Engine.run, Machine.after_modify_bind]
  exact hreset.trans (hreset.intact.after_runFrom program.entry tracing steps)

theorem after_of_alike {related : Machine → Machine → Prop} {action : Action (Option Word)}
    (h : Alike related (action m) (action n)) : related (m.after action) (n.after action) := by
  unfold Machine.after
  generalize action m = first at h
  generalize action n = second at h
  cases h with
  | ok hrelated => exact hrelated
  | error hrelated => exact hrelated

theorem alike_run {base base' : Host} (h : Twins base base' m.reset n.reset) (program : Program)
    (tracing : Bool) (steps : Nat) :
    Alike (Twins base base') (Engine.run program tracing steps m)
      (Engine.run program tracing steps n) :=
  Machine.respects_runFrom program.entry tracing steps h

/-- Rewound, the machine is the same behind every run. -/
theorem reset_rerun (h : m.Intact)
    (hfirst : Restorable m (m.after (Engine.run program tracing steps))) (count : Nat) :
    (rerun program tracing steps m count).reset =
        { m.reset with host := (rerun program tracing steps m count).host } ∧
      m.host.AnswersLike (rerun program tracing steps m count).host := by
  have hrewound := reset_eq h (confined_run h program tracing steps).keeps hfirst.unused
  induction count with
  | zero => exact ⟨rfl, rfl, rfl⟩
  | succ count ih =>
      have htwins : Twins m.host (rerun program tracing steps m count).host m.reset
          (rerun program tracing steps m count).reset := ⟨_, ih.1, ih.2.since⟩
      obtain ⟨host, hsame, hsince⟩ := after_of_alike (alike_run htwins program tracing steps)
      rw [rerun, hsame]
      refine ⟨?_, hsince.answers.trans hfirst.host.answers, hsince.mode.trans hfirst.host.mode⟩
      calc Machine.reset { m.after (Engine.run program tracing steps) with host }
          = { (m.after (Engine.run program tracing steps)).reset with host } := rfl
        _ = { m.reset with host } := by rw [hrewound]

/-- Unless the first run of a compiled text has changed what rewinding does not restore, each run
gives the same result and writes the same bytes. -/
theorem run_rerun {poolSize : Nat} {old : Machine} {source : String}
    (hreached : Reachable poolSize old) (hcompile : Engine.compile source old = .ok program m)
    (hfirst : Restorable m (m.after (Engine.run program tracing steps))) (count : Nat) :
    Alike (Twins m.host (rerun program tracing steps m count).host)
      (Engine.run program tracing steps m)
      (Engine.run program tracing steps (rerun program tracing steps m count)) := by
  obtain ⟨host, new, calls, hcreate, rfl⟩ := hreached
  obtain ⟨hintact, -⟩ := Machine.intact_create hcreate
  have hcompiled := intactWith_compile (intactWith_performAll ⟨hintact, rfl⟩ calls) source
  rw [Machine.after_of_ok hcompile] at hcompiled
  obtain ⟨hreset, hhost⟩ := reset_rerun hcompiled.intact hfirst count
  exact alike_run ⟨_, hreset, hhost.since⟩ program tracing steps

/-! ## Two programs -/

/-- There is nothing to be cleared on a new machine. -/
theorem compile_small (source : String) :
    Engine.compile source .small = WordC.compile source .small := by
  rw [Engine.compile, Machine.modify_bind,
    Machine.clear_eq_blank (Machine.intact_create Machine.create_small).1]
  rfl

/-- Whether a text has been compiled to a program whose first run asks the system for nothing and
can be repeated. -/
def isRepeatable (steps : Nat) : EStateM.Result Error Machine Program → Bool
  | .ok program m =>
      let n := m.after (Engine.run program false steps)
      n.words { start := m.dataEnd, stop := m.layout.data.stop } =
          m.words { start := m.dataEnd, stop := m.layout.data.stop } ∧
        n.host.asked = m.host.asked ∧ n.host.sink.mode = m.host.sink.mode
  | .error _ _ => false

theorem exists_of_isRepeatable {result : EStateM.Result Error Machine Program}
    (h : isRepeatable steps result = true) :
    ∃ program m, result = .ok program m ∧
      Restorable m (m.after (Engine.run program false steps)) := by
  cases result with
  | ok program m =>
      obtain ⟨hunused, hasked, hmode⟩ := of_decide_eq_true h
      have hsystem := system_after (fun _ _ => respects_run program false steps) m
      refine ⟨program, m, rfl, hunused, ?_, hmode⟩
      rw [Host.answers, hsystem, hasked, Host.answers]
  | error error m => cases h

/-- A program that counts in a global variable. -/
def counting : String :=
  "int g; int main() \x7b g = g + 1; return g; \x7d"

theorem run_rerun_counting :
    ∃ program m, Reachable 256 .small ∧ Engine.compile counting .small = .ok program m ∧
      Restorable m (m.after (Engine.run program false 20)) ∧
      ∀ count, Alike (Twins m.host (rerun program false 20 m count).host)
        (Engine.run program false 20 m)
        (Engine.run program false 20 (rerun program false 20 m count)) := by
  have hrepeatable : isRepeatable 20 (WordC.compile counting .small) = true := by decide +kernel
  rw [← compile_small] at hrepeatable
  obtain ⟨program, m, hcompile, hfirst⟩ := exists_of_isRepeatable hrepeatable
  have hreached : Reachable 256 .small := ⟨_, _, [], Machine.create_small, rfl⟩
  exact ⟨program, m, hreached, hcompile, hfirst, run_rerun hreached hcompile hfirst⟩

/-- A program that answers with the word behind its data and then changes that word. -/
def remembering : String :=
  "int g; int main() \x7b int r; r = *(&g + 1); memset(&g + 1, 7, 1); return r; \x7d"

/-- What the first two runs of a compiled text answer. -/
def answers (steps : Nat) : EStateM.Result Error Machine Program → List (Option Word)
  | .ok program m =>
      [0, 1].map fun earlier =>
        match Engine.run program false steps (rerun program false steps m earlier) with
        | .ok answer _ => answer
        | .error _ _ => none
  | .error _ _ => []

/-- The second run is not like the first. -/
theorem answers_remembering :
    answers 40 (Engine.compile remembering .small) = [some 0, some 7] := by
  rw [compile_small]
  decide +kernel

end WordC.Engine
