import WordC.Proofs.Machine.Runs

/-!
# Walks

A walk follows a machine step by step until it is where it should be, or until an error ends it. It
keeps to a set of addresses, so it tells as well which instructions are never carried out. What code
puts on top of the stack while it computes is its own affair: the rest of the machine stands still.
-/

namespace WordC.Machine

variable {tracing : Bool} {m m' m'' : Machine} {instruction : Instruction}

/-! ## On top of the stack -/

/-- The machine without its words, the journal, and the registers that every instruction moves. -/
def still (m : Machine) : Machine :=
  { m with
    memory := #[]
    pc := 0
    sp := 0
    acc := 0
    current := 0
    cycles := 0
    host := { m.host with journal := #[] } }

/-- The stack may have grown. Only words that it did not use have changed. -/
structure Atop (m m' : Machine) : Prop where
  still : m'.still = m.still
  size : m'.memory.size = m.memory.size
  memory : ∀ address, ¬(m.layout.stack.start ≤ address ∧ address < m.sp) →
    m'.memory[address]? = m.memory[address]?
  start : m.layout.stack.start ≤ m'.sp
  sp : m'.sp ≤ m.sp

namespace Atop

theorem layout (h : m.Atop m') : m'.layout = m.layout :=
  (congrArg Machine.layout h.still :)

theorem textEnd (h : m.Atop m') : m'.textEnd = m.textEnd :=
  (congrArg Machine.textEnd h.still :)

theorem bp (h : m.Atop m') : m'.bp = m.bp :=
  (congrArg Machine.bp h.still :)

theorem cycleLimit (h : m.Atop m') : m'.cycleLimit = m.cycleLimit :=
  (congrArg Machine.cycleLimit h.still :)

theorem refl (h : m.layout.stack.start ≤ m.sp) : m.Atop m :=
  ⟨rfl, rfl, fun _ _ => rfl, h, Nat.le_refl _⟩

theorem trans (h : m.Atop m') (h' : m'.Atop m'') : m.Atop m'' where
  still := h'.still.trans h.still
  size := h'.size.trans h.size
  memory := by
    intro address hout
    have hsp := h.sp
    rw [h'.memory address (by rw [h.layout]; omega), h.memory address hout]
  start := h.layout ▸ h'.start
  sp := Nat.le_trans h'.sp h.sp

/-- An instruction that works on registers. -/
theorem move (h : m.Atop m') {pc sp : Nat} {acc : Word} (hstart : m.layout.stack.start ≤ sp)
    (hsp : sp ≤ m.sp) : m.Atop { m'.advance tracing instruction with pc, sp, acc } where
  still := by
    cases tracing <;> exact h.still
  size := h.size
  memory := h.memory
  start := hstart
  sp := hsp

/-- An instruction that pushes a word. -/
theorem push (h : m.Atop m') (hroom : m'.layout.stack.start < m'.sp) (word : Word) :
    m.Atop { (m'.advance tracing instruction).setWord (m'.sp - 1) word with sp := m'.sp - 1 } where
  still := by
    cases tracing <;> exact h.still
  size := Array.size_setIfInBounds.trans h.size
  memory := by
    intro address hout
    have hsp := h.sp
    rw [h.layout] at hroom
    exact (Array.getElem?_setIfInBounds_ne (by omega)).trans (h.memory address hout)
  start := by
    rw [h.layout] at hroom
    exact Nat.le_sub_one_of_lt hroom
  sp := Nat.le_trans (Nat.sub_le _ _) h.sp

end Atop

/-! ## Step by step -/

/-- Steps of instructions at certain addresses lead to a machine that is good, or to an error that
is to be expected. -/
inductive Walks (tracing : Bool) (through : Nat → Prop) (good : Machine → Prop)
    (bad : Error → Machine → Prop) : Machine → Prop where
  | here {m : Machine} (h : good m) : Walks tracing through good bad m
  | step {m m' : Machine} (hpc : through m.pc) (hstep : Machine.step tracing m = .ok none m')
      (h : Walks tracing through good bad m') : Walks tracing through good bad m
  | error {m m' : Machine} {error : Error} (hpc : through m.pc)
      (hstep : Machine.step tracing m = .error error m') (h : bad error m') :
      Walks tracing through good bad m

namespace Walks

variable {through through' : Nat → Prop} {good good' : Machine → Prop}
  {bad bad' : Error → Machine → Prop}

theorem trans (h : Walks tracing through good bad m) (hthrough : ∀ pc, through pc → through' pc)
    (hbad : ∀ error m', bad error m' → bad' error m')
    (hnext : ∀ m', good m' → Walks tracing through' good' bad' m') :
    Walks tracing through' good' bad' m := by
  induction h with
  | here hgood => exact hnext _ hgood
  | step hpc hstep _ ih => exact .step (hthrough _ hpc) hstep ih
  | error hpc hstep herror => exact .error (hthrough _ hpc) hstep (hbad _ _ herror)

theorem weaken (h : Walks tracing through good bad m) (hgood : ∀ m', good m' → good' m') :
    Walks tracing through good' bad m :=
  h.trans (fun _ => id) (fun _ _ => id) fun m' hm' => .here (hgood m' hm')

/-- A walk as a run of so many steps: all the machines on the way are at addresses that are
allowed. -/
theorem exists_runSteps (h : Walks tracing through good bad m) :
    ∃ steps, (∀ count < steps, ∃ passed, runSteps tracing count m = .ok none passed ∧
        through passed.pc) ∧
      ((∃ m', runSteps tracing steps m = .ok none m' ∧ good m') ∨
        ∃ error m', runSteps tracing steps m = .error error m' ∧ bad error m') := by
  induction h with
  | here hgood =>
      exact ⟨0, fun count hcount => absurd hcount (Nat.not_lt_zero _), .inl ⟨_, rfl, hgood⟩⟩
  | @step m _ hpc hstep _ ih =>
      obtain ⟨steps, hpassed, hend⟩ := ih
      refine ⟨steps + 1, fun count hcount => ?_, ?_⟩
      · cases count with
        | zero => exact ⟨m, rfl, hpc⟩
        | succ count =>
            rw [runSteps_succ_of_step hstep]
            exact hpassed count (Nat.lt_of_succ_lt_succ hcount)
      · rw [runSteps_succ_of_step hstep]
        exact hend
  | @error m _ _ hpc hstep herror =>
      refine ⟨1, fun count hcount => ?_, .inr ⟨_, _, ?_, herror⟩⟩
      · obtain rfl := Nat.lt_one_iff.1 hcount
        exact ⟨m, rfl, hpc⟩
      · rw [runSteps, bind_of_error hstep]

end Walks

end WordC.Machine
