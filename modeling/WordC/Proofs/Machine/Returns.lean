import WordC.Proofs.Machine.Runs

/-!
# Where a run returns to

A call leaves the address behind it, and the innermost call that is still open says where the next
return goes. Which calls are open can be told from the instructions that have been carried out.
-/

namespace WordC

namespace Instruction

/-- Where a jump or a call goes. -/
def target? (instruction : Instruction) : Option Nat :=
  instruction.operand.bind Word.count?

/-- Where an instruction takes the program counter. `calls` are the return addresses of the open
calls, the innermost first. -/
def Moves (instruction : Instruction) (pc : Nat) (calls : List Nat) (next : Nat) : Prop :=
  match instruction.opcode with
  | .jmp | .call => instruction.target? = some next
  | .jz | .jnz => next = pc + instruction.width ∨ instruction.target? = some next
  | .lev => calls.head? = some next
  | _ => next = pc + instruction.width

/-- The return addresses of the calls that are open behind an instruction. -/
def returns (instruction : Instruction) (pc : Nat) (calls : List Nat) : List Nat :=
  match instruction.opcode with
  | .call => (pc + instruction.width) :: calls
  | .lev => calls.tail
  | _ => calls

/-- Whether an instruction stays in an area as long as it neither returns nor calls. A call comes
back to the area and leads into another one. -/
structure Stays (instruction : Instruction) (pc next : Nat) (area called : Nat → Prop) : Prop where
  call : instruction.opcode = .call → area (pc + instruction.width) ∧ called next
  other : instruction.opcode ≠ .call → instruction.opcode ≠ .lev → area next

end Instruction

/-- The program counter is in the inner area while a call is open, and every open call but the
outermost comes back there. Without an open call it is in the outer area. -/
def Nested (outer inner : Nat → Prop) : Nat → List Nat → Prop
  | pc, [] => outer pc
  | pc, back :: calls => inner pc ∧ Nested outer inner back calls

section Nested

variable {outer inner : Nat → Prop} {instruction : Instruction} {pc next : Nat} {calls : List Nat}

theorem Nested.inner_of_ne_nil (h : Nested outer inner pc calls) (hcalls : calls ≠ []) :
    inner pc := by
  cases calls with
  | nil => exact absurd rfl hcalls
  | cons back calls => exact h.1

theorem Instruction.returns_of_other (hcall : instruction.opcode ≠ .call)
    (hlev : instruction.opcode ≠ .lev) : instruction.returns pc calls = calls := by
  unfold Instruction.returns
  split
  · next heq => exact absurd heq hcall
  · next heq => exact absurd heq hlev
  · rfl

/-- An instruction outside of all calls. -/
theorem Nested.of_stays (h : instruction.Stays pc next outer inner)
    (hmoves : instruction.Moves pc [] next) :
    Nested outer inner next (instruction.returns pc []) := by
  by_cases hcall : instruction.opcode = .call
  · simp only [Instruction.returns, hcall]
    exact (h.call hcall).symm
  by_cases hlev : instruction.opcode = .lev
  · simp only [Instruction.Moves, hlev] at hmoves
    cases hmoves
  · rw [Instruction.returns_of_other hcall hlev]
    exact h.other hcall hlev

theorem Nested.moves (h : Nested outer inner pc calls) (hmoves : instruction.Moves pc calls next)
    (houter : calls = [] → outer pc → instruction.Stays pc next outer inner)
    (hinner : inner pc → instruction.Stays pc next inner inner) :
    Nested outer inner next (instruction.returns pc calls) := by
  cases calls with
  | nil => exact .of_stays (houter rfl h) hmoves
  | cons back calls =>
      have hstays := hinner h.1
      by_cases hcall : instruction.opcode = .call
      · simp only [Instruction.returns, hcall]
        exact ⟨(hstays.call hcall).2, (hstays.call hcall).1, h.2⟩
      by_cases hlev : instruction.opcode = .lev
      · simp only [Instruction.Moves, hlev] at hmoves
        simp only [Instruction.returns, hlev]
        cases hmoves
        exact h.2
      · rw [Instruction.returns_of_other hcall hlev]
        exact ⟨hstays.other hcall hlev, h.2⟩

end Nested

namespace Machine

/-- The return addresses of the calls that are open after some steps of a run. -/
def openCalls (start : Machine) (entry : Nat) (tracing : Bool) : Nat → List Nat
  | 0 => []
  | steps + 1 =>
      let calls := start.openCalls entry tracing steps
      match runFrom entry tracing steps start with
      | .ok none m =>
          match m.fetch with
          | .ok instruction => instruction.returns m.pc calls
          | .error _ => calls
      | _ => calls

variable {start m : Machine} {entry steps : Nat} {tracing : Bool} {instruction : Instruction}

theorem openCalls_succ (hrun : runFrom entry tracing steps start = .ok none m)
    (hfetch : m.fetch = .ok instruction) :
    start.openCalls entry tracing (steps + 1) =
      instruction.returns m.pc (start.openCalls entry tracing steps) := by
  simp only [openCalls, hrun, hfetch]

end Machine

end WordC
