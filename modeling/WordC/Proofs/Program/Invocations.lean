import WordC.Proofs.Compile.Bodies
import WordC.Proofs.Program.Frames

/-!
# What a call leaves on the stack

The arguments of a call are pushed in their order, so the first one ends up farthest from the base
pointer of the function. Between them and the base pointer lies the return address.
-/

namespace WordC.Machine

variable {m : Machine}

/-- What a call does before the body of its function runs. -/
def invoke (arguments : List Word) (target slots : Word) : Action Unit := do
  arguments.forM push
  let _ ← execute { opcode := .call, operand := some target }
  let _ ← execute { opcode := .ent, operand := some slots }

/-- Whether a function at the target can be called with so many arguments. -/
structure CanInvoke (m : Machine) (arity target slots : Nat) : Prop where
  target : m.IsTarget target
  small : slots < 2 ^ 63
  size : m.sp ≤ m.memory.size
  room : m.layout.stack.start + arity + 2 + slots ≤ m.sp

/-- The arguments have been pushed. -/
structure Stacked (m : Machine) (arguments : List Word) (m' : Machine) : Prop where
  sp : m'.sp + arguments.length = m.sp
  bp : m'.bp = m.bp
  pc : m'.pc = m.pc
  layout : m'.layout = m.layout
  textEnd : m'.textEnd = m.textEnd
  size : m'.memory.size = m.memory.size
  argument : ∀ index argument, arguments[index]? = some argument →
    m'.memory[m.sp - 1 - index]? = some argument
  above : ∀ address, m.sp ≤ address → m'.memory[address]? = m.memory[address]?

theorem exists_stacked (arguments : List Word) :
    ∀ m : Machine, m.sp ≤ m.memory.size → m.layout.stack.start + arguments.length ≤ m.sp →
      ∃ m', arguments.forM push m = .ok () m' ∧ Stacked m arguments m' := by
  induction arguments with
  | nil => exact fun m _ _ => ⟨m, rfl, rfl, rfl, rfl, rfl, rfl, rfl, nofun, fun _ _ => rfl⟩
  | cons argument arguments ih =>
      intro m hsize hroom
      rw [List.length_cons] at hroom
      let pushed : Machine := { m.setWord (m.sp - 1) argument with sp := m.sp - 1 }
      have hpush : push argument m = .ok () pushed := push_eq (by omega)
      have hsize' : pushed.memory.size = m.memory.size := size_setWord _ _
      have hsp : pushed.sp = m.sp - 1 := rfl
      obtain ⟨m', hok, h⟩ := ih pushed (by omega)
        (show m.layout.stack.start + arguments.length ≤ pushed.sp by omega)
      have hsp' := h.sp
      refine ⟨m', (bind_of_ok hpush).trans hok, ?_, h.bp, h.pc, h.layout, h.textEnd,
        h.size.trans hsize', ?_, ?_⟩
      · rw [List.length_cons]
        omega
      · intro index other hindex
        cases index with
        | zero =>
            cases hindex
            rw [Nat.sub_zero, h.above _ (Nat.le_refl _)]
            exact getElem?_setWord_self (by omega) argument
        | succ index =>
            rw [show m.sp - 1 - (index + 1) = pushed.sp - 1 - index by omega]
            exact h.argument index other hindex
      · intro address haddress
        rw [h.above address (by omega)]
        exact getElem?_setWord_of_ne (by omega) argument

/-- The machine is in front of the body of a function that has been called with these arguments. -/
structure Invoked (m : Machine) (arguments : List Word) (m' : Machine) : Prop where
  bp : m'.bp + 2 + arguments.length = m.sp
  saved : m'.memory[m'.bp]? = some (Word.ofCount m.bp)
  back : m'.memory[m'.bp + 1]? = some (Word.ofCount m.pc)
  argument : ∀ index argument, arguments[index]? = some argument →
    m'.memory[m'.bp + 1 + (arguments.length - index)]? = some argument

theorem getElem?_entered (hroom : 0 < m.sp) {slots address : Nat} (haddress : m.sp ≤ address) :
    (m.entered slots).memory[address]? = m.memory[address]? := by
  change (Memory.fill _ _ _ (Extent.size _))[address]? = _
  rw [Memory.getElem?_fill, if_neg (by simp only [Extent.size]; omega)]
  exact getElem?_setWord_of_ne (by omega) _

theorem getElem?_entered_bp (hroom : 0 < m.sp) (hsize : m.sp ≤ m.memory.size) {slots : Nat} :
    (m.entered slots).memory[m.sp - 1]? = some (Word.ofCount m.bp) := by
  change (Memory.fill _ _ _ (Extent.size _))[m.sp - 1]? = _
  rw [Memory.getElem?_fill, if_neg (by simp only [Extent.size]; omega)]
  exact getElem?_setWord_self (by omega) _

theorem exists_invoked {arguments : List Word} {target slots : Nat}
    (h : m.CanInvoke arguments.length target slots) :
    ∃ m', invoke arguments (Word.ofCount target) (Word.ofCount slots) m = .ok () m' ∧
      Invoked m arguments m' := by
  have hsize := h.size
  have hroom := h.room
  obtain ⟨stacked, hstack, hstacked⟩ := exists_stacked arguments m h.size (by omega)
  have hsp := hstacked.sp
  have hsize' := hstacked.size
  have htarget : stacked.IsTarget target :=
    ⟨hstacked.layout ▸ h.target.start, hstacked.textEnd ▸ h.target.stop, h.target.small⟩
  -- The machine between the call and its function.
  let entry : Machine :=
    { stacked.setWord (stacked.sp - 1) (Word.ofCount stacked.pc) with
      sp := stacked.sp - 1, pc := target }
  have hlayout : stacked.layout.stack.start = m.layout.stack.start := by rw [hstacked.layout]
  have hentryLayout : entry.layout.stack.start = m.layout.stack.start := hlayout
  have hentry : entry.sp = stacked.sp - 1 := rfl
  have hentrySize : entry.memory.size = m.memory.size := (size_setWord _ _).trans hsize'
  have hcall : execute { opcode := .call, operand := some (Word.ofCount target) } stacked =
      .ok none entry := execute_call htarget (by omega)
  have hopen : execute { opcode := .ent, operand := some (Word.ofCount slots) } entry =
      .ok none (entry.entered slots) := execute_ent h.small (by omega) (by omega)
  have hbp : (entry.entered slots).bp = entry.sp - 1 := rfl
  refine ⟨entry.entered slots,
    (bind_of_ok hstack).trans ((bind_of_ok hcall).trans ((bind_of_ok hopen).trans rfl)), ?_⟩
  refine ⟨by rw [hbp]; omega, ?_, ?_, ?_⟩
  · rw [hbp, getElem?_entered_bp (by omega) (by omega)]
    exact congrArg (fun bp => some (Word.ofCount bp)) hstacked.bp
  · rw [hbp, getElem?_entered (by omega) (by omega),
      show entry.sp - 1 + 1 = stacked.sp - 1 by omega, ← hstacked.pc]
    exact getElem?_setWord_self (by omega) _
  · intro index argument hargument
    have hindex := (List.getElem?_eq_some_iff.1 hargument).1
    rw [hbp, getElem?_entered (by omega) (by omega),
      show entry.sp - 1 + 1 + (arguments.length - index) = m.sp - 1 - index by omega,
      ← hstacked.argument index argument hargument]
    exact getElem?_setWord_of_ne (by omega) _

/-- The offset of a parameter leads past the saved base pointer and the return address. -/
theorem execute_lea_parameter {index arity : Nat} (hindex : index < arity) (m : Machine) :
    execute { opcode := .lea, operand := some (Word.ofCount index - (Word.ofCount arity + 1)) } m =
      .ok none { m with acc := Word.ofCount (m.bp + 1 + (arity - index)) } := by
  obtain ⟨behind, rfl⟩ : ∃ behind, arity = index + (behind + 1) := ⟨arity - index - 1, by omega⟩
  have haddress : m.bp + 1 + (index + (behind + 1) - index) = m.bp + (behind + 2) := by omega
  rw [Word.ofCount_parameter, haddress, ← Word.ofCount_sub_neg m.bp]
  rfl

end WordC.Machine
