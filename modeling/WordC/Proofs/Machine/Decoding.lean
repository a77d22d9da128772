import WordC.Instruction

/-!
# Decoding instructions

The words of an instruction decode to it, whatever follows. Words decode to a sequence of
instructions if each instruction begins where the one in front of it ends and the last one ends with
the words.
-/

namespace WordC

theorem Opcode.ofWord?_word (opcode : Opcode) : ofWord? opcode.word = some opcode := by
  cases opcode with
  | binary operator => cases operator <;> rfl
  | trap request => cases request <;> rfl
  | _ => rfl

namespace Instruction

/-- Whether the instruction has an operand exactly if its opcode takes one. -/
def IsComplete (instruction : Instruction) : Prop :=
  instruction.opcode.hasOperand = instruction.operand.isSome

theorem decode?_words {instruction : Instruction} (h : instruction.IsComplete) (rest : List Word) :
    decode? (instruction.words ++ rest) = some instruction := by
  obtain ⟨opcode, operand⟩ := instruction
  have hoperand : opcode.hasOperand = operand.isSome := h
  simp only [words, List.cons_append, decode?, Opcode.ofWord?_word, Option.bind_eq_bind,
    Option.bind_some]
  cases operand with
  | none =>
      rw [if_neg (by rw [hoperand]; exact Bool.false_ne_true)]
      rfl
  | some operand =>
      rw [if_pos (by rw [hoperand]; rfl)]
      rfl

theorem length_words (instruction : Instruction) :
    instruction.words.length = instruction.width := by
  obtain ⟨opcode, operand⟩ := instruction
  cases operand <;> rfl

end Instruction

/-- The words from an address on decode to the instructions, each with its address, and end with the
last one. -/
inductive Decodes : Nat → List Word → List (Nat × Instruction) → Prop where
  | nil (address : Nat) : Decodes address [] []
  | cons {address : Nat} {words : List Word} {instruction : Instruction}
      {rest : List (Nat × Instruction)} (head : Instruction.decode? words = some instruction)
      (fits : instruction.width ≤ words.length)
      (tail : Decodes (address + instruction.width) (words.drop instruction.width) rest) :
      Decodes address words ((address, instruction) :: rest)

theorem Decodes.of_words {address : Nat} {instruction : Instruction} {words : List Word}
    {rest : List (Nat × Instruction)} (hcomplete : instruction.IsComplete)
    (h : Decodes (address + instruction.width) words rest) :
    Decodes address (instruction.words ++ words) ((address, instruction) :: rest) := by
  refine .cons (Instruction.decode?_words hcomplete words) ?_ ?_
  · rw [List.length_append, Instruction.length_words]
    exact Nat.le_add_right _ _
  · rw [← Instruction.length_words, List.drop_left]
    rw [Instruction.length_words]
    exact h

/-- An instruction that is decoded begins with a word of its opcode. -/
theorem Decodes.exists_word {address : Nat} {words : List Word} {listing : List (Nat × Instruction)}
    (h : Decodes address words listing) :
    ∀ line ∈ listing, ∃ word ∈ words, Opcode.ofWord? word = some line.2.opcode := by
  induction h with
  | nil address => exact fun _ hmem => absurd hmem List.not_mem_nil
  | @cons address words instruction rest head _ _ ih =>
      rw [List.forall_mem_cons]
      refine ⟨?_, fun line hline => ?_⟩
      · cases words with
        | nil => cases head
        | cons word words =>
            refine ⟨word, List.mem_cons_self, ?_⟩
            simp only [Instruction.decode?, Option.bind_eq_bind, Option.bind_eq_some_iff] at head
            obtain ⟨opcode, hopcode, hoperand⟩ := head
            rw [hopcode]
            split at hoperand
            · obtain ⟨operand, -, hsome⟩ := Option.bind_eq_some_iff.1 hoperand
              cases hsome
              rfl
            · cases hoperand
              rfl
      · obtain ⟨word, hmem, hword⟩ := ih line hline
        exact ⟨word, List.mem_of_mem_drop hmem, hword⟩

end WordC
