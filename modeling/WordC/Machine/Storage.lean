import WordC.Machine.Basic

/-!
# Filling text and data

Text and data only grow. A word that is not known yet is written as a placeholder and patched later.
-/

namespace WordC.Machine

/-- Appends a word to the text and gives its address. -/
def emitWord (word : Word) : Action Nat := fun machine =>
  let address := machine.textEnd
  if machine.layout.text.stop ≤ address then .error (.segmentFull .text) machine
  else
    let status := if machine.status = .idle then .loaded else machine.status
    .ok address { machine.setWord address word with textEnd := address + 1, status }

def emitOpcode (opcode : Opcode) : Action Nat :=
  emitWord opcode.word

/-- Appends a word that is still to be patched. -/
def emitPlaceholder : Action Nat :=
  emitWord Opcode.plac.word

/-- Overwrites a word of the written text. -/
def patch (address : Nat) (word : Word) : Action Unit := fun machine =>
  if machine.layout.text.start ≤ address ∧ address < machine.textEnd then
    .ok () (machine.setWord address word)
  else .error (.invalidAccess (Word.ofCount address) machine.pc) machine

/-- Appends words to the data and gives the address of the first. -/
def allocate (words : List Word) : Action Nat := fun machine =>
  let address := machine.dataEnd
  if machine.layout.data.stop - address < words.length then .error (.segmentFull .data) machine
  else
    .ok address { machine with
      memory := Memory.copy machine.memory address words
      dataEnd := address + words.length
      dataImage := machine.dataImage ++ words }

def allocateGlobal (word : Word) : Action Nat :=
  allocate [word]

/-- A string takes one word for each byte and a zero behind them. -/
def allocateString (value : String) : Action Nat :=
  allocate ((Text.Utf8.encode value).map Word.ofByte ++ [0])

/-- The instructions that the written text begins with, each with its address. The listing stops at
the first word that cannot be decoded. -/
def disassemble (machine : Machine) : List (Nat × Instruction) :=
  go machine.layout.text.start machine.text machine.text.length
where
  go (address : Nat) (words : List Word) : Nat → List (Nat × Instruction)
    | 0 => []
    | steps + 1 =>
        match Instruction.decode? words with
        | none => []
        | some instruction =>
            (address, instruction) ::
              go (address + instruction.width) (words.drop instruction.width) steps

end WordC.Machine
