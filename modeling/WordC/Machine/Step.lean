import WordC.Machine.Trap

/-!
# One step

A step fetches the instruction at the program counter, counts it and carries it out.
-/

namespace WordC.Machine

/-- The instruction at the program counter, which has to lie in the written text. -/
def fetch (machine : Machine) : Except Error Instruction :=
  let pc := machine.pc
  if pc < machine.layout.text.start ∨ machine.textEnd ≤ pc then
    .error (.invalidAccess (Word.ofCount pc) pc)
  else
    let word := machine.wordAt pc
    match Opcode.ofWord? word with
    | none => .error (.unknownOpcode word pc)
    | some .plac => .error (.pendingPatch pc)
    | some opcode =>
        if opcode.hasOperand then
          if pc + 1 < machine.textEnd then
            .ok { opcode, operand := some (machine.wordAt (pc + 1)) }
          else .error (.invalidAccess (Word.ofCount pc + 1) pc)
        else .ok { opcode, operand := none }

def load (word : Word) : Action Unit :=
  modify fun machine => { machine with acc := word }

def jump (target : Word) : Action Unit := do
  let pc ← jumpTarget target
  modify fun machine => { machine with pc }

/-- Pushes the return address and jumps. -/
def callTo (target : Word) : Action Unit := do
  let target ← jumpTarget target
  push (Word.ofCount (← get).pc)
  modify fun machine => { machine with pc := target }

/-- Saves the base pointer and opens a frame of `slots` zeros. -/
def enterFrame (slots : Word) : Action Unit := do
  push (Word.ofCount (← get).bp)
  modify fun machine => { machine with bp := machine.sp }
  let slots ← count slots
  let machine ← get
  if machine.sp - machine.layout.stack.start < slots then
    throw (.stackOverflow machine.current)
  let sp := machine.sp - slots
  modify fun machine => { machine.fill { start := sp, stop := machine.bp } 0 with sp }

/-- Drops words from the stack. -/
def adjust (words : Word) : Action Unit := do
  let words ← count words
  let machine ← get
  let sp := machine.sp + words
  if machine.layout.stack.stop < sp then throw (machine.fault (Word.ofCount sp))
  modify fun machine => { machine with sp }

/-- Closes the frame: back to the saved base pointer and the return address. -/
def leaveFrame : Action Unit := do
  modify fun machine => { machine with sp := machine.bp }
  let saved ← pop
  let machine ← get
  match saved.count?.filter fun bp =>
      machine.layout.stack.start ≤ bp && bp ≤ machine.layout.stack.stop with
  | none => throw (machine.fault saved)
  | some bp =>
      modify fun machine => { machine with bp }
      jump (← pop)

def loadIndirect : Action Unit := do
  let address ← address (← get).acc
  modify fun machine => { machine with acc := machine.wordAt address }

def storeIndirect : Action Unit := do
  let word ← pop
  let extent ← writable (← get).acc 1
  modify fun machine => { machine.setWord extent.start word with acc := word }

def combine (operator : Operator) : Action Unit := do
  let left ← pop
  let machine ← get
  match operator.apply? left machine.acc with
  | none => throw (.divisionByZero machine.current)
  | some word => load word

/-- Carries out an instruction. The result is there once the program exits. -/
def execute (instruction : Instruction) : Action (Option Word) := do
  let operand := instruction.operand.getD 0
  match instruction.opcode with
  | .lea => load (Word.ofCount (← get).bp - operand)
  | .imm => load operand
  | .jmp => jump operand
  | .call => callTo operand
  | .jz => if (← get).acc = 0 then jump operand
  | .jnz => if (← get).acc ≠ 0 then jump operand
  | .ent => enterFrame operand
  | .adj => adjust operand
  | .lev => leaveFrame
  | .li => loadIndirect
  | .si => storeIndirect
  | .push => push (← get).acc
  | .binary operator => combine operator
  | .plac => throw (.pendingPatch (← get).current)
  | .trap request => load (← trap request operand)
  | .exit => return some (← get).acc
  return none

def checkCycleLimit : Action Unit := do
  let machine ← get
  match machine.cycleLimit with
  | none => return
  | some limit => if limit ≤ machine.cycles then throw (.cycleLimit limit)

/-- One step. With `tracing`, the instruction is put into the journal before it is carried out. -/
def step (tracing : Bool) : Action (Option Word) := do
  checkCycleLimit
  modify fun machine => { machine with current := machine.pc }
  match (← get).fetch with
  | .error error => throw error
  | .ok instruction =>
      modify fun machine => { machine with cycles := machine.cycles + 1 }
      if tracing then
        modify fun machine =>
          machine.report (.executing machine.cycles machine.current instruction)
      modify fun machine => { machine with pc := machine.pc + instruction.width }
      execute instruction

end WordC.Machine
