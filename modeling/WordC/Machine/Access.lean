import WordC.Machine.Basic

/-!
# Checked access

Every address, count and jump target that a program computes is checked before it is used. A fault
names the offending word and the instruction.
-/

namespace WordC.Machine

def fault (machine : Machine) (word : Word) : Error :=
  .invalidAccess word machine.current

/-- A word used as a count. -/
def count (word : Word) : Action Nat := fun machine =>
  match word.count? with
  | some count => .ok count machine
  | none => .error (machine.fault word) machine

/-- A word used as the address of a word to be read. -/
def address (word : Word) : Action Nat := fun machine =>
  match word.count?.filter (· < machine.memory.size) with
  | some address => .ok address machine
  | none => .error (machine.fault word) machine

/-- A word used as the address of an instruction. -/
def jumpTarget (word : Word) : Action Nat := fun machine =>
  match word.count?.filter fun target =>
      machine.layout.text.start ≤ target && target < machine.textEnd with
  | some target => .ok target machine
  | none => .error (machine.fault word) machine

/-- The extent of `size` words from `start`, all inside the pool. -/
def readable (start size : Word) : Action Extent := fun machine =>
  match start.count?, size.count? with
  | some first, some size =>
      if first + size ≤ machine.memory.size then .ok ⟨first, first + size⟩ machine
      else .error (machine.fault start) machine
  | _, _ => .error (machine.fault start) machine

/-- An extent that may be overwritten: no word of it belongs to the text segment. -/
def writable (start size : Word) : Action Extent := do
  let extent ← readable start size
  let machine ← get
  if 0 < extent.size ∧ extent.start < machine.layout.text.stop ∧
      machine.layout.text.start < extent.stop then
    throw (machine.fault start)
  return extent

def push (word : Word) : Action Unit := fun machine =>
  if machine.sp ≤ machine.layout.stack.start then .error (.stackOverflow machine.current) machine
  else
    let sp := machine.sp - 1
    .ok () { machine.setWord sp word with sp }

def pop : Action Word := fun machine =>
  if machine.layout.stack.stop ≤ machine.sp then
    .error (machine.fault (Word.ofCount machine.sp)) machine
  else .ok (machine.wordAt machine.sp) { machine with sp := machine.sp + 1 }

/-- Pops arguments and gives them in the order in which they were pushed. -/
def popArguments (size : Word) : Action (List Word) := do
  let size ← count size
  let machine ← get
  let stop := machine.sp + size
  if machine.layout.stack.stop < stop then
    throw (machine.fault (Word.ofCount machine.sp))
  let arguments := machine.words { start := machine.sp, stop }
  modify fun machine => { machine with sp := stop }
  return arguments.reverse

/-- The bytes of the zero-terminated string at an address. -/
def bytesAt (word : Word) : Action Text.Utf8.Bytes := do
  let start ← address word
  return Memory.bytes (← get).memory start

end WordC.Machine
