import WordC.Machine.Access
import WordC.Machine.Template

/-!
# Traps

A trap pops its arguments and leaves its result in the accumulator. What goes wrong at the host is
answered with -1; a bad address or count is a fault of the machine. Arguments that are missing are
zero.
-/

namespace WordC.Machine

open Text.Utf8 (Bytes)

def announce (event : Event) : Action Unit :=
  modify fun machine => machine.report event

def openModeOf? (flags : Word) : Option OpenMode :=
  if flags = 0 then some .read
  else if flags = 1 then some .create
  else if flags = 2 then some .update
  else none

def openFile (path flags : Word) : Action Word := do
  let path := Text.Utf8.decode (← bytesAt path)
  match openModeOf? flags with
  | none => return -1
  | some mode =>
      let machine ← get
      let (answer, host) := machine.host.openFile path mode
      match answer with
      | .error error =>
          set { machine with host }
          announce (.openFailed path error)
          return -1
      | .ok handle =>
          let (descriptor, descriptors) := machine.descriptors.insert handle
          set { machine with descriptors, host }
          announce (.fileOpened path descriptor)
          return descriptor

/-- Stores bytes, one in each word, from the start of a checked extent. -/
def storeBytes (extent : Extent) (bytes : Bytes) : Action Unit :=
  modify fun machine =>
    { machine with
      memory := Memory.copy machine.memory extent.start (bytes.map Word.ofByte) }

/-- Reads into a buffer. The buffer is checked before the descriptor. -/
def readInto (descriptor buffer size : Word) : Action Word := do
  let extent ← writable buffer size
  let machine ← get
  match machine.descriptors.stream? descriptor with
  | none => return -1
  | some stream =>
      let (bytes?, host) := machine.host.read stream extent.size
      set { machine with host }
      match bytes? with
      | none => return -1
      | some bytes =>
          storeBytes extent bytes
          return Word.ofCount bytes.length

def closeFile (descriptor : Word) : Action Word := do
  let machine ← get
  match machine.descriptors.close? descriptor with
  | none => return -1
  | some descriptors =>
      set { machine with descriptors }
      return 0

/-- The text that a template in memory and its values print. -/
def format (machine : Machine) (template : Bytes) (values : List Word) : Except Error Bytes :=
  Template.render
    (fun address =>
      match bytesAt address machine with
      | .ok bytes _ => .ok bytes
      | .error error _ => .error error)
    (Template.parse template) values

def printf (arguments : List Word) : Action Word := do
  match arguments with
  | [] => return -1
  | template :: values =>
      let template ← bytesAt template
      let machine ← get
      match machine.format template values with
      | .error error => throw error
      | .ok text =>
          let (succeeded, host) := machine.host.write text
          set { machine with host }
          return if succeeded then Word.ofCount text.length else -1

/-- A block of zeros, or 0 if there is no room for it. -/
def malloc (size : Word) : Action Word := do
  let machine ← get
  match size.count?.bind machine.heap.allocate? with
  | none => return 0
  | some (address, heap) =>
      let extent : Extent := { start := address, stop := address + size.count?.getD 0 }
      set ({ machine with heap }.fill extent 0)
      return Word.ofCount address

/-- Releases a block by its first address; there is nothing to release at 0. -/
def free (pointer : Word) : Action Word := do
  if pointer = 0 then return 0
  let machine ← get
  match pointer.count? with
  | none => throw (machine.fault pointer)
  | some address =>
      match machine.heap.release? address with
      | none => throw (machine.fault pointer)
      | some (size, heap) =>
          set { machine with heap }
          announce (.blockFreed address size heap.live.length)
          return 0

def memset (pointer value size : Word) : Action Word := do
  let extent ← writable pointer size
  modify fun machine => machine.fill extent value
  return pointer

/-- The difference of the first two words that differ, or 0. -/
def firstDifference : List Word → List Word → Word
  | left :: lefts, right :: rights =>
      if left = right then firstDifference lefts rights else left - right
  | _, _ => 0

def memcmp (left right size : Word) : Action Word := do
  let left ← readable left size
  let right ← readable right size
  let machine ← get
  return firstDifference (machine.words left) (machine.words right)

def trap (trap : Trap) (size : Word) : Action Word := do
  let arguments ← popArguments size
  let argument (index : Nat) := arguments.getD index 0
  match trap with
  | .open => openFile (argument 0) (argument 1)
  | .read => readInto (argument 0) (argument 1) (argument 2)
  | .close => closeFile (argument 0)
  | .printf => printf arguments
  | .malloc => malloc (argument 0)
  | .free => free (argument 0)
  | .memset => memset (argument 0) (argument 1) (argument 2)
  | .memcmp => memcmp (argument 0) (argument 1) (argument 2)

end WordC.Machine
