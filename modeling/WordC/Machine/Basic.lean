import WordC.Machine.Descriptors
import WordC.Memory.Heap

/-!
# The machine

A stack machine with an accumulator over one pool of words. The compiler appends instructions to the
text segment and globals to the data segment, and the machine runs them in place.
-/

namespace WordC

structure Machine where
  memory : Array Word
  layout : Layout
  /-- Where the written text ends. -/
  textEnd : Nat
  /-- Where the used data ends. -/
  dataEnd : Nat
  /-- The words the used data had when it was allocated. -/
  dataImage : List Word
  pc : Nat
  sp : Nat
  bp : Nat
  /-- The accumulator. -/
  acc : Word
  /-- The address of the instruction that is being executed. -/
  current : Nat
  cycles : Nat
  cycleLimit : Option Nat
  status : Status
  heap : Heap
  descriptors : Descriptors
  host : Host

/-- Actions on a machine. What an action has changed stays changed when it fails. -/
abbrev Action := EStateM Error Machine

namespace Machine

/-- A machine with nothing in its memory. -/
def blank (layout : Layout) (cycleLimit : Option Nat) (host : Host) : Machine :=
  { memory := Array.replicate layout.poolSize 0
    layout
    textEnd := layout.text.start
    dataEnd := layout.data.start
    dataImage := []
    pc := layout.text.start
    sp := layout.stack.stop
    bp := layout.stack.stop
    acc := 0
    current := 0
    cycles := 0
    cycleLimit
    status := .idle
    heap := .ofRegion layout.heap
    descriptors := .none
    host }

def create (poolSize : Nat) (host : Host) : Except Error Machine :=
  match Layout.partition? poolSize with
  | none => .error (.poolTooSmall poolSize)
  | some layout => .ok (blank layout none host)

def dataLength (machine : Machine) : Nat :=
  machine.dataEnd - machine.layout.data.start

def word? (machine : Machine) (address : Nat) : Option Word :=
  machine.memory[address]?

/-- The word at an address of the pool. -/
def wordAt (machine : Machine) (address : Nat) : Word :=
  machine.memory.getD address 0

def setWord (machine : Machine) (address : Nat) (word : Word) : Machine :=
  { machine with memory := machine.memory.setIfInBounds address word }

def words (machine : Machine) (extent : Extent) : List Word :=
  (machine.memory.extract extent.start extent.stop).toList

/-- The written text. -/
def text (machine : Machine) : List Word :=
  machine.words { start := machine.layout.text.start, stop := machine.textEnd }

/-- The used data. -/
def data (machine : Machine) : List Word :=
  machine.words { start := machine.layout.data.start, stop := machine.dataEnd }

def report (machine : Machine) (event : Event) : Machine :=
  { machine with host := machine.host.report event }

def print (machine : Machine) (text : String) : Machine :=
  { machine with host := machine.host.print text }

end Machine

namespace Memory

/-- Sets `count` words from `address` on. -/
def fill (memory : Array Word) (address : Nat) (word : Word) : Nat → Array Word
  | 0 => memory
  | count + 1 => fill (memory.setIfInBounds address word) (address + 1) word count

/-- Copies words into memory from `address` on. -/
def copy (memory : Array Word) (address : Nat) : List Word → Array Word
  | [] => memory
  | word :: rest => copy (memory.setIfInBounds address word) (address + 1) rest

/-- The bytes from `address` up to a zero word, or to the end of memory. -/
def bytes (memory : Array Word) (address : Nat) : Text.Utf8.Bytes :=
  go address [] (memory.size - address)
where
  go (address : Nat) (seen : Text.Utf8.Bytes) : Nat → Text.Utf8.Bytes
    | 0 => seen.reverse
    | count + 1 =>
        let word := memory.getD address 0
        if word = 0 then seen.reverse else go (address + 1) (word.byte :: seen) count

end Memory

namespace Machine

def fill (machine : Machine) (extent : Extent) (word : Word) : Machine :=
  { machine with memory := Memory.fill machine.memory extent.start word extent.size }

/-- Rewinds the machine: text stays, used data gets the words it was allocated with, stack and heap
are cleared and files closed. -/
def reset (machine : Machine) : Machine :=
  let data := Memory.copy machine.memory machine.layout.data.start machine.dataImage
  let memory := Memory.fill data machine.layout.heap.start 0
    (machine.layout.stack.stop - machine.layout.heap.start)
  { machine with
    memory
    pc := machine.layout.text.start
    sp := machine.layout.stack.stop
    bp := machine.layout.stack.stop
    acc := 0
    current := 0
    cycles := 0
    status := .idle
    heap := .ofRegion machine.layout.heap
    descriptors := .none }

/-- Rewinds the machine and discards text and data as well. -/
def clear (machine : Machine) : Machine :=
  let rewound := machine.reset
  { rewound.fill
      { start := rewound.layout.text.start, stop := rewound.layout.data.stop } 0 with
    textEnd := rewound.layout.text.start
    dataEnd := rewound.layout.data.start
    dataImage := [] }

def setCycleLimit (machine : Machine) (limit : Option Nat) : Machine :=
  { machine with cycleLimit := limit }

end Machine

end WordC
