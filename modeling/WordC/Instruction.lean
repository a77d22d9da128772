import WordC.Text.Column
import WordC.Word

/-!
# Instructions

An instruction is one word, its opcode, followed by one operand word for the opcodes that take one.
-/

namespace WordC

/-- Operators on two words: the left one is popped, the right one is in the accumulator. -/
inductive Operator where
  | or
  | xor
  | and
  | eq
  | ne
  | lt
  | gt
  | le
  | ge
  | add
  | sub
  | mul
  | div
  | mod
deriving DecidableEq

/-- Arithmetic wraps, division truncates, comparisons give 0 or 1. Only a division by zero has no
result. -/
def Operator.apply? (left right : Word) : Operator → Option Word
  | or => some (left ||| right)
  | xor => some (left ^^^ right)
  | and => some (left &&& right)
  | eq => some (Word.ofBool (left == right))
  | ne => some (Word.ofBool (left != right))
  | lt => some (Word.ofBool (decide (left < right)))
  | gt => some (Word.ofBool (decide (right < left)))
  | le => some (Word.ofBool (decide (left ≤ right)))
  | ge => some (Word.ofBool (decide (right ≤ left)))
  | add => some (left + right)
  | sub => some (left - right)
  | mul => some (left * right)
  | div => if right = 0 then none else some (left / right)
  | mod => if right = 0 then none else some (left % right)

/-- Requests to the host. The operand counts the arguments on the stack. -/
inductive Trap where
  | open
  | read
  | close
  | printf
  | malloc
  | free
  | memset
  | memcmp
deriving DecidableEq

def Trap.all : List Trap := [.open, .read, .close, .printf, .malloc, .free, .memset, .memcmp]

/-- The name by which programs call the trap. -/
def Trap.name : Trap → String
  | .open => "open"
  | .read => "read"
  | .close => "close"
  | .printf => "printf"
  | .malloc => "malloc"
  | .free => "free"
  | .memset => "memset"
  | .memcmp => "memcmp"

/-- The number of arguments a program has to give; any number for `none`. -/
def Trap.arity? : Trap → Option Nat
  | .open => some 2
  | .read => some 3
  | .close => some 1
  | .printf => none
  | .malloc => some 1
  | .free => some 1
  | .memset => some 3
  | .memcmp => some 3

inductive Opcode where
  /-- Load the address `operand` words below the base pointer. -/
  | lea
  /-- Load the operand. -/
  | imm
  | jmp
  /-- Push the return address and jump. -/
  | call
  /-- Jump if the accumulator is zero. -/
  | jz
  /-- Jump if the accumulator is not zero. -/
  | jnz
  /-- Open a frame with `operand` local slots. -/
  | ent
  /-- Drop `operand` words from the stack. -/
  | adj
  /-- Close the frame and return. -/
  | lev
  /-- Load the word the accumulator points to. -/
  | li
  /-- Pop a word and store it where the accumulator points to. -/
  | si
  | push
  | binary (operator : Operator)
  /-- Stands where a word is still to be patched. -/
  | plac
  | trap (trap : Trap)
  | exit
deriving DecidableEq

namespace Opcode

/-- Every opcode, in the order of their words. -/
def all : List Opcode := [
  lea, imm, jmp, call, jz, jnz, ent, adj, lev, li, si, push,
  binary .or, binary .xor, binary .and, binary .eq, binary .ne, binary .lt, binary .gt,
  binary .le, binary .ge, binary .add, binary .sub, binary .mul, binary .div, binary .mod,
  plac,
  trap .open, trap .read, trap .close, trap .printf, trap .malloc, trap .free, trap .memset,
  trap .memcmp,
  exit]

def index (opcode : Opcode) : Nat :=
  all.idxOf opcode

/-- The word that encodes the opcode. -/
def word (opcode : Opcode) : Word :=
  Word.ofCount opcode.index

def ofWord? (word : Word) : Option Opcode := do
  let index ← word.count?
  all[index]?

def hasOperand : Opcode → Bool
  | lea | imm | jmp | call | jz | jnz | ent | adj | trap _ => true
  | _ => false

def isTrap : Opcode → Bool
  | trap _ => true
  | _ => false

def mnemonic : Opcode → String
  | lea => "LEA"
  | imm => "IMM"
  | jmp => "JMP"
  | call => "CALL"
  | jz => "JZ"
  | jnz => "JNZ"
  | ent => "ENT"
  | adj => "ADJ"
  | lev => "LEV"
  | li => "LI"
  | si => "SI"
  | push => "PUSH"
  | binary .or => "OR"
  | binary .xor => "XOR"
  | binary .and => "AND"
  | binary .eq => "EQ"
  | binary .ne => "NE"
  | binary .lt => "LT"
  | binary .gt => "GT"
  | binary .le => "LE"
  | binary .ge => "GE"
  | binary .add => "ADD"
  | binary .sub => "SUB"
  | binary .mul => "MUL"
  | binary .div => "DIV"
  | binary .mod => "MOD"
  | plac => "PLAC"
  | trap .open => "OPEN"
  | trap .read => "READ"
  | trap .close => "CLOSE"
  | trap .printf => "PRINTF"
  | trap .malloc => "MALLOC"
  | trap .free => "FREE"
  | trap .memset => "MEMSET"
  | trap .memcmp => "MEMCMP"
  | exit => "EXIT"

end Opcode

structure Instruction where
  opcode : Opcode
  operand : Option Word
deriving DecidableEq

namespace Instruction

/-- The number of words the instruction takes. -/
def width (instruction : Instruction) : Nat :=
  if instruction.operand.isSome then 2 else 1

def words (instruction : Instruction) : List Word :=
  instruction.opcode.word :: instruction.operand.toList

/-- The instruction that `words` begins with. -/
def decode? : List Word → Option Instruction
  | [] => none
  | word :: rest => do
      let opcode ← Opcode.ofWord? word
      if opcode.hasOperand then
        let operand ← rest.head?
        return { opcode, operand := some operand }
      else
        return { opcode, operand := none }

/-- The mnemonic, in a column of six where an operand follows. -/
def text (instruction : Instruction) : String :=
  match instruction.operand with
  | some operand => Text.padRight 6 instruction.opcode.mnemonic ++ " " ++ operand.text
  | none => instruction.opcode.mnemonic

end Instruction

end WordC
