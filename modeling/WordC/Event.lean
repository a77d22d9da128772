import WordC.Error
import WordC.Host.System
import WordC.Instruction

/-!
# Events

What compiling and running report besides their results: a journal for whoever watches the machine.
-/

namespace WordC

inductive Event where
  | functionCompiled (name : String) (entry : Word) (params : Nat) (locals : Word)
  | compiled (entry text data symbols : Nat)
  | started (pc text : Nat)
  | executing (cycle address : Nat) (instruction : Instruction)
  | halted (result : Word) (cycles : Nat)
  | faulted (error : Error) (cycles : Nat)
  | fileOpened (path : String) (descriptor : Word)
  | openFailed (path : String) (error : FileError)
  | blockFreed (address words live : Nat)

namespace Event

/-- The line that a trace shows for an instruction about to be executed. -/
def trace? : Event → Option String
  | executing cycle address instruction =>
      some (toString cycle ++ "> " ++ Text.padLeft 6 (toString address) ++ ": " ++
        instruction.text)
  | _ => none

/-- The message of an event and its fields. -/
def record? : Event → Option (String × List (String × String))
  | functionCompiled name entry params locals =>
      some ("compiled function", [("name", name), ("entry", entry.text),
        ("params", toString params), ("locals", locals.text)])
  | compiled entry text data symbols =>
      some ("compilation finished", [("entry", toString entry), ("text", toString text),
        ("data", toString data), ("symbols", toString symbols)])
  | started pc text =>
      some ("starting execution", [("pc", toString pc), ("text", toString text)])
  | executing .. => none
  | halted result cycles =>
      some ("program halted", [("result", result.text), ("cycles", toString cycles)])
  | faulted error cycles =>
      some ("program faulted", [("error", error.message), ("cycles", toString cycles)])
  | fileOpened path descriptor =>
      some ("opened file", [("path", path), ("fd", descriptor.text)])
  | openFailed path error =>
      some ("open failed", [("path", path), ("error", error.message)])
  | blockFreed address words live =>
      some ("freed heap block", [("address", toString address), ("words", toString words),
        ("live", toString live)])

end Event

end WordC
