import WordC.CommandLine.Switch

/-!
# Arguments

The command line names at most one source file, between switches. What has been read last is kept
back until the next argument begins, because its value may still follow; so of two faults the one
that is met first counts.
-/

namespace WordC

structure Arguments where
  file : Option String := none
  eval : Option String := none
  tokens : Bool := false
  ast : Option String := none
  symbols : Bool := false
  disasm : Bool := false
  trace : Bool := false
  poolSize : Option Nat := none
  maxCycles : Option Nat := none
  config : Option String := none
  /-- How often more logging was asked for. -/
  verbose : Nat := 0
deriving DecidableEq

namespace Arguments

/-- Why a command line is not taken as a request to work. -/
inductive Refusal where
  | unknownArgument
  /-- Given twice, or together with what excludes it. -/
  | conflict
  | missingValue
  | needlessValue
  | badValue
  /-- The help is asked for. -/
  | help
  /-- The version is asked for. -/
  | version
deriving DecidableEq

def Refusal.describe : Refusal → String
  | unknownArgument => "unexpected argument"
  | conflict => "an argument cannot be used together with another one"
  | missingValue => "a value is required"
  | needlessValue => "unexpected value"
  | badValue => "invalid value"
  | help => "help is asked for"
  | version => "the version is asked for"

def hasProgram (arguments : Arguments) : Bool :=
  arguments.file.isSome || arguments.eval.isSome

/-- Sets what may be set once. -/
def once (old : Option α) (new : Except Refusal α) : Except Refusal (Option α) :=
  if old.isSome then .error .conflict else new.map some

def flag (old : Bool) : Except Refusal Bool :=
  if old then .error .conflict else .ok true

/-- Counts past 64 bits are refused; a plus may stand in front. -/
def count (text : String) : Except Refusal Nat :=
  let digits :=
    match text.toList with
    | '+' :: rest => rest
    | digits => digits
  let value : Nat := digits.foldl (fun value c => value * 10 + (c.toNat - '0'.toNat)) 0
  if digits.isEmpty || digits.any (fun c => c < '0' || '9' < c) || UInt64.size ≤ value then
    .error .badValue
  else .ok value

/-- A path is not empty. -/
def path (text : String) : Except Refusal String :=
  if text.isEmpty then .error .missingValue else .ok text

def setFile (arguments : Arguments) (text : String) : Except Refusal Arguments := do
  return { arguments with file := ← once arguments.file (path text) }

/-- Carries out a switch that takes a value. -/
def setValue (arguments : Arguments) (switch : Switch) (text : String) :
    Except Refusal Arguments := do
  match switch with
  | .eval => return { arguments with eval := ← once arguments.eval (.ok text) }
  | .ast => return { arguments with ast := ← once arguments.ast (path text) }
  | .config => return { arguments with config := ← once arguments.config (path text) }
  | .poolSize => return { arguments with poolSize := ← once arguments.poolSize (count text) }
  | .maxCycles => return { arguments with maxCycles := ← once arguments.maxCycles (count text) }
  | _ => throw .needlessValue

/-- The greatest number of times that a switch is counted. -/
def greatestCount : Nat := 255

/-- Carries out a switch without a value. -/
def setFlag (arguments : Arguments) (switch : Switch) : Except Refusal Arguments := do
  match switch with
  | .tokens => return { arguments with tokens := ← flag arguments.tokens }
  | .symbols => return { arguments with symbols := ← flag arguments.symbols }
  | .disasm => return { arguments with disasm := ← flag arguments.disasm }
  | .trace => return { arguments with trace := ← flag arguments.trace }
  | .verbose => return { arguments with verbose := min greatestCount (arguments.verbose + 1) }
  | .help => throw .help
  | .version => throw .version
  | _ => throw .missingValue

/-- What is kept back. -/
inductive Pending where
  | nothing
  /-- A switch whose value has to follow. -/
  | switch (switch : Switch)
  | value (switch : Switch) (text : String)
  | file (text : String)
deriving DecidableEq

structure Reader where
  arguments : Arguments := {}
  pending : Pending := .nothing
  /-- Whether a file has been named, even if it is kept back. -/
  hasFile : Bool := false
  /-- Whether switches are over. -/
  onlyFiles : Bool := false
deriving DecidableEq

namespace Reader

/-- Carries out what was kept back. -/
def settle (reader : Reader) : Except Refusal Reader := do
  let arguments ←
    match reader.pending with
    | .nothing => pure reader.arguments
    | .switch _ => throw .missingValue
    | .value switch text => reader.arguments.setValue switch text
    | .file text => reader.arguments.setFile text
  return { reader with arguments, pending := .nothing }

def keep (reader : Reader) (pending : Pending) : Except Refusal Reader := do
  return { ← reader.settle with pending }

/-- Takes a switch with the value attached to it, if there is one. -/
def takeSwitch (reader : Reader) (switch : Switch) (value? : Option String) :
    Except Refusal Reader := do
  match switch.takesValue, value? with
  | false, some _ => throw .needlessValue
  | false, none =>
      let reader ← reader.settle
      return { reader with arguments := ← reader.arguments.setFlag switch }
  | true, none => reader.keep (.switch switch)
  | true, some text =>
      let reader ← reader.settle
      return { reader with arguments := ← reader.arguments.setValue switch text }

/-- Takes a name of a switch, behind which `=` and a value may stand. -/
def takeLong (reader : Reader) (text : List Char) : Except Refusal Reader := do
  let name := text.takeWhile (· ≠ '=')
  match Switch.ofLong? (String.ofList name) with
  | none => throw .unknownArgument
  | some switch =>
      match text.drop name.length with
      | [] => reader.takeSwitch switch none
      | _ :: value => reader.takeSwitch switch (some (String.ofList value))

/-- Takes a row of one-letter switches. The one that takes a value takes what is left of the row. -/
def takeRow (reader : Reader) : List Char → Except Refusal Reader
  | [] => return reader
  | c :: rest =>
      match Switch.ofShort? c with
      | none => throw .unknownArgument
      | some switch =>
          if switch.takesValue then
            match rest with
            | [] => reader.takeSwitch switch none
            | '=' :: value => reader.takeSwitch switch (some (String.ofList value))
            | value => reader.takeSwitch switch (some (String.ofList value))
          else do (← reader.takeSwitch switch none).takeRow rest

def takeFile (reader : Reader) (text : String) : Except Refusal Reader := do
  if reader.hasFile then throw .unknownArgument
  return { ← reader.keep (.file text) with hasFile := true }

/-- Takes an argument that is no switch. -/
def takePlain (reader : Reader) (text : String) : Except Refusal Reader :=
  match reader.pending with
  | .switch switch => return { reader with pending := .value switch text }
  | _ => reader.takeFile text

def take (reader : Reader) (text : String) : Except Refusal Reader :=
  if reader.onlyFiles then reader.takeFile text
  else
    match text.toList with
    | ['-', '-'] => return { reader with onlyFiles := true }
    | '-' :: '-' :: rest => reader.takeLong rest
    | ['-'] => reader.takePlain text
    | '-' :: rest => reader.takeRow rest
    | _ => reader.takePlain text

end Reader

/-- Reads a command line. Source text and a file exclude each other. -/
def read (texts : List String) : Except Refusal Arguments := do
  let reader ← texts.foldlM Reader.take {}
  let arguments := (← reader.settle).arguments
  if arguments.file.isSome ∧ arguments.eval.isSome then throw .conflict
  return arguments

end Arguments

end WordC
