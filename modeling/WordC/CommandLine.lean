import WordC.CommandLine.Listing
import WordC.Prompt.Dialogue
import WordC.Settings
import WordC.Tree.Json

/-!
# The command line

A call compiles and runs one program, with listings if they are asked for, or holds a dialogue where
no program is given. The exit code of a program is the low byte of its result; 1 stands for an error
and 2 for a command line that is refused.
-/

namespace WordC

open Text.Utf8 (Bytes)

namespace CommandLine

/-- What ends a call with an error. -/
inductive Failure where
  | settings (error : Settings.Error)
  | unreadable (path : String) (error : FileError)
  | unwritable (path : String) (error : FileError)
  | program (error : Error)
  | prompt (error : Error)

def Failure.message : Failure → String
  | settings error => error.details
  | unreadable path error => "failed to read " ++ path ++ ": " ++ error.message
  | unwritable path error => "failed to write syntax tree to " ++ path ++ ": " ++ error.message
  | program error => error.message
  | prompt error => "Failed to initialize REPL: " ++ error.message

/-- What a call leaves behind. -/
structure Outcome where
  code : UInt8
  output : Bytes
  errors : String
  files : Directory
  journal : Array Event

/-- A host, and the sandbox that it answers for, as it was before the host was asked for anything. -/
structure Surroundings where
  sandbox : Sandbox
  host : Host := sandbox.host

namespace Surroundings

/-- The sandbox after all that the host has been asked. -/
def current (surroundings : Surroundings) : Sandbox :=
  surroundings.sandbox.after surroundings.host.asked

def print (surroundings : Surroundings) (text : String) : Surroundings :=
  { surroundings with host := surroundings.host.print text }

end Surroundings

def Outcome.of (code : UInt8) (errors : String) (surroundings : Surroundings) : Outcome :=
  { code
    output := surroundings.host.sink.written.toList
    errors
    files := surroundings.current.files
    journal := surroundings.host.journal }

def Outcome.failed (styles : Text.Styles) (failure : Failure) (surroundings : Surroundings) :
    Outcome :=
  .of 1 (Prompt.line (Prompt.errorMark styles ++ failure.message)) surroundings

/-- What a call does to its surroundings. -/
abbrev Job := EStateM Failure Surroundings

inductive Source where
  | text (text : String)
  | file (path : String)

/-- The program to be run. -/
def source? (arguments : Arguments) : Option Source :=
  match arguments.eval, arguments.file with
  | some text, _ => some (.text text)
  | none, some path => some (.file path)
  | none, none => none

def Source.read : Source → Job String
  | .text source => return source
  | .file path => do
      match (← get).current.files.readText path with
      | .ok source => return source
      | .error error => throw (.unreadable path error)

def print (text : String) : Job Unit :=
  modify fun surroundings => surroundings.print text

def setHost (host : Host) : Job Unit :=
  modify fun surroundings => { surroundings with host }

/-- Whether a path stands for standard output: a dash, however many separators end it. -/
def isDash (path : String) : Bool :=
  match path.splitOn "/" with
  | "-" :: rest => rest.all fun name => name.isEmpty || name == "."
  | _ => false

def writeTree (tree : Tree) (path : String) : Job Unit := do
  if isDash path then print (tree.json 0 ++ "\n")
  else
    let surroundings ← get
    match surroundings.current.files.writeText path (tree.json 0) with
    | .ok files =>
        let sandbox := { surroundings.current with files }
        set { surroundings with sandbox, host := sandbox.found surroundings.host }
    | .error error => throw (.unwritable path error)

section Calls

variable (styles : Text.Styles)

/-- Prints what is asked for about a compiled program. -/
def printListings (arguments : Arguments) (program : Program) (machine : Machine) : Job Unit := do
  match arguments.ast with
  | some path => writeTree program.tree path
  | none => pure ()
  if arguments.symbols then print (symbolListing styles program)
  if arguments.disasm then print (instructionListing styles machine)

/-- Compiles a program, prints what is asked for and runs the program. -/
def work (arguments : Arguments) (settings : Settings) (source : Source) (steps : Nat) :
    Job (Option Word) := do
  let source ← source.read
  if arguments.tokens then
    match tokenListing styles source with
    | .ok listing => print listing
    | .error error => throw (.program error)
  match Machine.create settings.poolSize (← get).host with
  | .error error => throw (.program error)
  | .ok machine =>
      match Engine.compile source (machine.setCycleLimit settings.maxCycles) with
      | .error error machine =>
          setHost machine.host
          throw (.program error)
      | .ok program machine =>
          setHost machine.host
          printListings styles arguments program machine
          match Engine.run program settings.trace steps { machine with host := (← get).host } with
          | .error error machine =>
              setHost machine.host
              throw (.program error)
          | .ok result machine =>
              setHost machine.host
              return result

/-- The session that a dialogue starts with. -/
def openSession (settings : Settings) (host : Host) : Except Failure Session :=
  match Machine.create settings.poolSize host with
  | .error error => .error (.prompt error)
  | .ok machine => .ok (.start (machine.setCycleLimit settings.maxCycles) settings.trace)

/-- The arguments and settings of a call, or how it ends before it does any work. -/
def prepare (texts : List String) (surroundings : Surroundings) (user : Option (String × Bytes)) :
    Except Outcome (Arguments × Settings) :=
  match Arguments.read texts with
  | .error .help => .error (.of 0 "" (surroundings.print helpText))
  | .error .version => .error (.of 0 "" (surroundings.print versionText))
  | .error refusal => .error (.of 2 (Prompt.line ("error: " ++ refusal.describe)) surroundings)
  | .ok arguments =>
      match Settings.load arguments.config surroundings.current.files user with
      | .error error => .error (.failed styles (.settings error) surroundings)
      | .ok settings => .ok (arguments, settings.apply arguments)

/-- A whole call. There is no outcome if a program takes more than `steps` steps. -/
def run (texts : List String) (sandbox : Sandbox) (user : Option (String × Bytes)) (steps : Nat) :
    Option Outcome :=
  let surroundings : Surroundings := { sandbox }
  match prepare styles texts surroundings user with
  | .error outcome => some outcome
  | .ok (arguments, settings) =>
      match source? arguments with
      | some source =>
          match work styles arguments settings source steps surroundings with
          | .ok none _ => none
          | .ok (some result) surroundings => some (.of result.byte "" surroundings)
          | .error failure surroundings => some (.failed styles failure surroundings)
      | none =>
          match openSession settings surroundings.host with
          | .error failure => some (.failed styles failure surroundings)
          | .ok session =>
              match Dialogue.hold styles session sandbox steps with
              | (.stop, _) => none
              | (_, dialogue) =>
                  some (.of 0 dialogue.complaints ⟨dialogue.sandbox, dialogue.session.machine.host⟩)

end Calls

end CommandLine

end WordC
