import WordC.CommandLine

/-!
# The program

Files, input and settings are read up front, the library does the work on them, and what it has
changed is written back. At a terminal the dialogue is led line by line; programs do not read from a
terminal.
-/

namespace WordC.Main

open Text.Utf8 (Bytes)

/-- More steps than any run takes. -/
def stepLimit : Nat := Nat.pow 2 62

/-- The contents of a file, unless it cannot be read. -/
def readFile (path : String) : IO (Option Bytes) := do
  try
    let contents ← IO.FS.readBinFile path
    return some contents.toList
  catch _ => return none

/-- The files below the working directory. -/
def readFiles : IO Directory := do
  let root ← IO.currentDir
  let depth := root.components.length
  let mut files : Array (String × Bytes) := #[]
  for path in ← root.walkDir do
    if ¬(← path.isDir) then
      match ← readFile path.toString with
      | some contents =>
          files := files.push (String.intercalate "/" (path.components.drop depth), contents)
      | none => pure ()
  return files.toList

/-- Writes the files that differ from what was read. -/
def writeFiles (before after : Directory) : IO Unit := do
  for (name, contents) in after do
    if before.contents? name ≠ some contents then
      IO.FS.writeBinFile name contents.toByteArray

/-- The folder where the user's configuration lies. -/
def userFolder : IO (Option String) := do
  match ← IO.getEnv "XDG_CONFIG_HOME" with
  | some folder => return if folder.startsWith "/" then some folder else none
  | none => return (← IO.getEnv "HOME").map (· ++ "/.config")

/-- The user's own settings file, if there is one. -/
def readUserFile : IO (Option (String × Bytes)) := do
  match ← userFolder with
  | none => return none
  | some folder =>
      let path := folder ++ "/" ++ Settings.userFile
      return (← readFile path).map (path, ·)

def printBytes (bytes : Bytes) : IO Unit := do
  let output ← IO.getStdout
  output.write bytes.toByteArray
  output.flush

def printJournal (journal : Array Event) : IO Unit :=
  (journal.filterMap (·.trace?)).forM IO.eprintln

/-- Shows what a turn has printed and forgets it. -/
def showTurn (dialogue : Dialogue) : IO Dialogue := do
  let host := dialogue.session.machine.host
  printBytes host.sink.written.toList
  printJournal host.journal
  IO.eprint dialogue.complaints
  return { dialogue with
    complaints := ""
    session.machine.host := { host with sink := {}, journal := #[] } }

/-- Reads lines until they make up a whole input; nothing at the end of the terminal's input. -/
partial def readInput (text : String) : IO (Option String) := do
  let line ← (← IO.getStdin).getLine
  if line.isEmpty then return none
  let (body, lineEnd) := Prompt.splitEnd line
  if Prompt.isComplete (text ++ body) then return some (text ++ body)
  readInput (text ++ body ++ lineEnd)

partial def talk (dialogue : Dialogue) : IO Unit := do
  printBytes (Text.Utf8.encode (Prompt.prompt dialogue.styles))
  match ← readInput "" with
  | none =>
      printBytes (Text.Utf8.encode
        (Prompt.line (dialogue.styles.dimmed "^D") ++ Prompt.farewell dialogue.styles))
  | some text =>
      let before := dialogue.current.files
      let (next, dialogue) := dialogue.answer text stepLimit
      let dialogue ← showTurn dialogue
      writeFiles before dialogue.current.files
      match next with
      | .listen => talk dialogue
      | .leave | .stop => printBytes (Text.Utf8.encode (Prompt.farewell dialogue.styles))

def finish (before : Directory) (outcome : CommandLine.Outcome) : IO UInt32 := do
  writeFiles before outcome.files
  printBytes outcome.output
  printJournal outcome.journal
  IO.eprint outcome.errors
  return outcome.code.toUInt32

/-- Runs the command line and gives the exit code. -/
def run (texts : List String) : IO UInt32 := do
  let input ← IO.getStdin
  let atTerminal ← input.isTty
  let files ← readFiles
  let user ← readUserFile
  let styles : Text.Styles := .common
  let surroundings : CommandLine.Surroundings := { sandbox := { files } }
  match CommandLine.prepare styles texts surroundings user with
  | .error outcome => finish files outcome
  | .ok (arguments, settings) =>
      if atTerminal ∧ ¬arguments.hasProgram then
        match CommandLine.openSession settings surroundings.host with
        | .error failure => finish files (.failed styles failure surroundings)
        | .ok session =>
            printBytes (Text.Utf8.encode (Prompt.banner styles))
            talk { styles, session, sandbox := surroundings.sandbox }
            return 0
      else
        let bytes ← if atTerminal then pure .empty else input.readBinToEnd
        match CommandLine.run styles texts { files, input := bytes.toList } user stepLimit with
        | some outcome => finish files outcome
        | none => return 1

end WordC.Main

def main (texts : List String) : IO UInt32 :=
  WordC.Main.run texts
