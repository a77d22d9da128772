import WordC.Host.Sandbox
import WordC.Prompt.Balance
import WordC.Prompt.Display
import WordC.Session

/-!
# The dialogue

Lines are read from standard input until one leaves the prompt or the input ends. A line is a
command, a declaration to be kept or an expression to be evaluated; an unfinished line is read on
together with the next one. The programs of a session read from the same input, and from the files
of the same sandbox.
-/

namespace WordC.Prompt

open Text.Utf8 (Bytes)

/-- The bytes up to and including the first line feed, and those behind it. -/
def splitLine : Bytes → Bytes × Bytes
  | [] => ([], [])
  | byte :: rest =>
      if byte = 10 then ([byte], rest)
      else
        let (line, after) := splitLine rest
        (byte :: line, after)

theorem length_splitLine_lt {byte : UInt8} {rest : Bytes} :
    (splitLine (byte :: rest)).2.length < (byte :: rest).length := by
  induction rest generalizing byte with
  | nil =>
    unfold splitLine
    split <;> simp [splitLine]
  | cons next rest ih =>
    unfold splitLine
    split
    · simp
    · exact Nat.lt_trans ih (by simp)

/-- A line without its end, and its end. -/
def splitEnd (line : String) : String × String :=
  match line.toList.reverse with
  | '\n' :: '\r' :: rest => (String.ofList rest.reverse, "\r\n")
  | '\n' :: rest => (String.ofList rest.reverse, "\n")
  | _ => (line, "")

/-- What was heard: an input to be answered, the end of the input, or bytes that are no text. -/
inductive Heard where
  | input (text : String)
  | ended
  | garbled

/-- Reads lines behind `text` until the whole is complete. -/
def hear (text : String) : Bytes → Heard × Bytes
  | [] => (.ended, [])
  | byte :: rest =>
      match _h : splitLine (byte :: rest) with
      | (line, after) =>
          match Text.Utf8.decode? line with
          | none => (.garbled, after)
          | some line =>
              let (body, lineEnd) := splitEnd line
              let text := text ++ body
              if isComplete text then (.input text, after) else hear (text ++ lineEnd) after
termination_by input => input.length
decreasing_by
  have := @length_splitLine_lt byte rest
  rwa [_h] at this

end Prompt

structure Dialogue where
  styles : Text.Styles
  session : Session
  /-- What the host of the session answers for, as it was before the host was asked for anything. -/
  sandbox : Sandbox
  /-- What went to the error output. -/
  complaints : String := ""

namespace Dialogue

/-- How a turn of the dialogue ends. -/
inductive Next where
  | listen
  | leave
  /-- The program of the turn was cut short. -/
  | stop
deriving DecidableEq

/-- The sandbox after all that the host of the session has been asked. -/
def current (dialogue : Dialogue) : Sandbox :=
  dialogue.sandbox.after dialogue.session.machine.host.asked

def print (dialogue : Dialogue) (text : String) : Dialogue :=
  { dialogue with session := dialogue.session.print text }

def complain (dialogue : Dialogue) (text : String) : Dialogue :=
  { dialogue with complaints := dialogue.complaints ++ text }

def declare (dialogue : Dialogue) (declaration : String) : Dialogue :=
  match Session.declare declaration dialogue.session with
  | .ok _ session => { dialogue with session }.print (Prompt.line (dialogue.styles.dimmed "ok"))
  | .error error session =>
      { dialogue with session }.complain (Prompt.errorLine dialogue.styles error)

/-- Lets the session run a program and shows its result. -/
def run (dialogue : Dialogue) (turn : Session.Turn (Option Word)) : Next × Dialogue :=
  match turn dialogue.session with
  | .ok none session => (.stop, { dialogue with session })
  | .ok (some word) session =>
      (.listen, { dialogue with session }.print (Prompt.value dialogue.styles word))
  | .error error session =>
      (.listen, { dialogue with session }.complain (Prompt.errorLine dialogue.styles error))

def showTokens (dialogue : Dialogue) (source : String) : Dialogue :=
  match tokenize source with
  | .ok tokens =>
      dialogue.print (String.join (tokens.map (Prompt.tokenLine dialogue.styles source)))
  | .error error => dialogue.complain (Prompt.errorLine dialogue.styles error)

def showSymbols (dialogue : Dialogue) : Dialogue :=
  dialogue.print <|
    match dialogue.session.last with
    | some program => Prompt.symbolLines dialogue.styles program
    | none => Prompt.line (dialogue.styles.dimmed "nothing compiled yet")

def load (dialogue : Dialogue) (path : String) (steps : Nat) : Next × Dialogue :=
  match dialogue.current.files.readText path with
  | .ok source => dialogue.run (Session.runSource source steps)
  | .error error => (.listen, dialogue.complain (Prompt.unreadable dialogue.styles path error))

/-- Does what a command asks for. Arguments that a command does not take are ignored. -/
def execute (dialogue : Dialogue) (command : Prompt.Command) (argument : Option String)
    (steps : Nat) : Next × Dialogue :=
  match command, argument with
  | .help, _ => (.listen, dialogue.print (Prompt.help dialogue.styles))
  | .exit, _ => (.leave, dialogue)
  | .clear, _ => (.listen, dialogue.print Prompt.clearScreen)
  | .reset, _ =>
      (.listen, { dialogue with session := dialogue.session.reset }.print
        (Prompt.line (dialogue.styles.dimmed "declarations cleared")))
  | .declarations, _ =>
      (.listen, dialogue.print (String.join (dialogue.session.declarations.map Prompt.line)))
  | .tokens, some source => (.listen, dialogue.showTokens source)
  | .tokens, none =>
      (.listen,
        dialogue.complain (Prompt.missingArgument dialogue.styles .tokens "requires source text"))
  | .symbols, _ => (.listen, dialogue.showSymbols)
  | .load, some path => dialogue.load path steps
  | .load, none =>
      (.listen,
        dialogue.complain (Prompt.missingArgument dialogue.styles .load "requires a file path"))
  | .version, _ => (.listen, dialogue.print (Prompt.versionLine dialogue.styles))

/-- Answers one input. Each program it runs may take `steps` steps. -/
def answer (dialogue : Dialogue) (input : String) (steps : Nat) : Next × Dialogue :=
  let input := Text.trim input
  if input.isEmpty then (.listen, dialogue)
  else
    match Prompt.Command.parse? input with
    | some (command, argument) => dialogue.execute command argument steps
    | none =>
        if Session.isDeclaration input then (.listen, dialogue.declare input)
        else dialogue.run (Session.evaluate input steps)

/-- Takes the next input from what has not been read yet. -/
def hear (dialogue : Dialogue) : Prompt.Heard × Dialogue :=
  let current := dialogue.current
  let (heard, input) := Prompt.hear "" current.input
  let sandbox := { current with input }
  (heard, { dialogue with
    sandbox
    session.machine.host := sandbox.found dialogue.session.machine.host })

/-- At most `rounds` rounds of hearing and answering. -/
def converse (steps : Nat) : Nat → Dialogue → Next × Dialogue
  | 0, dialogue => (.leave, dialogue)
  | rounds + 1, dialogue =>
      let (heard, dialogue) := dialogue.hear
      match heard with
      | .ended => (.leave, dialogue.print (Prompt.line (dialogue.styles.dimmed "^D")))
      | .garbled => (.leave, dialogue.complain (Prompt.garbled dialogue.styles))
      | .input text =>
          match dialogue.answer text steps with
          | (.listen, dialogue) => converse steps rounds dialogue
          | (next, dialogue) => (next, dialogue)

/-- A whole dialogue, from the banner to the farewell. Every round takes something from the input,
so that there is one round more than the input has bytes. A program that is cut short ends the
dialogue at once. -/
def hold (styles : Text.Styles) (session : Session) (sandbox : Sandbox) (steps : Nat) :
    Next × Dialogue :=
  let opened : Dialogue := { styles, session := session.print (Prompt.banner styles), sandbox }
  match converse steps (sandbox.input.length + 1) opened with
  | (.stop, dialogue) => (.stop, dialogue)
  | (_, dialogue) => (.leave, dialogue.print (Prompt.farewell styles))

end Dialogue

end WordC
