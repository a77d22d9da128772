import WordC.Text.Utf8

/-!
# The system

What the operating system answers when a file is opened or something is read. The answers are its
own: they may depend on everything that has been asked before, and a file that could be opened once
need not open again. All that is known is that a read gives no more bytes than were asked for.
-/

namespace WordC

open Text.Utf8 (Bytes)

inductive FileError where
  | notFound
  | notFolder
  | isFolder
  | nameTooLong
  | notText
  | other (message : String)
deriving DecidableEq

def FileError.message : FileError → String
  | notFound => "No such file or directory (os error 2)"
  | notFolder => "Not a directory (os error 20)"
  | isFolder => "Is a directory (os error 21)"
  | nameTooLong => "File name too long (os error 36)"
  | notText => "stream did not contain valid UTF-8"
  | other message => message

inductive OpenMode where
  | read
  /-- Create the file or empty it. -/
  | create
  | update
deriving DecidableEq

/-- What the system calls an open file. -/
abbrev Handle := Nat

namespace System

/-- Where bytes can be read from. -/
inductive Stream where
  /-- Standard input. -/
  | input
  | file (handle : Handle)
deriving DecidableEq

inductive Request where
  | openFile (path : String) (mode : OpenMode)
  | read (stream : Stream) (count : Nat)
deriving DecidableEq

end System

/-- Answers to requests, each given the requests before it, the latest first. -/
structure System where
  opens : List System.Request → String → OpenMode → Except FileError Handle
  /-- Up to so many bytes, or nothing if reading fails. -/
  reads : List System.Request → System.Stream → Nat → Option Bytes
  length_le : ∀ asked stream count bytes, reads asked stream count = some bytes →
    bytes.length ≤ count

namespace System

/-- A system without files, whose standard input has ended. -/
def empty : System where
  opens _ _ _ := .error .notFound
  reads
    | _, .input, _ => some []
    | _, .file _, _ => none
  length_le := by
    intro _ stream _ _ h
    cases stream <;> cases h
    exact Nat.zero_le _

/-- What a system answers from now on, after these requests. -/
def after (system : System) (asked : List Request) : System where
  opens later := system.opens (later ++ asked)
  reads later := system.reads (later ++ asked)
  length_le later := system.length_le (later ++ asked)

end System

end WordC
