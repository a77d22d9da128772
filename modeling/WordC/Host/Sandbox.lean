import WordC.Host
import WordC.Host.Directory

/-!
# Sandboxes

A system that has the files of one working directory, and an input that is known from the start.
Nothing outside of the directory can be reached.
-/

namespace WordC

open Text.Utf8 (Bytes)

namespace Sandbox

/-- An open file and the place reading has reached. -/
structure Opened where
  place : Directory.Place
  readable : Bool
  position : Nat

end Sandbox

structure Sandbox where
  files : Directory := []
  /-- What has not been read yet. -/
  input : Bytes := []
  /-- The files that have been opened; a handle is the place in this list. -/
  opened : List Sandbox.Opened := []

namespace Sandbox

def add (sandbox : Sandbox) (opened : Opened) : Handle × Sandbox :=
  (sandbox.opened.length, { sandbox with opened := sandbox.opened ++ [opened] })

def open? (sandbox : Sandbox) (path : String) (mode : OpenMode) :
    Except FileError (Handle × Sandbox) := do
  if path.contains '\x00' then throw (.other "file name contained an unexpected NUL byte")
  let place ← sandbox.files.place path
  match mode, place with
  | .read, .file _ | .read, .folder | .update, .file _ =>
      return sandbox.add { place, readable := true, position := 0 }
  | .create, .file name | .create, .vacant name =>
      return { sandbox with files := sandbox.files.write name [] }.add
        { place := .file name, readable := false, position := 0 }
  | .create, .folder | .create, .vacantFolder | .update, .folder => throw .isFolder
  | .read, .vacant _ | .read, .vacantFolder | .update, .vacant _ | .update, .vacantFolder =>
      throw .notFound

def openFile (sandbox : Sandbox) (path : String) (mode : OpenMode) :
    Except FileError Handle × Sandbox :=
  match sandbox.open? path mode with
  | .ok (handle, sandbox) => (.ok handle, sandbox)
  | .error error => (.error error, sandbox)

def contents? (sandbox : Sandbox) (handle : Handle) : Option Bytes :=
  match sandbox.opened[handle]? with
  | some ⟨.file path, true, position⟩ =>
      some (((sandbox.files.contents? path).getD []).drop position)
  | _ => none

/-- What there is to be read. -/
def ahead? (sandbox : Sandbox) : System.Stream → Option Bytes
  | .input => some sandbox.input
  | .file handle => sandbox.contents? handle

def read? (sandbox : Sandbox) (stream : System.Stream) (count : Nat) : Option Bytes :=
  (sandbox.ahead? stream).map (·.take count)

/-- The sandbox behind a read of that many bytes. -/
def skip (sandbox : Sandbox) (stream : System.Stream) (count : Nat) : Sandbox :=
  match stream with
  | .input => { sandbox with input := sandbox.input.drop count }
  | .file handle =>
      { sandbox with
        opened := sandbox.opened.modify handle fun opened =>
          { opened with position := opened.position + count } }

/-- What a request makes of the sandbox. -/
def step (sandbox : Sandbox) : System.Request → Sandbox
  | .openFile path mode => (sandbox.openFile path mode).2
  | .read stream count => sandbox.skip stream ((sandbox.read? stream count).getD []).length

/-- The sandbox after these requests, the latest of which comes first. -/
def after (sandbox : Sandbox) (asked : List System.Request) : Sandbox :=
  asked.foldr (fun request sandbox => sandbox.step request) sandbox

/-- The answers of a sandbox. -/
def system (sandbox : Sandbox) : System where
  opens asked path mode := ((sandbox.after asked).openFile path mode).1
  reads asked stream count := (sandbox.after asked).read? stream count
  length_le := by
    intro asked stream count bytes h
    obtain ⟨ahead, -, rfl⟩ := Option.map_eq_some_iff.1 h
    exact List.length_take_le _ _

/-- A host that answers for the sandbox from now on. -/
def found (sandbox : Sandbox) (host : Host) : Host :=
  { host with system := sandbox.system, asked := [] }

def host (sandbox : Sandbox) : Host :=
  sandbox.found {}

end Sandbox

end WordC
