import WordC.Event

/-!
# The host

The world around a machine: the system that answers it, the place where output goes and the journal.
-/

namespace WordC

open Text.Utf8 (Bytes)

/-- How the place where output goes answers a write. -/
inductive Sink.Mode where
  | accepts
  | refusesWrites
  /-- Output arrives, but the writer is told that it failed. -/
  | refusesFlushes
deriving DecidableEq, Inhabited

structure Sink where
  mode : Sink.Mode := .accepts
  written : Array UInt8 := #[]

/-- Writes all bytes and says whether that succeeded. -/
def Sink.write (sink : Sink) (bytes : Bytes) : Bool × Sink :=
  match sink.mode with
  | .accepts => (true, { sink with written := sink.written ++ bytes })
  | .refusesWrites => (false, sink)
  | .refusesFlushes => (false, { sink with written := sink.written ++ bytes })

structure Host where
  system : System := .empty
  /-- What the system has been asked, the latest request first. -/
  asked : List System.Request := []
  sink : Sink := {}
  journal : Array Event := #[]

namespace Host

def report (host : Host) (event : Event) : Host :=
  { host with journal := host.journal.push event }

def write (host : Host) (bytes : Bytes) : Bool × Host :=
  match host with
  | ⟨system, asked, sink, journal⟩ =>
      let (succeeded, sink) := sink.write bytes
      (succeeded, ⟨system, asked, sink, journal⟩)

/-- Writes a text, whether that succeeds or not. -/
def print (host : Host) (text : String) : Host :=
  (host.write (Text.Utf8.encode text)).2

def openFile (host : Host) (path : String) (mode : OpenMode) : Except FileError Handle × Host :=
  (host.system.opens host.asked path mode,
    { host with asked := .openFile path mode :: host.asked })

/-- Up to `count` bytes, or nothing if reading fails. -/
def read (host : Host) (stream : System.Stream) (count : Nat) : Option Bytes × Host :=
  (host.system.reads host.asked stream count,
    { host with asked := .read stream count :: host.asked })

end Host

end WordC
