import WordC.Host.Sandbox
import WordC.Proofs.Machine.Steps

/-!
# Answers of the system

An action asks the system for at most one thing, and what it does then depends on the answer alone.
The answers are those of a system that has been asked the same before, so hosts that have the same
answers from now on cannot be told apart by asking them.
-/

namespace WordC

open Text.Utf8 (Bytes)

theorem System.after_cons (system : System) (request : System.Request)
    (asked : List System.Request) :
    system.after (request :: asked) = (system.after asked).after [request] := by
  simp [after]

namespace Host

/-- What the system of a host answers from now on. -/
def answers (host : Host) : System :=
  host.system.after host.asked

theorem length_of_read {host : Host} {stream : System.Stream} {count : Nat} {bytes : Bytes}
    (h : (host.read stream count).1 = some bytes) : bytes.length ≤ count :=
  host.system.length_le _ _ _ _ h

end Host

/-- What a sandbox has been asked can be forgotten: a host that starts anew from the sandbox behind
it answers as before. -/
theorem Sandbox.answers_found {sandbox : Sandbox} {host : Host}
    (hsystem : host.system = sandbox.system) :
    ((sandbox.after host.asked).found host).answers = host.answers := by
  have hafter (later : List System.Request) :
      (sandbox.after host.asked).after later = sandbox.after (later ++ host.asked) :=
    List.foldr_append.symm
  rw [Host.answers, Host.answers, hsystem]
  simp [found, System.after, system, hafter]

namespace Machine

variable {m : Machine}

/-- The machine after the system has answered an open, with a handle or an error. -/
def opened (m : Machine) (path : String) (mode : OpenMode) : Word × Machine :=
  let host := (m.host.openFile path mode).2
  match (m.host.openFile path mode).1 with
  | .error error => (-1, Machine.report { m with host } (.openFailed path error))
  | .ok handle =>
      (m.descriptors.next,
        Machine.report { m with descriptors := (m.descriptors.insert handle).2, host }
          (.fileOpened path m.descriptors.next))

theorem openFile_of_bytesAt {path flags : Word} {bytes : Bytes}
    (hbytes : bytesAt path m = .ok bytes m) :
    openFile path flags m =
      match openModeOf? flags with
      | none => .ok (-1) m
      | some mode =>
          .ok (m.opened (Text.Utf8.decode bytes) mode).1
            (m.opened (Text.Utf8.decode bytes) mode).2 := by
  rw [openFile, bind_of_ok hbytes]
  cases openModeOf? flags with
  | none => rfl
  | some mode =>
      simp only
      rw [get_bind]
      unfold opened
      cases (m.host.openFile (Text.Utf8.decode bytes) mode).1 <;> rfl

/-- The machine after the system has answered a read, with bytes or an error. -/
def filled (m : Machine) (stream : System.Stream) (extent : Extent) : Word × Machine :=
  let host := (m.host.read stream extent.size).2
  match (m.host.read stream extent.size).1 with
  | none => (-1, { m with host })
  | some bytes =>
      (Word.ofCount bytes.length,
        { m with host, memory := Memory.copy m.memory extent.start (bytes.map Word.ofByte) })

theorem readInto_of_writable {descriptor buffer size : Word} {extent : Extent}
    (hwritable : writable buffer size m = .ok extent m) :
    readInto descriptor buffer size m =
      match m.descriptors.stream? descriptor with
      | none => .ok (-1) m
      | some stream => .ok (m.filled stream extent).1 (m.filled stream extent).2 := by
  rw [readInto, bind_of_ok hwritable, get_bind]
  cases m.descriptors.stream? descriptor with
  | none => rfl
  | some stream =>
      simp only
      unfold filled
      cases (m.host.read stream extent.size).1 <;> rfl

end Machine

end WordC
