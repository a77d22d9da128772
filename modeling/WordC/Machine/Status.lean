/-!
# Life of a machine
-/

namespace WordC

inductive Status where
  | idle
  | loaded
  | running
  | halted
  | faulted
deriving DecidableEq, Inhabited

namespace Status

def name : Status → String
  | idle => "idle"
  | loaded => "loaded"
  | running => "running"
  | halted => "halted"
  | faulted => "faulted"

/-- A machine runs once: a finished one has to be reset first. -/
def isRunnable : Status → Bool
  | idle | loaded => true
  | running | halted | faulted => false

end Status

end WordC
