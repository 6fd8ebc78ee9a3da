/-!
# Classes of faults

The coarse classification that all errors of this library share.  It tells a caller how to react:
try other debug files, give up on one module, or refuse an input.
-/

set_option autoImplicit false

namespace Postmortem

inductive FaultClass where
  /-- A cache is truncated, or of an unknown kind or version. -/
  | malformedInput
  /-- The input is valid, but of a kind that is not supported. -/
  | unsupported
  /-- A value does not fit the file format. -/
  | capacityExceeded
  /-- An address or identifier is absent, as may be expected. -/
  | notFound
  /-- A snapshot of a process is invalid. -/
  | corruptedSnapshot
  deriving DecidableEq, Repr, Inhabited

namespace FaultClass

def all : List FaultClass :=
  [malformedInput, unsupported, capacityExceeded, notFound, corruptedSnapshot]

def describe : FaultClass → String
  | malformedInput => "malformed input"
  | unsupported => "unsupported input"
  | capacityExceeded => "capacity exceeded"
  | notFound => "not found"
  | corruptedSnapshot => "corrupted snapshot"

def tag : FaultClass → String
  | malformedInput => "malformed_input"
  | unsupported => "unsupported"
  | capacityExceeded => "capacity_exceeded"
  | notFound => "not_found"
  | corruptedSnapshot => "corrupted_snapshot"

def ofTag? (s : String) : Option FaultClass := all.find? (·.tag == s)

/-- Whether the input itself is at fault, so that trying again is pointless. -/
def isInputFault : FaultClass → Bool
  | malformedInput | corruptedSnapshot | capacityExceeded => true
  | unsupported | notFound => false

end FaultClass

/-- A value, or the fault that explains why there is none. -/
def orFault {ε α : Type} (fault : ε) : Option α → Except ε α
  | some a => .ok a
  | none => .error fault

end Postmortem
