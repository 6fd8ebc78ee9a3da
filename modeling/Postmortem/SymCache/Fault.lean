import Postmortem.FaultClass
import Postmortem.Text.Numeral

/-!
# Faults of symbol caches

Why a symbol cache cannot be read or written.
-/

set_option autoImplicit false

namespace Postmortem.SymCache

inductive Quantity where
  /-- An address relative to the load address. -/
  | address
  | string
  | function
  | file
  /-- A line number or a line record. -/
  | line
  | range
  /-- An inlined call. -/
  | inlinee
  deriving DecidableEq, Repr, Inhabited

def Quantity.describe : Quantity → String
  | address => "address"
  | string => "string"
  | function => "function"
  | file => "file"
  | line => "line record"
  | range => "range"
  | inlinee => "inlinee"

inductive Fault where
  /-- The cache was written on a system that starts numbers at the other end. -/
  | wrongEndianness
  /-- The data is no symbol cache. -/
  | wrongFormat
  | wrongVersion
  | invalidHeader
  | invalidFiles
  | invalidFunctions
  | invalidRanges
  | invalidInlinees
  | invalidLines
  /-- There is less string data than the header says. -/
  | missingStrings (expected found : Nat)
  /-- An object file holds invalid data. -/
  | badObject
  /-- One value does not fit. -/
  | tooLarge (what : Quantity)
  /-- The number of values does not fit. -/
  | tooMany (what : Quantity)
  | writeFailed
  deriving DecidableEq, Repr, Inhabited

namespace Fault

def message : Fault → String
  | wrongEndianness => "endianness mismatch"
  | wrongFormat => "wrong format magic"
  | wrongVersion => "unknown SymCache version"
  | invalidHeader => "invalid header"
  | invalidFiles => "invalid files"
  | invalidFunctions => "invalid functions"
  | invalidRanges => "invalid ranges"
  | invalidInlinees => "invalid inlinees"
  | invalidLines => "invalid line tables"
  | missingStrings expected found =>
    "unexpected string bytes: expected " ++ Text.decimal expected ++ ", found " ++
      Text.decimal found
  | badObject => "malformed debug info file"
  | tooLarge what => what.describe ++ " too large for symcache file format"
  | tooMany what => "too many " ++ what.describe ++ "s for symcache"
  | writeFailed => "failed to write symcache"

/-- The class of a fault: data is malformed unless it is merely too large. -/
def faultClass : Fault → FaultClass
  | tooLarge _ | tooMany _ => .capacityExceeded
  | _ => .malformedInput

end Fault

end Postmortem.SymCache
