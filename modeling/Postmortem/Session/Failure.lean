import Postmortem.CfiCache.Fault
import Postmortem.Cpu.Arch
import Postmortem.Crash.Outcome
import Postmortem.DebugId
import Postmortem.SymCache.Fault

/-!
# Failures

The failures that callers from outside the library see.  Each has a number, by which its kind is
known, and a message with all its causes.
-/

set_option autoImplicit false

namespace Postmortem.Session

inductive Failure where
  /-- A value that is needed was not given. -/
  | nullPointer (what : String)
  | unknownArch
  | invalidDebugId
  | symCache (f : SymCache.Fault)
  | cfiCache (f : CfiCache.Fault)
  | process (o : Crash.Outcome)
  deriving DecidableEq, Repr

def symCacheCode : SymCache.Fault → Nat
  | .wrongEndianness => 6001
  | .wrongFormat => 6002
  | .wrongVersion => 6003
  | .invalidHeader => 6004
  | .invalidFiles | .invalidFunctions | .invalidRanges | .invalidInlinees | .invalidLines
  | .missingStrings .. => 6005
  | .badObject => 6006
  | .tooLarge _ => 6007
  | .tooMany _ => 6008
  | .writeFailed => 6009

def cfiCacheCode : CfiCache.FaultKind → Nat
  | .missingUnwindInfo => 3001
  | .unsupportedFormat => 3002
  | .badUnwindInfo => 3003
  | .unsupportedArch => 3004
  | .writeFailed => 3005
  | .badMagic => 3006
  | .invalidAddress => 3007
  | .unsupportedOperation => 3008
  | .tooLarge => 3009
  | .wrongEndianness => 3010
  | .unsupportedVersion => 3011
  | .invalidData => 3012

/-- The number of an outcome that is an error.  Success is none, and has the number of an unknown
failure. -/
def processCode : Crash.Outcome → Nat
  | .ok => 2
  | .notFound => 4001
  | .noHeader => 4002
  | .noThreadList => 4003
  | .invalidThreadIndex => 4004
  | .invalidThreadId => 4005
  | .duplicateThreads => 4006
  | .interrupted => 4007

namespace Failure

def code : Failure → Nat
  | nullPointer _ => 3
  | unknownArch => 1001
  | invalidDebugId => 1003
  | symCache f => symCacheCode f
  | cfiCache f => cfiCacheCode f.kind
  | process o => processCode o

def summary : Failure → String
  | nullPointer what => "unexpected null pointer for " ++ what
  | unknownArch => Arch.unknownMessage
  | invalidDebugId => DebugId.invalidMessage
  | symCache f => f.message
  | cfiCache f => f.message
  | process o => o.message

def causes : Failure → List String
  | cfiCache f => f.detail?.toList
  | _ => []

def message (f : Failure) : String :=
  f.summary ++ String.join (f.causes.map ("\n  caused by: " ++ ·))

end Failure

end Postmortem.Session
