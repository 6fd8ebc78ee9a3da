import Postmortem.Cpu.Family
import Postmortem.FaultClass
import Postmortem.Postfix.Parser

/-!
# Faults of unwind caches

Why an unwind cache cannot be built or read.  A fault belongs to a kind, which has a text of its
own, and most say more about the place or the value that is at fault.
-/

set_option autoImplicit false

namespace Postmortem.CfiCache

inductive FaultKind where
  | missingUnwindInfo
  | unsupportedFormat
  | badUnwindInfo
  | unsupportedArch
  /-- Rows are out of order or outside their table. -/
  | invalidAddress
  /-- A rule cannot be put into postfix text. -/
  | unsupportedOperation
  | tooLarge
  | writeFailed
  | badMagic
  | wrongEndianness
  | unsupportedVersion
  /-- The cache is truncated. -/
  | invalidData
  deriving DecidableEq, Repr, Inhabited

namespace FaultKind

def message : FaultKind → String
  | missingUnwindInfo => "missing cfi debug sections"
  | unsupportedFormat => "unsupported debug format"
  | badUnwindInfo => "bad debug information"
  | unsupportedArch => "unsupported architecture"
  | invalidAddress => "invalid cfi address"
  | unsupportedOperation => "unsupported unwind operation"
  | tooLarge => "value too large for cfi cache"
  | writeFailed => "failed to write cfi"
  | badMagic => "bad cfi cache magic"
  | wrongEndianness => "cfi cache endianness mismatch"
  | unsupportedVersion => "unsupported cfi cache version"
  | invalidData => "invalid cfi cache data"

def faultClass : FaultKind → FaultClass
  | missingUnwindInfo | unsupportedFormat | unsupportedArch | unsupportedOperation => .unsupported
  | tooLarge => .capacityExceeded
  | _ => .malformedInput

end FaultKind

inductive Fault where
  | missingUnwindInfo
  | unsupportedArch
  /-- The table at an address ends too far from the load address. -/
  | tableOutOfRange (start : UInt64)
  | addressOutOfRange (address : UInt64)
  | tooManyValues
  | tooManyPrograms
  | tooManyStrings
  /-- A row lies outside its table or not behind the row before it. -/
  | rowOutOfOrder (row start stop : UInt64)
  | noRows (start : UInt64)
  | noCfaRule (start : UInt64)
  | unreadableRules (e : Postfix.ParseError)
  | unknownRegister (number : UInt16) (family : Cpu.Family)
  /-- The canonical frame address is given by an expression. -/
  | cfaExpression
  | headerTruncated
  | wrongEndianness
  | badMagic
  | unsupportedVersion (version : UInt32)
  | misaligned
  | entriesTruncated
  | programsTruncated
  | stringsTruncated
  deriving DecidableEq, Repr

namespace Fault

def kind : Fault → FaultKind
  | missingUnwindInfo => .missingUnwindInfo
  | unsupportedArch => .unsupportedArch
  | tableOutOfRange _ | addressOutOfRange _ | tooManyValues | tooManyPrograms | tooManyStrings =>
    .tooLarge
  | rowOutOfOrder .. => .invalidAddress
  | noRows _ | noCfaRule _ | unreadableRules _ | unknownRegister .. => .badUnwindInfo
  | cfaExpression => .unsupportedOperation
  | wrongEndianness => .wrongEndianness
  | badMagic => .badMagic
  | unsupportedVersion _ => .unsupportedVersion
  | headerTruncated | misaligned | entriesTruncated | programsTruncated | stringsTruncated =>
    .invalidData

def message (f : Fault) : String := f.kind.message

def faultClass (f : Fault) : FaultClass := f.kind.faultClass

def detail? : Fault → Option String
  | missingUnwindInfo | unsupportedArch | wrongEndianness | badMagic | misaligned => none
  | tableOutOfRange start =>
    some ("unwind table at " ++ Text.hexPrefixed start.toNat ++ " out of range")
  | addressOutOfRange a => some ("address " ++ Text.hexPrefixed a.toNat ++ " out of range")
  | tooManyValues => some "too many values"
  | tooManyPrograms => some "rule programs"
  | tooManyStrings => some "string table exceeds 4GiB"
  | rowOutOfOrder row start stop =>
    some ("unwind row at " ++ Text.hexPrefixed row.toNat ++ " out of order in " ++
      Text.hexPrefixed start.toNat ++ ".." ++ Text.hexPrefixed stop.toNat)
  | noRows start => some ("unwind table at " ++ Text.hexPrefixed start.toNat ++ " has no rows")
  | noCfaRule start => some ("missing .cfa rule at " ++ Text.hexPrefixed start.toNat)
  | unreadableRules e => some e.message
  | unknownRegister number family =>
    some ("unknown register " ++ Text.decimal number.toNat ++ " for " ++ family.label)
  | cfaExpression => some "cfa expressions cannot be expressed as postfix rules"
  | headerTruncated => some "cfi cache header truncated"
  | unsupportedVersion v => some ("cfi cache version " ++ Text.decimal v.toNat)
  | entriesTruncated => some "entries truncated"
  | programsTruncated => some "programs truncated"
  | stringsTruncated => some "strings truncated"

end Fault

end Postmortem.CfiCache
