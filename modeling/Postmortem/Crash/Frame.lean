import Postmortem.Crash.Module
import Postmortem.SortedMap

/-!
# Stack frames

The frames of the threads of a process, each with how far it can be trusted and the registers that
are known for it.
-/

set_option autoImplicit false

namespace Postmortem.Crash

/-- How a frame was found.  Later ways are more precise. -/
inductive Trust where
  | none
  /-- A word on the stack looked like a return address. -/
  | scan
  /-- The same, inside code with unwind information. -/
  | cfiScan
  | framePointer
  | cfi
  /-- Found by someone else. -/
  | prewalked
  /-- The innermost frame. -/
  | context
  deriving DecidableEq, Repr, Inhabited

namespace Trust

def all : List Trust := [none, scan, cfiScan, framePointer, cfi, prewalked, context]

def rank (t : Trust) : Nat := all.idxOf t

def name : Trust → String
  | none => "none"
  | scan => "scan"
  | cfiScan => "cfiscan"
  | framePointer => "fp"
  | cfi => "cfi"
  | prewalked => "prewalked"
  | context => "context"

def describe : Trust → String
  | none => "none"
  | scan => "stack scanning"
  | cfiScan => "call frame info with scanning"
  | framePointer => "previous frame's frame pointer"
  | cfi => "call frame info"
  | prewalked => "recovered by external stack walker"
  | context => "given as instruction pointer in context"

def label : Trust → String
  | none => "None"
  | scan => "Scan"
  | cfiScan => "CFIScan"
  | framePointer => "FP"
  | cfi => "CFI"
  | prewalked => "Prewalked"
  | context => "Context"

def parse? (s : String) : Option Trust := all.find? (·.name == s)

def unknownMessage : String := "failed to parse frame trust"

def below (t : Trust) : List Trust := all.filter (·.rank < t.rank)

end Trust

inductive RegisterValue where
  | word32 (n : UInt32)
  | word64 (n : UInt64)
  deriving DecidableEq, Repr, Inhabited

namespace RegisterValue

/-- A value of some bytes, of which there are four or eight.  Higher bits are lost. -/
def ofWidth (width : Nat) (n : UInt64) : RegisterValue :=
  if width = 4 then word32 n.toUInt32 else word64 n

def toWord64 : RegisterValue → UInt64
  | word32 n => n.toUInt64
  | word64 n => n

def toText : RegisterValue → String
  | word32 n => Text.hexPrefixedPadded 8 n.toNat
  | word64 n => Text.hexPrefixedPadded 16 n.toNat

def inspect : RegisterValue → Text.Inspect
  | word32 n => .tuple "U32" [.nat n.toNat]
  | word64 n => .tuple "U64" [.nat n.toNat]

end RegisterValue

abbrev RegisterFile := SortedMap String UInt64

structure Frame where
  /-- An address inside the instruction that was running. -/
  instruction : UInt64
  /-- Where execution resumes. -/
  returnAddress : UInt64
  trust : Trust
  /-- The module of the instruction. -/
  module : Option Module
  registers : SortedMap String RegisterValue
  deriving DecidableEq

namespace Frame

def inspect (f : Frame) : Text.Inspect :=
  .record "StackFrame"
    [("instruction", .nat f.instruction.toNat), ("return_address", .nat f.returnAddress.toNat),
      ("trust", .plain f.trust.label), ("module", .option Module.inspect f.module),
      ("registers",
        .map (f.registers.entries.map fun e => (.quoted e.1, e.2.inspect)))]

end Frame

structure CallStack where
  threadId : UInt32
  frames : List Frame := []
  deriving DecidableEq

def CallStack.inspect (c : CallStack) : Text.Inspect :=
  .record "CallStack"
    [("thread_id", .nat c.threadId.toNat), ("frames", .list (c.frames.map Frame.inspect))]

end Postmortem.Crash
