import Postmortem.Address
import Postmortem.Bytes

/-!
# Unwind information

How to recover the registers of a caller at each address of some code.  A table covers one range and
has its rules either in rows, in terms of register numbers, or as postfix text.
-/

set_option autoImplicit false

namespace Postmortem.Debug

/-- Where an unwind table was found.  Of tables that cover the same code the earlier kinds are more
precise. -/
inductive UnwindSource where
  | compactUnwind
  | debugFrame
  | ehFrame
  | pdbFrameData
  | peUnwind
  | breakpad
  deriving DecidableEq, Repr, Inhabited

namespace UnwindSource

def all : List UnwindSource :=
  [compactUnwind, debugFrame, ehFrame, pdbFrameData, peUnwind, breakpad]

/-- The rank of a source; a lower one wins. -/
def rank : UnwindSource → UInt32
  | compactUnwind => 0
  | debugFrame => 1
  | ehFrame => 2
  | pdbFrameData => 3
  | peUnwind => 4
  | breakpad => 5

def ofRank? (n : UInt32) : Option UnwindSource := all.find? (·.rank == n)

def name : UnwindSource → String
  | compactUnwind => "compact_unwind"
  | debugFrame => "debug_frame"
  | ehFrame => "eh_frame"
  | pdbFrameData => "pdb_frame_data"
  | peUnwind => "pe_unwind"
  | breakpad => "breakpad"

def parse? (s : String) : Option UnwindSource := all.find? (·.name == s)

end UnwindSource

inductive CfaRule where
  | registerOffset (register : UInt16) (offset : Int64)
  | expression (program : Bytes)
  deriving DecidableEq, Repr

inductive RegisterRule where
  /-- The value is lost. -/
  | undefined
  /-- The register was not changed. -/
  | sameValue
  /-- The value lies in memory at an offset from the canonical frame address. -/
  | offset (offset : Int64)
  /-- The value is the canonical frame address plus an offset. -/
  | valOffset (offset : Int64)
  /-- The value lies in another register. -/
  | register (other : UInt16)
  /-- The value lies in memory where an expression says. -/
  | expression (program : Bytes)
  /-- The value is that of an expression. -/
  | valExpression (program : Bytes)
  /-- The conventions of the architecture give the value. -/
  | architectural
  deriving DecidableEq, Repr

/-- The rules in effect from an address up to the next row. -/
structure UnwindRow where
  address : UInt64
  cfa : CfaRule
  registers : List (UInt16 × RegisterRule) := []
  deriving DecidableEq, Repr

inductive UnwindRules where
  /-- Rows by increasing address, with the register that holds the return address. -/
  | rows (returnAddress : UInt16) (rows : List UnwindRow)
  /-- Postfix rules from the start of the range, and changes to them from later addresses on. -/
  | postfixRules (init : String) (deltas : List (UInt64 × String))
  deriving DecidableEq, Repr

structure UnwindTable where
  source : UnwindSource
  address : UInt64
  size : UInt64
  rules : UnwindRules
  deriving DecidableEq, Repr

def UnwindTable.stop (t : UnwindTable) : UInt64 := addSaturating t.address t.size

end Postmortem.Debug
