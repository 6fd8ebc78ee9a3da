import Postmortem.Crash.Frame
import Postmortem.Crash.SystemInfo
import Postmortem.Memory

/-!
# Snapshots

A process as it was captured, whatever the format it was captured in: its threads with their
registers and stacks, its modules, and why it was captured.
-/

set_option autoImplicit false

namespace Postmortem.Crash

structure PrewalkedFrame where
  instruction : UInt64
  registers : RegisterFile := .empty
  deriving DecidableEq

structure Thread where
  id : UInt32 := 0
  /-- The registers, unless they could not be read. -/
  context : Option RegisterFile := none
  stack : Option MemoryRegion := none
  /-- The callers of the innermost frame, if they are known already. -/
  prewalked : Option (List PrewalkedFrame) := none
  deriving DecidableEq, Inhabited

structure ExceptionInfo where
  threadId : UInt32
  /-- A description such as `SIGSEGV`. -/
  reason : String
  address : UInt64
  deriving DecidableEq, Repr, Inhabited

structure Snapshot where
  /-- Seconds since 1970. -/
  timestamp : UInt64 := 0
  systemInfo : SystemInfo := {}
  threads : List Thread := []
  modules : List Module := []
  exception : Option ExceptionInfo := none
  /-- The thread that asked for the snapshot. -/
  requestingThreadId : Option UInt32 := none
  assertion : Option String := none
  deriving DecidableEq, Inhabited

end Postmortem.Crash
