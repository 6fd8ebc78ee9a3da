import Postmortem.Cpu.Arch

/-!
# Call sites

Every frame but the innermost one records where execution resumes after a call, which is the
instruction behind the call.  `Instruction.callerAddress` moves that address back into the calling
instruction.  The innermost frame holds the live instruction pointer and stays where it is, unless
a signal handler left a return address there.
-/

set_option autoImplicit false

namespace Postmortem.Cpu

/-- An instruction address of a frame and what is known about the frame. -/
structure Instruction where
  arch : Arch
  address : UInt64
  /-- Whether the frame is the innermost one of its thread. -/
  isInnermost : Bool := false
  /-- The signal that ended the process. -/
  signal : Option UInt32 := none
  /-- The instruction pointer at the time of the crash. -/
  instructionPointer : Option UInt64 := none
  deriving DecidableEq, Repr

namespace Instruction

def aligned (i : Instruction) : UInt64 :=
  match i.arch.family.alignment? with
  | some a => i.address - i.address % a
  | none => i.address

/-- How far the calling instruction lies behind a return address.  On MIPS the return address skips
the instruction in the delay slot. -/
def callDistance (family : Family) : UInt64 :=
  let size := family.alignment?.getD 1
  match family with
  | .mips32 | .mips64 => 2 * size
  | _ => size

/-- An address inside the instruction before this one, but not below zero. -/
def previous (i : Instruction) : UInt64 :=
  let distance := callDistance i.arch.family
  if distance ≤ i.aligned then i.aligned - distance else 0

/-- Whether the signal speaks of a jump to an invalid, privileged or misaligned address. -/
def isCrashSignal (i : Instruction) : Bool :=
  i.signal == some 4 || i.signal == some 10 || i.signal == some 11

def isReturnAddress (i : Instruction) : Bool :=
  !i.isInnermost ||
    match i.instructionPointer with
    | some ip => ip != i.address && i.isCrashSignal
    | none => false

/-- The best guess for the address of the instruction that was running. -/
def callerAddress (i : Instruction) : UInt64 :=
  if i.isReturnAddress then i.previous else i.aligned

end Instruction

def callSite (arch : Arch) (address : UInt64) : UInt64 :=
  Instruction.callerAddress ⟨arch, address, false, none, none⟩

end Postmortem.Cpu
