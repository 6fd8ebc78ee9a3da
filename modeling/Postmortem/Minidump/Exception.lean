import Postmortem.Crash.Snapshot
import Postmortem.Minidump.Context
import Postmortem.Minidump.Reason

/-!
# The exception of a minidump

Why a process crashed, in the words of its operating system, and the address that has to do with it.
-/

set_option autoImplicit false

namespace Postmortem.Minidump

structure ExceptionRecord where
  threadId : UInt32
  code : Nat
  flags : Nat
  address : UInt64
  /-- Further details, whose meaning depends on the code. -/
  parameters : List UInt64
  context : Location
  deriving DecidableEq, Repr

namespace ExceptionRecord

def read? (stream : View) : Option ExceptionRecord := do
  let s ← stream.part? ⟨168, 0⟩
  let parameters ← (List.range 15).mapM fun i => s.word64? (40 + 8 * i)
  return {
    threadId := ← s.word32? 0
    code := ← s.number? 4 8
    flags := ← s.number? 4 12
    address := ← s.word64? 24
    parameters := parameters.take (← s.number? 4 32)
    context := ← s.location? 160 }

def reason (e : ExceptionRecord) (s : System) : String :=
  match s.platform with
  | .linux | .android => Reason.linux e.code e.flags
  | .windows => Reason.windows e.code e.flags e.parameters
  | .macOs | .ios => Reason.mach s.processor e.code e.flags
  | _ => Reason.unknown e.code e.flags

/-- Whether an exception of Windows has the address of some data as its second parameter. -/
def namesData (e : ExceptionRecord) : Bool :=
  e.code = Reason.accessViolation || e.code = Reason.inPageError

/-- The address that has to do with a crash: that of the data after a failed access on Windows,
otherwise that of the instruction. -/
def crashAddress (e : ExceptionRecord) (s : System) : UInt64 :=
  let a := match s.platform, e.parameters with
    | .windows, _ :: data :: _ => if e.namesData then data else e.address
    | _, _ => e.address
  if s.processor.isNarrow then a.toUInt32.toUInt64 else a

/-- The exception of a snapshot.  Where nothing is known of the system, there is no reason. -/
def toInfo (e : ExceptionRecord) : Option System → Crash.ExceptionInfo
  | some s => ⟨e.threadId, e.reason s, e.crashAddress s⟩
  | none => ⟨e.threadId, "", e.address⟩

end ExceptionRecord

end Postmortem.Minidump
