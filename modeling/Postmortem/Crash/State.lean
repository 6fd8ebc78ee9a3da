import Postmortem.Crash.Outcome
import Postmortem.Crash.Walker

/-!
# The state of a process

What is known of a process after its stacks were walked.
-/

set_option autoImplicit false

namespace Postmortem.Crash

structure State where
  /-- The place of the thread that crashed or asked for the snapshot, or -1. -/
  requestingThread : Int32 := -1
  timestamp : UInt64 := 0
  exception : Option ExceptionInfo := none
  assertion : String := ""
  systemInfo : SystemInfo := {}
  threads : List CallStack := []
  modules : List Module := []
  deriving DecidableEq

namespace State

def crashed (s : State) : Bool := s.exception.isSome

def crashAddress (s : State) : UInt64 := (s.exception.map (·.address)).getD 0

def crashReason (s : State) : String := (s.exception.map (·.reason)).getD ""

/-- The modules of all frames, each once. -/
def referencedModules (s : State) : List Module :=
  Module.distinct (s.threads.flatMap fun t => t.frames.filterMap (·.module))

def inspect (s : State) : Text.Inspect :=
  .record "ProcessState"
    [("requesting_thread", .int s.requestingThread.toInt), ("timestamp", .nat s.timestamp.toNat),
      ("crash_address", .nat s.crashAddress.toNat), ("crash_reason", .quoted s.crashReason),
      ("assertion", .quoted s.assertion), ("system_info", s.systemInfo.inspect),
      ("threads", .list (s.threads.map CallStack.inspect)),
      ("modules", .list (s.modules.map Module.inspect))]

end State

namespace Snapshot

/-- The thread that crashed, or else the one that asked for the snapshot. -/
def culprit? (s : Snapshot) : Option UInt32 :=
  match s.exception with
  | some e => some e.threadId
  | none => s.requestingThreadId

/-- The place of a thread among all, or -1.  There must not be two of them. -/
def indexOf (s : Snapshot) (id : UInt32) : Except Outcome Int32 :=
  if 1 < s.threads.countP (·.id == id) then .error .duplicateThreads
  else
    match s.threads.findIdx? (·.id == id) with
    | some i => .ok (if i < 0x80000000 then Int32.ofNat i else -1)
    | none => .ok (-1)

/-- The place of the thread that crashed or asked for the snapshot, or -1. -/
def requestingThread (s : Snapshot) : Except Outcome Int32 :=
  match s.culprit? with
  | some id => s.indexOf id
  | none => .ok (-1)

def process (s : Snapshot) (frameInfos : FrameInfoMap) (config : WalkerConfig) :
    Except Outcome State := do
  let requestingThread ← s.requestingThread
  let modules := ModuleMap.ofList s.modules
  let walk (t : Thread) : CallStack :=
    match Walker.make? s.systemInfo.arch t.stack modules frameInfos config with
    | some w => w.walk t
    | none => ⟨t.id, []⟩
  return {
    requestingThread
    timestamp := s.timestamp
    exception := s.exception
    assertion := s.assertion.getD ""
    systemInfo := s.systemInfo
    threads := s.threads.map walk
    modules := modules.modules }

end Snapshot

end Postmortem.Crash
