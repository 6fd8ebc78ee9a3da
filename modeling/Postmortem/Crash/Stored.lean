import Postmortem.Crash.State
import Postmortem.Debug.Object
import Postmortem.Json.Value
import Postmortem.Language

/-!
# Stored states

States of processes, and their parts, as JSON.  A record is an object with one member a field; an
array of all fields in their order reads as the same record.  Reading ignores members that it does
not know, and refuses what lacks a field, has one twice, or has a value out of bounds.
-/

set_option autoImplicit false

namespace Postmortem

def Json.word32 (n : UInt32) : Json := .nat n.toNat

def Json.word64 (n : UInt64) : Json := .nat n.toNat

def Json.named? {α : Type} (parse? : String → Option α) (j : Json) : Option α :=
  j.text?.bind parse?

def Arch.ofJson? (j : Json) : Option Arch := j.named? Arch.parse?

def Arch.toJson (a : Arch) : Json := .str a.name

def Language.ofJson? (j : Json) : Option Language := j.named? Language.parse?

def Language.toJson (l : Language) : Json := .str l.name

def FaultClass.ofJson? (j : Json) : Option FaultClass := j.plainChoice?.bind FaultClass.ofTag?

def FaultClass.toJson (f : FaultClass) : Json := .str f.tag

def Debug.ObjectKind.ofJson? (j : Json) : Option ObjectKind := j.named? ObjectKind.parse?

def Debug.ObjectKind.toJson (k : ObjectKind) : Json := .str k.name

def Debug.FileFormat.ofJson? (j : Json) : Option FileFormat := j.named? FileFormat.parse?

def Debug.FileFormat.toJson (f : FileFormat) : Json := .str f.name

namespace Crash

open Json

def Trust.ofJson? (j : Json) : Option Trust := j.named? Trust.parse?

def Trust.toJson (t : Trust) : Json := .str t.name

def Outcome.ofJson? (j : Json) : Option Outcome := j.plainChoice?.bind Outcome.parse?

def Outcome.toJson (o : Outcome) : Json := .str o.name

def ModuleId.ofJson? (j : Json) : Option ModuleId := j.named? ModuleId.parse?

def ModuleId.toJson (m : ModuleId) : Json := .str m.toText

def RegisterValue.ofJson? (j : Json) : Option RegisterValue :=
  match j.choice? with
  | some ("U32", some n) => n.word32?.map word32
  | some ("U64", some n) => n.word64?.map word64
  | _ => none

def RegisterValue.toJson : RegisterValue → Json
  | word32 n => .obj [("U32", .word32 n)]
  | word64 n => .obj [("U64", .word64 n)]

def ExceptionInfo.fieldNames : List String := ["thread_id", "reason", "address"]

def ExceptionInfo.ofJson? (j : Json) : Option ExceptionInfo :=
  match j.fields? fieldNames with
  | some [threadId, reason, address] => do
    let threadId ← required? word32? threadId
    let reason ← required? text? reason
    let address ← required? word64? address
    return ⟨threadId, reason, address⟩
  | _ => none

def ExceptionInfo.toJson (e : ExceptionInfo) : Json :=
  .obj [("thread_id", .word32 e.threadId), ("reason", .str e.reason),
    ("address", .word64 e.address)]

def Module.fieldNames : List String :=
  ["id", "base_address", "size", "code_file", "code_identifier", "debug_file"]

def Module.ofJson? (j : Json) : Option Module :=
  match j.fields? fieldNames with
  | some [id, base, size, codeFile, codeIdentifier, debugFile] => do
    let id ← optional? ModuleId.ofJson? id
    let base ← required? word64? base
    let size ← required? word64? size
    let codeFile ← required? text? codeFile
    let codeIdentifier ← required? text? codeIdentifier
    let debugFile ← required? text? debugFile
    return ⟨id, base, size, codeFile, codeIdentifier, debugFile⟩
  | _ => none

def Module.toJson (m : Module) : Json :=
  .obj [("id", .ofOption ModuleId.toJson m.id), ("base_address", .word64 m.base),
    ("size", .word64 m.size), ("code_file", .str m.codeFile),
    ("code_identifier", .str m.codeIdentifier), ("debug_file", .str m.debugFile)]

/-- Reads registers.  Of several values for one name the last one counts. -/
def registersOfJson? : Json → Option (SortedMap String RegisterValue)
  | .obj members =>
    (members.mapM fun m => (RegisterValue.ofJson? m.2).map (m.1, ·)).map SortedMap.ofList
  | _ => none

def registersToJson (m : SortedMap String RegisterValue) : Json :=
  .obj (m.entries.map fun e => (e.1, e.2.toJson))

def Frame.fieldNames : List String :=
  ["instruction", "return_address", "trust", "module", "registers"]

def Frame.ofJson? (j : Json) : Option Frame :=
  match j.fields? fieldNames with
  | some [instruction, returnAddress, trust, module, registers] => do
    let instruction ← required? word64? instruction
    let returnAddress ← required? word64? returnAddress
    let trust ← required? Trust.ofJson? trust
    let module ← optional? Module.ofJson? module
    let registers ← required? registersOfJson? registers
    return ⟨instruction, returnAddress, trust, module, registers⟩
  | _ => none

def Frame.toJson (f : Frame) : Json :=
  .obj [("instruction", .word64 f.instruction), ("return_address", .word64 f.returnAddress),
    ("trust", f.trust.toJson), ("module", .ofOption Module.toJson f.module),
    ("registers", registersToJson f.registers)]

def CallStack.fieldNames : List String := ["thread_id", "frames"]

def CallStack.ofJson? (j : Json) : Option CallStack :=
  match j.fields? fieldNames with
  | some [threadId, frames] => do
    let threadId ← required? word32? threadId
    let frames ← required? (list? Frame.ofJson?) frames
    return ⟨threadId, frames⟩
  | _ => none

def CallStack.toJson (c : CallStack) : Json :=
  .obj [("thread_id", .word32 c.threadId), ("frames", .arr (c.frames.map Frame.toJson))]

def SystemInfo.fieldNames : List String :=
  ["os_name", "os_version", "os_build", "cpu_family", "cpu_info", "cpu_count"]

def SystemInfo.ofJson? (j : Json) : Option SystemInfo :=
  match j.fields? fieldNames with
  | some [osName, osVersion, osBuild, cpuFamily, cpuInfo, cpuCount] => do
    let osName ← required? text? osName
    let osVersion ← required? text? osVersion
    let osBuild ← required? text? osBuild
    let cpuFamily ← required? text? cpuFamily
    let cpuInfo ← required? text? cpuInfo
    let cpuCount ← required? word32? cpuCount
    return ⟨osName, osVersion, osBuild, cpuFamily, cpuInfo, cpuCount⟩
  | _ => none

/-- The stored form of system information, with the version and build as they were captured. -/
def SystemInfo.toJson (s : SystemInfo) : Json :=
  .obj [("os_name", .str s.osName), ("os_version", .str s.osVersion), ("os_build", .str s.osBuild),
    ("cpu_family", .str s.cpuFamily), ("cpu_info", .str s.cpuInfo),
    ("cpu_count", .word32 s.cpuCount)]

def State.fieldNames : List String :=
  ["requesting_thread", "timestamp", "exception", "assertion", "system_info", "threads", "modules"]

def State.ofJson? (j : Json) : Option State :=
  match j.fields? fieldNames with
  | some [requestingThread, timestamp, exception, assertion, systemInfo, threads, modules] => do
    let requestingThread ← required? int32? requestingThread
    let timestamp ← required? word64? timestamp
    let exception ← optional? ExceptionInfo.ofJson? exception
    let assertion ← required? text? assertion
    let systemInfo ← required? SystemInfo.ofJson? systemInfo
    let threads ← required? (list? CallStack.ofJson?) threads
    let modules ← required? (list? Module.ofJson?) modules
    return ⟨requestingThread, timestamp, exception, assertion, systemInfo, threads, modules⟩
  | _ => none

def State.toJson (s : State) : Json :=
  .obj [("requesting_thread", .int s.requestingThread.toInt), ("timestamp", .word64 s.timestamp),
    ("exception", .ofOption ExceptionInfo.toJson s.exception), ("assertion", .str s.assertion),
    ("system_info", s.systemInfo.toJson), ("threads", .arr (s.threads.map CallStack.toJson)),
    ("modules", .arr (s.modules.map Module.toJson))]

end Crash

end Postmortem
