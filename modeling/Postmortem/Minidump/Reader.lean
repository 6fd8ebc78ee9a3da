import Postmortem.Crash.State
import Postmortem.Minidump.Exception
import Postmortem.Minidump.ModuleList

/-!
# Reading minidumps

The snapshot of the process that a minidump was written of.  Only a dump without a readable header
or directory is refused: a stream that is missing or unreadable leaves a part of the snapshot empty.
-/

set_option autoImplicit false

namespace Postmortem.Minidump

inductive StreamKind where
  | threads
  | modules
  | memory
  | exception
  | system
  | requester
  | assertion
  deriving DecidableEq, Repr

def StreamKind.code : StreamKind → Nat
  | threads => 3
  | modules => 4
  | memory => 5
  | exception => 6
  | system => 7
  | requester => 0x47670001
  | assertion => 0x47670002

/-! ## Memory -/

/-- Reads a piece of memory: where it starts, and where it lies in the file.  One that is empty, or
has no place in the file, does not count. -/
def memory? (file : View) (start : UInt64) (l : Location) : Option MemoryRegion :=
  if l.size = 0 ∨ l.offset = 0 then none
  else (file.part? l).map fun v => ⟨start, v.bytes.toArray⟩

def readMemory? (file stream : View) : Option (List MemoryRegion) := do
  let records ← stream.records? 16
  let regions ← records.mapM fun r => do
    return memory? file (← r.word64? 0) (← r.location? 8)
  return regions.filterMap id

def lastAddress? (m : MemoryRegion) : Option UInt64 :=
  (addExact? m.base (UInt64.ofNat m.size)).map (· - 1)

/-- Sorted pieces of memory without those that overlap the last one kept. -/
def dropOverlapping (kept : Option UInt64) :
    List (MemoryRegion × UInt64) → List (MemoryRegion × UInt64)
  | [] => []
  | (m, last) :: rest =>
    if (kept.map fun k => decide (m.base ≤ k)).getD false then dropOverlapping kept rest
    else (m, last) :: dropOverlapping (some last) rest

def memoryAt? (regions : List MemoryRegion) (a : UInt64) : Option MemoryRegion :=
  let placed := regions.filterMap fun m => (lastAddress? m).map (m, ·)
  let sorted := placed.mergeSort fun x y =>
    x.1.base < y.1.base || (x.1.base == y.1.base && x.2 ≤ y.2)
  ((dropOverlapping none sorted).find? fun x => x.1.base ≤ a && a ≤ x.2).map Prod.fst

/-! ## Threads -/

structure ThreadEntry where
  id : UInt32
  stackStart : UInt64
  stack : Location
  context : Location
  deriving DecidableEq, Repr

namespace ThreadEntry

def read? (v : View) : Option ThreadEntry := do
  return ⟨← v.word32? 0, ← v.word64? 24, ← v.location? 32, ← v.location? 40⟩

/-- The stack: what the thread itself points at, or else the piece of memory that holds its
start. -/
def stack? (file : View) (memory : List MemoryRegion) (t : ThreadEntry) : Option MemoryRegion :=
  (memory? file t.stackStart t.stack).or (memoryAt? memory t.stackStart)

end ThreadEntry

/-! ## Assertions -/

/-- The text of an assertion: its expression, function, file and line, as far as they are there. -/
def assertionText (expression function file : String) (line : Nat) : String :=
  let expression :=
    if expression.isEmpty && !function.isEmpty then "Unknown assertion" else expression
  expression ++ (if function.isEmpty then "" else " in function " ++ function) ++
    (if file.isEmpty then "" else ", in file " ++ file) ++
    (if line = 0 then "" else " at line " ++ Text.decimal line)

/-- The assertion in a stream of three texts of 128 units and a line, unless it is empty. -/
def assertion? (stream : View) : Option String := do
  let s ← stream.part? ⟨776, 0⟩
  let part (i : Nat) : String := (s.fixedText? (256 * i) 128).getD ""
  let text := assertionText (part 0) (part 1) (part 2) (← s.number? 4 768)
  if text.isEmpty then none else some text

/-- The thread that asked for the dump, if the stream says that it knows. -/
def requester? (stream : View) : Option UInt32 := do
  let validity ← stream.number? 4 0
  let _ ← stream.word32? 4
  let thread ← stream.word32? 8
  if validity.testBit 1 then some thread else none

/-! ## Snapshots -/

namespace Dump

def read? {α : Type} (d : Dump) (kind : StreamKind) (f : View → Option α) : Option α :=
  (d.stream? kind.code).bind f

/-- A thread of the snapshot.  The thread that crashed has the registers of the exception. -/
def thread (d : Dump) (system : Option System) (memory : List MemoryRegion)
    (crashed : Option (UInt32 × Crash.RegisterFile)) (t : ThreadEntry) : Crash.Thread :=
  let own := system.bind fun s => context? d.file s t.context
  let context := match crashed with
    | some (id, registers) => if id = t.id then some registers else own
    | none => own
  { id := t.id, context, stack := t.stack? d.file memory }

def snapshot (d : Dump) : Crash.Snapshot :=
  let system := d.read? .system (System.read? d.file)
  let memory := (d.read? .memory (readMemory? d.file)).getD []
  let exception := d.read? .exception ExceptionRecord.read?
  let crashed := do
    let e ← exception
    let registers ← context? d.file (← system) e.context
    return (e.threadId, registers)
  let threads := (d.read? .threads fun s => do (← s.records? 48).mapM ThreadEntry.read?).getD []
  let modules := (d.read? .modules (ModuleEntry.readAll? d.file)).getD []
  let platform := (system.map (·.platform)).getD (.other 0)
  { timestamp := d.timestamp.toUInt64
    systemInfo := (system.map System.toSystemInfo).getD (.ofArch .unknown)
    threads := threads.map (d.thread system memory crashed)
    modules := modules.map (ModuleEntry.toModule d.file.endian platform)
    exception := exception.map (·.toInfo system)
    requestingThreadId := d.read? .requester requester?
    assertion := d.read? .assertion assertion? }

end Dump

def readSnapshot (b : Bytes) : Except Crash.Outcome Crash.Snapshot :=
  if b.isEmpty then .error .notFound
  else match Dump.parse? b with
    | some d => .ok d.snapshot
    | none => .error .noHeader

def process (b : Bytes) (frameInfos : Crash.FrameInfoMap) (config : Crash.WalkerConfig) :
    Except Crash.Outcome Crash.State := do
  let s ← readSnapshot b
  s.process frameInfos config

end Postmortem.Minidump
