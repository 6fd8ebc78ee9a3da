import Postmortem.CfiCache.Reader
import Postmortem.Cpu.CallSite
import Postmortem.Crash.ModuleId
import Postmortem.Crash.Snapshot
import Postmortem.Postfix.Evaluator
import Postmortem.SortedMap

/-!
# Walking stacks

The callers of a frame, one after the other.  Each is sought by four strategies in descending order
of trust: unwind information, the frame pointer, a scan of the stack for return addresses in code
with unwind information, and a scan for any return address.  The first strategy with a plausible
answer wins.  A stack grows towards its callers, so the stack pointer must rise, and the caller must
lie in a module.
-/

set_option autoImplicit false

namespace Postmortem.Crash

abbrev FrameInfoMap := SortedMap ModuleId CfiCache

namespace FrameInfoMap

/-- The map with a cache for a module, and the cache that it replaces. -/
def register (m : FrameInfoMap) (id : ModuleId) (c : CfiCache) : Option CfiCache × FrameInfoMap :=
  (m.find? id, m.insert id c)

def extend (m : FrameInfoMap) (caches : List (ModuleId × CfiCache)) : FrameInfoMap :=
  caches.foldl (fun m c => m.insert c.1 c.2) m

end FrameInfoMap

structure WalkerConfig where
  /-- The number of frames, with the innermost one. -/
  maxFrames : Nat := 1024
  /-- The number of words that a scan looks at. -/
  scanWords : Nat := 40
  /-- The number of words that a scan looks at for the caller of the innermost frame. -/
  contextScanWords : Nat := 160
  /-- The number of frames in a row that are found by a plain scan. -/
  maxConsecutiveScans : Nat := 16
  deriving DecidableEq, Repr, Inhabited

inductive Strategy where
  | cfi
  | framePointer
  | cfiScan
  | scan
  deriving DecidableEq, Repr

namespace Strategy

/-- All strategies in the order in which they are tried. -/
def all : List Strategy := [cfi, framePointer, cfiScan, scan]

def trust : Strategy → Trust
  | cfi => .cfi
  | framePointer => .framePointer
  | cfiScan => .cfiScan
  | scan => .scan

end Strategy

/-- A frame with the registers that are needed to find its caller. -/
structure WalkFrame where
  registers : RegisterFile
  /-- Where execution resumes, or for the innermost frame the live instruction pointer. -/
  ip : UInt64
  sp : UInt64
  /-- The address by which the module and the unwind rules are found. -/
  instruction : UInt64
  trust : Trust

structure Candidate where
  registers : RegisterFile
  ip : UInt64
  sp : UInt64

structure Walker where
  arch : Arch
  width : Postfix.Width
  ipName : String
  spName : String
  stack : Option MemoryRegion
  modules : ModuleMap
  frameInfos : FrameInfoMap
  config : WalkerConfig

namespace Walker

/-- A walker for an architecture, if its stacks can be walked. -/
def make? (arch : Arch) (stack : Option MemoryRegion) (modules : ModuleMap)
    (frameInfos : FrameInfoMap) (config : WalkerConfig) : Option Walker := do
  let size ← arch.family.pointerSize?
  let ipName ← arch.family.instructionPointer?
  let spName ← arch.family.stackPointer?
  let width := if size = 4 then .w32 else .w64
  return { arch, width, ipName, spName, stack, modules, frameInfos, config }

def wordSize (w : Walker) : UInt64 :=
  match w.width with
  | .w32 => 4
  | .w64 => 8

def word? (w : Walker) (a : UInt64) : Option UInt64 :=
  w.stack.bind fun m => (m.read? .little w.width.bytes a).map UInt64.ofNat

def next? (w : Walker) (a : UInt64) : Option UInt64 := addExact? a w.wordSize

/-- The innermost frame of a thread, if it has an instruction and a stack pointer. -/
def contextFrame? (w : Walker) (context : RegisterFile) : Option WalkFrame := do
  let ip ← context.find? w.ipName
  let sp ← context.find? w.spName
  let instruction := Cpu.Instruction.callerAddress ⟨w.arch, ip, true, none, none⟩
  return ⟨context, ip, sp, instruction, .context⟩

def callerFrame (w : Walker) (c : Candidate) (trust : Trust) : WalkFrame where
  registers := (c.registers.insert w.ipName c.ip).insert w.spName c.sp
  ip := c.ip
  sp := c.sp
  instruction := Cpu.callSite w.arch c.ip
  trust

/-! ## Unwind information -/

/-- A runtime address in the address space of a cache for its module. -/
def cacheAddress? (m : Module) (c : CfiCache) (a : UInt64) : Option UInt64 :=
  (subExact? a m.base).bind (addExact? c.loadAddress)

def cache? (w : Walker) (m : Module) : Option CfiCache := m.id.bind w.frameInfos.find?

/-- Registers under all names that unwind rules have for them. -/
def ruleRegisters (family : Cpu.Family) (width : Postfix.Width) (registers : RegisterFile) :
    Postfix.Registers width :=
  .ofList <| registers.entries.flatMap fun (name, value) =>
    (family.ruleNames name).map fun spelling =>
      (.ofName spelling, BitVec.ofNat width.bits value.toNat)

/-- The registers of a callee that its caller finds unchanged. -/
def preserved (family : Cpu.Family) (registers : RegisterFile) : RegisterFile :=
  .ofList <| family.calleeSaved.filterMap fun name => (registers.find? name).map (name, ·)

def withRecovered {width : Postfix.Width} (family : Cpu.Family) (registers : RegisterFile)
    (recovered : List (Postfix.Register × Postfix.Word width)) : RegisterFile :=
  recovered.foldl (fun registers (r, value) =>
    if r.isPseudo then registers
    else registers.insert (family.contextName r.name) (UInt64.ofNat value.toNat)) registers

def applyRules? (w : Walker) (callee : WalkFrame) (rules : List (Postfix.Rule w.width)) :
    Option Candidate := do
  let family := w.arch.family
  let ev : Postfix.Evaluator w.width :=
    { memory := w.stack, registers := ruleRegisters family w.width callee.registers }
  let recovered ← (ev.evaluateRules rules).toOption
  let sp ← recovered.find? .cfa
  let ip ← recovered.find? .ra
  let registers := withRecovered family (preserved family callee.registers) recovered.entries
  return ⟨registers, UInt64.ofNat ip.toNat, UInt64.ofNat sp.toNat⟩

def byCfi? (w : Walker) (callee : WalkFrame) : Option Candidate := do
  let m ← w.modules.find? callee.instruction
  let c ← w.cache? m
  let a ← cacheAddress? m c callee.instruction
  let rules ← c.lookup? w.width a
  w.applyRules? callee rules

def hasCfi (w : Walker) (m : Module) (a : UInt64) : Bool :=
  match w.cache? m with
  | some c => ((cacheAddress? m c a).bind c.entry?).isSome
  | none => false

/-! ## Frame pointers -/

/-- The caller of a frame by the chain of frame pointers: the frame pointer leads to the saved frame
pointer of the caller, and the return address lies above that.  The chain must go on upwards on the
stack, unless this is its end. -/
def byFramePointer? (w : Walker) (callee : WalkFrame) : Option Candidate := do
  let name ← w.arch.family.framePointer?
  let fp ← callee.registers.find? name
  let callerFp ← w.word? fp
  let above ← w.next? fp
  let ip ← w.word? above
  let sp ← w.next? above
  if callerFp ≠ 0 ∧ (callerFp < sp ∨ (w.word? callerFp).isNone) then none
  else some ⟨SortedMap.empty.insert name callerFp, ip, sp⟩

/-! ## Scanning -/

def mayReturnTo (w : Walker) (needsCfi : Bool) (value : UInt64) : Bool :=
  let instruction := Cpu.callSite w.arch value
  match w.modules.find? instruction with
  | some m => !needsCfi || w.hasCfi m instruction
  | none => false

def keptFramePointer (w : Walker) (callee : WalkFrame) (sp : UInt64) : RegisterFile :=
  let kept := do
    let name ← w.arch.family.framePointer?
    let fp ← callee.registers.find? name
    if sp ≤ fp && (w.word? fp).isSome then some (name, fp) else none
  .ofList kept.toList

/-- The caller of a frame by the first of `n` words from an address on that may be a return
address. -/
def scanFrom? (w : Walker) (needsCfi : Bool) (callee : WalkFrame) :
    (n : Nat) → UInt64 → Option Candidate
  | 0, _ => none
  | n + 1, a => do
    let value ← w.word? a
    let above ← w.next? a
    if w.mayReturnTo needsCfi value then
      some ⟨w.keptFramePointer callee above, value, above⟩
    else scanFrom? w needsCfi callee n above

def scanLimit (w : Walker) (callee : WalkFrame) : Nat :=
  if callee.trust = .context then w.config.contextScanWords else w.config.scanWords

def byScan? (w : Walker) (needsCfi : Bool) (callee : WalkFrame) : Option Candidate :=
  w.scanFrom? needsCfi callee (w.scanLimit callee) callee.sp

/-! ## The walk -/

/-- What a strategy proposes after some frames in a row that were found by a plain scan. -/
def propose? (w : Walker) (callee : WalkFrame) (scans : Nat) : Strategy → Option Candidate
  | .cfi => w.byCfi? callee
  | .framePointer => w.byFramePointer? callee
  | .cfiScan => w.byScan? true callee
  | .scan => if w.config.maxConsecutiveScans ≤ scans then none else w.byScan? false callee

def isPlausible (w : Walker) (callee caller : WalkFrame) : Bool :=
  callee.sp < caller.sp && (w.modules.find? caller.instruction).isSome

/-- The first plausible caller by some strategies.  A return address of zero ends the stack. -/
def firstCaller? (w : Walker) (callee : WalkFrame) (scans : Nat) :
    List Strategy → Option WalkFrame
  | [] => none
  | s :: rest =>
    match w.propose? callee scans s with
    | none => firstCaller? w callee scans rest
    | some c =>
      if c.ip = 0 then none
      else
        let caller := w.callerFrame c s.trust
        if w.isPlausible callee caller then some caller else firstCaller? w callee scans rest

def callers (w : Walker) : (n : Nat) → (callee : WalkFrame) → (scans : Nat) → List WalkFrame
  | 0, _, _ => []
  | n + 1, callee, scans =>
    match w.firstCaller? callee scans Strategy.all with
    | none => []
    | some caller =>
      caller :: callers w n caller (if caller.trust = .scan then scans + 1 else 0)

def report (w : Walker) (registers : RegisterFile) : SortedMap String RegisterValue :=
  registers.mapValues (RegisterValue.ofWidth w.width.bytes)

def toFrame (w : Walker) (f : WalkFrame) : Frame :=
  ⟨f.instruction, f.ip, f.trust, w.modules.find? f.instruction, w.report f.registers⟩

def prewalkedFrame (w : Walker) (f : PrewalkedFrame) : Frame :=
  ⟨f.instruction, (f.registers.find? w.ipName).getD f.instruction, .prewalked,
    w.modules.find? f.instruction, w.report f.registers⟩

/-- The frames of a thread.  Callers that are known already are taken as they are. -/
def frames (w : Walker) (t : Thread) : List Frame :=
  match t.context.bind w.contextFrame? with
  | none => []
  | some first =>
    let callers := match t.prewalked with
      | some known => fun n => (known.take n).map w.prewalkedFrame
      | none => fun n => (w.callers n first 0).map w.toFrame
    match w.config.maxFrames with
    | 0 => []
    | n + 1 => w.toFrame first :: callers n

def walk (w : Walker) (t : Thread) : CallStack := ⟨t.id, w.frames t⟩

end Walker

end Postmortem.Crash
