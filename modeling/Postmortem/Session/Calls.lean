import Postmortem.Cpu.CallSite
import Postmortem.Minidump.Reader
import Postmortem.Session.Failure
import Postmortem.SymCache.Lookup

/-!
# Calls from outside

What callers from outside the library may do.  They hold at most one symbol cache, one unwind cache
and one map of unwind caches at a time.  A call that fails returns nothing and leaves its failure
behind, where it stays until another call fails or it is cleared.
-/

set_option autoImplicit false

namespace Postmortem

structure Session where
  failure : Option Session.Failure := none
  /-- A symbol cache and the bytes that it was read from. -/
  symCache : Option (Bytes × SymCache) := none
  cfiCache : Option CfiCache := none
  frameInfos : Option Crash.FrameInfoMap := none

namespace Session

def attempt {α : Type} (s : Session) (result : Except Failure α) : Option α × Session :=
  match result with
  | .ok a => (some a, s)
  | .error f => (none, { s with failure := some f })

def clear (s : Session) : Session := { s with failure := none }

def lastCode (s : Session) : Nat := (s.failure.map Failure.code).getD 0

def lastMessage (s : Session) : String := (s.failure.map Failure.message).getD ""

def require {α : Type} (what : String) : Option α → Except Failure α :=
  orFault (.nullPointer what)

/-! ## Names -/

def isKnownArch (arch : Option String) : Except Failure Bool := do
  return (Arch.parse? (← require "arch" arch)).isSome

def parseArch (arch : Option String) : Except Failure Arch := do
  orFault .unknownArch (Arch.parse? (← require "arch" arch))

def normalizeArch (arch : Option String) : Except Failure String := Arch.name <$> parseArch arch

def instructionPointer (arch : Option String) : Except Failure String := do
  return (← parseArch arch).family.instructionPointer?.getD ""

def stackPointer (arch : Option String) : Except Failure String := do
  return (← parseArch arch).family.stackPointer?.getD ""

def pointerSize (arch : Option String) : Except Failure Nat := do
  return (← parseArch arch).family.pointerSize?.getD 0

def ofCompactId (id : Option String) : Except Failure String := do
  let id ← orFault .invalidDebugId (DebugId.parseCompact? (← require "breakpad_id" id))
  return id.toText

def normalizeCodeId (id : Option String) : Except Failure String := do
  return (CodeId.ofText (← require "code_id" id)).digits

def normalizeDebugId (id : Option String) : Except Failure String := do
  let id ← orFault .invalidDebugId (Crash.ModuleId.parse? (← require "debug_id" id))
  return id.id.toText

/-- What is known of an instruction.  Zero stands for no signal and no instruction pointer. -/
structure InstructionQuery where
  address : UInt64
  arch : Option String
  isInnermost : Bool
  signal : UInt32
  instructionPointer : UInt64
  deriving DecidableEq, Repr

def bestInstruction (q : Option InstructionQuery) : Except Failure UInt64 := do
  let q ← require "instruction info" q
  let arch ← parseArch q.arch
  let signal := if q.signal = 0 then none else some q.signal
  let ip := if q.instructionPointer = 0 then none else some q.instructionPointer
  return Cpu.Instruction.callerAddress ⟨arch, q.address, q.isInnermost, signal, ip⟩

/-- A text up to the first zero byte, in valid UTF-8. -/
def textOfBytes (b : Bytes) : String := Utf8.lossy (b.takeWhile (· ≠ 0))

/-! ## Symbol caches -/

def readSymCache (b : Option Bytes) : Except Failure (Bytes × SymCache) := do
  let b ← require "bytes" b
  match SymCache.parse b with
  | .ok c => return (b, c)
  | .error f => throw (.symCache f)

/-- Holds the symbol cache in some bytes, if there is one, in place of the one before.  Tells
whether there is one. -/
def openSymCache (s : Session) (b : Option Bytes) : Bool × Session :=
  let (cache, s) := s.attempt (readSymCache b)
  (cache.isSome, { s with symCache := cache })

def closeSymCache (s : Session) : Session := { s with symCache := none }

structure LineInfo where
  symbolAddress : UInt64
  lineAddress : UInt64
  instruction : UInt64
  line : UInt32
  depth : UInt32
  language : String
  symbol : String
  fileName : String
  directory : String
  compDir : String
  fullPath : String
  deriving DecidableEq, Repr

def LineInfo.ofLocation (a : UInt64) (l : SymCache.Location) : Except Abort LineInfo := do
  return {
    symbolAddress := ← l.symbolAddress
    lineAddress := ← l.lineAddress
    instruction := a
    line := l.line
    depth := l.depth
    language := l.function.language.name
    symbol := l.function.name
    fileName := (l.file.map (·.name)).getD ""
    directory := (l.file.bind (·.directory)).getD ""
    compDir := (l.file.bind (·.compDir)).getD ""
    fullPath := (l.file.map SymCache.File.fullPath).getD "" }

/-- The source locations of an address, innermost first.  A call that ends without an answer returns
none of them, and leaves no failure behind. -/
def lines (c : SymCache) (a : UInt64) : List LineInfo :=
  ((c.lookup a).mapM (LineInfo.ofLocation a)).toOption.getD []

/-! ## Unwind caches -/

def readCfiCache (b : Option Bytes) : Except Failure CfiCache := do
  match CfiCache.parse (← require "bytes" b) with
  | .ok c => return c
  | .error f => throw (.cfiCache f)

def openCfiCache (s : Session) (b : Option Bytes) : Bool × Session :=
  let (cache, s) := s.attempt (readCfiCache b)
  (cache.isSome, { s with cfiCache := cache })

def closeCfiCache (s : Session) : Session := { s with cfiCache := none }

def openNowhere (s : Session) : Bool × Session :=
  let (result, s) := s.attempt (require "path" (none : Option Unit))
  (result.isSome, s)

/-! ## Processes -/

def newFrameInfos (s : Session) : Session := { s with frameInfos := some .empty }

def closeFrameInfos (s : Session) : Session := { s with frameInfos := none }

def addedFrameInfo (cache : Option CfiCache) (map : Option Crash.FrameInfoMap)
    (id : Option String) : Except Failure Crash.FrameInfoMap := do
  let cache ← require "cfi cache" cache
  let map ← require "frame info map" map
  let id ← orFault .invalidDebugId (Crash.ModuleId.parse? (← require "debug id" id))
  return map.insert id cache

/-- Moves the unwind cache into the map, under the identifier of its module.  The cache is gone also
if that fails. -/
def addFrameInfo (s : Session) (id : Option String) : Session :=
  let (map, s) := s.attempt (addedFrameInfo s.cfiCache s.frameInfos id)
  { s with cfiCache := none, frameInfos := map.or s.frameInfos }

def processDump (s : Session) (b : Bytes) : Option Crash.State × Session :=
  let frameInfos := s.frameInfos.getD .empty
  s.attempt <|
    match Minidump.process b frameInfos {} with
    | .ok state => .ok state
    | .error o => .error (.process o)

end Session

end Postmortem
