import Postmortem.CfiCache.Conversion
import Postmortem.CfiCache.Layout
import Postmortem.Debug.Object
import Postmortem.RangeClaims
import Postmortem.StringTable

/-!
# Writing unwind caches

The code of all unwind tables is divided into disjoint ranges.  Where tables overlap, the smaller
one wins, then the more precise kind, the one that starts first, and the one that comes first in the
object.
-/

set_option autoImplicit false

namespace Postmortem.CfiCache

open Postmortem.Debug (Object UnwindSource UnwindTable)

structure ConvertedTable where
  source : UnwindSource
  start : UInt64
  stop : UInt64
  program : Program
  deriving DecidableEq, Repr

/-- Whether the registers of an architecture have names in rules. -/
def isSupported (family : Cpu.Family) : Bool :=
  match family with
  | .intel32 | .amd64 | .arm32 | .arm64 | .arm64_32 | .mips32 | .mips64 => true
  | _ => false

/-- Whether a table covers code from the load address on. -/
def isLive (load : UInt64) (t : UnwindTable) : Bool := t.size ≠ 0 && load ≤ t.address

def convert (family : Cpu.Family) (load : UInt64) (t : UnwindTable) :
    Except Fault ConvertedTable := do
  if 0xffffffff < t.stop - load then throw (.tableOutOfRange t.address)
  let program ← programOf family t
  return ⟨t.source, t.address, t.stop, program⟩

def convertAll (o : Object) : Except Fault (List ConvertedTable) := do
  let family := o.arch.family
  if !isSupported family then throw .unsupportedArch
  if !o.features.unwindInfo then throw .missingUnwindInfo
  let tables ← (o.unwindTables.filter (isLive o.loadAddress)).mapM (convert family o.loadAddress)
  if tables.isEmpty then throw .missingUnwindInfo
  return tables

def priority (a b : Claim ConvertedTable) : Ordering :=
  (compare a.length b.length).then <|
    (compare a.value.source.rank b.value.source.rank).then (compare a.start b.start)

def ranges (tables : List ConvertedTable) : List (Claim ConvertedTable) :=
  let claims := tables.foldl
    (fun (r : RangeClaims ConvertedTable) t => r.push ⟨t.start, t.stop, t⟩) .empty
  claims.resolve priority

structure Sections where
  entries : List EntryRecord := []
  programs : Bytes := []
  strings : StringTable := .empty
  deriving Inhabited

def insertText (strings : StringTable) (text : String) : Except Fault (UInt32 × StringTable) :=
  orFault .tooManyStrings (strings.insert? text)

def encodeDeltas (previous : UInt64) (strings : StringTable) :
    List (UInt64 × String) → Except Fault (Bytes × StringTable)
  | [] => .ok ([], strings)
  | (a, text) :: rest => do
    let (offset, strings) ← insertText strings text
    let (others, strings) ← encodeDeltas a strings rest
    return (Leb128.encode (a - previous) ++ Leb128.ofNat offset.toNat ++ others, strings)

def encodeProgram (start : UInt64) (strings : StringTable) (p : Program) :
    Except Fault (Bytes × StringTable) := do
  let (offset, strings) ← insertText strings p.init
  let (deltas, strings) ← encodeDeltas start strings p.deltas
  return (Leb128.ofNat offset.toNat ++ Leb128.ofNat p.deltas.length ++ deltas, strings)

def relative (load address : UInt64) : Except Fault UInt32 :=
  orFault (.addressOutOfRange address) (offset32? address load)

def count (n : Nat) : Except Fault UInt32 :=
  if n < UInt32.size then .ok (UInt32.ofNat n) else .error .tooManyValues

def Sections.push (load : UInt64) (s : Sections) (c : Claim ConvertedTable) :
    Except Fault Sections := do
  if UInt32.size ≤ s.programs.length then throw .tooManyPrograms
  let (program, strings) ←
    encodeProgram c.start s.strings (c.value.program.clip c.start c.stop)
  let start ← relative load c.start
  let stop ← relative load c.stop
  return {
    entries := s.entries ++
      [⟨start, stop, UInt32.ofNat s.programs.length, c.value.source.rank⟩]
    programs := s.programs ++ program
    strings }

def ofObject (o : Object) : Except Fault Bytes := do
  let tables ← convertAll o
  let s ← (ranges tables).foldlM (Sections.push o.loadAddress) {}
  let strings := s.strings.toBytes
  let header : Header := {
    arch := o.arch.code
    entries := ← count s.entries.length
    programBytes := ← count s.programs.length
    stringBytes := ← count strings.length
    loadAddress := o.loadAddress }
  return Bytes.joinSections
    [header.toBytes, WordRecord.encodeTable s.entries, s.programs, strings]

end Postmortem.CfiCache
