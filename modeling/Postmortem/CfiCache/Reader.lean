import Postmortem.Address
import Postmortem.Bisect
import Postmortem.CfiCache.Fault
import Postmortem.CfiCache.Layout
import Postmortem.CfiCache.RuleSet
import Postmortem.Cpu.Arch
import Postmortem.Debug.Unwind
import Postmortem.Postfix.Parser
import Postmortem.StringTable
import Postmortem.Text.Inspect

/-!
# Reading unwind caches

A `CfiCache` is the content of a cache as it was read.  Only the sizes of the sections are checked:
an entry that cannot be decoded counts as missing.
-/

set_option autoImplicit false

namespace Postmortem

structure CfiCache where
  /-- The bytes that were read. -/
  bytes : Bytes
  header : CfiCache.Header
  entries : List CfiCache.EntryRecord
  programs : Bytes
  /-- All bytes behind the programs. -/
  strings : Bytes
  deriving DecidableEq, Repr

namespace CfiCache

structure Entry where
  start : UInt64
  stop : UInt64
  source : Debug.UnwindSource
  program : Program
  deriving DecidableEq, Repr

def checkHeader (h : Header) : Except Fault Unit :=
  if h.magic = magicFlipped then .error .wrongEndianness
  else if h.magic ≠ magic then .error .badMagic
  else if h.version ≠ formatVersion then .error (.unsupportedVersion h.version)
  else .ok ()

def parse (b : Bytes) : Except Fault CfiCache := do
  let (header, c) ← orFault .headerTruncated (Header.read? ⟨0, b⟩)
  checkHeader header
  let c ← orFault .misaligned c.align?
  let (entries, c) ← orFault .entriesTruncated <|
    WordRecord.table? EntryRecord header.entries.toNat c
  let c ← orFault .misaligned c.align?
  let (programs, c) ← orFault .programsTruncated (c.take? header.programBytes.toNat)
  let c ← orFault .misaligned c.align?
  if c.rest.length < header.stringBytes.toNat then throw .stringsTruncated
  return ⟨b, header, entries, programs, c.rest⟩

def version (s : CfiCache) : UInt32 := s.header.version

def isLatest (s : CfiCache) : Bool := s.version == formatVersion

def arch (s : CfiCache) : Arch := .ofCode s.header.arch

def loadAddress (s : CfiCache) : UInt64 := s.header.loadAddress

def readText? (strings : Bytes) (b : Bytes) : Option (String × Bytes) := do
  let (offset, b) := Leb128.read32 b
  let text ← StringTable.read? strings (← offset)
  return (text, b)

def readDeltas? (strings : Bytes) : (n : Nat) → UInt64 → Bytes → Option (List (UInt64 × String))
  | 0, _, _ => some []
  | n + 1, previous, b => do
    let (step, b) := Leb128.read b
    let step ← step
    let a ← addExact? previous step
    let (text, b) ← readText? strings b
    let rest ← readDeltas? strings n a b
    return (a, text) :: rest

/-- The program that starts at an offset, of a range that starts at `start`. -/
def readProgram? (s : CfiCache) (start : UInt64) (offset : UInt32) : Option Program := do
  if s.programs.length < offset.toNat then none
  let (init, b) ← readText? s.strings (s.programs.drop offset.toNat)
  let (n, b) := Leb128.read b
  let deltas ← readDeltas? s.strings (← n).toNat start b
  return ⟨init, deltas⟩

def decode? (s : CfiCache) (e : EntryRecord) : Option Entry := do
  let start := addSaturating s.loadAddress e.start.toUInt64
  let program ← s.readProgram? start e.program
  let source ← Debug.UnwindSource.ofRank? e.source
  return ⟨start, addSaturating s.loadAddress e.stop.toUInt64, source, program⟩

def allEntries (s : CfiCache) : List Entry := s.entries.filterMap s.decode?

def entry? (s : CfiCache) (a : UInt64) : Option Entry :=
  match offset32? a s.loadAddress with
  | none => none
  | some a =>
    let n := Bisect.partitionPoint s.entries.length fun i =>
      (s.entries[i]?.map (·.start)).getD 0 ≤ a
    match n with
    | 0 => none
    | i + 1 => (s.entries[i]?.filter fun e => a < e.stop).bind s.decode?

def programAt? (s : CfiCache) (a : UInt64) : Option String :=
  (s.entry? a).map fun e => (e.program.rulesAt a).toText

/-- The rules in effect at an address, if all of them can be read. -/
def lookup? (w : Postfix.Width) (s : CfiCache) (a : UInt64) : Option (List (Postfix.Rule w)) :=
  (s.programAt? a).bind fun text => (Postfix.parseRules w text).toOption

/-- The records of an entry as text.  None if it ends before it starts. -/
def Entry.toText? (e : Entry) : Option String :=
  if e.start ≤ e.stop then
    some ("STACK CFI INIT " ++ Text.hex e.start.toNat ++ " " ++
      Text.hex (e.stop - e.start).toNat ++ " " ++ e.program.init ++
      String.join (e.program.deltas.map fun d =>
        "\nSTACK CFI " ++ Text.hex d.1.toNat ++ " " ++ d.2))
  else none

def inspect (s : CfiCache) : Text.Inspect :=
  .record "CfiCache"
    [("version", .nat s.version.toNat), ("arch", .plain s.arch.label),
      ("load_address", .address s.loadAddress), ("size", .nat s.bytes.length)]

end CfiCache

end Postmortem
