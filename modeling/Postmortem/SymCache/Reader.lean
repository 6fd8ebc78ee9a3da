import Postmortem.Cpu.Arch
import Postmortem.Path
import Postmortem.SymCache.Fault
import Postmortem.SymCache.Layout
import Postmortem.Text.Inspect

/-!
# Reading symbol caches

A `SymCache` is the content of a cache as it was read.  Only the sizes of the sections are checked:
a reference that leads nowhere reads as absent when it is followed.
-/

set_option autoImplicit false

namespace Postmortem

structure SymCache where
  header : SymCache.Header
  files : List SymCache.FileRecord
  functions : List SymCache.FunctionRecord
  ranges : List SymCache.RangeRecord
  inlinees : List SymCache.InlineeRecord
  lineBlocks : List SymCache.LineBlock
  lineProgram : Bytes
  /-- All bytes behind the line program. -/
  strings : Bytes
  deriving DecidableEq, Repr

namespace SymCache

def section? (α : Type) [WordRecord α] (fault : Fault) (n : UInt32) (c : Cursor) :
    Except Fault (List α × Cursor) := do
  let c ← orFault fault c.align?
  orFault fault (WordRecord.table? α n.toNat c)

def checkHeader (h : Header) : Except Fault Unit :=
  if h.magic = magicFlipped then .error .wrongEndianness
  else if h.magic ≠ magic then .error .wrongFormat
  else if h.version ≠ formatVersion then .error .wrongVersion
  else .ok ()

def parse (b : Bytes) : Except Fault SymCache := do
  let (header, c) ← orFault .invalidHeader (Header.read? ⟨0, b⟩)
  checkHeader header
  let counts := header.counts
  let (files, c) ← section? FileRecord .invalidFiles counts.files c
  let (functions, c) ← section? FunctionRecord .invalidFunctions counts.functions c
  let (ranges, c) ← section? RangeRecord .invalidRanges counts.ranges c
  let (inlinees, c) ← section? InlineeRecord .invalidInlinees counts.inlinees c
  let (lineBlocks, c) ← section? LineBlock .invalidLines counts.lineBlocks c
  let c ← orFault .invalidLines c.align?
  let (lineProgram, c) ← orFault .invalidLines (c.take? counts.lineBytes.toNat)
  let expected := counts.stringBytes.toNat
  let c ← orFault (.missingStrings expected 0) c.align?
  if c.rest.length < expected then throw (.missingStrings expected c.rest.length)
  return ⟨header, files, functions, ranges, inlinees, lineBlocks, lineProgram, c.rest⟩

def version (s : SymCache) : UInt32 := s.header.version

def isLatest (s : SymCache) : Bool := s.version == formatVersion

def arch (s : SymCache) : Arch := .ofCode s.header.arch

def debugId (s : SymCache) : DebugId := s.header.debugId

def loadAddress (s : SymCache) : UInt64 := s.header.loadAddress

def hasLines (s : SymCache) : Bool := !s.lineBlocks.isEmpty

def hasFiles (s : SymCache) : Bool := !s.files.isEmpty

def string? (s : SymCache) (offset : UInt32) : Option String := StringTable.read? s.strings offset

def inspect (s : SymCache) : Text.Inspect :=
  .record "SymCache"
    [("version", .nat s.version.toNat), ("debug_id", s.debugId.inspect),
      ("arch", .plain s.arch.label), ("files", .nat s.header.counts.files.toNat),
      ("functions", .nat s.header.counts.functions.toNat),
      ("ranges", .nat s.header.counts.ranges.toNat),
      ("inlinees", .nat s.header.counts.inlinees.toNat),
      ("line_blocks", .nat s.header.counts.lineBlocks.toNat),
      ("string_bytes", .nat s.header.counts.stringBytes.toNat)]

end SymCache

end Postmortem
