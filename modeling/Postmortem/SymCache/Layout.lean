import Postmortem.DebugId
import Postmortem.StringTable

/-!
# The layout of symbol caches

A symbol cache is a header and seven sections behind it, each at a multiple of eight bytes: files,
functions, ranges, inlined calls, line blocks, the line program, and strings.  The first five are
tables of records of 32-bit words.  Addresses are relative to the load address in the header, and
`absent` stands for a reference that is not there.
-/

set_option autoImplicit false

namespace Postmortem.SymCache

/-- The word at the start of each cache: the letters `SYMC`. -/
def magic : UInt32 := 0x434d5953

def magicFlipped : UInt32 := 0x53594d43

def formatVersion : UInt32 := 1

def blockSize : Nat := 16

structure FileRecord where
  compDir : UInt32
  directory : UInt32
  name : UInt32
  deriving DecidableEq, Repr, Inhabited

/-- A function, whether it has code of its own or is only inlined. -/
structure FunctionRecord where
  name : UInt32
  compDir : UInt32
  /-- The first address. -/
  entry : UInt32
  language : UInt32
  deriving DecidableEq, Repr, Inhabited

structure RangeRecord where
  start : UInt32
  stop : UInt32
  function : UInt32
  /-- One if the function is known from the symbol table alone. -/
  flags : UInt32
  firstBlock : UInt32
  blockCount : UInt32
  firstInlinee : UInt32
  inlineeCount : UInt32
  deriving DecidableEq, Repr, Inhabited

/-- A call that was inlined into a range.  Those of a range stand together, each behind its parent
and siblings in the order of their addresses. -/
structure InlineeRecord where
  start : UInt32
  stop : UInt32
  function : UInt32
  /-- The inlined call around this one. -/
  parent : UInt32
  /-- One for a call by the outer function. -/
  depth : UInt32
  firstBlock : UInt32
  blockCount : UInt32
  deriving DecidableEq, Repr, Inhabited

/-- A run of line records.  The first is part of the block, and the others are stored as differences
in the line program. -/
structure LineBlock where
  address : UInt32
  line : UInt32
  file : UInt32
  /-- Where the other records start in the line program. -/
  program : UInt32
  /-- The number of records. -/
  size : UInt32
  deriving DecidableEq, Repr, Inhabited

instance : WordRecord FileRecord where
  arity := 3
  toWords f := [f.compDir, f.directory, f.name]
  ofWords?
    | [compDir, directory, name] => some ⟨compDir, directory, name⟩
    | _ => none

instance : WordRecord FunctionRecord where
  arity := 4
  toWords f := [f.name, f.compDir, f.entry, f.language]
  ofWords?
    | [name, compDir, entry, language] => some ⟨name, compDir, entry, language⟩
    | _ => none

instance : WordRecord RangeRecord where
  arity := 8
  toWords r :=
    [r.start, r.stop, r.function, r.flags, r.firstBlock, r.blockCount, r.firstInlinee,
      r.inlineeCount]
  ofWords?
    | [start, stop, function, flags, firstBlock, blockCount, firstInlinee, inlineeCount] =>
      some ⟨start, stop, function, flags, firstBlock, blockCount, firstInlinee, inlineeCount⟩
    | _ => none

/-- The last word of an inlined call is not used. -/
instance : WordRecord InlineeRecord where
  arity := 8
  toWords i := [i.start, i.stop, i.function, i.parent, i.depth, i.firstBlock, i.blockCount, 0]
  ofWords?
    | [start, stop, function, parent, depth, firstBlock, blockCount, _] =>
      some ⟨start, stop, function, parent, depth, firstBlock, blockCount⟩
    | _ => none

instance : WordRecord LineBlock where
  arity := 5
  toWords b := [b.address, b.line, b.file, b.program, b.size]
  ofWords?
    | [address, line, file, program, size] => some ⟨address, line, file, program, size⟩
    | _ => none

structure Counts where
  files : UInt32
  functions : UInt32
  ranges : UInt32
  inlinees : UInt32
  lineBlocks : UInt32
  lineBytes : UInt32
  stringBytes : UInt32
  deriving DecidableEq, Repr, Inhabited

structure Header where
  magic : UInt32 := SymCache.magic
  version : UInt32 := formatVersion
  debugId : DebugId
  /-- The number that stands for the architecture. -/
  arch : UInt32
  counts : Counts
  /-- The address that all others are relative to. -/
  loadAddress : UInt64
  deriving DecidableEq, Repr, Inhabited

namespace Header

/-- The 96 bytes of a header, the last 16 of which are not used. -/
def toBytes (h : Header) : Bytes :=
  Bytes.ofWord32 h.magic ++ Bytes.ofWord32 h.version ++ h.debugId.toBytes ++
    [h.arch, h.counts.files, h.counts.functions, h.counts.ranges, h.counts.inlinees,
      h.counts.lineBlocks, h.counts.lineBytes, h.counts.stringBytes].flatMap Bytes.ofWord32 ++
    Bytes.ofWord64 h.loadAddress ++ List.replicate 16 0

def read? (c : Cursor) : Option (Header × Cursor) := do
  let (magic, c) ← c.word32?
  let (version, c) ← c.word32?
  let (id, c) ← c.take? 32
  let (arch, c) ← c.word32?
  let (files, c) ← c.word32?
  let (functions, c) ← c.word32?
  let (ranges, c) ← c.word32?
  let (inlinees, c) ← c.word32?
  let (lineBlocks, c) ← c.word32?
  let (lineBytes, c) ← c.word32?
  let (stringBytes, c) ← c.word32?
  let (loadAddress, c) ← c.word64?
  let (_, c) ← c.take? 16
  return (⟨magic, version, .ofBytes id, arch,
    ⟨files, functions, ranges, inlinees, lineBlocks, lineBytes, stringBytes⟩, loadAddress⟩, c)

end Header

end Postmortem.SymCache
