import Postmortem.Bytes

/-!
# The layout of unwind caches

An unwind cache is a header and three sections behind it, each at a multiple of eight bytes: a table
of entries, the programs of the entries, and strings.  A program is a run of variable-length
integers: the offset of the initial rules, the number of changes, and for each change the distance
of its address from the one before and the offset of its rules.
-/

set_option autoImplicit false

namespace Postmortem.CfiCache

/-- The word at the start of each cache: the letters `CFIC`. -/
def magic : UInt32 := 0x43494643

def magicFlipped : UInt32 := 0x43464943

def formatVersion : UInt32 := 3

/-- A range of code and where its program starts.  Addresses are relative to the load address. -/
structure EntryRecord where
  start : UInt32
  stop : UInt32
  program : UInt32
  /-- The rank of the kind of table that the rules are from. -/
  source : UInt32
  deriving DecidableEq, Repr, Inhabited

instance : WordRecord EntryRecord where
  arity := 4
  toWords e := [e.start, e.stop, e.program, e.source]
  ofWords?
    | [start, stop, program, source] => some ⟨start, stop, program, source⟩
    | _ => none

structure Header where
  magic : UInt32 := CfiCache.magic
  version : UInt32 := formatVersion
  /-- The number that stands for the architecture. -/
  arch : UInt32
  entries : UInt32
  programBytes : UInt32
  stringBytes : UInt32
  /-- The address that all others are relative to. -/
  loadAddress : UInt64
  deriving DecidableEq, Repr, Inhabited

namespace Header

/-- The 40 bytes of a header, the last eight of which are not used. -/
def toBytes (h : Header) : Bytes :=
  [h.magic, h.version, h.arch, h.entries, h.programBytes, h.stringBytes].flatMap Bytes.ofWord32 ++
    Bytes.ofWord64 h.loadAddress ++ List.replicate 8 0

def read? (c : Cursor) : Option (Header × Cursor) := do
  let (magic, c) ← c.word32?
  let (version, c) ← c.word32?
  let (arch, c) ← c.word32?
  let (entries, c) ← c.word32?
  let (programBytes, c) ← c.word32?
  let (stringBytes, c) ← c.word32?
  let (loadAddress, c) ← c.word64?
  let (_, c) ← c.take? 8
  return (⟨magic, version, arch, entries, programBytes, stringBytes, loadAddress⟩, c)

end Header

end Postmortem.CfiCache
