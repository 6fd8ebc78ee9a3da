import Postmortem.Minidump.View

/-!
# Minidump files

A minidump is a header and a directory of streams of known types.  Of several streams of a type the
last counts, and one that does not fit the file counts as missing.
-/

set_option autoImplicit false

namespace Postmortem.Minidump

/-- The word at the start of each dump: the letters `MDMP`. -/
def signature : Nat := 0x504d444d

def formatVersion : Nat := 0xa793

structure StreamEntry where
  kind : Nat
  location : Location
  deriving DecidableEq, Repr

structure Dump where
  file : View
  timestamp : UInt32
  directory : List StreamEntry

namespace Dump

def endian? (b : Bytes) : Option Endian :=
  [Endian.little, Endian.big].find? fun e => View.number? ⟨e, b⟩ 4 0 == some signature

def entries? (file : View) : (n offset : Nat) → Option (List StreamEntry)
  | 0, _ => some []
  | n + 1, offset => do
    let kind ← file.number? 4 offset
    let location ← file.location? (offset + 4)
    let rest ← entries? file n (offset + 12)
    return ⟨kind, location⟩ :: rest

def parse? (b : Bytes) : Option Dump := do
  let file : View := ⟨← endian? b, b⟩
  let header ← file.part? ⟨32, 0⟩
  let version ← header.number? 4 4
  if version % UInt16.size ≠ formatVersion then none
  let count ← header.number? 4 8
  let offset ← header.number? 4 12
  let timestamp ← header.word32? 20
  let directory ← entries? file count offset
  return ⟨file, timestamp, directory⟩

def stream? (d : Dump) (kind : Nat) : Option View :=
  ((d.directory.filter (·.kind == kind)).getLast?).bind fun e => d.file.part? e.location

end Dump

end Postmortem.Minidump
