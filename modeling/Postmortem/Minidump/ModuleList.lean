import Postmortem.Crash.Module
import Postmortem.Minidump.System
import Postmortem.Text.Utf8

/-!
# The modules of a minidump

Each module comes with a record that ties it to its debug information: the age and the UUID or
timestamp of a PDB file, or the build identifier of an ELF file.
-/

set_option autoImplicit false

namespace Postmortem.Minidump

inductive DebugRecord where
  /-- A PDB 7.0 file: its UUID, age and name. -/
  | pdb70 (uuid : BitVec 128) (age : UInt32) (name : String)
  /-- A PDB 2.0 file: its timestamp, age and name. -/
  | pdb20 (timestamp age : UInt32) (name : String)
  /-- The build identifier of an ELF file. -/
  | elf (buildId : Bytes)
  /-- A record of an unknown kind. -/
  | unknown
  deriving DecidableEq, Repr

namespace DebugRecord

def uuid? (v : View) (offset : Nat) : Option (BitVec 128) := do
  let first ← v.number? 4 offset
  let second ← v.number? 2 (offset + 4)
  let third ← v.number? 2 (offset + 6)
  let rest ← v.bytes.slice? (offset + 8) 8
  return BitVec.ofNat 128
    (((first * UInt16.size + second) * UInt16.size + third) * UInt64.size + Endian.big.decode rest)

def name (v : View) (offset : Nat) : String :=
  Utf8.lossy ((v.bytes.drop offset).takeWhile (· ≠ 0))

def read? (v : View) : Option DebugRecord := do
  match ← v.number? 4 0 with
  | 0x53445352 => return .pdb70 (← uuid? v 4) (← v.word32? 20) (name v 24)
  | 0x3031424e =>
    let _ ← v.word32? 4
    return .pdb20 (← v.word32? 8) (← v.word32? 12) (name v 16)
  | 0x4270454c => return .elf (v.bytes.drop 4)
  | _ => return .unknown

/-- The first sixteen bytes of a build identifier as a UUID; missing ones are zero. -/
def buildUuid (e : Endian) (buildId : Bytes) : BitVec 128 :=
  (uuid? ⟨e, (buildId ++ List.replicate 16 0).take 16⟩ 0).getD 0

end DebugRecord

structure ModuleEntry where
  base : UInt64
  size : UInt32
  timestamp : UInt32
  name : String
  debug : Option DebugRecord
  deriving DecidableEq, Repr

namespace ModuleEntry

def isSound (base : UInt64) (size : UInt32) : Bool :=
  size ≠ 0 && base.toNat + size.toNat < UInt64.size

/-- Reads a module.  The inner none stands for one that is left out. -/
def read? (file v : View) : Option (Option ModuleEntry) := do
  let base ← v.word64? 0
  let size ← v.word32? 8
  if isSound base size then
    let name ← file.text? (← v.number? 4 20)
    let location ← v.location? 76
    let debug ←
      if location.size = 0 then some none
      else ((file.part? location).bind DebugRecord.read?).map some
    return some ⟨base, size, ← v.word32? 16, name, debug⟩
  else return none

def readAll? (file stream : View) : Option (List ModuleEntry) := do
  let records ← stream.records? 108
  let modules ← records.mapM (read? file)
  return modules.filterMap id

def debugId? (e : Endian) (m : ModuleEntry) : Option DebugId :=
  match m.debug with
  | some (.pdb70 uuid age _) => if uuid = 0 then none else some ⟨uuid, age, .uuid⟩
  | some (.pdb20 timestamp age _) => some (.ofTimestamp timestamp age)
  | some (.elf buildId) =>
    if buildId.all (· = 0) then none else some ⟨DebugRecord.buildUuid e buildId, 0, .uuid⟩
  | some .unknown | none => none

def debugFile (m : ModuleEntry) : String :=
  match m.debug with
  | some (.pdb70 _ _ name) | some (.pdb20 _ _ name) => name
  | some (.elf _) => m.name
  | some .unknown | none => ""

/-- The timestamp and the size of the module, by which Windows tells its versions apart. -/
def stampText (m : ModuleEntry) : String :=
  Text.hexPadded 8 m.timestamp.toNat ++ Text.hex m.size.toNat

def codeIdentifier (platform : Platform) (m : ModuleEntry) : String :=
  match m.debug with
  | some (.pdb70 uuid _ _) =>
    match platform with
    | .macOs | .ios => Text.hexPadded 32 uuid.toNat
    | _ => m.stampText
  | some (.pdb20 ..) => m.stampText
  | some (.elf buildId) => if buildId.all (· = 0) then "" else Text.hexBytes buildId
  | some .unknown => ""
  | none => if platform = .windows then m.stampText else ""

def toModule (e : Endian) (platform : Platform) (m : ModuleEntry) : Crash.Module :=
  let plain : Crash.Module :=
    { base := m.base, size := m.size.toUInt64, codeFile := m.name, debugFile := m.debugFile }
  let coded := plain.withCodeIdentifier (m.codeIdentifier platform)
  match m.debugId? e with
  | some id => coded.withId ⟨id⟩
  | none => coded

end ModuleEntry

end Postmortem.Minidump
