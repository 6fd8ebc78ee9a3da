import Postmortem.Cpu.Arch
import Postmortem.Debug.Function
import Postmortem.Debug.Symbol
import Postmortem.Debug.Unwind
import Postmortem.DebugId

/-!
# Object files

The debug information of one object file, whatever the container it was read from.
-/

set_option autoImplicit false

namespace Postmortem.Debug

inductive ObjectKind where
  | none
  | relocatable
  | executable
  | library
  | dump
  | debug
  | sources
  | other
  deriving DecidableEq, Repr, Inhabited

namespace ObjectKind

def all : List ObjectKind :=
  [none, relocatable, executable, library, dump, debug, sources, other]

def name : ObjectKind → String
  | none => "none"
  | relocatable => "rel"
  | executable => "exe"
  | library => "lib"
  | dump => "dump"
  | debug => "dbg"
  | sources => "src"
  | other => "other"

def title : ObjectKind → String
  | none | other => "file"
  | relocatable => "object"
  | executable => "executable"
  | library => "library"
  | dump => "memory dump"
  | debug => "debug companion"
  | sources => "sources"

def rank (k : ObjectKind) : Nat := all.idxOf k

def parse? (s : String) : Option ObjectKind := all.find? (·.name == s)

def unknownMessage : String := "unknown object class"

end ObjectKind

inductive FileFormat where
  | unknown
  | breakpad
  | elf
  | machO
  | pdb
  | pe
  | wasm
  deriving DecidableEq, Repr, Inhabited

namespace FileFormat

def all : List FileFormat := [unknown, breakpad, elf, machO, pdb, pe, wasm]

def name : FileFormat → String
  | unknown => "unknown"
  | breakpad => "breakpad"
  | elf => "elf"
  | machO => "macho"
  | pdb => "pdb"
  | pe => "pe"
  | wasm => "wasm"

def rank (f : FileFormat) : Nat := all.idxOf f

def parse? (s : String) : Option FileFormat := all.find? (·.name == s)

def unknownMessage : String := "unknown file format"

end FileFormat

structure Object where
  arch : Arch := .unknown
  debugId : DebugId := .nil
  codeId : Option CodeId := none
  kind : ObjectKind := .debug
  fileFormat : FileFormat := .unknown
  /-- The address at which the image prefers to lie; all addresses in the object are absolute. -/
  loadAddress : UInt64 := 0
  /-- Whether only part of the file could be read. -/
  isMalformed : Bool := false
  functions : List Function := []
  files : List FileEntry := []
  symbols : List Symbol := []
  unwindTables : List UnwindTable := []
  deriving Inhabited

structure Features where
  symbols : Bool
  debugInfo : Bool
  unwindInfo : Bool
  sources : Bool
  deriving DecidableEq, Repr

namespace Object

/-- What the object has; it never holds sources. -/
def features (o : Object) : Features :=
  ⟨!o.symbols.isEmpty, !o.functions.isEmpty, !o.unwindTables.isEmpty, false⟩

def symbolMap (o : Object) : SymbolMap := .ofList o.symbols

end Object

end Postmortem.Debug
