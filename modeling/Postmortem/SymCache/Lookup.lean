import Postmortem.Address
import Postmortem.Bisect
import Postmortem.Language
import Postmortem.SymCache.LineTable
import Postmortem.SymCache.Reader

/-!
# Looking up addresses

The source locations of an address: that of the innermost call inlined there first, then those of
the calls around it, and last that of the function itself.  Also the lists of all functions and
files in a cache.
-/

set_option autoImplicit false

namespace Postmortem.SymCache

structure File where
  compDir : Option String
  directory : Option String
  name : String
  deriving DecidableEq, Repr, Inhabited

def File.fullPath (f : File) : String :=
  Path.join (Path.join (f.compDir.getD "") (f.directory.getD "")) f.name

structure Function where
  name : String := "?"
  /-- The first address, or `absent`. -/
  entry : UInt32 := absent
  language : Language := .unknown
  deriving DecidableEq, Repr, Inhabited

def Function.fullName (f : Function) : Name := ⟨f.name, f.language⟩

structure Location where
  function : Function
  file : Option File
  /-- The line, or zero. -/
  line : UInt32
  /-- How many calls around this one are inlined. -/
  depth : UInt32
  /-- Where the function starts. -/
  symbolAddress : Except Abort UInt64
  /-- Where the line starts. -/
  lineAddress : Except Abort UInt64
  deriving Repr, Inhabited

/-- The `n` items from the one at `first` on, or none at all if there are not as many. -/
def part {α : Type} (l : List α) (first n : Nat) : List α :=
  if first + n ≤ l.length then (l.drop first).take n else []

def file? (s : SymCache) (i : UInt32) : Option File :=
  s.files[i.toNat]?.map fun f =>
    ⟨s.string? f.compDir, s.string? f.directory, (s.string? f.name).getD ""⟩

def functionOf (s : SymCache) (f : FunctionRecord) : Function :=
  ⟨(s.string? f.name).getD "?", f.entry, .ofCode f.language⟩

def function? (s : SymCache) (i : UInt32) : Option Function :=
  s.functions[i.toNat]?.map s.functionOf

def absolute (s : SymCache) (a : UInt32) : Except Abort UInt64 :=
  addOrAbort s.loadAddress a.toUInt64

/-- The last line record in some blocks that does not start above an address. -/
def line? (s : SymCache) (blocks : List LineBlock) (a : UInt32) : Option LineTable.Record := do
  let i ← Bisect.floor? blocks.length fun i => compare ((blocks[i]?.map (·.address)).getD 0) a
  let b ← blocks[i]?
  return LineTable.Record.advance a (b.size.toNat - 1) ⟨b.address, b.line, b.file⟩
    (s.lineProgram.drop b.program.toNat)

def locate (s : SymCache) (a function depth start firstBlock blockCount : UInt32) : Location :=
  let r := s.line? (part s.lineBlocks firstBlock.toNat blockCount.toNat) a
  let f := (s.function? function).getD {}
  { function := f
    file := s.file? ((r.map (·.file)).getD absent)
    line := (r.map (·.line)).getD 0
    depth
    symbolAddress := s.absolute (if f.entry = absent then start else f.entry)
    lineAddress := s.absolute ((r.map (·.address)).getD start) }

/-- The locations of an address in the inlined call with a number and those around it.  A parent
stands before its children, so a reference further on leads nowhere. -/
def climb (s : SymCache) (a : UInt32) (i : Nat) (n : InlineeRecord) : List Location :=
  s.locate a n.function n.depth n.start n.firstBlock n.blockCount ::
    if _h : n.parent.toNat < i then
      match s.inlinees[n.parent.toNat]? with
      | some p => climb s a n.parent.toNat p
      | none => []
    else []
termination_by i

/-- The deepest of some inlined calls that cover an address, the first of them if there are several,
with its number counted from `i`. -/
def innermost (a : UInt32) (i : Nat) (best : Option (Nat × InlineeRecord)) :
    List InlineeRecord → Option (Nat × InlineeRecord)
  | [] => best
  | n :: rest =>
    let covers := n.start ≤ a && a < n.stop
    let deeper := match best with
      | some (_, b) => b.depth < n.depth
      | none => true
    innermost a (i + 1) (if covers && deeper then some (i, n) else best) rest

def range? (s : SymCache) (a : UInt32) : Option RangeRecord := do
  let i ← Bisect.floor? s.ranges.length fun i => compare ((s.ranges[i]?.map (·.start)).getD 0) a
  let r ← s.ranges[i]?
  if a < r.stop then some r else none

def relative? (s : SymCache) (a : UInt64) : Option UInt32 :=
  offset32? a s.loadAddress

def locationsIn (s : SymCache) (r : RangeRecord) (a : UInt32) : List Location :=
  let first := r.firstInlinee.toNat
  let inlined := match innermost a first none (part s.inlinees first r.inlineeCount.toNat) with
    | some (i, n) => s.climb a i n
    | none => []
  inlined ++ [s.locate a r.function 0 r.start r.firstBlock r.blockCount]

/-- The locations of an address, innermost first. -/
def lookup (s : SymCache) (a : UInt64) : List Location :=
  match s.relative? a with
  | some a =>
    match s.range? a with
    | some r => s.locationsIn r a
    | none => []
  | none => []

/-! ## Lists -/

def allFunctions (s : SymCache) : List Function :=
  (s.functions.map s.functionOf).filter (·.entry ≠ absent)

def allFiles (s : SymCache) : List File :=
  s.files.map fun f =>
    ⟨s.string? f.compDir, s.string? f.directory, (s.string? f.name).getD ""⟩

def padSpaces (width : Nat) (t : String) : String :=
  String.ofList (List.replicate (width - t.length) ' ') ++ t

def listFunctions (s : SymCache) : String :=
  let sorted := s.allFunctions.mergeSort fun f g =>
    ((compare f.entry g.entry).then (compare f.name g.name)).isLE
  String.join (sorted.map fun f => padSpaces 16 (Text.hex f.entry.toNat) ++ " " ++ f.name ++ "\n")

def listFiles (s : SymCache) : String :=
  let sorted := (s.allFiles.map File.fullPath).mergeSort fun p q => (compare p q).isLE
  String.join (sorted.map (· ++ "\n"))

end Postmortem.SymCache
