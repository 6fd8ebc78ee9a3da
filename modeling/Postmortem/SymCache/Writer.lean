import Postmortem.RangeClaims
import Postmortem.SymCache.Builder

/-!
# Writing symbol caches

The code of all functions and symbols is divided into disjoint ranges, and the lines and inlined
calls of each range are laid out in tables.  Where functions overlap, one from debug information
wins against a symbol, then the smaller one, the one that starts first, the one whose name comes
first, and the one that was added first.
-/

set_option autoImplicit false

namespace Postmortem.SymCache

/-- The tables that depend on how code is divided. -/
structure Tables where
  ranges : List RangeRecord := []
  inlinees : List InlineeRecord := []
  lineBlocks : List LineBlock := []
  lineProgram : Bytes := []
  deriving DecidableEq, Repr, Inhabited

def relative (load address : UInt64) : Except Fault UInt32 :=
  orFault (.tooLarge .address) (offset32? address load)

namespace Tables

def pushBlocks (load : UInt64) (t : Tables) : List (List LineRow) → Except Fault Tables
  | [] => .ok t
  | [] :: groups => pushBlocks load t groups
  | (head :: rest) :: groups => do
    let program ← count t.lineProgram.length .line
    let address ← relative load head.address
    let block := ⟨address, head.line, head.file, program, UInt32.ofNat (rest.length + 1)⟩
    pushBlocks load
      { t with
        lineBlocks := t.lineBlocks ++ [block]
        lineProgram := t.lineProgram ++ LineTable.encodeFrom head rest }
      groups

/-- Adds the part of a line table from `start` up to `stop`.  Returns the number of its first block
and how many there are. -/
def pushLines (load start stop : UInt64) (rows : List LineRow) (t : Tables) :
    Except Fault ((UInt32 × UInt32) × Tables) := do
  let first ← count t.lineBlocks.length .line
  let t ← t.pushBlocks load (LineTable.groups (blockSize - 1) (LineTable.clip start stop rows))
  let after ← count t.lineBlocks.length .line
  return ((first, after - first), t)

mutual

/-- Adds the part of an inlined call from `start` up to `stop`, and then that of the calls in it. -/
def pushInlinee (load start stop : UInt64) (parent depth : UInt32) (t : Tables) :
    Scope → Except Fault Tables
  | ⟨scopeStart, scopeStop, function, lines, inlinees⟩ =>
    let start := max scopeStart start
    let stop := min scopeStop stop
    if start < stop then do
      let index ← count t.inlinees.length .inlinee
      let first ← relative load start
      let last ← relative load stop
      let ((firstBlock, blocks), t) ← t.pushLines load start stop lines
      let inlinee := ⟨first, last, function, parent, depth, firstBlock, blocks⟩
      pushInlinees load start stop index (depth + 1)
        { t with inlinees := t.inlinees ++ [inlinee] } inlinees
    else .ok t

def pushInlinees (load start stop : UInt64) (parent depth : UInt32) (t : Tables) :
    List Scope → Except Fault Tables
  | [] => .ok t
  | s :: rest => do
    let t ← pushInlinee load start stop parent depth t s
    pushInlinees load start stop parent depth t rest

end

def pushRange (load : UInt64) (t : Tables) (c : Claim OuterScope) : Except Fault Tables := do
  let start ← relative load c.start
  let stop ← relative load c.stop
  let ((firstBlock, blocks), t) ← t.pushLines load c.start c.stop c.value.scope.lines
  let firstInlinee ← count t.inlinees.length .inlinee
  let t ← t.pushInlinees load c.start c.stop absent 1 c.value.scope.inlinees
  let inlinees ← count t.inlinees.length .inlinee
  return { t with
    ranges := t.ranges ++
      [⟨start, stop, c.value.scope.function, if c.value.fromSymbol then 1 else 0, firstBlock,
        blocks, firstInlinee, inlinees - firstInlinee⟩] }

def ofRanges (load : UInt64) (ranges : List (Claim OuterScope)) : Except Fault Tables :=
  ranges.foldlM (pushRange load) {}

end Tables

def priority (a b : Claim OuterScope) : Ordering :=
  (compare a.value.fromSymbol b.value.fromSymbol).then <|
    (compare a.length b.length).then <|
      (compare a.start b.start).then (compare a.value.name b.value.name)

namespace Builder

def ranges (b : Builder) : List (Claim OuterScope) :=
  let claims := b.outer.foldl
    (fun (r : RangeClaims OuterScope) o =>
      if o.scope.start < b.loadAddress then r else r.push ⟨o.scope.start, o.scope.stop, o⟩)
    .empty
  claims.resolve priority

/-- The record of a function.  One whose address cannot be stored has none. -/
def functionRecord (b : Builder) (f : FunctionKey) : FunctionRecord :=
  ⟨f.name, f.compDir, (offset32? f.entry b.loadAddress).getD absent, f.language⟩

def toBytes (b : Builder) : Except Fault Bytes := do
  let t ← Tables.ofRanges b.loadAddress b.ranges
  let functions := b.pools.functions.map b.functionRecord
  let strings := b.pools.strings.toBytes
  let counts : Counts := {
    files := ← count b.pools.files.length .file
    functions := ← count functions.length .function
    ranges := ← count t.ranges.length .range
    inlinees := ← count t.inlinees.length .inlinee
    lineBlocks := ← count t.lineBlocks.length .line
    lineBytes := ← count t.lineProgram.length .line
    stringBytes := ← count strings.length .string }
  let header : Header :=
    { debugId := b.debugId, arch := b.arch.code, counts, loadAddress := b.loadAddress }
  return Bytes.joinSections
    [header.toBytes, WordRecord.encodeTable b.pools.files, WordRecord.encodeTable functions,
      WordRecord.encodeTable t.ranges, WordRecord.encodeTable t.inlinees,
      WordRecord.encodeTable t.lineBlocks, t.lineProgram, strings]

end Builder

end Postmortem.SymCache
