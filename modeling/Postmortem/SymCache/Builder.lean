import Postmortem.Debug.Object
import Postmortem.SymCache.Fault
import Postmortem.SymCache.LineTable

/-!
# Collecting symbol information

A `Builder` takes functions and symbols in any order, and keeps them with absolute addresses until
the cache is written.  Strings, files and functions are pooled: each is kept once.  A record that
is refused leaves its pooled parts behind, but nothing else.
-/

set_option autoImplicit false

namespace Postmortem.SymCache

open Postmortem.Debug (Function Symbol Object LineInfo)

/-- A function whose entry address is still absolute. -/
structure FunctionKey where
  name : UInt32
  compDir : UInt32
  entry : UInt64
  language : UInt32
  deriving DecidableEq, Repr, Inhabited

/-- What is kept once and referred to by number. -/
structure Pools where
  strings : StringTable := .empty
  files : List FileRecord := []
  functions : List FunctionKey := []
  deriving Inhabited

/-- A step that may pool values and may be refused.  What was pooled stays. -/
abbrev Collect := ExceptT Fault (StateM Pools)

/-- A function or inlined call with its lines and the calls inlined into it, by absolute
addresses. -/
structure Scope where
  start : UInt64
  stop : UInt64
  function : UInt32
  lines : List LineRow := []
  inlinees : List Scope := []
  deriving Repr, Inhabited

/-- A function that code belongs to, or a symbol that stands for one. -/
structure OuterScope where
  scope : Scope
  name : String
  fromSymbol : Bool
  deriving Repr, Inhabited

structure Builder where
  debugId : DebugId := .nil
  arch : Arch := .unknown
  /-- The address that all others are relative to.  What starts below it is left out. -/
  loadAddress : UInt64 := 0
  pools : Pools := {}
  /-- The functions and symbols in the order in which they were added. -/
  outer : List OuterScope := []
  deriving Inhabited

def pooled {α : Type} [BEq α] (a : α) (pool : List α) : Nat × List α :=
  match pool.idxOf? a with
  | some i => (i, pool)
  | none => (pool.length, pool ++ [a])

def count (n : Nat) (what : Quantity) : Except Fault UInt32 :=
  if n < UInt32.size then .ok (UInt32.ofNat n) else .error (.tooMany what)

namespace Collect

def string (s : String) : Collect UInt32 := do
  let pools ← get
  match pools.strings.insert? s with
  | some (offset, strings) =>
    set { pools with strings }
    return offset
  | none => throw (.tooLarge .string)

def file (name directory compDir : String) : Collect UInt32 := do
  let compDir ← string compDir
  let directory ← string directory
  let name ← string name
  let pools ← get
  let (i, files) := pooled ⟨compDir, directory, name⟩ pools.files
  set { pools with files }
  count i .file

def function (name compDir : String) (entry : UInt64) (language : Language) : Collect UInt32 := do
  let name ← string name
  let compDir ← string compDir
  let pools ← get
  let (i, functions) := pooled ⟨name, compDir, entry, language.code⟩ pools.functions
  set { pools with functions }
  count i .function

def line (compDir : String) (l : LineInfo) : Collect SizedRow := do
  let file ← file l.file.nameText l.file.dirText compDir
  if l.line.toNat < UInt32.size then
    return ⟨⟨l.address, l.line.toUInt32, file⟩, l.size.map (addSaturating l.address)⟩
  else throw (.tooLarge .line)

/-- Whether an inlined call lies inside its caller and has any code. -/
def belongs (start stop : UInt64) (inlinee : Function) : Bool :=
  inlinee.size ≠ 0 && start ≤ inlinee.address && inlinee.stop ≤ stop

mutual

/-- The scope of a function.  All paths in it are relative to one compilation directory. -/
def scope (compDir : String) : Function → Collect Scope
  | ⟨address, size, name, _, lines, inlinees, _⟩ => do
    let stop := addSaturating address size
    let function ← function name.text compDir address name.language
    let rows ← lines.mapM (line compDir)
    let children ← scopes compDir address stop inlinees
    return ⟨address, stop, function, LineTable.settle address stop rows,
      children.mergeSort fun a b => a.start ≤ b.start⟩

def scopes (compDir : String) (start stop : UInt64) : List Function → Collect (List Scope)
  | [] => return []
  | f :: rest =>
    if belongs start stop f then do
      let here ← scope compDir f
      let others ← scopes compDir start stop rest
      return here :: others
    else scopes compDir start stop rest

end

end Collect

namespace Builder

/-- The builder with what a step has pooled, and with its scope unless the step was refused. -/
def collect (b : Builder) (step : Collect OuterScope) : Except Fault Unit × Builder :=
  match step.run.run b.pools with
  | (.ok o, pools) => (.ok (), { b with pools, outer := b.outer ++ [o] })
  | (.error e, pools) => (.error e, { b with pools })

/-- Adds a function.  One without code is left out. -/
def addFunction (b : Builder) (f : Function) : Except Fault Unit × Builder :=
  if f.size = 0 then (.ok (), b)
  else b.collect do
    let scope ← Collect.scope (Utf8.lossy f.compDir) f
    return ⟨scope, f.name.text, false⟩

/-- Adds a symbol.  One without name or size is left out. -/
def addSymbol (b : Builder) (s : Symbol) : Except Fault Unit × Builder :=
  match s.name with
  | none => (.ok (), b)
  | some name =>
    if s.size = 0 then (.ok (), b)
    else b.collect do
      let function ← Collect.function name "" s.address .unknown
      return ⟨⟨s.address, addSaturating s.address s.size, function, [], []⟩, name, true⟩

def addAll {α : Type} (add : Builder → α → Except Fault Unit × Builder) (b : Builder) :
    List α → Except Fault Unit × Builder
  | [] => (.ok (), b)
  | a :: rest =>
    match add b a with
    | (.ok (), b) => addAll add b rest
    | (.error e, b) => (.error e, b)

def addObject (b : Builder) (o : Object) : Except Fault Unit × Builder :=
  let b := { b with arch := o.arch, debugId := o.debugId, loadAddress := o.loadAddress }
  match b.addAll addFunction o.functions with
  | (.ok (), b) => b.addAll addSymbol o.symbolMap.symbols
  | refused => refused

end Builder

end Postmortem.SymCache
