import Postmortem.Debug.Function

/-!
# Building function trees

Debug formats list inlined calls flatly, each with a nesting depth, and lines only for the innermost
function at an address.  `FunctionBuilder.finish` makes a tree of them: a call becomes a child of
the closest enclosing call of lower depth, and each line is given to every function around it, to
the outer ones with the place of the call inside them.
-/

set_option autoImplicit false

namespace Postmortem.Debug

/-- A call inlined into a function at some depth, 0 for the function itself. -/
structure InlineCall where
  depth : UInt32
  name : Name
  address : UInt64
  size : UInt64
  callFile : FileInfo := {}
  callLine : UInt64 := 0
  deriving DecidableEq, Repr, Inhabited

structure FunctionBuilder where
  name : Name
  compDir : Bytes := []
  address : UInt64
  size : UInt64
  calls : List InlineCall := []
  lines : List LineInfo := []
  deriving Repr, Inhabited

/-- A call whose code has not ended yet, with the part of its tree that is built. -/
structure OpenCall where
  call : InlineCall
  function : Function
  deriving Repr, Inhabited

structure InlineStack where
  outer : Function
  /-- The calls inlined here, innermost first. -/
  calls : List OpenCall := []
  deriving Repr, Inhabited

namespace Function

def addInlinee (f child : Function) : Function := { f with inlinees := f.inlinees ++ [child] }

def addLine (f : Function) (l : LineInfo) : Function := { f with lines := f.lines ++ [l] }

end Function

namespace InlineStack

def attach (child : Function) (outer : Function) : List OpenCall → InlineStack
  | [] => ⟨outer.addInlinee child, []⟩
  | parent :: rest => ⟨outer, { parent with function := parent.function.addInlinee child } :: rest⟩

/-- Closes calls, innermost first, for as long as `closes` holds of the number of open calls and the
innermost one. -/
def closeWhile (closes : Nat → OpenCall → Bool) (s : InlineStack) : InlineStack :=
  match _h : s.calls with
  | [] => s
  | c :: rest =>
    if closes s.calls.length c then closeWhile closes (attach c.function s.outer rest) else s
termination_by s.calls.length
decreasing_by
  cases rest <;> simp [attach, _h]

/-- Closes the innermost calls that end at or before an address. -/
def closeEnded (address : UInt64) (s : InlineStack) : InlineStack :=
  s.closeWhile fun _ c => addSaturating c.call.address c.call.size ≤ address

def closeDeeper (depth : UInt32) (s : InlineStack) : InlineStack :=
  s.closeWhile fun n _ => depth.toNat < n

def openCall (compDir : Bytes) (call : InlineCall) (s : InlineStack) : InlineStack :=
  { s with calls :=
      { call, function := ⟨call.address, call.size, call.name, compDir, [], [], true⟩ } :: s.calls }

/-- Gives a line to the calls, innermost first, each with the place inside it; returns the line for
the outer function too. -/
def addLineToCalls (l : LineInfo) : List OpenCall → List OpenCall × LineInfo
  | [] => ([], l)
  | c :: rest =>
    let here := { l with file := c.call.callFile, line := c.call.callLine }
    let (rest, l') := addLineToCalls here rest
    ({ c with function := c.function.addLine l } :: rest, l')

def addLine (l : LineInfo) (s : InlineStack) : InlineStack :=
  let (calls, l) := addLineToCalls l s.calls
  ⟨s.outer.addLine l, calls⟩

def finish (s : InlineStack) : Function := (s.closeWhile fun _ _ => true).outer

end InlineStack

namespace FunctionBuilder

def addCall (b : FunctionBuilder) (c : InlineCall) : FunctionBuilder :=
  { b with calls := b.calls ++ [c] }

def addLine (b : FunctionBuilder) (l : LineInfo) : FunctionBuilder :=
  { b with lines := b.lines ++ [l] }

/-- Calls are opened by address, and by depth at one address. -/
def callOrder (a b : InlineCall) : Bool :=
  a.address < b.address || (a.address == b.address && a.depth ≤ b.depth)

/-- Processes sorted calls and lines in the order of their addresses.  A call is opened before the
lines at its address, which lie inside it. -/
def run (compDir : Bytes) (calls : List InlineCall) (lines : List LineInfo) (s : InlineStack) :
    InlineStack :=
  match calls, lines with
  | [], [] => s
  | c :: calls, [] =>
    run compDir calls [] (((s.closeEnded c.address).closeDeeper c.depth).openCall compDir c)
  | [], l :: lines => run compDir [] lines ((s.closeEnded l.address).addLine l)
  | c :: calls, l :: lines =>
    if c.address ≤ l.address then
      run compDir calls (l :: lines)
        (((s.closeEnded c.address).closeDeeper c.depth).openCall compDir c)
    else run compDir (c :: calls) lines ((s.closeEnded l.address).addLine l)
termination_by calls.length + lines.length

def finish (b : FunctionBuilder) : Function :=
  let calls := b.calls.mergeSort callOrder
  let lines := b.lines.mergeSort fun x y => x.address ≤ y.address
  (run b.compDir calls lines
    ⟨⟨b.address, b.size, b.name, b.compDir, [], [], false⟩, []⟩).finish

end FunctionBuilder

end Postmortem.Debug
