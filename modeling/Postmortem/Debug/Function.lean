import Postmortem.Address
import Postmortem.Debug.Source
import Postmortem.Language

/-!
# Functions

A function with its line records and the tree of the calls inlined into it.  The line records of a
node cover all of its code: where a child is inlined, they point at the call.
-/

set_option autoImplicit false

namespace Postmortem.Debug

structure Function where
  address : UInt64
  size : UInt64
  name : Name
  compDir : Bytes := []
  lines : List LineInfo := []
  inlinees : List Function := []
  isInline : Bool := false
  deriving Repr, Inhabited

namespace Function

def stop (f : Function) : UInt64 := addSaturating f.address f.size

mutual

def inspect : Function → Text.Inspect
  | ⟨address, size, name, compDir, lines, inlinees, isInline⟩ =>
    .record "Function"
      [("address", .address address), ("size", .address size), ("name", name.inspect),
        ("compilation_dir", .quoted (Utf8.lossy compDir)),
        ("lines", .list (lines.map LineInfo.inspect)),
        ("inlinees", .list (inspectAll inlinees)), ("inline", .bool isInline)]

def inspectAll : List Function → List Text.Inspect
  | [] => []
  | f :: fs => f.inspect :: inspectAll fs

end

end Function

end Postmortem.Debug
