import Postmortem.DebugId
import Postmortem.Text.Blank

/-!
# Module identifiers

The debug identifier of a loaded module.  It is read in both spellings, in either case and with
blanks around it, and always written in the compact one.
-/

set_option autoImplicit false

namespace Postmortem.Crash

structure ModuleId where
  id : DebugId
  deriving DecidableEq, Repr, Inhabited

namespace ModuleId

instance : Ord ModuleId where
  compare := compareOn id

instance : Std.TransOrd ModuleId := inferInstanceAs (Std.TransCmp (compareOn ModuleId.id))

instance : Std.LawfulEqOrd ModuleId where
  eq_of_compare {a b} h := by
    have h : compare a.id b.id = .eq := h
    cases a; cases b
    simpa using h

def ofParts (uuid : BitVec 128) (appendix : UInt32) : ModuleId := ⟨⟨uuid, appendix, .uuid⟩⟩

def parse? (s : String) : Option ModuleId :=
  let t := String.ofList (Text.trimBlanks s.toList)
  ((DebugId.parseCompact? t).or (DebugId.parse? t)).map ModuleId.mk

def toText (m : ModuleId) : String := m.id.toCompactText

def isNil (m : ModuleId) : Bool := m.id.isNil

def inspect (m : ModuleId) : Text.Inspect := .record "CodeModuleId" [("inner", m.id.inspect)]

end ModuleId

end Postmortem.Crash
