import Postmortem.Address
import Postmortem.Crash.ModuleId
import Postmortem.Crash.RangeMap

/-!
# Loaded modules

The executables and libraries of a process, and the map that finds the module of an address.  Two
modules count as the same if they have the same identifier and base address.
-/

set_option autoImplicit false

namespace Postmortem.Crash

structure Module where
  id : Option ModuleId := none
  base : UInt64 := 0
  size : UInt64 := 0
  codeFile : String := ""
  /-- What tells versions of the file apart, or nothing. -/
  codeIdentifier : String := ""
  debugFile : String := ""
  deriving DecidableEq, Repr, Inhabited

namespace Module

/-- The module with an identifier.  That of nothing counts as none. -/
def withId (m : Module) (id : ModuleId) : Module :=
  { m with id := if id.isNil then none else some id }

/-- The module with a code identifier.  The placeholder `id` counts as none. -/
def withCodeIdentifier (m : Module) (s : String) : Module :=
  { m with codeIdentifier := if s = "id" then "" else s }

def stop (m : Module) : UInt64 := addSaturating m.base m.size

def range (m : Module) : RangeMap.Entry UInt64 Module := ⟨m.base, m.stop, m⟩

def contains (m : Module) (a : UInt64) : Bool := m.base ≤ a && a < m.stop

def debugIdentifier (m : Module) : String := (m.id.map ModuleId.toText).getD ""

/-- Modules are ordered by identifier and then by base address. -/
def order (a b : Module) : Ordering := (compare a.id b.id).then (compare a.base b.base)

def inspect (m : Module) : Text.Inspect :=
  .record "CodeModule"
    [("id", .option ModuleId.inspect m.id), ("base_address", .address m.base),
      ("size", .address m.size), ("code_file", .quoted m.codeFile),
      ("code_identifier", .quoted m.codeIdentifier), ("debug_file", .quoted m.debugFile),
      ("debug_identifier", .quoted m.debugIdentifier)]

/-- Sorted modules without those that are the same as the one after them. -/
def dropRepeated : List Module → List Module
  | [] => []
  | [m] => [m]
  | m :: next :: rest =>
    if order m next = .eq then dropRepeated (next :: rest) else m :: dropRepeated (next :: rest)

/-- Modules in order, of the same ones only the last. -/
def distinct (modules : List Module) : List Module :=
  dropRepeated (modules.mergeSort fun a b => (order a b).isLE)

end Module

/-- The modules of a process by increasing base address, and the addresses that are theirs. -/
structure ModuleMap where
  modules : List Module := []
  ranges : RangeMap UInt64 Module := {}
  deriving DecidableEq, Repr

namespace ModuleMap

def before (a b : Module) : Bool := a.base < b.base || (a.base == b.base && a.size ≤ b.size)

/-- The map in which each module, in order, has the addresses that it covers.  One that is empty or
overlaps an earlier one has none. -/
def ofList (modules : List Module) : ModuleMap :=
  let sorted := modules.mergeSort before
  ⟨sorted, RangeMap.insertEach {} (sorted.map Module.range)⟩

def find? (m : ModuleMap) (a : UInt64) : Option Module := m.ranges.find? a

end ModuleMap

end Postmortem.Crash
