import Postmortem.Address
import Postmortem.Bytes

/-!
# Memory

Pieces of captured memory and the numbers in them.  A read succeeds exactly when all of its bytes
were captured.
-/

set_option autoImplicit false

namespace Postmortem

structure MemoryRegion where
  base : UInt64 := 0
  contents : Array UInt8 := #[]
  deriving DecidableEq, Repr, Inhabited

namespace MemoryRegion

def size (m : MemoryRegion) : Nat := m.contents.size

/-- The first address behind the region, but not above the last address. -/
def stop (m : MemoryRegion) : UInt64 := addSaturating m.base (UInt64.ofNat m.size)

def contains (m : MemoryRegion) (a : UInt64) : Bool := m.base ≤ a && a < m.stop

/-- The number of `width` bytes at an address, if all of them were captured. -/
def read? (m : MemoryRegion) (e : Endian) (width : Nat) (a : UInt64) : Option Nat :=
  if m.base ≤ a then
    let i := a.toNat - m.base.toNat
    let b := (m.contents.extract i (i + width)).toList
    if b.length = width then some (e.decode b) else none
  else none

def ofWords (base : UInt64) (words : List UInt64) (width : Nat) : MemoryRegion :=
  ⟨base, (words.flatMap fun w => (Bytes.ofWord64 w).take width).toArray⟩

end MemoryRegion

end Postmortem
