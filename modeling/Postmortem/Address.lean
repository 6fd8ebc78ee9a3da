/-!
# Addresses

Sums and differences of addresses and sizes.  One that would leave the address space stops at the
last address, has no value, or ends the computation that asked for it.
-/

set_option autoImplicit false

namespace Postmortem

def addSaturating (address size : UInt64) : UInt64 :=
  if address.toNat + size.toNat < UInt64.size then address + size else 0xffffffffffffffff

def addExact? (address size : UInt64) : Option UInt64 :=
  if address.toNat + size.toNat < UInt64.size then some (address + size) else none

/-- Why a computation ends without an answer. -/
inductive Abort where
  | overflow
  deriving DecidableEq, Repr

/-- A sum without a guard: where it is no address, the whole computation ends. -/
def addOrAbort (address size : UInt64) : Except Abort UInt64 :=
  if address.toNat + size.toNat < UInt64.size then .ok (address + size) else .error .overflow

def subExact? (address base : UInt64) : Option UInt64 :=
  if base ≤ address then some (address - base) else none

def offset32? (address base : UInt64) : Option UInt32 :=
  (subExact? address base).bind fun n => if n.toNat < UInt32.size then some n.toUInt32 else none

end Postmortem
