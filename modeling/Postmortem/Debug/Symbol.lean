import Postmortem.Address
import Postmortem.Bisect
import Postmortem.Text.Inspect

/-!
# Symbols

Public symbols and maps of them.  A map is sorted by address, has one symbol at an address, and
fills in missing sizes up to the next symbol; only its last symbol may be left without one.
-/

set_option autoImplicit false

namespace Postmortem.Debug

structure Symbol where
  name : Option String := none
  address : UInt64
  /-- The size in bytes, or zero if it is not known. -/
  size : UInt64 := 0
  deriving DecidableEq, Repr, Inhabited

namespace Symbol

/-- Whether a symbol covers an address: from its start up to its end, or without end if it has no
size.  There is no answer if the end is needed and lies outside the address space. -/
def covers (s : Symbol) (a : UInt64) : Except Abort Bool :=
  if a < s.address then .ok false
  else if s.size = 0 then .ok true
  else (addOrAbort s.address s.size).map (a < ·)

def upTo (s next : Symbol) : Symbol :=
  if s.size = 0 then { s with size := next.address - s.address } else s

def inspect (s : Symbol) : Text.Inspect :=
  .record "Symbol"
    [("name", .quoted (s.name.getD "<unknown>")), ("address", .address s.address),
      ("size", .address s.size)]

end Symbol

structure SymbolMap where
  symbols : List Symbol := []
  deriving DecidableEq, Repr, Inhabited

namespace SymbolMap

/-- The symbols from one on, of which each that has no size reaches up to the next one, and all but
the first symbol at an address are dropped.  A size that is known only of a dropped symbol is lost. -/
def settleFrom (s : Symbol) : List Symbol → List Symbol
  | [] => [s]
  | next :: rest =>
    if s.address = next.address then settleFrom (s.upTo next) rest
    else s.upTo next :: settleFrom next rest

def settle : List Symbol → List Symbol
  | [] => []
  | s :: rest => settleFrom s rest

/-- Symbols in the order of their addresses.  Those at one address stay in their order. -/
def byAddress (symbols : List Symbol) : List Symbol :=
  symbols.mergeSort fun a b => a.address ≤ b.address

/-- The map of symbols that `sort` brings in the order of their addresses. -/
def ofListBy (sort : List Symbol → List Symbol) (symbols : List Symbol) : SymbolMap :=
  ⟨settle (sort symbols)⟩

def ofList (symbols : List Symbol) : SymbolMap := ofListBy byAddress symbols

def order (m : SymbolMap) (a : UInt64) (i : Nat) : Ordering :=
  compare ((m.symbols[i]?.map (·.address)).getD 0) a

/-- The last symbol that does not start above an address. -/
def floor? (m : SymbolMap) (a : UInt64) : Option Symbol :=
  (Bisect.floor? m.symbols.length (m.order a)).bind fun i => m.symbols[i]?

def lookup (m : SymbolMap) (a : UInt64) : Except Abort (Option Symbol) :=
  match m.floor? a with
  | none => .ok none
  | some s => (s.covers a).map fun covered => if covered then some s else none

def lookupExact? (m : SymbolMap) (a : UInt64) : Option Symbol :=
  match Bisect.search m.symbols.length (m.order a) with
  | .found i => m.symbols[i]?
  | .missing _ => none

def inspect (m : SymbolMap) : Text.Inspect :=
  .record "SymbolMap" [("symbols", .list (m.symbols.map Symbol.inspect))]

end SymbolMap

end Postmortem.Debug
