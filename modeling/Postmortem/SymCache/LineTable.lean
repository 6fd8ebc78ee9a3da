import Postmortem.Leb128
import Postmortem.SymCache.Layout

/-!
# Line tables

The line records of one function, as they are collected, cut and stored.  `settle` turns records
with sizes into plain ones: behind a record that ends before the next begins stands one for line
zero.  `clip` cuts a table to a part of the function.  A table is stored in blocks of sixteen
records, and `find?` searches it in its stored form.
-/

set_option autoImplicit false

namespace Postmortem.SymCache

/-- The line from an address on, up to the next row.  Line zero without a file says that nothing is
known. -/
structure LineRow where
  address : UInt64
  line : UInt32
  file : UInt32
  deriving DecidableEq, Repr, Inhabited

structure SizedRow where
  row : LineRow
  stop : Option UInt64
  deriving DecidableEq, Repr, Inhabited

namespace LineTable

def firstPerAddress : List SizedRow → List SizedRow
  | [] => []
  | [r] => [r]
  | r :: next :: rest =>
    if r.row.address = next.row.address then firstPerAddress (r :: rest)
    else r :: firstPerAddress (next :: rest)
termination_by l => l.length

def repeats (last : Option LineRow) (r : LineRow) : Bool :=
  match last with
  | some l => l.line == r.line && l.file == r.file
  | none => false

/-- The row behind a row that ends before the next one starts.  A row without extent ends there. -/
def gap? (r : SizedRow) (next : UInt64) : Option LineRow :=
  match r.stop with
  | some stop => if r.row.address < stop && stop < next then some ⟨stop, 0, absent⟩ else none
  | none => none

/-- Sorted rows up to an address, without those that repeat their predecessor and with the gaps
between them, after a last row that was kept. -/
def settleFrom (stop : UInt64) (last : Option LineRow) : List SizedRow → List LineRow
  | [] => []
  | r :: rest =>
    let next := match rest with
      | [] => stop
      | n :: _ => n.row.address
    let kept := if repeats last r.row then [] else [r.row]
    let here := kept ++ (gap? r next).toList
    here ++ settleFrom stop (here.getLast?.or last) rest

/-- The line table of the code from `start` up to `stop`: the given rows that start in it, in
order. -/
def settle (start stop : UInt64) (rows : List SizedRow) : List LineRow :=
  let inside := rows.filter fun r => start ≤ r.row.address && r.row.address < stop
  let sorted := inside.mergeSort fun a b => a.row.address ≤ b.row.address
  settleFrom stop none (firstPerAddress sorted)

/-- The part of a table from `start` up to `stop`.  The row in effect at the start is moved to
it. -/
def clip (start stop : UInt64) (rows : List LineRow) : List LineRow :=
  let inside := (rows.dropWhile (·.address ≤ start)).takeWhile (·.address < stop)
  match (rows.takeWhile (·.address ≤ start)).getLast? with
  | some r => { r with address := start } :: inside
  | none => inside

/-! ## Stored form -/

/-- The stored form of the rows behind a row: for each the differences of address and line, and its
file counted from one. -/
def encodeFrom (previous : LineRow) : List LineRow → Bytes
  | [] => []
  | r :: rest =>
    Leb128.encode (r.address - previous.address) ++
      Leb128.ofInt (r.line.toNat - previous.line.toNat) ++
      Leb128.ofNat (if r.file = absent then 0 else r.file.toNat + 1) ++ encodeFrom r rest

/-- Groups of `n + 1` items, of which only the last may be smaller. -/
def groups {α : Type} (n : Nat) : List α → List (List α)
  | [] => []
  | a :: rest => (a :: rest.take n) :: groups n (rest.drop n)
termination_by l => l.length
decreasing_by simp only [List.length_drop, List.length_cons]; omega

structure Record where
  address : UInt32
  line : UInt32
  file : UInt32
  deriving DecidableEq, Repr, Inhabited

def Record.next? (r : Record) (program : Bytes) : Option (Record × Bytes) := do
  let (step, program) := Leb128.read program
  let step ← step
  let (lines, program) := Leb128.readSigned program
  let lines ← lines
  let (file, program) := Leb128.read program
  let file ← file
  let address := r.address.toNat + step.toNat
  let line := (r.line.toNat : Int) + lines.toInt
  let file ← if file = 0 then some absent
    else if file.toNat ≤ UInt32.size then some (UInt32.ofNat (file.toNat - 1)) else none
  if address < UInt32.size ∧ 0 ≤ line ∧ line < UInt32.size then
    return (⟨UInt32.ofNat address, UInt32.ofNat line.toNat, file⟩, program)
  else none

/-- The last of up to `n` records behind a record that does not start above an address.  A record
that cannot be read ends the search. -/
def Record.advance (address : UInt32) : (n : Nat) → Record → Bytes → Record
  | 0, r, _ => r
  | n + 1, r, program =>
    match r.next? program with
    | some (next, program) =>
      if next.address ≤ address then advance address n next program else r
    | none => r

end LineTable

end Postmortem.SymCache
