import Postmortem.Bisect

/-!
# Range maps

Disjoint ranges of addresses with a value each.  A range that overlaps one in the map is refused.
Ranges are found by their ends: only the range that bisection ends at can cover an address, and
only it and the one before it can overlap a new range.
-/

set_option autoImplicit false

namespace Postmortem.Crash

/-- The addresses from `start` up to but not including `stop`, and their value. -/
structure RangeMap.Entry (κ α : Type) where
  start : κ
  stop : κ
  value : α
  deriving DecidableEq, Repr

structure RangeMap (κ α : Type) where
  entries : List (RangeMap.Entry κ α) := []
  deriving DecidableEq, Repr

namespace RangeMap

variable {κ α : Type} [LE κ] [LT κ] [DecidableLE κ] [DecidableLT κ] [Ord κ]

def Entry.Covers (e : Entry κ α) (a : κ) : Prop := e.start ≤ a ∧ a < e.stop

instance (e : Entry κ α) (a : κ) : Decidable (e.Covers a) :=
  inferInstanceAs (Decidable (_ ∧ _))

/-- Where a range that ends at an address is, or belongs, among sorted ones. -/
def search (entries : List (Entry κ α)) (a : κ) : Bisect.Outcome :=
  Bisect.search entries.length fun i =>
    (entries[i]?.map fun e => compare e.stop a).getD .gt

def place? (entries : List (Entry κ α)) (e : Entry κ α) : Option Nat :=
  match search entries e.stop with
  | .found _ => none
  | .missing i =>
    if 0 < i && entries[i - 1]?.any fun x => e.start < x.stop then none
    else if entries[i]?.any fun x => x.start < e.stop then none
    else some i

/-- The map with one more range, unless that is empty or overlaps another. -/
def insert? (m : RangeMap κ α) (e : Entry κ α) : Option (RangeMap κ α) :=
  if e.start < e.stop then (place? m.entries e).map fun i => ⟨m.entries.insertIdx i e⟩ else none

/-- The map with each of some ranges that is neither empty nor overlaps an earlier one. -/
def insertEach (m : RangeMap κ α) (entries : List (Entry κ α)) : RangeMap κ α :=
  entries.foldl (fun m e => (m.insert? e).getD m) m

def entry? (m : RangeMap κ α) (a : κ) : Option (Entry κ α) :=
  let i := match search m.entries a with
    | .found i => i + 1
    | .missing i => i
  m.entries[i]?.filter fun e => e.start ≤ a

def find? (m : RangeMap κ α) (a : κ) : Option α := (m.entry? a).map (·.value)

end RangeMap

end Postmortem.Crash
