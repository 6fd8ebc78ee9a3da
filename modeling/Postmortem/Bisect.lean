/-!
# Bisection

Binary search in a table that is known by how each of its entries compares with what is sought.
The entries that are probed depend on the size and the comparisons alone, so the outcome is fixed
also for a table that is not sorted.
-/

set_option autoImplicit false

namespace Postmortem.Bisect

/-- Halves the `size` entries from `base` on until one is left, moving up past each middle entry
that is not above the goal. -/
def narrow (order : Nat → Ordering) (size base : Nat) : Nat :=
  if size ≤ 1 then base
  else narrow order (size - size / 2)
    (if order (base + size / 2) = .gt then base else base + size / 2)
termination_by size
decreasing_by omega

inductive Outcome where
  /-- The entry at an index equals the goal. -/
  | found (index : Nat)
  /-- No probed entry equals the goal, which belongs at an index. -/
  | missing (index : Nat)
  deriving DecidableEq, Repr

/-- Searches `size` entries, of which the one at `i` compares with the goal as `order i`. -/
def search (size : Nat) (order : Nat → Ordering) : Outcome :=
  if size = 0 then .missing 0
  else
    let i := narrow order size 0
    match order i with
    | .eq => .found i
    | .lt => .missing (i + 1)
    | .gt => .missing i

/-- The last entry that is not above the goal. -/
def floor? (size : Nat) (order : Nat → Ordering) : Option Nat :=
  match search size order with
  | .found i => some i
  | .missing 0 => none
  | .missing (i + 1) => some i

/-- The number of entries at the front that have a property, if those that have it come first. -/
def partitionPoint (size : Nat) (p : Nat → Bool) : Nat :=
  match search size fun i => if p i then .lt else .gt with
  | .found i => i
  | .missing i => i

end Postmortem.Bisect
