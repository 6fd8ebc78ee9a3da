/-!
# Range claims

Claims on half-open ranges of addresses that may overlap.  They are served in the order of a
priority, equal ones in the order in which they were made, and each takes the parts of its range
that none before it took.  The result is a list of disjoint ranges in increasing order.
-/

set_option autoImplicit false

namespace Postmortem

/-- A claim on the addresses from `start` up to but not including `stop`. -/
structure Claim (α : Type) where
  start : UInt64
  stop : UInt64
  value : α
  deriving DecidableEq, Repr

namespace Claim

variable {α : Type}

def Covers (c : Claim α) (a : UInt64) : Prop := c.start ≤ a ∧ a < c.stop

instance (c : Claim α) (a : UInt64) : Decidable (c.Covers a) :=
  inferInstanceAs (Decidable (_ ∧ _))

def length (c : Claim α) : UInt64 := c.stop - c.start

/-- The disjoint ranges with the free parts of one more range, from `start` up to `stop`. -/
def take (start stop : UInt64) (value : α) : List (Claim α) → List (Claim α)
  | [] => if start < stop then [⟨start, stop, value⟩] else []
  | taken :: rest =>
    if taken.stop ≤ start then taken :: take start stop value rest
    else if stop ≤ taken.start then
      if start < stop then ⟨start, stop, value⟩ :: taken :: rest else taken :: rest
    else if start < taken.start then
      ⟨start, taken.start, value⟩ :: taken :: take taken.stop stop value rest
    else taken :: take taken.stop stop value rest

end Claim

/-- Claims in the order in which they were made. -/
structure RangeClaims (α : Type) where
  claims : List (Claim α) := []
  deriving Repr

namespace RangeClaims

variable {α : Type}

def empty : RangeClaims α := {}

/-- One more claim; an empty range claims nothing. -/
def push (r : RangeClaims α) (c : Claim α) : RangeClaims α :=
  if c.start < c.stop then ⟨r.claims ++ [c]⟩ else r

def size (r : RangeClaims α) : Nat := r.claims.length

/-- The claims in the order in which they are served: by the priority, least first, and among equals
in the order in which they were made. -/
def served (r : RangeClaims α) (priority : Claim α → Claim α → Ordering) : List (Claim α) :=
  r.claims.mergeSort fun a b => (priority a b).isLE

def resolve (r : RangeClaims α) (priority : Claim α → Claim α → Ordering) : List (Claim α) :=
  (r.served priority).foldl (fun taken c => Claim.take c.start c.stop c.value taken) []

end RangeClaims

end Postmortem
