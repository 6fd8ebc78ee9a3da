/-!
# JSON values

A JSON text as data.  Objects keep every member in the order of the text, also when a name occurs
twice, so that a reader can refuse repeated names; numbers that are not integers are kept apart
without their value.
-/

set_option autoImplicit false

namespace Postmortem

inductive Json where
  | null
  | bool (b : Bool)
  | int (n : Int)
  /-- A number with a fraction or an exponent, or a negative zero. -/
  | real
  | str (s : String)
  /-- A string with half of a surrogate pair among its escapes, which is no text therefore, or an
  object with such a name.  It can be skipped, but not read. -/
  | unpaired
  | arr (items : List Json)
  | obj (members : List (String × Json))
  deriving Inhabited, Repr

namespace Json

def nat (n : Nat) : Json := int n

def ofOption {α : Type} (f : α → Json) : Option α → Json
  | none => null
  | some a => f a

def text? : Json → Option String
  | str s => some s
  | _ => none

def items? : Json → Option (List Json)
  | arr xs => some xs
  | _ => none

/-- An integer of at least `low` and below `high`. -/
def intIn? (low high : Int) : Json → Option Int
  | int n => if low ≤ n ∧ n < high then some n else none
  | _ => none

def word32? (j : Json) : Option UInt32 :=
  (j.intIn? 0 UInt32.size).map fun n => UInt32.ofNat n.toNat

def word64? (j : Json) : Option UInt64 :=
  (j.intIn? 0 UInt64.size).map fun n => UInt64.ofNat n.toNat

def int32? (j : Json) : Option Int32 :=
  (j.intIn? (-0x80000000) 0x80000000).map Int32.ofInt

def list? {α : Type} (f : Json → Option α) (j : Json) : Option (List α) :=
  j.items?.bind (·.mapM f)

/-- `null` as none, anything else as a value that must be readable. -/
def nullable? {α : Type} (f : Json → Option α) : Json → Option (Option α)
  | null => some none
  | j => (f j).map some

/-- The value of a member, which must not occur twice. -/
def unique? (name : String) (members : List (String × Json)) : Option (Option Json) :=
  match members.filter (·.1 == name) with
  | [] => some none
  | [m] => some (some m.2)
  | _ => none

/-- The fields of a record in the order of their names: from an object, which may leave fields out
and may have other members, or from an array with exactly one item a field. -/
def fields? (names : List String) : Json → Option (List (Option Json))
  | obj members => names.mapM (unique? · members)
  | arr items => if items.length = names.length then some (items.map some) else none
  | _ => none

def required? {α : Type} (f : Json → Option α) : Option Json → Option α
  | none => none
  | some j => f j

def optional? {α : Type} (f : Json → Option α) : Option Json → Option (Option α)
  | none => some none
  | some j => j.nullable? f

/-- A choice: its name alone, or an object with its name and content as the only member. -/
def choice? : Json → Option (String × Option Json)
  | str s => some (s, none)
  | obj [(name, j)] => some (name, some j)
  | _ => none

/-- The name of a choice without content, which may be written as `null`. -/
def plainChoice? (j : Json) : Option String :=
  match j.choice? with
  | some (name, none) => some name
  | some (name, some null) => some name
  | _ => none

end Json

end Postmortem
