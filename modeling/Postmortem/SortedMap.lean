/-!
# Sorted maps

A finite map as the list of its entries in increasing order of the keys.  The order is part of the
type, so two maps are equal exactly when they give every key the same value.
-/

set_option autoImplicit false

namespace Postmortem

def Increasing {κ α : Type} [Ord κ] (entries : List (κ × α)) : Prop :=
  entries.Pairwise fun a b => compare a.1 b.1 = .lt

structure SortedMap (κ α : Type) [Ord κ] where
  /-- The entries, smallest key first. -/
  entries : List (κ × α)
  increasing : Increasing entries

namespace SortedMap

variable {κ α : Type} [Ord κ]

def empty : SortedMap κ α := ⟨[], .nil⟩

instance : Inhabited (SortedMap κ α) := ⟨empty⟩

instance [DecidableEq κ] [DecidableEq α] : DecidableEq (SortedMap κ α) := fun a b =>
  decidable_of_iff (a.entries = b.entries) (by cases a; cases b; simp)

def lookup (key : κ) : List (κ × α) → Option α
  | [] => none
  | (k, a) :: rest =>
    match compare key k with
    | .lt => none
    | .eq => some a
    | .gt => lookup key rest

def put (key : κ) (value : α) : List (κ × α) → List (κ × α)
  | [] => [(key, value)]
  | (k, a) :: rest =>
    match compare key k with
    | .lt => (key, value) :: (k, a) :: rest
    | .eq => (key, value) :: rest
    | .gt => (k, a) :: put key value rest

theorem mem_put {key : κ} {value : α} {entries : List (κ × α)} {e : κ × α}
    (h : e ∈ put key value entries) : e = (key, value) ∨ e ∈ entries := by
  induction entries with
  | nil => simpa [put] using h
  | cons x rest ih =>
    obtain ⟨k, a⟩ := x
    simp only [put] at h
    split at h
    · simpa using h
    · rcases List.mem_cons.1 h with h | h
      · exact .inl h
      · exact .inr (List.mem_cons_of_mem _ h)
    · rcases List.mem_cons.1 h with h | h
      · exact .inr (by simp [h])
      · exact (ih h).imp_right (List.mem_cons_of_mem _)

theorem increasing_put [Std.TransOrd κ] [Std.LawfulEqOrd κ] (key : κ) (value : α)
    {entries : List (κ × α)} (h : Increasing entries) : Increasing (put key value entries) := by
  induction entries with
  | nil => exact List.pairwise_singleton _ _
  | cons x rest ih =>
    obtain ⟨k, a⟩ := x
    obtain ⟨hk, hrest⟩ := List.pairwise_cons.1 h
    simp only [put]
    split
    · rename_i hlt
      refine List.pairwise_cons.2 ⟨fun e he => ?_, h⟩
      rcases List.mem_cons.1 he with he | he
      · simpa [he] using hlt
      · exact Std.TransCmp.lt_trans hlt (hk e he)
    · rename_i heq
      have := Std.LawfulEqCmp.eq_of_compare heq
      subst this
      exact List.pairwise_cons.2 ⟨hk, hrest⟩
    · rename_i hgt
      refine List.pairwise_cons.2 ⟨fun e he => ?_, ih hrest⟩
      rcases mem_put he with he | he
      · simpa [he] using Std.OrientedCmp.lt_of_gt hgt
      · exact hk e he

variable [Std.TransOrd κ] [Std.LawfulEqOrd κ]

def find? (m : SortedMap κ α) (key : κ) : Option α := lookup key m.entries

def contains (m : SortedMap κ α) (key : κ) : Bool := (m.find? key).isSome

def insert (m : SortedMap κ α) (key : κ) (value : α) : SortedMap κ α :=
  ⟨put key value m.entries, increasing_put key value m.increasing⟩

/-- The map with these entries; of several values of one key the last one counts. -/
def ofList (entries : List (κ × α)) : SortedMap κ α :=
  entries.foldl (fun m e => m.insert e.1 e.2) empty

def keys (m : SortedMap κ α) : List κ := m.entries.map Prod.fst

def size (m : SortedMap κ α) : Nat := m.entries.length

def mapValues {β : Type} (f : α → β) (m : SortedMap κ α) : SortedMap κ β :=
  ⟨m.entries.map fun e => (e.1, f e.2), by
    have := m.increasing
    simpa [Increasing, List.pairwise_map] using this⟩

end SortedMap

end Postmortem
