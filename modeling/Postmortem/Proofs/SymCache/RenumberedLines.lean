import Mathlib.Logic.Relator
import Postmortem.Proofs.RelatedLists
import Postmortem.Proofs.SymCache.LineReadings

/-!
# Lines whose files have other numbers

Two tables of the same lines may number their files differently.  As long as each number of one
table stands for one number of the other one, the tables are settled, cut and read alike: a row
repeats its predecessor in both of them or in neither.
-/

set_option autoImplicit false

namespace Postmortem.SymCache

variable {ρ : UInt32 → UInt32 → Prop}

structure SameRow (ρ : UInt32 → UInt32 → Prop) (x y : LineRow) : Prop where
  address : x.address = y.address
  line : x.line = y.line
  file : ρ x.file y.file

structure SameSized (ρ : UInt32 → UInt32 → Prop) (x y : SizedRow) : Prop where
  row : SameRow ρ x.row y.row
  stop : x.stop = y.stop

theorem SameSized.imp {ρ' : UInt32 → UInt32 → Prop} {x y : SizedRow} (h : SameSized ρ x y)
    (himp : ∀ i j, ρ i j → ρ' i j) : SameSized ρ' x y :=
  ⟨{ h.row with file := himp _ _ h.row.file }, h.stop⟩

namespace LineTable

theorem repeats_eq (unique : Relator.BiUnique ρ) {last last' : Option LineRow} {x y : LineRow}
    (hlast : Option.Rel (SameRow ρ) last last') (h : SameRow ρ x y) :
    repeats last x = repeats last' y := by
  cases hlast with
  | none => rfl
  | @some l l' hl =>
      have hfile : (l.file == x.file) = (l'.file == y.file) := by
        rw [Bool.eq_iff_iff, beq_iff_eq, beq_iff_eq]
        constructor
        · intro heq
          exact unique.2 hl.file (heq ▸ h.file)
        · intro heq
          exact unique.1 hl.file (heq ▸ h.file)
      rw [repeats, repeats, hl.line, h.line, hfile]

theorem gap?_eq {x y : SizedRow} (h : SameSized ρ x y) (next : UInt64) :
    gap? x next = gap? y next := by
  rw [gap?, gap?, h.stop, h.row.address]

variable {rows rows' : List SizedRow} {start stop : UInt64}

theorem forall₂_firstPerAddress (h : List.Forall₂ (SameSized ρ) rows rows') :
    List.Forall₂ (SameSized ρ) (firstPerAddress rows) (firstPerAddress rows') := by
  fun_induction firstPerAddress rows generalizing rows' with
  | case1 =>
      cases h
      rw [firstPerAddress]
      exact .nil
  | case2 r =>
      obtain _ | ⟨hr, _ | _⟩ := h
      rw [firstPerAddress]
      exact .cons hr .nil
  | case3 r next rest heq ih =>
      obtain _ | ⟨hr, _ | ⟨hnext, hrest⟩⟩ := h
      rw [firstPerAddress, if_pos (by rw [← hr.row.address, heq, hnext.row.address])]
      exact ih (.cons hr hrest)
  | case4 r next rest hne ih =>
      obtain _ | ⟨hr, _ | ⟨hnext, hrest⟩⟩ := h
      rw [firstPerAddress, if_neg (by rwa [← hr.row.address, ← hnext.row.address])]
      exact .cons hr (ih (.cons hnext hrest))

theorem nextAddress_eq (h : List.Forall₂ (SameSized ρ) rows rows') (stop : UInt64) :
    nextAddress stop rows = nextAddress stop rows' := by
  cases h with
  | nil => rfl
  | cons hr _ => exact hr.row.address

/-- What is kept of one row, and the gap behind it. -/
theorem forall₂_here (unique : Relator.BiUnique ρ) (habsent : ρ absent absent)
    {last last' : Option LineRow} {x y : SizedRow} (hlast : Option.Rel (SameRow ρ) last last')
    (h : SameSized ρ x y) (next : UInt64) :
    List.Forall₂ (SameRow ρ) (keptOf last x ++ (gap? x next).toList)
      (keptOf last' y ++ (gap? y next).toList) := by
  refine List.rel_append ?_ ?_
  · rw [keptOf, keptOf, repeats_eq unique hlast h.row]
    split
    · exact .nil
    · exact .cons h.row .nil
  · rw [← gap?_eq h]
    cases hgap : gap? x next with
    | none => exact .nil
    | some r =>
        obtain ⟨stop, -, -, -, rfl⟩ := gap?_eq_some hgap
        exact .cons ⟨rfl, rfl, habsent⟩ .nil

theorem rel_or {α β : Type} {R : α → β → Prop} {o p : Option α} {o' p' : Option β}
    (ho : Option.Rel R o o') (hp : Option.Rel R p p') : Option.Rel R (o.or p) (o'.or p') := by
  cases ho with
  | none => exact hp
  | some h => exact .some h

theorem forall₂_settleFrom (unique : Relator.BiUnique ρ) (habsent : ρ absent absent)
    {last last' : Option LineRow} (hlast : Option.Rel (SameRow ρ) last last')
    (h : List.Forall₂ (SameSized ρ) rows rows') :
    List.Forall₂ (SameRow ρ) (settleFrom stop last rows) (settleFrom stop last' rows') := by
  induction h generalizing last last' with
  | nil => exact .nil
  | @cons x y rest rest' hxy hrest ih =>
      have hhere := forall₂_here unique habsent hlast hxy (nextAddress stop rest)
      rw [settleFrom_cons, settleFrom_cons, ← nextAddress_eq hrest]
      exact List.rel_append hhere (ih (rel_or (rel_getLast? hhere) hlast))

/-- Settling keeps the same rows of both tables. -/
theorem forall₂_settle (unique : Relator.BiUnique ρ) (habsent : ρ absent absent)
    (h : List.Forall₂ (SameSized ρ) rows rows') :
    List.Forall₂ (SameRow ρ) (settle start stop rows) (settle start stop rows') := by
  refine forall₂_settleFrom unique habsent .none (forall₂_firstPerAddress ?_)
  refine forall₂_mergeSort (forall₂_filter h ?_) ?_
  · intro x y hxy
    rw [hxy.row.address]
  · intro x x' y y' hxy hxy'
    rw [hxy.row.address, hxy'.row.address]

variable {lines lines' : List LineRow}

theorem forall₂_clip (h : List.Forall₂ (SameRow ρ) lines lines') (start stop : UInt64) :
    List.Forall₂ (SameRow ρ) (clip start stop lines) (clip start stop lines') := by
  have hinside : List.Forall₂ (SameRow ρ)
      ((lines.dropWhile (·.address ≤ start)).takeWhile (·.address < stop))
      ((lines'.dropWhile (·.address ≤ start)).takeWhile (·.address < stop)) :=
    forall₂_takeWhile (forall₂_dropWhile h fun x y hxy => by rw [hxy.address])
      fun x y hxy => by rw [hxy.address]
  have hlast := rel_getLast? (forall₂_takeWhile (p := (·.address ≤ start))
    (q := (·.address ≤ start)) h fun x y hxy => by rw [hxy.address])
  rw [clip, clip]
  generalize (lines.takeWhile (·.address ≤ start)).getLast? = last,
    (lines'.takeWhile (·.address ≤ start)).getLast? = last' at hlast
  cases hlast with
  | none => exact hinside
  | some hxy => exact .cons { hxy with address := rfl } hinside

theorem rel_rowAt? (h : List.Forall₂ (SameRow ρ) lines lines') (a : UInt64) :
    Option.Rel (SameRow ρ) (rowAt? a lines) (rowAt? a lines') :=
  rel_getLast? (forall₂_filter h fun x y hxy => by rw [hxy.address])

end LineTable

end Postmortem.SymCache
