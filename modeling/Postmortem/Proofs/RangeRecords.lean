import Postmortem.Proofs.Distances
import Postmortem.Proofs.Floors
import Postmortem.Proofs.RangeOwners

/-!
# Records of ranges

Disjoint ranges are stored as a table of records, by the distances of their ends from a base.  The
last record that does not start above an address is that of the range which covers it, unless no
range does.
-/

set_option autoImplicit false

namespace Postmortem

variable {α ρ : Type} {base : UInt64}

structure Placed (base : UInt64) (c : Claim α) (start stop : UInt32) : Prop where
  within_start : Within base c.start
  within_stop : Within base c.stop
  start_eq : start = distance base c.start
  stop_eq : stop = distance base c.stop

theorem Placed.within {c : Claim α} {start stop : UInt32} {a : UInt64}
    (h : Placed base c start stop) (ha : c.Covers a) : Within base a :=
  h.within_start.between h.within_stop ha.1 (UInt64.le_of_lt ha.2)

section Table

variable {R : Claim α → ρ → Prop} {start stop : ρ → UInt32} {claims : List (Claim α)}
  {records : List ρ} {a : UInt64}

/-- The records of disjoint ranges are not empty, disjoint, and in order. -/
theorem disjoint_records (hR : ∀ c r, R c r → Placed base c (start r) (stop r))
    (h : List.Forall₂ R claims records) (hclaims : Claim.Disjoint claims) :
    (∀ r ∈ records, start r < stop r) ∧ records.Pairwise fun x y => stop x ≤ start y := by
  refine ⟨?_, ?_⟩
  · intro r hr
    obtain ⟨c, hc, hr⟩ := exists_left h hr
    have hplaced := hR c r hr
    rw [hplaced.start_eq, hplaced.stop_eq,
      distance_lt_iff hplaced.within_start hplaced.within_stop]
    exact hclaims.nonempty c hc
  · induction h with
    | nil => exact .nil
    | @cons c r claims records hr h ih =>
        refine List.pairwise_cons.2 ⟨?_, ih hclaims.tail⟩
        intro r' hr'
        obtain ⟨c', hc', hr'⟩ := exists_left h hr'
        have hc := hR c r hr
        have hlater := hR c' r' hr'
        rw [hc.stop_eq, hlater.start_eq, distance_le_iff hc.within_stop hlater.within_start]
        exact (List.pairwise_cons.1 hclaims.ordered).1 c' hc'

theorem sorted_records (hR : ∀ c r, R c r → Placed base c (start r) (stop r))
    (h : List.Forall₂ R claims records) (hclaims : Claim.Disjoint claims) :
    records.Pairwise fun x y => start x < start y := by
  obtain ⟨hnonempty, hordered⟩ := disjoint_records hR h hclaims
  refine (List.Pairwise.and_mem.1 hordered).imp ?_
  rintro x y ⟨hx, -, hle⟩
  exact UInt32.lt_of_lt_of_le (hnonempty x hx) hle

theorem not_covers_of_above (hR : ∀ c r, R c r → Placed base c (start r) (stop r))
    (h : List.Forall₂ R claims records) (ha : Within base a)
    (habove : ∀ r ∈ records, distance base a < start r) : ∀ c ∈ claims, ¬ c.Covers a := by
  intro c hc hcov
  obtain ⟨r, hr, hrange⟩ := exists_right h hc
  have hplaced := hR c r hrange
  have hlt := habove r hr
  rw [hplaced.start_eq, distance_lt_iff ha hplaced.within_start] at hlt
  exact UInt64.not_le.2 hlt hcov.1

/-- The last record that does not start above an address, and the range that it is for. -/
theorem record_cases (hR : ∀ c r, R c r → Placed base c (start r) (stop r))
    (h : List.Forall₂ R claims records) (hclaims : Claim.Disjoint claims) (ha : Within base a) :
    ((∀ r ∈ records, distance base a < start r) ∧ ∀ c ∈ claims, ¬ c.Covers a) ∨
      ∃ before r after, records = before ++ r :: after ∧ start r ≤ distance base a ∧
        (∀ y ∈ after, distance base a < start y) ∧
        (distance base a < stop r → ∃ c ∈ claims, R c r ∧ c.Covers a) ∧
        (¬ distance base a < stop r → ∀ c ∈ claims, ¬ c.Covers a) := by
  rcases Bisect.byKey_cases start records (distance base a) with
    habove | ⟨before, r, after, rfl, hr, hafter⟩
  · exact .inl ⟨habove, not_covers_of_above hR h ha habove⟩
  · refine .inr ⟨before, r, after, rfl, hr, hafter, ?_⟩
    obtain ⟨cs₁, cs₂, rfl, -, h₂⟩ := forall₂_split h.flip
    cases h₂ with
    | @cons _ c _ cs₂ hc h₂ =>
        have hplaced := hR c r hc
        have hstart : c.start ≤ a := by
          rwa [hplaced.start_eq, distance_le_iff hplaced.within_start ha] at hr
        have hstop : distance base a < stop r ↔ a < c.stop := by
          rw [hplaced.stop_eq, distance_lt_iff ha hplaced.within_stop]
        constructor
        · intro hlt
          exact ⟨c, by simp, hc, hstart, hstop.1 hlt⟩
        · intro hge d hd hcov
          rcases List.mem_append.1 hd with hd | hd
          · have hle := (List.pairwise_append.1 hclaims.ordered).2.2 d hd c
              (List.mem_cons_self ..)
            exact UInt64.not_le.2 (UInt64.lt_of_lt_of_le hcov.2 hle) hstart
          · rcases List.mem_cons.1 hd with rfl | hd
            · exact hge (hstop.2 hcov.2)
            · exact not_covers_of_above hR h₂.flip ha hafter d hd hcov

end Table

end Postmortem
