import Postmortem.Address

/-!
# Distances that fit 32 bits

An address within reach of a base is stored as its distance from it.  Within reach, distances are
ordered as the addresses are, and adding the base gives the address back.  A sum that would lie
behind the last address has no value, or is the last address.
-/

set_option autoImplicit false

namespace Postmortem

/-- Whether an address lies at most 32 bits above a base. -/
def Within (base a : UInt64) : Prop :=
  base.toNat ≤ a.toNat ∧ a.toNat < base.toNat + UInt32.size

/-- The distance of an address from a base, cut down to 32 bits. -/
def distance (base a : UInt64) : UInt32 := (a - base).toUInt32

theorem toNat_sub_of_le {base a : UInt64} (h : base.toNat ≤ a.toNat) :
    (a - base).toNat = a.toNat - base.toNat :=
  UInt64.toNat_sub_of_le a base (UInt64.le_iff_toNat_le.2 h)

theorem Within.toNat_distance {base a : UInt64} (h : Within base a) :
    (distance base a).toNat = a.toNat - base.toNat := by
  obtain ⟨hle, hlt⟩ := h
  rw [distance, UInt64.toNat_toUInt32, toNat_sub_of_le hle]
  exact Nat.mod_eq_of_lt (Nat.sub_lt_left_of_lt_add hle hlt)

theorem offset32?_eq_some_iff {a base : UInt64} {r : UInt32} :
    offset32? a base = some r ↔ Within base a ∧ r = distance base a := by
  rw [offset32?, subExact?]
  by_cases hle : base ≤ a
  · have hle' := UInt64.le_iff_toNat_le.1 hle
    rw [if_pos hle, Option.bind_some, toNat_sub_of_le hle', Within, distance]
    by_cases hlt : a.toNat - base.toNat < UInt32.size
    · rw [if_pos hlt, Option.some.injEq]
      exact ⟨fun h => ⟨⟨hle', by omega⟩, h.symm⟩, fun h => h.2.symm⟩
    · rw [if_neg hlt]
      exact ⟨nofun, fun h => absurd h.1.2 (by omega)⟩
  · rw [if_neg hle, Within, ← UInt64.le_iff_toNat_le]
    exact ⟨nofun, fun h => absurd h.1.1 hle⟩

theorem offset32?_of_within {a base : UInt64} (h : Within base a) :
    offset32? a base = some (distance base a) :=
  offset32?_eq_some_iff.2 ⟨h, rfl⟩

theorem distance_lt_iff {base a b : UInt64} (ha : Within base a) (hb : Within base b) :
    distance base a < distance base b ↔ a < b := by
  rw [UInt32.lt_iff_toNat_lt, ha.toNat_distance, hb.toNat_distance, UInt64.lt_iff_toNat_lt]
  have h₁ := ha.1
  have h₂ := hb.1
  omega

theorem distance_le_iff {base a b : UInt64} (ha : Within base a) (hb : Within base b) :
    distance base a ≤ distance base b ↔ a ≤ b := by
  rw [← UInt32.not_lt, ← UInt64.not_lt, distance_lt_iff hb ha]

/-- Between two addresses within reach, every address is. -/
theorem Within.between {base a b c : UInt64} (ha : Within base a) (hc : Within base c)
    (hab : a ≤ b) (hbc : b ≤ c) : Within base b := by
  rw [UInt64.le_iff_toNat_le] at hab hbc
  exact ⟨Nat.le_trans ha.1 hab, Nat.lt_of_le_of_lt hbc hc.2⟩

theorem addExact?_eq_some_iff {a n sum : UInt64} :
    addExact? a n = some sum ↔ sum.toNat = a.toNat + n.toNat := by
  have hlt := sum.toNat_lt
  rw [addExact?]
  split
  · rename_i hfits
    rw [Option.some.injEq, ← UInt64.toNat_inj, UInt64.toNat_add, Nat.mod_eq_of_lt hfits, eq_comm]
  · rename_i hfits
    refine iff_of_false (Option.some_ne_none sum).symm ?_
    intro h
    exact hfits (h ▸ hlt)

theorem addOrAbort_eq_ok_iff {a n sum : UInt64} :
    addOrAbort a n = .ok sum ↔ sum.toNat = a.toNat + n.toNat := by
  rw [← addExact?_eq_some_iff, addOrAbort, addExact?]
  split
  · rw [Except.ok.injEq, Option.some.injEq]
  · exact iff_of_false nofun nofun

theorem addOrAbort_eq_overflow_iff {a n : UInt64} :
    addOrAbort a n = .error .overflow ↔ UInt64.size ≤ a.toNat + n.toNat := by
  rw [addOrAbort]
  split
  · exact iff_of_false nofun (by omega)
  · exact iff_of_true rfl (by omega)

theorem toNat_addSaturating (a n : UInt64) :
    (addSaturating a n).toNat = min (a.toNat + n.toNat) (UInt64.size - 1) := by
  rw [addSaturating]
  split
  · rename_i hfits
    rw [UInt64.toNat_add, Nat.mod_eq_of_lt hfits]
    omega
  · have hmax : (0xffffffffffffffff : UInt64).toNat = UInt64.size - 1 := by decide
    omega

theorem addOrAbort_distance {base a : UInt64} (h : Within base a) :
    addOrAbort base (distance base a).toUInt64 = .ok a := by
  rw [addOrAbort_eq_ok_iff, UInt32.toNat_toUInt64, h.toNat_distance]
  have := h.1
  omega

theorem le_addSaturating (a n : UInt64) : a ≤ addSaturating a n := by
  have ha : a.toNat < UInt64.size := a.toNat_lt
  rw [UInt64.le_iff_toNat_le, toNat_addSaturating]
  omega

/-- An address below another one is not the last one, so all but zero leads further on. -/
theorem lt_addSaturating_iff {a b n : UInt64} (h : a < b) : a < addSaturating a n ↔ n ≠ 0 := by
  have hlt := UInt64.lt_iff_toNat_lt.1 h
  have hb : b.toNat < UInt64.size := b.toNat_lt
  rw [UInt64.lt_iff_toNat_lt, toNat_addSaturating, Ne, ← UInt64.toNat_inj, UInt64.toNat_zero]
  omega

/-- Adding a distance to the base does not reach the end of the address space. -/
theorem addSaturating_distance {base a : UInt64} (h : Within base a) :
    addSaturating base (distance base a).toUInt64 = a := by
  have hle := h.1
  have ha : a.toNat < UInt64.size := a.toNat_lt
  rw [← UInt64.toNat_inj, toNat_addSaturating, UInt32.toNat_toUInt64, h.toNat_distance]
  omega

/-- A distance below another one is not the absent reference. -/
theorem ne_max_of_lt {r s : UInt32} (h : r < s) : r ≠ 0xffffffff := by
  rintro rfl
  have := s.toNat_lt
  rw [UInt32.lt_iff_toNat_lt] at h
  simp at h
  omega

end Postmortem
