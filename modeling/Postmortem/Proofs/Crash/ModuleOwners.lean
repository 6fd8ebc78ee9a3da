import Postmortem.Crash.Module
import Postmortem.Proofs.Crash.RangeMaps

/-!
# Modules of addresses

A module map returns only modules that contain the address, since each of its ranges is the range
of a module.  Modules that have no address in common all get their ranges, in whatever order they
are listed, so each address finds its module.
-/

set_option autoImplicit false

namespace Postmortem.Crash

open RangeMap (Entry Sound sound_nil)

namespace ModuleMap

def Disjoint (modules : List Module) : Prop :=
  modules.Pairwise fun m n => ∀ a, ¬ (m.contains a ∧ n.contains a)

theorem covers_range_iff {m : Module} {a : UInt64} : m.range.Covers a ↔ m.contains a := by
  rw [Module.contains, Bool.and_eq_true, decide_eq_true_eq, decide_eq_true_eq]
  rfl

theorem apart_range_iff {m n : Module} :
    m.range.Apart n.range ↔ ∀ a, ¬ (m.contains a ∧ n.contains a) := by
  simp only [Entry.Apart, covers_range_iff]

theorem Disjoint.apart {modules order : List Module} (h : Disjoint modules)
    (horder : order.Perm modules) : (order.map Module.range).Pairwise Entry.Apart := by
  rw [List.pairwise_map]
  refine List.Pairwise.perm (h.imp apart_range_iff.2) horder.symm fun hapart => hapart.symm

theorem find?_ofList_eq_some_iff {modules : List Module} {a : UInt64} {m : Module} :
    (ofList modules).find? a = some m ↔
      ∃ e ∈ (ofList modules).ranges.entries, e.Covers a ∧ e.value = m :=
  RangeMap.find?_eq_some_iff (RangeMap.sound_insertEach sound_nil _)

/-- The module that is found for an address is one of the modules and contains the address. -/
theorem contains_of_find? {modules : List Module} {a : UInt64} {m : Module}
    (h : (ofList modules).find? a = some m) : m ∈ modules ∧ m.contains a = true := by
  obtain ⟨e, he, hcovers, hvalue⟩ := find?_ofList_eq_some_iff.1 h
  rcases RangeMap.mem_of_mem_insertEach sound_nil he with he | he
  · cases he
  · obtain ⟨n, hn, rfl⟩ := List.mem_map.1 he
    subst hvalue
    exact ⟨(List.mergeSort_perm modules before).mem_iff.1 hn, covers_range_iff.1 hcovers⟩

/-- Modules without common addresses are found at each of their addresses. -/
theorem find?_eq_some_of_disjoint {modules order : List Module} (h : Disjoint modules)
    (horder : order.Perm modules) {a : UInt64} {m : Module} (hm : m ∈ modules)
    (ha : m.contains a) : (ofList order).find? a = some m := by
  have hsorted := (List.mergeSort_perm order before).trans horder
  have hcovers : m.range.Covers a := covers_range_iff.2 ha
  refine find?_ofList_eq_some_iff.2 ⟨m.range, ?_, hcovers, rfl⟩
  refine (RangeMap.mem_insertEach_iff sound_nil (h.apart hsorted) (by simp)).2 (.inr ⟨?_, ?_⟩)
  · exact List.mem_map_of_mem (hsorted.mem_iff.2 hm)
  · exact Std.lt_of_le_of_lt hcovers.1 hcovers.2

/-- After any insertions the ranges of a map are neither empty nor overlapping and stand in order,
a further range is inserted exactly if it is not empty and overlaps none of them, and an address
finds the range that covers it.  So the module that is found for an address contains it, and of
modules without common addresses each is found, in whatever order they are listed. -/
theorem lookups_find_covering_ranges {κ α : Type} [LE κ] [LT κ] [DecidableLE κ] [DecidableLT κ]
    [Ord κ] [Std.IsLinearOrder κ] [Std.LawfulOrderLT κ] [Std.LawfulOrderOrd κ] :
    (∀ inserted : List (Entry κ α),
      let map := RangeMap.insertEach {} inserted
      Sound map.entries ∧ map.entries.Pairwise Entry.Apart ∧
        (∀ e, (map.insert? e).isSome ↔ e.start < e.stop ∧ ∀ x ∈ map.entries, e.Apart x) ∧
        (∀ e next, map.insert? e = some next → next.entries.Perm (e :: map.entries)) ∧
        ∀ a e, map.entry? a = some e ↔ e ∈ map.entries ∧ e.Covers a) ∧
      ∀ modules a,
        (∀ m, (ofList modules).find? a = some m → m ∈ modules ∧ m.contains a) ∧
          (Disjoint modules → ∀ order, order.Perm modules →
            ∀ m, (ofList order).find? a = some m ↔ m ∈ modules ∧ m.contains a) := by
  refine ⟨fun inserted => ?_, fun modules a => ⟨fun m => contains_of_find?, ?_⟩⟩
  · have hsound : Sound (RangeMap.insertEach {} inserted).entries :=
      RangeMap.sound_insertEach sound_nil inserted
    exact ⟨hsound, hsound.apart, fun e => RangeMap.isSome_insert?_iff hsound,
      fun e next => RangeMap.perm_of_insert? hsound, fun a e => RangeMap.entry?_eq_some_iff hsound⟩
  · intro hdisjoint order horder m
    constructor
    · intro hm
      obtain ⟨hmem, hcontains⟩ := contains_of_find? hm
      exact ⟨horder.mem_iff.1 hmem, hcontains⟩
    · rintro ⟨hmem, hcontains⟩
      exact find?_eq_some_of_disjoint hdisjoint horder hmem hcontains

/-- Of two modules that touch, listed from the upper one, each end finds its own. -/
theorem touching_modules_found :
    let lower : Module := { base := 0x1000, size := 0x1000, codeFile := "lower.so" }
    let upper : Module := { base := 0x2000, size := 0x1000, codeFile := "upper.so" }
    Disjoint [upper, lower] ∧ (ofList [upper, lower]).find? 0x1fff = some lower ∧
      (ofList [upper, lower]).find? 0x2000 = some upper := by
  intro lower upper
  have hapart : upper.range.Apart lower.range :=
    (Entry.apart_iff (by decide) (by decide)).2 (.inr (by decide))
  have hdisjoint : Disjoint [upper, lower] :=
    List.pairwise_pair.2 (apart_range_iff.1 hapart)
  have hfound (a : UInt64) := (lookups_find_covering_ranges (κ := UInt64) (α := Module)).2
    [upper, lower] a
  refine ⟨hdisjoint, ?_, ?_⟩
  · exact ((hfound 0x1fff).2 hdisjoint _ (.refl _) lower).2 ⟨by simp, by decide⟩
  · exact ((hfound 0x2000).2 hdisjoint _ (.refl _) upper).2 ⟨by simp, by decide⟩

end ModuleMap

end Postmortem.Crash
