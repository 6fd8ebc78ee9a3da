import Mathlib.Algebra.GroupWithZero.Nat
import Mathlib.Algebra.Order.BigOperators.Group.List
import Mathlib.Algebra.Order.Group.Nat
import Mathlib.Data.List.Perm.Subperm
import Postmortem.Proofs.StringOffsets

/-!
# Inserted strings

A string is inserted once and keeps its offset from then on, which is that of no other string.  The
size of a table is the sum over its strings, so a table that has all strings of another one is at
least as large.
-/

set_option autoImplicit false

namespace Postmortem.StringTable

variable {t t' u : StringTable} {s : String} {offset : UInt32}

def offset? (t : StringTable) (s : String) : Option UInt32 :=
  if s.isEmpty then some absent else t.entries.lookup s

def texts (t : StringTable) : List String := t.entries.map Prod.fst

theorem lookup_eq_none_iff {entries : List (String × UInt32)} :
    entries.lookup s = none ↔ s ∉ entries.map Prod.fst := by
  rw [List.lookup_eq_none_iff, List.mem_map]
  constructor
  · rintro h ⟨e, he, rfl⟩
    exact absurd (h e he) (by simp)
  · intro h e he
    rw [bne_iff_ne]
    rintro rfl
    exact h ⟨e, he, rfl⟩

theorem offset?_eq_none_iff : t.offset? s = none ↔ s.isEmpty = false ∧ s ∉ t.texts := by
  rw [offset?]
  split
  · rename_i hs
    simp [hs]
  · rename_i hs
    rw [lookup_eq_none_iff, texts, Bool.not_eq_true] at *
    exact (and_iff_right hs).symm

/-- A table grows by strings that it does not have yet. -/
theorem insert?_cases (h : t.insert? s = some (offset, t')) :
    (t.offset? s = some offset ∧ t' = t) ∨
      (s.isEmpty = false ∧ s ∉ t.texts ∧
        t' = ⟨(s, offset) :: t.entries, t.size + (encodeText s).length⟩) := by
  rw [insert?] at h
  split at h
  · rename_i hs
    cases h
    exact .inl ⟨if_pos hs, rfl⟩
  · rename_i hs
    rw [Bool.not_eq_true] at hs
    split at h
    · rename_i o hlookup
      cases h
      exact .inl ⟨by rw [offset?, hs]; exact hlookup, rfl⟩
    · rename_i hlookup
      split at h
      · cases h
        exact .inr ⟨hs, lookup_eq_none_iff.1 hlookup, rfl⟩
      · cases h

theorem insert?_eq_none (h : t.insert? s = none) :
    s.isEmpty = false ∧ s ∉ t.texts ∧ absent.toNat ≤ t.size := by
  rw [insert?] at h
  split at h
  · cases h
  · rename_i hs
    split at h
    · cases h
    · rename_i hlookup
      split at h
      · cases h
      · rename_i hsize
        exact ⟨Bool.not_eq_true _ ▸ hs, lookup_eq_none_iff.1 hlookup, Nat.not_lt.1 hsize⟩

theorem offset?_of_insert? (h : t.insert? s = some (offset, t')) : t'.offset? s = some offset := by
  rcases insert?_cases h with ⟨hoffset, rfl⟩ | ⟨hs, -, rfl⟩
  · exact hoffset
  · rw [offset?, hs, if_neg Bool.false_ne_true, List.lookup_cons_self]

theorem mem_texts_of_insert? {r : String} (h : t.insert? s = some (offset, t')) :
    r ∈ t'.texts ↔ r ∈ t.texts ∨ (r = s ∧ s.isEmpty = false) := by
  rcases insert?_cases h with ⟨hoffset, rfl⟩ | ⟨hs, -, rfl⟩
  · refine (or_iff_left_of_imp ?_).symm
    rintro ⟨rfl, hs⟩
    by_contra hnew
    rw [offset?_eq_none_iff.2 ⟨hs, hnew⟩] at hoffset
    cases hoffset
  · rw [texts, List.map_cons, List.mem_cons, and_iff_left hs, or_comm]
    rfl

/-! ## Growth -/

/-- Whether each string of a table has the same offset in another one, which is no smaller. -/
structure Extends (t t' : StringTable) : Prop where
  offsets : ∀ s offset, t.offset? s = some offset → t'.offset? s = some offset
  size_le : t.size ≤ t'.size

theorem Extends.refl (t : StringTable) : t.Extends t := ⟨fun _ _ h => h, Nat.le_refl _⟩

theorem Extends.trans (h : t.Extends t') (h' : t'.Extends u) : t.Extends u :=
  ⟨fun s o hs => h'.offsets s o (h.offsets s o hs), Nat.le_trans h.size_le h'.size_le⟩

theorem extends_of_insert? (h : t.insert? s = some (offset, t')) : t.Extends t' := by
  rcases insert?_cases h with ⟨-, rfl⟩ | ⟨hs, hnew, rfl⟩
  · exact .refl _
  · refine ⟨fun r o hr => ?_, Nat.le_add_right _ _⟩
    rw [offset?] at hr ⊢
    split
    · rwa [if_pos ‹_›] at hr
    · rw [if_neg ‹_›] at hr
      have hne : r ≠ s := by
        rintro rfl
        rw [lookup_eq_none_iff.2 hnew] at hr
        cases hr
      rw [List.lookup_cons, beq_false_of_ne hne]
      exact hr

structure Distinct (t : StringTable) : Prop where
  sound : t.Sound
  texts : t.texts.Nodup

theorem distinct_empty : Distinct empty := ⟨sound_empty, .nil⟩

theorem Distinct.insert? (ht : t.Distinct) (h : t.insert? s = some (offset, t')) : t'.Distinct := by
  refine ⟨(insert?_sound ht.sound h).1, ?_⟩
  rcases insert?_cases h with ⟨-, rfl⟩ | ⟨-, hnew, rfl⟩
  · exact ht.texts
  · exact List.nodup_cons.2 ⟨hnew, ht.texts⟩

theorem holds_of_offset? (ht : t.Sound) (h : t.offset? s = some offset) :
    Holds t.toBytes offset s := by
  rw [offset?] at h
  rw [Holds]
  split
  · rw [if_pos ‹_›] at h
    exact (Option.some.inj h).symm
  · rw [if_neg ‹_›] at h
    have hholds := ht.holds _ (mem_of_lookup h)
    rwa [Holds, if_neg ‹_›] at hholds

theorem shown_injective {r : String} (h : shown r = shown s) : r = s := by
  rw [← getD_shown r, h, getD_shown]

/-- Different strings have different offsets. -/
theorem eq_of_offset? {r : String} (ht : t.Sound) (hfits : t.toBytes.length < UInt32.size)
    (hr : t.offset? r = some offset) (hs : t.offset? s = some offset) : r = s := by
  have hread := read?_of_holds (holds_of_offset? ht hr) hfits
  rw [read?_of_holds (holds_of_offset? ht hs) hfits] at hread
  exact shown_injective hread.symm

/-! ## Sizes -/

theorem Sound.size_eq_sum (ht : t.Sound) :
    t.size = (t.texts.map fun s => (encodeText s).length).sum := by
  rw [ht.size_eq, toBytes, List.length_flatMap, List.map_reverse, List.sum_reverse, texts,
    List.map_map]
  rfl

/-- A table that has all strings of another one, and one more, is larger by that one at least. -/
theorem size_add_le (ht : t.Distinct) (hu : u.Sound) (hsub : ∀ r ∈ t.texts, r ∈ u.texts)
    (hs : s ∈ u.texts) (hnew : s ∉ t.texts) : t.size + (encodeText s).length ≤ u.size := by
  have hsubperm : (s :: t.texts).Subperm u.texts := by
    refine (List.nodup_cons.2 ⟨hnew, ht.texts⟩).subperm ?_
    intro r hr
    rcases List.mem_cons.1 hr with rfl | hr
    · exact hs
    · exact hsub r hr
  obtain ⟨l, hperm, hsublist⟩ := hsubperm
  have hle : (l.map fun s => (encodeText s).length).sum ≤
      (u.texts.map fun s => (encodeText s).length).sum :=
    (hsublist.map _).sum_le_sum fun _ _ => Nat.zero_le _
  rw [(hperm.map _).sum_eq, List.map_cons, List.sum_cons, ← ht.sound.size_eq_sum,
    ← hu.size_eq_sum] at hle
  omega

theorem length_encodeText_pos (s : String) : 0 < (encodeText s).length :=
  List.length_pos_of_ne_nil (encodeText_ne_nil s)

end Postmortem.StringTable
