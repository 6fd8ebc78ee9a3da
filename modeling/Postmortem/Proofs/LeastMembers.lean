import Postmortem.Proofs.RelatedLists

/-!
# Least members

The least of the members of a list with a property, and the first of equal ones.  It stays the same
when members without the property are left out, and when all members are replaced by others that
compare alike.
-/

set_option autoImplicit false

namespace Postmortem

variable {α β : Type}

/-- Whether a member of a list is the least of those with a property, and the first of equal ones. -/
def IsFirstLeast (cmp : α → α → Ordering) (p : α → Prop) (l : List α) (x : α) : Prop :=
  ∃ before after, l = before ++ x :: after ∧ p x ∧
    (∀ y ∈ before, p y → cmp x y = .lt) ∧ ∀ y ∈ after, p y → (cmp x y).isLE

namespace IsFirstLeast

variable {cmp : α → α → Ordering} {p q : α → Prop} {l : List α} {x : α}

theorem mem (h : IsFirstLeast cmp p l x) : x ∈ l := by
  obtain ⟨before, after, rfl, -⟩ := h
  simp

theorem holds (h : IsFirstLeast cmp p l x) : p x := by
  obtain ⟨-, -, -, hp, -⟩ := h
  exact hp

theorem congr (h : IsFirstLeast cmp p l x) (hpq : ∀ y ∈ l, p y ↔ q y) :
    IsFirstLeast cmp q l x := by
  obtain ⟨before, after, rfl, hp, hbefore, hafter⟩ := h
  refine ⟨before, after, rfl, (hpq x (by simp)).1 hp, ?_, ?_⟩
  · intro y hy hq
    exact hbefore y hy ((hpq y (by simp [hy])).2 hq)
  · intro y hy hq
    exact hafter y hy ((hpq y (by simp [hy])).2 hq)

theorem of_filter {kept : α → Bool} (h : IsFirstLeast cmp p (l.filter kept) x)
    (hkept : ∀ y ∈ l, p y → kept y = true) : IsFirstLeast cmp p l x := by
  obtain ⟨before, after, hsplit, hp, hbefore, hafter⟩ := h
  obtain ⟨first, rest, rfl, rfl, hrest⟩ := List.filter_eq_append_iff.1 hsplit
  obtain ⟨skipped, last, rfl, hskipped, -, rfl⟩ := List.filter_eq_cons_iff.1 hrest
  refine ⟨first ++ skipped, last, by simp, hp, ?_, ?_⟩
  · intro y hy hpy
    rcases List.mem_append.1 hy with hy | hy
    · have hk := hkept y (by simp [hy]) hpy
      exact hbefore y (List.mem_filter.2 ⟨hy, hk⟩) hpy
    · exact absurd (hkept y (by simp [hy]) hpy) (hskipped y hy)
  · intro y hy hpy
    have hk := hkept y (by simp [hy]) hpy
    exact hafter y (List.mem_filter.2 ⟨hy, hk⟩) hpy

/-- Members may be replaced by others that compare alike. -/
theorem replace {R : α → β → Prop} {cmp' : β → β → Ordering} {q : β → Prop} {m : List β}
    (h : IsFirstLeast cmp p l x) (hl : List.Forall₂ R l m)
    (hcmp : ∀ x y x' y', R x y → R x' y' → cmp x x' = cmp' y y')
    (hpq : ∀ x y, R x y → (p x ↔ q y)) : ∃ y, R x y ∧ IsFirstLeast cmp' q m y := by
  obtain ⟨before, after, rfl, hp, hbefore, hafter⟩ := h
  obtain ⟨before', rest', rfl, hb, hr⟩ := forall₂_split hl
  cases hr with
  | @cons _ y _ after' hxy ha =>
      refine ⟨y, hxy, before', after', rfl, (hpq _ _ hxy).1 hp, ?_, ?_⟩
      · intro z' hz' hq
        obtain ⟨z, hz, hzz'⟩ := exists_left hb hz'
        rw [← hcmp _ _ _ _ hxy hzz']
        exact hbefore z hz ((hpq _ _ hzz').2 hq)
      · intro z' hz' hq
        obtain ⟨z, hz, hzz'⟩ := exists_left ha hz'
        rw [← hcmp _ _ _ _ hxy hzz']
        exact hafter z hz ((hpq _ _ hzz').2 hq)

theorem cons {y : α} (h : IsFirstLeast cmp p l x) (hy : p y → cmp x y = .lt) :
    IsFirstLeast cmp p (y :: l) x := by
  obtain ⟨before, after, rfl, hp, hbefore, hafter⟩ := h
  refine ⟨y :: before, after, rfl, hp, ?_, hafter⟩
  intro z hz hpz
  rcases List.mem_cons.1 hz with rfl | hz
  · exact hy hpz
  · exact hbefore z hz hpz

theorem of_only (hl : ∀ y ∈ l, ¬ p y) (hx : p x) : IsFirstLeast cmp p (x :: l) x :=
  ⟨[], l, rfl, hx, by simp, fun y hy hpy => absurd hpy (hl y hy)⟩

theorem concat {y : α} (h : IsFirstLeast cmp p l x) (hy : p y → (cmp x y).isLE) :
    IsFirstLeast cmp p (l ++ [y]) x := by
  obtain ⟨before, after, rfl, hp, hbefore, hafter⟩ := h
  refine ⟨before, after ++ [y], by simp, hp, hbefore, ?_⟩
  intro z hz hpz
  rcases List.mem_append.1 hz with hz | hz
  · exact hafter z hz hpz
  · rw [List.mem_singleton] at hz
    subst hz
    exact hy hpz

theorem concat_self (hl : ∀ y ∈ l, p y → cmp x y = .lt) (hx : p x) :
    IsFirstLeast cmp p (l ++ [x]) x :=
  ⟨l, [], rfl, hx, hl, by simp⟩

theorem isLE_of_mem {y : α} (h : IsFirstLeast cmp p l x) (hy : y ∈ l) (hpy : p y)
    (hrefl : (cmp x x).isLE) : (cmp x y).isLE := by
  obtain ⟨before, after, rfl, -, hbefore, hafter⟩ := h
  rcases List.mem_append.1 hy with hy | hy
  · rw [hbefore y hy hpy]
    rfl
  · rcases List.mem_cons.1 hy with rfl | hy
    · exact hrefl
    · exact hafter y hy hpy

/-- A member that is the least of those with one property, and another one that is the least of
those with a second property, are the same if both have both. -/
theorem eq_of_both [Std.OrientedCmp cmp] {y : α} (h : IsFirstLeast cmp p l x)
    (h' : IsFirstLeast cmp q l y) (hx : q x) (hy : p y) : x = y := by
  have conflict (hlt : cmp x y = .lt) (hle : (cmp y x).isLE) : x = y := by
    rw [Std.OrientedCmp.gt_of_lt hlt] at hle
    cases hle
  have conflict' (hlt : cmp y x = .lt) (hle : (cmp x y).isLE) : x = y := by
    rw [Std.OrientedCmp.gt_of_lt hlt] at hle
    cases hle
  obtain ⟨before, after, rfl, -, hbefore, hafter⟩ := h
  obtain ⟨before', after', heq, -, hbefore', hafter'⟩ := h'
  rcases List.append_eq_append_iff.1 heq with ⟨mid, rfl, hmid⟩ | ⟨mid, rfl, hmid⟩
  · cases mid with
    | nil =>
        rw [List.nil_append] at hmid
        exact (List.cons.inj hmid).1
    | cons z mid =>
        -- the first one stands in front of the second one
        obtain ⟨rfl, rfl⟩ := List.cons.inj hmid
        exact conflict' (hbefore' x (by simp) hx) (hafter y (by simp) hy)
  · cases mid with
    | nil =>
        rw [List.nil_append] at hmid
        exact (List.cons.inj hmid).1.symm
    | cons z mid =>
        obtain ⟨rfl, rfl⟩ := List.cons.inj hmid
        exact conflict (hbefore y (by simp) hy) (hafter' x (by simp) hx)

end IsFirstLeast

section Sorted

variable {cmp : α → α → Ordering} [Std.TransCmp cmp]

theorem isLE_trans (x y z : α) (h₁ : (cmp x y).isLE = true) (h₂ : (cmp y z).isLE = true) :
    (cmp x z).isLE = true :=
  Std.TransCmp.isLE_trans h₁ h₂

theorem isLE_total (x y : α) : ((cmp x y).isLE || (cmp y x).isLE) = true := by
  have hswap : cmp y x = (cmp x y).swap := Std.OrientedCmp.eq_swap
  rw [hswap]
  cases cmp x y <;> rfl

/-- The first member of a sorted list with a property is the least one of the unsorted list. -/
theorem isFirstLeast_of_find?_mergeSort {p : α → Bool} {l : List α} {b : α}
    (h : (l.mergeSort fun x y => (cmp x y).isLE).find? p = some b) :
    IsFirstLeast cmp (fun x => p x = true) l b := by
  induction l generalizing b with
  | nil => simp at h
  | cons x l ih =>
      obtain ⟨l₁, l₂, hcons, hsort, hl₁⟩ := @List.mergeSort_cons α
        (fun x y => (cmp x y).isLE) isLE_trans isLE_total x l
      have hsorted := @List.pairwise_mergeSort α (fun x y => (cmp x y).isLE) isLE_trans
        isLE_total (x :: l)
      rw [hcons] at hsorted h
      rw [List.find?_append] at h
      rw [hsort, List.find?_append] at ih
      cases hfirst : l₁.find? p with
      | some c =>
          rw [hfirst, Option.some_or, Option.some.injEq] at h
          subst h
          refine (ih (by rw [hfirst, Option.some_or])).cons fun _ => ?_
          have hgt := hl₁ _ (List.mem_of_find?_eq_some hfirst)
          apply Std.OrientedCmp.lt_of_gt
          cases hcmp : cmp x c <;> simp_all
      | none =>
          rw [hfirst, Option.none_or] at h ih
          rw [List.find?_cons] at h
          split at h
          · rename_i hpx
            simp only [Option.some.injEq] at h
            subst h
            refine ⟨[], l, rfl, hpx, by simp, ?_⟩
            intro d hd hpd
            have hd' : d ∈ l₁ ++ l₂ := hsort ▸ List.mem_mergeSort.2 hd
            rcases List.mem_append.1 hd' with hd' | hd'
            · exact absurd hpd (List.find?_eq_none.1 hfirst d hd')
            · exact (List.pairwise_cons.1 (List.pairwise_append.1 hsorted).2.1).1 d hd'
          · rename_i hpx
            exact (ih h).cons fun hp => absurd hp (by simp [hpx])

end Sorted

/-! ## Longest chains -/

/-- The longer one of two chains comes first. -/
def longerFirst (chain other : List α) : Ordering := compare other.length chain.length

theorem longerFirst_eq_lt {chain other : List α} :
    longerFirst chain other = .lt ↔ other.length < chain.length :=
  Nat.compare_eq_lt

theorem longerFirst_isLE {chain other : List α} :
    (longerFirst chain other).isLE ↔ other.length ≤ chain.length :=
  Nat.isLE_compare

end Postmortem
