import Postmortem.Bisect

/-!
# What bisection finds

In a table whose entries above the goal all stand behind the others, bisection ends at the last
entry that is not above the goal, and at none exactly if all of them are above it.  In a table in any
order it may end at another entry, but not at one above the goal.
-/

set_option autoImplicit false

namespace Postmortem.Bisect

def Ordered (size : Nat) (order : Nat → Ordering) : Prop :=
  ∀ i j, i ≤ j → j < size → order i = .gt → order j = .gt

structure IsFloor (size : Nat) (order : Nat → Ordering) (i : Nat) : Prop where
  lt : i < size
  not_above : order i ≠ .gt
  above : ∀ j, i < j → j < size → order j = .gt

theorem IsFloor.unique {size : Nat} {order : Nat → Ordering} {i j : Nat}
    (hi : IsFloor size order i) (hj : IsFloor size order j) : i = j := by
  rcases Nat.lt_trichotomy i j with h | h | h
  · exact absurd (hi.above j h hj.lt) hj.not_above
  · exact h
  · exact absurd (hj.above i h hi.lt) hi.not_above

/-- Halving moves up only to an entry that is not above the goal. -/
theorem narrow_low {n : Nat} (order : Nat → Ordering) (size base : Nat) (pos : 0 < size)
    (bound : base + size ≤ n) (low : order base ≠ .gt ∨ base = 0) :
    narrow order size base < n ∧
      (order (narrow order size base) ≠ .gt ∨ narrow order size base = 0) := by
  induction size using Nat.strongRecOn generalizing base with
  | ind size ih =>
      rw [narrow]
      by_cases hsize : size ≤ 1
      · rw [if_pos hsize]
        exact ⟨by omega, low⟩
      · rw [if_neg hsize]
        by_cases hmid : order (base + size / 2) = .gt
        · rw [if_pos hmid]
          exact ih (size - size / 2) (by omega) base (by omega) (by omega) low
        · rw [if_neg hmid]
          exact ih (size - size / 2) (by omega) (base + size / 2) (by omega) (by omega)
            (.inl hmid)

/-- Halving keeps the last entry that is not above the goal among those that are left. -/
theorem narrow_high {n : Nat} {order : Nat → Ordering} (ordered : Ordered n order)
    (size base : Nat) (pos : 0 < size)
    (high : ∀ j, base + size ≤ j → j < n → order j = .gt) :
    ∀ j, narrow order size base < j → j < n → order j = .gt := by
  induction size using Nat.strongRecOn generalizing base with
  | ind size ih =>
      rw [narrow]
      by_cases hsize : size ≤ 1
      · rw [if_pos hsize]
        exact fun j hj => high j (by omega)
      · rw [if_neg hsize]
        by_cases hmid : order (base + size / 2) = .gt
        · rw [if_pos hmid]
          apply ih (size - size / 2) (by omega) base (by omega)
          intro j hj hjn
          exact ordered (base + size / 2) j (by omega) hjn hmid
        · rw [if_neg hmid]
          apply ih (size - size / 2) (by omega) (base + size / 2) (by omega)
          intro j hj hjn
          exact high j (by omega) hjn

/-- In a table in any order, a search ends at an entry that is not above the goal, or behind it, or
else at the front.  If those above the goal stand behind the others, all entries further on are. -/
theorem search_outcomes (n : Nat) (order : Nat → Ordering) :
    (search n order = .missing 0 ∧ (Ordered n order → ∀ j, j < n → order j = .gt)) ∨
      ∃ i, i < n ∧ order i ≠ .gt ∧
        (Ordered n order → ∀ j, i < j → j < n → order j = .gt) ∧
        search n order = if order i = .eq then .found i else .missing (i + 1) := by
  rw [search]
  by_cases hn : n = 0
  · exact .inl ⟨if_pos hn, fun _ j hj => by omega⟩
  · have hbound : 0 + n ≤ n := by omega
    obtain ⟨hlt, hlow⟩ := narrow_low order n 0 (by omega) hbound (.inr rfl)
    have hhigh (ordered : Ordered n order) :=
      narrow_high ordered n 0 (by omega) (fun j hj hjn => by omega)
    rw [if_neg hn]
    generalize narrow order n 0 = i at hlt hlow hhigh ⊢
    cases hi : order i with
    | gt =>
        have hzero : i = 0 := hlow.resolve_left (by simp [hi])
        subst hzero
        exact .inl ⟨by simp [hi], fun ordered j hj => ordered 0 j (by omega) hj hi⟩
    | eq => exact .inr ⟨i, hlt, by simp [hi], hhigh, by simp [hi]⟩
    | lt => exact .inr ⟨i, hlt, by simp [hi], hhigh, by simp [hi]⟩

/-- Where a search ends, in terms of the last entry that is not above the goal. -/
theorem search_cases {n : Nat} {order : Nat → Ordering} (ordered : Ordered n order) :
    (search n order = .missing 0 ∧ ∀ j, j < n → order j = .gt) ∨
      ∃ i, IsFloor n order i ∧
        search n order = if order i = .eq then .found i else .missing (i + 1) := by
  rcases search_outcomes n order with ⟨hsearch, hall⟩ | ⟨i, hlt, hi, hhigh, hsearch⟩
  · exact .inl ⟨hsearch, hall ordered⟩
  · exact .inr ⟨i, ⟨hlt, hi, hhigh ordered⟩, hsearch⟩

/-- A search ends at the last entry that is not above the goal, or behind it. -/
theorem search_of_isFloor {n : Nat} {order : Nat → Ordering} {i : Nat} (ordered : Ordered n order)
    (h : IsFloor n order i) :
    search n order = if order i = .eq then .found i else .missing (i + 1) := by
  rcases search_cases ordered with ⟨-, hall⟩ | ⟨k, hk, hsearch⟩
  · exact absurd (hall i h.lt) h.not_above
  · rw [hsearch, h.unique hk]

theorem search_of_above {n : Nat} {order : Nat → Ordering} (h : ∀ j, j < n → order j = .gt) :
    search n order = .missing 0 := by
  rcases search_cases (fun _ j _ hj _ => h j hj) with ⟨hsearch, -⟩ | ⟨k, hk, -⟩
  · exact hsearch
  · exact absurd (h k hk.lt) hk.not_above

theorem floor?_eq_some {n : Nat} {order : Nat → Ordering} {i : Nat} (ordered : Ordered n order)
    (h : IsFloor n order i) : floor? n order = some i := by
  rw [floor?, search_of_isFloor ordered h]
  by_cases heq : order i = .eq
  · simp [heq]
  · simp [heq]

theorem floor?_eq_none {n : Nat} {order : Nat → Ordering} (h : ∀ j, j < n → order j = .gt) :
    floor? n order = none := by
  rw [floor?, search_of_above h]

theorem not_above_of_floor? {n : Nat} {order : Nat → Ordering} {i : Nat}
    (h : floor? n order = some i) : i < n ∧ order i ≠ .gt := by
  rw [floor?] at h
  rcases search_outcomes n order with ⟨hsearch, -⟩ | ⟨k, hlt, hk, -, hsearch⟩
  · rw [hsearch] at h
    cases h
  · have hki : k = i := by
      rw [hsearch] at h
      by_cases heq : order k = .eq
      · simpa [heq] using h
      · simpa [heq] using h
    exact hki ▸ ⟨hlt, hk⟩

theorem holds_of_partitionPoint {n : Nat} {p : Nat → Bool} {i : Nat}
    (h : partitionPoint n p = i + 1) : i < n ∧ p i = true := by
  rw [partitionPoint] at h
  rcases search_outcomes n (fun i => if p i then .lt else .gt) with
    ⟨hsearch, -⟩ | ⟨k, hlt, hk, -, hsearch⟩
  · rw [hsearch] at h
    cases h
  · have hpk : p k = true := by simpa using hk
    rw [hsearch, hpk] at h
    cases h
    exact ⟨hlt, hpk⟩

/-- A partition point is a floor, counted from one. -/
theorem partitionPoint_eq_add_one {n : Nat} {order : Nat → Ordering} {p : Nat → Bool} {i : Nat}
    (ordered : Ordered n order) (hp : ∀ j, j < n → (p j = false ↔ order j = .gt))
    (h : IsFloor n order i) : partitionPoint n p = i + 1 := by
  have hgt (j : Nat) (hj : j < n) : (if p j then Ordering.lt else .gt) = .gt ↔ order j = .gt := by
    rw [← hp j hj]
    cases p j <;> simp
  have hordered : Ordered n (fun j => if p j then .lt else .gt) := by
    intro j k hjk hk hj
    rw [hgt k hk]
    exact ordered j k hjk hk ((hgt j (by omega)).1 hj)
  have hfloor : IsFloor n (fun j => if p j then .lt else .gt) i := by
    refine ⟨h.lt, ?_, fun j hij hj => (hgt j hj).2 (h.above j hij hj)⟩
    rw [Ne, hgt i h.lt]
    exact h.not_above
  have hne : (if p i then Ordering.lt else .gt) ≠ .eq := by
    split <;> decide
  rw [partitionPoint, search_of_isFloor hordered hfloor, if_neg hne]

theorem partitionPoint_eq_zero {n : Nat} {p : Nat → Bool} (h : ∀ j, j < n → p j = false) :
    partitionPoint n p = 0 := by
  have hall : ∀ j, j < n → (if p j then Ordering.lt else .gt) = .gt := by
    intro j hj
    simp [h j hj]
  rw [partitionPoint, search_of_above hall]

/-! ## Tables sorted by a key -/

section Table

variable {α κ : Type} [Ord κ] {key : α → κ}

def Compares (key : α → κ) (table : List α) (goal : κ) (order : Nat → Ordering) : Prop :=
  ∀ i x, table[i]? = some x → order i = compare (key x) goal

abbrev byKey [OfNat κ 0] (key : α → κ) (table : List α) (goal : κ) (i : Nat) : Ordering :=
  compare ((table[i]?.map key).getD 0) goal

theorem compares_byKey [OfNat κ 0] (table : List α) (goal : κ) :
    Compares key table goal (byKey key table goal) := by
  intro i x hi
  simp only [byKey, hi, Option.map_some, Option.getD_some]

variable [LE κ] [LT κ] [Std.LawfulOrderLT κ] [Std.LawfulOrderOrd κ]
  {table : List α} {goal : κ} {order : Nat → Ordering}

theorem Compares.eq_gt_iff (h : Compares key table goal order) {i : Nat} {x : α}
    (hi : table[i]? = some x) : order i = .gt ↔ goal < key x := by
  rw [h i x hi]
  exact Std.compare_eq_gt

theorem Compares.above (h : Compares key table goal order) (hall : ∀ x ∈ table, goal < key x)
    (j : Nat) (hj : j < table.length) : order j = .gt :=
  (h.eq_gt_iff (List.getElem?_eq_getElem hj)).2 (hall _ (List.getElem_mem hj))

theorem Compares.isFloor {before after : List α} {x : α}
    (h : Compares key (before ++ x :: after) goal order) (hx : key x ≤ goal)
    (hafter : ∀ y ∈ after, goal < key y) :
    IsFloor (before ++ x :: after).length order before.length := by
  refine ⟨by simp, ?_, fun j hj hlt => ?_⟩
  · rw [Ne, h.eq_gt_iff (x := x) (by simp)]
    exact Std.not_lt.2 hx
  · obtain ⟨k, rfl⟩ : ∃ k, j = before.length + 1 + k := ⟨j - before.length - 1, by omega⟩
    have hk : k < after.length := by
      simp only [List.length_append, List.length_cons] at hlt
      omega
    rw [h.eq_gt_iff (x := after[k])]
    · exact hafter _ (List.getElem_mem hk)
    · rw [List.getElem?_append_right (by omega)]
      have hidx : before.length + 1 + k - before.length = k + 1 := by omega
      rw [hidx, List.getElem?_cons_succ, List.getElem?_eq_getElem hk]

theorem le_eq_false_iff [OfNat κ 0] [DecidableLE κ] {j : Nat} (hj : j < table.length) :
    (((table[j]?.map key).getD 0 ≤ goal : Bool)) = false ↔ byKey key table goal j = .gt := by
  rw [(compares_byKey table goal).eq_gt_iff (List.getElem?_eq_getElem hj),
    List.getElem?_eq_getElem hj]
  simp [Std.not_le]

theorem exists_of_floor?_byKey [OfNat κ 0] {i : Nat}
    (h : floor? table.length (byKey key table goal) = some i) :
    ∃ x, table[i]? = some x ∧ key x ≤ goal := by
  obtain ⟨hi, hle⟩ := not_above_of_floor? h
  refine ⟨table[i], List.getElem?_eq_getElem hi, ?_⟩
  rw [Ne, (compares_byKey table goal).eq_gt_iff (List.getElem?_eq_getElem hi)] at hle
  exact Std.not_lt.1 hle

omit [Ord κ] [LT κ] [Std.LawfulOrderLT κ] [Std.LawfulOrderOrd κ] in
theorem exists_of_partitionPoint_byKey [OfNat κ 0] [DecidableLE κ] {i : Nat}
    (h : partitionPoint table.length
      (fun i => ((table[i]?.map key).getD 0 ≤ goal : Bool)) = i + 1) :
    ∃ x, table[i]? = some x ∧ key x ≤ goal := by
  obtain ⟨hi, hle⟩ := holds_of_partitionPoint h
  refine ⟨table[i], List.getElem?_eq_getElem hi, ?_⟩
  simpa [List.getElem?_eq_getElem hi] using hle

theorem floor?_byKey_eq_none [OfNat κ 0] (h : ∀ x ∈ table, goal < key x) :
    floor? table.length (byKey key table goal) = none :=
  floor?_eq_none ((compares_byKey table goal).above h)

theorem partitionPoint_byKey_eq_zero [OfNat κ 0] [DecidableLE κ]
    (h : ∀ x ∈ table, goal < key x) :
    partitionPoint table.length
      (fun i => ((table[i]?.map key).getD 0 ≤ goal : Bool)) = 0 := by
  apply partitionPoint_eq_zero
  intro j hj
  rw [le_eq_false_iff hj]
  exact (compares_byKey table goal).above h j hj

omit [Ord κ] [Std.LawfulOrderOrd κ] in
/-- In a sorted table, an entry is determined by its key. -/
theorem eq_of_key_eq (sorted : table.Pairwise fun x y => key x < key y) {x y : α}
    (hx : x ∈ table) (hy : y ∈ table) (h : key x = key y) : x = y := by
  obtain ⟨i, hi, rfl⟩ := List.getElem_of_mem hx
  obtain ⟨j, hj, rfl⟩ := List.getElem_of_mem hy
  have hlt := List.pairwise_iff_getElem.1 sorted
  rcases Nat.lt_trichotomy i j with hij | rfl | hji
  · exact absurd (h ▸ hlt i j hi hj hij) Std.lt_irrefl
  · rfl
  · exact absurd (h ▸ hlt j i hj hi hji) Std.lt_irrefl

variable [Std.IsLinearOrder κ]

omit [Ord κ] [Std.LawfulOrderOrd κ] in
theorem byKey_cases (key : α → κ) (table : List α) (goal : κ) :
    (∀ x ∈ table, goal < key x) ∨
      ∃ before x after, table = before ++ x :: after ∧ key x ≤ goal ∧
        ∀ y ∈ after, goal < key y := by
  induction table with
  | nil => exact .inl (by simp)
  | cons x rest ih =>
      rcases ih with hrest | ⟨before, y, after, rfl, hy⟩
      · by_cases hx : key x ≤ goal
        · exact .inr ⟨[], x, rest, rfl, hx, hrest⟩
        · refine .inl fun y hy => ?_
          rcases List.mem_cons.1 hy with rfl | hy
          · exact Std.not_le.1 hx
          · exact hrest y hy
      · exact .inr ⟨x :: before, y, after, rfl, hy⟩

omit [Ord κ] [Std.LawfulOrderOrd κ] in
/-- Each goal splits a sorted table. -/
theorem exists_split (sorted : table.Pairwise fun x y => key x < key y) (goal : κ) :
    ∃ before after, table = before ++ after ∧ (∀ x ∈ before, key x ≤ goal) ∧
      ∀ y ∈ after, goal < key y := by
  rcases byKey_cases key table goal with habove | ⟨before, x, after, rfl, hx, hafter⟩
  · exact ⟨[], table, rfl, by simp, habove⟩
  · refine ⟨before ++ [x], after, by simp, fun y hy => ?_, hafter⟩
    rcases List.mem_append.1 hy with hy | hy
    · have hlt := (List.pairwise_append.1 sorted).2.2 y hy x (List.mem_cons_self ..)
      exact Std.le_of_lt (Std.lt_of_lt_of_le hlt hx)
    · rwa [List.mem_singleton.1 hy]

theorem Compares.ordered (h : Compares key table goal order)
    (sorted : table.Pairwise fun x y => key x < key y) : Ordered table.length order := by
  intro i j hij hj hgt
  rw [h.eq_gt_iff (List.getElem?_eq_getElem (by omega))] at hgt
  rw [h.eq_gt_iff (List.getElem?_eq_getElem hj)]
  rcases Nat.lt_or_eq_of_le hij with hlt | rfl
  · exact Std.lt_trans hgt (List.pairwise_iff_getElem.1 sorted i j (by omega) hj hlt)
  · exact hgt

/-- A search ends behind the entries that are not above the goal, or at the last of them if that
equals it. -/
theorem Compares.search {before after : List α} (h : Compares key (before ++ after) goal order)
    (sorted : (before ++ after).Pairwise fun x y => key x < key y)
    (hbefore : ∀ x ∈ before, key x ≤ goal) (hafter : ∀ y ∈ after, goal < key y) :
    (∃ front x, before = front ++ [x] ∧ key x = goal ∧
        search (before ++ after).length order = .found front.length) ∨
      (∀ x ∈ before, key x < goal) ∧
        search (before ++ after).length order = .missing before.length := by
  rcases List.eq_nil_or_concat before with rfl | ⟨front, x, rfl⟩
  · exact .inr ⟨by simp, search_of_above (h.above hafter)⟩
  · have hle := hbefore x (by simp)
    have hordered := h.ordered sorted
    rw [List.concat_eq_append, List.append_assoc, List.singleton_append] at h sorted hordered ⊢
    rw [search_of_isFloor hordered (h.isFloor hle hafter), h front.length x (by simp)]
    by_cases heq : key x = goal
    · rw [if_pos (Std.compare_eq_iff_eq.2 heq)]
      exact .inl ⟨front, x, rfl, heq, rfl⟩
    · rw [if_neg (mt Std.compare_eq_iff_eq.1 heq), List.length_append, List.length_singleton]
      refine .inr ⟨fun y hy => ?_, rfl⟩
      have hlt : key x < goal := Std.lt_of_le_of_ne hle heq
      rcases List.mem_append.1 hy with hy | hy
      · exact Std.lt_trans ((List.pairwise_append.1 sorted).2.2 y hy x (List.mem_cons_self ..)) hlt
      · rwa [List.mem_singleton.1 hy]

variable [OfNat κ 0]

/-- Bisection finds the entry behind which all keys are above the goal. -/
theorem floor?_byKey {before after : List α} {x : α}
    (sorted : (before ++ x :: after).Pairwise fun x y => key x < key y) (hx : key x ≤ goal)
    (hafter : ∀ y ∈ after, goal < key y) :
    floor? (before ++ x :: after).length (byKey key (before ++ x :: after) goal) =
      some before.length :=
  floor?_eq_some ((compares_byKey _ goal).ordered sorted)
    ((compares_byKey _ goal).isFloor hx hafter)

theorem partitionPoint_byKey [DecidableLE κ] {before after : List α} {x : α}
    (sorted : (before ++ x :: after).Pairwise fun x y => key x < key y) (hx : key x ≤ goal)
    (hafter : ∀ y ∈ after, goal < key y) :
    partitionPoint (before ++ x :: after).length
        (fun i => (((before ++ x :: after)[i]?.map key).getD 0 ≤ goal : Bool)) =
      before.length + 1 :=
  partitionPoint_eq_add_one ((compares_byKey _ goal).ordered sorted)
    (fun _ hj => le_eq_false_iff hj) ((compares_byKey _ goal).isFloor hx hafter)

end Table

end Postmortem.Bisect
