/-!
# Records in effect

The record in effect at an address: of the records that lie in some range, one for each address, the
last one that does not start above it.  Among sorted records, those that do not start above an
address come first.
-/

set_option autoImplicit false

namespace Postmortem

section

variable {α β : Type}

/-- The items without those that share the address of an earlier one. -/
def firsts (address : α → UInt64) : List α → List α
  | [] => []
  | x :: rest => x :: (firsts address rest).filter (address · ≠ address x)

/-- Of the items that lie between two addresses, the last one up to an address, where of several at
one place only the first counts. -/
def inEffect? (address : α → UInt64) (start stop a : UInt64) (items : List α) : Option α :=
  let inside := items.filter fun x => start ≤ address x && address x < stop
  let sorted := inside.mergeSort fun x y => address x ≤ address y
  ((firsts address sorted).filter (address · ≤ a)).getLast?

theorem firsts_sublist (address : α → UInt64) (items : List α) :
    (firsts address items).Sublist items := by
  induction items with
  | nil => exact .slnil
  | cons x rest ih => exact .cons_cons x (List.filter_sublist.trans ih)

theorem exists_mem_firsts {address : α → UInt64} {items : List α} {x : α} (hx : x ∈ items) :
    ∃ y ∈ firsts address items, address y = address x := by
  induction items with
  | nil => cases hx
  | cons first rest ih =>
      by_cases heq : address first = address x
      · exact ⟨first, List.mem_cons_self .., heq⟩
      · have hrest : x ∈ rest := (List.mem_cons.1 hx).resolve_left fun h => heq (h ▸ rfl)
        obtain ⟨y, hy, hyx⟩ := ih hrest
        refine ⟨y, List.mem_cons_of_mem _ (List.mem_filter.2 ⟨hy, ?_⟩), hyx⟩
        rw [decide_eq_true_eq, hyx]
        exact Ne.symm heq

theorem firsts_cons_of_ne {address : α → UInt64} {items : List α} {x : α}
    (h : ∀ y ∈ items, address y ≠ address x) :
    firsts address (x :: items) = x :: firsts address items := by
  rw [firsts, List.filter_eq_self.2]
  intro y hy
  exact decide_eq_true (h y ((firsts_sublist address items).subset hy))

theorem firsts_cons_cons_of_eq {address : α → UInt64} {items : List α} {x y : α}
    (h : address x = address y) :
    firsts address (x :: y :: items) = firsts address (x :: items) := by
  rw [firsts, firsts, firsts, List.filter_cons_of_neg (by simp [h]), List.filter_filter, h]
  simp only [Bool.and_self]

theorem firsts_map {address : β → UInt64} {address' : α → UInt64} {f : α → β} {items : List α}
    (h : ∀ x ∈ items, address (f x) = address' x) :
    firsts address (items.map f) = (firsts address' items).map f := by
  induction items with
  | nil => rfl
  | cons x rest ih =>
      have hrest : ∀ y ∈ rest, address (f y) = address' y :=
        fun y hy => h y (List.mem_cons_of_mem _ hy)
      rw [List.map_cons, firsts, ih hrest, List.filter_map, firsts, List.map_cons]
      refine congrArg (f x :: List.map f ·) (List.filter_congr fun y hy => ?_)
      rw [Function.comp, hrest y ((firsts_sublist address' rest).subset hy),
        h x (List.mem_cons_self ..)]

/-- The item in effect among images is the image of the item in effect. -/
theorem inEffect?_map {address : β → UInt64} {address' : α → UInt64} {f : α → β}
    {items : List α} (start stop a : UInt64) (h : ∀ x ∈ items, address (f x) = address' x) :
    inEffect? address start stop a (items.map f) =
      (inEffect? address' start stop a items).map f := by
  have hinside : items.filter ((fun y => start ≤ address y && address y < stop) ∘ f) =
      items.filter fun x => start ≤ address' x && address' x < stop :=
    List.filter_congr fun x hx => by rw [Function.comp, h x hx]
  have hmem {x : α} (hx : x ∈ (items.filter fun x =>
      start ≤ address' x && address' x < stop).mergeSort fun x y => address' x ≤ address' y) :
      x ∈ items := (List.mem_filter.1 (List.mem_mergeSort.1 hx)).1
  rw [inEffect?, inEffect?, List.filter_map, hinside,
    ← List.map_mergeSort (r := fun x y => address' x ≤ address' y), firsts_map, List.filter_map,
    List.getLast?_map]
  · refine congrArg (Option.map f <| List.getLast? ·) (List.filter_congr fun x hx => ?_)
    rw [Function.comp, h x (hmem ((firsts_sublist _ _).subset hx))]
  · exact fun x hx => h x (hmem hx)
  · intro x hx y hy
    rw [h x (List.mem_filter.1 hx).1, h y (List.mem_filter.1 hy).1]

theorem inEffect?_spec {address : α → UInt64} {start stop a : UInt64} {items : List α} {x : α}
    (h : inEffect? address start stop a items = some x) :
    x ∈ items ∧ start ≤ address x ∧ address x < stop ∧ address x ≤ a := by
  obtain ⟨hfirst, hle⟩ := List.mem_filter.1 (List.mem_of_getLast? h)
  obtain ⟨hx, hinside⟩ :=
    List.mem_filter.1 (List.mem_mergeSort.1 ((firsts_sublist _ _).subset hfirst))
  rw [Bool.and_eq_true, decide_eq_true_eq, decide_eq_true_eq] at hinside
  exact ⟨hx, hinside.1, hinside.2, of_decide_eq_true hle⟩

theorem le_trans_of_address (address : α → UInt64) (x y z : α)
    (h₁ : decide (address x ≤ address y) = true) (h₂ : decide (address y ≤ address z) = true) :
    decide (address x ≤ address z) = true := by
  rw [decide_eq_true_eq] at h₁ h₂ ⊢
  exact UInt64.le_trans h₁ h₂

theorem le_total_of_address (address : α → UInt64) (x y : α) :
    (decide (address x ≤ address y) || decide (address y ≤ address x)) = true := by
  rw [Bool.or_eq_true, decide_eq_true_eq, decide_eq_true_eq]
  exact UInt64.le_total _ _

theorem sorted_mergeSort (address : α → UInt64) (items : List α) :
    (items.mergeSort fun x y => address x ≤ address y).Pairwise fun x y =>
      address x ≤ address y := by
  have h := List.pairwise_mergeSort (le_trans_of_address address) (le_total_of_address address)
    items
  simpa only [decide_eq_true_eq] using h

theorem increasing_firsts {address : α → UInt64} {items : List α}
    (sorted : items.Pairwise fun x y => address x ≤ address y) :
    (firsts address items).Pairwise fun x y => address x < address y := by
  induction items with
  | nil => exact .nil
  | cons x rest ih =>
      obtain ⟨hx, hrest⟩ := List.pairwise_cons.1 sorted
      refine List.pairwise_cons.2 ⟨?_, (ih hrest).filter _⟩
      intro y hy
      obtain ⟨hmem, hne⟩ := List.mem_filter.1 hy
      have hle := hx y ((firsts_sublist address rest).subset hmem)
      rw [decide_eq_true_eq] at hne
      exact UInt64.lt_of_le_of_ne hle (Ne.symm hne)

/-! ## Items at the front -/

def ComeFirst (p : α → Bool) (items : List α) : Prop :=
  items.Pairwise fun x y => p y = true → p x = true

theorem comeFirst_le (address : α → UInt64) {items : List α}
    (sorted : items.Pairwise fun x y => address x ≤ address y) (a : UInt64) :
    ComeFirst (address · ≤ a) items := by
  refine sorted.imp fun {x y} hxy hy => ?_
  rw [decide_eq_true_eq] at hy ⊢
  exact UInt64.le_trans hxy hy

variable {p : α → Bool} {items : List α}

theorem ComeFirst.takeWhile_eq_filter (h : ComeFirst p items) :
    items.takeWhile p = items.filter p := by
  induction items with
  | nil => rfl
  | cons x rest ih =>
      obtain ⟨hx, hrest⟩ := List.pairwise_cons.1 h
      by_cases hp : p x = true
      · rw [List.takeWhile_cons_of_pos hp, List.filter_cons_of_pos hp, ih hrest]
      · have hnone : ∀ y ∈ x :: rest, ¬ p y = true := by
          intro y hy
          rcases List.mem_cons.1 hy with rfl | hy
          · exact hp
          · exact fun hpy => hp (hx y hy hpy)
        rw [List.takeWhile_cons_of_neg hp, List.filter_eq_nil_iff.2 hnone]

theorem ComeFirst.filter_append (h : ComeFirst p items) :
    items.filter p ++ items.filter (!p ·) = items := by
  induction items with
  | nil => rfl
  | cons x rest ih =>
      obtain ⟨hx, hrest⟩ := List.pairwise_cons.1 h
      by_cases hp : p x = true
      · rw [List.filter_cons_of_pos hp, List.filter_cons_of_neg (by simp [hp]), List.cons_append,
          ih hrest]
      · have hnone : ∀ y ∈ x :: rest, (!p y) = true := by
          intro y hy
          rw [Bool.not_eq_true', ← Bool.not_eq_true]
          rcases List.mem_cons.1 hy with rfl | hy
          · exact hp
          · exact fun hpy => hp (hx y hy hpy)
        rw [List.filter_eq_self.2 hnone, List.filter_eq_nil_iff.2, List.nil_append]
        intro y hy hpy
        have hnot := hnone y hy
        rw [hpy] at hnot
        cases hnot

end

end Postmortem
