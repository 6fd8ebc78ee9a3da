import Mathlib.Data.List.Forall2

/-!
# Related lists

Lists whose items are related one by one: cutting and sorting them, pairing them up, and finding the
partner of an item.
-/

set_option autoImplicit false

namespace Postmortem

variable {α β γ : Type} {R : α → β → Prop}

/-- If the first of two lists that are related item by item is cut, so is the second. -/
theorem forall₂_split {before after : List α} {m : List β}
    (h : List.Forall₂ R (before ++ after) m) :
    ∃ first last, m = first ++ last ∧ List.Forall₂ R before first ∧ List.Forall₂ R after last := by
  refine ⟨m.take before.length, m.drop before.length, (List.take_append_drop ..).symm, ?_, ?_⟩
  · exact (List.forall₂_take_append _ _ _ h.flip).flip
  · exact (List.forall₂_drop_append _ _ _ h.flip).flip

/-- Two lists that are related item by item are the two sides of a list of related pairs. -/
theorem exists_zip {l : List α} {m : List β}
    (h : List.Forall₂ R l m) :
    ∃ z : List (α × β), z.map Prod.fst = l ∧ z.map Prod.snd = m ∧ ∀ p ∈ z, R p.1 p.2 := by
  induction h with
  | nil => exact ⟨[], rfl, rfl, by simp⟩
  | @cons a b l m hab _ ih =>
      obtain ⟨z, rfl, rfl, hz⟩ := ih
      refine ⟨(a, b) :: z, rfl, rfl, ?_⟩
      intro p hp
      rcases List.mem_cons.1 hp with rfl | hp
      · exact hab
      · exact hz p hp

theorem exists_left {l : List α} {m : List β} (h : List.Forall₂ R l m) {b : β} (hb : b ∈ m) :
    ∃ a ∈ l, R a b := by
  obtain ⟨z, rfl, rfl, hz⟩ := exists_zip h
  obtain ⟨p, hp, rfl⟩ := List.mem_map.1 hb
  exact ⟨p.1, List.mem_map_of_mem hp, hz p hp⟩

theorem exists_right {l : List α} {m : List β} (h : List.Forall₂ R l m) {a : α} (ha : a ∈ l) :
    ∃ b ∈ m, R a b := by
  obtain ⟨z, rfl, rfl, hz⟩ := exists_zip h
  obtain ⟨p, hp, rfl⟩ := List.mem_map.1 ha
  exact ⟨p.2, List.mem_map_of_mem hp, hz p hp⟩

theorem exists_forall₂ {l : List α} (h : ∀ a ∈ l, ∃ b, R a b) : ∃ m, List.Forall₂ R l m := by
  induction l with
  | nil => exact ⟨[], .nil⟩
  | cons a l ih =>
      obtain ⟨⟨b, hb⟩, hl⟩ := List.forall_mem_cons.1 h
      obtain ⟨m, hm⟩ := ih hl
      exact ⟨b :: m, .cons hb hm⟩

theorem forall₂_join {S : α → γ → Prop} {T : β → γ → Prop} {l : List α} {m : List β}
    {n : List γ} (h : List.Forall₂ R l m) (h' : List.Forall₂ S l n)
    (hjoin : ∀ a, ∀ b ∈ m, ∀ c, R a b → S a c → T b c) : List.Forall₂ T m n := by
  induction h generalizing n with
  | nil =>
      cases h'
      exact .nil
  | @cons a b l m hab _ ih =>
      cases h' with
      | cons hac hrest =>
          exact .cons (hjoin a b (List.mem_cons_self ..) _ hab hac)
            (ih hrest fun a b hb => hjoin a b (List.mem_cons_of_mem _ hb))

theorem forall₂_of_pairs {z : List (α × β)} (h : ∀ p ∈ z, R p.1 p.2) :
    List.Forall₂ R (z.map Prod.fst) (z.map Prod.snd) := by
  rw [List.forall₂_map_left_iff, List.forall₂_map_right_iff, List.forall₂_same]
  exact h

/-- Related lists that are sorted alike stay related. -/
theorem forall₂_mergeSort {r : α → α → Bool} {s : β → β → Bool} {l : List α} {m : List β}
    (h : List.Forall₂ R l m) (hrs : ∀ a a' b b', R a b → R a' b' → r a a' = s b b') :
    List.Forall₂ R (l.mergeSort r) (m.mergeSort s) := by
  obtain ⟨z, rfl, rfl, hz⟩ := exists_zip h
  rw [← List.map_mergeSort (r := fun x y : α × β => r x.1 y.1) (fun _ _ _ _ => rfl),
    ← List.map_mergeSort (r := fun x y : α × β => r x.1 y.1)
      (fun x hx y hy => hrs _ _ _ _ (hz x hx) (hz y hy))]
  exact forall₂_of_pairs fun x hx => hz x (List.mem_mergeSort.1 hx)

section Cuts

variable {p : α → Bool} {q : β → Bool} {l : List α} {m : List β}

theorem forall₂_takeWhile (h : List.Forall₂ R l m) (hpq : ∀ a b, R a b → p a = q b) :
    List.Forall₂ R (l.takeWhile p) (m.takeWhile q) := by
  induction h with
  | nil => exact .nil
  | @cons a b l m hab _ ih =>
      rw [List.takeWhile_cons, List.takeWhile_cons, ← hpq a b hab]
      split
      · exact .cons hab ih
      · exact .nil

theorem forall₂_dropWhile (h : List.Forall₂ R l m) (hpq : ∀ a b, R a b → p a = q b) :
    List.Forall₂ R (l.dropWhile p) (m.dropWhile q) := by
  induction h with
  | nil => exact .nil
  | @cons a b l m hab hrest ih =>
      rw [List.dropWhile_cons, List.dropWhile_cons, ← hpq a b hab]
      split
      · exact ih
      · exact .cons hab hrest

theorem forall₂_filter (h : List.Forall₂ R l m) (hpq : ∀ a b, R a b → p a = q b) :
    List.Forall₂ R (l.filter p) (m.filter q) :=
  List.rel_filter (fun a b hab => iff_of_eq (congrArg (· = true) (hpq a b hab))) h

theorem rel_getLast? (h : List.Forall₂ R l m) : Option.Rel R l.getLast? m.getLast? := by
  induction h with
  | nil => exact .none
  | @cons a b l m hab _ ih =>
      rw [List.getLast?_cons, List.getLast?_cons]
      generalize l.getLast? = last, m.getLast? = last' at ih
      cases ih with
      | none => exact .some hab
      | some hlast => exact .some hlast

end Cuts

end Postmortem
