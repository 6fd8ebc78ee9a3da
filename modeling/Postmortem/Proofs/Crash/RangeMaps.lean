import Postmortem.Crash.RangeMap
import Postmortem.Proofs.Floors

/-!
# What range maps hold

The ranges of a map are never empty and stand in order without overlaps, whatever is inserted.  An
address splits them into those that end at or before it and those that end behind it, and search
ends between the two: no other range than the first one behind can cover the address.  In the same
way a new range has room exactly if its two neighbours leave some.
-/

set_option autoImplicit false

namespace Postmortem.Crash.RangeMap

variable {κ α : Type} [LT κ]

theorem getElem?_length_append {β : Type} (before after : List β) :
    (before ++ after)[before.length]? = after.head? := by
  rw [List.getElem?_append_right (Nat.le_refl _), Nat.sub_self, List.head?_eq_getElem?]

theorem insertIdx_length_append {β : Type} (before after : List β) (x : β) :
    (before ++ after).insertIdx before.length x = before ++ x :: after := by
  induction before with
  | nil => rfl
  | cons _ _ ih => simp [ih]

theorem place?_append [Ord κ] [DecidableLT κ] {before after : List (Entry κ α)} {e : Entry κ α}
    (hsearch : search (before ++ after) e.stop = .missing before.length) :
    place? (before ++ after) e =
      if before.getLast?.any fun x => e.start < x.stop then none
      else if after.head?.any fun x => x.start < e.stop then none
      else some before.length := by
  have hprevious : (0 < before.length && (before ++ after)[before.length - 1]?.any
      fun x => e.start < x.stop) = before.getLast?.any fun x => e.start < x.stop := by
    rcases List.eq_nil_or_concat before with rfl | ⟨front, x, rfl⟩ <;> simp
  simp only [place?, hsearch, hprevious, getElem?_length_append]

variable [LE κ]

def Entry.Apart (e x : Entry κ α) : Prop := ∀ a, ¬ (e.Covers a ∧ x.Covers a)

theorem Entry.Apart.symm {e x : Entry κ α} (h : e.Apart x) : x.Apart e :=
  fun a ha => h a ha.symm

structure Sound (entries : List (Entry κ α)) : Prop where
  nonempty : ∀ e ∈ entries, e.start < e.stop
  ordered : entries.Pairwise fun x y => x.stop ≤ y.start

theorem sound_nil : Sound ([] : List (Entry κ α)) := ⟨by simp, .nil⟩

theorem Sound.insert {before after : List (Entry κ α)} {e : Entry κ α}
    (h : Sound (before ++ after)) (he : e.start < e.stop) (hbefore : ∀ x ∈ before, x.stop ≤ e.start)
    (hafter : ∀ y ∈ after, e.stop ≤ y.start) : Sound (before ++ e :: after) := by
  have hordered := List.pairwise_append.1 h.ordered
  constructor
  · intro x hx
    rcases List.mem_append.1 hx with hx | hx
    · exact h.nonempty x (List.mem_append_left _ hx)
    · rcases List.mem_cons.1 hx with rfl | hx
      · exact he
      · exact h.nonempty x (List.mem_append_right _ hx)
  · refine List.pairwise_append.2 ⟨hordered.1, .cons hafter hordered.2.1, fun x hx y hy => ?_⟩
    rcases List.mem_cons.1 hy with rfl | hy
    · exact hbefore x hx
    · exact hordered.2.2 x hx y hy

variable [Std.IsLinearOrder κ] [Std.LawfulOrderLT κ]

theorem Entry.apart_iff {e x : Entry κ α} (he : e.start < e.stop) (hx : x.start < x.stop) :
    e.Apart x ↔ e.stop ≤ x.start ∨ x.stop ≤ e.start := by
  constructor
  · intro h
    rcases Std.le_total (a := e.start) (b := x.start) with hle | hle
    · exact .inl (Std.not_lt.1 fun hlt => h x.start ⟨⟨hle, hlt⟩, Std.le_refl _, hx⟩)
    · exact .inr (Std.not_lt.1 fun hlt => h e.start ⟨⟨Std.le_refl _, he⟩, hle, hlt⟩)
  · rintro (hle | hle) a ⟨hea, hxa⟩
    · exact Std.not_le.2 (Std.lt_of_lt_of_le hea.2 hle) hxa.1
    · exact Std.not_le.2 (Std.lt_of_lt_of_le hxa.2 hle) hea.1

theorem Sound.apart {entries : List (Entry κ α)} (h : Sound entries) :
    entries.Pairwise Entry.Apart :=
  h.ordered.imp_of_mem fun hx hy hle =>
    (Entry.apart_iff (h.nonempty _ hx) (h.nonempty _ hy)).2 (.inl hle)

theorem Sound.stops {entries : List (Entry κ α)} (h : Sound entries) :
    entries.Pairwise fun x y => x.stop < y.stop :=
  h.ordered.imp_of_mem fun _ hy hle => Std.lt_of_le_of_lt hle (h.nonempty _ hy)

/-- If the nearest ranges on both sides leave room, so do all others. -/
theorem Sound.room {before after : List (Entry κ α)} {e : Entry κ α}
    (h : Sound (before ++ after)) (hbefore : ∀ x ∈ before.getLast?, x.stop ≤ e.start)
    (hafter : ∀ y ∈ after.head?, e.stop ≤ y.start) :
    (∀ x ∈ before, x.stop ≤ e.start) ∧ ∀ y ∈ after, e.stop ≤ y.start := by
  obtain ⟨hfront, hback, -⟩ := List.pairwise_append.1 h.ordered
  constructor
  -- all ranges before the place end at or before the last of them
  · intro x hx
    rcases List.eq_nil_or_concat before with rfl | ⟨front, last, rfl⟩
    · cases hx
    · have hlast : last.stop ≤ e.start := hbefore last (by simp)
      rw [List.concat_eq_append] at h hx hfront
      rcases List.mem_append.1 hx with hx | hx
      · have hle := (List.pairwise_append.1 hfront).2.2 x hx last (List.mem_singleton.2 rfl)
        have hlt := h.nonempty last (by simp)
        exact Std.le_trans hle (Std.le_trans (Std.le_of_lt hlt) hlast)
      · rwa [List.mem_singleton.1 hx]
  · intro y hy
    cases after with
    | nil => cases hy
    | cons first rest =>
        have hfirst : e.stop ≤ first.start := hafter first (by simp)
        rcases List.mem_cons.1 hy with rfl | hy
        · exact hfirst
        · have hlt := h.nonempty first (by simp)
          have hle := (List.pairwise_cons.1 hback).1 y hy
          exact Std.le_trans hfirst (Std.le_trans (Std.le_of_lt hlt) hle)

section Search

variable [Ord κ] [Std.LawfulOrderOrd κ]

theorem search_append {before after : List (Entry κ α)} {a : κ} (h : Sound (before ++ after))
    (hbefore : ∀ x ∈ before, x.stop ≤ a) (hafter : ∀ y ∈ after, a < y.stop) :
    (∃ front x, before = front ++ [x] ∧ x.stop = a ∧
        search (before ++ after) a = .found front.length) ∨
      (∀ x ∈ before, x.stop < a) ∧ search (before ++ after) a = .missing before.length := by
  have hcompares : Bisect.Compares Entry.stop (before ++ after) a fun i =>
      (((before ++ after)[i]?).map fun e => compare e.stop a).getD .gt := by
    intro i x hi
    simp only [hi, Option.map_some, Option.getD_some]
  exact hcompares.search h.stops hbefore hafter

variable [DecidableLE κ]

/-- Of the ranges that end behind an address only the first is looked at. -/
theorem entry?_append {before after : List (Entry κ α)} {a : κ} (h : Sound (before ++ after))
    (hbefore : ∀ x ∈ before, x.stop ≤ a) (hafter : ∀ y ∈ after, a < y.stop) :
    entry? ⟨before ++ after⟩ a = after.head?.filter fun e => e.start ≤ a := by
  have hnext := getElem?_length_append before after
  rcases search_append h hbefore hafter with ⟨front, x, rfl, -, hsearch⟩ | ⟨-, hsearch⟩
  · rw [List.length_append, List.length_singleton] at hnext
    simp only [hsearch, hnext, entry?]
  · simp only [hsearch, hnext, entry?]

/-- The range that is found for an address is the one that covers it. -/
theorem entry?_eq_some_iff {m : RangeMap κ α} {a : κ} {e : Entry κ α} (h : Sound m.entries) :
    m.entry? a = some e ↔ e ∈ m.entries ∧ e.Covers a := by
  obtain ⟨entries⟩ := m
  obtain ⟨before, after, rfl, hbefore, hafter⟩ := Bisect.exists_split h.stops a
  rw [entry?_append h hbefore hafter]
  constructor
  · intro hfound
    obtain ⟨hhead, hstart⟩ := Option.filter_eq_some_iff.1 hfound
    have hmem := List.mem_of_head? hhead
    exact ⟨List.mem_append_right _ hmem, by simpa using hstart, hafter e hmem⟩
  · rintro ⟨hmem, hstart, hstop⟩
    rcases List.mem_append.1 hmem with hmem | hmem
    · exact absurd (hbefore e hmem) (Std.not_le.2 hstop)
    · cases after with
      | nil => cases hmem
      | cons first rest =>
          rcases List.mem_cons.1 hmem with rfl | hmem
          · simp [hstart]
          · have hle := (List.pairwise_cons.1 (List.pairwise_append.1 h.ordered).2.1).1 e hmem
            have hlt := hafter first (List.mem_cons_self ..)
            exact absurd (Std.lt_of_lt_of_le (Std.lt_of_lt_of_le hlt hle) hstart) (Std.lt_irrefl)

theorem find?_eq_some_iff {m : RangeMap κ α} {a : κ} {value : α} (h : Sound m.entries) :
    m.find? a = some value ↔ ∃ e ∈ m.entries, e.Covers a ∧ e.value = value := by
  simp only [find?, Option.map_eq_some_iff, entry?_eq_some_iff h, and_assoc]

end Search

section Insertion

variable [Ord κ] [Std.LawfulOrderOrd κ] [DecidableLT κ]

/-- A range has room between two neighbours, or overlaps one of them. -/
theorem place?_cases {entries : List (Entry κ α)} {e : Entry κ α} (h : Sound entries)
    (he : e.start < e.stop) :
    (place? entries e = none ∧ ∃ x ∈ entries, ¬ e.Apart x) ∨
      ∃ before after, entries = before ++ after ∧ place? entries e = some before.length ∧
        (∀ x ∈ before, x.stop ≤ e.start) ∧ ∀ y ∈ after, e.stop ≤ y.start := by
  obtain ⟨before, after, rfl, hbefore, hafter⟩ := Bisect.exists_split h.stops e.stop
  have hnot {x : Entry κ α} (hx : x ∈ before ++ after) (hend : e.start < x.stop)
      (hstart : x.start < e.stop) : ∃ x ∈ before ++ after, ¬ e.Apart x := by
    refine ⟨x, hx, ?_⟩
    rw [Entry.apart_iff he (h.nonempty x hx), not_or]
    exact ⟨Std.not_le.2 hstart, Std.not_le.2 hend⟩
  rcases search_append h hbefore hafter with ⟨front, x, rfl, hx, hsearch⟩ | ⟨-, hsearch⟩
  -- a range with the same end overlaps the new one, as neither is empty
  · have hmem : x ∈ front ++ [x] ++ after := by simp
    exact .inl ⟨by simp only [place?, hsearch], hnot hmem (hx ▸ he) (hx ▸ h.nonempty x hmem)⟩
  · rw [place?_append hsearch]
    split
    · rename_i hlow
      obtain ⟨x, hx, hlt⟩ := (Option.any_eq_true ..).1 hlow
      have hmem := List.mem_of_getLast? hx
      have hentry := List.mem_append_left after hmem
      refine .inl ⟨rfl, hnot hentry (by simpa using hlt) ?_⟩
      exact Std.lt_of_lt_of_le (h.nonempty x hentry) (hbefore x hmem)
    split
    · rename_i hhigh
      obtain ⟨y, hy, hlt⟩ := (Option.any_eq_true ..).1 hhigh
      have hmem := List.mem_of_head? hy
      have hend := Std.lt_trans he (hafter y hmem)
      exact .inl ⟨rfl, hnot (List.mem_append_right before hmem) hend (by simpa using hlt)⟩
    · rename_i hlow hhigh
      obtain ⟨hfront, hback⟩ := h.room (e := e)
        (fun x hx => Std.not_lt.1 fun hlt => hlow (by simp [Option.mem_def.1 hx, hlt]))
        (fun y hy => Std.not_lt.1 fun hlt => hhigh (by simp [Option.mem_def.1 hy, hlt]))
      exact .inr ⟨before, after, rfl, rfl, hfront, hback⟩

/-- An insertion succeeds exactly for a range that is not empty and apart from all others, and puts
it between the ranges before and behind it. -/
theorem insert?_cases {m : RangeMap κ α} (e : Entry κ α) (h : Sound m.entries) :
    (m.insert? e = none ∧ ¬ (e.start < e.stop ∧ ∀ x ∈ m.entries, e.Apart x)) ∨
      ∃ before after, m.entries = before ++ after ∧ m.insert? e = some ⟨before ++ e :: after⟩ ∧
        e.start < e.stop ∧ (∀ x ∈ m.entries, e.Apart x) ∧ Sound (before ++ e :: after) := by
  by_cases he : e.start < e.stop
  · rcases place?_cases h he with ⟨hplace, x, hx, hnot⟩ | ⟨before, after, hm, hplace, hfront, hback⟩
    · refine .inl ⟨by rw [insert?, if_pos he, hplace, Option.map_none], fun hall => ?_⟩
      exact hnot (hall.2 x hx)
    · have hinsert : m.insert? e = some ⟨before ++ e :: after⟩ := by
        rw [insert?, if_pos he, hplace, Option.map_some, hm, insertIdx_length_append]
      have hsound : Sound (before ++ e :: after) := (hm ▸ h).insert he hfront hback
      have hapart := (List.pairwise_middle Entry.Apart.symm).1 hsound.apart
      refine .inr ⟨before, after, hm, hinsert, he, fun x hx => ?_, hsound⟩
      exact (List.pairwise_cons.1 hapart).1 x (hm ▸ hx)
  · exact .inl ⟨by rw [insert?, if_neg he], fun hall => he hall.1⟩

theorem isSome_insert?_iff {m : RangeMap κ α} {e : Entry κ α} (h : Sound m.entries) :
    (m.insert? e).isSome ↔ e.start < e.stop ∧ ∀ x ∈ m.entries, e.Apart x := by
  rcases insert?_cases e h with ⟨hnone, hnot⟩ | ⟨_, _, -, hsome, he, hapart, -⟩
  · simp [hnone, hnot]
  · simp only [hsome, Option.isSome_some, he, true_and, true_iff]
    exact hapart

theorem perm_of_insert? {m n : RangeMap κ α} {e : Entry κ α} (h : Sound m.entries)
    (hinsert : m.insert? e = some n) : n.entries.Perm (e :: m.entries) := by
  rcases insert?_cases e h with ⟨hnone, -⟩ | ⟨before, after, hm, hsome, -⟩
  · cases hnone.symm.trans hinsert
  · cases hsome.symm.trans hinsert
    rw [hm]
    exact List.perm_middle

/-- Inserting leaves a map sound, whether it succeeds or not. -/
theorem sound_getD_insert? {m : RangeMap κ α} (e : Entry κ α) (h : Sound m.entries) :
    Sound ((m.insert? e).getD m).entries := by
  rcases insert?_cases e h with ⟨hnone, -⟩ | ⟨_, _, -, hsome, -, -, hsound⟩
  · rwa [hnone]
  · rwa [hsome]

theorem mem_getD_insert?_iff {m : RangeMap κ α} {e x : Entry κ α} (h : Sound m.entries) :
    x ∈ ((m.insert? e).getD m).entries ↔
      x ∈ m.entries ∨ x = e ∧ e.start < e.stop ∧ ∀ y ∈ m.entries, e.Apart y := by
  rcases insert?_cases e h with ⟨hnone, hnot⟩ | ⟨before, after, hm, hsome, he, hapart, -⟩
  · simp [hnone, hnot]
  · have hmem := (perm_of_insert? h hsome).mem_iff (a := x)
    rw [hsome, Option.getD_some, hmem, List.mem_cons, or_comm]
    simp only [he, true_and]
    exact or_congr_right (and_iff_left hapart).symm

/-- Whatever is inserted, the ranges of a map are not empty, do not overlap and are in order. -/
theorem sound_insertEach {m : RangeMap κ α} (h : Sound m.entries) (entries : List (Entry κ α)) :
    Sound (m.insertEach entries).entries := by
  induction entries generalizing m with
  | nil => exact h
  | cons e rest ih => exact ih (sound_getD_insert? e h)

theorem mem_of_mem_insertEach {m : RangeMap κ α} (h : Sound m.entries) {entries : List (Entry κ α)}
    {x : Entry κ α} (hx : x ∈ (m.insertEach entries).entries) : x ∈ m.entries ∨ x ∈ entries := by
  induction entries generalizing m with
  | nil => exact .inl hx
  | cons e rest ih =>
      rcases ih (sound_getD_insert? e h) hx with hx | hx
      · rcases (mem_getD_insert?_iff h).1 hx with hx | ⟨rfl, -⟩
        · exact .inl hx
        · exact .inr (List.mem_cons_self ..)
      · exact .inr (List.mem_cons_of_mem _ hx)

/-- Ranges that do not overlap are all inserted, except the empty ones. -/
theorem mem_insertEach_iff {m : RangeMap κ α} (h : Sound m.entries) {entries : List (Entry κ α)}
    (hentries : entries.Pairwise Entry.Apart) (hm : ∀ e ∈ entries, ∀ y ∈ m.entries, e.Apart y)
    {x : Entry κ α} :
    x ∈ (m.insertEach entries).entries ↔ x ∈ m.entries ∨ x ∈ entries ∧ x.start < x.stop := by
  induction entries generalizing m with
  | nil => simp [insertEach]
  | cons e rest ih =>
      obtain ⟨he, hrest⟩ := List.pairwise_cons.1 hentries
      have hroom := hm e (List.mem_cons_self ..)
      have hstep {y : Entry κ α} : y ∈ ((m.insert? e).getD m).entries ↔
          y ∈ m.entries ∨ y = e ∧ e.start < e.stop := by
        rw [mem_getD_insert?_iff h, and_iff_left hroom]
      -- whether the first range was inserted or is empty, the others still have room
      have hnext : ∀ f ∈ rest, ∀ y ∈ ((m.insert? e).getD m).entries, f.Apart y := by
        intro f hf y hy
        rcases hstep.1 hy with hy | ⟨rfl, -⟩
        · exact hm f (List.mem_cons_of_mem _ hf) y hy
        · exact (he f hf).symm
      rw [insertEach, List.foldl_cons, ← insertEach, ih (sound_getD_insert? e h) hrest hnext, hstep,
        List.mem_cons]
      constructor
      · rintro ((hx | ⟨rfl, hx⟩) | ⟨hx, hne⟩)
        · exact .inl hx
        · exact .inr ⟨.inl rfl, hx⟩
        · exact .inr ⟨.inr hx, hne⟩
      · rintro (hx | ⟨rfl | hx, hne⟩)
        · exact .inl (.inl hx)
        · exact .inl (.inr ⟨rfl, hne⟩)
        · exact .inr ⟨hx, hne⟩

end Insertion

end Postmortem.Crash.RangeMap
