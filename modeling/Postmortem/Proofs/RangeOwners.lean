import Postmortem.Proofs.LeastMembers
import Postmortem.RangeClaims

/-!
# Owners of addresses

Resolved claims are disjoint and in increasing order, and each address that some claim covers lies
in exactly one of them: in a part of the first claim served that covers it.
-/

set_option autoImplicit false

namespace Postmortem

namespace Claim

variable {α : Type}

structure Disjoint (ranges : List (Claim α)) : Prop where
  nonempty : ∀ x ∈ ranges, x.start < x.stop
  ordered : ranges.Pairwise fun x y => x.stop ≤ y.start

theorem Disjoint.tail {x : Claim α} {rest : List (Claim α)} (h : Disjoint (x :: rest)) :
    Disjoint rest :=
  ⟨fun y hy => h.nonempty y (List.mem_cons_of_mem _ hy), (List.pairwise_cons.1 h.ordered).2⟩

theorem Disjoint.cons {x : Claim α} {rest : List (Claim α)} (hx : x.start < x.stop)
    (hrest : ∀ y ∈ rest, x.stop ≤ y.start) (h : Disjoint rest) : Disjoint (x :: rest) := by
  refine ⟨?_, List.pairwise_cons.2 ⟨hrest, h.ordered⟩⟩
  intro y hy
  rcases List.mem_cons.1 hy with rfl | hy
  · exact hx
  · exact h.nonempty y hy

theorem Covers.of_part {x c : Claim α} {a : UInt64} (h : x.Covers a) (hstart : c.start ≤ x.start)
    (hstop : x.stop ≤ c.stop) : c.Covers a :=
  ⟨UInt64.le_trans hstart h.1, UInt64.lt_of_lt_of_le h.2 hstop⟩

theorem Covers.not_apart {x y : Claim α} {a : UInt64} (hx : x.Covers a) (hy : y.Covers a) :
    ¬ (y.stop ≤ x.start ∨ x.stop ≤ y.start) := by
  rintro (hle | hle)
  · exact UInt64.not_lt.2 (UInt64.le_trans hle hx.1) hy.2
  · exact UInt64.not_lt.2 (UInt64.le_trans hle hy.1) hx.2

/-- A free part of a range: it lies in the range and meets none of the ranges that are taken. -/
structure IsFree (start stop : UInt64) (value : α) (ranges : List (Claim α)) (x : Claim α) :
    Prop where
  value_eq : x.value = value
  start_le : start ≤ x.start
  le_stop : x.stop ≤ stop
  apart : ∀ y ∈ ranges, y.stop ≤ x.start ∨ x.stop ≤ y.start

theorem IsFree.cons {start later stop : UInt64} {value : α} {y x : Claim α}
    {rest : List (Claim α)} (h : IsFree later stop value rest x) (hstart : start ≤ later)
    (hy : y.stop ≤ later) : IsFree start stop value (y :: rest) x := by
  refine ⟨h.value_eq, UInt64.le_trans hstart h.start_le, h.le_stop, ?_⟩
  intro z hz
  rcases List.mem_cons.1 hz with rfl | hz
  · exact .inl (UInt64.le_trans hy h.start_le)
  · exact h.apart z hz

theorem isFree_before {start last stop : UInt64} {value : α} {y : Claim α}
    {rest : List (Claim α)} (h : Disjoint (y :: rest)) (hle : last ≤ stop)
    (hlast : last ≤ y.start) : IsFree start stop value (y :: rest) ⟨start, last, value⟩ := by
  refine ⟨rfl, UInt64.le_refl _, hle, ?_⟩
  intro z hz
  rcases List.mem_cons.1 hz with rfl | hz
  · exact .inr hlast
  · have hy := UInt64.le_of_lt (h.nonempty y (List.mem_cons_self ..))
    have hz := (List.pairwise_cons.1 h.ordered).1 z hz
    exact .inr (UInt64.le_trans hlast (UInt64.le_trans hy hz))

/-- What is taken is what was taken before and free parts of the new range. -/
theorem mem_take {start stop : UInt64} {value : α} {ranges : List (Claim α)} {x : Claim α}
    (h : Disjoint ranges) (hx : x ∈ take start stop value ranges) :
    x ∈ ranges ∨ IsFree start stop value ranges x := by
  induction ranges generalizing start with
  | nil =>
      simp only [take] at hx
      split at hx
      · rw [List.mem_singleton.1 hx]
        exact .inr ⟨rfl, UInt64.le_refl _, UInt64.le_refl _, by simp⟩
      · simp at hx
  | cons y rest ih =>
      have hy := h.nonempty y (List.mem_cons_self ..)
      have hlater {later : UInt64} (hstart : start ≤ later) (hle : y.stop ≤ later)
          (hmem : x ∈ y :: take later stop value rest) :
          x ∈ y :: rest ∨ IsFree start stop value (y :: rest) x := by
        rcases List.mem_cons.1 hmem with rfl | hmem
        · exact .inl (List.mem_cons_self ..)
        · rcases ih h.tail hmem with hmem | hfree
          · exact .inl (List.mem_cons_of_mem _ hmem)
          · exact .inr (hfree.cons hstart hle)
      simp only [take] at hx
      -- the new range lies behind the first one, in front of it, or meets it
      split at hx
      · exact hlater (UInt64.le_refl _) ‹_› hx
      · split at hx
        · rename_i hafter
          split at hx
          · rcases List.mem_cons.1 hx with rfl | hx
            · exact .inr (isFree_before h (UInt64.le_refl _) hafter)
            · exact .inl hx
          · exact .inl hx
        · rename_i hbehind hafter
          have hstop : y.start ≤ stop := UInt64.le_of_lt (UInt64.not_le.1 hafter)
          have hstart : start ≤ y.stop := UInt64.le_of_lt (UInt64.not_le.1 hbehind)
          split at hx
          · rcases List.mem_cons.1 hx with rfl | hx
            · exact .inr (isFree_before h hstop (UInt64.le_refl _))
            · exact hlater hstart (UInt64.le_refl _) hx
          · exact hlater hstart (UInt64.le_refl _) hx

theorem subset_take {start stop : UInt64} {value : α} {ranges : List (Claim α)} :
    ranges ⊆ take start stop value ranges := by
  induction ranges generalizing start with
  | nil => simp
  | cons y rest ih =>
      intro x hx
      have later {s : UInt64} (hx : x ∈ y :: rest) : x ∈ y :: take s stop value rest := by
        rcases List.mem_cons.1 hx with rfl | hx
        · exact List.mem_cons_self ..
        · exact List.mem_cons_of_mem _ (ih hx)
      simp only [take]
      split
      · exact later hx
      · split
        · split
          · exact List.mem_cons_of_mem _ hx
          · exact hx
        · split
          · exact List.mem_cons_of_mem _ (later hx)
          · exact later hx

theorem exists_covers_take {start stop a : UInt64} {value : α} {ranges : List (Claim α)}
    (low : start ≤ a) (high : a < stop) : ∃ x ∈ take start stop value ranges, x.Covers a := by
  induction ranges generalizing start with
  | nil =>
      have hlt : start < stop := by grind
      exact ⟨⟨start, stop, value⟩, by simp [take, hlt], low, high⟩
  | cons y rest ih =>
      simp only [take]
      split
      · obtain ⟨x, hx, hcov⟩ := ih low
        exact ⟨x, List.mem_cons_of_mem _ hx, hcov⟩
      · split
        · have hlt : start < stop := by grind
          rw [if_pos hlt]
          exact ⟨_, List.mem_cons_self .., low, high⟩
        · have hinside : y.start ≤ a ∧ a < y.stop ∨ a < y.start ∨ y.stop ≤ a := by grind
          split
          · rcases hinside with hy | hlt | hge
            · exact ⟨y, by simp, hy⟩
            · exact ⟨_, List.mem_cons_self .., low, hlt⟩
            · obtain ⟨x, hx, hcov⟩ := ih hge
              exact ⟨x, by simp [hx], hcov⟩
          · rcases hinside with hy | hlt | hge
            · exact ⟨y, by simp, hy⟩
            · grind
            · obtain ⟨x, hx, hcov⟩ := ih hge
              exact ⟨x, by simp [hx], hcov⟩

theorem disjoint_take {start stop : UInt64} {value : α} {ranges : List (Claim α)}
    (h : Disjoint ranges) : Disjoint (take start stop value ranges) := by
  induction ranges generalizing start with
  | nil =>
      simp only [take]
      split
      · exact .cons ‹_› (by simp) ⟨by simp, .nil⟩
      · exact ⟨by simp, .nil⟩
  | cons y rest ih =>
      have hy := h.nonempty y (List.mem_cons_self ..)
      have hord := (List.pairwise_cons.1 h.ordered).1
      -- everything that is taken behind the first range stays behind it
      have behind {s : UInt64} (hs : y.stop ≤ s) :
          ∀ x ∈ take s stop value rest, y.stop ≤ x.start := by
        intro x hx
        rcases mem_take h.tail hx with hx | hx
        · exact hord x hx
        · exact UInt64.le_trans hs hx.start_le
      simp only [take]
      split
      · exact .cons hy (behind ‹_›) (ih h.tail)
      · split
        · split
          · refine .cons ‹_› ?_ h
            intro x hx
            rcases List.mem_cons.1 hx with rfl | hx
            · assumption
            · have := hord x hx
              show stop ≤ x.start
              grind
          · exact h
        · have hlater : Disjoint (take y.stop stop value rest) := ih h.tail
          have hrest := Disjoint.cons hy (behind (UInt64.le_refl _)) hlater
          split
          · refine .cons ‹_› ?_ hrest
            intro x hx
            rcases List.mem_cons.1 hx with rfl | hx
            · exact UInt64.le_refl _
            · have := behind (UInt64.le_refl _) x hx
              show y.start ≤ x.start
              grind
          · exact hrest

end Claim

namespace RangeClaims

variable {α : Type}

def owner? (served : List (Claim α)) (a : UInt64) : Option (Claim α) :=
  served.find? fun c => c.Covers a

/-- Ranges that divide the addresses of some claims: each is part of one claim, which owns all of
it, and each address with an owner lies in one of them. -/
structure Divides (served ranges : List (Claim α)) : Prop where
  disjoint : Claim.Disjoint ranges
  owned : ∀ x ∈ ranges, ∃ c, c.value = x.value ∧ c.start ≤ x.start ∧ x.stop ≤ c.stop ∧
    ∀ a, x.Covers a → owner? served a = some c
  covers : ∀ a c, owner? served a = some c → ∃ x ∈ ranges, x.Covers a

theorem divides_nil : Divides ([] : List (Claim α)) [] :=
  ⟨⟨by simp, .nil⟩, by simp, by simp [owner?]⟩

theorem Divides.take {served ranges : List (Claim α)} (h : Divides served ranges) (c : Claim α) :
    Divides (served ++ [c]) (Claim.take c.start c.stop c.value ranges) := by
  have hstill {a : UInt64} {d : Claim α} (hd : owner? served a = some d) :
      owner? (served ++ [c]) a = some d := by
    rw [owner?] at hd
    rw [owner?, List.find?_append, hd]
    rfl
  refine ⟨Claim.disjoint_take h.disjoint, ?_, ?_⟩
  · intro x hx
    rcases Claim.mem_take h.disjoint hx with hx | hx
    · obtain ⟨d, hvalue, hstart, hstop, howner⟩ := h.owned x hx
      exact ⟨d, hvalue, hstart, hstop, fun a ha => hstill (howner a ha)⟩
    · refine ⟨c, hx.value_eq.symm, hx.start_le, hx.le_stop, ?_⟩
      intro a ha
      have hnone : served.find? (fun c => c.Covers a) = none := by
        cases hserved : owner? served a with
        | none => exact hserved
        | some d =>
            obtain ⟨y, hy, hcov⟩ := h.covers a d hserved
            exact absurd (hx.apart y hy) (ha.not_apart hcov)
      have hc : c.Covers a := ha.of_part hx.start_le hx.le_stop
      rw [owner?, List.find?_append, hnone]
      simp [hc]
  · intro a d hd
    cases hserved : owner? served a with
    | some e =>
        obtain ⟨x, hx, hcov⟩ := h.covers a e hserved
        exact ⟨x, Claim.subset_take hx, hcov⟩
    | none =>
        rw [owner?] at hserved hd
        rw [List.find?_append, hserved, Option.none_or] at hd
        have hc : d.Covers a := by simpa using List.find?_some hd
        have hd : d = c := List.mem_singleton.1 (List.mem_of_find?_eq_some hd)
        subst hd
        exact Claim.exists_covers_take hc.1 hc.2

theorem divides_foldl (served : List (Claim α)) {before ranges : List (Claim α)}
    (h : Divides before ranges) :
    Divides (before ++ served)
      (served.foldl (fun taken c => Claim.take c.start c.stop c.value taken) ranges) := by
  induction served generalizing before ranges with
  | nil => simpa using h
  | cons c served ih =>
      have hstep := ih (h.take c)
      rwa [List.append_assoc, List.singleton_append] at hstep

/-- The resolved ranges divide the addresses of the claims in the order in which they are served. -/
theorem divides_resolve (r : RangeClaims α) (priority : Claim α → Claim α → Ordering) :
    Divides (r.served priority) (r.resolve priority) := by
  have h := divides_foldl (r.served priority) (divides_nil (α := α))
  rwa [List.nil_append] at h

/-! ## The order in which claims are served -/

theorem foldl_push (claims : List (Claim α)) (r : RangeClaims α) :
    claims.foldl push r = ⟨r.claims ++ claims.filter fun c => c.start < c.stop⟩ := by
  induction claims generalizing r with
  | nil => simp
  | cons c claims ih =>
      rw [List.foldl_cons, ih, push]
      by_cases hlt : c.start < c.stop
      · simp [hlt]
      · simp [hlt]

/-- The owner of an address is the least claim that covers it. -/
theorem isFirstLeast_of_owner? {r : RangeClaims α} {priority : Claim α → Claim α → Ordering}
    [Std.TransCmp priority] {a : UInt64} {c : Claim α}
    (h : owner? (r.served priority) a = some c) :
    IsFirstLeast priority (fun d => d.Covers a) r.claims c := by
  have hleast := isFirstLeast_of_find?_mergeSort h
  simpa only [decide_eq_true_eq] using hleast

theorem owner?_eq_none_iff {r : RangeClaims α} {priority : Claim α → Claim α → Ordering}
    {a : UInt64} : owner? (r.served priority) a = none ↔ ∀ c ∈ r.claims, ¬ c.Covers a := by
  simp [owner?, served]

end RangeClaims

end Postmortem
