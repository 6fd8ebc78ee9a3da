import Postmortem.Proofs.RelatedClaims

/-!
# Shares of claims

Each claim receives the addresses at which it is the first to be served, in as few ranges as
possible: two ranges that touch are parts of different claims.  Claims of equal range and value are
told apart by their places in the order in which they were made.
-/

set_option autoImplicit false

namespace Postmortem

variable {α β : Type}

namespace Claim

def map (f : α → β) (c : Claim α) : Claim β := ⟨c.start, c.stop, f c.value⟩

/-! ## Ranges that touch -/

/-- A part that is taken reaches up to the end of the new range or to a range that was taken. -/
theorem stop_of_mem_take {start stop : UInt64} {value : α} {ranges : List (Claim α)} {x : Claim α}
    (h : x ∈ take start stop value ranges) :
    x ∈ ranges ∨ x.stop = stop ∨ ∃ y ∈ ranges, x.stop = y.start := by
  induction ranges generalizing start with
  | nil =>
      simp only [take] at h
      split at h
      · rw [List.mem_singleton.1 h]
        exact .inr (.inl rfl)
      · simp at h
  | cons y rest ih =>
      have hlater {s : UInt64} (h : x ∈ y :: take s stop value rest) :
          x ∈ y :: rest ∨ x.stop = stop ∨ ∃ z ∈ y :: rest, x.stop = z.start := by
        rcases List.mem_cons.1 h with rfl | h
        · exact .inl (List.mem_cons_self ..)
        · rcases ih h with h | h | ⟨z, hz, h⟩
          · exact .inl (List.mem_cons_of_mem _ h)
          · exact .inr (.inl h)
          · exact .inr (.inr ⟨z, List.mem_cons_of_mem _ hz, h⟩)
      simp only [take] at h
      split at h
      · exact hlater h
      · split at h
        · split at h
          · rcases List.mem_cons.1 h with rfl | h
            · exact .inr (.inl rfl)
            · exact .inl h
          · exact .inl h
        · split at h
          · rcases List.mem_cons.1 h with rfl | h
            · exact .inr (.inr ⟨y, List.mem_cons_self .., rfl⟩)
            · exact hlater h
          · exact hlater h

/-- Whether ranges that touch have different values. -/
def Separated (ranges : List (Claim α)) : Prop :=
  ∀ x ∈ ranges, ∀ y ∈ ranges, x.stop = y.start → x.value ≠ y.value

theorem Separated.take {ranges : List (Claim α)} (h : Separated ranges)
    (hdisjoint : Disjoint ranges) (start stop : UInt64) {value : α}
    (hnew : ∀ x ∈ ranges, x.value ≠ value) : Separated (take start stop value ranges) := by
  intro x hx y hy htouch
  rcases mem_take hdisjoint hx with hxold | hxfree
  · rcases mem_take hdisjoint hy with hyold | hyfree
    · exact h x hxold y hyold htouch
    · rw [hyfree.value_eq]
      exact hnew x hxold
  · rcases mem_take hdisjoint hy with hyold | hyfree
    · rw [hxfree.value_eq]
      exact (hnew y hyold).symm
    · -- between two parts of the new range lies a range that was taken before
      exfalso
      have hylt : y.start < y.stop := (disjoint_take hdisjoint).nonempty y hy
      rcases stop_of_mem_take hx with hold | hend | ⟨z, hz, hend⟩
      · exact hnew x hold hxfree.value_eq
      · have hle := hyfree.le_stop
        rw [← hend, htouch] at hle
        exact UInt64.not_lt.2 hle hylt
      · have hzlt := hdisjoint.nonempty z hz
        rw [← hend, htouch] at hzlt
        rcases hyfree.apart z hz with hle | hle
        · exact UInt64.not_lt.2 hle hzlt
        · rw [← hend, htouch] at hle
          exact UInt64.not_lt.2 hle hylt

end Claim

namespace RangeClaims

open Claim (Disjoint Separated)

/-- Claims with different values do not touch themselves once they have taken their ranges. -/
theorem separated_foldl (served : List (Claim α)) {ranges : List (Claim α)}
    (hdisjoint : Disjoint ranges) (h : Separated ranges)
    (hnew : ∀ x ∈ ranges, ∀ c ∈ served, x.value ≠ c.value)
    (hdistinct : served.Pairwise fun c d => c.value ≠ d.value) :
    Separated (served.foldl (fun taken c => Claim.take c.start c.stop c.value taken) ranges) := by
  induction served generalizing ranges with
  | nil => exact h
  | cons c served ih =>
      obtain ⟨hc, hserved⟩ := List.pairwise_cons.1 hdistinct
      have hcnew : ∀ x ∈ ranges, x.value ≠ c.value :=
        fun x hx => hnew x hx c (List.mem_cons_self ..)
      refine ih (Claim.disjoint_take hdisjoint) (h.take hdisjoint c.start c.stop hcnew) ?_ hserved
      intro x hx d hd
      rcases Claim.mem_take hdisjoint hx with hx | hx
      · exact hnew x hx d (List.mem_cons_of_mem _ hd)
      · rw [hx.value_eq]
        exact hc d hd

theorem separated_resolve (r : RangeClaims α) (priority : Claim α → Claim α → Ordering)
    (h : r.claims.Pairwise fun c d => c.value ≠ d.value) :
    Separated (r.resolve priority) := by
  refine separated_foldl _ ⟨by simp, .nil⟩ (by simp [Separated]) (by simp) ?_
  exact h.perm (List.mergeSort_perm _ _).symm fun hne => hne.symm

/-! ## Claims by their places -/

/-- Whether the claim at a place is the one that an address goes to: it covers the address, and it
is the least of those that do, and the first of equal ones. -/
def ServedBy (priority : Claim α → Claim α → Ordering) (claims : List (Claim α)) (a : UInt64)
    (i : Nat) : Prop :=
  ∃ c, claims[i]? = some c ∧ c.Covers a ∧ ∀ j d, claims[j]? = some d → d.Covers a →
    priority c d = .lt ∨ priority c d = .eq ∧ i ≤ j

theorem ServedBy.unique {priority : Claim α → Claim α → Ordering} [Std.OrientedCmp priority]
    {claims : List (Claim α)} {a : UInt64} {i j : Nat} (hi : ServedBy priority claims a i)
    (hj : ServedBy priority claims a j) : i = j := by
  obtain ⟨c, hc, hccov, hcleast⟩ := hi
  obtain ⟨d, hd, hdcov, hdleast⟩ := hj
  rcases hcleast j d hd hdcov with hlt | ⟨heq, hle⟩
  · have hgt := Std.OrientedCmp.gt_of_lt hlt
    rcases hdleast i c hc hccov with h | ⟨h, -⟩
    · rw [hgt] at h
      cases h
    · rw [hgt] at h
      cases h
  · have hsym := Std.OrientedCmp.eq_symm heq
    rcases hdleast i c hc hccov with h | ⟨-, h⟩
    · rw [hsym] at h
      cases h
    · exact Nat.le_antisymm hle h

def placed (claims : List (Claim α)) : List (Claim (Nat × α)) :=
  (claims.zipIdx.map fun c => c.1.map (c.2, ·)).filter fun c => c.start < c.stop

def byValue (priority : Claim α → Claim α → Ordering) (c d : Claim (Nat × α)) : Ordering :=
  priority (c.map Prod.snd) (d.map Prod.snd)

instance {priority : Claim α → Claim α → Ordering} [Std.TransCmp priority] :
    Std.TransCmp (byValue priority) where
  eq_swap {c d} := by
    rw [byValue, byValue]
    exact Std.OrientedCmp.eq_swap
  isLE_trans {c d e} hcd hde := by
    rw [byValue] at hcd hde ⊢
    exact Std.TransCmp.isLE_trans hcd hde

variable {claims : List (Claim α)} {c : Claim (Nat × α)}

theorem mem_placed_iff : c ∈ placed claims ↔
    claims[c.value.1]? = some (c.map Prod.snd) ∧ c.start < c.stop := by
  obtain ⟨start, stop, i, value⟩ := c
  simp only [placed, List.mem_filter, List.mem_map, Prod.exists, decide_eq_true_eq,
    List.mem_zipIdx_iff_getElem?, Claim.map, and_congr_left_iff]
  intro _
  constructor
  · rintro ⟨d, j, hd, heq⟩
    cases heq
    exact hd
  · intro h
    exact ⟨_, i, h, rfl⟩

theorem increasing_placed (claims : List (Claim α)) :
    (placed claims).Pairwise fun c d => c.value.1 < d.value.1 := by
  have hplaces : (claims.zipIdx.map Prod.snd).Pairwise (· < ·) := by
    rw [List.zipIdx_map_snd]
    exact List.pairwise_lt_range' 1
  rw [List.pairwise_map] at hplaces
  have htagged : (claims.zipIdx.map fun c => c.1.map (c.2, ·)).Pairwise
      fun c d : Claim (Nat × α) => c.value.1 < d.value.1 := List.pairwise_map.2 hplaces
  exact htagged.filter _

theorem map_placed (claims : List (Claim α)) :
    (placed claims).map (Claim.map Prod.snd) = (claims.foldl push empty).claims := by
  have hvalues : claims.zipIdx.map (fun c => Claim.map Prod.snd (c.1.map (c.2, ·))) = claims :=
    List.zipIdx_map_fst 0 claims
  have hmap := List.filter_map (p := fun c : Claim α => decide (c.start < c.stop))
    (f := Claim.map Prod.snd) (l := claims.zipIdx.map fun c => c.1.map (c.2, ·))
  rw [List.map_map] at hmap
  rw [foldl_push, empty, List.nil_append]
  exact hmap.symm.trans (congrArg _ hvalues)

/-- Ranges do not depend on the places of their claims. -/
theorem map_resolve (claims : List (Claim α)) (priority : Claim α → Claim α → Ordering) :
    ((⟨placed claims⟩ : RangeClaims (Nat × α)).resolve (byValue priority)).map
      (Claim.map Prod.snd) = (claims.foldl push empty).resolve priority := by
  have hclaims : List.Forall₂ (SameClaim fun (v : Nat × α) w => v.2 = w) (placed claims)
      (claims.foldl push empty).claims := by
    rw [← map_placed, List.forall₂_map_right_iff, List.forall₂_same]
    exact fun _ _ => ⟨rfl, rfl, rfl⟩
  have hpriority (c c' : Claim (Nat × α)) (d d' : Claim α)
      (h : SameClaim (fun (v : Nat × α) w => v.2 = w) c d)
      (h' : SameClaim (fun (v : Nat × α) w => v.2 = w) c' d') :
      byValue priority c c' = priority d d' := by
    rw [← sameClaim_iff.1 h, ← sameClaim_iff.1 h']
    rfl
  have hranges := forall₂_resolve (r := ⟨placed claims⟩) hclaims hpriority
  rw [← List.forall₂_eq_eq_eq, List.forall₂_map_left_iff]
  exact hranges.imp fun _ _ => sameClaim_iff.1

theorem servedBy_of_owner {priority : Claim α → Claim α → Ordering} [Std.TransCmp priority]
    {a : UInt64}
    (h : owner? ((⟨placed claims⟩ : RangeClaims (Nat × α)).served (byValue priority)) a = some c) :
    ServedBy priority claims a c.value.1 := by
  obtain ⟨before, after, hsplit, hcov, hbefore, hafter⟩ := isFirstLeast_of_owner? h
  have hmem : c ∈ placed claims := by
    rw [show placed claims = before ++ c :: after from hsplit]
    simp
  refine ⟨_, (mem_placed_iff.1 hmem).1, hcov, ?_⟩
  intro j d hd hdcov
  have hplaced : (d.map (j, ·)) ∈ placed claims :=
    mem_placed_iff.2 ⟨hd, UInt64.lt_of_le_of_lt hdcov.1 hdcov.2⟩
  have horder := increasing_placed claims
  rw [show placed claims = before ++ c :: after from hsplit] at hplaced horder
  rcases List.mem_append.1 hplaced with hin | hin
  · exact .inl (hbefore _ hin hdcov)
  · rcases List.mem_cons.1 hin with heq | hin
    · subst heq
      exact .inr ⟨Std.ReflCmp.compare_self, Nat.le_refl _⟩
    · have hlater := (List.pairwise_cons.1 (List.pairwise_append.1 horder).2.1).1 _ hin
      rcases Ordering.isLE_iff_eq_lt_or_eq_eq.1 (hafter _ hin hdcov) with hlt | heq
      · exact .inl hlt
      · exact .inr ⟨heq, Nat.le_of_lt hlater⟩

/-- The place of a range is that of the claim that all of its addresses go to. -/
theorem served_of_mem_resolve {priority : Claim α → Claim α → Ordering} [Std.TransCmp priority]
    {x : Claim (Nat × α)}
    (hx : x ∈ (⟨placed claims⟩ : RangeClaims (Nat × α)).resolve (byValue priority)) :
    claims[x.value.1]?.map Claim.value = some x.value.2 ∧ x.Covers x.start ∧
      ∀ a, x.Covers a → ServedBy priority claims a x.value.1 := by
  have hplaced := divides_resolve (⟨placed claims⟩ : RangeClaims (Nat × α)) (byValue priority)
  have hstart : x.Covers x.start := ⟨UInt64.le_refl _, hplaced.disjoint.nonempty x hx⟩
  obtain ⟨c, hvalue, -, -, hc⟩ := hplaced.owned x hx
  have hmem : c ∈ placed claims := List.mem_mergeSort.1 (List.mem_of_find?_eq_some (hc _ hstart))
  rw [← hvalue, (mem_placed_iff.1 hmem).1]
  exact ⟨rfl, hstart, fun a ha => servedBy_of_owner (hc a ha)⟩

theorem resolve_covers_iff (claims : List (Claim α)) (priority : Claim α → Claim α → Ordering)
    [Std.TransCmp priority] (a : UInt64) :
    (∃ x ∈ (claims.foldl push empty).resolve priority, x.Covers a) ↔
      ∃ c ∈ claims, c.Covers a := by
  have hdivides := divides_resolve (claims.foldl push empty) priority
  constructor
  · rintro ⟨x, hx, hcov⟩
    obtain ⟨c, -, -, -, hc⟩ := hdivides.owned x hx
    have hleast := isFirstLeast_of_owner? (hc a hcov)
    have hmem := hleast.mem
    rw [foldl_push, empty, List.nil_append] at hmem
    exact ⟨c, (List.mem_filter.1 hmem).1, hleast.holds⟩
  · rintro ⟨c, hc, hcov⟩
    have hkept : c ∈ (claims.foldl push empty).claims := by
      rw [foldl_push, empty, List.nil_append]
      exact List.mem_filter.2 ⟨hc, decide_eq_true (UInt64.lt_of_le_of_lt hcov.1 hcov.2)⟩
    cases hfound : owner? ((claims.foldl push empty).served priority) a with
    | none => exact absurd hcov (owner?_eq_none_iff.1 hfound c hkept)
    | some d => exact hdivides.covers a d hfound

/-! ## Shares -/

/-- Whether ranges are the shares of some claims: they are in order and not empty, they have the
addresses that some claim covers, each is part of the one claim that all of its addresses go to, and
two that touch are parts of different claims. -/
structure Shares (priority : Claim α → Claim α → Ordering) (claims ranges : List (Claim α)) :
    Prop where
  disjoint : Disjoint ranges
  covers_iff : ∀ a, (∃ x ∈ ranges, x.Covers a) ↔ ∃ c ∈ claims, c.Covers a
  served : ∀ x ∈ ranges, ∃ i c, claims[i]? = some c ∧ x.value = c.value ∧
    ∀ a, x.Covers a → ServedBy priority claims a i
  separated : ∀ x ∈ ranges, ∀ y ∈ ranges, x.stop = y.start → ∀ i,
    ServedBy priority claims x.start i → ¬ ServedBy priority claims y.start i

theorem resolve_shares (claims : List (Claim α)) (priority : Claim α → Claim α → Ordering)
    [Std.TransCmp priority] :
    Shares priority claims ((claims.foldl push empty).resolve priority) := by
  have hdivides := divides_resolve (claims.foldl push empty) priority
  have hdistinct : (placed claims).Pairwise fun c d => c.value ≠ d.value :=
    (increasing_placed claims).imp fun hlt heq => Nat.ne_of_lt hlt (congrArg Prod.fst heq)
  refine ⟨hdivides.disjoint, resolve_covers_iff claims priority, ?_, ?_⟩
  · intro x hx
    rw [← map_resolve] at hx
    obtain ⟨p, hp, rfl⟩ := List.mem_map.1 hx
    obtain ⟨hvalue, -, hserved⟩ := served_of_mem_resolve hp
    obtain ⟨c, hc, hvalue⟩ := Option.map_eq_some_iff.1 hvalue
    exact ⟨p.value.1, c, hc, hvalue.symm, hserved⟩
  · intro x hx y hy htouch i hxi hyi
    rw [← map_resolve] at hx hy
    obtain ⟨p, hp, rfl⟩ := List.mem_map.1 hx
    obtain ⟨q, hq, rfl⟩ := List.mem_map.1 hy
    obtain ⟨hpvalue, hpfirst, hpserved⟩ := served_of_mem_resolve hp
    obtain ⟨hqvalue, hqfirst, hqserved⟩ := served_of_mem_resolve hq
    have hplace : p.value.1 = q.value.1 :=
      ((hpserved _ hpfirst).unique hxi).trans (hyi.unique (hqserved _ hqfirst))
    rw [hplace, hqvalue] at hpvalue
    have hvalue : p.value = q.value := Prod.ext hplace (Option.some.inj hpvalue).symm
    exact separated_resolve ⟨placed claims⟩ (byValue priority) hdistinct p hp q hq htouch hvalue

def bySize (c d : Claim α) : Ordering := compare c.length d.length

instance : Std.TransCmp (bySize (α := α)) :=
  inferInstanceAs (Std.TransCmp (compareOn Claim.length))

/-- A claim that loses its middle and its end, one of the two that take them, an empty one, and one
that comes too late. -/
def sampleClaims : List (Claim String) :=
  [⟨0x10, 0x40, "a"⟩, ⟨0x20, 0x28, "b"⟩, ⟨0x60, 0x60, "none"⟩, ⟨0x30, 0x50, "c"⟩,
    ⟨0x20, 0x28, "late"⟩]

theorem resolve_shares_sample : Std.TransCmp (bySize (α := String)) ∧
    Shares bySize sampleClaims ((sampleClaims.foldl push empty).resolve bySize) :=
  ⟨inferInstance, resolve_shares sampleClaims bySize⟩

example : (sampleClaims.foldl push empty).resolve bySize =
    [⟨0x10, 0x20, "a"⟩, ⟨0x20, 0x28, "b"⟩, ⟨0x28, 0x30, "a"⟩, ⟨0x30, 0x50, "c"⟩] := by
  cbv

end RangeClaims

end Postmortem
