import Postmortem.Proofs.RangeOwners
import Postmortem.Proofs.RelatedLists

/-!
# Claims of related values

Claims on the same ranges, with values that are related one by one, receive the same ranges as long
as the priorities treat related claims alike.
-/

set_option autoImplicit false

namespace Postmortem

variable {α β : Type} {R : α → β → Prop}

structure SameClaim (R : α → β → Prop) (c : Claim α) (d : Claim β) : Prop where
  start : c.start = d.start
  stop : c.stop = d.stop
  value : R c.value d.value

theorem sameClaim_iff {f : α → β} {c : Claim α} {d : Claim β} :
    SameClaim (fun v w => f v = w) c d ↔ (⟨c.start, c.stop, f c.value⟩ : Claim β) = d := by
  constructor
  · rintro ⟨hstart, hstop, hvalue⟩
    rw [hstart, hstop, hvalue]
  · rintro rfl
    exact ⟨rfl, rfl, rfl⟩

theorem SameClaim.covers_iff {c : Claim α} {d : Claim β} {a : UInt64} (h : SameClaim R c d) :
    c.Covers a ↔ d.Covers a := by
  rw [Claim.Covers, Claim.Covers, h.start, h.stop]

namespace Claim

theorem forall₂_take {start stop : UInt64} {v : α} {w : β} {l : List (Claim α)}
    {m : List (Claim β)} (hvw : R v w) (h : List.Forall₂ (SameClaim R) l m) :
    List.Forall₂ (SameClaim R) (take start stop v l) (take start stop w m) := by
  induction h generalizing start with
  | nil =>
      rw [take, take]
      split
      · exact .cons ⟨rfl, rfl, hvw⟩ .nil
      · exact .nil
  | @cons c d l m hcd hrest ih =>
      have hold := List.Forall₂.cons hcd hrest
      rw [take, take, hcd.start, hcd.stop]
      split
      · exact .cons hcd ih
      · split
        · split
          · exact .cons ⟨rfl, rfl, hvw⟩ hold
          · exact hold
        · split
          · exact .cons ⟨rfl, rfl, hvw⟩ (.cons hcd ih)
          · exact .cons hcd ih

/-- Of disjoint ranges, only one covers an address. -/
theorem Disjoint.eq_of_covers {ranges : List (Claim α)} {x y : Claim α} {a : UInt64}
    (h : Disjoint ranges) (hx : x ∈ ranges) (hy : y ∈ ranges) (hxa : x.Covers a)
    (hya : y.Covers a) : x = y := by
  induction ranges with
  | nil => cases hx
  | cons z rest ih =>
      have hapart : ∀ w ∈ rest, w.Covers a → ¬ z.Covers a := fun w hw hwa hza =>
        hza.not_apart hwa (.inr ((List.pairwise_cons.1 h.ordered).1 w hw))
      rcases List.mem_cons.1 hx with rfl | hxrest
      · rcases List.mem_cons.1 hy with rfl | hyrest
        · rfl
        · exact absurd hxa (hapart y hyrest hya)
      · rcases List.mem_cons.1 hy with rfl | hyrest
        · exact absurd hya (hapart x hxrest hxa)
        · exact ih h.tail hxrest hyrest

end Claim

namespace RangeClaims

theorem forall₂_resolve {r : RangeClaims α} {r' : RangeClaims β}
    {priority : Claim α → Claim α → Ordering} {priority' : Claim β → Claim β → Ordering}
    (h : List.Forall₂ (SameClaim R) r.claims r'.claims)
    (hpriority : ∀ c c' d d', SameClaim R c d → SameClaim R c' d' →
      priority c c' = priority' d d') :
    List.Forall₂ (SameClaim R) (r.resolve priority) (r'.resolve priority') := by
  have hserved := forall₂_mergeSort (r := fun c c' => (priority c c').isLE)
    (s := fun d d' => (priority' d d').isLE) h
    fun c c' d d' hc hc' => by rw [hpriority c c' d d' hc hc']
  have hfold {l : List (Claim α)} {m : List (Claim β)} {taken : List (Claim α)}
      {taken' : List (Claim β)} (hlm : List.Forall₂ (SameClaim R) l m)
      (htaken : List.Forall₂ (SameClaim R) taken taken') :
      List.Forall₂ (SameClaim R)
        (l.foldl (fun taken c => Claim.take c.start c.stop c.value taken) taken)
        (m.foldl (fun taken d => Claim.take d.start d.stop d.value taken) taken') := by
    induction hlm generalizing taken taken' with
    | nil => exact htaken
    | @cons c d _ _ hcd _ ih =>
        rw [List.foldl_cons, List.foldl_cons, hcd.start, hcd.stop]
        exact ih (Claim.forall₂_take hcd.value htaken)
  exact hfold hserved .nil

end RangeClaims

end Postmortem
