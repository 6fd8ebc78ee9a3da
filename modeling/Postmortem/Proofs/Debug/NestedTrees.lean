import Postmortem.Proofs.Debug.NestedCalls

/-!
# Trees of nested calls

The tree of a builder holds each call once, with calls and lines in the order of their addresses.  If
the calls are nested, each stands in the call around it, and each line is given to the calls that
cover its start.
-/

set_option autoImplicit false

namespace Postmortem.Debug

/-! ## Order -/

/-- Whether an outline holds the calls that were opened, one line of the outer function for each that
was read, and lines in the order of their addresses. -/
structure Ordered (opened : List InlineCall) (read : List LineInfo) (now : UInt64) (o : Outline) :
    Prop where
  calls : o.links.map Prod.snd = opened
  lines : (o.lines.map fun l => (l.address, l.size)) = read.map fun l => (l.address, l.size)
  sorted : ∀ p, p ∈ o.settled ∨ p ∈ o.pending →
    (p.lines.Pairwise fun l m => l.address ≤ m.address) ∧ ∀ l ∈ p.lines, l.address ≤ now

variable {opened : List InlineCall} {read : List LineInfo} {now a : UInt64} {o o' : Outline}
  {closes : Nat → InlineCall → Bool}

theorem LineInfo.address_seenFrom (l : LineInfo) (f : Option InlineCall) :
    (l.seenFrom f).address = l.address := by
  cases f with
  | none => rfl
  | some c => rfl

theorem LineInfo.size_seenFrom (l : LineInfo) (f : Option InlineCall) :
    (l.seenFrom f).size = l.size := by
  cases f with
  | none => rfl
  | some c => rfl

namespace Ordered

theorem empty : Ordered [] [] 0 {} := ⟨rfl, rfl, by simp⟩

theorem close (h : Ordered opened read now o) (hto : o.ClosesTo closes o') (hle : now ≤ a) :
    Ordered opened read a o' where
  calls := by rw [hto.links_eq, h.calls]
  lines := by rw [hto.lines, h.lines]
  sorted p hp := by
    have hp : p ∈ o.settled ∨ p ∈ o.pending :=
      hp.elim (fun hp => (hto.settled p hp).imp_right And.left) fun hp => .inr (hto.pending p hp)
    refine ⟨(h.sorted p hp).1, fun l hl => ?_⟩
    exact UInt64.le_trans ((h.sorted p hp).2 l hl) hle

theorem openCall (h : Ordered opened read now o) (c : InlineCall) :
    Ordered (opened ++ [c]) read now (o.openCall c) where
  calls := by rw [Outline.links_openCall, List.map_append, h.calls]; rfl
  lines := h.lines
  sorted p hp := by
    rw [Outline.settled_openCall, Outline.pending_openCall, List.mem_cons] at hp
    rcases hp with hp | rfl | hp
    · exact h.sorted p (.inl hp)
    · exact ⟨.nil, nofun⟩
    · exact h.sorted p (.inr hp)

theorem addLine {l : LineInfo} (h : Ordered opened read l.address o) :
    Ordered opened (read ++ [l]) l.address (o.addLine l) where
  calls := by rw [Outline.links_addLine, h.calls]
  lines := by
    rw [Outline.addLine, List.map_append, List.map_append, h.lines, List.map_singleton,
      List.map_singleton, LineInfo.address_seenFrom, LineInfo.size_seenFrom]
  sorted p hp := by
    rw [Outline.settled_addLine] at hp
    rcases hp with hp | hp
    · exact h.sorted p (.inl hp)
    · obtain ⟨q, hq, f, hlines⟩ := Outline.mem_pending_addLineTo hp
      obtain ⟨hsorted, hle⟩ := h.sorted q (.inr hq)
      rw [hlines]
      refine ⟨List.pairwise_append.2 ⟨hsorted, List.pairwise_singleton _ _, ?_⟩, ?_⟩
      · intro m hm n hn
        rw [List.mem_singleton.1 hn, LineInfo.address_seenFrom]
        exact hle m hm
      · intro m hm
        rcases List.mem_append.1 hm with hm | hm
        · exact hle m hm
        · rw [List.mem_singleton.1 hm, LineInfo.address_seenFrom]
          exact UInt64.le_refl _

end Ordered

/-! ## Nested calls -/

/-- The lines of a function: those that start in its code, or all of the outer function, each with
the place of the call at its start that is inlined directly into the function, if there is one. -/
def linesOf (calls : List InlineCall) (lines : List LineInfo) (f : Option InlineCall) :
    List LineInfo :=
  (lines.filter fun l => ∀ c ∈ f, c.Covers l.address).map fun l =>
    l.seenFrom (callAt calls (innerDepth f) l.address)

section Lines

variable {calls : List InlineCall} {lines : List LineInfo} {l : LineInfo} {f : Option InlineCall}

theorem linesOf_append (calls : List InlineCall) (lines : List LineInfo) {l : LineInfo}
    (h : ∀ c ∈ f, c.Covers l.address) :
    linesOf calls (lines ++ [l]) f =
      linesOf calls lines f ++ [l.seenFrom (callAt calls (innerDepth f) l.address)] := by
  rw [linesOf, List.filter_append, List.map_append, List.filter_cons_of_pos (by simpa using h)]
  rfl

theorem linesOf_append_of_not_covers (calls : List InlineCall) (lines : List LineInfo)
    {c : InlineCall} (h : ¬ c.Covers l.address) :
    linesOf calls (lines ++ [l]) (some c) = linesOf calls lines (some c) := by
  rw [linesOf, List.filter_append, List.filter_cons_of_neg (by simpa using h), List.filter_nil,
    List.append_nil]
  rfl

theorem linesOf_eq_nil {c : InlineCall} (h : ∀ l ∈ lines, l.address < c.address) :
    linesOf calls lines (some c) = [] := by
  rw [linesOf, List.filter_eq_nil_iff.2, List.map_nil]
  intro l hl hcov
  have hcov : c.Covers l.address := by simpa using hcov
  exact UInt64.not_le.2 (h l hl) hcov.1

end Lines

/-- Whether the calls of an outline stand where they belong, and have the lines that belong to
them. -/
structure NestedAt (calls opened : List InlineCall) (read : List LineInfo) (now : UInt64)
    (o : Outline) : Prop where
  chain : ChainAt opened now o.chain
  stacked : Stacked o.chain
  callers : ∀ x ∈ o.links, CalledFrom x.1 x.2
  settled : ∀ p ∈ o.settled, p.call.stop ≤ now ∧ p.lines = linesOf calls read (some p.call)
  pending : ∀ p ∈ o.pending, p.lines = linesOf calls read (some p.call)
  outer : o.lines = linesOf calls read none

namespace NestedAt

variable {calls rest : List InlineCall} {c : InlineCall} {o₁ o₂ : Outline}

theorem empty (calls : List InlineCall) : NestedAt calls [] [] 0 {} where
  chain := .empty
  stacked := trivial
  callers := by simp
  settled := by simp
  pending := by simp
  outer := rfl

theorem close (h : NestedAt calls opened read now o) (hle : now ≤ a) (hended : o.EndedAt a o₁) :
    NestedAt calls opened read a o₁ where
  chain := by
    rw [hended.chain_eq]
    exact h.chain.ended hle
  stacked := by
    rw [hended.chain_eq]
    exact h.stacked.dropWhile _
  callers := by
    rw [hended.links_eq]
    exact h.callers
  settled p hp := by
    rcases hended.settled p hp with hp | ⟨hp, -, -, hstop⟩
    · exact ⟨UInt64.le_trans (h.settled p hp).1 hle, (h.settled p hp).2⟩
    · exact ⟨of_decide_eq_true hstop, h.pending p hp⟩
  pending p hp := h.pending p (hended.pending p hp)
  outer := hended.lines.trans h.outer

/-- Nothing is closed because of the depth of a call if no more calls are open than that. -/
theorem cut {depth : UInt32} (h : NestedAt calls opened read a o₁) (hcut : o₁.CutTo depth o₂)
    (hlength : o₁.chain.length ≤ depth.toNat) : NestedAt calls opened read a o₂ where
  chain := by
    rw [hcut.chain_eq_of_length_le hlength]
    exact h.chain
  stacked := by
    rw [hcut.chain_eq_of_length_le hlength]
    exact h.stacked
  callers := by
    rw [hcut.links_eq]
    exact h.callers
  settled p hp := by
    rcases hcut.settled p hp with hp | ⟨-, n, hn, hdepth⟩
    · exact h.settled p hp
    · exact absurd (of_decide_eq_true hdepth) (Nat.not_lt.2 (Nat.le_trans hn hlength))
  pending p hp := h.pending p (hcut.pending p hp)
  outer := hcut.lines.trans h.outer

theorem openCall {sorted : List InlineCall} (hnested : ProperlyNested sorted)
    (hsorted : sorted.Pairwise fun c d => FunctionBuilder.callOrder c d = true)
    (hsplit : sorted = opened ++ c :: rest) (h : NestedAt calls opened read now o)
    (hle : now ≤ c.address) (hbefore : ∀ l ∈ read, l.address < c.address)
    (hended : o.EndedAt c.address o₁) (hcut : o₁.CutTo c.depth o₂) :
    NestedAt calls (opened ++ [c]) read c.address (o₂.openCall c) := by
  obtain ⟨hlength, hcaller, hstops⟩ :=
    called_from_innermost hnested hsorted hsplit h.chain h.stacked hle
  rw [← hended.chain_eq] at hlength hcaller hstops
  have h₂ := (h.close hle hended).cut hcut (Nat.le_of_eq hlength)
  have heq := hcut.chain_eq_of_length_le (Nat.le_of_eq hlength)
  rw [← heq] at hlength hcaller hstops
  refine ⟨h₂.chain.cons hstops, ⟨hlength.symm, h₂.stacked⟩, ?_, h₂.settled, ?_, h₂.outer⟩
  · rw [Outline.links_openCall]
    intro x hx
    rcases List.mem_append.1 hx with hx | hx
    · exact h₂.callers x hx
    · exact List.mem_singleton.1 hx ▸ hcaller
  · rw [Outline.pending_openCall]
    exact List.forall_mem_cons.2 ⟨(linesOf_eq_nil hbefore).symm, h₂.pending⟩

/-- Each open call is given the line with the place of the next call inside it, which is the one at
the next depth. -/
theorem lines_addLineTo {l : LineInfo} {inner : Option InlineCall} {ts : List CallTree}
    (hstacked : Stacked (ts.map CallTree.call))
    (hat : ∀ t ∈ ts, t.call.Covers l.address ∧
      callAt calls t.call.depth.toNat l.address = some t.call)
    (hinner : callAt calls ts.length l.address = inner)
    (hlines : ∀ p ∈ Outline.pendingIn ts, p.lines = linesOf calls read (some p.call)) :
    (∀ p ∈ Outline.pendingIn (Outline.addLineTo l inner ts),
      p.lines = linesOf calls (read ++ [l]) (some p.call)) ∧
      (ts.map CallTree.call).getLast?.or inner = callAt calls 0 l.address := by
  induction ts generalizing inner with
  | nil => exact ⟨fun _ hp => absurd hp List.not_mem_nil, hinner.symm⟩
  | cons t rest ih =>
      obtain ⟨⟨hcov, ht⟩, hat⟩ := List.forall_mem_cons.1 hat
      obtain ⟨htlines, hlines⟩ := List.forall_mem_cons.1 hlines
      have hdepth : t.call.depth.toNat = rest.length := hstacked.1.trans (List.length_map _)
      obtain ⟨hrest, houter⟩ := ih hstacked.2 hat (hdepth ▸ ht) hlines
      refine ⟨List.forall_mem_cons.2 ⟨?_, hrest⟩, ?_⟩
      · have hcov : ∀ c ∈ some t.call, c.Covers l.address := fun c hc => Option.some.inj hc ▸ hcov
        have hnext : callAt calls (innerDepth (some t.call)) l.address = inner := by
          rw [innerDepth, hdepth]
          exact hinner
        exact (linesOf_append calls read hcov).trans (by rw [hnext, ← htlines]; rfl) |>.symm
      · rw [Outline.outermost_cons, houter]

theorem addLine {l : LineInfo} (hnested : ProperlyNested calls)
    (hmem : ∀ c, c.address ≤ l.address → (c ∈ calls ↔ c ∈ opened))
    (h : NestedAt calls opened read now o) (hle : now ≤ l.address)
    (hended : o.EndedAt l.address o₁) :
    NestedAt calls opened (read ++ [l]) l.address (o₁.addLine l) := by
  have h₁ := h.close hle hended
  have hcov (c : InlineCall) : c ∈ o₁.chain ↔ c ∈ calls ∧ c.Covers l.address := by
    rw [hended.chain_eq, h.chain.mem_ended_iff hle]
    exact and_congr_left fun hcov => (hmem c hcov.1).symm
  have hat (c : InlineCall) (n : Nat) :
      callAt calls n l.address = some c ↔ c ∈ o₁.chain ∧ c.depth.toNat = n := by
    rw [hnested.callAt_eq_some, hcov, and_assoc]
    exact and_congr_right fun _ => and_comm
  -- No call at the line is deeper than the innermost open one, which is given the line unchanged.
  have hnone : callAt calls o₁.opened.length l.address = none := by
    refine Option.eq_none_iff_forall_ne_some.2 fun c hc => ?_
    obtain ⟨hc, hdepth⟩ := (hat c _).1 hc
    have hlt := h₁.stacked.depth_lt hc
    rw [Outline.chain, List.length_map] at hlt
    omega
  have hopen : ∀ t ∈ o₁.opened, t.call.Covers l.address ∧
      callAt calls t.call.depth.toNat l.address = some t.call := by
    intro t ht
    have ht : t.call ∈ o₁.chain := List.mem_map_of_mem ht
    exact ⟨((hcov _).1 ht).2, (hat _ _).2 ⟨ht, rfl⟩⟩
  obtain ⟨hpending, houter⟩ := lines_addLineTo h₁.stacked hopen hnone h₁.pending
  refine ⟨?_, ?_, ?_, ?_, hpending, ?_⟩
  · rw [Outline.chain_addLine]
    exact h₁.chain
  · rw [Outline.chain_addLine]
    exact h₁.stacked
  · rw [Outline.links_addLine]
    exact h₁.callers
  · rw [Outline.settled_addLine]
    intro p hp
    obtain ⟨hstop, hlines⟩ := h₁.settled p hp
    refine ⟨hstop, ?_⟩
    rw [linesOf_append_of_not_covers _ _ fun hcov => UInt64.not_lt.2 hstop hcov.2, hlines]
  · rw [Option.or_none] at houter
    rw [linesOf_append _ _ (f := none) (by simp), innerDepth, ← houter, ← h₁.outer]
    rfl

end NestedAt

/-! ## Built trees -/

namespace FunctionBuilder

open CallTree

variable {b : FunctionBuilder} {forest : List CallTree}

/-- Whether calls and lines are in the order of their addresses, everywhere in a tree, and each line
is there once in the outer function. -/
structure InOrder (b : FunctionBuilder) (forest : List CallTree) : Prop where
  roots : (forest.map call).Pairwise fun c d => c.address ≤ d.address
  inner : ∀ i ∈ inliningsIn none forest,
    (i.callee.inner.map call).Pairwise fun c d => c.address ≤ d.address
  lines : ∀ i ∈ inliningsIn none forest, i.callee.lines.Pairwise fun l m => l.address ≤ m.address
  outer : (b.finish.lines.map fun l => (l.address, l.size)) =
    b.sortedLines.map fun l => (l.address, l.size)

/-- Whether each call of a tree stands in the call around it, and each line at the calls that cover
its start and in the outer function. -/
structure InPlace (b : FunctionBuilder) (forest : List CallTree) : Prop where
  callers : ∀ i ∈ inliningsIn none forest, CalledFrom (i.caller.map call) i.callee.call
  lines : ∀ i ∈ inliningsIn none forest,
    i.callee.lines = linesOf b.calls b.sortedLines (some i.callee.call)
  outer : b.finish.lines = linesOf b.calls b.sortedLines none

theorem exists_run (b : FunctionBuilder) : ∃ now o,
    run b.compDir b.sortedCalls b.sortedLines (Outline.toStack b {}) = o.toStack b ∧
      Ordered b.sortedCalls b.sortedLines now o ∧
      (ProperlyNested b.calls → NestedAt b.calls b.sortedCalls b.sortedLines now o) := by
  have hperm := List.mergeSort_perm b.calls callOrder
  have hsorted := sorted_calls b.calls
  refine run_induction b b.sortedCalls b.sortedLines
    (fun opened read now o => Ordered opened read now o ∧
      (ProperlyNested b.calls → NestedAt b.calls opened read now o))
    ?_ ?_ (hsorted.imp address_le_of_callOrder) (sorted_mergeSort _ _)
    ⟨.empty, fun _ => .empty b.calls⟩
  · intro opened c rest read now o o₁ o₂ hsplit ⟨hordered, hnested⟩ hle hbefore hended hcut
    refine ⟨((hordered.close hended hle).close hcut (UInt64.le_refl _)).openCall c, fun h => ?_⟩
    exact (hnested h).openCall (h.perm hperm.symm) hsorted hsplit hle hbefore hended hcut
  · intro opened rest read l more now o o₁ hsplit _ ⟨hordered, hnested⟩ hle hrest hended
    refine ⟨(hordered.close hended hle).addLine, fun h => ?_⟩
    refine (hnested h).addLine h (fun c hc => ?_) hle hended
    rw [← hperm.mem_iff, ← sortedCalls, hsplit, List.mem_append]
    refine ⟨fun hmem => hmem.resolve_right fun hmem => ?_, .inl⟩
    exact UInt64.not_le.2 (hrest c hmem) hc

theorem Finishes.inOrder {o : Outline} {now : UInt64} (h : b.Finishes o forest)
    (ho : Ordered b.sortedCalls b.sortedLines now o) : b.InOrder forest := by
  have hcalls : ((inliningsIn none forest).map (·.callee.call)).Pairwise fun c d =>
      c.address ≤ d.address := by
    rw [(h.builds ho.calls).calls]
    exact (sorted_calls b.calls).imp address_le_of_callOrder
  refine ⟨hcalls.sublist (roots_sublist none forest), ?_, ?_, ?_⟩
  · intro i hi
    exact hcalls.sublist (inner_sublist_of_mem_inliningsIn hi)
  · intro i hi
    exact (ho.sorted _ (h.placed i hi)).1
  · rw [h.lines]
    exact ho.lines

theorem Finishes.inPlace {o : Outline} {now : UInt64} (h : b.Finishes o forest)
    (ho : NestedAt b.calls b.sortedCalls b.sortedLines now o) : b.InPlace forest := by
  refine ⟨?_, ?_, h.lines.trans ho.outer⟩
  · intro i hi
    exact ho.callers _ (h.mem_links hi)
  · intro i hi
    rcases h.placed i hi with hp | hp
    · exact (ho.settled _ hp).2
    · exact ho.pending _ hp

/-- The tree of a builder has one node for each call, with calls and lines in the order of their
addresses; and if the calls are nested, it has all calls and lines where they belong. -/
theorem tree_holds_calls_and_lines (b : FunctionBuilder) : ∃ forest, b.Builds forest ∧
    b.InOrder forest ∧ (ProperlyNested b.calls → b.InPlace forest) := by
  obtain ⟨now, o, hrun, hordered, hnested⟩ := exists_run b
  obtain ⟨forest, hforest⟩ := finishes_of_run hrun
  exact ⟨forest, hforest.builds hordered.calls, hforest.inOrder hordered,
    fun h => hforest.inPlace (hnested h)⟩

end FunctionBuilder

end Postmortem.Debug
