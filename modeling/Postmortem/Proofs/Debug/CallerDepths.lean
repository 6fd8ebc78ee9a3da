import Mathlib
import Postmortem.Proofs.Debug.NestedTrees

/-!
# Depths of callers

The depth of a call is compared with the number of open calls, and only the innermost open calls are
closed when they end.  So a caller starts no later than its calls, but it need be neither of lower
depth nor still cover their starts.  A call has such a caller if the last call of lower depth in front
of it is one, and has one itself in turn; or if no two calls overlap except that a deeper one lies
inside an earlier one.
-/

set_option autoImplicit false

namespace Postmortem.Debug

open CallTree FunctionBuilder

/-- Whether the last call of lower depth that is opened in front of a call is of the next lower depth
and covers its start, and so on up to the outer function. -/
inductive Rooted : List InlineCall → InlineCall → Prop where
  | outermost {before : List InlineCall} {c : InlineCall} : c.depth = 0 → Rooted before c
  | inner {before between : List InlineCall} {p c : InlineCall} : Rooted before p →
    p.depth.toNat + 1 = c.depth.toNat → p.Covers c.address → (∀ x ∈ between, c.depth ≤ x.depth) →
    Rooted (before ++ p :: between) c

/-- Whether calls, in the order in which they are opened, overlap only where a deeper one lies inside
an earlier one. -/
def Laminar (calls : List InlineCall) : Prop :=
  calls.Pairwise fun p c => p.stop ≤ c.address ∨ p.depth < c.depth ∧ c.stop ≤ p.stop

/-! ## Calls by the number of calls around them -/

section Levels

variable {chain : List InlineCall} {c : InlineCall} {a : UInt64} {n k : Nat}

/-- A call that has not ended stays where it is when calls are closed at an address. -/
theorem getElem?_reverse_ended (h : chain.reverse[n]? = some c) (hlive : a < c.stop) :
    (chain.dropWhile (·.stop ≤ a)).reverse[n]? = some c := by
  rw [← List.takeWhile_append_dropWhile (p := (·.stop ≤ a)) (l := chain), List.reverse_append] at h
  rcases Nat.lt_or_ge n (chain.dropWhile (·.stop ≤ a)).reverse.length with hlt | hge
  · rwa [List.getElem?_append_left hlt] at h
  · rw [List.getElem?_append_right hge] at h
    have hended := List.mem_takeWhile_imp (List.mem_reverse.1 (List.mem_of_getElem? h))
    exact absurd hlive (UInt64.not_lt.2 (of_decide_eq_true hended))

theorem getElem?_reverse_cut (h : chain.reverse[n]? = some c) (hlt : n < k) :
    (chain.drop (chain.length - k)).reverse[n]? = some c := by
  have hn : n < chain.length := by
    obtain ⟨hn, -⟩ := List.getElem?_eq_some_iff.1 h
    rwa [List.length_reverse] at hn
  rw [List.reverse_drop, List.getElem?_take_of_lt (by omega), h]

theorem split_concat {α : Type} {items before after : List α} {x y : α}
    (h : items ++ [x] = before ++ y :: after) : (after = [] ∧ before = items ∧ y = x) ∨
      ∃ front, after = front ++ [x] ∧ items = before ++ y :: front := by
  rcases List.eq_nil_or_concat after with rfl | ⟨front, z, rfl⟩
  · obtain ⟨rfl, hx⟩ := List.append_inj' h rfl
    exact .inl ⟨rfl, rfl, (List.singleton_inj.1 hx).symm⟩
  · have h : items ++ [x] = (before ++ y :: front) ++ [z] := by simpa using h
    obtain ⟨rfl, hx⟩ := List.append_inj' h rfl
    exact .inr ⟨front, by rw [List.singleton_inj.1 hx, List.concat_eq_append], rfl⟩

/-- If as many calls are open as there may be, the last place is that of the innermost one. -/
theorem head?_of_getElem?_reverse (h : chain.reverse[n]? = some c) (hle : chain.length ≤ n + 1) :
    chain.length = n + 1 ∧ chain.head? = some c := by
  obtain ⟨hn, -⟩ := List.getElem?_eq_some_iff.1 h
  rw [List.length_reverse] at hn
  have hlength : chain.length = n + 1 := by omega
  refine ⟨hlength, ?_⟩
  rw [← List.getLast?_reverse, List.getLast?_eq_getElem?, List.length_reverse, hlength]
  exact h

end Levels

/-! ## Starts of callers -/

/-- Whether open calls have started, and calls start no earlier than their callers. -/
structure StartedAt (now : UInt64) (o : Outline) : Prop where
  chain : ∀ p ∈ o.chain, p.address ≤ now
  callers : ∀ x ∈ o.links, ∀ p ∈ x.1, p.address ≤ x.2.address

namespace StartedAt

variable {closes : Nat → InlineCall → Bool} {now a : UInt64} {o o' : Outline}

theorem empty : StartedAt 0 {} := ⟨nofun, by simp⟩

theorem close (h : StartedAt now o) (hto : o.ClosesTo closes o') (hle : now ≤ a) :
    StartedAt a o' where
  chain p hp := by
    rw [hto.chain] at hp
    exact UInt64.le_trans (h.chain p ((Outline.remaining_sublist ..).subset hp)) hle
  callers := by
    rw [hto.links_eq]
    exact h.callers

theorem openCall {c : InlineCall} (h : StartedAt c.address o) :
    StartedAt c.address (o.openCall c) where
  chain := by
    rw [Outline.chain_openCall]
    exact List.forall_mem_cons.2 ⟨UInt64.le_refl _, h.chain⟩
  callers := by
    rw [Outline.links_openCall]
    refine List.forall_mem_append.2 ⟨h.callers, ?_⟩
    rintro x hx p hp
    obtain rfl := List.mem_singleton.1 hx
    exact h.chain p (List.mem_of_head? hp)

theorem addLine {l : LineInfo} (h : StartedAt now o) : StartedAt now (o.addLine l) where
  chain := by
    rw [Outline.chain_addLine]
    exact h.chain
  callers := by
    rw [Outline.links_addLine]
    exact h.callers

end StartedAt

/-! ## Rooted calls -/

/-- Whether each rooted call stands in a caller of the next lower depth that covers its start, and is
still open, with as many calls around it as its depth says, as long as it has not ended and only
deeper calls are opened behind it. -/
structure RootedAt (opened : List InlineCall) (now : UInt64) (o : Outline) : Prop where
  calls : o.links.map Prod.snd = opened
  called : ∀ {before c after}, opened = before ++ c :: after → Rooted before c →
    ∃ caller, o.links[before.length]? = some (caller, c) ∧
      innerDepth caller = c.depth.toNat ∧ ∀ p ∈ caller, p.Covers c.address
  isOpen : ∀ {before c after}, opened = before ++ c :: after → Rooted before c →
    (∀ x ∈ after, c.depth < x.depth) → now < c.stop → o.chain.reverse[c.depth.toNat]? = some c

namespace RootedAt

variable {opened : List InlineCall} {now a : UInt64} {c : InlineCall} {o o₁ o₂ : Outline}

theorem empty : RootedAt [] 0 {} := by
  refine ⟨rfl, ?_, ?_⟩
  · intro before c after h
    cases before <;> cases h
  · intro before c after h
    cases before <;> cases h

theorem close (h : RootedAt opened now o) (hle : now ≤ a) (hended : o.EndedAt a o₁) :
    RootedAt opened a o₁ where
  calls := by
    rw [hended.links_eq, h.calls]
  called hsplit hrooted := by
    rw [hended.links_eq]
    exact h.called hsplit hrooted
  isOpen hsplit hrooted hdeeper hlive := by
    rw [hended.chain_eq]
    exact getElem?_reverse_ended
      (h.isOpen hsplit hrooted hdeeper (UInt64.lt_of_le_of_lt hle hlive)) hlive

/-- A rooted call is opened with as many calls around it as its depth says, in the last of them. -/
theorem called_from (h : RootedAt opened c.address o₁) (hcut : o₁.CutTo c.depth o₂)
    (hrooted : Rooted opened c) : o₂.chain.length = c.depth.toNat ∧
      innerDepth o₂.chain.head? = c.depth.toNat ∧ ∀ p ∈ o₂.chain.head?, p.Covers c.address := by
  have hlength : o₂.chain.length ≤ c.depth.toNat := by
    rw [hcut.chain_eq, List.length_drop]
    omega
  cases hrooted with
  | outermost hdepth =>
      have hzero : c.depth.toNat = 0 := congrArg UInt32.toNat hdepth
      rw [hzero] at hlength ⊢
      rw [List.length_eq_zero_iff.1 (Nat.le_zero.1 hlength)]
      exact ⟨rfl, rfl, nofun⟩
  | @inner before between p _ hp hdepth hcov hbetween =>
      -- `p` is still open, since all calls behind it are deeper and it covers the start of `c`.
      have hdeeper : ∀ x ∈ between, p.depth < x.depth := by
        intro x hx
        have hle := UInt32.le_iff_toNat_le.1 (hbetween x hx)
        rw [UInt32.lt_iff_toNat_lt]
        omega
      have hplace := h.isOpen rfl hp hdeeper hcov.2
      replace hplace := getElem?_reverse_cut (k := c.depth.toNat) hplace (by omega)
      rw [← hcut.chain_eq] at hplace
      obtain ⟨hlength, hhead⟩ := head?_of_getElem?_reverse hplace (by omega)
      rw [hhead]
      refine ⟨hlength.trans hdepth, hdepth, fun q hq => ?_⟩
      obtain rfl := Option.some.inj hq
      exact hcov

theorem openCall (h : RootedAt opened c.address o₁) (hcut : o₁.CutTo c.depth o₂) :
    RootedAt (opened ++ [c]) c.address (o₂.openCall c) := by
  have hlinks := hcut.links_eq
  have hlength : o₂.links.length = opened.length := by
    rw [hlinks, ← h.calls, List.length_map]
  refine ⟨?_, ?_, ?_⟩
  · rw [Outline.links_openCall, List.map_append, hlinks, h.calls]
    rfl
  · intro before d after hsplit hrooted
    rw [Outline.links_openCall]
    rcases split_concat hsplit with ⟨-, rfl, rfl⟩ | ⟨front, -, hsplit⟩
    · refine ⟨_, ?_, (h.called_from hcut hrooted).2⟩
      rw [← hlength, List.getElem?_concat_length]
    · obtain ⟨caller, hcaller, hdepth⟩ := h.called hsplit hrooted
      refine ⟨caller, ?_, hdepth⟩
      have hlt : before.length < o₂.links.length := by
        rw [hlength, hsplit, List.length_append, List.length_cons]
        omega
      rw [List.getElem?_append_left hlt, hlinks]
      exact hcaller
  · intro before d after hsplit hrooted hdeeper hlive
    rw [Outline.chain_openCall, List.reverse_cons]
    rcases split_concat hsplit with ⟨-, rfl, rfl⟩ | ⟨front, rfl, hsplit'⟩
    · obtain ⟨hopen, -⟩ := h.called_from hcut hrooted
      rw [← hopen, ← List.length_reverse, List.getElem?_concat_length]
    · obtain ⟨hfront, hc⟩ := List.forall_mem_append.1 hdeeper
      have hlt := UInt32.lt_iff_toNat_lt.1 (hc c List.mem_cons_self)
      have hplace := getElem?_reverse_cut (h.isOpen hsplit' hrooted hfront hlive) hlt
      rw [← hcut.chain_eq] at hplace
      obtain ⟨hn, -⟩ := List.getElem?_eq_some_iff.1 hplace
      rw [List.getElem?_append_left hn, hplace]

theorem addLine {l : LineInfo} (h : RootedAt opened now o) : RootedAt opened now (o.addLine l) where
  calls := by rw [Outline.links_addLine, h.calls]
  called hsplit hrooted := by
    rw [Outline.links_addLine]
    exact h.called hsplit hrooted
  isOpen hsplit hrooted hdeeper hlive := by
    rw [Outline.chain_addLine]
    exact h.isOpen hsplit hrooted hdeeper hlive

end RootedAt

/-! ## Laminar calls -/

/-- Whether callers are of lower depth and cover the starts of their calls, and open calls are the
deeper the further inside they are. -/
structure LaminarAt (opened : List InlineCall) (now : UInt64) (o : Outline) : Prop where
  chain : ChainAt opened now o.chain
  depths : o.chain.Pairwise fun c p => p.depth < c.depth
  callers : ∀ x ∈ o.links, ∀ p ∈ x.1, p.depth < x.2.depth ∧ p.Covers x.2.address

theorem length_le_of_depths {chain : List InlineCall} {n : Nat}
    (h : chain.Pairwise fun c p => p.depth < c.depth) (hn : ∀ c ∈ chain, c.depth.toNat < n) :
    chain.length ≤ n := by
  induction chain generalizing n with
  | nil => exact Nat.zero_le n
  | cons c rest ih =>
      obtain ⟨hc, hrest⟩ := List.pairwise_cons.1 h
      have hle := ih hrest fun p hp => UInt32.lt_iff_toNat_lt.1 (hc p hp)
      have hlt := hn c List.mem_cons_self
      rw [List.length_cons]
      omega

namespace LaminarAt

variable {calls opened rest : List InlineCall} {now a : UInt64} {c : InlineCall}
  {o o₁ o₂ : Outline}

theorem empty : LaminarAt [] 0 {} := ⟨.empty, .nil, by simp⟩

theorem close (h : LaminarAt opened now o) (hle : now ≤ a) (hended : o.EndedAt a o₁) :
    LaminarAt opened a o₁ where
  chain := by
    rw [hended.chain_eq]
    exact h.chain.ended hle
  depths := by
    rw [hended.chain_eq]
    exact h.depths.sublist (List.dropWhile_sublist _)
  callers := by
    rw [hended.links_eq]
    exact h.callers

theorem openCall (hlaminar : Laminar calls) (hsplit : calls = opened ++ c :: rest)
    (h : LaminarAt opened now o) (hle : now ≤ c.address) (hended : o.EndedAt c.address o₁)
    (hcut : o₁.CutTo c.depth o₂) : LaminarAt (opened ++ [c]) c.address (o₂.openCall c) := by
  have h₁ := h.close hle hended
  have hopen (p : InlineCall) : p ∈ o₁.chain ↔ p ∈ opened ∧ p.Covers c.address := by
    rw [hended.chain_eq, h.chain.mem_ended_iff hle]
  have haround : ∀ p ∈ o₁.chain, p.depth < c.depth ∧ c.stop ≤ p.stop := by
    intro p hp
    obtain ⟨hp, hcov⟩ := (hopen p).1 hp
    rw [Laminar, hsplit] at hlaminar
    refine ((List.pairwise_append.1 hlaminar).2.2 p hp c List.mem_cons_self).resolve_left ?_
    exact UInt64.not_le.2 hcov.2
  -- Open calls have different depths, all of them lower than that of `c`: there is nothing to cut.
  have heq : o₂.chain = o₁.chain := by
    have hlower : ∀ p ∈ o₁.chain, p.depth.toNat < c.depth.toNat := fun p hp =>
      UInt32.lt_iff_toNat_lt.1 (haround p hp).1
    have hlength := length_le_of_depths h₁.depths hlower
    exact hcut.chain_eq_of_length_le hlength
  refine ⟨?_, ?_, ?_⟩
  · rw [Outline.chain_openCall, heq]
    exact h₁.chain.cons fun p hp => (haround p hp).2
  · rw [Outline.chain_openCall, heq]
    exact List.pairwise_cons.2 ⟨fun p hp => (haround p hp).1, h₁.depths⟩
  · rw [Outline.links_openCall, heq, hcut.links_eq]
    intro x hx
    rcases List.mem_append.1 hx with hx | hx
    · exact h₁.callers x hx
    · obtain rfl := List.mem_singleton.1 hx
      intro p hp
      have hp := List.mem_of_head? hp
      exact ⟨(haround p hp).1, ((hopen p).1 hp).2⟩

theorem addLine {l : LineInfo} (h : LaminarAt opened now o) : LaminarAt opened now (o.addLine l) where
  chain := by
    rw [Outline.chain_addLine]
    exact h.chain
  depths := by
    rw [Outline.chain_addLine]
    exact h.depths
  callers := by
    rw [Outline.links_addLine]
    exact h.callers

end LaminarAt

/-! ## Built trees -/

/-- Whether a node stands in the outer function, or in a call of lower depth that covers its start. -/
def Inlining.WellPlaced (i : Inlining) : Prop :=
  ∀ p ∈ i.caller, p.call.depth < i.callee.call.depth ∧ p.call.Covers i.callee.call.address

theorem exists_run_of_depths (b : FunctionBuilder) : ∃ now o,
    run b.compDir b.sortedCalls b.sortedLines (Outline.toStack b {}) = o.toStack b ∧
      StartedAt now o ∧ RootedAt b.sortedCalls now o ∧
      (Laminar b.sortedCalls → LaminarAt b.sortedCalls now o) := by
  refine run_induction b b.sortedCalls b.sortedLines
    (fun opened _ now o => StartedAt now o ∧ RootedAt opened now o ∧
      (Laminar b.sortedCalls → LaminarAt opened now o))
    ?_ ?_ ((sorted_calls b.calls).imp address_le_of_callOrder) (sorted_mergeSort _ _)
    ⟨.empty, .empty, fun _ => .empty⟩
  · intro opened c rest read now o o₁ o₂ hsplit ⟨hstarted, hrooted, hlaminar⟩ hle _ hended hcut
    exact ⟨((hstarted.close hended hle).close hcut (UInt64.le_refl _)).openCall,
      (hrooted.close hle hended).openCall hcut,
      fun h => (hlaminar h).openCall h hsplit hle hended hcut⟩
  · intro opened rest read l more now o o₁ _ _ ⟨hstarted, hrooted, hlaminar⟩ hle _ hended
    exact ⟨(hstarted.close hended hle).addLine, (hrooted.close hle hended).addLine,
      fun h => ((hlaminar h).close hle hended).addLine⟩

/-- In the tree of a builder no call starts before its caller; each rooted call has a caller of the
next lower depth that covers its start; and if the calls are laminar, all callers are of lower depth
and cover the starts of their calls. -/
theorem callers_of_lower_depth (b : FunctionBuilder) : ∃ forest, b.Builds forest ∧
    (∀ i ∈ inliningsIn none forest, ∀ p ∈ i.caller, p.call.address ≤ i.callee.call.address) ∧
    (∀ before c after, b.sortedCalls = before ++ c :: after → Rooted before c →
      ∃ i, (inliningsIn none forest)[before.length]? = some i ∧ i.callee.call = c ∧
        innerDepth (i.caller.map call) = c.depth.toNat ∧ i.WellPlaced) ∧
    (Laminar b.sortedCalls → ∀ i ∈ inliningsIn none forest, i.WellPlaced) := by
  obtain ⟨now, o, hrun, hstarted, hrooted, hlaminar⟩ := exists_run_of_depths b
  obtain ⟨forest, hforest⟩ := finishes_of_run hrun
  refine ⟨forest, hforest.builds hrooted.calls, ?_, ?_, ?_⟩
  · intro i hi p hp
    exact hstarted.callers _ (hforest.mem_links hi) _ (Option.mem_map_of_mem _ hp)
  · intro before c after hsplit hc
    obtain ⟨caller, hcaller, hdepth, hcov⟩ := hrooted.called hsplit hc
    rw [← hforest.links, List.getElem?_map] at hcaller
    obtain ⟨i, hi, hcaller⟩ := Option.map_eq_some_iff.1 hcaller
    obtain ⟨rfl, rfl⟩ := Prod.mk.inj hcaller
    refine ⟨i, hi, rfl, hdepth, fun p hp => ?_⟩
    have hp : p.call ∈ i.caller.map call := Option.mem_map_of_mem _ hp
    refine ⟨?_, hcov _ hp⟩
    rw [UInt32.lt_iff_toNat_lt, ← hdepth, Option.mem_def.1 hp]
    exact Nat.lt_succ_self _
  · intro h i hi p hp
    exact (hlaminar h).callers _ (hforest.mem_links hi) _ (Option.mem_map_of_mem _ hp)

def callOf (name : String) (depth : UInt32) (address size : UInt64) : InlineCall :=
  { depth, name := { text := name }, address, size }

/-- A call at depth 5 without callers, and one at depth 3 inside it. -/
def skippedDepths : FunctionBuilder where
  name := { text := "main" }
  address := 0x1000
  size := 0x100
  calls := [callOf "a" 5 0x1000 0x100, callOf "b" 3 0x1010 0x10]

/-- A call that ends while a call inside it goes on, and a second call at the inner depth. -/
def outlivedCaller : FunctionBuilder where
  name := { text := "main" }
  address := 0x1000
  size := 0x100
  calls := [callOf "a" 0 0x1000 0x10, callOf "b" 1 0x1005 0x4b, callOf "c" 1 0x1020 0x10]

/-- Calls inside each other at depths 0, 3 and 5. -/
def insideDepths : FunctionBuilder where
  name := { text := "main" }
  address := 0x1000
  size := 0x100
  calls := [callOf "c" 5 0x1010 0x10, callOf "a" 0 0x1000 0x100, callOf "b" 3 0x1010 0x20]

theorem sortedCalls_insideDepths : insideDepths.sortedCalls =
    [callOf "a" 0 0x1000 0x100, callOf "b" 3 0x1010 0x20, callOf "c" 5 0x1010 0x10] := by
  cbv

theorem sortedCalls_skippedDepths : skippedDepths.sortedCalls = skippedDepths.calls := by
  cbv

theorem sortedCalls_outlivedCaller : outlivedCaller.sortedCalls = outlivedCaller.calls := by
  cbv

theorem callers_of_lower_depth_sample :
    (Laminar insideDepths.sortedCalls ∧ ∃ forest, insideDepths.Builds forest ∧
      ∀ i ∈ inliningsIn none forest, i.WellPlaced) ∧
    (Rooted [callOf "a" 0 0x1000 0x10] (callOf "b" 1 0x1005 0x4b) ∧
      ∃ forest, outlivedCaller.Builds forest ∧ ∃ i ∈ inliningsIn none forest,
        i.callee.call = callOf "b" 1 0x1005 0x4b ∧ innerDepth (i.caller.map call) = 1 ∧
          i.WellPlaced) := by
  constructor
  · have hlaminar : Laminar insideDepths.sortedCalls := by
      rw [sortedCalls_insideDepths, Laminar]
      decide
    obtain ⟨forest, hbuilds, -, -, hplaced⟩ := callers_of_lower_depth insideDepths
    exact ⟨hlaminar, forest, hbuilds, hplaced hlaminar⟩
  · have hrooted : Rooted [callOf "a" 0 0x1000 0x10] (callOf "b" 1 0x1005 0x4b) :=
      @Rooted.inner [] [] _ _ (.outermost rfl) rfl (by decide) nofun
    have hsplit : outlivedCaller.sortedCalls = [callOf "a" 0 0x1000 0x10] ++
        callOf "b" 1 0x1005 0x4b :: [callOf "c" 1 0x1020 0x10] := sortedCalls_outlivedCaller
    obtain ⟨forest, hbuilds, -, hplaced, -⟩ := callers_of_lower_depth outlivedCaller
    obtain ⟨i, hi, hcall, hdepth, hplaced⟩ := hplaced _ _ _ hsplit hrooted
    exact ⟨hrooted, forest, hbuilds, i, List.mem_of_getElem? hi, hcall, hdepth, hplaced⟩

theorem inlinees_skippedDepths : skippedDepths.finish.inlinees =
    [⟨0x1000, 0x100, { text := "a" }, [], [], [⟨0x1010, 0x10, { text := "b" }, [], [], [], true⟩],
      true⟩] := by
  cbv

theorem inlinees_outlivedCaller : outlivedCaller.finish.inlinees =
    [⟨0x1000, 0x10, { text := "a" }, [], [],
      [⟨0x1005, 0x4b, { text := "b" }, [], [], [], true⟩,
        ⟨0x1020, 0x10, { text := "c" }, [], [], [], true⟩], true⟩] := by
  cbv

/-- Depths that are skipped lead to a caller of higher depth, and a caller that has ended to one that
does not cover the start. -/
theorem callers_of_other_kinds :
    (¬ ∃ forest, skippedDepths.Builds forest ∧ ∀ i ∈ inliningsIn none forest, i.WellPlaced) ∧
      ¬ ∃ forest, outlivedCaller.Builds forest ∧ ∀ i ∈ inliningsIn none forest, i.WellPlaced := by
  constructor
  · rintro ⟨forest, hbuilds, h⟩
    obtain ⟨a, la, inner, _, rfl, hinner, hrest⟩ :=
      eq_cons_of_toFunctions (hbuilds.inlinees.symm.trans inlinees_skippedDepths)
    obtain rfl := eq_nil_of_toFunctions hrest
    obtain ⟨b, lb, _, _, rfl, hinner, hrest⟩ := eq_cons_of_toFunctions hinner
    obtain rfl := eq_nil_of_toFunctions hinner
    obtain rfl := eq_nil_of_toFunctions hrest
    have hcalls : [a, b] = skippedDepths.calls := hbuilds.calls.trans sortedCalls_skippedDepths
    have hcalls' := (List.cons.inj hcalls).2
    obtain rfl := (List.cons.inj hcalls).1
    obtain rfl := (List.cons.inj hcalls').1
    have hplaced := h ⟨some _, node (callOf "b" 3 0x1010 0x10) lb []⟩
      (List.mem_cons_of_mem _ List.mem_cons_self) _ rfl
    have hdepth : ¬ (5 : UInt32) < 3 := by decide
    exact hdepth hplaced.1
  · rintro ⟨forest, hbuilds, h⟩
    obtain ⟨a, la, _, _, rfl, hinner, hrest⟩ :=
      eq_cons_of_toFunctions (hbuilds.inlinees.symm.trans inlinees_outlivedCaller)
    obtain rfl := eq_nil_of_toFunctions hrest
    obtain ⟨b, lb, _, _, rfl, hb, hinner⟩ := eq_cons_of_toFunctions hinner
    obtain ⟨c, lc, _, _, rfl, hc, hrest⟩ := eq_cons_of_toFunctions hinner
    obtain rfl := eq_nil_of_toFunctions hb
    obtain rfl := eq_nil_of_toFunctions hc
    obtain rfl := eq_nil_of_toFunctions hrest
    have hcalls : [a, b, c] = outlivedCaller.calls := hbuilds.calls.trans sortedCalls_outlivedCaller
    have hcalls' := (List.cons.inj hcalls).2
    obtain rfl := (List.cons.inj hcalls).1
    obtain rfl := (List.cons.inj (List.cons.inj hcalls').2).1
    have hplaced := h ⟨some _, node (callOf "c" 1 0x1020 0x10) lc []⟩
      (List.mem_cons_of_mem _ (List.mem_cons_of_mem _ List.mem_cons_self)) _ rfl
    have hended : ¬ (callOf "a" 0 0x1000 0x10).Covers 0x1020 := by decide
    exact hended hplaced.2

end Postmortem.Debug
