import Mathlib
import Postmortem.Proofs.Debug.NestedTrees

/-!
# Call sites in the lines of callers

A caller has a record with the place of a call from the first leaf line on that starts inside the
call.  Until then it goes on with the record in front of the call, also where a leaf line reaches
into the call.
-/

set_option autoImplicit false

namespace Postmortem.Debug

open CallTree FunctionBuilder

theorem le_of_getLast? {α : Type} {address : α → UInt64} {items : List α} {x y : α}
    (sorted : items.Pairwise fun x y => address x ≤ address y) (hx : x ∈ items)
    (hlast : items.getLast? = some y) : address x ≤ address y := by
  obtain ⟨front, rfl⟩ := List.getLast?_eq_some_iff.1 hlast
  rcases List.mem_append.1 hx with hx | hx
  · exact (List.pairwise_append.1 sorted).2.2 x hx y List.mem_cons_self
  · exact UInt64.le_of_eq (congrArg address (List.mem_singleton.1 hx))

section Lines

variable {calls : List InlineCall} {lines : List LineInfo} {f : Option InlineCall} {c : InlineCall}
  {a : UInt64}

/-- The function around a call covers what the call covers. -/
theorem CalledFrom.covers (h : CalledFrom f c) (hcov : c.Covers a) : ∀ p ∈ f, p.Covers a := by
  rintro p rfl
  obtain ⟨-, hstart, hstop⟩ := h
  exact ⟨UInt64.le_trans hstart.1 hcov.1, UInt64.lt_of_lt_of_le hcov.2 hstop⟩

theorem filter_linesOf (p : UInt64 → Bool) :
    (linesOf calls lines f).filter (p ·.address) =
      ((lines.filter fun l => ∀ c ∈ f, c.Covers l.address).filter (p ·.address)).map fun l =>
        l.seenFrom (callAt calls (innerDepth f) l.address) := by
  rw [linesOf, List.filter_map]
  refine congrArg _ (List.filter_congr fun l _ => ?_)
  rw [Function.comp, LineInfo.address_seenFrom]

/-- From the first line on that starts in a call, the function around it is at the place of the
call. -/
theorem getLast?_linesOf (hnested : ProperlyNested calls) (hc : c ∈ calls) (hcaller : CalledFrom f c)
    (hlines : lines.Pairwise fun l m => l.address ≤ m.address) (hcov : c.Covers a)
    {l : LineInfo} (hl : l ∈ lines) (hstart : c.address ≤ l.address) (hle : l.address ≤ a) :
    ∃ m : LineInfo,
      ((linesOf calls lines f).filter (·.address ≤ a)).getLast? = some (m.seenFrom (some c)) := by
  have hcovers {m : LineInfo} (hstart : c.address ≤ m.address) (hle : m.address ≤ a) :
      c.Covers m.address := ⟨hstart, UInt64.lt_of_le_of_lt hle hcov.2⟩
  rw [filter_linesOf (decide <| · ≤ a), List.getLast?_map]
  have hmem : l ∈ (lines.filter fun l => ∀ c ∈ f, c.Covers l.address).filter (·.address ≤ a) := by
    refine List.mem_filter.2 ⟨List.mem_filter.2 ⟨hl, decide_eq_true ?_⟩, decide_eq_true hle⟩
    exact hcaller.covers (hcovers hstart hle)
  cases hlast : ((lines.filter fun l =>
      ∀ c ∈ f, c.Covers l.address).filter (·.address ≤ a)).getLast? with
  | none =>
      rw [List.getLast?_eq_none_iff.1 hlast] at hmem
      cases hmem
  | some m =>
      have hm := of_decide_eq_true (List.mem_filter.1 (List.mem_of_getLast? hlast)).2
      have hlm := le_of_getLast? ((hlines.filter _).filter _) hmem hlast
      have hat := hnested.callAt_eq_some.2
        ⟨hc, hcaller.depth_eq, hcovers (UInt64.le_trans hstart hlm) hm⟩
      exact ⟨m, by rw [Option.map_some, hat]⟩

/-- As long as no line starts in a call, the function around it goes on with the record in front of
the call. -/
theorem filter_linesOf_of_none (hcov : c.Covers a)
    (hnone : ∀ l ∈ lines, c.address ≤ l.address → a < l.address) :
    (linesOf calls lines f).filter (·.address ≤ a) =
      (linesOf calls lines f).filter (·.address < c.address) := by
  refine List.filter_congr fun r hr => ?_
  obtain ⟨l, hl, rfl⟩ := List.mem_map.1 hr
  rw [LineInfo.address_seenFrom, decide_eq_decide]
  constructor
  · intro hle
    refine UInt64.not_le.1 fun hstart => ?_
    exact UInt64.not_lt.2 hle (hnone l (List.mem_filter.1 hl).1 hstart)
  · intro hlt
    exact UInt64.le_trans (UInt64.le_of_lt hlt) hcov.1

end Lines

def FunctionBuilder.linesAround (b : FunctionBuilder) : Option CallTree → List LineInfo
  | none => b.finish.lines
  | some t => t.lines

theorem FunctionBuilder.InPlace.linesAround {b : FunctionBuilder} {forest : List CallTree}
    (h : b.InPlace forest) {i : Inlining} (hi : i ∈ inliningsIn none forest) :
    b.linesAround i.caller = linesOf b.calls b.sortedLines (i.caller.map call) := by
  rcases caller_mem_inliningsIn hi with hcaller | ⟨j, hj, hcaller⟩
  · rw [hcaller]
    exact h.outer
  · rw [hcaller]
    exact h.lines j hj

/-- At an address in a call, the last record of the function around it has the place of the call if a
leaf line starts in the call at or before the address, and is the last one in front of the call if
none does. -/
theorem call_site_from_first_line {b : FunctionBuilder} (hnested : ProperlyNested b.calls) :
    ∃ forest, b.Builds forest ∧ ∀ i ∈ inliningsIn none forest, ∀ a, i.callee.call.Covers a →
      ((∃ l ∈ b.lines, i.callee.call.address ≤ l.address ∧ l.address ≤ a) →
        ∃ r, ((b.linesAround i.caller).filter (·.address ≤ a)).getLast? = some r ∧
          r.file = i.callee.call.callFile ∧ r.line = i.callee.call.callLine) ∧
      ((¬ ∃ l ∈ b.lines, i.callee.call.address ≤ l.address ∧ l.address ≤ a) →
        (b.linesAround i.caller).filter (·.address ≤ a) =
          (b.linesAround i.caller).filter (·.address < i.callee.call.address)) := by
  obtain ⟨now, o, hrun, hordered, hnestedAt⟩ := exists_run b
  obtain ⟨forest, hforest⟩ := finishes_of_run hrun
  have hbuilds := hforest.builds hordered.calls
  have hplace := hforest.inPlace (hnestedAt hnested)
  have hlines : ∀ l, l ∈ b.sortedLines ↔ l ∈ b.lines := fun _ => List.mem_mergeSort
  refine ⟨forest, hbuilds, fun i hi a hcov => ?_⟩
  rw [hplace.linesAround hi]
  constructor
  · rintro ⟨l, hl, hstart, hle⟩
    have hcall : i.callee.call ∈ b.calls := by
      have hmem : i.callee.call ∈ b.sortedCalls := by
        rw [← hbuilds.calls]
        exact List.mem_map_of_mem hi
      exact List.mem_mergeSort.1 hmem
    obtain ⟨m, hm⟩ := getLast?_linesOf hnested hcall (hplace.callers i hi) (sorted_mergeSort _ _) hcov
      ((hlines l).2 hl) hstart hle
    exact ⟨_, hm, rfl, rfl⟩
  · intro hnone
    refine filter_linesOf_of_none hcov fun l hl hstart => UInt64.not_le.1 fun hle => hnone ?_
    exact ⟨l, (hlines l).1 hl, hstart, hle⟩

def file (name : String) : FileInfo := { name := name.toUTF8.toList }

/-- A call inside a call, with a line that starts in each of them and lines around them. -/
def nestedBuilder : FunctionBuilder where
  name := { text := "parent" }
  address := 0x10
  size := 0x50
  calls :=
    [{ depth := 1, name := { text := "child2" }, address := 0x30, size := 0x20
       callFile := file "child1.c", callLine := 7 },
      { depth := 0, name := { text := "child1" }, address := 0x20, size := 0x30
        callFile := file "parent.c", callLine := 3 }]
  lines :=
    [{ address := 0x10, size := some 0x10, file := file "parent.c", line := 1 },
      { address := 0x20, size := some 0x10, file := file "child1.c", line := 6 },
      { address := 0x30, size := some 0x10, file := file "child2.c", line := 1 },
      { address := 0x40, size := some 0x10, file := file "child2.c", line := 2 },
      { address := 0x50, size := some 0x10, file := file "parent.c", line := 4 }]

theorem properlyNested_nestedBuilder : ProperlyNested nestedBuilder.calls :=
  ⟨by decide, by decide, by decide⟩

theorem call_site_from_first_line_sample : ProperlyNested nestedBuilder.calls ∧
    ∃ forest, nestedBuilder.Builds forest ∧
      ∀ i ∈ inliningsIn none forest, ∀ a, i.callee.call.Covers a →
      ((∃ l ∈ nestedBuilder.lines, i.callee.call.address ≤ l.address ∧ l.address ≤ a) →
        ∃ r, ((nestedBuilder.linesAround i.caller).filter (·.address ≤ a)).getLast? = some r ∧
          r.file = i.callee.call.callFile ∧ r.line = i.callee.call.callLine) ∧
      ((¬ ∃ l ∈ nestedBuilder.lines, i.callee.call.address ≤ l.address ∧ l.address ≤ a) →
        (nestedBuilder.linesAround i.caller).filter (·.address ≤ a) =
          (nestedBuilder.linesAround i.caller).filter (·.address < i.callee.call.address)) :=
  ⟨properlyNested_nestedBuilder, call_site_from_first_line properlyNested_nestedBuilder⟩

def coveredCall : InlineCall where
  depth := 0
  name := { text := "helper" }
  address := 0x1010
  size := 0x20
  callFile := file "main.c"
  callLine := 20

/-- A call in the middle of the only line. -/
def coveredBuilder : FunctionBuilder where
  name := { text := "main" }
  address := 0x1000
  size := 0x30
  calls := [coveredCall]
  lines := [{ address := 0x1000, size := some 0x30, file := file "main.c", line := 10 }]

theorem lines_coveredBuilder : coveredBuilder.finish.lines = coveredBuilder.lines := by
  cbv

/-- A line that reaches into a call leaves the function around the call without a record with its
place. -/
theorem line_reaches_into_call : ProperlyNested coveredBuilder.calls ∧
    ¬ ∃ forest, coveredBuilder.Builds forest ∧
      ∀ i ∈ inliningsIn none forest, ∀ a, i.callee.call.Covers a →
        (∃ l ∈ coveredBuilder.lines, ∃ size ∈ l.size,
          l.address ≤ a ∧ a < addSaturating l.address size) →
        ∃ r, ((coveredBuilder.linesAround i.caller).filter (·.address ≤ a)).getLast? = some r ∧
          r.file = i.callee.call.callFile ∧ r.line = i.callee.call.callLine := by
  refine ⟨⟨by decide, by decide, by decide⟩, ?_⟩
  rintro ⟨forest, hbuilds, h⟩
  have hcalls := hbuilds.calls
  rw [sortedCalls, coveredBuilder, List.mergeSort_singleton] at hcalls
  cases forest with
  | nil => cases hcalls
  | cons t rest =>
      obtain ⟨c, lines, inner⟩ := t
      obtain rfl := (List.cons.inj hcalls).1
      have hcov : coveredCall.Covers 0x1010 := by decide
      obtain ⟨r, hr, -, hline⟩ := h ⟨none, _⟩ List.mem_cons_self 0x1010 hcov
        ⟨_, List.mem_cons_self, 0x30, rfl, by decide, by decide⟩
      rw [linesAround, lines_coveredBuilder] at hr
      obtain rfl := Option.some.inj hr
      cases hline

end Postmortem.Debug
