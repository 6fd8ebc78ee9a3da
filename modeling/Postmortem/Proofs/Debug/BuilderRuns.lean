import Postmortem.Proofs.Debug.Outlines
import Postmortem.Proofs.RecordsInEffect

/-!
# Runs of a function builder

A run opens the calls in their order and reads the lines in theirs, each line behind the calls that
start at its address.  What every such step keeps holds of the tree at the end.
-/

set_option autoImplicit false

namespace Postmortem.Debug

namespace InlineCall

def stop (c : InlineCall) : UInt64 := addSaturating c.address c.size

def Covers (c : InlineCall) (a : UInt64) : Prop := c.address ≤ a ∧ a < c.stop

instance (c : InlineCall) (a : UInt64) : Decidable (c.Covers a) :=
  inferInstanceAs (Decidable (_ ∧ _))

end InlineCall

namespace Outline

/-- Closing the innermost calls that end at or before an address. -/
def EndedAt (a : UInt64) : Outline → Outline → Prop := ClosesTo fun _ c => c.stop ≤ a

def CutTo (depth : UInt32) : Outline → Outline → Prop := ClosesTo fun n _ => depth.toNat < n

variable {o o' : Outline} {a : UInt64} {depth : UInt32}

theorem remaining_of_stop (a : UInt64) (chain : List InlineCall) :
    remaining (fun _ c => c.stop ≤ a) chain = chain.dropWhile (·.stop ≤ a) := by
  induction chain with
  | nil => rfl
  | cons c rest ih =>
      rw [remaining, List.dropWhile_cons, ih]

theorem remaining_of_length (n : Nat) (chain : List InlineCall) :
    remaining (fun k _ => n < k) chain = chain.drop (chain.length - n) := by
  induction chain with
  | nil => rw [remaining, List.drop_nil]
  | cons c rest ih =>
      rw [remaining, List.length_cons]
      by_cases h : n < rest.length + 1
      · rw [if_pos (decide_eq_true h), ih, Nat.succ_sub (Nat.le_of_lt_succ h), List.drop_succ_cons]
      · rw [if_neg (by simpa using h), Nat.sub_eq_zero_of_le (Nat.not_lt.1 h), List.drop_zero]

theorem remaining_all (chain : List InlineCall) : remaining (fun _ _ => true) chain = [] := by
  induction chain with
  | nil => rfl
  | cons c rest ih => rw [remaining, if_pos rfl, ih]

theorem EndedAt.chain_eq (h : o.EndedAt a o') : o'.chain = o.chain.dropWhile (·.stop ≤ a) :=
  h.chain.trans (remaining_of_stop ..)

theorem CutTo.chain_eq (h : o.CutTo depth o') :
    o'.chain = o.chain.drop (o.chain.length - depth.toNat) :=
  h.chain.trans (remaining_of_length ..)

theorem CutTo.chain_eq_of_length_le (h : o.CutTo depth o') (hle : o.chain.length ≤ depth.toNat) :
    o'.chain = o.chain := by
  rw [h.chain_eq, Nat.sub_eq_zero_of_le hle, List.drop_zero]

end Outline

namespace FunctionBuilder

open CallTree Outline

theorem callOrder_iff {c d : InlineCall} :
    callOrder c d = true ↔ c.address < d.address ∨ c.address = d.address ∧ c.depth ≤ d.depth := by
  rw [callOrder, Bool.or_eq_true, Bool.and_eq_true, decide_eq_true_iff, beq_iff_eq,
    decide_eq_true_iff]

theorem address_le_of_callOrder {c d : InlineCall} (h : callOrder c d = true) :
    c.address ≤ d.address := by
  rcases callOrder_iff.1 h with h | ⟨h, -⟩
  · exact UInt64.le_of_lt h
  · exact UInt64.le_of_eq h

theorem sorted_calls (calls : List InlineCall) :
    (calls.mergeSort callOrder).Pairwise fun c d => callOrder c d = true := by
  apply List.pairwise_mergeSort
  · intro c d e hcd hde
    rw [callOrder_iff] at hcd hde ⊢
    rcases hcd with hcd | ⟨hcd, hdepth⟩
    · exact .inl (UInt64.lt_of_lt_of_le hcd (address_le_of_callOrder (callOrder_iff.2 hde)))
    · rw [hcd]
      exact hde.imp_right fun ⟨hde, hle⟩ => ⟨hde, UInt32.le_trans hdepth hle⟩
  · intro c d
    rw [Bool.or_eq_true, callOrder_iff, callOrder_iff]
    by_cases hlt : c.address < d.address
    · exact .inl (.inl hlt)
    · by_cases hgt : d.address < c.address
      · exact .inr (.inl hgt)
      · have heq := UInt64.le_antisymm (UInt64.not_lt.1 hgt) (UInt64.not_lt.1 hlt)
        have htotal := UInt32.le_total c.depth d.depth
        exact htotal.imp (fun h => .inr ⟨heq, h⟩) fun h => .inr ⟨heq.symm, h⟩

theorem exists_step_call (b : FunctionBuilder) (c : InlineCall) (o : Outline) : ∃ o₁ o₂,
    (((o.toStack b).closeEnded c.address).closeDeeper c.depth).openCall b.compDir c =
      (o₂.openCall c).toStack b ∧ o.EndedAt c.address o₁ ∧ o₁.CutTo c.depth o₂ := by
  obtain ⟨o₁, h₁, hended⟩ := exists_closeWhile b (fun _ d => d.stop ≤ c.address) o
  obtain ⟨o₂, h₂, hcut⟩ := exists_closeWhile b (fun n _ => c.depth.toNat < n) o₁
  refine ⟨o₁, o₂, ?_, hended, hcut⟩
  rw [toStack_openCall, ← h₂, ← h₁]
  rfl

theorem exists_step_line (b : FunctionBuilder) (l : LineInfo) (o : Outline) : ∃ o₁,
    ((o.toStack b).closeEnded l.address).addLine l = (o₁.addLine l).toStack b ∧
      o.EndedAt l.address o₁ := by
  obtain ⟨o₁, h₁, hended⟩ := exists_closeWhile b (fun _ d => d.stop ≤ l.address) o
  refine ⟨o₁, ?_, hended⟩
  rw [toStack_addLine, ← h₁]
  rfl

theorem forall_ge_of_sorted {α : Type} {address : α → UInt64} {items before after : List α} {x : α}
    (sorted : items.Pairwise fun x y => address x ≤ address y) (h : items = before ++ x :: after) :
    ∀ y ∈ after, address x ≤ address y := by
  rw [h] at sorted
  exact (List.pairwise_cons.1 (List.pairwise_append.1 sorted).2.1).1

/-- What holds after each step of a run, in terms of the calls that are opened, the lines that are
read and the address of the last of them, holds after the run. -/
theorem run_induction (b : FunctionBuilder) (calls : List InlineCall) (lines : List LineInfo)
    (J : List InlineCall → List LineInfo → UInt64 → Outline → Prop)
    (hopen : ∀ {opened c rest read now o o₁ o₂}, calls = opened ++ c :: rest →
      J opened read now o → now ≤ c.address → (∀ l ∈ read, l.address < c.address) →
      o.EndedAt c.address o₁ → o₁.CutTo c.depth o₂ →
      J (opened ++ [c]) read c.address (o₂.openCall c))
    (hread : ∀ {opened rest read l more now o o₁}, calls = opened ++ rest →
      lines = read ++ l :: more → J opened read now o → now ≤ l.address →
      (∀ c ∈ rest, l.address < c.address) → o.EndedAt l.address o₁ →
      J opened (read ++ [l]) l.address (o₁.addLine l))
    (hcalls : calls.Pairwise fun c d => c.address ≤ d.address)
    (hlines : lines.Pairwise fun l m => l.address ≤ m.address) (hstart : J [] [] 0 {}) :
    ∃ now o, run b.compDir calls lines (toStack b {}) = o.toStack b ∧ J calls lines now o := by
  -- From any point of the run on, where what is still to come lies behind what has been read.
  have hrun {calls' : List InlineCall} {lines' : List LineInfo} {s : InlineStack}
      {opened : List InlineCall} {read : List LineInfo} {now : UInt64} {o : Outline}
      (hcalls' : calls = opened ++ calls') (hlines' : lines = read ++ lines')
      (hs : s = o.toStack b) (ho : J opened read now o) (hnow : ∀ c ∈ calls', now ≤ c.address)
      (hnow' : ∀ l ∈ lines', now ≤ l.address)
      (hahead : ∀ l ∈ read, ∀ c ∈ calls', l.address < c.address) :
      ∃ now o, run b.compDir calls' lines' s = o.toStack b ∧ J calls lines now o := by
    fun_induction run b.compDir calls' lines' s generalizing opened read now o with
    | case1 s =>
        rw [List.append_nil] at hcalls' hlines'
        exact ⟨now, o, hs, hcalls' ▸ hlines' ▸ ho⟩
    | case2 s c rest ih =>
        obtain ⟨o₁, o₂, hstep, hended, hcut⟩ := exists_step_call b c o
        have hJ := hopen hcalls' ho (hnow c List.mem_cons_self)
          (fun l hl => hahead l hl c List.mem_cons_self) hended hcut
        refine ih (hcalls'.trans (List.append_cons ..)) hlines' (hs ▸ hstep) hJ
          (forall_ge_of_sorted hcalls hcalls') nofun ?_
        exact fun l hl d hd => hahead l hl d (List.mem_cons_of_mem _ hd)
    | case3 s l more ih =>
        obtain ⟨o₁, hstep, hended⟩ := exists_step_line b l o
        have hJ := hread hcalls' hlines' ho (hnow' l List.mem_cons_self) nofun hended
        exact ih hcalls' (hlines'.trans (List.append_cons ..)) (hs ▸ hstep) hJ nofun
          (forall_ge_of_sorted hlines hlines') fun _ _ => nofun
    | case4 s c rest l more hle ih =>
        obtain ⟨o₁, o₂, hstep, hended, hcut⟩ := exists_step_call b c o
        have hJ := hopen hcalls' ho (hnow c List.mem_cons_self)
          (fun l hl => hahead l hl c List.mem_cons_self) hended hcut
        refine ih (hcalls'.trans (List.append_cons ..)) hlines' (hs ▸ hstep) hJ
          (forall_ge_of_sorted hcalls hcalls') ?_ ?_
        · refine List.forall_mem_cons.2 ⟨hle, fun m hm => ?_⟩
          exact UInt64.le_trans hle (forall_ge_of_sorted hlines hlines' m hm)
        · exact fun l hl d hd => hahead l hl d (List.mem_cons_of_mem _ hd)
    | case5 s c rest l more hle ih =>
        have hlt := UInt64.not_le.1 hle
        have hrest : ∀ d ∈ c :: rest, l.address < d.address := by
          refine List.forall_mem_cons.2 ⟨hlt, fun d hd => ?_⟩
          exact UInt64.lt_of_lt_of_le hlt (forall_ge_of_sorted hcalls hcalls' d hd)
        obtain ⟨o₁, hstep, hended⟩ := exists_step_line b l o
        have hJ := hread hcalls' hlines' ho (hnow' l List.mem_cons_self) hrest hended
        refine ih hcalls' (hlines'.trans (List.append_cons ..)) (hs ▸ hstep) hJ
          (fun d hd => UInt64.le_of_lt (hrest d hd)) (forall_ge_of_sorted hlines hlines') ?_
        intro m hm d hd
        rcases List.mem_append.1 hm with hm | hm
        · exact hahead m hm d hd
        · exact List.mem_singleton.1 hm ▸ hrest d hd
  exact hrun rfl rfl rfl hstart (fun _ _ => UInt64.zero_le) (fun _ _ => UInt64.zero_le) nofun

def sortedCalls (b : FunctionBuilder) : List InlineCall := b.calls.mergeSort callOrder

def sortedLines (b : FunctionBuilder) : List LineInfo :=
  b.lines.mergeSort fun l m => l.address ≤ m.address

structure Builds (b : FunctionBuilder) (forest : List CallTree) : Prop where
  inlinees : b.finish.inlinees = toFunctions b.compDir forest
  calls : (inliningsIn none forest).map (·.callee.call) = b.sortedCalls

/-- Whether some trees are what a builder makes of an outline by closing all its calls. -/
structure Finishes (b : FunctionBuilder) (o : Outline) (forest : List CallTree) : Prop where
  inlinees : b.finish.inlinees = toFunctions b.compDir forest
  lines : b.finish.lines = o.lines
  links : (inliningsIn none forest).map (fun i => (i.caller.map call, i.callee.call)) = o.links
  placed : ∀ i ∈ inliningsIn none forest, i.placement ∈ o.settled ∨ i.placement ∈ o.pending

variable {b : FunctionBuilder} {o : Outline} {forest : List CallTree}

theorem finishes_of_run
    (h : run b.compDir b.sortedCalls b.sortedLines (toStack b {}) = o.toStack b) :
    ∃ forest, b.Finishes o forest := by
  obtain ⟨o', hclose, hto⟩ := exists_closeWhile b (fun _ _ => true) o
  have hopened : o'.opened = [] := List.map_eq_nil_iff.1 (hto.chain.trans (remaining_all _))
  have hfinish : b.finish = (o'.toStack b).outer := by
    rw [← hclose, ← h]
    rfl
  have hclosed : placementsIn none o'.closed = (inliningsIn none o'.closed).map Inlining.placement :=
    (map_placement_in none o'.closed).symm
  refine ⟨o'.closed, ?_, ?_, ?_, ?_⟩
  · rw [hfinish]
    rfl
  · rw [hfinish]
    exact hto.lines
  · rw [Outline.links, ← hto.placed, placed, hopened, placedIn, hclosed, List.map_map]
    rfl
  · intro i hi
    have hsettled : i.placement ∈ o'.settled := by
      rw [settled, hopened, List.flatMap_nil, List.append_nil, hclosed]
      exact List.mem_map_of_mem hi
    exact (hto.settled _ hsettled).imp_right And.left

theorem Finishes.mem_links (h : b.Finishes o forest) {i : Inlining}
    (hi : i ∈ inliningsIn none forest) : (i.caller.map call, i.callee.call) ∈ o.links := by
  rw [← h.links]
  exact List.mem_map_of_mem hi

theorem Finishes.builds (h : b.Finishes o forest) (hcalls : o.links.map Prod.snd = b.sortedCalls) :
    b.Builds forest := by
  refine ⟨h.inlinees, ?_⟩
  rw [← hcalls, ← h.links, List.map_map]
  rfl

end FunctionBuilder

end Postmortem.Debug
