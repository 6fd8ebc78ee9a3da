import Postmortem.Proofs.Debug.CallTrees

/-!
# Trees that are being built

The stack of a builder as trees of calls, of which the innermost ones are still open.  Closing a call
leaves everything in its place; a call is opened in the innermost open one; and a line goes to all
open calls, to the outer ones with the place of the call inside them.
-/

set_option autoImplicit false

namespace Postmortem.Debug

theorem InlineStack.closeWhile_nil (closes : Nat → OpenCall → Bool) (outer : Function) :
    closeWhile closes ⟨outer, []⟩ = ⟨outer, []⟩ := by
  rw [closeWhile]

theorem InlineStack.closeWhile_cons (closes : Nat → OpenCall → Bool) (outer : Function)
    (c : OpenCall) (rest : List OpenCall) :
    closeWhile closes ⟨outer, c :: rest⟩ =
      if closes (rest.length + 1) c then closeWhile closes (attach c.function outer rest)
      else ⟨outer, c :: rest⟩ := by
  rw [closeWhile]
  rfl

/-- A tree that is being built: the lines of the outer function, the closed calls inlined directly
into it, and the open calls, innermost first. -/
structure Outline where
  lines : List LineInfo := []
  closed : List CallTree := []
  opened : List CallTree := []

namespace Outline

open CallTree

def toStack (b : FunctionBuilder) (o : Outline) : InlineStack :=
  ⟨⟨b.address, b.size, b.name, b.compDir, o.lines, toFunctions b.compDir o.closed, false⟩,
    o.opened.map fun t => ⟨t.call, t.toFunction b.compDir⟩⟩

def chain (o : Outline) : List InlineCall := o.opened.map call

def pendingIn : List CallTree → List Placement
  | [] => []
  | t :: rest => ⟨rest.head?.map call, t.call, t.lines⟩ :: pendingIn rest

def pending (o : Outline) : List Placement := pendingIn o.opened

def settled (o : Outline) : List Placement :=
  placementsIn none o.closed ++ o.opened.flatMap fun t => placementsIn (some t.call) t.inner

def placedIn (before : List Placement) : List CallTree → List Placement
  | [] => before
  | t :: rest => placedIn before rest ++ t.placements (rest.head?.map call)

def placed (o : Outline) : List Placement := placedIn (placementsIn none o.closed) o.opened

@[simp]
theorem settled_empty : settled {} = [] := rfl

@[simp]
theorem pending_empty : pending {} = [] := rfl

/-! ## Closing calls -/

def attach (lines : List LineInfo) (closed : List CallTree) (child : CallTree) :
    List CallTree → Outline
  | [] => ⟨lines, closed ++ [child], []⟩
  | p :: rest => ⟨lines, closed, p.addInner child :: rest⟩

def remaining (closes : Nat → InlineCall → Bool) : List InlineCall → List InlineCall
  | [] => []
  | c :: rest => if closes (rest.length + 1) c then remaining closes rest else c :: rest

theorem remaining_sublist (closes : Nat → InlineCall → Bool) (chain : List InlineCall) :
    (remaining closes chain).Sublist chain := by
  induction chain with
  | nil => exact .slnil
  | cons c rest ih =>
      rw [remaining]
      split
      · exact ih.cons c
      · exact List.Sublist.refl _

structure ClosesTo (closes : Nat → InlineCall → Bool) (o o' : Outline) : Prop where
  lines : o'.lines = o.lines
  placed : o'.placed = o.placed
  chain : o'.chain = remaining closes o.chain
  pending : ∀ p ∈ o'.pending, p ∈ o.pending
  settled : ∀ p ∈ o'.settled, p ∈ o.settled ∨
    p ∈ o.pending ∧ ∃ n ≤ o.chain.length, closes n p.call = true

variable {closes : Nat → InlineCall → Bool} {ls : List LineInfo} {closed rest : List CallTree}
  {child t : CallTree}

theorem toStack_attach (b : FunctionBuilder) :
    (attach ls closed child rest).toStack b =
      InlineStack.attach (child.toFunction b.compDir)
        ⟨b.address, b.size, b.name, b.compDir, ls, toFunctions b.compDir closed, false⟩
        (rest.map fun t => ⟨t.call, t.toFunction b.compDir⟩) := by
  cases rest with
  | nil =>
      simp only [attach, toStack, toFunctions_append, toFunctions, List.map_nil,
        InlineStack.attach, Function.addInlinee]
  | cons p rest =>
      simp only [attach, toStack, List.map_cons, toFunction_addInner, InlineStack.attach]
      rfl

theorem length_attach : (attach ls closed child rest).opened.length = rest.length := by
  cases rest with
  | nil => rfl
  | cons p rest => rfl

theorem chain_attach : (attach ls closed child rest).chain = rest.map call := by
  cases rest with
  | nil => rfl
  | cons p rest => rfl

theorem placed_attach : (attach ls closed child rest).placed =
    placed ⟨ls, closed, child :: rest⟩ := by
  cases rest with
  | nil =>
      simp only [attach, placed, placedIn, placementsIn_append, placementsIn, List.append_nil]
      rfl
  | cons p rest =>
      simp only [attach, placed, placedIn, List.append_assoc, placements_eq _ p,
        placements_eq _ (p.addInner child)]
      simp only [addInner, call, CallTree.lines, CallTree.inner, placementsIn_append, placementsIn,
        List.append_nil, List.cons_append, List.head?_cons, Option.map_some]

theorem pending_attach : (attach ls closed child rest).pending = pendingIn rest := by
  cases rest with
  | nil => rfl
  | cons p rest => rfl

theorem mem_settled_attach {p : Placement} (h : p ∈ (attach ls closed child rest).settled) :
    p ∈ settled ⟨ls, closed, child :: rest⟩ ∨ p = ⟨rest.head?.map call, child.call, child.lines⟩ := by
  have hchild {caller : Option InlineCall} (h : p ∈ child.placements caller) :
      p ∈ placementsIn (some child.call) child.inner ∨ p = ⟨caller, child.call, child.lines⟩ := by
    rw [placements_eq] at h
    exact (List.mem_cons.1 h).symm
  cases rest with
  | nil =>
      simp only [attach, settled, placementsIn_append, placementsIn, List.flatMap_nil,
        List.append_nil, List.mem_append] at h
      simp only [settled, List.flatMap_cons, List.flatMap_nil, List.append_nil, List.mem_append]
      exact h.elim (fun h => .inl (.inl h)) fun h => (hchild h).imp_left .inr
  | cons q rest =>
      simp only [attach, settled, addInner, call, CallTree.inner, placementsIn_append, placementsIn,
        List.flatMap_cons, List.append_nil, List.mem_append] at h
      simp only [settled, List.flatMap_cons, List.mem_append]
      rcases h with h | (h | h) | h
      · exact .inl (.inl h)
      · exact .inl (.inr (.inr (.inl h)))
      · exact (hchild h).imp_left fun h => .inr (.inl h)
      · exact .inl (.inr (.inr (.inr h)))

/-- Closing calls of an outline as of the stack that it describes. -/
theorem exists_closeWhile (b : FunctionBuilder) (closes : Nat → InlineCall → Bool) (o : Outline) :
    ∃ o', (o.toStack b).closeWhile (fun n c => closes n c.call) = o'.toStack b ∧
      o.ClosesTo closes o' := by
  -- By the number of open calls: closing one changes the tree of the next, so that what is left of
  -- `o.opened` is no part of it.
  induction h : o.opened.length generalizing o with
  | zero =>
      obtain ⟨ls, closed, opened⟩ := o
      obtain rfl := List.length_eq_zero_iff.1 h
      exact ⟨_, InlineStack.closeWhile_nil .., rfl, rfl, rfl, fun _ => id, fun _ => .inl⟩
  | succ n ih =>
      obtain ⟨ls, closed, opened⟩ := o
      obtain ⟨child, rest, rfl⟩ := List.exists_cons_of_length_eq_add_one h
      have hremaining : remaining closes ((child :: rest).map call) =
          if closes (rest.length + 1) child.call then remaining closes (rest.map call)
          else (child :: rest).map call := by
        rw [List.map_cons, remaining, List.length_map]
      rw [toStack, List.map_cons, InlineStack.closeWhile_cons, List.length_map]
      by_cases hcloses : closes (rest.length + 1) child.call = true
      · obtain ⟨o', ho', hto⟩ :=
          ih (attach ls closed child rest) (length_attach.trans (Nat.succ.inj h))
        rw [toStack_attach] at ho'
        refine ⟨o', (if_pos hcloses).trans ho', hto.lines.trans ?_, hto.placed.trans placed_attach,
          ?_, ?_, ?_⟩
        · cases rest <;> rfl
        · rw [hto.chain, chain_attach, chain, hremaining, if_pos hcloses]
        · intro p hp
          exact List.mem_cons_of_mem _ (pending_attach ▸ hto.pending p hp)
        · intro p hp
          rcases hto.settled p hp with hp | ⟨hp, hclosed⟩
          · refine (mem_settled_attach hp).imp_right ?_
            rintro rfl
            exact ⟨List.mem_cons_self, _, by simp [chain], hcloses⟩
          · obtain ⟨n, hn, hcloses⟩ := hclosed
            rw [chain_attach] at hn
            refine .inr ⟨List.mem_cons_of_mem _ (pending_attach ▸ hp), n, ?_, hcloses⟩
            exact Nat.le_succ_of_le hn
      · exact ⟨_, if_neg hcloses, rfl, rfl, (hremaining.trans (if_neg hcloses)).symm, fun _ => id,
          fun _ => .inl⟩

/-! ## Opening calls and adding lines -/

def links (o : Outline) : List (Option InlineCall × InlineCall) :=
  o.placed.map fun p => (p.caller, p.call)

@[simp]
theorem links_empty : links {} = [] := rfl

theorem ClosesTo.links_eq {o o' : Outline} (h : o.ClosesTo closes o') : o'.links = o.links := by
  rw [links, h.placed, links]

def openCall (c : InlineCall) (o : Outline) : Outline := { o with opened := node c [] [] :: o.opened }

theorem toStack_openCall (b : FunctionBuilder) (c : InlineCall) (o : Outline) :
    (o.openCall c).toStack b = (o.toStack b).openCall b.compDir c := rfl

theorem chain_openCall (c : InlineCall) (o : Outline) : (o.openCall c).chain = c :: o.chain := rfl

theorem links_openCall (c : InlineCall) (o : Outline) :
    (o.openCall c).links = o.links ++ [(o.chain.head?, c)] := by
  rw [links, placed, openCall, placedIn, List.map_append, chain, List.head?_map]
  rfl

theorem pending_openCall (c : InlineCall) (o : Outline) :
    (o.openCall c).pending = ⟨o.chain.head?, c, []⟩ :: o.pending := by
  rw [chain, List.head?_map]
  rfl

theorem settled_openCall (c : InlineCall) (o : Outline) : (o.openCall c).settled = o.settled := rfl

def addLineTo (l : LineInfo) (inner : Option InlineCall) : List CallTree → List CallTree
  | [] => []
  | t :: rest => t.addLine (l.seenFrom inner) :: addLineTo l (some t.call) rest

def addLine (l : LineInfo) (o : Outline) : Outline :=
  ⟨o.lines ++ [l.seenFrom o.chain.getLast?], o.closed, addLineTo l none o.opened⟩

variable {l : LineInfo} {o : Outline}

theorem seenFrom_seenFrom (inner : Option InlineCall) (c : InlineCall) :
    (l.seenFrom inner).seenFrom (some c) = l.seenFrom (some c) := by
  cases inner with
  | none => rfl
  | some c' => rfl

theorem outermost_cons (t : CallTree) (rest : List CallTree) (inner : Option InlineCall) :
    ((t :: rest).map call).getLast?.or inner = (rest.map call).getLast?.or (some t.call) := by
  rw [List.map_cons, List.getLast?_cons]
  cases (rest.map call).getLast? <;> rfl

theorem addLineToCalls_seenFrom (dir : Bytes) (inner : Option InlineCall) (ts : List CallTree) :
    InlineStack.addLineToCalls (l.seenFrom inner) (ts.map fun t => ⟨t.call, t.toFunction dir⟩) =
      ((addLineTo l inner ts).map fun t => ⟨t.call, t.toFunction dir⟩,
        l.seenFrom ((ts.map call).getLast?.or inner)) := by
  induction ts generalizing inner with
  | nil => rfl
  | cons t rest ih =>
      have hrest := ih (some t.call)
      rw [← seenFrom_seenFrom inner, ← outermost_cons t rest inner] at hrest
      rw [List.map_cons, InlineStack.addLineToCalls]
      dsimp only
      rw [show ({ l.seenFrom inner with
        file := t.call.callFile, line := t.call.callLine } : LineInfo) =
          (l.seenFrom inner).seenFrom (some t.call) from rfl, hrest, addLineTo,
        ← toFunction_addLine]
      rfl

theorem toStack_addLine (b : FunctionBuilder) :
    (o.addLine l).toStack b = (o.toStack b).addLine l := by
  have h := addLineToCalls_seenFrom (l := l) b.compDir none o.opened
  rw [Option.or_none] at h
  rw [InlineStack.addLine, toStack, toStack]
  dsimp only
  rw [show l = l.seenFrom none from rfl, h]
  rfl

theorem map_call_addLineTo (inner : Option InlineCall) (ts : List CallTree) :
    (addLineTo l inner ts).map call = ts.map call := by
  induction ts generalizing inner with
  | nil => rfl
  | cons t rest ih =>
      rw [addLineTo, List.map_cons, List.map_cons, ih]
      rfl

theorem chain_addLine : (o.addLine l).chain = o.chain := map_call_addLineTo none o.opened

theorem links_addLine : (o.addLine l).links = o.links := by
  have hplaced (before : List Placement) (inner : Option InlineCall) (ts : List CallTree) :
      (placedIn before (addLineTo l inner ts)).map (fun p => (p.caller, p.call)) =
        (placedIn before ts).map fun p => (p.caller, p.call) := by
    induction ts generalizing inner with
    | nil => rfl
    | cons t rest ih =>
        rw [addLineTo, placedIn, placedIn, List.map_append, List.map_append, ih, placements_eq,
          placements_eq, ← List.head?_map, map_call_addLineTo, List.head?_map]
        rfl
  exact hplaced _ none o.opened

theorem settled_addLine : (o.addLine l).settled = o.settled := by
  have hinner (inner : Option InlineCall) (ts : List CallTree) :
      ((addLineTo l inner ts).flatMap fun t => placementsIn (some t.call) t.inner) =
        ts.flatMap fun t => placementsIn (some t.call) t.inner := by
    induction ts generalizing inner with
    | nil => rfl
    | cons t rest ih =>
        rw [addLineTo, List.flatMap_cons, List.flatMap_cons, ih]
        rfl
  rw [settled, settled, addLine, hinner]

/-- An open call keeps the lines it has. -/
theorem mem_pending_addLineTo {inner : Option InlineCall} {ts : List CallTree} {p : Placement}
    (h : p ∈ pendingIn (addLineTo l inner ts)) :
    ∃ q ∈ pendingIn ts, ∃ f, p.lines = q.lines ++ [l.seenFrom f] := by
  induction ts generalizing inner with
  | nil => cases h
  | cons t rest ih =>
      rw [addLineTo, pendingIn] at h
      rcases List.mem_cons.1 h with rfl | h
      · exact ⟨_, List.mem_cons_self, inner, rfl⟩
      · obtain ⟨q, hq, hlines⟩ := ih h
        exact ⟨q, List.mem_cons_of_mem _ hq, hlines⟩

end Outline

end Postmortem.Debug
