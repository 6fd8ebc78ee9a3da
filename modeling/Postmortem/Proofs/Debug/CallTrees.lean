import Postmortem.Debug.FunctionBuilder

/-!
# Trees of calls

The tree of a function with the calls that its nodes stand for, and its nodes in pre-order: those of
a node come behind it, and in the order in which they are inlined into it.
-/

set_option autoImplicit false

namespace Postmortem.Debug

def LineInfo.seenFrom (l : LineInfo) : Option InlineCall → LineInfo
  | none => l
  | some c => { l with file := c.callFile, line := c.callLine }

/-- A call with the lines it is given and the calls inlined into it. -/
inductive CallTree where
  | node (call : InlineCall) (lines : List LineInfo) (inner : List CallTree)

structure Placement where
  caller : Option InlineCall
  call : InlineCall
  lines : List LineInfo

structure Inlining where
  caller : Option CallTree
  callee : CallTree

namespace CallTree

def call : CallTree → InlineCall
  | node call _ _ => call

def lines : CallTree → List LineInfo
  | node _ lines _ => lines

def inner : CallTree → List CallTree
  | node _ _ inner => inner

def addInner (t child : CallTree) : CallTree := node t.call t.lines (t.inner ++ [child])

def addLine (t : CallTree) (l : LineInfo) : CallTree := node t.call (t.lines ++ [l]) t.inner

mutual

def toFunction (dir : Bytes) : CallTree → Function
  | node c lines inner => ⟨c.address, c.size, c.name, dir, lines, toFunctions dir inner, true⟩

def toFunctions (dir : Bytes) : List CallTree → List Function
  | [] => []
  | t :: rest => t.toFunction dir :: toFunctions dir rest

end

mutual

def inlinings (caller : Option CallTree) : CallTree → List Inlining
  | node c lines inner =>
    ⟨caller, node c lines inner⟩ :: inliningsIn (some (node c lines inner)) inner

def inliningsIn (caller : Option CallTree) : List CallTree → List Inlining
  | [] => []
  | t :: rest => t.inlinings caller ++ inliningsIn caller rest

end

mutual

def placements (caller : Option InlineCall) : CallTree → List Placement
  | node c lines inner => ⟨caller, c, lines⟩ :: placementsIn (some c) inner

def placementsIn (caller : Option InlineCall) : List CallTree → List Placement
  | [] => []
  | t :: rest => t.placements caller ++ placementsIn caller rest

end

end CallTree

def Inlining.placement (i : Inlining) : Placement :=
  ⟨i.caller.map CallTree.call, i.callee.call, i.callee.lines⟩

namespace CallTree

theorem placements_eq (caller : Option InlineCall) (t : CallTree) :
    t.placements caller = ⟨caller, t.call, t.lines⟩ :: placementsIn (some t.call) t.inner := by
  cases t
  rfl

theorem placementsIn_append (caller : Option InlineCall) (ts us : List CallTree) :
    placementsIn caller (ts ++ us) = placementsIn caller ts ++ placementsIn caller us := by
  induction ts with
  | nil => rfl
  | cons t rest ih => rw [List.cons_append, placementsIn, placementsIn, ih, List.append_assoc]

theorem toFunctions_append (dir : Bytes) (ts us : List CallTree) :
    toFunctions dir (ts ++ us) = toFunctions dir ts ++ toFunctions dir us := by
  induction ts with
  | nil => rfl
  | cons t rest ih => rw [List.cons_append, toFunctions, toFunctions, ih, List.cons_append]

theorem eq_nil_of_toFunctions {dir : Bytes} {ts : List CallTree} (h : toFunctions dir ts = []) :
    ts = [] := by
  cases ts with
  | nil => rfl
  | cons t rest => cases h

theorem eq_cons_of_toFunctions {dir : Bytes} {ts : List CallTree} {f : Function}
    {fs : List Function} (h : toFunctions dir ts = f :: fs) :
    ∃ c lines inner rest, ts = node c lines inner :: rest ∧
      toFunctions dir inner = f.inlinees ∧ toFunctions dir rest = fs := by
  cases ts with
  | nil => cases h
  | cons t rest =>
      obtain ⟨c, lines, inner⟩ := t
      obtain ⟨rfl, rfl⟩ := List.cons.inj h
      exact ⟨c, lines, inner, rest, rfl, rfl, rfl⟩

theorem toFunction_addInner (dir : Bytes) (t child : CallTree) :
    (t.addInner child).toFunction dir = (t.toFunction dir).addInlinee (child.toFunction dir) := by
  cases t
  simp only [addInner, call, lines, inner, toFunction, toFunctions_append, toFunctions,
    Function.addInlinee]

theorem toFunction_addLine (dir : Bytes) (t : CallTree) (l : LineInfo) :
    (t.addLine l).toFunction dir = (t.toFunction dir).addLine l := by
  cases t
  rfl

mutual

theorem map_placement (caller : Option CallTree) (t : CallTree) :
    (t.inlinings caller).map Inlining.placement = t.placements (caller.map call) := by
  obtain ⟨c, lines, inner⟩ := t
  rw [inlinings, placements, List.map_cons, map_placement_in _ inner]
  rfl

theorem map_placement_in (caller : Option CallTree) (ts : List CallTree) :
    (inliningsIn caller ts).map Inlining.placement = placementsIn (caller.map call) ts := by
  cases ts with
  | nil => rfl
  | cons t rest =>
      rw [inliningsIn, placementsIn, List.map_append, map_placement caller t,
        map_placement_in caller rest]

end

mutual

/-- A caller inside a tree is a node of the tree. -/
theorem caller_mem_inlinings {caller : Option CallTree} {t : CallTree} {i : Inlining}
    (h : i ∈ t.inlinings caller) :
    i.caller = caller ∨ ∃ j ∈ t.inlinings caller, i.caller = some j.callee := by
  obtain ⟨c, lines, inner⟩ := t
  rw [inlinings] at h ⊢
  rcases List.mem_cons.1 h with rfl | h
  · exact .inl rfl
  · rcases caller_mem_inliningsIn h with hcaller | ⟨j, hj, hcaller⟩
    · exact .inr ⟨_, List.mem_cons_self, hcaller⟩
    · exact .inr ⟨j, List.mem_cons_of_mem _ hj, hcaller⟩

theorem caller_mem_inliningsIn {caller : Option CallTree} {ts : List CallTree} {i : Inlining}
    (h : i ∈ inliningsIn caller ts) :
    i.caller = caller ∨ ∃ j ∈ inliningsIn caller ts, i.caller = some j.callee := by
  cases ts with
  | nil => cases h
  | cons t rest =>
      rw [inliningsIn] at h ⊢
      rcases List.mem_append.1 h with h | h
      · refine (caller_mem_inlinings h).imp_right ?_
        rintro ⟨j, hj, hcaller⟩
        exact ⟨j, List.mem_append_left _ hj, hcaller⟩
      · refine (caller_mem_inliningsIn h).imp_right ?_
        rintro ⟨j, hj, hcaller⟩
        exact ⟨j, List.mem_append_right _ hj, hcaller⟩

end

/-- Trees that stand side by side are in the order of pre-order. -/
theorem roots_sublist (caller : Option CallTree) (ts : List CallTree) :
    (ts.map call).Sublist ((inliningsIn caller ts).map (·.callee.call)) := by
  induction ts with
  | nil => exact .slnil
  | cons t rest ih =>
      obtain ⟨c, lines, inner⟩ := t
      rw [inliningsIn, inlinings, List.map_append, List.map_cons, List.map_cons, List.cons_append]
      exact .cons_cons _ (List.sublist_append_of_sublist_right ih)

mutual

theorem inner_sublist_of_mem {caller : Option CallTree} {t : CallTree} {i : Inlining}
    (h : i ∈ t.inlinings caller) :
    (i.callee.inner.map call).Sublist ((t.inlinings caller).map (·.callee.call)) := by
  obtain ⟨c, lines, inner⟩ := t
  rw [inlinings] at h ⊢
  rw [List.map_cons]
  rcases List.mem_cons.1 h with rfl | h
  · exact (roots_sublist _ inner).cons _
  · exact (inner_sublist_of_mem_inliningsIn h).cons _

theorem inner_sublist_of_mem_inliningsIn {caller : Option CallTree} {ts : List CallTree}
    {i : Inlining} (h : i ∈ inliningsIn caller ts) :
    (i.callee.inner.map call).Sublist ((inliningsIn caller ts).map (·.callee.call)) := by
  cases ts with
  | nil => cases h
  | cons t rest =>
      rw [inliningsIn] at h ⊢
      rw [List.map_append]
      rcases List.mem_append.1 h with h | h
      · exact List.sublist_append_of_sublist_left (inner_sublist_of_mem h)
      · exact List.sublist_append_of_sublist_right (inner_sublist_of_mem_inliningsIn h)

end

end CallTree

end Postmortem.Debug
