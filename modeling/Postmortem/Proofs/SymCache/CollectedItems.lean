import Postmortem.Proofs.SymCache.References

/-!
# What a builder has collected

Functions and symbols are added in any order, between them the load address may change, and some
additions may be refused.  What a builder holds then are the scopes of those that were not.
-/

set_option autoImplicit false

namespace Postmortem.SymCache.Builder

inductive Collected : Builder → List Item → Prop where
  | empty : Collected {} []
  | added {b b' : Builder} {items : List Item} {i : Item} :
    Collected b items → b.add i = (.ok (), b') → Collected b' (items ++ [i])
  | refused {b b' : Builder} {items : List Item} {i : Item} {e : Fault} :
    Collected b items → b.add i = (.error e, b') → Collected b' items
  | settings {b : Builder} {items : List Item} (arch : Arch) (debugId : DebugId)
    (loadAddress : UInt64) :
    Collected b items → Collected { b with arch, debugId, loadAddress } items

variable {b : Builder} {items : List Item}

theorem Collected.whole (h : b.Collected items) : b.Whole := by
  induction h with
  | empty => exact whole_empty
  | @added b b' items i _ hadd ih =>
      have hwhole := (ih.add i).whole
      rwa [hadd] at hwhole
  | @refused b b' items i e _ hadd ih =>
      have hwhole := (ih.add i).whole
      rwa [hadd] at hwhole
  | settings _ _ _ _ ih => exact ⟨ih.pools, ih.scopes⟩

/-- A builder holds the scopes of the items that have code. -/
theorem Collected.outer (h : b.Collected items) :
    List.Forall₂ (OuterOf b.pools) b.outer (items.filter fun i => i.HasCode) := by
  induction h with
  | empty => exact .nil
  | @added b b' items i hb hadd ih =>
      have hadds := add_spec hb.whole.pools.strings hadd
      obtain ⟨new, houter, hnew⟩ := hadds.outer
      rw [houter, List.filter_append]
      exact List.rel_append (ih.imp fun _ _ ho => ho.mono hadds.grown) hnew
  | @refused b b' items i e hb hadd ih =>
      have hgoes := hb.whole.add i
      rw [hadd] at hgoes
      obtain ⟨pools, rfl⟩ := add_refused hadd
      exact ih.imp fun _ _ ho => ho.mono hgoes.grown
  | settings _ _ _ _ ih => exact ih

theorem Collected.add (h : b.Collected items) (i : Item) :
    ∃ more, (b.add i).2.Collected more := by
  cases hadd : b.add i with
  | mk outcome b' =>
      cases outcome with
      | ok => exact ⟨_, h.added hadd⟩
      | error e => exact ⟨_, h.refused hadd⟩

/-- Each builder that can be reached has collected some items. -/
theorem Reached.collected (h : b.Reached) : ∃ items, b.Collected items := by
  have hfunction (b : Builder) (hb : ∃ items, b.Collected items) (f : Debug.Function) :
      ∃ items, (b.addFunction f).2.Collected items := by
    obtain ⟨items, hb⟩ := hb
    exact hb.add (.function f)
  have hsymbol (b : Builder) (hb : ∃ items, b.Collected items) (s : Debug.Symbol) :
      ∃ items, (b.addSymbol s).2.Collected items := by
    obtain ⟨items, hb⟩ := hb
    exact hb.add (.symbol s)
  induction h with
  | empty => exact ⟨[], .empty⟩
  | function f _ ih => exact hfunction _ ih f
  | symbol s _ ih => exact hsymbol _ ih s
  | @object b o _ ih =>
      obtain ⟨items, hb⟩ := ih
      have hfunctions := addAll_keeps hfunction
        ⟨items, hb.settings o.arch o.debugId o.loadAddress⟩ o.functions
      rw [addObject]
      split
      · rename_i b' hok
        rw [hok] at hfunctions
        exact addAll_keeps hsymbol hfunctions _
      · exact hfunctions
  | settings arch debugId loadAddress _ ih =>
      obtain ⟨items, hb⟩ := ih
      exact ⟨items, hb.settings arch debugId loadAddress⟩

end Postmortem.SymCache.Builder
