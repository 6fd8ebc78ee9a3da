import Postmortem.Proofs.CfiCache.RuleSets
import Postmortem.Proofs.PostfixReadings
import Postmortem.Proofs.RelatedLists

/-!
# Readable rules

A rule as text can be read if it is for a register and its tokens leave one expression.  The text of
such rules is accepted at both widths, whether or not a blank stands behind their colons.
-/

set_option autoImplicit false

namespace Postmortem.CfiCache

open Postfix (Width heightAfter? isRegister)

variable {w : Width}

structure TextRule.Readable (r : TextRule) : Prop where
  register : isRegister r.register = true
  height : heightAfter? r.expr 0 = some 1

namespace TextRule

theorem register?_tokenChars {t : Token} (h : ∀ c ∈ t, Postfix.isTokenChar c = true) :
    register? t = none := by
  rw [register?, if_neg]
  rintro ⟨hlast, -⟩
  exact (Postfix.bounds_of_isTokenChar (h ':' (List.mem_of_getLast? hlast))).2.2 rfl

theorem Readable.tokenChars {r : TextRule} (h : r.Readable) :
    ∀ t ∈ r.expr, t ≠ [] ∧ ∀ c ∈ t, Postfix.isTokenChar c = true := by
  intro t ht
  obtain ⟨k, hk⟩ := Postfix.arity?_of_heightAfter? h.height t ht
  exact Postfix.tokenChars_of_arity? hk

theorem Readable.expr_ne_nil {r : TextRule} (h : r.Readable) : r.expr ≠ [] := by
  intro hnil
  have hheight := h.height
  rw [hnil] at hheight
  cases hheight

theorem Readable.wellFormed {r : TextRule} (h : r.Readable) : r.WellFormed := by
  obtain ⟨hne, hchars⟩ := Postfix.tokenChars_of_isRegister h.register
  refine ⟨Postfix.isWord_of_tokenChars hne hchars, ?_, ?_⟩
  · intro t ht
    exact Postfix.isWord_of_tokenChars (h.tokenChars t ht).1 (h.tokenChars t ht).2
  · intro t ht
    exact register?_tokenChars (h.tokenChars t ht).2

/-! ## Rules in a text -/

def rule? (w : Width) (r : TextRule) : Option (Postfix.Rule w) :=
  match Postfix.stackAfter? w r.expr [] with
  | some [e] => some ⟨.ofName (String.ofList r.register), e⟩
  | _ => none

theorem rule?_eq_some_iff {r : TextRule} {x : Postfix.Rule w} :
    r.rule? w = some x ↔ Postfix.stackAfter? w r.expr [] = some [x.expr] ∧
      x.register = .ofName (String.ofList r.register) := by
  obtain ⟨register, e⟩ := x
  rw [rule?]
  split
  · rename_i d hd
    rw [hd]
    simp only [Option.some.injEq, Postfix.Rule.mk.injEq, List.cons.injEq, and_true]
    exact ⟨fun ⟨hr, he⟩ => ⟨he, hr.symm⟩, fun ⟨he, hr⟩ => ⟨hr.symm, he⟩⟩
  · rename_i hno
    exact ⟨nofun, fun ⟨he, _⟩ => absurd he (hno e)⟩

theorem Readable.exists_rule? {r : TextRule} (h : r.Readable) (w : Width) :
    ∃ x, r.rule? w = some x := by
  have hheight : heightAfter? r.expr ([] : List (Postfix.Expr w)).length = some 1 := h.height
  obtain ⟨stack, hstack, hlen⟩ := Postfix.exists_stackAfter? w hheight
  obtain ⟨e, rfl⟩ := List.length_eq_one_iff.1 hlen
  exact ⟨⟨.ofName (String.ofList r.register), e⟩, rule?_eq_some_iff.2 ⟨hstack, rfl⟩⟩

end TextRule

/-- A rule as it stands in a text, where its colon may be joined to its expression. -/
structure Spelling where
  rule : TextRule
  spaced : Bool

namespace Spelling

def chars (q : Spelling) : List Char :=
  q.rule.register ++
    ':' :: ((if q.spaced then [' '] else []) ++ List.intercalate [' '] q.rule.expr)

theorem isRule_chars {q : Spelling} (h : q.rule.Readable) {x : Postfix.Rule w}
    (hx : q.rule.rule? w = some x) : Postfix.IsRule w q.chars x := by
  obtain ⟨register, e⟩ := x
  obtain ⟨hstack, rfl⟩ := TextRule.rule?_eq_some_iff.1 hx
  refine .mk (Postfix.isRegister_iff_name.1 h.register) (Postfix.isExpression_iff_stack.2 ?_)
  have hspace : ∀ c ∈ (if q.spaced then [' '] else []), Postfix.isSpace c = true := by
    split <;> simp [Postfix.isSpace]
  rw [Postfix.words_blank hspace, Postfix.words_intercalate h.tokenChars, hstack]

/-- The text of readable rules is read as the rules that they stand for, whether or not a blank
stands behind their colons. -/
theorem parseRules_chars {qs : List Spelling} (h : ∀ q ∈ qs, q.rule.Readable) {text : String}
    (htext : text.toList = List.intercalate [' '] (qs.map chars)) :
    ∃ xs, Postfix.parseRules w text = .ok xs ∧
      List.Forall₂ (fun q x => q.rule.rule? w = some x) qs xs := by
  obtain ⟨xs, hxs⟩ := exists_forall₂ fun q hq => (h q hq).exists_rule? w
  refine ⟨xs, Postfix.parseRules_eq_ok_iff.2 ?_, hxs⟩
  rw [htext]
  apply Postfix.rulesIn_intercalate
  rw [List.forall₂_map_left_iff]
  exact ((List.forall₂_and_left _ _).2 ⟨h, hxs⟩).imp fun q x ⟨hq, hx⟩ => isRule_chars hq hx

end Spelling

/-- The text of readable rules is read as the rules that they stand for. -/
theorem parseRules_toText {s : RuleSet} (h : ∀ r ∈ s.rules, r.Readable) :
    ∃ xs, Postfix.parseRules w s.toText = .ok xs ∧
      List.Forall₂ (fun r x => r.rule? w = some x) s.rules xs := by
  have hreadable : ∀ q ∈ s.rules.map (fun r => (⟨r, true⟩ : Spelling)), q.rule.Readable := by
    simpa using h
  have htext : s.toText.toList =
      List.intercalate [' '] ((s.rules.map fun r => (⟨r, true⟩ : Spelling)).map Spelling.chars) := by
    rw [RuleSet.toText, String.toList_ofList, List.map_map]
    rfl
  obtain ⟨xs, hread, hxs⟩ := Spelling.parseRules_chars hreadable htext
  exact ⟨xs, hread, (List.forall₂_map_left_iff).1 hxs⟩

/-- Rules are for the registers of the texts that they were read from. -/
theorem named_iff_of_rules {name : String} {rules : List TextRule} {xs : List (Postfix.Rule w)}
    (h : List.Forall₂ (fun r x => r.rule? w = some x) rules xs) :
    (∃ x ∈ xs, x.register = .ofName name) ↔ RuleSet.Named name rules := by
  constructor
  · rintro ⟨x, hx, hname⟩
    obtain ⟨q, hq, hrule⟩ := exists_left h hx
    rw [(TextRule.rule?_eq_some_iff.1 hrule).2] at hname
    exact ⟨q, hq, by rw [← Postfix.Register.ofName_injective hname, String.toList_ofList]⟩
  · rintro ⟨q, hq, hname⟩
    obtain ⟨x, hx, hrule⟩ := exists_right h hq
    refine ⟨x, hx, ?_⟩
    rw [(TextRule.rule?_eq_some_iff.1 hrule).2, hname, String.ofList_toList]

end Postmortem.CfiCache
