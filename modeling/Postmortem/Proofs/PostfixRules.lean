import Postmortem.Proofs.Outcomes
import Postmortem.Proofs.PostfixStacks

/-!
# Rules in postfix text

How rules are read one after the other.  Which texts are accepted, and for which registers they have
rules, does not depend on the width of a word.
-/

set_option autoImplicit false

namespace Postmortem.Postfix

variable {w : Width} {stops : Bool}

/-! ## Reading rules -/

theorem eq_of_single {cause : ParseError.Cause} {stack : List (Expr w)} {rest : List Char}
    {e : Expr w} (h : single cause stack rest = .ok e) : stack = [e] := by
  unfold single at h
  split at h
  · cases h
  · rw [Except.ok.inj h]
  · cases h

theorem eq_of_character {c : Char} {cs rest : List Char} (h : character c cs = .ok rest) :
    cs = c :: rest := by
  cases cs with
  | nil => cases h
  | cons d cs =>
      rw [character] at h
      split at h
      · rename_i hd
        rw [hd, Except.ok.inj h]
      · cases h

theorem rulesFrom_rule {cs rest : List Char} {x : Rule w} (h : rule w cs = .ok (x, rest)) :
    rulesFrom w cs = (x :: (rulesFrom w rest).1, (rulesFrom w rest).2) := by
  rw [rulesFrom]
  split
  · rename_i e herror
    rw [h] at herror
    cases herror
  · rename_i y tail hok
    rw [h] at hok
    cases hok
    rfl

theorem parseRules_eq_ok {text : String} {xs : List (Rule w)} :
    parseRules w text = .ok xs ↔
      (rulesFrom w text.toList).1 = xs ∧ skipSpace (rulesFrom w text.toList).2 = [] := by
  rw [parseRules]
  generalize rulesFrom w text.toList = p
  obtain ⟨ys, rest⟩ := p
  show (if (skipSpace rest).isEmpty then Except.ok ys
    else .error (ParseError.mk (.missing .endOfText) (skipSpace rest))) = .ok xs ↔
      ys = xs ∧ skipSpace rest = []
  cases skipSpace rest with
  | nil => simp
  | cons c rest => simp

/-! ## What the width does not change -/

theorem exists_token?_width (w' : Width) {cs rest : List Char} {k : Token w}
    (h : token? w cs = some (k, rest)) :
    ∃ k' : Token w', token? w' cs = some (k', rest) ∧ k'.arity = k.arity := by
  have hshape := token?_width w w' cs
  rw [h] at hshape
  obtain ⟨⟨k', rest'⟩, hk', heq⟩ := Option.map_eq_some_iff.1 hshape.symm
  obtain ⟨harity, rfl⟩ := Prod.mk.inj heq
  exact ⟨k', hk', harity⟩

theorem exists_stackFrom_width (w' : Width) {cs rest : List Char} {stack final : List (Expr w)}
    (h : stackFrom w stops cs stack = .ok (final, rest)) :
    ∀ stack' : List (Expr w'), stack'.length = stack.length →
      ∃ final', stackFrom w' stops cs stack' = .ok (final', rest) ∧
        final'.length = final.length := by
  fun_induction stackFrom w stops cs stack with
  | case1 cs stack here hend =>
      obtain ⟨rfl, rfl⟩ := Prod.mk.inj (Except.ok.inj h)
      intro stack' hlen
      exact ⟨stack', by rw [stackFrom.eq_def w', if_pos hend], hlen⟩
  | case2 cs stack here hend hnone =>
      obtain ⟨rfl, rfl⟩ := Prod.mk.inj (Except.ok.inj h)
      intro stack' hlen
      refine ⟨stack', ?_, hlen⟩
      rw [stackFrom.eq_def w', if_neg hend]
      split
      · rfl
      · rename_i hsome
        obtain ⟨k, hk, -⟩ := exists_token?_width w hsome
        rw [hnone] at hk
        cases hk
  | case3 => cases h
  | case4 cs stack here hend t tail ht mid hmid ih =>
      intro stack' hlen
      obtain ⟨t', ht', harity⟩ := exists_token?_width w' ht
      have hlength := t'.length_apply? stack'
      rw [harity, hlen, ← t.length_apply?, hmid] at hlength
      obtain ⟨mid', hmid', hlen'⟩ := Option.map_eq_some_iff.1 hlength
      obtain ⟨final', hfinal', hsame⟩ := ih h mid' hlen'
      refine ⟨final', ?_, hsame⟩
      rw [← hfinal', stackFrom.eq_def w' _ cs, if_neg hend]
      split
      · rename_i hnone
        rw [ht'] at hnone
        cases hnone
      · rename_i u left hu
        rw [ht'] at hu
        cases hu
        rw [hmid']

theorem exists_rule_width (w' : Width) {cs rest : List Char} {x : Rule w}
    (h : rule w cs = .ok (x, rest)) :
    ∃ x' : Rule w', rule w' cs = .ok (x', rest) ∧ x'.register = x.register := by
  obtain ⟨⟨r, tail⟩, hregister, h⟩ := bind_eq_ok.1 h
  obtain ⟨behind, hcolon, h⟩ := bind_eq_ok.1 h
  obtain ⟨⟨stack, left⟩, hstack, h⟩ := bind_eq_ok.1 h
  obtain ⟨e, hsingle, h⟩ := bind_eq_ok.1 h
  cases h
  obtain ⟨stack', hstack', hlen⟩ := exists_stackFrom_width w' hstack [] rfl
  rw [eq_of_single hsingle] at hlen
  obtain ⟨e', rfl⟩ := List.length_eq_one_iff.1 hlen
  refine ⟨⟨r, e'⟩, ?_, rfl⟩
  refine bind_eq_ok.2 ⟨_, hregister, bind_eq_ok.2 ⟨_, hcolon, bind_eq_ok.2 ⟨_, hstack', ?_⟩⟩⟩
  exact bind_eq_ok.2 ⟨e', rfl, rfl⟩

theorem rulesFrom_width (w w' : Width) (cs : List Char) :
    (rulesFrom w' cs).2 = (rulesFrom w cs).2 ∧
      (rulesFrom w' cs).1.map (·.register) = (rulesFrom w cs).1.map (·.register) := by
  fun_induction rulesFrom w cs with
  | case1 cs e he =>
      rw [rulesFrom.eq_def]
      split
      · exact ⟨rfl, rfl⟩
      · rename_i x rest hx
        obtain ⟨x', hx', -⟩ := exists_rule_width w hx
        rw [he] at hx'
        cases hx'
  | case2 cs x rest hx xs left hrest ih =>
      obtain ⟨x', hx', hregister⟩ := exists_rule_width w' hx
      obtain ⟨hleft, hxs⟩ := ih
      rw [hrest] at hleft hxs
      rw [rulesFrom_rule hx', List.map_cons, List.map_cons, hxs, hregister]
      exact ⟨hleft, rfl⟩

/-- A text is accepted at both widths or at none, with rules for the same registers. -/
theorem exists_parseRules_width (w' : Width) {text : String} {xs : List (Rule w)}
    (h : parseRules w text = .ok xs) :
    ∃ xs' : List (Rule w'), parseRules w' text = .ok xs' ∧
      xs'.map (·.register) = xs.map (·.register) := by
  obtain ⟨rfl, hrest⟩ := parseRules_eq_ok.1 h
  obtain ⟨hleft, hregisters⟩ := rulesFrom_width w w' text.toList
  exact ⟨_, parseRules_eq_ok.2 ⟨rfl, hleft ▸ hrest⟩, hregisters⟩

end Postmortem.Postfix
