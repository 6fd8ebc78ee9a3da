import Postmortem.Proofs.CfiCache.ReadableRules

/-!
# Accepted texts

The words of an accepted text are those of its rules.  Where a blank stands behind every colon these
are the words that the text splits into as rules; where a colon is joined to the expression behind
it, the splitting takes the rule for a part of the one before it.
-/

set_option autoImplicit false

namespace Postmortem.CfiCache

open Postfix (Width skipSpace)
open Text (AtBlank splitBlanks)

variable {w : Width}

/-! ## Colons -/

/-- Whether a blank stands behind each colon, unless the text ends with it. -/
def spacedColons : List Char → Bool
  | [] => true
  | c :: rest => (c != ':' || rest.head?.all Text.isBlank) && spacedColons rest

theorem spacedColons_suffix {cs rest : List Char} (h : spacedColons cs = true)
    (hrest : rest <:+ cs) : spacedColons rest = true := by
  obtain ⟨front, rfl⟩ := hrest
  induction front with
  | nil => exact h
  | cons c front ih =>
      rw [List.cons_append, spacedColons, Bool.and_eq_true] at h
      exact ih h.2

theorem atBlank_of_spacedColons {rest : List Char} (h : spacedColons (':' :: rest) = true) :
    AtBlank rest := by
  intro c hc
  have hhead : rest.head? = some c := hc
  simp only [spacedColons, hhead, Option.all_some, bne_self_eq_false, Bool.false_or,
    Bool.and_eq_true] at h
  exact h.1

def behindColon (cs : List Char) : List Char := (cs.dropWhile (· != ':')).tail

theorem behindColon_append {front behind : List Char} (h : ':' ∉ front) :
    behindColon (front ++ ':' :: behind) = behind := by
  have hfront : ∀ c ∈ front, (c != ':') = true := by
    intro c hc
    exact bne_iff_ne.2 fun heq => h (heq ▸ hc)
  rw [behindColon, List.dropWhile_append_of_pos hfront]
  simp

/-- Whether a blank stands behind the first colon, unless the text ends with it. -/
def spacedFirst (cs : List Char) : Bool := (behindColon cs).head?.all Text.isBlank

theorem spacedFirst_iff {cs : List Char} : spacedFirst cs = true ↔ AtBlank (behindColon cs) := by
  rw [spacedFirst, Option.all_eq_true]
  rfl

/-! ## Words of rules -/

def Spelling.words (q : Spelling) : List Token :=
  match q.spaced, q.rule.expr with
  | false, t :: expr => (q.rule.register ++ ':' :: t) :: expr
  | _, expr => (q.rule.register ++ [':']) :: expr

theorem Spelling.words_ne_nil (q : Spelling) : q.words ≠ [] := by
  rw [words]
  split
  · simp
  · simp

theorem Spelling.words_of_spaced {q : Spelling} (h : q.spaced = true) :
    q.words = q.rule.tokens := by
  rw [words, h]
  rfl

theorem TextRule.tokens_ne_nil (r : TextRule) : r.tokens ≠ [] := List.cons_ne_nil _ _

theorem TextRule.intercalate_tokens {r : TextRule} (h : r.expr ≠ []) :
    List.intercalate [' '] r.tokens = r.chars := by
  rw [tokens, List.intercalate_cons_of_ne_nil h, chars]
  simp

theorem Spelling.intercalate_words {q : Spelling} (h : q.rule.expr ≠ []) :
    List.intercalate [' '] q.words = q.chars := by
  obtain ⟨⟨register, expr⟩, spaced⟩ := q
  cases spaced with
  | true => exact (TextRule.intercalate_tokens h).trans rfl
  | false =>
      cases expr with
      | nil => exact absurd rfl h
      | cons t expr =>
          cases expr with
          | nil => simp [words, chars]
          | cons u expr => simp [words, chars, List.intercalate_cons_cons]

/-! ## Reading rules -/

/-- The words of a rule that was read are those of a spelling of it, which tells whether a blank
stands behind its colon. -/
theorem spelled_of_rule {cs rest : List Char} {x : Postfix.Rule w}
    (h : Postfix.rule w cs = .ok (x, rest)) :
    ∃ q : Spelling, q.rule.Readable ∧ q.rule.rule? w = some x ∧
      splitBlanks cs = q.words ++ splitBlanks rest ∧ rest <:+ cs ∧
      ∃ front behind, cs = front ++ ':' :: behind ∧ ':' ∉ front ∧
        (q.spaced = true ↔ AtBlank behind) := by
  obtain ⟨⟨y, tail⟩, hregister, h⟩ := bind_eq_ok.1 h
  obtain ⟨behind, hcolon, h⟩ := bind_eq_ok.1 h
  obtain ⟨⟨stack, left⟩, hstack, h⟩ := bind_eq_ok.1 h
  obtain ⟨e, hsingle, h⟩ := bind_eq_ok.1 h
  cases h
  rw [Postfix.eq_of_character hcolon] at hregister
  have hend := Postfix.atEnd_colon behind
  obtain ⟨name, hname, hisRegister⟩ := Postfix.isRegister_of_register hregister hend
  obtain ⟨expr, hsplit, hexpr, hleft⟩ := Postfix.words_of_stackFrom hstack
  rw [Postfix.eq_of_single hsingle] at hexpr
  have hreadable : TextRule.Readable ⟨name, expr⟩ :=
    ⟨hisRegister, Postfix.heightAfter?_of_stackAfter? hexpr⟩
  have hrule : TextRule.rule? w ⟨name, expr⟩ = some ⟨y, e⟩ := by
    rw [hname, Postfix.register_of_isRegister hisRegister hend] at hregister
    exact TextRule.rule?_eq_some_iff.2 ⟨hexpr, (Prod.mk.inj (Except.ok.inj hregister)).1.symm⟩
  -- what stands in front of the first colon
  have hcs : cs = (cs.takeWhile Postfix.isSpace ++ name) ++ ':' :: behind := by
    rw [List.append_assoc, ← hname]
    exact (List.takeWhile_append_dropWhile).symm
  have hfront : ':' ∉ cs.takeWhile Postfix.isSpace ++ name := by
    intro hmem
    rcases List.mem_append.1 hmem with hmem | hmem
    · exact absurd (List.mem_takeWhile_imp hmem) (by decide)
    · have hchars := (Postfix.tokenChars_of_isRegister hisRegister).2 ':' hmem
      exact absurd hchars (by decide)
  have hsuffix : rest <:+ cs := by
    refine hleft.trans ((List.suffix_cons ':' _).trans ?_)
    exact ⟨_, hcs.symm⟩
  have hwords : splitBlanks cs = splitBlanks ((name ++ [':']) ++ behind) := by
    rw [← Postfix.splitBlanks_skipSpace, hname, List.append_cons]
  have hcolonWord := hreadable.wellFormed.colon_isWord
  by_cases hblank : AtBlank behind
  · refine ⟨⟨⟨name, expr⟩, true⟩, hreadable, hrule, ?_, hsuffix, _, behind, hcs, hfront,
      iff_of_true rfl hblank⟩
    rw [hwords, Text.splitBlanks_word hcolonWord hblank, hsplit]
    rfl
  · refine ⟨⟨⟨name, expr⟩, false⟩, hreadable, hrule, ?_, hsuffix, _, behind, hcs, hfront,
      iff_of_false Bool.false_ne_true hblank⟩
    cases expr with
    | nil => exact absurd rfl hreadable.expr_ne_nil
    | cons t expr =>
        rw [hwords, Text.splitBlanks_joined hcolonWord.solid hblank hsplit, List.append_assoc]
        rfl

theorem spelled_of_rulesFrom (cs : List Char) :
    ∃ qs : List Spelling, (∀ q ∈ qs, q.rule.Readable) ∧
      List.Forall₂ (fun q x => q.rule.rule? w = some x) qs (Postfix.rulesFrom w cs).1 ∧
      splitBlanks cs = qs.flatMap Spelling.words ++ splitBlanks (Postfix.rulesFrom w cs).2 ∧
      (spacedColons cs = true → ∀ q ∈ qs, q.spaced = true) ∧
      ∀ q ∈ qs.head?, q.spaced = true ↔ spacedFirst cs = true := by
  fun_induction Postfix.rulesFrom w cs with
  | case1 cs e he => exact ⟨[], by simp, .nil, rfl, by simp, by simp⟩
  | case2 cs x rest hx xs left hrest ih =>
      obtain ⟨q, hq, hrule, hsplit, hsuffix, front, behind, hcs, hfront, hspaced⟩ :=
        spelled_of_rule hx
      obtain ⟨qs, hqs, hrules, hmore, hcolons, -⟩ := ih
      rw [hrest] at hrules hmore
      refine ⟨q :: qs, ?_, .cons hrule hrules, ?_, ?_, ?_⟩
      · intro p hp
        rcases List.mem_cons.1 hp with rfl | hp
        · exact hq
        · exact hqs p hp
      · rw [hsplit, hmore, List.flatMap_cons, List.append_assoc]
      · intro h p hp
        rcases List.mem_cons.1 hp with rfl | hp
        · have hbehind : (':' :: behind) <:+ cs := ⟨front, hcs.symm⟩
          exact hspaced.2 (atBlank_of_spacedColons (spacedColons_suffix h hbehind))
        · exact hcolons (spacedColons_suffix h hsuffix) p hp
      · intro p hp
        rw [← Option.some.inj hp, hspaced, spacedFirst_iff, hcs, behindColon_append hfront]

structure Spells (qs : List Spelling) (text : String) : Prop where
  readable : ∀ q ∈ qs, q.rule.Readable
  words : splitBlanks text.toList = qs.flatMap Spelling.words
  colons : spacedColons text.toList = true → ∀ q ∈ qs, q.spaced = true
  first : spacedFirst text.toList = true ↔ ∀ q ∈ qs.head?, q.spaced = true

theorem spelled_of_parseRules {text : String} {xs : List (Postfix.Rule w)}
    (h : Postfix.parseRules w text = .ok xs) :
    ∃ qs, Spells qs text ∧ List.Forall₂ (fun q x => q.rule.rule? w = some x) qs xs := by
  obtain ⟨rfl, hrest⟩ := Postfix.parseRules_eq_ok.1 h
  obtain ⟨qs, hreadable, hrules, hwords, hcolons, hfirst⟩ :=
    spelled_of_rulesFrom (w := w) text.toList
  have hnil : splitBlanks (Postfix.rulesFrom w text.toList).2 = [] := by
    rw [← Postfix.splitBlanks_skipSpace, hrest]
    exact Text.splitBlanks_of_blanks (by simp)
  rw [hnil, List.append_nil] at hwords
  refine ⟨qs, ⟨hreadable, hwords, hcolons, ?_⟩, hrules⟩
  cases qs with
  | cons q qs => simpa using (hfirst q rfl).symm
  | nil =>
      -- a text without rules is blank
      have hblank := Text.isBlank_of_splitBlanks hwords
      have hcolon : ∀ c ∈ text.toList, (c != ':') = true := by
        intro c hc
        refine bne_iff_ne.2 ?_
        rintro rfl
        exact absurd (hblank ':' hc) (by decide)
      rw [spacedFirst, behindColon, List.dropWhile_eq_nil_iff.2 hcolon]
      simp

/-- The rules of an accepted text can be read as the rules that were accepted, if a blank stands
behind each colon. -/
theorem rulesOf_of_parseRules {text : String} {xs : List (Postfix.Rule w)}
    (h : Postfix.parseRules w text = .ok xs) (hcolons : spacedColons text.toList = true) :
    (∀ r ∈ rulesOf text, r.Readable) ∧
      List.Forall₂ (fun r x => r.rule? w = some x) (rulesOf text) xs := by
  obtain ⟨qs, hqs, hrules⟩ := spelled_of_parseRules h
  have htokens : qs.flatMap Spelling.words = (qs.map Spelling.rule).flatMap TextRule.tokens := by
    rw [List.flatMap_map]
    exact List.flatMap_congr fun q hq => Spelling.words_of_spaced (hqs.colons hcolons q hq)
  have hreadable : ∀ r ∈ qs.map Spelling.rule, r.Readable := by
    simpa using hqs.readable
  have hrulesOf : rulesOf text = qs.map Spelling.rule := by
    rw [rulesOf, hqs.words, htokens, TextRule.split_tokens fun r hr => (hreadable r hr).wellFormed]
  rw [hrulesOf]
  exact ⟨hreadable, List.forall₂_map_left_iff.2 hrules⟩

end Postmortem.CfiCache
