import Mathlib.Data.List.Nodup
import Postmortem.Proofs.CfiCache.Conversions

/-!
# Normal spelling

The rules of an accepted text are read in its normal spelling too.  Splitting a text sees a rule
whose colon is joined to its expression as a part of the rule before it, which does no harm when the
parts are put together again.  But where the text starts with such rules they belong to no rule, and
are lost.
-/

set_option autoImplicit false

namespace Postmortem.CfiCache

open Postfix (Rule Width parseRules)
open Text (splitBlanks)

variable {w : Width} {text : String} {qs : List Spelling}

/-! ## Splitting the words of rules -/

theorem TextRule.register?_append {front t : Token} (hne : t ≠ [])
    (h : ∀ c ∈ t, Postfix.isTokenChar c = true) : register? (front ++ t) = none := by
  rw [register?, if_neg]
  rintro ⟨hlast, -⟩
  rw [List.getLast?_append_of_ne_nil _ hne] at hlast
  exact (Postfix.bounds_of_isTokenChar (h ':' (List.mem_of_getLast? hlast))).2.2 rfl

/-- No word of a rule with a joined colon starts a rule. -/
theorem Spelling.words_plain {q : Spelling} (h : q.rule.Readable) (hjoined : q.spaced = false) :
    ∀ t ∈ q.words, TextRule.register? t = none := by
  obtain ⟨⟨register, expr⟩, spaced⟩ := q
  cases hjoined
  cases expr with
  | nil => exact absurd rfl h.expr_ne_nil
  | cons t expr =>
      have ht := h.tokenChars t (List.mem_cons_self ..)
      intro u hu
      rcases List.mem_cons.1 hu with rfl | hu
      · rw [List.append_cons]
        exact TextRule.register?_append ht.1 ht.2
      · exact TextRule.register?_tokenChars (h.tokenChars u (List.mem_cons_of_mem _ hu)).2

/-- Splitting drops the rules with joined colons at the start, and keeps the words of all others in
their order. -/
theorem split_words (h : ∀ q ∈ qs, q.rule.Readable) :
    let parts := TextRule.split (qs.flatMap Spelling.words)
    parts.1 = (qs.takeWhile (!·.spaced)).flatMap Spelling.words ∧
      parts.2.flatMap TextRule.tokens = (qs.dropWhile (!·.spaced)).flatMap Spelling.words ∧
      (parts.2.map (·.register)).Sublist (qs.map (·.rule.register)) ∧
      ∀ r ∈ parts.2, r.expr ≠ [] := by
  induction qs with
  | nil => exact ⟨rfl, rfl, .slnil, nofun⟩
  | cons q qs ih =>
      have hq := h q (List.mem_cons_self ..)
      obtain ⟨hfirst, htokens, hregisters, hexpr⟩ :=
        ih fun p hp => h p (List.mem_cons_of_mem _ hp)
      cases hspaced : q.spaced with
      | true =>
          have hregister := TextRule.register?_colon hq.wellFormed.register.ne_nil
          rw [List.flatMap_cons, Spelling.words_of_spaced hspaced, TextRule.tokens,
            List.cons_append, TextRule.split_register hregister,
            TextRule.split_expr hq.wellFormed.plain]
          refine ⟨by simp [hspaced], ?_, hregisters.cons_cons _, ?_⟩
          · rw [List.flatMap_cons, htokens, TextRule.tokens, hfirst, List.cons_append,
              List.append_assoc, ← List.flatMap_append, List.takeWhile_append_dropWhile,
              List.dropWhile_cons_of_neg (by simp [hspaced]), List.flatMap_cons,
              Spelling.words_of_spaced hspaced]
            rfl
          · intro r hr
            rcases List.mem_cons.1 hr with rfl | hr
            · simp [hq.expr_ne_nil]
            · exact hexpr r hr
      | false =>
          rw [List.flatMap_cons, TextRule.split_expr (Spelling.words_plain hq hspaced)]
          refine ⟨?_, ?_, hregisters.cons _, hexpr⟩
          · rw [hfirst, List.takeWhile_cons_of_pos (by simp [hspaced]), List.flatMap_cons]
          · rw [htokens, List.dropWhile_cons_of_pos (by simp [hspaced])]

/-! ## Reading the normal spelling -/

theorem toText_parse (hqs : Spells qs text) (hnodup : (qs.map (·.rule.register)).Nodup) :
    (RuleSet.parse text).toText.toList =
      List.intercalate [' '] ((qs.dropWhile (!·.spaced)).map Spelling.chars) := by
  obtain ⟨-, htokens, hregisters, hexpr⟩ := split_words hqs.readable
  have hrulesOf : rulesOf text = (TextRule.split (qs.flatMap Spelling.words)).2 := by
    rw [rulesOf, hqs.words]
  rw [← hrulesOf] at htokens hregisters hexpr
  have hdistinct : RuleSet.Distinct (rulesOf text) :=
    List.pairwise_map.1 (hregisters.nodup hnodup)
  have hrules : (RuleSet.parse text).rules = rulesOf text :=
    RuleSet.putAll_distinct hdistinct
  have hkept : ∀ q ∈ qs.dropWhile (!·.spaced), q.rule.expr ≠ [] := fun q hq =>
    (hqs.readable q ((List.dropWhile_sublist _).subset hq)).expr_ne_nil
  rw [RuleSet.toText, String.toList_ofList, hrules,
    List.map_congr_left fun r hr => (TextRule.intercalate_tokens (hexpr r hr)).symm,
    List.map_congr_left fun q hq => (Spelling.intercalate_words (hkept q hq)).symm,
    Text.intercalate_flatMap fun r _ => r.tokens_ne_nil,
    Text.intercalate_flatMap fun q _ => q.words_ne_nil, htokens]

/-- In its normal spelling a text has the rules behind those with joined colons at its start. -/
theorem parseRules_normal (hqs : Spells qs text) (hnodup : (qs.map (·.rule.register)).Nodup) :
    ∃ xs, parseRules w (RuleSet.parse text).toText = .ok xs ∧
      List.Forall₂ (fun q x => q.rule.rule? w = some x) (qs.dropWhile (!·.spaced)) xs := by
  have hreadable : ∀ q ∈ qs.dropWhile (!·.spaced), q.rule.Readable := fun q hq =>
    hqs.readable q ((List.dropWhile_sublist _).subset hq)
  exact Spelling.parseRules_chars hreadable (toText_parse hqs hnodup)

theorem nodup_of_rules {xs : List (Rule w)}
    (h : List.Forall₂ (fun q x => q.rule.rule? w = some x) qs xs)
    (hnodup : (xs.map (·.register)).Nodup) : (qs.map (·.rule.register)).Nodup := by
  have hregisters : xs.map (·.register) =
      (qs.map (·.rule.register)).map fun name => .ofName (String.ofList name) := by
    rw [List.map_map]
    induction h with
    | nil => rfl
    | cons hrule _ ih =>
        rw [List.map_cons, List.map_cons, ih (List.nodup_cons.1 hnodup).2,
          (TextRule.rule?_eq_some_iff.1 hrule).2]
        rfl
  rw [hregisters] at hnodup
  exact List.Nodup.of_map _ hnodup

/-- The normal spelling of a text keeps its rules exactly if a blank stands behind its first
colon. -/
theorem parseRules_normal_iff {rules : List (Rule w)} (h : parseRules w text = .ok rules)
    (hnodup : (rules.map (·.register)).Nodup) :
    parseRules w (RuleSet.parse text).toText = .ok rules ↔ spacedFirst text.toList = true := by
  obtain ⟨qs, hqs, hrules⟩ := spelled_of_parseRules h
  obtain ⟨xs, hread, hxs⟩ := parseRules_normal (w := w) hqs (nodup_of_rules hrules hnodup)
  rw [hread, Except.ok.injEq, hqs.first]
  constructor
  · rintro rfl q hq
    -- without the first rule there are fewer
    by_contra hjoined
    obtain ⟨rest, rfl⟩ := List.head?_eq_some_iff.1 hq
    have hlen := hrules.length_eq.trans hxs.length_eq.symm
    rw [List.dropWhile_cons_of_pos (by simpa using hjoined)] at hlen
    have hle := (List.dropWhile_sublist (!·.spaced) (l := rest)).length_le
    simp only [List.length_cons] at hlen
    omega
  · intro hfirst
    have hkept : qs.dropWhile (!·.spaced) = qs := by
      cases qs with
      | nil => rfl
      | cons q rest => exact List.dropWhile_cons_of_neg (by simp [hfirst q rfl])
    rw [hkept] at hxs
    have hunique : Relator.RightUnique fun (q : Spelling) (x : Rule w) =>
        q.rule.rule? w = some x := fun _ _ _ hx hy => Option.some.inj (hx.symm.trans hy)
    exact List.right_unique_forall₂' hunique hxs hrules

theorem normal_isEmpty_iff {rules : List (Rule w)} (h : parseRules w text = .ok rules)
    (hnodup : (rules.map (·.register)).Nodup) (hfirst : spacedFirst text.toList = true) :
    (RuleSet.parse text).toText.isEmpty = true ↔ rules = [] := by
  have hread := (parseRules_normal_iff h hnodup).2 hfirst
  rw [String.isEmpty_iff]
  constructor
  · intro hempty
    have hnone : parseRules w "" = .ok [] := Postfix.parseRules_eq_ok_iff.2 (.none (by simp))
    rw [hempty, hnone] at hread
    exact (Except.ok.inj hread).symm
  · rintro rfl
    obtain ⟨qs, hqs, hrules⟩ := spelled_of_parseRules h
    cases hrules
    exact String.toList_inj.1 (toText_parse hqs .nil)

/-! ## Tables -/

def Kept (w : Width) (text : String) : Prop :=
  spacedFirst text.toList = true ∧
    ∀ rules, parseRules w text = .ok rules → (rules.map (·.register)).Nodup

theorem Kept.exists_rules (h : Kept w text) {rules : List (Rule .w64)}
    (hread : readRules text = .ok rules) :
    ∃ rules, parseRules w text = .ok rules ∧
      parseRules w (RuleSet.parse text).toText = .ok rules ∧
      ((RuleSet.parse text).toText.isEmpty = true ↔ rules = []) := by
  obtain ⟨rules, hrules, -⟩ := Postfix.exists_parseRules_width w (readRules_eq_ok.1 hread)
  have hnodup := h.2 rules hrules
  exact ⟨rules, hrules, (parseRules_normal_iff hrules hnodup).2 h.1,
    normal_isEmpty_iff hrules hnodup h.1⟩

theorem textDeltas_normal {deltas normal : List (UInt64 × String)}
    (h : textDeltas deltas = .ok normal) (hkept : ∀ d ∈ deltas, Kept w d.2) :
    normal.map (fun d => (d.1, parseRules w d.2)) =
      (deltas.map fun d => (d.1, parseRules w d.2)).filter (·.2 ≠ .ok []) := by
  induction deltas generalizing normal with
  | nil =>
      cases h
      rfl
  | cons d deltas ih =>
      obtain ⟨a, text⟩ := d
      obtain ⟨rules, hrules, h⟩ := bind_eq_ok.1 h
      obtain ⟨rest, hrest, h⟩ := bind_eq_ok.1 h
      have hmore := ih hrest fun d hd => hkept d (List.mem_cons_of_mem _ hd)
      obtain ⟨xs, htext, hnormal, hempty⟩ :=
        (hkept (a, text) (List.mem_cons_self ..)).exists_rules hrules
      rw [List.map_cons, htext]
      split at h
      · rename_i hnone
        cases h
        rw [hempty.1 hnone, List.filter_cons_of_neg (by simp), hmore]
      · rename_i hsome
        cases h
        have hne : xs ≠ [] := fun hnil => hsome (hempty.2 hnil)
        rw [List.filter_cons_of_pos (by simpa using hne), List.map_cons, hnormal, hmore]

/-- A text keeps its rules in its normal spelling exactly if a blank stands behind its first colon,
and a table of such texts keeps all of its rules. -/
theorem normal_spelling_keeps_rules (w : Width) :
    (∀ text rules, parseRules w text = .ok rules → (rules.map (·.register)).Nodup →
      (parseRules w (RuleSet.parse text).toText = .ok rules ↔
        spacedFirst text.toList = true)) ∧
    ∀ start stop init deltas p, programOfText start stop init deltas = .ok p →
      (∀ text ∈ init :: deltas.map Prod.snd, Kept w text) →
      (∃ rules, parseRules w init = .ok rules ∧ parseRules w p.init = .ok rules) ∧
      p.deltas.map (fun d => (d.1, parseRules w d.2)) =
        (deltas.map fun d => (d.1, parseRules w d.2)).filter (·.2 ≠ .ok []) := by
  refine ⟨fun text rules h hnodup => parseRules_normal_iff h hnodup, ?_⟩
  intro start stop init deltas p h hkept
  obtain ⟨_, -, h⟩ := bind_eq_ok.1 h
  obtain ⟨rules, hrules, h⟩ := bind_eq_ok.1 h
  split at h
  · cases h
  · obtain ⟨normal, hnormal, h⟩ := bind_eq_ok.1 h
    cases h
    obtain ⟨xs, hinit, hread, -⟩ := (hkept init (List.mem_cons_self ..)).exists_rules hrules
    refine ⟨⟨xs, hinit, hread⟩, textDeltas_normal hnormal fun d hd => ?_⟩
    exact hkept d.2 (List.mem_cons_of_mem _ (List.mem_map_of_mem hd))

/-- A text of which the second rule has its colon joined to its expression. -/
def sampleText : String := ".cfa:\t$rsp 8 + .ra:.cfa -8 + ^"

def sampleRules : List (Rule .w64) :=
  [⟨.cfa, .op (.register (.var "$rsp")) (.value 8) .add⟩,
    ⟨.ra, .deref (.op (.register .cfa) (.value (-8)) .add)⟩]

theorem parseRules_sampleText : parseRules .w64 sampleText = .ok sampleRules := by
  decide +kernel

theorem nodup_sampleRules : (sampleRules.map (·.register)).Nodup := by
  decide

theorem normal_spelling_keeps_rules_sample :
    ∃ p, parseRules .w64 sampleText = .ok sampleRules ∧
      (sampleRules.map (·.register)).Nodup ∧ spacedFirst sampleText.toList = true ∧
      parseRules .w64 (RuleSet.parse sampleText).toText = .ok sampleRules ∧
      programOfText 0x1000 0x1010 sampleText [(0x1004, " "), (0x1008, sampleText)] = .ok p ∧
      (∀ text ∈ [sampleText, " ", sampleText], Kept .w64 text) ∧
      parseRules .w64 p.init = .ok sampleRules ∧
      p.deltas.map (fun d => (d.1, parseRules .w64 d.2)) = [(0x1008, .ok sampleRules)] := by
  obtain ⟨htexts, htables⟩ := normal_spelling_keeps_rules .w64
  have hfirst : spacedFirst sampleText.toList = true := by decide +kernel
  have hkept : Kept .w64 sampleText := by
    refine ⟨hfirst, ?_⟩
    intro rules hrules
    rw [← Except.ok.inj (parseRules_sampleText.symm.trans hrules)]
    exact nodup_sampleRules
  have hblank : parseRules .w64 " " = .ok [] := by decide +kernel
  have hempty : Kept .w64 " " := by
    refine ⟨by decide +kernel, ?_⟩
    intro rules hrules
    rw [← Except.ok.inj (hblank.symm.trans hrules)]
    exact .nil
  have hall : ∀ text ∈ [sampleText, " ", sampleText], Kept .w64 text := by
    simp [hkept, hempty]
  have hprogram : programOfText 0x1000 0x1010 sampleText [(0x1004, " "), (0x1008, sampleText)] =
      .ok ⟨".cfa: $rsp 8 + .ra:.cfa -8 + ^", [(0x1008, ".cfa: $rsp 8 + .ra:.cfa -8 + ^")]⟩ := by
    decide +kernel
  obtain ⟨⟨rules, hinit, hread⟩, hdeltas⟩ := htables _ _ _ _ _ hprogram hall
  have hrules : rules = sampleRules := Except.ok.inj (hinit.symm.trans parseRules_sampleText)
  refine ⟨_, parseRules_sampleText, nodup_sampleRules, hfirst,
    (htexts _ _ parseRules_sampleText nodup_sampleRules).2 hfirst, hprogram, hall, hrules ▸ hread,
    ?_⟩
  rw [hdeltas, List.map_cons, List.map_cons, List.map_nil, parseRules_sampleText, hblank,
    List.filter_cons_of_neg (by simp), List.filter_cons_of_pos (by simp [sampleRules]),
    List.filter_nil]

/-- Where the first colon of a text is joined to its expression, the rule is lost, be it the one
that every table must have. -/
theorem joined_rule_is_lost :
    let text := ".cfa:$rsp 8 + .ra: .cfa -8 + ^"
    parseRules .w64 text = .ok sampleRules ∧ (sampleRules.map (·.register)).Nodup ∧
      parseRules .w64 (RuleSet.parse text).toText ≠ .ok sampleRules ∧
      programOfText 0x1000 0x1010 text [] = .ok ⟨".ra: .cfa -8 + ^", []⟩ := by
  refine ⟨?_, nodup_sampleRules, ?_, ?_⟩
  · decide +kernel
  · decide +kernel
  · decide +kernel

end Postmortem.CfiCache
