import Postmortem.CfiCache.RuleSet
import Postmortem.Proofs.Blanks

/-!
# Rule sets are read back

The text of a rule set splits into the tokens of its rules, so reading it gives the rule set again.
This holds of every rule set that programs were applied to: its rules are made of words, and no two
of them are for one register.
-/

set_option autoImplicit false

namespace Postmortem.CfiCache

open Text (AtBlank IsWord atBlank_space splitBlanks)

namespace TextRule

structure WellFormed (r : TextRule) : Prop where
  register : IsWord r.register
  words : ∀ t ∈ r.expr, IsWord t
  plain : ∀ t ∈ r.expr, register? t = none

def tokens (r : TextRule) : List Token := (r.register ++ [':']) :: r.expr

theorem register?_colon {register : Token} (h : register ≠ []) :
    register? (register ++ [':']) = some register := by
  have hlen := List.length_pos_iff.2 h
  rw [register?, if_pos, List.dropLast_concat]
  refine ⟨by simp, ?_⟩
  simp only [List.length_append, List.length_singleton]
  omega

theorem eq_of_register? {t register : Token} (h : register? t = some register) :
    t = register ++ [':'] ∧ register ≠ [] := by
  rw [register?] at h
  split at h
  · rename_i hcolon
    obtain ⟨hlast, hlen⟩ := hcolon
    obtain ⟨front, rfl⟩ := List.getLast?_eq_some_iff.1 hlast
    cases h
    refine ⟨by rw [List.dropLast_concat], ?_⟩
    intro hnil
    have := congrArg List.length hnil
    simp only [List.length_dropLast, List.length_nil] at this
    omega
  · cases h

/-! ## Splitting tokens -/

theorem split_register {t register : Token} (h : register? t = some register)
    (rest : List Token) :
    split (t :: rest) = ([], ⟨register, (split rest).1⟩ :: (split rest).2) := by
  rw [split, h]

theorem split_token {t : Token} (h : register? t = none) (rest : List Token) :
    split (t :: rest) = (t :: (split rest).1, (split rest).2) := by
  rw [split, h]

theorem split_expr {expr : List Token} (h : ∀ t ∈ expr, register? t = none)
    (rest : List Token) : split (expr ++ rest) = (expr ++ (split rest).1, (split rest).2) := by
  induction expr with
  | nil => rfl
  | cons t expr ih =>
      have hexpr := ih fun u hu => h u (List.mem_cons_of_mem _ hu)
      rw [List.cons_append, split_token (h t (List.mem_cons_self ..)), hexpr]
      rfl

theorem split_tokens {rules : List TextRule} (h : ∀ r ∈ rules, r.WellFormed) :
    split (rules.flatMap tokens) = ([], rules) := by
  induction rules with
  | nil => rfl
  | cons r rules ih =>
      have hr := h r (List.mem_cons_self ..)
      have hrules := ih fun q hq => h q (List.mem_cons_of_mem _ hq)
      rw [List.flatMap_cons, tokens, List.cons_append,
        split_register (register?_colon hr.register.ne_nil), split_expr hr.plain, hrules]
      simp

theorem wellFormed_of_split {words : List Token} (h : ∀ t ∈ words, IsWord t) :
    (∀ t ∈ (split words).1, IsWord t ∧ register? t = none) ∧
      ∀ r ∈ (split words).2, r.WellFormed := by
  induction words with
  | nil => simp [split]
  | cons t words ih =>
      have ht := h t (List.mem_cons_self ..)
      obtain ⟨hexpr, hrules⟩ := ih fun u hu => h u (List.mem_cons_of_mem _ hu)
      cases hregister : register? t with
      | none =>
          rw [split_token hregister]
          refine ⟨?_, hrules⟩
          intro u hu
          rcases List.mem_cons.1 hu with rfl | hu
          · exact ⟨ht, hregister⟩
          · exact hexpr u hu
      | some register =>
          rw [split_register hregister]
          obtain ⟨rfl, hne⟩ := eq_of_register? hregister
          refine ⟨by simp, ?_⟩
          intro r hr
          rcases List.mem_cons.1 hr with rfl | hr
          · refine ⟨⟨hne, ?_⟩, fun u hu => (hexpr u hu).1, fun u hu => (hexpr u hu).2⟩
            intro c hc
            exact ht.solid c (List.mem_append_left _ hc)
          · exact hrules r hr

/-! ## The text of rules -/

theorem WellFormed.colon_isWord {r : TextRule} (h : r.WellFormed) :
    IsWord (r.register ++ [':']) := by
  refine ⟨by simp, ?_⟩
  intro c hc
  rcases List.mem_append.1 hc with hc | hc
  · exact h.register.solid c hc
  · rw [List.mem_singleton.1 hc]
    decide

theorem splitBlanks_chars {r : TextRule} (h : r.WellFormed) {rest : List Char}
    (hrest : AtBlank rest) : splitBlanks (r.chars ++ rest) = r.tokens ++ splitBlanks rest := by
  have hchars : r.chars ++ rest =
      (r.register ++ [':']) ++ ' ' :: (List.intercalate [' '] r.expr ++ rest) := by
    simp [chars]
  rw [hchars, Text.splitBlanks_word h.colon_isWord (atBlank_space _),
    Text.splitBlanks_blank (by decide), Text.splitBlanks_intercalate h.words hrest]
  rfl

theorem splitBlanks_rules {rules : List TextRule} (h : ∀ r ∈ rules, r.WellFormed) :
    splitBlanks (List.intercalate [' '] (rules.map chars)) = rules.flatMap tokens := by
  induction rules with
  | nil => rw [List.map_nil, List.intercalate_nil, splitBlanks]; rfl
  | cons r rules ih =>
      have hr := h r (List.mem_cons_self ..)
      have hrules := ih fun q hq => h q (List.mem_cons_of_mem _ hq)
      cases rules with
      | nil =>
          have hnil : splitBlanks [] = [] := Text.splitBlanks_of_blanks (by simp)
          have hsplit := splitBlanks_chars hr Text.atBlank_nil
          rw [hnil, List.append_nil] at hsplit
          simpa using hsplit
      | cons q rules =>
          rw [List.map_cons] at hrules ⊢
          rw [List.map_cons, List.intercalate_cons_cons, List.append_assoc,
            List.singleton_append, splitBlanks_chars hr (atBlank_space _),
            Text.splitBlanks_blank (by decide), hrules]
          rfl

end TextRule

def rulesOf (program : String) : List TextRule :=
  (TextRule.split (splitBlanks program.toList)).2

theorem wellFormed_of_mem_rulesOf {program : String} {r : TextRule}
    (h : r ∈ rulesOf program) : r.WellFormed :=
  (TextRule.wellFormed_of_split fun _ ht => Text.isWord_of_mem_splitBlanks ht).2 r h

theorem rulesOf_toText {s : RuleSet} (h : ∀ r ∈ s.rules, r.WellFormed) :
    rulesOf s.toText = s.rules := by
  rw [rulesOf, RuleSet.toText, String.toList_ofList, TextRule.splitBlanks_rules h,
    TextRule.split_tokens h]

namespace RuleSet

/-! ## Changing rules -/

theorem mem_put {r q : TextRule} {rules : List TextRule} (h : q ∈ put r rules) :
    q = r ∨ q ∈ rules := by
  induction rules with
  | nil => exact .inl (List.mem_singleton.1 h)
  | cons p rules ih =>
      rw [put] at h
      split at h
      · rcases List.mem_cons.1 h with rfl | h
        · exact .inl rfl
        · exact .inr (List.mem_cons_of_mem _ h)
      · rcases List.mem_cons.1 h with rfl | h
        · exact .inr (List.mem_cons_self ..)
        · exact (ih h).imp_right (List.mem_cons_of_mem _)

theorem mem_put_self (r : TextRule) (rules : List TextRule) : r ∈ put r rules := by
  induction rules with
  | nil => exact List.mem_singleton_self r
  | cons q rules ih =>
      rw [put]
      split
      · exact List.mem_cons_self ..
      · exact List.mem_cons_of_mem _ ih

theorem mem_put_of_ne {r q : TextRule} {rules : List TextRule} (h : q ∈ rules)
    (hne : q.register ≠ r.register) : q ∈ put r rules := by
  induction rules with
  | nil => cases h
  | cons p rules ih =>
      rw [put]
      split
      · rename_i heq
        rcases List.mem_cons.1 h with rfl | h
        · exact absurd heq hne
        · exact List.mem_cons_of_mem _ h
      · rcases List.mem_cons.1 h with rfl | h
        · exact List.mem_cons_self ..
        · exact List.mem_cons_of_mem _ (ih h)

theorem put_ne_nil (r : TextRule) (rules : List TextRule) : put r rules ≠ [] := by
  cases rules with
  | nil => simp [put]
  | cons q rules =>
      rw [put]
      split
      · simp
      · simp

theorem put_of_new {r : TextRule} {rules : List TextRule}
    (h : ∀ q ∈ rules, q.register ≠ r.register) : put r rules = rules ++ [r] := by
  induction rules with
  | nil => rfl
  | cons q rules ih =>
      rw [put, if_neg (h q (List.mem_cons_self ..)),
        ih fun p hp => h p (List.mem_cons_of_mem _ hp)]
      rfl

def Distinct (rules : List TextRule) : Prop := rules.Pairwise (·.register ≠ ·.register)

theorem distinct_put {rules : List TextRule} (r : TextRule) (h : Distinct rules) :
    Distinct (put r rules) := by
  induction rules with
  | nil => exact List.pairwise_singleton _ _
  | cons q rules ih =>
      obtain ⟨hq, hrules⟩ := List.pairwise_cons.1 h
      rw [put]
      split
      · rename_i heq
        exact List.pairwise_cons.2 ⟨fun p hp => heq ▸ hq p hp, hrules⟩
      · rename_i hne
        refine List.pairwise_cons.2 ⟨?_, ih hrules⟩
        intro p hp
        rcases mem_put hp with rfl | hp
        · exact hne
        · exact hq p hp

def putAll (changes rules : List TextRule) : List TextRule :=
  changes.foldl (fun rules r => put r rules) rules

theorem putAll_append (changes more rules : List TextRule) :
    putAll (changes ++ more) rules = putAll more (putAll changes rules) :=
  List.foldl_append

theorem apply_rules (s : RuleSet) (program : String) :
    (s.apply program).rules = putAll (rulesOf program) s.rules := rfl

theorem mem_putAll {changes rules : List TextRule} {r : TextRule}
    (h : r ∈ putAll changes rules) : r ∈ changes ∨ r ∈ rules := by
  induction changes generalizing rules with
  | nil => exact .inr h
  | cons q changes ih =>
      rcases ih h with h | h
      · exact .inl (List.mem_cons_of_mem _ h)
      · rcases mem_put h with rfl | h
        · exact .inl (List.mem_cons_self ..)
        · exact .inr h

theorem distinct_putAll (changes : List TextRule) {rules : List TextRule}
    (h : Distinct rules) : Distinct (putAll changes rules) := by
  induction changes generalizing rules with
  | nil => exact h
  | cons q changes ih => exact ih (distinct_put q h)

theorem putAll_ne_nil (changes : List TextRule) {rules : List TextRule} (h : rules ≠ []) :
    putAll changes rules ≠ [] := by
  induction changes generalizing rules with
  | nil => exact h
  | cons q changes ih => exact ih (put_ne_nil q rules)

theorem putAll_distinct {changes rules : List TextRule} (h : Distinct (rules ++ changes)) :
    putAll changes rules = rules ++ changes := by
  induction changes generalizing rules with
  | nil => exact (List.append_nil _).symm
  | cons r changes ih =>
      have hnew : ∀ q ∈ rules, q.register ≠ r.register := fun q hq =>
        (List.pairwise_append.1 h).2.2 q hq r (List.mem_cons_self ..)
      have hrest : Distinct (rules ++ [r] ++ changes) := by simpa using h
      show putAll changes (put r rules) = _
      rw [put_of_new hnew, ih hrest, List.append_assoc]
      rfl

def Named (name : String) (rules : List TextRule) : Prop := ∃ q ∈ rules, q.register = name.toList

theorem named_append {name : String} {rules more : List TextRule} :
    Named name (rules ++ more) ↔ Named name rules ∨ Named name more := by
  simp only [Named, List.mem_append, or_and_right, exists_or]

theorem named_cons {name : String} {q : TextRule} {rules : List TextRule} :
    Named name (q :: rules) ↔ q.register = name.toList ∨ Named name rules := by
  simp only [Named, List.mem_cons, exists_eq_or_imp]

theorem named_put {name : String} {r : TextRule} {rules : List TextRule} :
    Named name (put r rules) ↔ r.register = name.toList ∨ Named name rules := by
  induction rules with
  | nil => exact named_cons
  | cons q rules ih =>
      rw [put]
      split
      · rename_i hsame
        rw [named_cons, named_cons, hsame, or_self_left]
      · rw [named_cons, named_cons, ih]
        exact or_left_comm

theorem named_putAll {name : String} {changes rules : List TextRule} :
    Named name (putAll changes rules) ↔ Named name changes ∨ Named name rules := by
  induction changes generalizing rules with
  | nil => simp [putAll, Named]
  | cons r changes ih =>
      show Named name (putAll changes (put r rules)) ↔ _
      rw [ih, named_put, named_cons, or_left_comm, or_assoc]

/-! ## Reading a rule set back -/

structure WellFormed (s : RuleSet) : Prop where
  rules : ∀ r ∈ s.rules, r.WellFormed
  distinct : Distinct s.rules

theorem WellFormed.apply {s : RuleSet} (h : s.WellFormed) (program : String) :
    (s.apply program).WellFormed := by
  refine ⟨?_, distinct_putAll _ h.distinct⟩
  intro r hr
  rcases mem_putAll hr with hr | hr
  · exact wellFormed_of_mem_rulesOf hr
  · exact h.rules r hr

theorem wellFormed_parse (program : String) : (parse program).WellFormed :=
  WellFormed.apply ⟨by simp, .nil⟩ program

/-- Reading the text of a rule set gives it back, in the same order. -/
theorem parse_toText {s : RuleSet} (h : s.WellFormed) : parse s.toText = s := by
  have hrules : (parse s.toText).rules = s.rules := by
    rw [parse, apply_rules, rulesOf_toText h.rules]
    exact putAll_distinct h.distinct
  cases hs : parse s.toText
  rw [hs] at hrules
  cases s
  exact congrArg RuleSet.mk hrules

end RuleSet

end Postmortem.CfiCache
