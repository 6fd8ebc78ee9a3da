import Mathlib.Data.List.DropRight
import Postmortem.Proofs.PostfixGrammar
import Postmortem.Proofs.PostfixRules

/-!
# Reading postfix text

Texts are read as the grammar says: an expression from tokens that leave just it, whatever space
stands between them, and rules from such expressions behind the names of registers.
-/

set_option autoImplicit false

namespace Postmortem.Postfix

variable {w : Width} {stops : Bool}

theorem skipSpace_of_blank {cs : List Char} (h : ∀ c ∈ cs, isSpace c = true) :
    skipSpace cs = [] :=
  List.dropWhile_eq_nil_iff.2 h

theorem skipSpace_append_of_nil {space : List Char} (h : skipSpace space = [])
    (tail : List Char) : skipSpace (space ++ tail) = skipSpace tail := by
  rw [skipSpace] at h
  rw [skipSpace, List.dropWhile_append, h]
  rfl

theorem skipSpace_append_of_ne {cs here : List Char} (h : skipSpace cs = here) (hne : here ≠ [])
    (tail : List Char) : skipSpace (cs ++ tail) = here ++ tail := by
  rw [skipSpace] at h
  rw [skipSpace, List.dropWhile_append, h]
  exact if_neg (by simpa using hne)

/-- The tokens of a text are read onto the stack, whatever space stands between them. -/
theorem stackFrom_text (stops : Bool) {body tail : List Char} {stack final : List (Expr w)}
    (h : stackAfter? w (words body) stack = some final) (htail : atTokenEnd tail = true) :
    stackFrom w stops (body ++ tail) stack = stackFrom w stops tail final := by
  -- by induction on the words: each step takes one of them with the space in front of it
  induction hwords : words body generalizing body stack with
  | nil =>
      rw [hwords] at h
      cases h
      rcases words_cases body with ⟨hspace, -⟩ | ⟨t, rest, -, hcons, -⟩
      · exact stackFrom_skip (skipSpace_append_of_nil hspace tail)
      · rw [hwords] at hcons
        cases hcons
  | cons t ts ih =>
      rcases words_cases body with ⟨-, hnil⟩ | ⟨u, rest, hhere, hcons, hend⟩
      · rw [hwords] at hnil
        cases hnil
      · rw [hwords] at hcons
        obtain ⟨rfl, rfl⟩ := List.cons.inj hcons
        rw [hwords] at h
        obtain ⟨k, mid, hk, hmid, hrest⟩ := stackAfter?_cons_eq_some_iff.1 h
        obtain ⟨hne, hchars⟩ := (token?_eq_some_iff.1 hk).tokenChars
        have hskip : skipSpace (body ++ tail) = skipSpace (t ++ (rest ++ tail)) := by
          rw [skipSpace_append_of_ne hhere (by simp [hne]), skipSpace_token hne hchars,
            List.append_assoc]
        have hbehind : atTokenEnd (rest ++ tail) = true := by
          rwa [atTokenEnd_append htail]
        rw [stackFrom_skip hskip, stackFrom_token stops hk hmid hbehind]
        exact ih hrest rfl

/-- What is read onto the stack is all tokens of the text in front of what is left. -/
theorem text_of_stackFrom {cs rest : List Char} {stack final : List (Expr w)}
    (h : stackFrom w stops cs stack = .ok (final, rest)) :
    ∃ body tail, cs = body ++ tail ∧ skipSpace tail = rest ∧
      (body = [] ∨ atTokenEnd tail = true) ∧ stackAfter? w (words body) stack = some final := by
  fun_induction stackFrom w stops cs stack with
  | case1 cs stack here _ =>
      obtain ⟨rfl, rfl⟩ := Prod.mk.inj (Except.ok.inj h)
      exact ⟨[], cs, rfl, rfl, .inl rfl, rfl⟩
  | case2 cs stack here _ _ =>
      obtain ⟨rfl, rfl⟩ := Prod.mk.inj (Except.ok.inj h)
      exact ⟨[], cs, rfl, rfl, .inl rfl, rfl⟩
  | case3 => cases h
  | case4 cs stack here _ t left ht mid hmid ih =>
      obtain ⟨body, tail, rfl, hrest, hbody, hstack⟩ := ih h
      obtain ⟨u, hu, hne, hchars, htoken⟩ := exists_token?_alone ht
      -- nothing but the end of a token may follow, so the tokens behind this one keep their words
      have hend := (takes_token? ht).2
      have htail : atTokenEnd tail = true := by
        rcases hbody with rfl | htail
        · exact hend
        · exact htail
      have hsplit : cs = cs.takeWhile isSpace ++ (u ++ body) ++ tail := by
        rw [List.append_assoc, List.append_assoc, ← hu]
        exact List.takeWhile_append_dropWhile.symm
      have hbody : atTokenEnd body = true := by rwa [← atTokenEnd_append htail]
      have hwords : words (cs.takeWhile isSpace ++ (u ++ body)) = u :: words body := by
        rw [words_blank (isSpace_of_mem_takeWhile cs), words_append hbody,
          words_of_solid hne fun c hc => isSpace_of_isTokenChar (hchars c hc)]
        rfl
      refine ⟨_, tail, hsplit, hrest, .inr htail, ?_⟩
      rw [hwords, stackAfter?_cons htoken hmid, hstack]

/-! ## Expressions -/

theorem complete_eq_ok {α : Type} {p : Parsed α} {a : α} :
    complete p = .ok a ↔ p = .ok (a, []) := by
  cases p with
  | error e => exact ⟨nofun, nofun⟩
  | ok q =>
      obtain ⟨b, rest⟩ := q
      show (if rest.isEmpty then Except.ok b
        else .error (ParseError.mk (.missing .endOfText) rest)) = .ok a ↔ _
      cases rest with
      | nil => simp
      | cons c rest => simp

theorem parseExpr_eq_ok {s : String} {e : Expr w} :
    parseExpr w s = .ok e ↔ stackFrom w false s.toList [] = .ok ([e], []) := by
  rw [← complete_eq_ok]
  constructor
  · intro h
    obtain ⟨stack, hstack, hsingle⟩ := bind_eq_ok.1 h
    rwa [eq_of_single hsingle] at hstack
  · intro h
    exact bind_eq_ok.2 ⟨[e], h, rfl⟩

/-- A text is read as an expression just if its words are tokens that leave it. -/
theorem parseExpr_eq_ok_iff {s : String} {e : Expr w} :
    parseExpr w s = .ok e ↔ IsExpression w s.toList e := by
  rw [parseExpr_eq_ok, isExpression_iff_stack]
  constructor
  · intro h
    obtain ⟨body, tail, hsplit, hrest, hbody, hstack⟩ := text_of_stackFrom h
    -- what is left is space, which has no words
    have hblank : words tail = [] := by rw [← words_skipSpace, hrest]; rfl
    have hwords : words s.toList = words body := by
      rw [hsplit]
      rcases hbody with rfl | htail
      · exact hblank
      · rw [words_append htail, hblank, List.append_nil]
    rw [hwords, hstack]
  · intro h
    have hread := stackFrom_text false h (show atTokenEnd [] = true from rfl)
    rw [List.append_nil] at hread
    rw [hread, stackFrom.eq_def]
    rfl

/-! ## Rules -/

/-- Whether a text is the name of a register, a colon right behind it, and an expression. -/
inductive IsRule (w : Width) : List Char → Rule w → Prop where
  | mk {name body : List Char} {e : Expr w} (isName : IsRegisterName name)
      (reads : IsExpression w body e) :
      IsRule w (name ++ ':' :: body) ⟨.ofName (String.ofList name), e⟩

/-- Whether a text is some rules, with space between them and perhaps around them. -/
inductive RulesIn (w : Width) : List Char → List (Rule w) → Prop where
  | none {cs : List Char} (blank : ∀ c ∈ cs, isSpace c = true) : RulesIn w cs []
  | more {space t rest : List Char} {r : Rule w} {others : List (Rule w)}
      (blank : ∀ c ∈ space, isSpace c = true) (isRule : IsRule w t r)
      (ends : atTokenEnd rest = true) (follow : RulesIn w rest others) :
      RulesIn w (space ++ (t ++ rest)) (r :: others)

theorem RulesIn.blank {space cs : List Char} {rules : List (Rule w)} (h : RulesIn w cs rules)
    (hspace : ∀ c ∈ space, isSpace c = true) : RulesIn w (space ++ cs) rules := by
  have hboth {space' : List Char} (h : ∀ c ∈ space', isSpace c = true) :
      ∀ c ∈ space ++ space', isSpace c = true := by
    intro c hc
    rcases List.mem_append.1 hc with hc | hc
    · exact hspace c hc
    · exact h c hc
  cases h with
  | none blank => exact .none (hboth blank)
  | more blank isRule ends follow =>
      rw [← List.append_assoc]
      exact .more (hboth blank) isRule ends follow

theorem RulesIn.of_skipSpace {cs : List Char} {rules : List (Rule w)}
    (h : RulesIn w (skipSpace cs) rules) : RulesIn w cs rules := by
  have hcs := h.blank (isSpace_of_mem_takeWhile cs)
  rwa [skipSpace, List.takeWhile_append_dropWhile] at hcs

theorem RulesIn.cons {t rest : List Char} {r : Rule w} {others : List (Rule w)}
    (isRule : IsRule w t r) (ends : atTokenEnd rest = true) (follow : RulesIn w rest others) :
    RulesIn w (t ++ rest) (r :: others) := by
  have hspace : ∀ c ∈ ([] : List Char), isSpace c = true := by simp
  exact .more hspace isRule ends follow

/-- Rules may be joined with one space between them. -/
theorem rulesIn_intercalate {ts : List (List Char)} {rules : List (Rule w)}
    (h : List.Forall₂ (IsRule w) ts rules) : RulesIn w (List.intercalate [' '] ts) rules := by
  induction h with
  | nil => exact .none (by simp)
  | @cons t r ts rules hr hrest ih =>
      cases ts with
      | nil =>
          cases hrest
          have hend : atTokenEnd [] = true := rfl
          have hone := RulesIn.cons hr hend (.none (by simp))
          rw [List.append_nil] at hone
          rwa [List.intercalate_singleton]
      | cons u ts =>
          have hspace : ∀ c ∈ [' '], isSpace c = true := by simp [isSpace]
          rw [List.intercalate_cons_cons, List.append_assoc]
          exact .cons hr rfl (ih.blank hspace)

theorem atEnd_colon (cs : List Char) : AtEnd (':' :: cs) := by
  intro c hc
  obtain rfl := Option.some.inj hc
  rfl

theorem IsRule.register {t : List Char} {r : Rule w} (h : IsRule w t r) (tail : List Char) :
    ∃ behind, Postfix.register (t ++ tail) = .ok (r.register, ':' :: behind) := by
  cases h with
  | mk isName reads =>
      rw [List.append_assoc]
      exact ⟨_, register_of_isRegister (isRegister_iff_name.2 isName) (atEnd_colon _)⟩

theorem IsRule.startsRule {t : List Char} {r : Rule w} (h : IsRule w t r) (tail : List Char) :
    startsRule (t ++ tail) = true := by
  obtain ⟨behind, hregister⟩ := h.register tail
  rw [Postfix.startsRule, hregister]
  rfl

theorem IsRule.skipSpace {t : List Char} {r : Rule w} (h : IsRule w t r) (tail : List Char) :
    skipSpace (t ++ tail) = t ++ tail := by
  cases h with
  | mk isName reads =>
      obtain ⟨hne, hchars⟩ := tokenChars_of_isRegister (isRegister_iff_name.2 isName)
      rw [List.append_assoc, skipSpace_token hne hchars]

/-- What is read as a rule is one. -/
theorem isRule_of_rule {cs rest : List Char} {r : Rule w} (h : rule w cs = .ok (r, rest)) :
    ∃ t tail, skipSpace cs = t ++ tail ∧ IsRule w t r ∧ atTokenEnd tail = true ∧
      skipSpace tail = rest := by
  obtain ⟨⟨x, behind⟩, hregister, h⟩ := bind_eq_ok.1 h
  obtain ⟨text, hcolon, h⟩ := bind_eq_ok.1 h
  obtain ⟨⟨stack, left⟩, hstack, h⟩ := bind_eq_ok.1 h
  obtain ⟨e, hsingle, h⟩ := bind_eq_ok.1 h
  cases h
  obtain rfl := eq_of_character hcolon
  obtain rfl := eq_of_single hsingle
  obtain ⟨name, hname, hisRegister⟩ := isRegister_of_register hregister (atEnd_colon text)
  rw [hname, register_of_isRegister hisRegister (atEnd_colon text)] at hregister
  obtain ⟨rfl, -⟩ := Prod.mk.inj (Except.ok.inj hregister)
  obtain ⟨body, tail, rfl, hrest, hbody, hread⟩ := text_of_stackFrom hstack
  have hexpression := isExpression_iff_stack.2 hread
  refine ⟨name ++ ':' :: body, tail, ?_, .mk (isRegister_iff_name.1 hisRegister) hexpression,
    hbody.resolve_left hexpression.ne_nil, hrest⟩
  rw [hname, List.append_assoc, List.cons_append]

/-- A rule is read up to the next one or the end. -/
theorem rule_of_isRule {cs t tail : List Char} {r : Rule w} (hcs : skipSpace cs = t ++ tail)
    (hrule : IsRule w t r) (hend : atTokenEnd tail = true)
    (hnext : skipSpace tail = [] ∨ startsRule (skipSpace tail) = true) :
    rule w cs = .ok (r, skipSpace tail) := by
  cases hrule with
  | @mk name body e isName reads =>
      have hregister := register_of_isRegister (isRegister_iff_name.2 isName)
        (atEnd_colon (body ++ tail))
      rw [List.append_assoc, List.cons_append] at hcs
      rw [← hcs] at hregister
      have hread := stackFrom_text true (isExpression_iff_stack.1 reads) hend
      rw [stackFrom_end hnext] at hread
      refine bind_eq_ok.2 ⟨_, hregister, bind_eq_ok.2 ⟨_, rfl, ?_⟩⟩
      exact bind_eq_ok.2 ⟨_, hread, rfl⟩

theorem rulesIn_rulesFrom (cs : List Char) (h : skipSpace (rulesFrom w cs).2 = []) :
    RulesIn w cs (rulesFrom w cs).1 := by
  fun_induction rulesFrom w cs with
  | case1 cs e he => exact .none (List.dropWhile_eq_nil_iff.1 h)
  | case2 cs x rest hx xs left hrest ih =>
      obtain ⟨t, tail, hcs, hrule, hend, rfl⟩ := isRule_of_rule hx
      rw [hrest] at ih
      apply RulesIn.of_skipSpace
      rw [hcs]
      exact .cons hrule hend (ih h).of_skipSpace

/-- Behind a rule there is the end, or another rule. -/
theorem RulesIn.starts {cs : List Char} {rules : List (Rule w)} (h : RulesIn w cs rules) :
    skipSpace cs = [] ∨ startsRule (skipSpace cs) = true := by
  cases h with
  | none blank => exact .inl (skipSpace_of_blank blank)
  | more blank isRule ends follow =>
      right
      rw [skipSpace_append_of_nil (skipSpace_of_blank blank), isRule.skipSpace]
      exact isRule.startsRule _

theorem skipSpace_skipSpace (cs : List Char) : skipSpace (skipSpace cs) = skipSpace cs :=
  List.dropWhile_idempotent isSpace cs

theorem rulesFrom_of_rulesIn {cs : List Char} {rules : List (Rule w)} (h : RulesIn w cs rules)
    {cs' : List Char} (hcs' : skipSpace cs' = skipSpace cs) :
    (rulesFrom w cs').1 = rules ∧ skipSpace (rulesFrom w cs').2 = [] := by
  -- the run goes on behind the space in front of the next rule, so the texts agree up to space only
  induction h generalizing cs' with
  | none blank =>
      rw [skipSpace_of_blank blank] at hcs'
      rw [rulesFrom.eq_def]
      split
      · exact ⟨rfl, hcs'⟩
      · rename_i x rest hx
        obtain ⟨t, tail, ht, hrule, -⟩ := isRule_of_rule hx
        rw [hcs'] at ht
        cases hrule
        simp at ht
  | @more space t rest r others blank isRule ends follow ih =>
      rw [skipSpace_append_of_nil (skipSpace_of_blank blank), isRule.skipSpace] at hcs'
      rw [rulesFrom_rule (rule_of_isRule hcs' isRule ends follow.starts)]
      obtain ⟨hothers, hrest⟩ := ih (skipSpace_skipSpace rest)
      exact ⟨congrArg _ hothers, hrest⟩

/-- A text is read as rules just if it is these rules. -/
theorem parseRules_eq_ok_iff {s : String} {rules : List (Rule w)} :
    parseRules w s = .ok rules ↔ RulesIn w s.toList rules := by
  rw [parseRules_eq_ok]
  constructor
  · rintro ⟨rfl, hrest⟩
    exact rulesIn_rulesFrom _ hrest
  · intro h
    exact rulesFrom_of_rulesIn h rfl

/-- A text is read as an expression just if its words are tokens that leave nothing but it on the
stack, which is when they spell it in postorder, and as rules just if it is a sequence of them. -/
theorem readings_follow_grammar (w : Width) (s : String) :
    (∀ e, parseExpr w s = .ok e ↔ IsExpression w s.toList e) ∧
    (∀ e, IsExpression w s.toList e ↔ List.Forall₂ (IsToken w) (words s.toList) e.tokens) ∧
    ∀ rules, parseRules w s = .ok rules ↔ RulesIn w s.toList rules :=
  ⟨fun _ => parseExpr_eq_ok_iff, fun _ => isExpression_iff, fun _ => parseRules_eq_ok_iff⟩

end Postmortem.Postfix
