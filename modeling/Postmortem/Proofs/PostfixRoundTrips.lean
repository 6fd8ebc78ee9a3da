import Mathlib.Data.List.Forall2
import Postmortem.Proofs.PostfixReadings

/-!
# Postfix texts are read back

The text of expressions, rules and assignments in which all names of registers follow the grammar is
read as these, at either width.
-/

set_option autoImplicit false

namespace Postmortem.Postfix

variable {w : Width}

def Register.WellNamed : Register → Prop
  | var n => IsVariableName n.toList
  | const n => IsConstantName n.toList

def Expr.WellNamed : Expr w → Prop
  | value _ => True
  | register r => r.WellNamed
  | op a b _ => a.WellNamed ∧ b.WellNamed
  | deref a => a.WellNamed

structure Rule.WellNamed (r : Rule w) : Prop where
  register : r.register.WellNamed
  expr : r.expr.WellNamed

structure Assignment.WellNamed (a : Assignment w) : Prop where
  target : a.target.WellNamed
  expr : a.expr.WellNamed

namespace Register.WellNamed

theorem isRegisterName {r : Register} (h : r.WellNamed) : IsRegisterName r.name.toList := by
  cases r with
  | var n => exact .inl h
  | const n => exact .inr h

/-- A register is the one with its name: the name tells variables from constants. -/
theorem ofName_name {r : Register} (h : r.WellNamed) : .ofName r.name = r := by
  cases r with
  | var n =>
      obtain ⟨m, hn, -⟩ := h
      rw [ofName, name, hn]
      rfl
  | const n =>
      obtain ⟨c, m, hn, hstart, -⟩ := h
      rw [ofName, name, hn, if_neg]
      intro hc
      obtain rfl := Option.some.inj hc
      cases hstart

end Register.WellNamed

/-! ## Expressions -/

theorem words_token {t : List Char} {k : Token w} (h : IsToken w t k) : words t = [t] :=
  words_of_solid h.tokenChars.1 fun c hc => isSpace_of_isTokenChar (h.tokenChars.2 c hc)

theorem words_spaced {body : List Char} (cs : List Char) :
    words (body ++ ' ' :: cs) = words body ++ words cs := by
  rw [words_append rfl, words_space rfl]

theorem isToken_digits (n : Word w) :
    IsToken w (Text.digits 10 n.toNat) (.operand (.value n)) := by
  have hfits : n.toNat < 2 ^ 64 := by
    have hlt := n.isLt
    cases w with
    | w32 => exact Nat.lt_trans hlt (by decide)
    | w64 => exact hlt
  have htoken := IsToken.decimal (w := w) (Text.isNumeral_digits n.toNat) hfits
  rwa [BitVec.ofNat_toNat, BitVec.setWidth_eq] at htoken

theorem isToken_name {r : Register} (h : r.WellNamed) :
    IsToken w r.name.toList (.operand (.register r)) := by
  have htoken := IsToken.register (w := w) h.isRegisterName
  rwa [String.ofList_toList, h.ofName_name] at htoken

/-- The text of an expression spells it. -/
theorem isExpression_chars {e : Expr w} (h : e.WellNamed) : IsExpression w e.chars e := by
  rw [isExpression_iff]
  induction e with
  | value n =>
      rw [Expr.chars, words_token (isToken_digits n)]
      exact .cons (isToken_digits n) .nil
  | register r =>
      rw [Expr.chars, words_token (isToken_name (w := w) h)]
      exact .cons (isToken_name h) .nil
  | op a b o iha ihb =>
      have hwords : words (Expr.op a b o).chars = words a.chars ++ words b.chars ++ [[o.sign]] := by
        rw [Expr.chars, List.append_assoc, List.cons_append, words_spaced, words_spaced,
          words_token (IsToken.op (w := w) o), List.append_assoc]
      rw [hwords]
      exact List.rel_append (List.rel_append (iha h.1) (ihb h.2)) (.cons (.op o) .nil)
  | deref a ih =>
      have hwords : words (Expr.deref a).chars = words a.chars ++ [['^']] := by
        rw [Expr.chars, words_spaced, words_token (IsToken.deref (w := w))]
      rw [hwords]
      exact List.rel_append (ih h) (.cons .deref .nil)

theorem IsExpression.space {cs : List Char} {e : Expr w} (h : IsExpression w cs e) :
    IsExpression w (' ' :: cs) e := by
  rwa [IsExpression, words_space rfl]

theorem parseExpr_toText {e : Expr w} (h : e.WellNamed) : parseExpr w e.toText = .ok e := by
  rw [parseExpr_eq_ok_iff, Expr.toText, String.toList_ofList]
  exact isExpression_chars h

/-! ## Rules -/

theorem isRule_chars {r : Rule w} (h : r.WellNamed) : IsRule w r.chars r := by
  have hrule := IsRule.mk h.register.isRegisterName (isExpression_chars h.expr).space
  rwa [String.ofList_toList, h.register.ofName_name] at hrule

theorem parseRules_formatRules {rules : List (Rule w)} (h : ∀ r ∈ rules, r.WellNamed) :
    parseRules w (formatRules rules) = .ok rules := by
  rw [parseRules_eq_ok_iff, formatRules, String.toList_ofList]
  apply rulesIn_intercalate
  rw [List.forall₂_map_left_iff, List.forall₂_same]
  exact fun r hr => isRule_chars (h r hr)

/-! ## Assignments -/

theorem token?_eq_none {c : Char} (h : isTokenChar c = false) (rest : List Char) :
    token? w (c :: rest) = none := by
  cases htoken : token? w (c :: rest) with
  | none => rfl
  | some p =>
      obtain ⟨k, left⟩ := p
      obtain ⟨t, hsplit, hne, hchars, -⟩ := exists_token?_alone htoken
      cases t with
      | nil => exact absurd rfl hne
      | cons d t =>
          obtain ⟨rfl, -⟩ := List.cons.inj hsplit
          rw [hchars c (List.mem_cons_self ..)] at h
          cases h

/-- Reading an expression stops at an equals sign. -/
theorem stackFrom_equals (rest : List Char) (stack : List (Expr w)) :
    stackFrom w false (' ' :: '=' :: rest) stack = .ok (stack, '=' :: rest) := by
  have hhere : skipSpace (' ' :: '=' :: rest) = '=' :: rest := rfl
  have hnone : token? w ('=' :: rest) = none := token?_eq_none (by decide) rest
  rw [stackFrom.eq_def, hhere, if_neg (by simp)]
  split
  · rfl
  · rename_i hsome
    rw [hnone] at hsome
    cases hsome

theorem variableName_append_whole {t : List Char} (h : IsVariableName t) {tail : List Char}
    (htail : AtEnd tail) : variableName (t ++ tail) = .ok (t, tail) := by
  rw [← toOption_eq_some_iff, variableName_append htail, variableName_whole.2 ⟨rfl, h⟩]
  rfl

theorem skipSpace_assignment {a : Assignment w} (h : a.WellNamed) (tail : List Char) :
    skipSpace (a.chars ++ tail) = a.chars ++ tail := by
  obtain ⟨hne, hchars⟩ :=
    tokenChars_of_isRegister (isRegister_iff_name.2 h.target.isRegisterName)
  rw [Assignment.chars, List.append_assoc, List.append_assoc, skipSpace_token hne hchars]

theorem assignment_chars {a : Assignment w} (h : a.WellNamed) (tail : List Char) :
    assignment w (a.chars ++ tail) = .ok (a, tail) := by
  have hskip := skipSpace_assignment h tail
  obtain ⟨target, e, hvariable⟩ := a
  cases target with
  | const n => cases hvariable
  | var n =>
      have htext : (Assignment.mk (.var n) e hvariable).chars ++ tail =
          n.toList ++ (' ' :: e.chars ++ ' ' :: '=' :: tail) := by
        simp [Assignment.chars, Register.name]
      rw [htext] at hskip ⊢
      have hend : AtEnd (' ' :: e.chars ++ ' ' :: '=' :: tail) := atEnd_of_atTokenEnd rfl
      have hname := variableName_append_whole h.target hend
      rw [← hskip] at hname
      -- the equals sign is no token, so the run stops in front of it with the whole expression
      have hstack := isExpression_iff_stack.1 (isExpression_chars h.expr).space
      have hread := stackFrom_text false hstack
        (show atTokenEnd (' ' :: '=' :: tail) = true from rfl)
      rw [stackFrom_equals] at hread
      refine bind_eq_ok.2 ⟨_, hname, bind_eq_ok.2 ⟨_, hread, bind_eq_ok.2 ⟨e, rfl, ?_⟩⟩⟩
      refine bind_eq_ok.2 ⟨tail, rfl, ?_⟩
      simp only [String.ofList_toList]
      rfl

theorem assignmentsFrom_nil : assignmentsFrom w [] = ([], []) := by
  rw [assignmentsFrom]
  rfl

theorem assignmentsFrom_assignment {cs rest : List Char} {a : Assignment w}
    (h : assignment w cs = .ok (a, rest)) :
    assignmentsFrom w cs = (a :: (assignmentsFrom w (skipSpace rest)).1,
      (assignmentsFrom w (skipSpace rest)).2) := by
  rw [assignmentsFrom]
  split
  · rename_i e herror
    rw [h] at herror
    cases herror
  · rename_i b tail hok
    rw [h] at hok
    cases hok
    rfl

theorem exists_intercalate_cons (sep t : List Char) (ts : List (List Char)) :
    ∃ more, List.intercalate sep (t :: ts) = t ++ more := by
  cases ts with
  | nil => exact ⟨[], by simp⟩
  | cons u ts =>
      refine ⟨sep ++ List.intercalate sep (u :: ts), ?_⟩
      rw [List.intercalate_cons_cons, List.append_assoc]

theorem assignmentsFrom_intercalate {as : List (Assignment w)} (h : ∀ a ∈ as, a.WellNamed) :
    assignmentsFrom w (List.intercalate [' '] (as.map Assignment.chars)) = (as, []) := by
  induction as with
  | nil => exact assignmentsFrom_nil
  | cons a as ih =>
      obtain ⟨ha, has⟩ := List.forall_mem_cons.1 h
      cases as with
      | nil =>
          have hone := assignmentsFrom_assignment (assignment_chars ha [])
          rw [List.append_nil, show skipSpace [] = [] from rfl, assignmentsFrom_nil] at hone
          simpa using hone
      | cons b as =>
          obtain ⟨more, hmore⟩ := exists_intercalate_cons [' '] b.chars (as.map Assignment.chars)
          have hskip : skipSpace (' ' :: (b.chars ++ more)) = b.chars ++ more :=
            skipSpace_assignment (has b (List.mem_cons_self ..)) more
          have hall := assignmentsFrom_assignment (assignment_chars ha (' ' :: (b.chars ++ more)))
          rw [hskip, ← hmore, ← List.map_cons, ih has] at hall
          rw [List.map_cons, List.map_cons, List.intercalate_cons_cons, List.append_assoc]
          exact hall

def formatAssignments (as : List (Assignment w)) : String :=
  String.intercalate " " (as.map Assignment.toText)

theorem parseAssignments_formatAssignments {as : List (Assignment w)}
    (h : ∀ a ∈ as, a.WellNamed) : parseAssignments w (formatAssignments as) = .ok as := by
  have htext : (formatAssignments as).toList =
      List.intercalate [' '] (as.map Assignment.chars) := by
    rw [formatAssignments, String.toList_intercalate, List.map_map]
    congr 1
    apply List.map_congr_left
    intro a _
    exact String.toList_ofList
  rw [parseAssignments, complete_eq_ok, htext, assignmentsFrom_intercalate h]

/-! ## Registers -/

theorem parseRegister_eq_ok {s : String} {r : Register} (h : parseRegister s = .ok r) :
    r = .ofName s := by
  obtain ⟨n, hn, hr, -⟩ := register_eq_ok (complete_eq_ok.1 h)
  rw [List.append_nil] at hn
  rw [hr, ← hn, String.ofList_toList]

/-- What is printed is read back, if the names of all registers follow the grammar, and a register
that is read is the one with that name. -/
theorem texts_are_read_back (w : Width) :
    (∀ e : Expr w, e.WellNamed → parseExpr w e.toText = .ok e) ∧
    (∀ rules : List (Rule w), (∀ r ∈ rules, r.WellNamed) →
      parseRules w (formatRules rules) = .ok rules) ∧
    (∀ as : List (Assignment w), (∀ a ∈ as, a.WellNamed) →
      parseAssignments w (formatAssignments as) = .ok as) ∧
    ∀ s r, parseRegister s = .ok r → r = .ofName s :=
  ⟨fun _ => parseExpr_toText, fun _ => parseRules_formatRules,
    fun _ => parseAssignments_formatAssignments, fun _ _ => parseRegister_eq_ok⟩

def sampleExpr : Expr .w64 := .deref (.op (.register (.var "$rsp")) (.value 8) .add)

example : sampleExpr.toText = "$rsp 8 + ^" := by decide

theorem sampleExpr_wellNamed : sampleExpr.WellNamed :=
  ⟨⟨_, rfl, by decide, List.all_eq_true.1 rfl⟩, trivial⟩

theorem texts_are_read_back_sample :
    parseExpr .w64 sampleExpr.toText = .ok sampleExpr ∧
    parseRules .w64 (formatRules [⟨.ra, sampleExpr⟩]) = .ok [⟨.ra, sampleExpr⟩] ∧
    parseAssignments .w64 (formatAssignments [⟨.var "$eip", sampleExpr, rfl⟩]) =
      .ok [⟨.var "$eip", sampleExpr, rfl⟩] ∧
    parseRegister ".ra" = .ok .ra ∧ .ra = Register.ofName ".ra" := by
  have hregister : parseRegister ".ra" = .ok .ra := by decide
  obtain ⟨hexpr, hrules, has, hregisters⟩ := texts_are_read_back .w64
  refine ⟨hexpr _ sampleExpr_wellNamed, hrules _ ?_, has _ ?_, hregister,
    hregisters _ _ hregister⟩
  · intro r hr
    obtain rfl := List.mem_singleton.1 hr
    exact ⟨⟨_, _, rfl, by decide, List.all_eq_true.1 rfl⟩, sampleExpr_wellNamed⟩
  · intro a ha
    obtain rfl := List.mem_singleton.1 ha
    exact ⟨⟨_, rfl, by decide, List.all_eq_true.1 rfl⟩, sampleExpr_wellNamed⟩

end Postmortem.Postfix
