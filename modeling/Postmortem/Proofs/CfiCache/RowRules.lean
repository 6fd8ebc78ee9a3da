import Postmortem.CfiCache.Conversion
import Postmortem.Postfix.Evaluator
import Postmortem.Proofs.CfiCache.ReadableRules
import Postmortem.Proofs.Numerals
import Postmortem.Proofs.SortedMaps

/-!
# Rules of rows

What the rules of a row become as text, and the values that these texts have: the canonical frame
address is the sum of a register and an offset, and each other rule has the value that the row
prescribes once that address is known.
-/

set_option autoImplicit false

namespace Postmortem

namespace Cpu.Family

variable {family : Cpu.Family} {number : UInt16} {name : String}

def IsRuleName (name : String) : Prop :=
  Postfix.isRegister name.toList = true ∧ name ≠ ".cfa" ∧ name ≠ ".ra"

instance (name : String) : Decidable (IsRuleName name) := inferInstanceAs (Decidable (_ ∧ _))

theorem isRuleName_of_registerNames (family : Cpu.Family) :
    ∀ name ∈ family.registerNames, name.isEmpty = false → IsRuleName name := by
  have hmips : ∀ name ∈ mipsRegisters, name.isEmpty = false → IsRuleName name := by
    decide +kernel
  have harm64 : ∀ name ∈ arm64Registers, name.isEmpty = false → IsRuleName name := by
    decide +kernel
  cases family with
  | intel32 | amd64 | arm32 => decide +kernel
  | arm64 | arm64_32 => exact harm64
  | mips32 | mips64 => exact hmips
  | unknown | ppc32 | ppc64 => exact fun _ hname => absurd hname (Array.not_mem_empty _)

theorem isRuleName_of_ruleName? (h : family.ruleName? number = some name) : IsRuleName name := by
  rw [ruleName?, Option.filter_eq_some_iff] at h
  obtain ⟨hname, hne⟩ := h
  exact family.isRuleName_of_registerNames name (Array.mem_of_getElem? hname) (by simpa using hne)

end Cpu.Family

namespace CfiCache

open Debug (CfaRule RegisterRule UnwindRow)
open Postfix (EvaluationError Evaluator Expr Register Width Word stackAfter? token?)

variable {family : Cpu.Family} {returnAddress register : UInt16} {w : Width}

def TextRule.text (r : TextRule) : String := String.ofList r.chars

/-! ## Texts -/

def cfaRule? (family : Cpu.Family) : CfaRule → Option TextRule
  | .registerOffset register offset =>
    (family.ruleName? register).map fun name =>
      ⟨".cfa".toList, [name.toList, (Text.decimalInt offset.toInt).toList, ['+']]⟩
  | .expression _ => none

theorem cfaText_eq_ok {rule : CfaRule} {text : String} (h : cfaText family rule = .ok text) :
    ∃ q, cfaRule? family rule = some q ∧ text = q.text := by
  unfold cfaText at h
  split at h
  · rename_i register offset
    split at h
    · rename_i name hname
      cases h
      refine ⟨_, congrArg (Option.map _) hname, ?_⟩
      apply String.toList_inj.1
      simp [TextRule.text, TextRule.chars, List.intercalate_cons_cons]
    · cases h
  · cases h

def tokens? (family : Cpu.Family) (register : UInt16) : RegisterRule → Option (List Token)
  | .sameValue => (family.ruleName? register).map fun name => [name.toList]
  | .offset n =>
    some [".cfa".toList, (Text.decimalInt n.toInt).toList, ['+'], ['^']]
  | .valOffset n => some [".cfa".toList, (Text.decimalInt n.toInt).toList, ['+']]
  | .register other => (family.ruleName? other).map fun name => [name.toList]
  | .undefined | .architectural | .expression _ | .valExpression _ => none

theorem expressionText?_eq (rule : RegisterRule) :
    expressionText? family register rule =
      (tokens? family register rule).map fun expr =>
        String.ofList (List.intercalate [' '] expr) := by
  have hname (number : UInt16) : family.ruleName? number =
      ((family.ruleName? number).map fun name => [name.toList]).map fun expr =>
        String.ofList (List.intercalate [' '] expr) := by
    cases family.ruleName? number with
    | none => rfl
    | some name => simp
  cases rule with
  | undefined => rfl
  | sameValue => exact hname register
  | offset n =>
      apply congrArg some
      apply String.toList_inj.1
      simp [List.intercalate_cons_cons]
  | valOffset n =>
      apply congrArg some
      apply String.toList_inj.1
      simp [List.intercalate_cons_cons]
  | register other => exact hname other
  | expression program => rfl
  | valExpression program => rfl
  | architectural => rfl

def targetName? (family : Cpu.Family) (returnAddress register : UInt16) : Option String :=
  if register = returnAddress then some ".ra" else family.ruleName? register

def registerRule? (family : Cpu.Family) (returnAddress register : UInt16) (rule : RegisterRule) :
    Option TextRule := do
  let expr ← tokens? family register rule
  let name ← targetName? family returnAddress register
  return ⟨name.toList, expr⟩

theorem registerText?_eq (rule : RegisterRule) :
    registerText? family returnAddress register rule =
      (registerRule? family returnAddress register rule).map TextRule.text := by
  rw [registerText?, registerRule?, expressionText?_eq]
  cases tokens? family register rule with
  | none => rfl
  | some expr =>
      have htext (name : String) :
          name ++ ": " ++ String.ofList (List.intercalate [' '] expr) =
            TextRule.text ⟨name.toList, expr⟩ := by
        apply String.toList_inj.1
        simp [TextRule.text, TextRule.chars]
      by_cases hra : register = returnAddress
      · simpa [targetName?, hra] using htext ".ra"
      · cases hname : family.ruleName? register with
        | none => simp [targetName?, hra, hname]
        | some name => simp [targetName?, hra, hname, htext]

/-! ## Values -/

def valueOf (ev : Evaluator w) (name : String) : Except EvaluationError (Word w) :=
  match ev.registers.find? (.ofName name) with
  | some value => .ok value
  | none => .error (.undefinedRegister (.ofName name))

/-- The value that a rule prescribes for a register, by the registers and the memory of the callee
and its canonical frame address. -/
def prescribed? (w : Width) (family : Cpu.Family) (register : UInt16) :
    RegisterRule → Option (Evaluator w → Word w → Except EvaluationError (Word w))
  | .sameValue => (family.ruleName? register).map fun name ev _ => valueOf ev name
  | .offset n => some fun ev cfa =>
    Evaluator.readWord ev.memory ev.endian (cfa + BitVec.ofInt w.bits n.toInt)
  | .valOffset n => some fun _ cfa => .ok (cfa + BitVec.ofInt w.bits n.toInt)
  | .register other => (family.ruleName? other).map fun name ev _ => valueOf ev name
  | .undefined | .architectural | .expression _ | .valExpression _ => none

theorem evaluate_register (ev : Evaluator w) (name : String) :
    ev.evaluate (.register (.ofName name)) = valueOf ev name := rfl

theorem valueOf_set {name : String} (h : name ≠ ".cfa") (ev : Evaluator w) (cfa : Word w) :
    valueOf (ev.set .cfa cfa) name = valueOf ev name := by
  have hne : Register.ofName name ≠ .cfa := fun heq => h (Register.ofName_injective heq)
  rw [valueOf, valueOf, Evaluator.set, SortedMap.find?_insert_of_ne _ hne]

theorem evaluate_cfa (ev : Evaluator w) (cfa : Word w) :
    (ev.set .cfa cfa).evaluate (.register .cfa) = .ok cfa := by
  rw [Evaluator.evaluate, Evaluator.set, SortedMap.find?_insert_self]

theorem token?_name {number : UInt16} {name : String} (h : family.ruleName? number = some name) :
    token? w name.toList = some (.operand (.register (.ofName name)), []) := by
  rw [Postfix.token?_of_isRegister (Cpu.Family.isRuleName_of_ruleName? h).1, String.ofList_toList]

theorem token?_cfa : token? w ".cfa".toList = some (.operand (.register .cfa), []) :=
  Postfix.token?_of_isRegister (by decide)

theorem token?_add : token? w ['+'] = some (.op .add, []) := by
  cases w
  all_goals decide

theorem token?_deref : token? w ['^'] = some (.deref, []) := by
  cases w
  all_goals decide

/-- The tokens of a rule leave an expression with the value that the rule prescribes. -/
theorem stackAfter?_tokens? {rule : RegisterRule} {tokens : List Token}
    (h : tokens? family register rule = some tokens) :
    ∃ e value, stackAfter? w tokens [] = some [e] ∧
      prescribed? w family register rule = some value ∧
      ∀ ev cfa, (ev.set .cfa cfa).evaluate e = value ev cfa := by
  have hcopy {number : UInt16} {tokens : List Token}
      (h : (family.ruleName? number).map (fun name => [name.toList]) = some tokens) :
      ∃ e value, stackAfter? w tokens [] = some [e] ∧
        (family.ruleName? number).map (fun name ev (_ : Word w) => valueOf ev name) =
          some value ∧ ∀ ev cfa, (ev.set .cfa cfa).evaluate e = value ev cfa := by
    obtain ⟨name, hname, rfl⟩ := Option.map_eq_some_iff.1 h
    refine ⟨.register (.ofName name), _, ?_, congrArg (Option.map _) hname, ?_⟩
    · rw [Postfix.stackAfter?_cons (token?_name hname) rfl]
      rfl
    · intro ev cfa
      rw [evaluate_register, valueOf_set (Cpu.Family.isRuleName_of_ruleName? hname).2.1]
  cases rule with
  | undefined => cases h
  | sameValue => exact hcopy h
  | offset n =>
      cases h
      refine ⟨.deref (.op (.register .cfa) (.value (BitVec.ofInt w.bits n.toInt)) .add), _, ?_,
        rfl, ?_⟩
      · rw [Postfix.stackAfter?_cons token?_cfa rfl,
          Postfix.stackAfter?_cons (Postfix.token?_decimalInt n) rfl,
          Postfix.stackAfter?_cons token?_add rfl, Postfix.stackAfter?_cons token?_deref rfl]
        rfl
      · intro ev cfa
        rw [Evaluator.evaluate, Evaluator.evaluate, evaluate_cfa]
        rfl
  | valOffset n =>
      cases h
      refine ⟨.op (.register .cfa) (.value (BitVec.ofInt w.bits n.toInt)) .add, _, ?_, rfl, ?_⟩
      · rw [Postfix.stackAfter?_cons token?_cfa rfl,
          Postfix.stackAfter?_cons (Postfix.token?_decimalInt n) rfl,
          Postfix.stackAfter?_cons token?_add rfl]
        rfl
      · intro ev cfa
        rw [Evaluator.evaluate, evaluate_cfa]
        rfl
  | register other => exact hcopy h
  | expression program => cases h
  | valExpression program => cases h
  | architectural => cases h

theorem cfaRule?_eq_some {rule : CfaRule} {q : TextRule} (h : cfaRule? family rule = some q) :
    ∃ register offset name, rule = .registerOffset register offset ∧
      family.ruleName? register = some name ∧ q.register = ".cfa".toList ∧
      ∀ w, stackAfter? w q.expr [] =
        some [.op (.register (.ofName name)) (.value (BitVec.ofInt w.bits offset.toInt)) .add] := by
  cases rule with
  | expression program => cases h
  | registerOffset register offset =>
      obtain ⟨name, hname, rfl⟩ := Option.map_eq_some_iff.1 h
      refine ⟨register, offset, name, rfl, hname, rfl, ?_⟩
      intro w
      dsimp only
      rw [Postfix.stackAfter?_cons (token?_name hname) rfl,
        Postfix.stackAfter?_cons (Postfix.token?_decimalInt offset) rfl,
        Postfix.stackAfter?_cons token?_add rfl]
      rfl

theorem registerRule?_eq_some_iff {rule : RegisterRule} {q : TextRule} :
    registerRule? family returnAddress register rule = some q ↔
      tokens? family register rule = some q.expr ∧
        ∃ name, targetName? family returnAddress register = some name ∧
          q.register = name.toList := by
  obtain ⟨target, expr⟩ := q
  rw [registerRule?]
  constructor
  · intro h
    obtain ⟨tokens, htokens, h⟩ := Option.bind_eq_some_iff.1 h
    obtain ⟨name, hname, h⟩ := Option.bind_eq_some_iff.1 h
    cases h
    exact ⟨htokens, name, hname, rfl⟩
  · rintro ⟨htokens, name, hname, rfl⟩
    exact Option.bind_eq_some_iff.2 ⟨expr, htokens, Option.bind_eq_some_iff.2 ⟨name, hname, rfl⟩⟩

/-! ## Rules can be read -/

theorem readable_of_stackAfter? {q : TextRule} {e : Expr .w64}
    (hregister : Postfix.isRegister q.register = true)
    (h : stackAfter? .w64 q.expr [] = some [e]) : q.Readable :=
  ⟨hregister, Postfix.heightAfter?_of_stackAfter? h⟩

theorem readable_cfaRule? {rule : CfaRule} {q : TextRule} (h : cfaRule? family rule = some q) :
    q.Readable := by
  obtain ⟨_, _, _, -, -, hregister, hstack⟩ := cfaRule?_eq_some h
  refine readable_of_stackAfter? ?_ (hstack .w64)
  rw [hregister]
  decide

theorem isRegister_targetName? {name : String}
    (h : targetName? family returnAddress register = some name) :
    Postfix.isRegister name.toList = true := by
  rw [targetName?] at h
  split at h
  · cases h
    decide
  · exact (Cpu.Family.isRuleName_of_ruleName? h).1

theorem readable_registerRule? {rule : RegisterRule} {q : TextRule}
    (h : registerRule? family returnAddress register rule = some q) : q.Readable := by
  obtain ⟨htokens, name, hname, hregister⟩ := registerRule?_eq_some_iff.1 h
  obtain ⟨e, -, hstack, -⟩ := stackAfter?_tokens? (w := .w64) htokens
  refine readable_of_stackAfter? ?_ hstack
  rw [hregister]
  exact isRegister_targetName? hname

/-! ## Changes -/

def changes (family : Cpu.Family) (returnAddress : UInt16) :
    (given rules : List (UInt16 × RegisterRule)) → List (UInt16 × TextRule)
  | _, [] => []
  | given, (register, rule) :: rest =>
    if given.lookup register = some rule then changes family returnAddress given rest
    else
      (registerRule? family returnAddress register rule).toList.map (register, ·) ++
        changes family returnAddress ((register, rule) :: given) rest

def givenAfter : (given rules : List (UInt16 × RegisterRule)) → List (UInt16 × RegisterRule)
  | given, [] => given
  | given, e :: rest =>
    givenAfter (if given.lookup e.1 = some e.2 then given else e :: given) rest

theorem changedRules_eq (given rules : List (UInt16 × RegisterRule)) :
    changedRules family returnAddress given rules =
      ((changes family returnAddress given rules).map fun e => (e.1, e.2.text),
        givenAfter given rules) := by
  induction rules generalizing given with
  | nil => rfl
  | cons head rules ih =>
      obtain ⟨register, rule⟩ := head
      rw [changedRules, changes, givenAfter]
      by_cases hsame : given.lookup register = some rule
      · rw [if_pos hsame, if_pos hsame, if_pos hsame]
        exact ih given
      · rw [if_neg hsame, if_neg hsame, if_neg hsame, ih, registerText?_eq]
        cases registerRule? family returnAddress register rule with
        | none => rfl
        | some q => rfl

theorem readable_changes {given rules : List (UInt16 × RegisterRule)} :
    ∀ e ∈ changes family returnAddress given rules, e.2.Readable := by
  induction rules generalizing given with
  | nil => simp [changes]
  | cons head rules ih =>
      rw [changes]
      split
      · exact ih
      · intro e he
        rcases List.mem_append.1 he with he | he
        · obtain ⟨q, hq, rfl⟩ := List.mem_map.1 he
          exact readable_registerRule? (Option.mem_toList.1 hq)
        · exact ih e he

/-- Whether some rules are those that a row changes: that for the canonical frame address unless it
is the last one given, and those of registers. -/
def Changed (family : Cpu.Family) (returnAddress : UInt16) (given : Given) (row : UnwindRow)
    (rules : List TextRule) : Prop :=
  ∃ line, ((given.cfa = some row.cfa ∧ line = []) ∨
      ∃ q, cfaRule? family row.cfa = some q ∧ line = [q]) ∧
    rules = line ++ (changes family returnAddress given.registers row.registers).map Prod.snd

theorem Changed.readable {given : Given} {row : UnwindRow} {rules : List TextRule}
    (h : Changed family returnAddress given row rules) : ∀ q ∈ rules, q.Readable := by
  obtain ⟨line, hline, rfl⟩ := h
  intro p hp
  rcases List.mem_append.1 hp with hp | hp
  · rcases hline with ⟨-, rfl⟩ | ⟨q, hq, rfl⟩
    · cases hp
    · rw [List.mem_singleton.1 hp]
      exact readable_cfaRule? hq
  · obtain ⟨e, he, rfl⟩ := List.mem_map.1 hp
    exact readable_changes e he

def Given.after (given : Given) (row : UnwindRow) : Given :=
  ⟨some row.cfa, givenAfter given.registers row.registers⟩

theorem rowChanges_eq_ok {given given' : Given} {row : UnwindRow} {cfa : List String}
    {texts : List (UInt16 × String)}
    (h : rowChanges family returnAddress given row = .ok (cfa, texts, given')) :
    given' = given.after row ∧
      texts = (changes family returnAddress given.registers row.registers).map
        (fun e => (e.1, e.2.text)) ∧
      ∃ rules, Changed family returnAddress given row rules ∧
        cfa ++ texts.map Prod.snd = rules.map TextRule.text := by
  rw [rowChanges, changedRules_eq] at h
  split at h
  · rename_i hsame
    cases h
    exact ⟨rfl, rfl, _, ⟨[], .inl ⟨hsame, rfl⟩, rfl⟩, by simp [Function.comp_def]⟩
  · obtain ⟨text, htext, h⟩ := bind_eq_ok.1 h
    cases h
    obtain ⟨q, hq, rfl⟩ := cfaText_eq_ok htext
    exact ⟨rfl, rfl, _, ⟨[q], .inr ⟨q, hq, rfl⟩, rfl⟩, by simp [Function.comp_def]⟩

end CfiCache

end Postmortem
