import Postmortem.Proofs.Outcomes
import Postmortem.Proofs.PostfixTokens

/-!
# Registers in postfix text

A text that is the name of a register is read as the register with that name, both at the start of a
rule and as an operand of an expression.
-/

set_option autoImplicit false

namespace Postmortem.Postfix

variable {w : Width}

def isRegister (t : List Char) : Bool :=
  match register t with
  | .ok (_, []) => true
  | _ => false

theorem isRegister_iff {t : List Char} :
    isRegister t = true ↔ ∃ r, (register t).toOption = some (r, []) := by
  unfold isRegister
  split
  · rename_i r h
    simp [h, Except.toOption]
  · rename_i hno
    refine ⟨nofun, ?_⟩
    rintro ⟨r, hr⟩
    cases hregister : register t with
    | error e => simp [hregister, Except.toOption] at hr
    | ok p =>
        rw [hregister] at hr
        have hp : p = (r, []) := Option.some.inj hr
        rw [hp] at hregister
        exact absurd hregister (hno r)

theorem tokenChars_of_isRegister {t : List Char} (h : isRegister t = true) :
    t ≠ [] ∧ ∀ c ∈ t, isTokenChar c = true := by
  unfold isRegister at h
  split at h
  · rename_i r hr
    obtain ⟨u, hu, hne, hchars⟩ := takes_register hr
    rw [List.append_nil] at hu
    subst hu
    exact ⟨hne, hchars⟩
  · cases h

/-! ## Names -/

theorem Register.name_ofName (name : String) : (ofName name).name = name := by
  rw [ofName]
  split
  · rfl
  · rfl

theorem Register.ofName_injective {name other : String} (h : ofName name = ofName other) :
    name = other := by
  rw [← name_ofName name, h, name_ofName]

theorem variableName_eq_ok {cs n rest : List Char} (h : variableName cs = .ok (n, rest)) :
    cs = n ++ rest ∧ n.head? = some '$' := by
  unfold variableName at h
  split at h
  · rename_i tail
    simp only at h
    split at h
    · cases h
    · cases h
      exact ⟨by rw [List.cons_append, List.takeWhile_append_dropWhile], rfl⟩
  · cases h

theorem constantName_eq_ok {cs n rest : List Char} (h : constantName cs = .ok (n, rest)) :
    cs = n ++ rest ∧ ∃ c, n.head? = some c ∧ isNameStart c = true := by
  unfold constantName at h
  split at h
  · cases h
  · rename_i c tail
    split at h
    · rename_i hstart
      cases h
      exact ⟨by rw [List.cons_append, List.takeWhile_append_dropWhile], c, rfl, hstart⟩
    · cases h

/-- A register is the one with the name that was read, which starts with `$` or as a constant
does. -/
theorem register_eq_ok {cs rest : List Char} {r : Register} (h : register cs = .ok (r, rest)) :
    ∃ n, cs = n ++ rest ∧ r = .ofName (String.ofList n) ∧
      ∃ c, n.head? = some c ∧ (c = '$' ∨ isNameStart c = true) := by
  unfold register at h
  split at h
  · rename_i n left hvariable
    cases h
    obtain ⟨hcs, hhead⟩ := variableName_eq_ok hvariable
    refine ⟨n, hcs, ?_, '$', hhead, .inl rfl⟩
    rw [Register.ofName, String.toList_ofList, if_pos hhead]
  · cases hconstant : constantName cs with
    | error e =>
        rw [hconstant] at h
        cases h
    | ok p =>
        rw [hconstant] at h
        cases h
        obtain ⟨hcs, c, hhead, hstart⟩ := constantName_eq_ok hconstant
        refine ⟨p.1, hcs, ?_, c, hhead, .inr hstart⟩
        rw [Register.ofName, String.toList_ofList, if_neg]
        rw [hhead]
        rintro heq
        cases heq
        cases hstart

theorem register_of_isRegister {t : List Char} (h : isRegister t = true) {tail : List Char}
    (htail : AtEnd tail) : register (t ++ tail) = .ok (.ofName (String.ofList t), tail) := by
  obtain ⟨r, hr⟩ := isRegister_iff.1 h
  have happend := register_append htail t
  rw [hr] at happend
  cases hregister : register (t ++ tail) with
  | error e => simp [hregister, Except.toOption] at happend
  | ok p =>
      rw [hregister] at happend
      have hp : p = (r, tail) := by simpa [Except.toOption, extend] using happend
      subst hp
      obtain ⟨n, hn, rfl, -⟩ := register_eq_ok hregister
      rw [List.append_cancel_right hn]

theorem isRegister_of_register {cs rest : List Char} {r : Register}
    (h : register cs = .ok (r, rest)) (hrest : AtEnd rest) :
    ∃ t, cs = t ++ rest ∧ isRegister t = true := by
  obtain ⟨t, rfl, -, -⟩ := takes_register h
  refine ⟨t, rfl, isRegister_iff.2 ⟨r, ?_⟩⟩
  have happend := register_append hrest t
  rw [h] at happend
  obtain ⟨p, hp, heq⟩ := Option.map_eq_some_iff.1 happend.symm
  rw [hp, extend_eq_iff.1 heq]

/-! ## The grammar of names -/

def IsVariableName (t : List Char) : Prop :=
  ∃ n, t = '$' :: n ∧ n ≠ [] ∧ ∀ c ∈ n, isNameChar c = true

def IsConstantName (t : List Char) : Prop :=
  ∃ c n, t = c :: n ∧ isNameStart c = true ∧ ∀ d ∈ n, isNameChar d = true

def IsRegisterName (t : List Char) : Prop := IsVariableName t ∨ IsConstantName t

theorem variableName_whole {t n : List Char} :
    variableName t = .ok (n, []) ↔ n = t ∧ IsVariableName t := by
  constructor
  · intro h
    unfold variableName at h
    split at h
    · rename_i rest
      dsimp only at h
      split at h
      · cases h
      · rename_i hne
        obtain ⟨hn, hrest⟩ := Prod.mk.inj (Except.ok.inj h)
        have hall := List.dropWhile_eq_nil_iff.1 hrest
        rw [List.takeWhile_eq_self_iff.2 hall] at hn hne
        exact ⟨hn.symm, rest, rfl, by simpa using hne, hall⟩
    · cases h
  · rintro ⟨rfl, m, rfl, hne, hall⟩
    rw [variableName, List.takeWhile_eq_self_iff.2 hall, List.dropWhile_eq_nil_iff.2 hall]
    exact if_neg (by simpa using hne)

theorem constantName_whole {t n : List Char} :
    constantName t = .ok (n, []) ↔ n = t ∧ IsConstantName t := by
  constructor
  · intro h
    unfold constantName at h
    split at h
    · cases h
    · rename_i c rest
      split at h
      · rename_i hstart
        obtain ⟨hn, hrest⟩ := Prod.mk.inj (Except.ok.inj h)
        have hall := List.dropWhile_eq_nil_iff.1 hrest
        rw [List.takeWhile_eq_self_iff.2 hall] at hn
        exact ⟨hn.symm, c, rest, rfl, hstart, hall⟩
      · cases h
  · rintro ⟨rfl, c, m, rfl, hstart, hall⟩
    rw [constantName, List.takeWhile_eq_self_iff.2 hall, List.dropWhile_eq_nil_iff.2 hall]
    exact if_pos hstart

theorem variableName_of_isConstantName {t : List Char} (h : IsConstantName t) :
    ∃ e, variableName t = .error e := by
  obtain ⟨c, n, rfl, hstart, -⟩ := h
  unfold variableName
  split
  · rename_i heq
    obtain ⟨rfl, -⟩ := List.cons.inj heq
    cases hstart
  · exact ⟨_, rfl⟩

theorem isRegister_iff_name {t : List Char} : isRegister t = true ↔ IsRegisterName t := by
  simp only [isRegister_iff, toOption_eq_some_iff]
  constructor
  · rintro ⟨r, hr⟩
    unfold register at hr
    split at hr
    · rename_i hvariable
      cases hr
      exact .inl (variableName_whole.1 hvariable).2
    · cases hconstant : constantName t with
      | error e =>
          rw [hconstant] at hr
          cases hr
      | ok p =>
          obtain ⟨n, rest⟩ := p
          rw [hconstant] at hr
          cases hr
          exact .inr (constantName_whole.1 hconstant).2
  · rintro (h | h)
    · exact ⟨_, by rw [register, variableName_whole.2 ⟨rfl, h⟩]⟩
    · obtain ⟨e, he⟩ := variableName_of_isConstantName h
      exact ⟨_, by rw [register, he, constantName_whole.2 ⟨rfl, h⟩]; rfl⟩

/-! ## Operands -/

theorem isNameStart_iff {c : Char} : isNameStart c = true ↔
    (65 ≤ c.toNat ∧ c.toNat ≤ 90) ∨ (97 ≤ c.toNat ∧ c.toNat ≤ 122) ∨ c = '_' ∨ c = '.' := by
  have hupper : c.isUpper = true ↔ 65 ≤ c.toNat ∧ c.toNat ≤ 90 := decide_eq_true_iff
  have hlower : c.isLower = true ↔ 97 ≤ c.toNat ∧ c.toNat ≤ 122 := by
    rw [← decide_eq_true_iff (p := 97 ≤ c.toNat ∧ c.toNat ≤ 122), Bool.decide_and]
    exact .rfl
  have hstart : isNameStart c = ((c.isUpper || c.isLower) || c == '_' || c == '.') := rfl
  rw [hstart, Bool.or_eq_true, Bool.or_eq_true, Bool.or_eq_true, hupper, hlower, beq_iff_eq,
    beq_iff_eq, or_assoc, or_assoc]

theorem not_digit_of_start {c : Char} (h : c = '$' ∨ isNameStart c = true) :
    Text.isDecimalDigit c = false := by
  have hrange : ¬ ('0' ≤ c ∧ c ≤ '9') := by
    show ¬ (48 ≤ c.toNat ∧ c.toNat ≤ 57)
    rw [isNameStart_iff] at h
    rcases h with rfl | h | h | rfl | rfl
    · decide
    · omega
    · omega
    · decide
    · decide
  rw [Text.isDecimalDigit, Text.decimalDigit?, if_neg hrange]
  rfl

/-- No number starts as a register does. -/
theorem number?_eq_none {c : Char} (h : c = '$' ∨ isNameStart c = true) (rest : List Char) :
    number? w (c :: rest) = none := by
  have hdigit := not_digit_of_start h
  have hhex : hexNumber? w (c :: rest) = none := by
    unfold hexNumber?
    split
    · rename_i heq
      rw [(List.cons.inj heq).1] at hdigit
      cases hdigit
    · rfl
  have hnegative : negativeNumber? w (c :: rest) = none := by
    unfold negativeNumber?
    split
    · rename_i heq
      rw [(List.cons.inj heq).1] at h
      rcases h with h | h
      · cases h
      · cases h
    · rfl
  rw [number?, hhex, hnegative, decimalNumber?, List.takeWhile_cons_of_neg (by simp [hdigit])]
  rfl

theorem token?_of_isRegister {t : List Char} (h : isRegister t = true) :
    token? w t = some (.operand (.register (.ofName (String.ofList t))), []) := by
  have hregister := register_of_isRegister h (show AtEnd [] by simp [AtEnd])
  rw [List.append_nil] at hregister
  obtain ⟨n, hn, -, c, hhead, hc⟩ := register_eq_ok hregister
  rw [List.append_nil] at hn
  subst hn
  obtain ⟨rest, rfl⟩ := List.head?_eq_some_iff.1 hhead
  have hoperand : operand? w (c :: rest) =
      some (.register (.ofName (String.ofList (c :: rest))), []) := by
    rw [operand?, number?_eq_none hc, hregister]
  rw [token?.eq_def, hoperand]
  rfl

end Postmortem.Postfix
