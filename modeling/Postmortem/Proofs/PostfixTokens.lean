import Postmortem.Postfix.Parser
import Postmortem.Proofs.Blanks

/-!
# Tokens of postfix text

A token is read from its own characters alone: what stands behind its end does not matter, and the
width of a word matters only to the values of numbers.  No token has a blank or a colon in it.
-/

set_option autoImplicit false

namespace Postmortem.Postfix

open Text (AtBlank IsWord dropWhile_append_of_head isBlank takeWhile_append_of_head)

/-! ## Characters of tokens -/

def isTokenChar (c : Char) : Bool :=
  isNameChar c || c == '$' || (operator? .w64 c).isSome

theorem isTokenChar_of_isNameChar {c : Char} (h : isNameChar c = true) :
    isTokenChar c = true := by
  simp [isTokenChar, h]

theorem isTokenChar_of_isNameStart {c : Char} (h : isNameStart c = true) :
    isTokenChar c = true := by
  apply isTokenChar_of_isNameChar
  simp only [isNameStart, isNameChar, Char.isAlphanum, Bool.or_eq_true] at *
  rcases h with (h | h) | h
  · exact .inl (.inl (.inl h))
  · exact .inl (.inr h)
  · exact .inr h

/-- The characters of names by their numbers. -/
theorem isNameChar_iff {c : Char} : isNameChar c = true ↔
    (65 ≤ c.toNat ∧ c.toNat ≤ 90) ∨ (97 ≤ c.toNat ∧ c.toNat ≤ 122) ∨
      (48 ≤ c.toNat ∧ c.toNat ≤ 57) ∨ c = '_' ∨ c = '.' := by
  have hupper : c.isUpper = true ↔ 65 ≤ c.toNat ∧ c.toNat ≤ 90 := decide_eq_true_iff
  have hlower : c.isLower = true ↔ 97 ≤ c.toNat ∧ c.toNat ≤ 122 := by
    rw [← decide_eq_true_iff (p := 97 ≤ c.toNat ∧ c.toNat ≤ 122), Bool.decide_and]
    exact .rfl
  have hdigit : c.isDigit = true ↔ 48 ≤ c.toNat ∧ c.toNat ≤ 57 := by
    rw [← decide_eq_true_iff (p := 48 ≤ c.toNat ∧ c.toNat ≤ 57), Bool.decide_and]
    exact .rfl
  have hname : isNameChar c =
      (((c.isUpper || c.isLower) || c.isDigit) || c == '_' || c == '.') := rfl
  rw [hname, Bool.or_eq_true, Bool.or_eq_true, Bool.or_eq_true, Bool.or_eq_true, hupper, hlower,
    hdigit, beq_iff_eq, beq_iff_eq, or_assoc, or_assoc, or_assoc]

theorem isTokenChar_of_isHexDigit {c : Char} (h : Text.isHexDigit c = true) :
    isTokenChar c = true := by
  apply isTokenChar_of_isNameChar
  rw [isNameChar_iff]
  rw [Text.isHexDigit, Text.hexDigit?] at h
  split at h
  · rename_i hdigit
    exact .inr (.inr (.inl hdigit))
  · split at h
    · rename_i hlower
      exact .inr (.inl ⟨hlower.1, Nat.le_trans hlower.2 (by decide)⟩)
    · split at h
      · rename_i hupper
        exact .inl ⟨hupper.1, Nat.le_trans hupper.2 (by decide)⟩
      · cases h

theorem isTokenChar_of_isDecimalDigit {c : Char} (h : Text.isDecimalDigit c = true) :
    isTokenChar c = true := by
  apply isTokenChar_of_isHexDigit
  rw [Text.isDecimalDigit, Text.decimalDigit?] at h
  split at h
  · rename_i hdigit
    rw [Text.isHexDigit, Text.hexDigit?, if_pos hdigit]
    rfl
  · cases h

theorem isTokenChar_of_operator? {w : Width} {c : Char} {t : Token w}
    (h : operator? w c = some t) : isTokenChar c = true := by
  unfold operator? at h
  split at h
  all_goals first | decide | cases h

theorem bounds_of_isTokenChar {c : Char} (h : isTokenChar c = true) :
    0x21 ≤ c.toNat ∧ c.toNat ≤ 0x7e ∧ c ≠ ':' := by
  rw [isTokenChar, Bool.or_eq_true, Bool.or_eq_true] at h
  rcases h with (hname | hdollar) | hsign
  · have hcolon : c = ':' → c.toNat = 58 := by
      rintro rfl
      rfl
    rcases isNameChar_iff.1 hname with h | h | h | rfl | rfl
    · exact ⟨by omega, by omega, fun hc => by have := hcolon hc; omega⟩
    · exact ⟨by omega, by omega, fun hc => by have := hcolon hc; omega⟩
    · exact ⟨by omega, by omega, fun hc => by have := hcolon hc; omega⟩
    · decide
    · decide
  · have hc : c = '$' := by simpa using hdollar
    subst hc
    decide
  · unfold operator? at hsign
    split at hsign
    all_goals first | decide | cases hsign

theorem isBlank_of_isTokenChar {c : Char} (h : isTokenChar c = true) : isBlank c = false := by
  obtain ⟨hlow, hhigh, -⟩ := bounds_of_isTokenChar h
  simp only [isBlank, Bool.or_eq_false_iff, Bool.and_eq_false_iff, decide_eq_false_iff_not,
    beq_eq_false_iff_ne]
  omega

theorem isBlank_of_isSpace {c : Char} (h : isSpace c = true) : isBlank c = true := by
  simp only [isSpace, Bool.or_eq_true, beq_iff_eq] at h
  rcases h with ((rfl | rfl) | rfl) | rfl
  all_goals decide

theorem isSpace_of_isTokenChar {c : Char} (h : isTokenChar c = true) : isSpace c = false := by
  cases hspace : isSpace c with
  | false => rfl
  | true =>
      have hblank := isBlank_of_isSpace hspace
      rw [isBlank_of_isTokenChar h] at hblank
      cases hblank

def AtEnd (cs : List Char) : Prop := ∀ c ∈ cs.head?, isTokenChar c = false

theorem atEnd_of_atTokenEnd {cs : List Char} (h : atTokenEnd cs = true) : AtEnd cs := by
  intro c hc
  cases cs with
  | nil => simp at hc
  | cons d cs =>
      have hd : d = c := by simpa using hc
      subst hd
      cases htoken : isTokenChar d with
      | false => rfl
      | true =>
          rw [atTokenEnd, isSpace_of_isTokenChar htoken] at h
          cases h

theorem atBlank_of_atTokenEnd {cs : List Char} (h : atTokenEnd cs = true) : AtBlank cs := by
  intro c hc
  cases cs with
  | nil => simp at hc
  | cons d cs =>
      have hd : d = c := by simpa using hc
      subst hd
      exact isBlank_of_isSpace h

theorem AtEnd.head {p : Char → Bool} (hp : ∀ c, p c = true → isTokenChar c = true)
    {cs : List Char} (h : AtEnd cs) : ∀ c ∈ cs.head?, p c = false := by
  intro c hc
  cases hpc : p c with
  | false => rfl
  | true =>
      have := h c hc
      rw [hp c hpc] at this
      cases this

/-! ## What a token takes -/

/-- Whether a token stands between the start of a text and a place further on. -/
def Takes (cs rest : List Char) : Prop :=
  ∃ t, cs = t ++ rest ∧ t ≠ [] ∧ ∀ c ∈ t, isTokenChar c = true

theorem takes_of_dropWhile {p : Char → Bool} (hp : ∀ c, p c = true → isTokenChar c = true)
    (front : List Char) (hfront : front.all isTokenChar = true) (cs : List Char)
    (hne : front ≠ [] ∨ cs.takeWhile p ≠ []) : Takes (front ++ cs) (cs.dropWhile p) := by
  refine ⟨front ++ cs.takeWhile p, ?_, ?_, ?_⟩
  · rw [List.append_assoc, List.takeWhile_append_dropWhile]
  · intro hnil
    obtain ⟨h₁, h₂⟩ := List.append_eq_nil_iff.1 hnil
    rcases hne with h | h
    · exact h h₁
    · exact h h₂
  · intro c hc
    rcases List.mem_append.1 hc with hc | hc
    · exact List.all_eq_true.1 hfront c hc
    · exact hp c (List.mem_takeWhile_imp hc)

theorem takes_variableName {cs n rest : List Char} (h : variableName cs = .ok (n, rest)) :
    Takes cs rest := by
  unfold variableName at h
  split at h
  · rename_i tail
    simp only at h
    split at h
    · cases h
    · cases h
      exact takes_of_dropWhile (fun c => isTokenChar_of_isNameChar) ['$']
        rfl tail (.inl (by simp))
  · cases h

theorem takes_constantName {cs n rest : List Char} (h : constantName cs = .ok (n, rest)) :
    Takes cs rest := by
  unfold constantName at h
  split at h
  · cases h
  · rename_i c tail
    split at h
    · rename_i hc
      cases h
      refine takes_of_dropWhile (fun d => isTokenChar_of_isNameChar) [c] ?_ tail
        (.inl (by simp))
      rw [List.all_cons, isTokenChar_of_isNameStart hc]
      rfl
    · cases h

theorem takes_register {cs rest : List Char} {r : Register} (h : register cs = .ok (r, rest)) :
    Takes cs rest := by
  unfold register at h
  split at h
  · rename_i hv
    cases h
    exact takes_variableName hv
  · cases hc : constantName cs with
    | error e => simp [hc, Except.map] at h
    | ok p =>
        obtain ⟨n, tail⟩ := p
        simp only [hc, Except.map, Except.ok.injEq, Prod.mk.injEq] at h
        obtain ⟨-, rfl⟩ := h
        exact takes_constantName hc

theorem takes_hexNumber? {w : Width} {cs rest : List Char} {n : Word w}
    (h : hexNumber? w cs = some (n, rest)) : Takes cs rest := by
  unfold hexNumber? at h
  split at h
  · rename_i tail
    split at h
    · split at h
      · cases h
        exact takes_of_dropWhile (fun c => isTokenChar_of_isHexDigit) ['0', 'x'] rfl tail
          (.inl (by simp))
      · cases h
    · cases h
  · cases h

theorem takes_negativeNumber? {w : Width} {cs rest : List Char} {n : Word w}
    (h : negativeNumber? w cs = some (n, rest)) : Takes cs rest := by
  unfold negativeNumber? at h
  split at h
  · rename_i tail
    split at h
    · split at h
      · cases h
        exact takes_of_dropWhile (fun c => isTokenChar_of_isDecimalDigit) ['-'] rfl tail
          (.inl (by simp))
      · cases h
    · cases h
  · cases h

theorem takes_decimalNumber? {w : Width} {cs rest : List Char} {n : Word w}
    (h : decimalNumber? w cs = some (n, rest)) : Takes cs rest := by
  unfold decimalNumber? at h
  split at h
  · rename_i hdigits
    split at h
    · cases h
      refine takes_of_dropWhile (fun c => isTokenChar_of_isDecimalDigit) [] rfl cs (.inr ?_)
      intro hnil
      simp [hnil, Text.readDecimal?] at hdigits
    · cases h
  · cases h

theorem number?_eq (w : Width) (cs : List Char) :
    number? w cs =
      (hexNumber? w cs).or ((negativeNumber? w cs).or (decimalNumber? w cs)) := by
  rw [number?]
  cases hexNumber? w cs with
  | some p => rfl
  | none =>
      cases negativeNumber? w cs with
      | some p => rfl
      | none => rfl

theorem takes_number? {w : Width} {cs rest : List Char} {n : Word w}
    (h : number? w cs = some (n, rest)) : Takes cs rest := by
  rw [number?_eq, Option.or_eq_some_iff, Option.or_eq_some_iff] at h
  rcases h with h | ⟨-, h | ⟨-, h⟩⟩
  · exact takes_hexNumber? h
  · exact takes_negativeNumber? h
  · exact takes_decimalNumber? h

theorem takes_operand? {w : Width} {cs rest : List Char} {e : Expr w}
    (h : operand? w cs = some (e, rest)) : Takes cs rest := by
  unfold operand? at h
  split at h
  · rename_i hn
    cases h
    exact takes_number? hn
  · split at h
    · rename_i hr
      cases h
      exact takes_register hr
    · cases h

def operatorToken? (w : Width) : List Char → Option (Token w × List Char)
  | [] => none
  | c :: rest => if atTokenEnd rest then (operator? w c).map (·, rest) else none

theorem token?_eq (w : Width) (cs : List Char) :
    token? w cs =
      (((operand? w cs).filter fun p => atTokenEnd p.2).map fun p => (Token.operand p.1, p.2)).or
        (operatorToken? w cs) := by
  rw [token?.eq_def]
  cases (operand? w cs).filter fun p => atTokenEnd p.2 with
  | some p => rfl
  | none =>
      cases cs with
      | nil => rfl
      | cons c cs => rfl

theorem takes_operatorToken? {w : Width} {cs rest : List Char} {t : Token w}
    (h : operatorToken? w cs = some (t, rest)) : Takes cs rest ∧ atTokenEnd rest = true := by
  cases cs with
  | nil => cases h
  | cons c tail =>
      rw [operatorToken?] at h
      split at h
      · rename_i hend
        obtain ⟨k, hk, he⟩ := Option.map_eq_some_iff.1 h
        cases he
        refine ⟨⟨[c], rfl, by simp, ?_⟩, hend⟩
        intro d hd
        rw [List.mem_singleton.1 hd]
        exact isTokenChar_of_operator? hk
      · cases h

theorem takes_token? {w : Width} {cs rest : List Char} {t : Token w}
    (h : token? w cs = some (t, rest)) : Takes cs rest ∧ atTokenEnd rest = true := by
  rw [token?_eq, Option.or_eq_some_iff] at h
  rcases h with h | ⟨-, h⟩
  · obtain ⟨p, hp, he⟩ := Option.map_eq_some_iff.1 h
    cases he
    obtain ⟨hoperand, hend⟩ := Option.filter_eq_some_iff.1 hp
    exact ⟨takes_operand? hoperand, hend⟩
  · exact takes_operatorToken? h

theorem isWord_of_tokenChars {t : List Char} (hne : t ≠ [])
    (h : ∀ c ∈ t, isTokenChar c = true) : IsWord t :=
  ⟨hne, fun c hc => isBlank_of_isTokenChar (h c hc)⟩

/-! ## What stands behind a token -/

def extend {α : Type} (tail : List Char) (p : α × List Char) : α × List Char := (p.1, p.2 ++ tail)

theorem extend_eq_iff {α : Type} {tail : List Char} {p : α × List Char} {a : α} :
    extend tail p = (a, tail) ↔ p = (a, []) := by
  obtain ⟨b, rest⟩ := p
  simp [extend]

theorem ne_of_atEnd {c d : Char} {tail : List Char} (h : AtEnd (c :: tail))
    (hd : isTokenChar d = true) : c ≠ d := by
  rintro rfl
  have := h c rfl
  rw [hd] at this
  cases this

theorem variableName_append {tail : List Char} (h : AtEnd tail) (cs : List Char) :
    (variableName (cs ++ tail)).toOption = (variableName cs).toOption.map (extend tail) := by
  have hname := h.head (p := isNameChar) fun c => isTokenChar_of_isNameChar
  cases cs with
  | nil =>
      cases tail with
      | nil => rfl
      | cons c tail =>
          have hc : c ≠ '$' := ne_of_atEnd h (by decide)
          simp [variableName, hc]
          rfl
  | cons c cs =>
      by_cases hc : c = '$'
      · subst hc
        simp only [variableName, List.cons_append, takeWhile_append_of_head hname,
          dropWhile_append_of_head hname]
        split
        · rfl
        · rfl
      · simp [variableName, hc]
        rfl

theorem constantName_append {tail : List Char} (h : AtEnd tail) (cs : List Char) :
    (constantName (cs ++ tail)).toOption = (constantName cs).toOption.map (extend tail) := by
  have hname := h.head (p := isNameChar) fun c => isTokenChar_of_isNameChar
  cases cs with
  | nil =>
      cases tail with
      | nil => rfl
      | cons c tail =>
          have hc := h.head (p := isNameStart) (fun c => isTokenChar_of_isNameStart) c rfl
          simp [constantName, hc]
          rfl
  | cons c cs =>
      simp only [constantName, List.cons_append, takeWhile_append_of_head hname,
        dropWhile_append_of_head hname]
      split
      · rfl
      · rfl

theorem register_toOption (cs : List Char) :
    (register cs).toOption =
      ((variableName cs).toOption.map fun p => (Register.var (String.ofList p.1), p.2)).or
        ((constantName cs).toOption.map fun p => (Register.const (String.ofList p.1), p.2)) := by
  rw [register]
  cases variableName cs with
  | ok p => rfl
  | error e =>
      cases constantName cs with
      | ok p => rfl
      | error e => rfl

theorem register_append {tail : List Char} (h : AtEnd tail) (cs : List Char) :
    (register (cs ++ tail)).toOption = (register cs).toOption.map (extend tail) := by
  rw [register_toOption, register_toOption, variableName_append h, constantName_append h]
  cases (variableName cs).toOption with
  | some p => rfl
  | none =>
      cases (constantName cs).toOption with
      | some p => rfl
      | none => rfl

theorem decimalNumber?_append {w : Width} {tail : List Char} (h : AtEnd tail) (cs : List Char) :
    decimalNumber? w (cs ++ tail) = (decimalNumber? w cs).map (extend tail) := by
  have hdigit := h.head (p := Text.isDecimalDigit) fun c => isTokenChar_of_isDecimalDigit
  rw [decimalNumber?, decimalNumber?, takeWhile_append_of_head hdigit,
    dropWhile_append_of_head hdigit]
  split
  · split
    · rfl
    · rfl
  · rfl

theorem hexNumber?_append {w : Width} {tail : List Char} (h : AtEnd tail) (cs : List Char) :
    hexNumber? w (cs ++ tail) = (hexNumber? w cs).map (extend tail) := by
  have hdigit := h.head (p := Text.isHexDigit) fun c => isTokenChar_of_isHexDigit
  match cs with
  | [] =>
      cases tail with
      | nil => rfl
      | cons c tail =>
          have hc : c ≠ '0' := ne_of_atEnd h (by decide)
          simp [hexNumber?, hc]
  | [c] =>
      cases tail with
      | nil => simp [hexNumber?]
      | cons d tail =>
          have hd : d ≠ 'x' := ne_of_atEnd h (by decide)
          simp [hexNumber?, hd]
  | c :: d :: cs =>
      by_cases hcd : c = '0' ∧ d = 'x'
      · obtain ⟨rfl, rfl⟩ := hcd
        simp only [hexNumber?, List.cons_append, takeWhile_append_of_head hdigit,
          dropWhile_append_of_head hdigit]
        split
        · split
          · rfl
          · rfl
        · rfl
      · have hno : ∀ cs, hexNumber? w (c :: d :: cs) = none := by
          intro cs
          unfold hexNumber?
          split
          · rename_i heq
            simp only [List.cons.injEq] at heq
            exact absurd ⟨heq.1, heq.2.1⟩ hcd
          · rfl
        rw [List.cons_append, List.cons_append, hno, hno]
        rfl

theorem negativeNumber?_append {w : Width} {tail : List Char} (h : AtEnd tail)
    (cs : List Char) :
    negativeNumber? w (cs ++ tail) = (negativeNumber? w cs).map (extend tail) := by
  have hdigit := h.head (p := Text.isDecimalDigit) fun c => isTokenChar_of_isDecimalDigit
  cases cs with
  | nil =>
      cases tail with
      | nil => rfl
      | cons c tail =>
          have hc : c ≠ '-' := ne_of_atEnd h (by decide)
          simp [negativeNumber?, hc]
  | cons c cs =>
      by_cases hc : c = '-'
      · subst hc
        simp only [negativeNumber?, List.cons_append, takeWhile_append_of_head hdigit,
          dropWhile_append_of_head hdigit]
        split
        · split
          · rfl
          · rfl
        · rfl
      · simp [negativeNumber?, hc]

theorem number?_append {w : Width} {tail : List Char} (h : AtEnd tail) (cs : List Char) :
    number? w (cs ++ tail) = (number? w cs).map (extend tail) := by
  rw [number?_eq, number?_eq, hexNumber?_append h, negativeNumber?_append h,
    decimalNumber?_append h, Option.map_or, Option.map_or]

theorem operand?_eq (w : Width) (cs : List Char) :
    operand? w cs =
      ((number? w cs).map fun p => (Expr.value p.1, p.2)).or
        ((register cs).toOption.map fun p => (Expr.register p.1, p.2)) := by
  rw [operand?]
  cases number? w cs with
  | some p => rfl
  | none =>
      cases register cs with
      | ok p => rfl
      | error e => rfl

theorem operand?_append {w : Width} {tail : List Char} (h : AtEnd tail) (cs : List Char) :
    operand? w (cs ++ tail) = (operand? w cs).map (extend tail) := by
  rw [operand?_eq, operand?_eq, number?_append h, register_append h, Option.map_or]
  simp only [Option.map_map]
  rfl

theorem atTokenEnd_append {tail : List Char} (h : atTokenEnd tail = true) (cs : List Char) :
    atTokenEnd (cs ++ tail) = atTokenEnd cs := by
  cases cs with
  | nil => exact h
  | cons c cs => rfl

theorem operatorToken?_append {w : Width} {tail : List Char} (h : atTokenEnd tail = true)
    (cs : List Char) : operatorToken? w (cs ++ tail) = (operatorToken? w cs).map (extend tail) := by
  cases cs with
  | nil =>
      cases tail with
      | nil => rfl
      | cons c tail =>
          have hc : operator? w c = none := by
            cases hop : operator? w c with
            | none => rfl
            | some t =>
                have := isSpace_of_isTokenChar (isTokenChar_of_operator? hop)
                rw [atTokenEnd, this] at h
                cases h
          simp [operatorToken?, hc]
  | cons c cs =>
      rw [List.cons_append, operatorToken?, operatorToken?, atTokenEnd_append h]
      split
      · rw [Option.map_map]
        rfl
      · rfl

/-- A token is read the same whatever stands behind its end. -/
theorem token?_append {w : Width} {tail : List Char} (h : atTokenEnd tail = true)
    (cs : List Char) : token? w (cs ++ tail) = (token? w cs).map (extend tail) := by
  have hoperand : (operand? w (cs ++ tail)).filter (fun p => atTokenEnd p.2) =
      ((operand? w cs).filter fun p => atTokenEnd p.2).map (extend tail) := by
    rw [operand?_append (atEnd_of_atTokenEnd h)]
    cases operand? w cs with
    | none => rfl
    | some p =>
        simp only [Option.map_some, Option.filter_some, extend, atTokenEnd_append h]
        split
        · rfl
        · rfl
  rw [token?_eq, token?_eq, hoperand, operatorToken?_append h, Option.map_or]
  simp only [Option.map_map]
  rfl

/-! ## What the width of a word does not change -/

theorem hexNumber?_width (w w' : Width) (cs : List Char) :
    (hexNumber? w cs).map Prod.snd = (hexNumber? w' cs).map Prod.snd := by
  unfold hexNumber?
  split
  · split
    · split
      · rfl
      · rfl
    · rfl
  · rfl

theorem negativeNumber?_width (w w' : Width) (cs : List Char) :
    (negativeNumber? w cs).map Prod.snd = (negativeNumber? w' cs).map Prod.snd := by
  unfold negativeNumber?
  split
  · split
    · split
      · rfl
      · rfl
    · rfl
  · rfl

theorem decimalNumber?_width (w w' : Width) (cs : List Char) :
    (decimalNumber? w cs).map Prod.snd = (decimalNumber? w' cs).map Prod.snd := by
  unfold decimalNumber?
  split
  · split
    · rfl
    · rfl
  · rfl

theorem number?_width (w w' : Width) (cs : List Char) :
    (number? w cs).map Prod.snd = (number? w' cs).map Prod.snd := by
  simp only [number?_eq, Option.map_or]
  rw [hexNumber?_width w w', negativeNumber?_width w w', decimalNumber?_width w w']

theorem operand?_width (w w' : Width) (cs : List Char) :
    (operand? w cs).map Prod.snd = (operand? w' cs).map Prod.snd := by
  have hoperand (w : Width) : (operand? w cs).map Prod.snd =
      ((number? w cs).map Prod.snd).or ((register cs).toOption.map Prod.snd) := by
    rw [operand?_eq, Option.map_or, Option.map_map, Option.map_map]
    rfl
  rw [hoperand w, hoperand w', number?_width w w']

def Token.arity {w : Width} : Token w → Nat
  | operand _ => 0
  | deref => 1
  | op _ => 2

def shape {w : Width} (p : Token w × List Char) : Nat × List Char := (p.1.arity, p.2)

theorem operatorToken?_width (w w' : Width) (cs : List Char) :
    (operatorToken? w cs).map shape = (operatorToken? w' cs).map shape := by
  have hsign (c : Char) : (operator? w c).map Token.arity = (operator? w' c).map Token.arity := by
    unfold operator?
    split
    all_goals rfl
  have hshape (w : Width) (c : Char) (rest : List Char) :
      ((operator? w c).map (·, rest)).map shape =
        ((operator? w c).map Token.arity).map (·, rest) := by
    rw [Option.map_map, Option.map_map]
    rfl
  cases cs with
  | nil => rfl
  | cons c rest =>
      rw [operatorToken?, operatorToken?]
      split
      · rw [hshape, hshape, hsign]
      · rfl

theorem token?_width (w w' : Width) (cs : List Char) :
    (token? w cs).map shape = (token? w' cs).map shape := by
  have hoperand (w : Width) :
      (((operand? w cs).filter fun p => atTokenEnd p.2).map
        fun p => (Token.operand p.1, p.2)).map shape =
        (((operand? w cs).map Prod.snd).filter atTokenEnd).map ((0, ·)) := by
    rw [Option.map_map, Option.filter_map, Option.map_map]
    rfl
  rw [token?_eq, token?_eq, Option.map_or, Option.map_or, hoperand w, hoperand w',
    operand?_width w w', operatorToken?_width w w']

end Postmortem.Postfix
