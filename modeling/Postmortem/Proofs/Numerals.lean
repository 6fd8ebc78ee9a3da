import Mathlib.Data.Nat.Digits.Defs
import Postmortem.Proofs.PostfixStacks
import Postmortem.Proofs.RelatedLists

/-!
# Numerals

Which numbers digits stand for, and which texts are read as numbers.  The digits of a number stand
for it, and every signed 64-bit number is one token of postfix text.
-/

set_option autoImplicit false

namespace Postmortem

namespace Text

def IsNumeral (base : Nat) (digit? : Char → Option Nat) (cs : List Char) (n : Nat) : Prop :=
  cs ≠ [] ∧ ∃ values, List.Forall₂ (fun c v => digit? c = some v) cs values ∧
    n = Nat.ofDigits base values.reverse

section Readings

variable {base n : Nat} {digit? : Char → Option Nat} {cs : List Char}

theorem readDigitsFrom_eq_some_iff {value : Nat} :
    readDigitsFrom base digit? value cs = some n ↔
      ∃ values, List.Forall₂ (fun c v => digit? c = some v) cs values ∧
        n = value * base ^ cs.length + Nat.ofDigits base values.reverse := by
  induction cs generalizing value with
  | nil =>
      simp only [readDigitsFrom, Option.some.injEq, List.forall₂_nil_left_iff, exists_eq_left]
      simp [eq_comm]
  | cons c cs ih =>
      rw [readDigitsFrom]
      cases hc : digit? c with
      | none =>
          refine ⟨nofun, ?_⟩
          rintro ⟨_, hvalues, -⟩
          cases hvalues with
          | cons hv _ =>
              rw [hc] at hv
              cases hv
      | some d =>
          -- reading a digit moves what was read before one place up
          have hshift {values : List Nat}
              (h : List.Forall₂ (fun c v => digit? c = some v) cs values) :
              (value * base + d) * base ^ cs.length + Nat.ofDigits base values.reverse =
                value * base ^ (c :: cs).length + Nat.ofDigits base (d :: values).reverse := by
            rw [List.reverse_cons, Nat.ofDigits_append, Nat.ofDigits_singleton,
              List.length_reverse, ← h.length_eq, List.length_cons]
            ring
          simp only [ih]
          constructor
          · rintro ⟨values, hvalues, rfl⟩
            exact ⟨d :: values, .cons hc hvalues, hshift hvalues⟩
          · rintro ⟨_, hvalues, rfl⟩
            cases hvalues with
            | @cons _ v _ values hv hvalues =>
                obtain rfl := Option.some.inj (hc.symm.trans hv)
                exact ⟨values, hvalues, (hshift hvalues).symm⟩

theorem isNumeral_iff : IsNumeral base digit? cs n ↔
    (if cs.isEmpty then none else readDigitsFrom base digit? 0 cs) = some n := by
  cases cs with
  | nil => simp [IsNumeral]
  | cons c cs =>
      rw [if_neg (by simp), readDigitsFrom_eq_some_iff]
      simp [IsNumeral]

theorem readDecimal?_eq_some_iff : readDecimal? cs = some n ↔ IsNumeral 10 decimalDigit? cs n :=
  isNumeral_iff.symm

theorem readHex?_eq_some_iff : readHex? cs = some n ↔ IsNumeral 16 hexDigit? cs n :=
  isNumeral_iff.symm

theorem IsNumeral.isSome_digit (h : IsNumeral base digit? cs n) :
    ∀ c ∈ cs, (digit? c).isSome = true := by
  obtain ⟨-, values, hvalues, -⟩ := h
  intro c hc
  obtain ⟨v, -, hv⟩ := exists_right hvalues hc
  rw [hv]
  rfl

end Readings

/-! ## Digits of numbers -/

theorem decimalDigit?_of_isDigit {c : Char} (h : c.isDigit = true) :
    decimalDigit? c = some (c.toNat - '0'.toNat) := by
  rw [decimalDigit?, if_pos]
  exact Char.isDigit_iff_toNat.1 h

theorem readDigitsFrom_digits {cs : List Char} (h : ∀ c ∈ cs, c.isDigit = true) (value : Nat) :
    readDigitsFrom 10 decimalDigit? value cs = some (Nat.ofDigitChars 10 cs value) := by
  induction cs generalizing value with
  | nil => rfl
  | cons c cs ih =>
      have hc := decimalDigit?_of_isDigit (h c (List.mem_cons_self ..))
      have hcs := ih fun d hd => h d (List.mem_cons_of_mem _ hd)
      rw [readDigitsFrom, hc, Nat.ofDigitChars_cons, Nat.mul_comm 10]
      exact hcs _

theorem isDigit_of_mem_digits {c : Char} {n : Nat} (h : c ∈ digits 10 n) : c.isDigit = true :=
  Nat.isDigit_of_mem_toDigits (by decide) (by decide) h

/-- The digits of a number stand for it. -/
theorem isNumeral_digits (n : Nat) : IsNumeral 10 decimalDigit? (digits 10 n) n := by
  have hne : (digits 10 n).isEmpty = false := by
    rw [List.isEmpty_eq_false_iff]
    exact Nat.toDigits_ne_nil
  rw [isNumeral_iff, if_neg (by simp [hne]), readDigitsFrom_digits fun c => isDigit_of_mem_digits]
  exact congrArg some Nat.ofDigitChars_ten_toDigits

end Text

namespace Postfix

open Text (IsNumeral decimalDigit? hexDigit? readDecimal?_eq_some_iff readHex?_eq_some_iff)

variable {w : Width} {t : List Char} {x : Word w}

theorem hexNumber?_eq_some_iff : hexNumber? w t = some (x, []) ↔
    ∃ ds n, t = '0' :: 'x' :: ds ∧ IsNumeral 16 hexDigit? ds n ∧ n < UInt64.size ∧
      x = BitVec.ofNat w.bits n := by
  constructor
  · intro h
    unfold hexNumber? at h
    split at h
    · rename_i ds
      split at h
      · rename_i n hn
        split at h
        · rename_i hfits
          obtain ⟨rfl, hrest⟩ := Prod.mk.inj (Option.some.inj h)
          rw [List.takeWhile_eq_self_iff.2 (List.dropWhile_eq_nil_iff.1 hrest)] at hn
          exact ⟨ds, n, rfl, readHex?_eq_some_iff.1 hn, hfits, rfl⟩
        · cases h
      · cases h
    · cases h
  · rintro ⟨ds, n, rfl, hds, hfits, rfl⟩
    have hdigits : ∀ c ∈ ds, Text.isHexDigit c = true := hds.isSome_digit
    rw [hexNumber?, List.takeWhile_eq_self_iff.2 hdigits, List.dropWhile_eq_nil_iff.2 hdigits,
      readHex?_eq_some_iff.2 hds]
    exact if_pos hfits

theorem negativeNumber?_eq_some_iff : negativeNumber? w t = some (x, []) ↔
    ∃ ds n, t = '-' :: ds ∧ IsNumeral 10 decimalDigit? ds n ∧ n ≤ 0x8000000000000000 ∧
      x = BitVec.ofInt w.bits (-(n : Int)) := by
  constructor
  · intro h
    unfold negativeNumber? at h
    split at h
    · rename_i ds
      split at h
      · rename_i n hn
        split at h
        · rename_i hfits
          obtain ⟨rfl, hrest⟩ := Prod.mk.inj (Option.some.inj h)
          rw [List.takeWhile_eq_self_iff.2 (List.dropWhile_eq_nil_iff.1 hrest)] at hn
          exact ⟨ds, n, rfl, readDecimal?_eq_some_iff.1 hn, hfits, rfl⟩
        · cases h
      · cases h
    · cases h
  · rintro ⟨ds, n, rfl, hds, hfits, rfl⟩
    have hdigits : ∀ c ∈ ds, Text.isDecimalDigit c = true := hds.isSome_digit
    rw [negativeNumber?, List.takeWhile_eq_self_iff.2 hdigits, List.dropWhile_eq_nil_iff.2 hdigits,
      readDecimal?_eq_some_iff.2 hds]
    exact if_pos hfits

theorem decimalNumber?_eq_some_iff : decimalNumber? w t = some (x, []) ↔
    ∃ n, IsNumeral 10 decimalDigit? t n ∧ n < UInt64.size ∧ x = BitVec.ofNat w.bits n := by
  constructor
  · intro h
    unfold decimalNumber? at h
    split at h
    · rename_i n hn
      split at h
      · rename_i hfits
        obtain ⟨rfl, hrest⟩ := Prod.mk.inj (Option.some.inj h)
        rw [List.takeWhile_eq_self_iff.2 (List.dropWhile_eq_nil_iff.1 hrest)] at hn
        exact ⟨n, readDecimal?_eq_some_iff.1 hn, hfits, rfl⟩
      · cases h
    · cases h
  · rintro ⟨n, ht, hfits, rfl⟩
    have hdigits : ∀ c ∈ t, Text.isDecimalDigit c = true := ht.isSome_digit
    rw [decimalNumber?, List.takeWhile_eq_self_iff.2 hdigits, List.dropWhile_eq_nil_iff.2 hdigits,
      readDecimal?_eq_some_iff.2 ht]
    exact if_pos hfits

theorem hexNumber?_eq_none (h : ∀ c ∈ t, Text.isDecimalDigit c = true ∨ c = '-') :
    hexNumber? w t = none := by
  unfold hexNumber?
  split
  · rcases h 'x' (by simp) with hx | hx
    · cases hx
    · cases hx
  · rfl

theorem negativeNumber?_eq_none (h : ∀ c ∈ t, Text.isDecimalDigit c = true) :
    negativeNumber? w t = none := by
  unfold negativeNumber?
  split
  · have hminus := h '-' (by simp)
    cases hminus
  · rfl

/-- The texts that are read as a number, of any of the three forms. -/
theorem number?_eq_some_iff : number? w t = some (x, []) ↔
    (∃ ds n, t = '0' :: 'x' :: ds ∧ IsNumeral 16 hexDigit? ds n ∧ n < UInt64.size ∧
      x = BitVec.ofNat w.bits n) ∨
    (∃ ds n, t = '-' :: ds ∧ IsNumeral 10 decimalDigit? ds n ∧ n ≤ 0x8000000000000000 ∧
      x = BitVec.ofInt w.bits (-(n : Int))) ∨
    ∃ n, IsNumeral 10 decimalDigit? t n ∧ n < UInt64.size ∧ x = BitVec.ofNat w.bits n := by
  rw [number?_eq, ← hexNumber?_eq_some_iff, ← negativeNumber?_eq_some_iff,
    ← decimalNumber?_eq_some_iff]
  constructor
  · intro h
    rw [Option.or_eq_some_iff, Option.or_eq_some_iff] at h
    rcases h with h | ⟨-, h | ⟨-, h⟩⟩
    · exact .inl h
    · exact .inr (.inl h)
    · exact .inr (.inr h)
  · rintro (h | h | h)
    · rw [h]
      rfl
    · obtain ⟨ds, n, rfl, hds, -⟩ := negativeNumber?_eq_some_iff.1 h
      have hhex : hexNumber? w ('-' :: ds) = none := by
        apply hexNumber?_eq_none
        intro c hc
        rcases List.mem_cons.1 hc with rfl | hc
        · exact .inr rfl
        · exact .inl (hds.isSome_digit c hc)
      rw [hhex, h]
      rfl
    · obtain ⟨n, ht, -⟩ := decimalNumber?_eq_some_iff.1 h
      rw [hexNumber?_eq_none fun c hc => .inl (ht.isSome_digit c hc),
        negativeNumber?_eq_none ht.isSome_digit, h]
      rfl

theorem token?_of_number? (h : number? w t = some (x, [])) :
    token? w t = some (.operand (.value x), []) := by
  rw [token?.eq_def, operand?_eq, h]
  rfl

/-- A signed number is one token, an operand that stands for the number cut down to a word. -/
theorem token?_decimalInt (n : Int64) : token? w (Text.decimalInt n.toInt).toList =
    some (.operand (.value (BitVec.ofInt w.bits n.toInt)), []) := by
  have hlow := n.le_toInt
  have hhigh := n.toInt_lt
  apply token?_of_number?
  rw [number?_eq_some_iff]
  cases hn : n.toInt with
  | ofNat k =>
      have hk : k < UInt64.size := by
        rw [hn, Int.ofNat_eq_natCast] at hhigh
        simp only [UInt64.size]
        omega
      rw [Text.decimalInt, Text.decimal, String.toList_ofList, Int.ofNat_eq_natCast,
        BitVec.ofInt_natCast]
      exact .inr (.inr ⟨k, Text.isNumeral_digits k, hk, rfl⟩)
  | negSucc k =>
      have hk : k + 1 ≤ 0x8000000000000000 := by
        rw [hn] at hlow
        omega
      rw [Text.decimalInt, Text.decimal, String.toList_append, String.toList_ofList,
        String.toList_ofList]
      exact .inr (.inl ⟨_, k + 1, rfl, Text.isNumeral_digits (k + 1), hk, rfl⟩)

end Postfix

end Postmortem
