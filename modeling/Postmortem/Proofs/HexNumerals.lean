import Postmortem.Proofs.Numerals
import Postmortem.Text.Blank

/-!
# Numerals in base sixteen

The digits of a number, with any zeros before them and in either case, stand for it.
-/

set_option autoImplicit false

namespace Postmortem.Text

/-! ## The case of letters -/

theorem toLower_of_le {c : Char} (h : 128 ≤ c.toNat) : c.toLower = c := by
  have hnot : ¬ (c.val ≥ 'A'.val ∧ c.val ≤ 'Z'.val) := by
    rintro ⟨-, hle⟩
    have hle : c.toNat ≤ 90 := UInt32.le_iff_toNat_le.1 hle
    omega
  exact dif_neg hnot

theorem toUpper_of_le {c : Char} (h : 128 ≤ c.toNat) : c.toUpper = c := by
  have hnot : ¬ (c.val ≥ 'a'.val ∧ c.val ≤ 'z'.val) := by
    rintro ⟨-, hle⟩
    have hle : c.toNat ≤ 122 := UInt32.le_iff_toNat_le.1 hle
    omega
  exact dif_neg hnot

/-- What is true of each ASCII character and of all others is true. -/
theorem ascii_cases {P : Char → Prop} (hascii : ∀ n < 128, P (Char.ofNat n))
    (hbeyond : ∀ c : Char, 128 ≤ c.toNat → P c) (c : Char) : P c := by
  rcases Nat.lt_or_ge c.toNat 128 with hlt | hle
  · have hc := hascii c.toNat hlt
    rwa [Char.ofNat_toNat] at hc
  · exact hbeyond c hle

theorem toLower_toUpper (c : Char) : c.toUpper.toLower = c.toLower := by
  induction c using ascii_cases with
  | hascii n hn =>
      revert n
      decide
  | hbeyond c hc => rw [toUpper_of_le hc]

theorem hexDigit?_toLower (c : Char) : hexDigit? c.toLower = hexDigit? c := by
  induction c using ascii_cases with
  | hascii n hn =>
      revert n
      decide
  | hbeyond c hc => rw [toLower_of_le hc]

theorem isBlank_toLower (c : Char) : isBlank c.toLower = isBlank c := by
  induction c using ascii_cases with
  | hascii n hn =>
      revert n
      decide
  | hbeyond c hc => rw [toLower_of_le hc]

theorem le_toNat_toLower (c : Char) : 128 ≤ c.toLower.toNat ↔ 128 ≤ c.toNat := by
  induction c using ascii_cases with
  | hascii n hn =>
      revert n
      decide
  | hbeyond c hc => rw [toLower_of_le hc]

/-- A sign is the lowercase form of itself only. -/
theorem toLower_eq_iff {sign : Char} (h : sign = '+' ∨ sign = '-') (c : Char) :
    c.toLower = sign ↔ c = sign := by
  induction c using ascii_cases with
  | hascii n hn =>
      revert n
      rcases h with rfl | rfl
      · decide
      · decide
  | hbeyond c hc => rw [toLower_of_le hc]

theorem map_toLower_eq_some_iff {sign : Char} (h : sign = '+' ∨ sign = '-') {c : Option Char} :
    c.map Char.toLower = some sign ↔ c = some sign := by
  cases c with
  | none => simp
  | some c => rw [Option.map_some, Option.some.injEq, Option.some.injEq, toLower_eq_iff h]

theorem map_toLower_map_toUpper (cs : List Char) :
    (cs.map Char.toUpper).map Char.toLower = cs.map Char.toLower := by
  rw [List.map_map]
  exact List.map_congr_left fun c _ => toLower_toUpper c

/-! ## Readings -/

theorem readDigitsFrom_map_toLower (cs : List Char) (value : Nat) :
    readDigitsFrom 16 hexDigit? value (cs.map Char.toLower) =
      readDigitsFrom 16 hexDigit? value cs := by
  induction cs generalizing value with
  | nil => rfl
  | cons c cs ih =>
      rw [List.map_cons, readDigitsFrom, readDigitsFrom, hexDigit?_toLower]
      split
      · exact ih _
      · rfl

theorem readHex?_map_toLower (cs : List Char) : readHex? (cs.map Char.toLower) = readHex? cs := by
  rw [readHex?, readHex?, List.isEmpty_map, readDigitsFrom_map_toLower]

theorem readHex32?_of_head {cs : List Char} (h : cs.head? ≠ some '+') : readHex32? cs =
    (readHex? cs).bind fun n => if n < UInt32.size then some (UInt32.ofNat n) else none := by
  unfold readHex32?
  split
  · exact absurd rfl h
  · rfl

theorem readHex32?_map_toLower (cs : List Char) :
    readHex32? (cs.map Char.toLower) = readHex32? cs := by
  by_cases hplus : cs.head? = some '+'
  · obtain ⟨cs, rfl⟩ := List.head?_eq_some_iff.1 hplus
    have hread := readHex?_map_toLower cs
    rw [List.map_cons, (toLower_eq_iff (.inl rfl) '+').2 rfl, readHex32?, readHex32?, hread]
  · have hlower : (cs.map Char.toLower).head? ≠ some '+' := by
      rwa [List.head?_map, Ne, map_toLower_eq_some_iff (.inl rfl)]
    rw [readHex32?_of_head hplus, readHex32?_of_head hlower, readHex?_map_toLower]

theorem readHex32?_map_toUpper (cs : List Char) :
    readHex32? (cs.map Char.toUpper) = readHex32? cs := by
  rw [← readHex32?_map_toLower, map_toLower_map_toUpper, readHex32?_map_toLower]

/-! ## Digits of numbers -/

theorem hexDigit?_digitChar {d : Nat} (h : d < 16) : hexDigit? d.digitChar = some d := by
  have hall : ∀ d < 16, hexDigit? (Nat.digitChar d) = some d := by decide
  exact hall d h

section Readings

variable {base n d : Nat} {digit? : Char → Option Nat} {cs : List Char} {c : Char}

theorem isNumeral_singleton (h : digit? c = some d) : IsNumeral base digit? [c] d :=
  ⟨List.cons_ne_nil _ _, [d], .cons h .nil, by simp⟩

theorem IsNumeral.concat (h : IsNumeral base digit? cs n) (hc : digit? c = some d) :
    IsNumeral base digit? (cs ++ [c]) (n * base + d) := by
  obtain ⟨-, values, hvalues, rfl⟩ := h
  refine ⟨by simp, values ++ [d], List.rel_append hvalues (.cons hc .nil), ?_⟩
  rw [List.reverse_concat, Nat.ofDigits_cons]
  ring

theorem IsNumeral.zero_cons (h : IsNumeral base digit? cs n) (hc : digit? c = some 0) :
    IsNumeral base digit? (c :: cs) n := by
  obtain ⟨-, values, hvalues, rfl⟩ := h
  refine ⟨List.cons_ne_nil _ _, 0 :: values, .cons hc hvalues, ?_⟩
  rw [List.reverse_cons, Nat.ofDigits_append]
  simp

end Readings

theorem isNumeral_hexDigits (n : Nat) : IsNumeral 16 hexDigit? (digits 16 n) n := by
  induction n using Nat.strongRecOn with
  | ind n ih =>
      rw [digits, Nat.toDigits_eq_if (by decide)]
      split
      · rename_i hlt
        exact isNumeral_singleton (hexDigit?_digitChar hlt)
      · have hfront := ih (n / 16) (by omega)
        have hall := hfront.concat (hexDigit?_digitChar (Nat.mod_lt n (by decide)))
        rwa [Nat.div_add_mod'] at hall

theorem isNumeral_padZeros (width n : Nat) :
    IsNumeral 16 hexDigit? (padZeros width (digits 16 n)) n := by
  rw [padZeros]
  induction width - (digits 16 n).length with
  | zero => exact isNumeral_hexDigits n
  | succ k ih => exact ih.zero_cons rfl

theorem readHex?_padZeros (width n : Nat) : readHex? (padZeros width (digits 16 n)) = some n :=
  readHex?_eq_some_iff.2 (isNumeral_padZeros width n)

/-! ## Characters of numerals -/

def IsHex (cs : List Char) : Prop := ∀ c ∈ cs, isHexDigit c = true

theorem isHex_digits (n : Nat) : IsHex (digits 16 n) := (isNumeral_hexDigits n).isSome_digit

theorem isHex_padZeros (width n : Nat) : IsHex (padZeros width (digits 16 n)) :=
  (isNumeral_padZeros width n).isSome_digit

theorem toNat_lt_of_isHexDigit {c : Char} (h : isHexDigit c = true) : c.toNat < 128 := by
  by_contra hge
  have hnot (d : Char) (hd : d.toNat < 128) : ¬ c ≤ d := fun hle =>
    hge (Nat.lt_of_le_of_lt (UInt32.le_iff_toNat_le.1 hle) hd)
  rw [isHexDigit, hexDigit?, if_neg fun h => hnot '9' (by decide) h.2,
    if_neg fun h => hnot 'f' (by decide) h.2, if_neg fun h => hnot 'F' (by decide) h.2] at h
  cases h

theorem isBlank_of_isHexDigit {c : Char} (h : isHexDigit c = true) : isBlank c = false := by
  induction c using ascii_cases with
  | hascii n hn =>
      revert n
      decide
  | hbeyond c hc => exact absurd (toNat_lt_of_isHexDigit h) (Nat.not_lt.2 hc)

theorem ne_sign_of_isHexDigit {c : Char} (h : isHexDigit c = true) : c ≠ '+' ∧ c ≠ '-' := by
  constructor
  · rintro rfl
    cases h
  · rintro rfl
    cases h

theorem isHexDigit_toUpper (c : Char) : isHexDigit c.toUpper = isHexDigit c := by
  rw [isHexDigit, isHexDigit, ← hexDigit?_toLower c.toUpper, toLower_toUpper, hexDigit?_toLower]

theorem IsHex.map_toUpper {cs : List Char} (h : IsHex cs) : IsHex (cs.map Char.toUpper) := by
  intro c hc
  obtain ⟨d, hd, rfl⟩ := List.mem_map.1 hc
  rw [isHexDigit_toUpper]
  exact h d hd

theorem IsHex.append {cs ds : List Char} (hcs : IsHex cs) (hds : IsHex ds) : IsHex (cs ++ ds) :=
  List.forall_mem_append.2 ⟨hcs, hds⟩

theorem IsHex.ascii {cs : List Char} (h : IsHex cs) : ∀ c ∈ cs, c.toNat < 128 :=
  fun c hc => toNat_lt_of_isHexDigit (h c hc)

theorem IsHex.head?_ne {cs : List Char} (h : IsHex cs) {sign : Char}
    (hsign : sign = '+' ∨ sign = '-') : cs.head? ≠ some sign := by
  intro hhead
  have hne := ne_sign_of_isHexDigit (h sign (List.mem_of_mem_head? hhead))
  rcases hsign with rfl | rfl
  · exact hne.1 rfl
  · exact hne.2 rfl

/-- The digits of a 32-bit number are read as that number. -/
theorem readHex32?_padZeros (width : Nat) (n : UInt32) :
    readHex32? (padZeros width (digits 16 n.toNat)) = some n := by
  rw [readHex32?_of_head ((isHex_padZeros width n.toNat).head?_ne (.inl rfl)),
    readHex?_padZeros, Option.bind_some, if_pos n.toNat_lt, UInt32.ofNat_toNat]

theorem readHex32?_digits (n : UInt32) : readHex32? (digits 16 n.toNat) = some n := by
  have hread := readHex32?_padZeros 0 n
  rwa [padZeros, Nat.zero_sub, List.replicate_zero, List.nil_append] at hread

theorem length_hexDigits_le {n k : Nat} (hk : 0 < k) (h : n < 16 ^ k) :
    (digits 16 n).length ≤ k :=
  (Nat.length_toDigits_le_iff (by decide) hk).2 h

theorem length_padZeros {n k : Nat} (hk : 0 < k) (h : n < 16 ^ k) :
    (padZeros k (digits 16 n)).length = k := by
  rw [padZeros, List.length_append, List.length_replicate]
  exact Nat.sub_add_cancel (length_hexDigits_le hk h)

end Postmortem.Text
