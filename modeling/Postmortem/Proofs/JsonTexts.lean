import Postmortem.Json.Text
import Postmortem.Proofs.Blanks
import Postmortem.Proofs.HexNumerals

/-!
# Printed JSON values

A value of null, Booleans, integers, texts, arrays and objects is read back from the text that is
printed for it.
-/

set_option autoImplicit false

namespace Postmortem.Json

open Text (digits padZeros isDecimalDigit)

/-! ## Texts -/

section Texts

variable {fuel : Nat} {c letter : Char} {rest : List Char}

def withFirst (c : Char) (read : Option (Option (List Char) × List Char)) :
    Option (Option (List Char) × List Char) :=
  read.map fun p => (p.1.map (c :: ·), p.2)

theorem bind_eq_withFirst (c : Char) (read : Option (Option (List Char) × List Char)) :
    (do
      let (cs, rest) ← read
      return ((do return (← some c) :: (← cs)), rest)) = withFirst c read := by
  rcases read with _ | ⟨_ | cs, rest⟩
  · rfl
  · rfl
  · rfl

theorem stringTail_plain (hquote : c ≠ '"') (hbackslash : c ≠ '\\') (hcontrol : ¬ c.toNat < 0x20) :
    stringTail (fuel + 1) (c :: rest) = withFirst c (stringTail fuel rest) := by
  rw [stringTail.eq_def]
  dsimp only
  rw [if_neg hquote, if_neg hcontrol, if_neg hbackslash]
  exact bind_eq_withFirst c _

theorem stringTail_letter (h : escapeLetter? c = some letter) :
    stringTail (fuel + 1) ('\\' :: letter :: rest) = withFirst c (stringTail fuel rest) := by
  rw [stringTail.eq_def]
  dsimp only
  rw [if_neg (by decide), if_neg (by decide), if_pos rfl]
  unfold escapeLetter? at h
  split at h
  case h_8 => cases h
  all_goals
    cases h
    exact bind_eq_withFirst _ _

theorem unit?_padZeros {n : Nat} (h : n < 16 ^ 4) (rest : List Char) :
    unit? (padZeros 4 (digits 16 n) ++ rest) = some (n, rest) := by
  have hread := Text.readHex?_padZeros 4 n
  obtain ⟨a, b, c, d, hdigits⟩ := List.length_eq_four.1 (Text.length_padZeros (by decide) h)
  rw [hdigits] at hread ⊢
  simp only [List.cons_append, List.nil_append, unit?, hread, Option.map_some]

theorem stringTail_control (h : c.toNat < 0x20) :
    stringTail (fuel + 1) ('\\' :: 'u' :: (padZeros 4 (digits 16 c.toNat) ++ rest)) =
      withFirst c (stringTail fuel rest) := by
  rw [stringTail, if_neg (by decide), if_neg (by decide), if_pos rfl, unit?_padZeros (by omega),
    Option.bind_eq_bind, Option.bind_some]
  dsimp only
  rw [if_neg (by omega), if_neg (by omega), Char.ofNat_toNat]
  exact bind_eq_withFirst c _

/-- A character is read back from its escape. -/
theorem stringTail_escape (fuel : Nat) (c : Char) (rest : List Char) :
    stringTail (fuel + 1) (escape c ++ rest) = withFirst c (stringTail fuel rest) := by
  rw [escape]
  cases hletter : escapeLetter? c with
  | some letter => exact stringTail_letter hletter
  | none =>
      dsimp only
      split
      · rename_i hcontrol
        exact stringTail_control hcontrol
      · rename_i hcontrol
        have hquote : c ≠ '"' := by
          rintro rfl
          cases hletter
        have hbackslash : c ≠ '\\' := by
          rintro rfl
          cases hletter
        exact stringTail_plain hquote hbackslash hcontrol

theorem stringTail_printed {cs : List Char} (h : cs.length < fuel) (rest : List Char) :
    stringTail fuel (cs.flatMap escape ++ '"' :: rest) = some (some cs, rest) := by
  induction cs generalizing fuel with
  | nil =>
      cases fuel with
      | zero => exact absurd h (Nat.not_lt_zero _)
      | succ fuel => rfl
  | cons c cs ih =>
      cases fuel with
      | zero => exact absurd h (Nat.not_lt_zero _)
      | succ fuel =>
          rw [List.flatMap_cons, List.append_assoc, stringTail_escape,
            ih (Nat.lt_of_succ_lt_succ h)]
          rfl

theorem length_escape_pos (c : Char) : 0 < (escape c).length := by
  rw [escape]
  split
  · exact Nat.succ_pos _
  · split
    · exact Nat.succ_pos _
    · exact Nat.succ_pos _

theorem length_le_printString (s : String) : s.toList.length + 2 ≤ (printString s).length := by
  have hescaped (cs : List Char) : cs.length ≤ (cs.flatMap escape).length := by
    induction cs with
    | nil => exact Nat.le_refl _
    | cons c cs ih =>
        have hpos := length_escape_pos c
        rw [List.flatMap_cons, List.length_append, List.length_cons]
        omega
  have hle := hescaped s.toList
  rw [printString, List.length_append, List.length_cons, List.length_singleton]
  omega

/-- A text is read back behind its opening quote. -/
theorem stringAfterQuote_printed {s : String} (h : s.toList.length < fuel) (rest : List Char) :
    stringAfterQuote fuel (s.toList.flatMap escape ++ '"' :: rest) = some (str s, rest) := by
  rw [stringAfterQuote, stringTail_printed h]
  simp [String.ofList_toList]

end Texts

/-! ## Numbers -/

/-- Whether a text is at its end or goes on with what stands behind an item or a member. -/
def Closed (rest : List Char) : Prop := ∀ c ∈ rest.head?, c = ',' ∨ c = ']' ∨ c = '\x7d'

theorem Closed.not_digit {rest : List Char} (h : Closed rest) :
    ∀ c ∈ rest.head?, isDecimalDigit c = false := by
  intro c hc
  rcases h c hc with rfl | rfl | rfl
  · rfl
  · rfl
  · rfl

/-- Only zero has a zero as its first digit. -/
theorem eq_zero_of_head?_digits {n : Nat} (h : (digits 10 n).head? = some '0') : n = 0 := by
  induction n using Nat.strongRecOn with
  | ind n ih =>
      rw [digits, Nat.toDigits_eq_if (by decide)] at h
      split at h
      · rename_i hlt
        have hall : ∀ n < 10, [Nat.digitChar n].head? = some '0' → n = 0 := by decide
        exact hall n hlt h
      · rename_i hge
        rw [List.head?_append_of_ne_nil _ Nat.toDigits_ne_nil] at h
        have hzero := ih (n / 10) (by omega) h
        omega

theorem isDecimalDigit_of_mem_digits {n : Nat} : ∀ c ∈ digits 10 n, isDecimalDigit c = true :=
  (Text.isNumeral_digits n).isSome_digit

/-- A number is read by its sign and its digits. -/
theorem number?_of_digits {cs rest : List Char} {negative : Bool} {n : Nat}
    (hsign : (cs.head? == some '-') = negative)
    (hcs : (if negative then cs.drop 1 else cs) = digits 10 n ++ rest)
    (hn : negative = true → n ≠ 0) (h : Closed rest) :
    number? cs = some (int (if negative then -(n : Int) else n), rest) := by
  have hdigits := isDecimalDigit_of_mem_digits (n := n)
  have htake : (digits 10 n ++ rest).takeWhile isDecimalDigit = digits 10 n := by
    rw [Text.takeWhile_append_of_head h.not_digit, List.takeWhile_eq_self_iff.2 hdigits]
  have hdrop : (digits 10 n ++ rest).dropWhile isDecimalDigit = rest := by
    rw [Text.dropWhile_append_of_head h.not_digit, List.dropWhile_eq_nil_iff.2 hdigits]
    rfl
  -- Only zero itself begins with a zero, so its digits are not taken for padded ones.
  have hzero : ((digits 10 n).head? == some '0' && (digits 10 n).length != 1) = false := by
    rw [Bool.and_eq_false_imp]
    intro hhead
    rw [eq_zero_of_head?_digits (beq_iff_eq.1 hhead)]
    rfl
  have hread := Text.readDecimal?_eq_some_iff.2 (Text.isNumeral_digits n)
  have hreal : (negative && n == 0) = false := by
    rw [Bool.and_eq_false_imp]
    intro hnegative
    exact beq_eq_false_iff_ne.2 (hn hnegative)
  simp only [number?, hsign, hcs, htake, hdrop, hzero, hread, Bool.false_eq_true, if_false, bind,
    Option.bind_some]
  cases rest with
  | nil => simp [hreal]
  | cons c rest =>
      rcases h c rfl with rfl | rfl | rfl
      · simp [hreal]
      · simp [hreal]
      · simp [hreal]

theorem printInt_natCast (n : Nat) : printInt n = digits 10 n := String.toList_ofList

theorem printInt_negSucc (n : Nat) : printInt (.negSucc n) = '-' :: digits 10 (n + 1) := by
  rw [printInt, Text.decimalInt, Text.decimal, String.toList_append, String.toList_ofList,
    String.toList_ofList]
  rfl

/-- An integer is read back. -/
theorem number?_printInt (n : Int) {rest : List Char} (h : Closed rest) :
    number? (printInt n ++ rest) = some (int n, rest) := by
  cases n with
  | ofNat n =>
      rw [Int.ofNat_eq_natCast, printInt_natCast]
      have hsign : ((digits 10 n ++ rest).head? == some '-') = false := by
        have hne : digits 10 n ≠ [] := Nat.toDigits_ne_nil
        rw [List.head?_append_of_ne_nil _ hne, beq_eq_false_iff_ne]
        intro hminus
        exact absurd (isDecimalDigit_of_mem_digits _ (List.mem_of_mem_head? hminus)) (by decide)
      exact number?_of_digits hsign rfl nofun h
  | negSucc n =>
      rw [printInt_negSucc]
      exact number?_of_digits rfl rfl (fun _ => Nat.succ_ne_zero n) h

theorem length_printInt_pos (n : Int) : 0 < (printInt n).length := by
  cases n with
  | ofNat n =>
      rw [Int.ofNat_eq_natCast, printInt_natCast]
      exact Nat.length_toDigits_pos
  | negSucc n =>
      rw [printInt_negSucc]
      exact Nat.succ_pos _

/-! ## Values -/

mutual

def Plain : Json → Prop
  | null | bool _ | int _ | str _ => True
  | real | unpaired => False
  | arr items => AllPlain items
  | obj members => MembersPlain members

def AllPlain : List Json → Prop
  | [] => True
  | x :: xs => x.Plain ∧ AllPlain xs

def MembersPlain : List (String × Json) → Prop
  | [] => True
  | (_, x) :: xs => x.Plain ∧ MembersPlain xs

end

theorem allPlain_iff {l : List Json} : AllPlain l ↔ ∀ x ∈ l, x.Plain := by
  induction l with
  | nil => simp [AllPlain]
  | cons x xs ih => simp [AllPlain, ih]

theorem membersPlain_iff {l : List (String × Json)} : MembersPlain l ↔ ∀ m ∈ l, m.2.Plain := by
  induction l with
  | nil => simp [MembersPlain]
  | cons m xs ih =>
      obtain ⟨name, x⟩ := m
      simp [MembersPlain, ih]

/-- An integer begins with a minus sign or a digit. -/
theorem head?_printInt (n : Int) :
    ∀ c ∈ (printInt n).head?, c = '-' ∨ isDecimalDigit c = true := by
  intro c hc
  cases n with
  | ofNat n =>
      rw [Int.ofNat_eq_natCast, printInt_natCast] at hc
      exact .inr (isDecimalDigit_of_mem_digits c (List.mem_of_mem_head? hc))
  | negSucc n =>
      rw [printInt_negSucc] at hc
      exact .inl (Option.some.inj hc).symm

theorem isSpace_of_isDecimalDigit {c : Char} (h : isDecimalDigit c = true) :
    isSpace c = false := by
  have hnot : ¬ (c = ' ' ∨ c = '\t' ∨ c = '\n' ∨ c = '\r') := by
    rintro (rfl | rfl | rfl | rfl)
    all_goals cases h
  simpa [isSpace, not_or, and_assoc] using hnot

/-- What a value begins with is neither a space nor the end of an array. -/
theorem head?_print (j : Json) : ∃ c cs, j.print = c :: cs ∧ isSpace c = false ∧ c ≠ ']' := by
  unfold print
  split
  case h_4 n =>
    obtain ⟨c, cs, hcs⟩ := List.exists_cons_of_length_pos (length_printInt_pos n)
    have hhead := head?_printInt n
    rw [hcs] at hhead ⊢
    refine ⟨c, cs, rfl, ?_⟩
    rcases hhead c rfl with rfl | hdigit
    · exact ⟨rfl, by decide⟩
    · refine ⟨isSpace_of_isDecimalDigit hdigit, ?_⟩
      rintro rfl
      cases hdigit
  all_goals exact ⟨_, _, rfl, rfl, by decide⟩

theorem skipSpace_cons {c : Char} (hc : isSpace c = false) (cs : List Char) :
    skipSpace (c :: cs) = c :: cs := by
  rw [skipSpace, List.dropWhile_cons_of_neg (by simp [hc])]

theorem skipSpace_print (j : Json) (rest : List Char) :
    skipSpace (j.print ++ rest) = j.print ++ rest := by
  obtain ⟨c, cs, hcs, hc, -⟩ := head?_print j
  rw [hcs, List.cons_append, skipSpace_cons hc]

theorem closed_printItems (xs : List Json) (rest : List Char) : Closed (printItems xs ++ rest) := by
  cases xs <;> simp [printItems, Closed]

theorem closed_printMembers (xs : List (String × Json)) (rest : List Char) :
    Closed (printMembers xs ++ rest) := by
  cases xs <;> simp [printMembers, Closed]

section Steps

variable {fuel : Nat} {rest : List Char}

theorem parseValue?_int (n : Int) (hrest : Closed rest) :
    parseValue? (fuel + 1) (printInt n ++ rest) = some (int n, rest) := by
  have hskip := skipSpace_print (int n) rest
  have hhead : ∀ c ∈ (printInt n ++ rest).head?, c = '-' ∨ isDecimalDigit c = true := by
    rw [List.head?_append_of_ne_nil _ (List.ne_nil_of_length_pos (length_printInt_pos n))]
    exact head?_printInt n
  rw [print] at hskip
  unfold parseValue?
  dsimp only
  rw [hskip]
  split
  case h_7 => exact number?_printInt n hrest
  all_goals
    rename_i hcs
    rw [hcs] at hhead
    rcases hhead _ rfl with hminus | hdigit
    · cases hminus
    · cases hdigit

theorem parseValue?_str (s : String) (hfuel : s.toList.length < fuel) :
    parseValue? (fuel + 1) (printString s ++ rest) = some (str s, rest) := by
  rw [printString, List.append_assoc, List.cons_append, List.singleton_append, parseValue?]
  exact stringAfterQuote_printed hfuel rest

theorem parseValue?_arr {x : Json} {xs : List Json}
    (h : parseItems? fuel (x.print ++ (printItems xs ++ rest)) = some (x :: xs, rest)) :
    parseValue? (fuel + 1) ('[' :: (x.print ++ (printItems xs ++ rest))) =
      some (arr (x :: xs), rest) := by
  obtain ⟨c, cs, hcs, -, hne⟩ := head?_print x
  have hskip := skipSpace_print x (printItems xs ++ rest)
  rw [hcs, List.cons_append] at hskip h ⊢
  -- The first value is not taken for the bracket that would end an empty array.
  rw [parseValue?, skipSpace_cons rfl]
  simp [hskip, h, hne]

theorem parseValue?_obj {name : String} {x : Json} {xs : List (String × Json)}
    (h : parseMembers? fuel (printString name ++ ':' :: (x.print ++ (printMembers xs ++ rest))) =
      some (some ((name, x) :: xs), rest)) :
    parseValue? (fuel + 1) ('\x7b' :: (printString name ++ ':' ::
      (x.print ++ (printMembers xs ++ rest)))) = some (obj ((name, x) :: xs), rest) := by
  have hopen (cs : List Char) : parseValue? (fuel + 1) ('\x7b' :: '"' :: cs) =
      (parseMembers? fuel ('"' :: cs)).map fun p => ((p.1.map obj).getD unpaired, p.2) := by
    rw [parseValue?]
    rfl
  rw [printString, List.append_assoc, List.cons_append] at h ⊢
  rw [hopen, h]
  rfl

theorem parseItems?_step {x : Json} {xs : List Json}
    (hx : parseValue? fuel (x.print ++ (printItems xs ++ rest)) = some (x, printItems xs ++ rest))
    (hxs : ∀ y ys, xs = y :: ys →
      parseItems? fuel (y.print ++ (printItems ys ++ rest)) = some (y :: ys, rest)) :
    parseItems? (fuel + 1) (x.print ++ (printItems xs ++ rest)) = some (x :: xs, rest) := by
  rw [parseItems?, hx, Option.bind_eq_bind, Option.bind_some]
  cases xs with
  | nil => rfl
  | cons y ys =>
      have hcomma : printItems (y :: ys) ++ rest = ',' :: (y.print ++ (printItems ys ++ rest)) := by
        rw [printItems, List.cons_append, List.cons_append, List.append_assoc]
      rw [hcomma]
      simp [skipSpace_cons, isSpace, hxs y ys rfl]

theorem parseMembers?_step {name : String} {x : Json} {xs : List (String × Json)}
    (hname : name.toList.length < fuel)
    (hx : parseValue? fuel (x.print ++ (printMembers xs ++ rest)) =
      some (x, printMembers xs ++ rest))
    (hxs : ∀ other y ys, xs = (other, y) :: ys →
      parseMembers? fuel (printString other ++ ':' :: (y.print ++ (printMembers ys ++ rest))) =
        some (some ((other, y) :: ys), rest)) :
    parseMembers? (fuel + 1) (printString name ++ ':' :: (x.print ++ (printMembers xs ++ rest))) =
      some (some ((name, x) :: xs), rest) := by
  have hquote : printString name ++ ':' :: (x.print ++ (printMembers xs ++ rest)) =
      '"' :: (name.toList.flatMap escape ++
        '"' :: ':' :: (x.print ++ (printMembers xs ++ rest))) := by
    rw [printString, List.append_assoc, List.cons_append, List.singleton_append]
  have hkey := stringAfterQuote_printed hname (':' :: (x.print ++ (printMembers xs ++ rest)))
  rw [hquote, parseMembers?, skipSpace_cons rfl]
  cases xs with
  | nil =>
      have hclose : printMembers [] ++ rest = '\x7d' :: rest := rfl
      rw [hclose] at hx hkey ⊢
      simp [hkey, hx, skipSpace_cons, isSpace, text?]
  | cons m ys =>
      obtain ⟨other, y⟩ := m
      have hcomma : printMembers ((other, y) :: ys) ++ rest =
          ',' :: (printString other ++ ':' :: (y.print ++ (printMembers ys ++ rest))) := by
        simp only [printMembers, List.cons_append, List.append_assoc]
      rw [hcomma] at hx hkey ⊢
      simp [hkey, hx, hxs other y ys rfl, skipSpace_cons, isSpace, text?]

end Steps

mutual

/-- A value is read back from its text, whatever follows: each step of the reader takes a character
of the text at least, so the length of the text is fuel enough. -/
theorem parseValue?_print {j : Json} (hj : j.Plain) {fuel : Nat} (hfuel : j.print.length ≤ fuel)
    {rest : List Char} (hrest : Closed rest) :
    parseValue? fuel (j.print ++ rest) = some (j, rest) := by
  obtain ⟨c, cs, hcs, -⟩ := head?_print j
  obtain ⟨fuel, rfl⟩ : ∃ n, fuel = n + 1 := by
    rw [hcs, List.length_cons] at hfuel
    exact Nat.exists_eq_add_one_of_ne_zero (by omega)
  cases j with
  | null => rfl
  | bool b =>
      cases b with
      | false => rfl
      | true => rfl
  | int n =>
      rw [print]
      exact parseValue?_int n hrest
  | real => exact absurd hj (by simp [Plain])
  | unpaired => exact absurd hj (by simp [Plain])
  | str s =>
      rw [print] at hfuel ⊢
      have hlength := length_le_printString s
      exact parseValue?_str s (by omega)
  | arr items =>
      cases items with
      | nil => rfl
      | cons x xs =>
          rw [Plain, AllPlain] at hj
          rw [print, List.cons_append, List.length_cons, List.length_append] at hfuel
          rw [print, List.cons_append, List.cons_append, List.append_assoc]
          exact parseValue?_arr (parseItems?_print hj.1 hj.2 (by omega) rest)
  | obj members =>
      cases members with
      | nil => rfl
      | cons m xs =>
          obtain ⟨name, x⟩ := m
          rw [Plain, MembersPlain] at hj
          simp only [print, List.cons_append, List.length_cons, List.length_append] at hfuel
          simp only [print, List.cons_append, List.append_assoc]
          exact parseValue?_obj (parseMembers?_print hj.1 hj.2 (by omega) rest)
termination_by fuel

theorem parseItems?_print {x : Json} {xs : List Json} (hx : x.Plain) (hxs : AllPlain xs)
    {fuel : Nat} (hfuel : x.print.length + (printItems xs).length ≤ fuel) (rest : List Char) :
    parseItems? fuel (x.print ++ (printItems xs ++ rest)) = some (x :: xs, rest) := by
  obtain ⟨c, cs, hcs, -⟩ := head?_print x
  have hpos : 0 < x.print.length := by
    rw [hcs]
    exact Nat.succ_pos _
  obtain ⟨fuel, rfl⟩ : ∃ n, fuel = n + 1 := Nat.exists_eq_add_one_of_ne_zero (by omega)
  have hend : 0 < (printItems xs).length := by cases xs <;> simp [printItems]
  have hfirst : parseValue? fuel (x.print ++ (printItems xs ++ rest)) =
      some (x, printItems xs ++ rest) :=
    parseValue?_print hx (by omega) (closed_printItems xs rest)
  refine parseItems?_step hfirst ?_
  rintro y ys rfl
  rw [AllPlain] at hxs
  simp only [printItems, List.cons_append, List.length_cons, List.length_append] at hfuel
  exact parseItems?_print hxs.1 hxs.2 (by omega) rest
termination_by fuel

theorem parseMembers?_print {name : String} {x : Json} {xs : List (String × Json)} (hx : x.Plain)
    (hxs : MembersPlain xs) {fuel : Nat}
    (hfuel : (printString name).length + x.print.length + (printMembers xs).length < fuel)
    (rest : List Char) :
    parseMembers? fuel (printString name ++ ':' :: (x.print ++ (printMembers xs ++ rest))) =
      some (some ((name, x) :: xs), rest) := by
  have hname := length_le_printString name
  obtain ⟨fuel, rfl⟩ : ∃ n, fuel = n + 1 := Nat.exists_eq_add_one_of_ne_zero (by omega)
  have hfirst : parseValue? fuel (x.print ++ (printMembers xs ++ rest)) =
      some (x, printMembers xs ++ rest) :=
    parseValue?_print hx (by omega) (closed_printMembers xs rest)
  refine parseMembers?_step (by omega) hfirst ?_
  rintro other y ys rfl
  rw [MembersPlain] at hxs
  simp only [printMembers, List.cons_append, List.length_cons, List.length_append] at hfuel
  exact parseMembers?_print hxs.1 hxs.2 (by omega) rest
termination_by fuel

end

/-- A value is read back from its text. -/
theorem parse?_toText {j : Json} (h : j.Plain) : parse? j.toText = some j := by
  have hclosed : Closed [] := by simp [Closed]
  have hread : parseValue? (2 * j.print.length + 2) (j.print ++ []) = some (j, []) :=
    parseValue?_print h (by omega) hclosed
  rw [List.append_nil] at hread
  rw [parse?, toText, String.toList_ofList, Option.bind_eq_bind, hread]
  rfl

end Postmortem.Json
