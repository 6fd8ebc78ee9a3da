import Mathlib.Data.List.Basic
import Postmortem.Proofs.Numerals

/-!
# The grammar of postfix text

The words of a text, which of them are tokens, and what tokens compute.  An expression is what the
tokens of a text leave on an empty stack: they spell it in postorder.
-/

set_option autoImplicit false

namespace Postmortem.Postfix

open Text (IsNumeral decimalDigit? hexDigit?)

variable {w : Width}

/-! ## Tokens -/

/-- Whether a text is a token, and which one. -/
inductive IsToken (w : Width) : List Char → Token w → Prop where
  | register {t : List Char} (name : IsRegisterName t) :
      IsToken w t (.operand (.register (.ofName (String.ofList t))))
  | decimal {t : List Char} {n : Nat} (digits : IsNumeral 10 decimalDigit? t n)
      (fits : n < 2 ^ 64) : IsToken w t (.operand (.value (BitVec.ofNat w.bits n)))
  | negative {t : List Char} {n : Nat} (digits : IsNumeral 10 decimalDigit? t n)
      (fits : n ≤ 2 ^ 63) :
      IsToken w ('-' :: t) (.operand (.value (BitVec.ofInt w.bits (-(n : Int)))))
  | hex {t : List Char} {n : Nat} (digits : IsNumeral 16 hexDigit? t n) (fits : n < 2 ^ 64) :
      IsToken w ('0' :: 'x' :: t) (.operand (.value (BitVec.ofNat w.bits n)))
  | deref : IsToken w ['^'] .deref
  | op (o : BinOp) : IsToken w [o.sign] (.op o)

theorem isToken_of_operand? {t : List Char} {e : Expr w} (h : operand? w t = some (e, [])) :
    IsToken w t (.operand e) := by
  rw [operand?_eq, Option.or_eq_some_iff] at h
  rcases h with h | ⟨-, h⟩
  · obtain ⟨⟨n, rest⟩, hn, heq⟩ := Option.map_eq_some_iff.1 h
    cases heq
    rcases number?_eq_some_iff.1 hn with ⟨ds, n, rfl, hds, hfits, rfl⟩ |
      ⟨ds, n, rfl, hds, hfits, rfl⟩ | ⟨n, ht, hfits, rfl⟩
    · exact .hex hds hfits
    · exact .negative hds hfits
    · exact .decimal ht hfits
  · obtain ⟨⟨r, rest⟩, hr, heq⟩ := Option.map_eq_some_iff.1 h
    cases heq
    have hregister := isRegister_iff.2 ⟨r, hr⟩
    have hown := register_of_isRegister hregister (show AtEnd [] by simp [AtEnd])
    rw [List.append_nil, ← toOption_eq_some_iff, hr] at hown
    obtain ⟨rfl, -⟩ := Prod.mk.inj (Option.some.inj hown)
    exact .register (isRegister_iff_name.1 hregister)

theorem isToken_of_operator? {c : Char} {k : Token w} (h : operator? w c = some k) :
    IsToken w [c] k := by
  unfold operator? at h
  split at h
  · cases h
    exact .deref
  · cases h
    exact .op .add
  · cases h
    exact .op .sub
  · cases h
    exact .op .mul
  · cases h
    exact .op .div
  · cases h
    exact .op .mod
  · cases h
    exact .op .align
  · cases h

/-- A text is read as a token, with nothing left, just if it is that token. -/
theorem token?_eq_some_iff {t : List Char} {k : Token w} :
    token? w t = some (k, []) ↔ IsToken w t k := by
  constructor
  · intro h
    rw [token?_eq, Option.or_eq_some_iff] at h
    rcases h with h | ⟨-, h⟩
    · obtain ⟨⟨e, rest⟩, hp, heq⟩ := Option.map_eq_some_iff.1 h
      cases heq
      exact isToken_of_operand? (Option.filter_eq_some_iff.1 hp).1
    · cases t with
      | nil => cases h
      | cons c rest =>
          rw [operatorToken?] at h
          split at h
          · obtain ⟨k, hk, heq⟩ := Option.map_eq_some_iff.1 h
            cases heq
            exact isToken_of_operator? hk
          · cases h
  · intro h
    cases h with
    | register name => exact token?_of_isRegister (isRegister_iff_name.2 name)
    | decimal digits fits =>
        exact token?_of_number? (number?_eq_some_iff.2 (.inr (.inr ⟨_, digits, fits, rfl⟩)))
    | negative digits fits =>
        exact token?_of_number?
          (number?_eq_some_iff.2 (.inr (.inl ⟨_, _, rfl, digits, fits, rfl⟩)))
    | hex digits fits =>
        exact token?_of_number? (number?_eq_some_iff.2 (.inl ⟨_, _, rfl, digits, fits, rfl⟩))
    | deref => rfl
    | op o =>
        cases o
        all_goals rfl

theorem IsToken.tokenChars {t : List Char} {k : Token w} (h : IsToken w t k) :
    t ≠ [] ∧ ∀ c ∈ t, isTokenChar c = true := by
  obtain ⟨⟨u, hu, hne, hchars⟩, -⟩ := takes_token? (token?_eq_some_iff.2 h)
  rw [List.append_nil] at hu
  subst hu
  exact ⟨hne, hchars⟩

/-! ## Words -/

def words (cs : List Char) : List (List Char) :=
  (cs.splitOnP isSpace).filter fun t => !t.isEmpty

theorem words_space {c : Char} (h : isSpace c = true) (cs : List Char) :
    words (c :: cs) = words cs := by
  have hsplit := List.splitOnP_append_cons [] cs h
  rw [List.nil_append, List.splitOnP_nil] at hsplit
  rw [words, hsplit]
  rfl

theorem words_append {tail : List Char} (h : atTokenEnd tail = true) (body : List Char) :
    words (body ++ tail) = words body ++ words tail := by
  cases tail with
  | nil => simp [words]
  | cons c tail =>
      have hspace : isSpace c = true := h
      rw [words_space hspace, words, List.splitOnP_append_cons _ _ hspace, List.filter_append]
      rfl

theorem words_of_solid {t : List Char} (hne : t ≠ []) (h : ∀ c ∈ t, isSpace c = false) :
    words t = [t] := by
  have hsplit : t.splitOnP isSpace = [t] := List.splitOnP_eq_singleton (by simpa using h)
  rw [words, hsplit]
  simp [hne]

theorem words_blank {space : List Char} (h : ∀ c ∈ space, isSpace c = true) (cs : List Char) :
    words (space ++ cs) = words cs := by
  induction space with
  | nil => rfl
  | cons c space ih =>
      rw [List.cons_append, words_space (h c (List.mem_cons_self ..))]
      exact ih fun d hd => h d (List.mem_cons_of_mem _ hd)

theorem isSpace_of_mem_takeWhile (cs : List Char) :
    ∀ c ∈ cs.takeWhile isSpace, isSpace c = true :=
  fun _ hc => List.mem_takeWhile_imp hc

theorem words_skipSpace (cs : List Char) : words (skipSpace cs) = words cs := by
  have hblank := words_blank (isSpace_of_mem_takeWhile cs) (skipSpace cs)
  rw [skipSpace, List.takeWhile_append_dropWhile] at hblank
  exact hblank.symm

/-- Joining words with spaces does not change them. -/
theorem words_intercalate {ts : List (List Char)}
    (h : ∀ t ∈ ts, t ≠ [] ∧ ∀ c ∈ t, isTokenChar c = true) :
    words (List.intercalate [' '] ts) = ts := by
  induction ts with
  | nil => rfl
  | cons t ts ih =>
      obtain ⟨⟨hne, hchars⟩, hts⟩ := List.forall_mem_cons.1 h
      have ht := words_of_solid hne fun c hc => isSpace_of_isTokenChar (hchars c hc)
      cases ts with
      | nil => rwa [List.intercalate_singleton]
      | cons u ts =>
          rw [List.intercalate_cons_cons, List.append_assoc, List.singleton_append,
            words_append rfl, words_space rfl, ih hts, ht, List.singleton_append]

theorem atTokenEnd_dropWhile (cs : List Char) :
    atTokenEnd (cs.dropWhile fun c => !isSpace c) = true := by
  have hnot := List.head?_dropWhile_not (fun c => !isSpace c) cs
  cases hdrop : cs.dropWhile fun c => !isSpace c with
  | nil => rfl
  | cons c rest =>
      rw [hdrop] at hnot
      have hspace : isSpace c = true := by simpa using hnot
      exact hspace

/-- A text is space, or its first word ends at a space or at the end of the text. -/
theorem words_cases (cs : List Char) : (skipSpace cs = [] ∧ words cs = []) ∨
    ∃ t rest, skipSpace cs = t ++ rest ∧ words cs = t :: words rest ∧
      atTokenEnd rest = true := by
  rw [← words_skipSpace]
  cases hcs : skipSpace cs with
  | nil => exact .inl ⟨rfl, rfl⟩
  | cons c here =>
      have hc : isSpace c = false := by
        have hnot := List.head?_dropWhile_not isSpace cs
        rw [show cs.dropWhile isSpace = c :: here from hcs] at hnot
        exact hnot
      have hend := atTokenEnd_dropWhile (c :: here)
      have hsplit := List.takeWhile_append_dropWhile (p := fun c => !isSpace c) (l := c :: here)
      refine .inr ⟨_, _, hsplit.symm, ?_, hend⟩
      have hne : (c :: here).takeWhile (fun c => !isSpace c) ≠ [] := by simp [hc]
      have hsolid : ∀ d ∈ (c :: here).takeWhile (fun c => !isSpace c), isSpace d = false := by
        intro d hd
        simpa using List.mem_takeWhile_imp hd
      rw [← hsplit, words_append hend, words_of_solid hne hsolid, hsplit]
      rfl

/-! ## Runs of tokens -/

def run (tokens : List (Token w)) (stack : List (Expr w)) : Option (List (Expr w)) :=
  tokens.foldlM (fun stack t => t.apply? stack) stack

theorem run_cons (t : Token w) (tokens : List (Token w)) (stack : List (Expr w)) :
    run (t :: tokens) stack = t.apply? stack >>= run tokens :=
  List.foldlM_cons

theorem run_append (tokens more : List (Token w)) (stack : List (Expr w)) :
    run (tokens ++ more) stack = run tokens stack >>= run more :=
  List.foldlM_append

theorem stackAfter?_eq_some_iff {ts : List (List Char)} {stack final : List (Expr w)} :
    stackAfter? w ts stack = some final ↔
      ∃ tokens, List.Forall₂ (IsToken w) ts tokens ∧ run tokens stack = some final := by
  induction ts generalizing stack with
  | nil => simp [stackAfter?, run]
  | cons t ts ih =>
      rw [stackAfter?_cons_eq_some_iff]
      constructor
      · rintro ⟨k, mid, hk, hmid, hrest⟩
        obtain ⟨tokens, htokens, hrun⟩ := ih.1 hrest
        refine ⟨k :: tokens, .cons (token?_eq_some_iff.1 hk) htokens, ?_⟩
        rw [run_cons, hmid]
        exact hrun
      · rintro ⟨_, htokens, hrun⟩
        cases htokens with
        | @cons _ k _ tokens hk htokens =>
            rw [run_cons, Option.bind_eq_bind, Option.bind_eq_some_iff] at hrun
            obtain ⟨mid, hmid, hrun⟩ := hrun
            exact ⟨k, mid, token?_eq_some_iff.2 hk, hmid, ih.2 ⟨tokens, htokens, hrun⟩⟩

def Expr.tokens : Expr w → List (Token w)
  | value n => [.operand (.value n)]
  | register r => [.operand (.register r)]
  | op a b o => a.tokens ++ b.tokens ++ [.op o]
  | deref a => a.tokens ++ [.deref]

/-- The tokens of an expression push it onto the stack. -/
theorem run_tokens (e : Expr w) (stack : List (Expr w)) : run e.tokens stack = some (e :: stack) := by
  induction e generalizing stack with
  | value n => rfl
  | register r => rfl
  | op a b o iha ihb =>
      rw [Expr.tokens, run_append, run_append, iha, Option.bind_eq_bind, Option.bind_some, ihb]
      rfl
  | deref a ih =>
      rw [Expr.tokens, run_append, ih]
      rfl

def Token.spelled : Token w → List (Token w)
  | operand e => e.tokens
  | deref => [.deref]
  | op o => [.op o]

def spelling (stack : List (Expr w)) : List (Token w) := stack.reverse.flatMap Expr.tokens

theorem spelling_apply? {t : Token w} {stack stack' : List (Expr w)}
    (h : t.apply? stack = some stack') : spelling stack' = spelling stack ++ t.spelled := by
  cases t with
  | operand e =>
      cases h
      simp [spelling, Token.spelled]
  | deref =>
      cases stack with
      | nil => cases h
      | cons a stack =>
          cases h
          simp [spelling, Token.spelled, Expr.tokens]
  | op o =>
      match stack, h with
      | b :: a :: stack, h =>
          cases h
          simp [spelling, Token.spelled, Expr.tokens]

theorem spelling_run {tokens : List (Token w)} {stack final : List (Expr w)}
    (h : run tokens stack = some final) :
    spelling final = spelling stack ++ tokens.flatMap Token.spelled := by
  induction tokens generalizing stack with
  | nil =>
      cases h
      simp
  | cons t tokens ih =>
      rw [run_cons, Option.bind_eq_bind, Option.bind_eq_some_iff] at h
      obtain ⟨mid, hmid, h⟩ := h
      rw [ih h, spelling_apply? hmid, List.flatMap_cons, List.append_assoc]

theorem IsToken.spelled {t : List Char} {k : Token w} (h : IsToken w t k) : k.spelled = [k] := by
  cases h
  all_goals rfl

theorem flatMap_spelled {ts : List (List Char)} {tokens : List (Token w)}
    (h : List.Forall₂ (IsToken w) ts tokens) : tokens.flatMap Token.spelled = tokens := by
  induction h with
  | nil => rfl
  | cons hk _ ih => rw [List.flatMap_cons, hk.spelled, ih, List.singleton_append]

/-! ## Expressions -/

/-- Whether the words of a text are tokens that leave just one expression. -/
def IsExpression (w : Width) (cs : List Char) (e : Expr w) : Prop :=
  ∃ tokens, List.Forall₂ (IsToken w) (words cs) tokens ∧ run tokens [] = some [e]

theorem isExpression_iff_stack {cs : List Char} {e : Expr w} :
    IsExpression w cs e ↔ stackAfter? w (words cs) [] = some [e] :=
  stackAfter?_eq_some_iff.symm

/-- The words of an expression spell it in postorder. -/
theorem isExpression_iff {cs : List Char} {e : Expr w} :
    IsExpression w cs e ↔ List.Forall₂ (IsToken w) (words cs) e.tokens := by
  constructor
  · rintro ⟨tokens, htokens, hrun⟩
    -- what is spelled never changes order on the stack, so the tokens themselves are the postorder
    have hspell := spelling_run hrun
    rw [flatMap_spelled htokens] at hspell
    have htokens' : e.tokens = tokens := by simpa [spelling] using hspell
    rwa [htokens']
  · intro h
    exact ⟨_, h, run_tokens e []⟩

theorem IsExpression.ne_nil {cs : List Char} {e : Expr w} (h : IsExpression w cs e) : cs ≠ [] := by
  rintro rfl
  obtain ⟨tokens, htokens, hrun⟩ := h
  cases htokens
  cases hrun

end Postmortem.Postfix
