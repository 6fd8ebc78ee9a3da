import Postmortem.Proofs.PostfixRegisters

/-!
# Heights of stacks

Whether an expression can be read depends on its tokens only through how many operands each takes:
the height of the stack decides whether a token has its operands, and not what lies on it.  So an
expression that can be read at one width can be read at the other.
-/

set_option autoImplicit false

namespace Postmortem.Postfix

open Text (AtBlank IsWord)

variable {w : Width} {stops : Bool}

theorem Token.length_apply? (t : Token w) (stack : List (Expr w)) :
    (Option.map List.length <| t.apply? stack) =
      if t.arity ≤ stack.length then some (stack.length - t.arity + 1) else none := by
  cases t with
  | operand e => exact (if_pos (Nat.zero_le _)).symm
  | deref =>
      cases stack with
      | nil => rfl
      | cons a stack => exact (if_pos (Nat.le_add_left 1 _)).symm
  | op o =>
      match stack with
      | [] => rfl
      | [a] => rfl
      | b :: a :: stack => exact (if_pos (Nat.le_add_left 2 _)).symm

def arity? (t : List Char) : Option Nat :=
  ((token? .w64 t).filter fun p => p.2.isEmpty).map fun p => p.1.arity

theorem arity?_eq_some_iff (w : Width) {t : List Char} {n : Nat} :
    arity? t = some n ↔ ∃ k : Token w, token? w t = some (k, []) ∧ k.arity = n := by
  have hshape : arity? t = some n ↔ (token? .w64 t).map shape = some (n, []) := by
    rw [arity?]
    cases token? .w64 t with
    | none => simp
    | some p =>
        obtain ⟨k, rest⟩ := p
        cases rest with
        | nil => simp [shape]
        | cons c rest => simp [shape]
  rw [hshape, token?_width .w64 w]
  cases token? w t with
  | none => simp
  | some p =>
      obtain ⟨k, rest⟩ := p
      simp only [Option.map_some, shape, Option.some.injEq, Prod.mk.injEq]
      constructor
      · rintro ⟨rfl, rfl⟩
        exact ⟨k, ⟨rfl, rfl⟩, rfl⟩
      · rintro ⟨_, ⟨rfl, rfl⟩, rfl⟩
        exact ⟨rfl, rfl⟩

/-- What a token takes from a text is the same token by itself. -/
theorem exists_token?_alone {cs rest : List Char} {k : Token w}
    (h : token? w cs = some (k, rest)) :
    ∃ t, cs = t ++ rest ∧ t ≠ [] ∧ (∀ c ∈ t, isTokenChar c = true) ∧
      token? w t = some (k, []) := by
  obtain ⟨⟨t, rfl, hne, hchars⟩, hend⟩ := takes_token? h
  refine ⟨t, rfl, hne, hchars, ?_⟩
  rw [token?_append hend] at h
  obtain ⟨p, hp, heq⟩ := Option.map_eq_some_iff.1 h
  rw [hp, extend_eq_iff.1 heq]

theorem tokenChars_of_arity? {t : List Char} {n : Nat} (h : arity? t = some n) :
    t ≠ [] ∧ ∀ c ∈ t, isTokenChar c = true := by
  obtain ⟨k, hk, -⟩ := (arity?_eq_some_iff .w64).1 h
  obtain ⟨⟨u, hu, hne, hchars⟩, -⟩ := takes_token? hk
  rw [List.append_nil] at hu
  subst hu
  exact ⟨hne, hchars⟩

def heightAfter? : List (List Char) → Nat → Option Nat
  | [], n => some n
  | t :: rest, n =>
    (arity? t).bind fun k => if k ≤ n then heightAfter? rest (n - k + 1) else none

theorem heightAfter?_cons_eq_some_iff {t : List Char} {rest : List (List Char)} {n m : Nat} :
    heightAfter? (t :: rest) n = some m ↔
      ∃ k, arity? t = some k ∧ k ≤ n ∧ heightAfter? rest (n - k + 1) = some m := by
  rw [heightAfter?, Option.bind_eq_some_iff]
  constructor
  · rintro ⟨k, hk, h⟩
    split at h
    · exact ⟨k, hk, ‹_›, h⟩
    · cases h
  · rintro ⟨k, hk, hle, h⟩
    exact ⟨k, hk, by rw [if_pos hle, h]⟩

theorem arity?_of_heightAfter? {tokens : List (List Char)} {n m : Nat}
    (h : heightAfter? tokens n = some m) : ∀ t ∈ tokens, ∃ k, arity? t = some k := by
  induction tokens generalizing n with
  | nil => simp
  | cons t tokens ih =>
      obtain ⟨k, hk, -, hrest⟩ := heightAfter?_cons_eq_some_iff.1 h
      intro u hu
      rcases List.mem_cons.1 hu with rfl | hu
      · exact ⟨k, hk⟩
      · exact ih hrest u hu

/-! ## Stacks -/

def stackAfter? (w : Width) : List (List Char) → List (Expr w) → Option (List (Expr w))
  | [], stack => some stack
  | t :: rest, stack =>
    ((token? w t).filter fun p => p.2.isEmpty).bind fun p =>
      Token.apply? p.1 stack |>.bind (stackAfter? w rest)

theorem stackAfter?_cons_eq_some_iff {t : List Char} {rest : List (List Char)}
    {stack stack' : List (Expr w)} :
    stackAfter? w (t :: rest) stack = some stack' ↔
      ∃ k mid, token? w t = some (k, []) ∧ k.apply? stack = some mid ∧
        stackAfter? w rest mid = some stack' := by
  rw [stackAfter?, Option.bind_eq_some_iff]
  constructor
  · rintro ⟨⟨k, left⟩, hk, h⟩
    obtain ⟨htoken, hleft⟩ := Option.filter_eq_some_iff.1 hk
    obtain ⟨mid, hmid, hrest⟩ := Option.bind_eq_some_iff.1 h
    have hleft : left = [] := List.isEmpty_iff.1 hleft
    subst hleft
    exact ⟨k, mid, htoken, hmid, hrest⟩
  · rintro ⟨k, mid, hk, hmid, h⟩
    refine ⟨(k, []), Option.filter_eq_some_iff.2 ⟨hk, rfl⟩, ?_⟩
    exact Option.bind_eq_some_iff.2 ⟨mid, hmid, h⟩

theorem stackAfter?_cons {t : List Char} {k : Token w} {stack mid : List (Expr w)}
    (hk : token? w t = some (k, [])) (happly : k.apply? stack = some mid)
    (rest : List (List Char)) : stackAfter? w (t :: rest) stack = stackAfter? w rest mid := by
  have hwhole : (token? w t).filter (fun p => p.2.isEmpty) = some (k, []) := by
    rw [hk]
    rfl
  rw [stackAfter?, hwhole, Option.bind_some, happly, Option.bind_some]

/-- The height of a stack tells whether there is one. -/
theorem exists_stackAfter? (w : Width) {tokens : List (List Char)} {stack : List (Expr w)} {n : Nat}
    (h : heightAfter? tokens stack.length = some n) :
    ∃ stack', stackAfter? w tokens stack = some stack' ∧ stack'.length = n := by
  induction tokens generalizing stack with
  | nil => exact ⟨stack, rfl, Option.some.inj h⟩
  | cons t tokens ih =>
      obtain ⟨k, hk, hle, hrest⟩ := heightAfter?_cons_eq_some_iff.1 h
      obtain ⟨token, htoken, rfl⟩ := (arity?_eq_some_iff w).1 hk
      have hlength := token.length_apply? stack
      rw [if_pos hle] at hlength
      obtain ⟨mid, hmid, hlen⟩ := Option.map_eq_some_iff.1 hlength
      rw [← hlen] at hrest
      obtain ⟨stack', hstack', hn⟩ := ih hrest
      exact ⟨stack', stackAfter?_cons_eq_some_iff.2 ⟨token, mid, htoken, hmid, hstack'⟩, hn⟩

theorem heightAfter?_of_stackAfter? {tokens : List (List Char)} {stack stack' : List (Expr w)}
    (h : stackAfter? w tokens stack = some stack') :
    heightAfter? tokens stack.length = some stack'.length := by
  induction tokens generalizing stack with
  | nil =>
      cases h
      rfl
  | cons t tokens ih =>
      obtain ⟨k, mid, hk, hmid, hrest⟩ := stackAfter?_cons_eq_some_iff.1 h
      have hlength := k.length_apply? stack
      rw [hmid, Option.map_some] at hlength
      split at hlength
      · rename_i hle
        rw [heightAfter?_cons_eq_some_iff]
        refine ⟨k.arity, (arity?_eq_some_iff w).2 ⟨k, hk, rfl⟩, hle, ?_⟩
        rw [← Option.some.inj hlength]
        exact ih hrest
      · cases hlength

/-! ## Reading onto a stack -/

theorem skipSpace_of_head {cs : List Char} (h : ∀ c ∈ cs.head?, isSpace c = false) :
    skipSpace cs = cs := by
  cases cs with
  | nil => rfl
  | cons c cs =>
      have hc := h c rfl
      simp [skipSpace, hc]

theorem skipSpace_token {t : List Char} (hne : t ≠ []) (h : ∀ c ∈ t, isTokenChar c = true)
    (tail : List Char) : skipSpace (t ++ tail) = t ++ tail := by
  apply skipSpace_of_head
  intro c hc
  cases t with
  | nil => exact absurd rfl hne
  | cons d t =>
      have hd : d = c := by simpa using hc
      subst hd
      exact isSpace_of_isTokenChar (h d (List.mem_cons_self ..))

theorem splitBlanks_skipSpace (cs : List Char) :
    Text.splitBlanks (skipSpace cs) = Text.splitBlanks cs := by
  have hspace : ∀ c ∈ cs.takeWhile isSpace, Text.isBlank c = true := by
    intro c hc
    exact isBlank_of_isSpace (List.mem_takeWhile_imp hc)
  have hsplit := Text.splitBlanks_blanks hspace (skipSpace cs)
  rw [skipSpace, List.takeWhile_append_dropWhile] at hsplit
  exact hsplit.symm

theorem stackFrom_skip {cs cs' : List Char} {stack : List (Expr w)}
    (h : skipSpace cs = skipSpace cs') :
    stackFrom w stops cs stack = stackFrom w stops cs' stack := by
  rw [stackFrom.eq_def, stackFrom.eq_def w stops cs', h]

theorem stackFrom_end {cs : List Char} {stack : List (Expr w)}
    (h : skipSpace cs = [] ∨ startsRule (skipSpace cs) = true) :
    stackFrom w true cs stack = .ok (stack, skipSpace cs) := by
  rw [stackFrom.eq_def, if_pos]
  rcases h with h | h
  · simp [h]
  · simp [h]

/-- No rule starts with a token of an expression. -/
theorem startsRule_token {t tail : List Char} (h : ∀ c ∈ t, isTokenChar c = true)
    (htail : atTokenEnd tail = true) : startsRule (t ++ tail) = false := by
  unfold startsRule
  split
  · rename_i r rest hregister
    have happend := register_append (atEnd_of_atTokenEnd htail) t
    rw [hregister] at happend
    obtain ⟨p, hp, heq⟩ := Option.map_eq_some_iff.1 happend.symm
    obtain ⟨r', left⟩ := p
    have hleft : left ++ tail = ':' :: rest := congrArg Prod.snd heq
    cases left with
    | nil =>
        rw [List.nil_append] at hleft
        subst hleft
        cases htail
    | cons c left =>
        have hc : c = ':' := by simpa using congrArg List.head? hleft
        subst hc
        cases ht : register t with
        | error e => simp [ht, Except.toOption] at hp
        | ok p =>
            rw [ht] at hp
            cases hp
            obtain ⟨u, rfl, -, -⟩ := takes_register ht
            have := (bounds_of_isTokenChar (h ':' (by simp))).2.2
            exact absurd rfl this
  · rfl

theorem stackFrom_token (stops : Bool) {t tail : List Char} {k : Token w}
    {stack stack' : List (Expr w)} (hk : token? w t = some (k, []))
    (happly : k.apply? stack = some stack') (htail : atTokenEnd tail = true) :
    stackFrom w stops (t ++ tail) stack = stackFrom w stops tail stack' := by
  obtain ⟨⟨u, hu, hne, hchars⟩, -⟩ := takes_token? hk
  rw [List.append_nil] at hu
  subst hu
  have htoken : token? w (t ++ tail) = some (k, tail) := by
    rw [token?_append htail, hk]
    rfl
  have hgoes : ¬ (((t ++ tail).isEmpty || (stops && startsRule (t ++ tail))) = true) := by
    rw [startsRule_token hchars htail]
    simp [hne]
  rw [stackFrom.eq_def, skipSpace_token hne hchars, if_neg hgoes]
  split
  · rename_i hnone
    rw [htoken] at hnone
    cases hnone
  · rename_i t' rest hsome
    rw [htoken] at hsome
    cases hsome
    rw [happly]

/-- What was read is made of tokens that have their operands. -/
theorem words_of_stackFrom {cs rest : List Char} {stack stack' : List (Expr w)}
    (h : stackFrom w stops cs stack = .ok (stack', rest)) :
    ∃ expr, Text.splitBlanks cs = expr ++ Text.splitBlanks rest ∧
      stackAfter? w expr stack = some stack' ∧ rest <:+ cs := by
  have hsuffix (cs : List Char) : skipSpace cs <:+ cs := List.dropWhile_suffix _
  fun_induction stackFrom w stops cs stack with
  | case1 cs stack here _ =>
      simp only [Except.ok.injEq, Prod.mk.injEq] at h
      obtain ⟨rfl, rfl⟩ := h
      exact ⟨[], (splitBlanks_skipSpace cs).symm, rfl, hsuffix cs⟩
  | case2 cs stack here _ _ =>
      simp only [Except.ok.injEq, Prod.mk.injEq] at h
      obtain ⟨rfl, rfl⟩ := h
      exact ⟨[], (splitBlanks_skipSpace cs).symm, rfl, hsuffix cs⟩
  | case3 => cases h
  | case4 cs stack here _ t tail ht stack₁ hstack ih =>
      obtain ⟨expr, hsplit, hexpr, hrest⟩ := ih h
      obtain ⟨u, hu, hne, hchars, htoken⟩ := exists_token?_alone ht
      have hend := atBlank_of_atTokenEnd (takes_token? ht).2
      have htail : tail <:+ cs := by
        have : tail <:+ here := ⟨u, hu.symm⟩
        exact this.trans (hsuffix cs)
      refine ⟨u :: expr, ?_, ?_, hrest.trans htail⟩
      · rw [← splitBlanks_skipSpace cs, show skipSpace cs = u ++ tail from hu,
          Text.splitBlanks_word (isWord_of_tokenChars hne hchars) hend, hsplit]
        rfl
      · rw [stackAfter?_cons htoken hstack, hexpr]

end Postmortem.Postfix
