import Postmortem.Postfix.Expr

/-!
# Reading postfix text

Expressions are read as tokens between blanks and kept on a stack: operands are pushed, operators
take theirs from it.  An expression, a rule or an assignment needs exactly one expression on the
stack in the end.

```text
rules       ::= rule*
rule        ::= register ':' token*
assignments ::= (variable token* '=')*
token       ::= register | number | '+' | '-' | '*' | '/' | '%' | '@' | '^'
register    ::= '$' [a-zA-Z0-9_.]+ | [a-zA-Z_.] [a-zA-Z0-9_.]*
number      ::= '-'? [0-9]+ | '0x' [0-9a-fA-F]+
```
-/

set_option autoImplicit false

namespace Postmortem.Postfix

inductive Missing where
  /-- A certain character. -/
  | character
  /-- A character of a name. -/
  | nameCharacter
  /-- The first character of a name. -/
  | nameStart
  /-- The end of the text. -/
  | endOfText
  deriving DecidableEq, Repr

inductive ParseError.Cause where
  /-- An operator, or the end of an expression, lacks an operand. -/
  | notEnoughOperands
  /-- An assignment has several expressions. -/
  | severalInAssignment
  /-- There are several expressions where one belongs. -/
  | severalExpressions
  /-- Something else stands where this belongs. -/
  | missing (what : Missing)
  deriving DecidableEq, Repr

/-- A text that cannot be read: why, and what is left of it at the fault. -/
structure ParseError where
  cause : ParseError.Cause
  rest : List Char
  deriving DecidableEq, Repr

def ParseError.Cause.describe : ParseError.Cause → String
  | notEnoughOperands => "not enough operands on the stack"
  | severalInAssignment => "more than one expression on the stack in an assignment"
  | severalExpressions => "expected exactly one expression, found several (missing operator?)"
  | missing .character => "unexpected input: Char"
  | missing .nameCharacter => "unexpected input: TakeWhile1"
  | missing .nameStart => "unexpected input: Satisfy"
  | missing .endOfText => "unexpected input: End of file"

def ParseError.message (e : ParseError) : String :=
  "failed to parse \x60" ++ String.ofList e.rest ++ "\x60: " ++ e.cause.describe

/-- A value read from the front of a text and what is left, or why there is none. -/
abbrev Parsed (α : Type) := Except ParseError (α × List Char)

/-! ## Names and numbers -/

def isSpace (c : Char) : Bool := c == ' ' || c == '\t' || c == '\r' || c == '\n'

def skipSpace (cs : List Char) : List Char := cs.dropWhile isSpace

def isNameChar (c : Char) : Bool := c.isAlphanum || c == '_' || c == '.'

def isNameStart (c : Char) : Bool := c.isAlpha || c == '_' || c == '.'

def variableName : List Char → Parsed (List Char)
  | '$' :: rest =>
    let n := rest.takeWhile isNameChar
    if n.isEmpty then .error ⟨.missing .nameCharacter, rest⟩
    else .ok ('$' :: n, rest.dropWhile isNameChar)
  | cs => .error ⟨.missing .character, cs⟩

def constantName : List Char → Parsed (List Char)
  | [] => .error ⟨.missing .nameStart, []⟩
  | c :: rest =>
    if isNameStart c then .ok (c :: rest.takeWhile isNameChar, rest.dropWhile isNameChar)
    else .error ⟨.missing .nameStart, c :: rest⟩

def register (cs : List Char) : Parsed Register :=
  match variableName cs with
  | .ok (n, rest) => .ok (.var (String.ofList n), rest)
  | .error _ => (constantName cs).map fun (n, rest) => (.const (String.ofList n), rest)

def hexNumber? (w : Width) (cs : List Char) : Option (Word w × List Char) :=
  match cs with
  | '0' :: 'x' :: rest =>
    match Text.readHex? (rest.takeWhile Text.isHexDigit) with
    | some n =>
      if n < UInt64.size then some (BitVec.ofNat w.bits n, rest.dropWhile Text.isHexDigit) else none
    | none => none
  | _ => none

/-- Reads a number after a minus sign, which wraps around. -/
def negativeNumber? (w : Width) (cs : List Char) : Option (Word w × List Char) :=
  match cs with
  | '-' :: rest =>
    match Text.readDecimal? (rest.takeWhile Text.isDecimalDigit) with
    | some n =>
      if n ≤ 0x8000000000000000 then
        some (BitVec.ofInt w.bits (-(n : Int)), rest.dropWhile Text.isDecimalDigit)
      else none
    | none => none
  | _ => none

def decimalNumber? (w : Width) (cs : List Char) : Option (Word w × List Char) :=
  match Text.readDecimal? (cs.takeWhile Text.isDecimalDigit) with
  | some n =>
    if n < UInt64.size then some (BitVec.ofNat w.bits n, cs.dropWhile Text.isDecimalDigit) else none
  | none => none

/-- Reads a number.  It is cut down to the width of a word. -/
def number? (w : Width) (cs : List Char) : Option (Word w × List Char) :=
  match hexNumber? w cs with
  | some r => some r
  | none =>
    match negativeNumber? w cs with
    | some r => some r
    | none => decimalNumber? w cs

/-! ## Tokens -/

inductive Token (w : Width) where
  | operand (e : Expr w)
  | deref
  | op (o : BinOp)
  deriving DecidableEq, Repr

def atTokenEnd : List Char → Bool
  | [] => true
  | c :: _ => isSpace c

def operator? (w : Width) : Char → Option (Token w)
  | '^' => some .deref
  | '+' => some (.op .add)
  | '-' => some (.op .sub)
  | '*' => some (.op .mul)
  | '/' => some (.op .div)
  | '%' => some (.op .mod)
  | '@' => some (.op .align)
  | _ => none

def operand? (w : Width) (cs : List Char) : Option (Expr w × List Char) :=
  match number? w cs with
  | some (n, rest) => some (.value n, rest)
  | none =>
    match register cs with
    | .ok (r, rest) => some (.register r, rest)
    | .error _ => none

/-- Reads a token, behind which there must be a blank or the end. -/
def token? (w : Width) (cs : List Char) : Option (Token w × List Char) :=
  match (operand? w cs).filter fun p => atTokenEnd p.2 with
  | some (e, rest) => some (.operand e, rest)
  | none =>
    match cs with
    | [] => none
    | c :: rest => if atTokenEnd rest then (operator? w c).map (·, rest) else none

def Token.apply? {w : Width} : Token w → List (Expr w) → Option (List (Expr w))
  | operand e, stack => some (e :: stack)
  | deref, a :: stack => some (.deref a :: stack)
  | op o, b :: a :: stack => some (.op a b o :: stack)
  | _, _ => none

def startsRule (cs : List Char) : Bool :=
  match register cs with
  | .ok (_, ':' :: _) => true
  | _ => false

/-! ## Every token takes a character -/

theorem length_dropWhile_le {α : Type} (p : α → Bool) (l : List α) :
    (l.dropWhile p).length ≤ l.length :=
  (List.dropWhile_sublist p).length_le

theorem variableName_length_lt {cs n rest : List Char} (h : variableName cs = .ok (n, rest)) :
    rest.length < cs.length := by
  unfold variableName at h
  split at h
  · rename_i tail
    simp only at h
    split at h
    · cases h
    · cases h
      have := length_dropWhile_le isNameChar tail
      simp only [List.length_cons]
      omega
  · cases h

theorem constantName_length_lt {cs n rest : List Char} (h : constantName cs = .ok (n, rest)) :
    rest.length < cs.length := by
  unfold constantName at h
  split at h
  · cases h
  · rename_i c tail
    split at h
    · cases h
      have := length_dropWhile_le isNameChar tail
      simp only [List.length_cons]
      omega
    · cases h

theorem register_length_lt {cs rest : List Char} {r : Register}
    (h : register cs = .ok (r, rest)) : rest.length < cs.length := by
  unfold register at h
  split at h
  · rename_i hv
    cases h
    exact variableName_length_lt hv
  · cases hc : constantName cs with
    | error e => simp [hc, Except.map] at h
    | ok p =>
      obtain ⟨n, tail⟩ := p
      simp only [hc, Except.map, Except.ok.injEq, Prod.mk.injEq] at h
      obtain ⟨-, rfl⟩ := h
      exact constantName_length_lt hc

theorem decimalNumber?_length_lt {w : Width} {cs rest : List Char} {n : Word w}
    (h : decimalNumber? w cs = some (n, rest)) : rest.length < cs.length := by
  unfold decimalNumber? at h
  split at h
  · rename_i k hk
    split at h
    · cases h
      have hne : cs.takeWhile Text.isDecimalDigit ≠ [] := by
        intro he
        simp [he, Text.readDecimal?] at hk
      have hlen := congrArg List.length
        (List.takeWhile_append_dropWhile (p := Text.isDecimalDigit) (l := cs))
      have := List.length_pos_iff.2 hne
      simp only [List.length_append] at hlen
      omega
    · cases h
  · cases h

theorem hexNumber?_length_lt {w : Width} {cs rest : List Char} {n : Word w}
    (h : hexNumber? w cs = some (n, rest)) : rest.length < cs.length := by
  unfold hexNumber? at h
  split at h
  · rename_i tail
    split at h
    · split at h
      · cases h
        have := length_dropWhile_le Text.isHexDigit tail
        simp only [List.length_cons]
        omega
      · cases h
    · cases h
  · cases h

theorem negativeNumber?_length_lt {w : Width} {cs rest : List Char} {n : Word w}
    (h : negativeNumber? w cs = some (n, rest)) : rest.length < cs.length := by
  unfold negativeNumber? at h
  split at h
  · rename_i tail
    split at h
    · split at h
      · cases h
        have := length_dropWhile_le Text.isDecimalDigit tail
        simp only [List.length_cons]
        omega
      · cases h
    · cases h
  · cases h

theorem number?_length_lt {w : Width} {cs rest : List Char} {n : Word w}
    (h : number? w cs = some (n, rest)) : rest.length < cs.length := by
  unfold number? at h
  split at h
  · rename_i hx
    cases h
    exact hexNumber?_length_lt hx
  · split at h
    · rename_i hn
      cases h
      exact negativeNumber?_length_lt hn
    · exact decimalNumber?_length_lt h

theorem operand?_length_lt {w : Width} {cs rest : List Char} {e : Expr w}
    (h : operand? w cs = some (e, rest)) : rest.length < cs.length := by
  unfold operand? at h
  split at h
  · rename_i hn
    cases h
    exact number?_length_lt hn
  · split at h
    · rename_i hr
      cases h
      exact register_length_lt hr
    · cases h

theorem token?_length_lt {w : Width} {cs rest : List Char} {t : Token w}
    (h : token? w cs = some (t, rest)) : rest.length < cs.length := by
  unfold token? at h
  split at h
  · rename_i ho
    cases h
    exact operand?_length_lt (Option.filter_eq_some_iff.1 ho).1
  · split at h
    · cases h
    · split at h
      · obtain ⟨_, -, he⟩ := Option.map_eq_some_iff.1 h
        cases he
        simp
      · cases h

/-! ## Expressions, rules and assignments -/

/-- Reads tokens onto a stack, up to the end, the next rule, or what is no token. -/
def stackFrom (w : Width) (stopsAtRule : Bool) (cs : List Char) (stack : List (Expr w)) :
    Parsed (List (Expr w)) :=
  let here := skipSpace cs
  if here.isEmpty || (stopsAtRule && startsRule here) then .ok (stack, here)
  else
    match _h : token? w here with
    | none => .ok (stack, here)
    | some (t, rest) =>
      match t.apply? stack with
      | none => .error ⟨.notEnoughOperands, here⟩
      | some stack => stackFrom w stopsAtRule rest stack
termination_by cs.length
decreasing_by
  have h₁ := token?_length_lt _h
  have h₂ : here.length ≤ cs.length := length_dropWhile_le isSpace cs
  omega

def expressions (w : Width) (cs : List Char) : Parsed (List (Expr w)) :=
  (stackFrom w false cs []).map fun (stack, rest) => (stack.reverse, rest)

def single {w : Width} (several : ParseError.Cause) (stack : List (Expr w)) (rest : List Char) :
    Except ParseError (Expr w) :=
  match stack with
  | [] => .error ⟨.notEnoughOperands, rest⟩
  | [e] => .ok e
  | _ => .error ⟨several, rest⟩

def complete {α : Type} (p : Parsed α) : Except ParseError α := do
  let (a, rest) ← p
  if rest.isEmpty then return a else .error ⟨.missing .endOfText, rest⟩

def trimmed {α : Type} (p : Parsed α) : Parsed α := p.map fun (a, rest) => (a, skipSpace rest)

def character (c : Char) : List Char → Except ParseError (List Char)
  | [] => .error ⟨.missing .character, []⟩
  | d :: rest => if d = c then .ok rest else .error ⟨.missing .character, d :: rest⟩

def rule (w : Width) (cs : List Char) : Except ParseError (Rule w × List Char) := do
  let (r, rest) ← register (skipSpace cs)
  let rest ← character ':' rest
  let (stack, rest) ← stackFrom w true rest []
  let e ← single .severalExpressions stack rest
  return (⟨r, e⟩, rest)

def assignment (w : Width) (cs : List Char) :
    Except ParseError (Assignment w × List Char) := do
  let (v, rest) ← variableName (skipSpace cs)
  let (stack, rest) ← stackFrom w false rest []
  let e ← single .severalInAssignment stack rest
  let rest ← character '=' (skipSpace rest)
  return (⟨.var (String.ofList v), e, rfl⟩, rest)

theorem stackFrom_length_le {w : Width} {stops : Bool} {cs rest : List Char}
    {stack stack' : List (Expr w)} (h : stackFrom w stops cs stack = .ok (stack', rest)) :
    rest.length ≤ cs.length := by
  fun_induction stackFrom w stops cs stack with
  | case1 cs stack here _ =>
    simp only [Except.ok.injEq, Prod.mk.injEq] at h
    exact h.2 ▸ length_dropWhile_le isSpace cs
  | case2 cs stack here _ _ =>
    simp only [Except.ok.injEq, Prod.mk.injEq] at h
    exact h.2 ▸ length_dropWhile_le isSpace cs
  | case3 => cases h
  | case4 cs stack here _ t rest' ht _ _ ih =>
    have h₁ := token?_length_lt ht
    have h₂ : here.length ≤ cs.length := length_dropWhile_le isSpace cs
    have := ih h
    omega

theorem character_length_lt {c : Char} {cs rest : List Char} (h : character c cs = .ok rest) :
    rest.length < cs.length := by
  cases cs with
  | nil => cases h
  | cons d tail =>
    simp only [character] at h
    split at h
    · cases h
      simp
    · cases h

theorem bind_ok {ε α β : Type} {x : Except ε α} {f : α → Except ε β} {b : β}
    (h : x >>= f = .ok b) : ∃ a, x = .ok a ∧ f a = .ok b := by
  cases x with
  | error e => cases h
  | ok a => exact ⟨a, rfl, h⟩

theorem rule_length_lt {w : Width} {cs rest : List Char} {r : Rule w}
    (h : rule w cs = .ok (r, rest)) : rest.length < cs.length := by
  obtain ⟨⟨_, r₁⟩, h₁, h⟩ := bind_ok h
  obtain ⟨r₂, h₂, h⟩ := bind_ok h
  obtain ⟨⟨_, r₃⟩, h₃, h⟩ := bind_ok h
  obtain ⟨_, -, h⟩ := bind_ok h
  cases h
  have l₀ := length_dropWhile_le isSpace cs
  have l₁ := register_length_lt h₁
  have l₂ := character_length_lt h₂
  have l₃ := stackFrom_length_le h₃
  simp only [skipSpace] at l₁
  omega

theorem assignment_length_lt {w : Width} {cs rest : List Char} {a : Assignment w}
    (h : assignment w cs = .ok (a, rest)) : rest.length < cs.length := by
  obtain ⟨⟨_, r₁⟩, h₁, h⟩ := bind_ok h
  obtain ⟨⟨_, r₂⟩, h₂, h⟩ := bind_ok h
  obtain ⟨_, -, h⟩ := bind_ok h
  obtain ⟨r₃, h₃, h⟩ := bind_ok h
  cases h
  have l₀ := length_dropWhile_le isSpace cs
  have l₁ := variableName_length_lt h₁
  have l₂ := stackFrom_length_le h₂
  have l₃ := character_length_lt h₃
  have l₄ := length_dropWhile_le isSpace r₂
  simp only [skipSpace] at l₁ l₃
  omega

def rulesFrom (w : Width) (cs : List Char) : List (Rule w) × List Char :=
  match _h : rule w cs with
  | .error _ => ([], cs)
  | .ok (r, rest) =>
    let (rs, rest) := rulesFrom w rest
    (r :: rs, rest)
termination_by cs.length
decreasing_by exact rule_length_lt _h

/-- Reads assignments for as long as there are any, with the space behind them. -/
def assignmentsFrom (w : Width) (cs : List Char) : List (Assignment w) × List Char :=
  match _h : assignment w cs with
  | .error _ => ([], cs)
  | .ok (a, rest) =>
    let (as, rest) := assignmentsFrom w (skipSpace rest)
    (a :: as, rest)
termination_by cs.length
decreasing_by
  have h₁ := assignment_length_lt _h
  have h₂ := length_dropWhile_le isSpace rest
  simp only [skipSpace]
  omega

/-! ## Whole texts -/

def parseRegister (s : String) : Except ParseError Register := complete (register s.toList)

def parseExpr (w : Width) (s : String) : Except ParseError (Expr w) := do
  let stack ← complete (stackFrom w false s.toList [])
  single .severalExpressions stack []

def parseAssignment (w : Width) (s : String) : Except ParseError (Assignment w) :=
  complete (trimmed (assignment w s.toList))

def parseAssignments (w : Width) (s : String) : Except ParseError (List (Assignment w)) :=
  complete (.ok (assignmentsFrom w s.toList))

def parseRule (w : Width) (s : String) : Except ParseError (Rule w) :=
  complete (trimmed (rule w s.toList))

def parseRules (w : Width) (s : String) : Except ParseError (List (Rule w)) :=
  complete (trimmed (.ok (rulesFrom w s.toList)))

end Postmortem.Postfix
