import Postmortem.Text.Blank

/-!
# Rule sets

The unwind rules in effect at one address, as text.  A program such as `.cfa: $rsp 16 + .ra: .cfa -8
+ ^` is split at blanks; a token that ends in a colon names the register of the rule that follows.
Applying a program replaces the rules of its registers and keeps all others.
-/

set_option autoImplicit false

namespace Postmortem.CfiCache

abbrev Token := List Char

/-- A rule as text: its register and the tokens of its expression. -/
structure TextRule where
  register : Token
  expr : List Token
  deriving DecidableEq, Repr

namespace TextRule

/-- The register that a token names at the start of a rule. -/
def register? (t : Token) : Option Token :=
  if t.getLast? = some ':' ∧ 1 < t.length then some t.dropLast else none

/-- The tokens before the first rule, and the rules. -/
def split : List Token → List Token × List TextRule
  | [] => ([], [])
  | t :: rest =>
    let (expr, rules) := split rest
    match register? t with
    | some register => ([], ⟨register, expr⟩ :: rules)
    | none => (t :: expr, rules)

def chars (r : TextRule) : List Char :=
  r.register ++ ':' :: ' ' :: List.intercalate [' '] r.expr

end TextRule

/-- The rules in effect at one address, in the order in which their registers first had one. -/
structure RuleSet where
  rules : List TextRule := []
  deriving DecidableEq, Repr, Inhabited

namespace RuleSet

def put (r : TextRule) : List TextRule → List TextRule
  | [] => [r]
  | q :: rest => if q.register = r.register then r :: rest else q :: put r rest

def apply (s : RuleSet) (program : String) : RuleSet :=
  ⟨(TextRule.split (Text.splitBlanks program.toList)).2.foldl (fun rules r => put r rules) s.rules⟩

def parse (program : String) : RuleSet := apply {} program

def toText (s : RuleSet) : String :=
  String.ofList (List.intercalate [' '] (s.rules.map TextRule.chars))

end RuleSet

/-- The rules of a run of code: those at its start, and changes from later addresses on. -/
structure Program where
  init : String
  deltas : List (UInt64 × String) := []
  deriving DecidableEq, Repr, Inhabited

namespace Program

def fold (init : String) (deltas : List (UInt64 × String)) : RuleSet :=
  deltas.foldl (fun s d => s.apply d.2) (RuleSet.parse init)

def rulesAt (p : Program) (a : UInt64) : RuleSet :=
  fold p.init (p.deltas.takeWhile (·.1 ≤ a))

/-- The program of the code from `start` up to `stop`.  Earlier changes become part of its initial
rules. -/
def clip (p : Program) (start stop : UInt64) : Program where
  init := (fold p.init (p.deltas.filter (·.1 ≤ start))).toText
  deltas := p.deltas.filter fun d => start < d.1 && d.1 < stop

end Program

end Postmortem.CfiCache
