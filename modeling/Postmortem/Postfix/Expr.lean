import Postmortem.SortedMap
import Postmortem.Text.Numeral

/-!
# Postfix expressions

Expressions over machine words in postfix form, such as `$rsp 8 +` or `.cfa -8 + ^`, as the rules
and assignments of unwind information use them.  `^` reads the word at an address, and `@` rounds
its first operand down to a multiple of the second.
-/

set_option autoImplicit false

namespace Postmortem.Postfix

inductive Width where
  | w32
  | w64
  deriving DecidableEq, Repr, Inhabited

def Width.bits : Width → Nat
  | w32 => 32
  | w64 => 64

def Width.bytes : Width → Nat
  | w32 => 4
  | w64 => 8

abbrev Word (w : Width) := BitVec w.bits

/-- A register.  Variables have a `$` in front of their name, which is part of it. -/
inductive Register where
  | var (name : String)
  | const (name : String)
  deriving DecidableEq, Repr, Inhabited

namespace Register

def name : Register → String
  | var n => n
  | const n => n

def isVariable : Register → Bool
  | var _ => true
  | const _ => false

def ofName (name : String) : Register :=
  if name.toList.head? = some '$' then var name else const name

def cfa : Register := const ".cfa"

def ra : Register := const ".ra"

/-- Whether the register is one of the two that no machine has. -/
def isPseudo (r : Register) : Bool := r == cfa || r == ra

def rank : Register → Nat
  | var _ => 0
  | const _ => 1

instance : Ord Register where
  compare := compareLex (compareOn rank) (compareOn name)

instance : Std.TransOrd Register :=
  inferInstanceAs (Std.TransCmp (compareLex (compareOn Register.rank) (compareOn Register.name)))

instance : Std.LawfulEqOrd Register where
  eq_of_compare {a b} h := by
    have h : (compareLex (compareOn rank) (compareOn name)) a b = .eq := h
    simp only [compareLex, Ordering.then_eq_eq, compareOn, Std.LawfulEqCmp.compare_eq_iff_eq] at h
    cases a <;> cases b <;> simp_all [rank, name]

end Register

inductive BinOp where
  | add
  | sub
  | mul
  | div
  | mod
  | align
  deriving DecidableEq, Repr, Inhabited

def BinOp.sign : BinOp → Char
  | add => '+'
  | sub => '-'
  | mul => '*'
  | div => '/'
  | mod => '%'
  | align => '@'

inductive Expr (w : Width) where
  | value (n : Word w)
  | register (r : Register)
  | op (left right : Expr w) (o : BinOp)
  | deref (address : Expr w)
  deriving DecidableEq, Repr

instance (w : Width) : Inhabited (Expr w) := ⟨.value 0⟩

def Expr.chars {w : Width} : Expr w → List Char
  | value n => Text.digits 10 n.toNat
  | register r => r.name.toList
  | op a b o => a.chars ++ ' ' :: b.chars ++ [' ', o.sign]
  | deref a => a.chars ++ [' ', '^']

def Expr.toText {w : Width} (e : Expr w) : String := String.ofList e.chars

structure Assignment (w : Width) where
  target : Register
  expr : Expr w
  isVariable : target.isVariable = true
  deriving DecidableEq

/-- The assignment of an expression to a register, if that is a variable. -/
def Assignment.make? {w : Width} (target : Register) (expr : Expr w) : Option (Assignment w) :=
  if h : target.isVariable = true then some ⟨target, expr, h⟩ else none

def Assignment.chars {w : Width} (a : Assignment w) : List Char :=
  a.target.name.toList ++ ' ' :: a.expr.chars ++ [' ', '=']

def Assignment.toText {w : Width} (a : Assignment w) : String := String.ofList a.chars

structure Rule (w : Width) where
  register : Register
  expr : Expr w
  deriving DecidableEq, Repr

def Rule.chars {w : Width} (r : Rule w) : List Char :=
  r.register.name.toList ++ ':' :: ' ' :: r.expr.chars

def formatRules {w : Width} (rules : List (Rule w)) : String :=
  String.ofList (List.intercalate [' '] (rules.map Rule.chars))

end Postmortem.Postfix
