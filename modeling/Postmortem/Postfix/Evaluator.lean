import Postmortem.Memory
import Postmortem.Postfix.Parser

/-!
# Evaluating postfix expressions

Values of expressions over registers and memory.  Assignments change the registers one after the
other.  The rules of a frame are evaluated together: the canonical frame address first, and all
others on the registers of the callee with that address known.
-/

set_option autoImplicit false

namespace Postmortem.Postfix

abbrev Registers (w : Width) := SortedMap Register (Word w)

inductive EvaluationError where
  | undefinedRegister (r : Register)
  | memoryUnavailable
  /-- A read of some bytes outside the region from `start` up to `stop`. -/
  | illegalAccess (address : UInt64) (bytes : Nat) (start stop : UInt64)
  | divisionByZero
  /-- Rules without one for the canonical frame address. -/
  | missingCfa
  deriving DecidableEq, Repr

def EvaluationError.message : EvaluationError → String
  | undefinedRegister r => "register " ++ r.name ++ " is not defined"
  | memoryUnavailable => "the evaluator does not have access to memory"
  | illegalAccess a n start stop =>
    "tried to read " ++ Text.decimal n ++ " bytes at address " ++ Text.hexPrefixed a.toNat ++
      ", available range is [" ++ Text.hexPrefixed start.toNat ++ ", " ++
      Text.hexPrefixed stop.toNat ++ ")"
  | divisionByZero => "division by zero"
  | missingCfa => "no rule for the canonical frame address"

inductive ProcessError where
  | parsing (e : ParseError)
  | evaluation (e : EvaluationError)
  deriving DecidableEq, Repr

def ProcessError.message : ProcessError → String
  | parsing _ => "error while parsing"
  | evaluation _ => "error while evaluating"

def ProcessError.cause : ProcessError → String
  | parsing e => e.message
  | evaluation e => e.message

structure Evaluator (w : Width) where
  memory : Option MemoryRegion := none
  registers : Registers w := .empty
  endian : Endian := .little

def BinOp.apply? {w : Width} (o : BinOp) (x y : Word w) : Option (Word w) :=
  match o with
  | add => some (x + y)
  | sub => some (x - y)
  | mul => some (x * y)
  | div => if y = 0 then none else some (x / y)
  | mod => if y = 0 then none else some (x % y)
  | align => if y = 0 then none else some (x / y * y)

namespace Evaluator

variable {w : Width}

def readWord (memory : Option MemoryRegion) (endian : Endian) (address : Word w) :
    Except EvaluationError (Word w) :=
  match memory with
  | none => .error .memoryUnavailable
  | some m =>
    let a := UInt64.ofNat address.toNat
    match m.read? endian w.bytes a with
    | some n => .ok (BitVec.ofNat w.bits n)
    | none => .error (.illegalAccess a w.bytes m.base m.stop)

def evaluate (ev : Evaluator w) : Expr w → Except EvaluationError (Word w)
  | .value n => .ok n
  | .register r =>
    match ev.registers.find? r with
    | some n => .ok n
    | none => .error (.undefinedRegister r)
  | .op a b o => do
    let x ← ev.evaluate a
    let y ← ev.evaluate b
    match o.apply? x y with
    | some z => .ok z
    | none => .error .divisionByZero
  | .deref a => do
    let x ← ev.evaluate a
    readWord ev.memory ev.endian x

def set (ev : Evaluator w) (r : Register) (value : Word w) : Evaluator w :=
  { ev with registers := ev.registers.insert r value }

/-- Carries out an assignment.  Tells whether the variable had a value before. -/
def assign (ev : Evaluator w) (a : Assignment w) :
    Except EvaluationError (Bool × Evaluator w) := do
  let value ← ev.evaluate a.expr
  return (ev.registers.contains a.target, ev.set a.target value)

/-- Carries out assignments up to the first one that fails.  Returns the error, if any, the
variables that were assigned, and the evaluator after the last assignment. -/
def assignAll (ev : Evaluator w) (changed : SortedMap Register Unit) :
    List (Assignment w) → Option EvaluationError × SortedMap Register Unit × Evaluator w
  | [] => (none, changed, ev)
  | a :: rest =>
    match ev.assign a with
    | .error e => (some e, changed, ev)
    | .ok (_, ev) => assignAll ev (changed.insert a.target ()) rest

/-- Carries out the assignments in a text.  Returns the variables that were assigned, and the
evaluator with what was assigned before an error. -/
def process (ev : Evaluator w) (s : String) :
    Except ProcessError (List Register) × Evaluator w :=
  match parseAssignments w s with
  | .error e => (.error (.parsing e), ev)
  | .ok as =>
    match ev.assignAll .empty as with
    | (some e, _, ev) => (.error (.evaluation e), ev)
    | (none, changed, ev) => (.ok changed.keys, ev)

/-- The registers of the caller with the values of those rules whose register has none yet. -/
def recover (ev : Evaluator w) (caller : Registers w) :
    List (Rule w) → Except EvaluationError (Registers w)
  | [] => .ok caller
  | r :: rest =>
    if caller.contains r.register then recover ev caller rest
    else do
      let value ← ev.evaluate r.expr
      recover ev (caller.insert r.register value) rest

/-- The registers of the caller by the rules of a frame: the canonical frame address and one for
each rule. -/
def evaluateRules (ev : Evaluator w) (rules : List (Rule w)) :
    Except EvaluationError (Registers w) := do
  let cfaRule ← match rules.find? (·.register == .cfa) with
    | some r => .ok r
    | none => .error .missingCfa
  let cfa ← ev.evaluate cfaRule.expr
  recover (ev.set .cfa cfa) (SortedMap.empty.insert .cfa cfa) rules

end Evaluator

end Postmortem.Postfix
