import Postmortem.CfiCache.Fault
import Postmortem.CfiCache.RuleSet
import Postmortem.Debug.Unwind

/-!
# Programs of unwind tables

Unwind tables as programs of postfix rules.  Rows become texts in which only the rules that differ
from the last ones given for their registers appear.  Postfix text is checked and put into its
normal spelling.
-/

set_option autoImplicit false

namespace Postmortem.CfiCache

open Postmortem.Debug (CfaRule RegisterRule UnwindRow UnwindRules UnwindTable)

/-- Refuses addresses that do not lie in increasing order between `start` and `stop`. -/
def checkOrder (start stop : UInt64) (previous : Option UInt64) :
    List UInt64 → Except Fault Unit
  | [] => .ok ()
  | a :: rest =>
    let follows := match previous with
      | some p => p < a
      | none => start ≤ a
    if follows && a < stop then checkOrder start stop (some a) rest
    else .error (.rowOutOfOrder a start stop)

def checkAddresses (start stop : UInt64) (addresses : List UInt64) : Except Fault Unit := do
  checkOrder start stop none addresses
  if addresses.isEmpty then throw (.noRows start)

/-! ## Rows -/

def cfaText (family : Cpu.Family) : CfaRule → Except Fault String
  | .registerOffset register offset =>
    match family.ruleName? register with
    | some name => .ok (".cfa: " ++ name ++ " " ++ Text.decimalInt offset.toInt ++ " +")
    | none => .error (.unknownRegister register family)
  | .expression _ => .error .cfaExpression

def expressionText? (family : Cpu.Family) (register : UInt16) : RegisterRule → Option String
  | .undefined | .architectural | .expression _ | .valExpression _ => none
  | .sameValue => family.ruleName? register
  | .offset n => some (".cfa " ++ Text.decimalInt n.toInt ++ " + ^")
  | .valOffset n => some (".cfa " ++ Text.decimalInt n.toInt ++ " +")
  | .register other => family.ruleName? other

/-- The text of a rule for a register, unless the register cannot be recovered. -/
def registerText? (family : Cpu.Family) (returnAddress register : UInt16) (rule : RegisterRule) :
    Option String := do
  let expr ← expressionText? family register rule
  let name ← if register = returnAddress then some ".ra" else family.ruleName? register
  return name ++ ": " ++ expr

structure Given where
  cfa : Option CfaRule := none
  /-- The rules of registers, the newest first. -/
  registers : List (UInt16 × RegisterRule) := []

/-- The texts of those rules that differ from the last ones given, with their registers, and the
rules given with them. -/
def changedRules (family : Cpu.Family) (returnAddress : UInt16)
    (given : List (UInt16 × RegisterRule)) :
    List (UInt16 × RegisterRule) → List (UInt16 × String) × List (UInt16 × RegisterRule)
  | [] => ([], given)
  | (register, rule) :: rest =>
    if given.lookup register = some rule then changedRules family returnAddress given rest
    else
      let (texts, given) := changedRules family returnAddress ((register, rule) :: given) rest
      match registerText? family returnAddress register rule with
      | some text => ((register, text) :: texts, given)
      | none => (texts, given)

def rowChanges (family : Cpu.Family) (returnAddress : UInt16) (given : Given) (row : UnwindRow) :
    Except Fault (List String × List (UInt16 × String) × Given) := do
  let cfa ← if given.cfa = some row.cfa then pure []
    else do
      let text ← cfaText family row.cfa
      pure [text]
  let (texts, registers) := changedRules family returnAddress given.registers row.registers
  return (cfa, texts, ⟨some row.cfa, registers⟩)

def joinRules (texts : List String) : String := " ".intercalate texts

def rowDeltas (family : Cpu.Family) (returnAddress : UInt16) (given : Given) :
    List UnwindRow → Except Fault (List (UInt64 × String))
  | [] => .ok []
  | row :: rest => do
    let (cfa, texts, given) ← rowChanges family returnAddress given row
    let deltas ← rowDeltas family returnAddress given rest
    let line := cfa ++ texts.map Prod.snd
    return if line.isEmpty then deltas else (row.address, joinRules line) :: deltas

/-- Whether the return address is in a register of its own unless a rule says otherwise. -/
def hasLinkRule : Cpu.Family → Bool
  | .mips32 | .mips64 => true
  | _ => false

def programOfRows (family : Cpu.Family) (start stop : UInt64) (returnAddress : UInt16)
    (rows : List UnwindRow) : Except Fault Program := do
  checkAddresses start stop (rows.map (·.address))
  match rows with
  | [] => return ⟨"", []⟩
  | row :: rest =>
    let (cfa, texts, given) ← rowChanges family returnAddress {} row
    let link := if hasLinkRule family && !texts.any (·.1 == returnAddress) then [".ra: $ra"] else []
    let deltas ← rowDeltas family returnAddress given rest
    return ⟨joinRules (cfa ++ texts.map Prod.snd ++ link), deltas⟩

/-! ## Postfix text -/

def readRules (text : String) : Except Fault (List (Postfix.Rule .w64)) :=
  match Postfix.parseRules .w64 text with
  | .ok rules => .ok rules
  | .error e => .error (.unreadableRules e)

/-- Changes in their normal spelling, without empty ones. -/
def textDeltas : List (UInt64 × String) → Except Fault (List (UInt64 × String))
  | [] => .ok []
  | (a, text) :: rest => do
    let _ ← readRules text
    let normal := (RuleSet.parse text).toText
    let deltas ← textDeltas rest
    return if normal.isEmpty then deltas else (a, normal) :: deltas

def programOfText (start stop : UInt64) (init : String) (deltas : List (UInt64 × String)) :
    Except Fault Program := do
  checkAddresses start stop (start :: deltas.map Prod.fst)
  let rules ← readRules init
  if !rules.any (·.register == .cfa) then throw (.noCfaRule start)
  let deltas ← textDeltas deltas
  return ⟨(RuleSet.parse init).toText, deltas⟩

def programOf (family : Cpu.Family) (t : UnwindTable) : Except Fault Program :=
  match t.rules with
  | .rows returnAddress rows => programOfRows family t.address t.stop returnAddress rows
  | .postfixRules init deltas => programOfText t.address t.stop init deltas

end Postmortem.CfiCache
