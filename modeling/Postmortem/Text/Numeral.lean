/-!
# Numerals

Numbers as digits: writing in base ten and sixteen, with padding, and reading.
-/

set_option autoImplicit false

namespace Postmortem.Text

/-- The digits of a number in a base, the most significant first, at least one.  Digits above nine
are lowercase letters. -/
def digits (base n : Nat) : List Char := Nat.toDigits base n

def decimal (n : Nat) : String := String.ofList (digits 10 n)

def decimalInt : Int → String
  | .ofNat n => decimal n
  | .negSucc n => "-" ++ decimal (n + 1)

def hex (n : Nat) : String := String.ofList (digits 16 n)

def padZeros (width : Nat) (ds : List Char) : List Char :=
  List.replicate (width - ds.length) '0' ++ ds

def hexPadded (width n : Nat) : String := String.ofList (padZeros width (digits 16 n))

def hexPrefixed (n : Nat) : String := "0x" ++ hex n

def hexPrefixedPadded (width n : Nat) : String := "0x" ++ hexPadded width n

def hexBytes (b : List UInt8) : String :=
  String.join (b.map fun x => hexPadded 2 x.toNat)

def decimalDigit? (c : Char) : Option Nat :=
  if '0' ≤ c ∧ c ≤ '9' then some (c.toNat - '0'.toNat) else none

def hexDigit? (c : Char) : Option Nat :=
  if '0' ≤ c ∧ c ≤ '9' then some (c.toNat - '0'.toNat)
  else if 'a' ≤ c ∧ c ≤ 'f' then some (c.toNat - 'a'.toNat + 10)
  else if 'A' ≤ c ∧ c ≤ 'F' then some (c.toNat - 'A'.toNat + 10)
  else none

def isDecimalDigit (c : Char) : Bool := (decimalDigit? c).isSome

def isHexDigit (c : Char) : Bool := (hexDigit? c).isSome

/-- The number that digits stand for after a number already read. -/
def readDigitsFrom (base : Nat) (digit? : Char → Option Nat) (value : Nat) :
    List Char → Option Nat
  | [] => some value
  | c :: cs =>
    match digit? c with
    | some d => readDigitsFrom base digit? (value * base + d) cs
    | none => none

def readDecimal? (cs : List Char) : Option Nat :=
  if cs.isEmpty then none else readDigitsFrom 10 decimalDigit? 0 cs

def readHex? (cs : List Char) : Option Nat :=
  if cs.isEmpty then none else readDigitsFrom 16 hexDigit? 0 cs

def readHexBytes? : List Char → Option (List UInt8)
  | [] => some []
  | [_] => none
  | a :: b :: rest => do
    let x ← readHex? [a, b]
    let xs ← readHexBytes? rest
    return UInt8.ofNat x :: xs

/-- Reads a number in base sixteen that fits 32 bits.  One plus sign may stand before it. -/
def readHex32? (cs : List Char) : Option UInt32 :=
  let digits := match cs with
    | '+' :: rest => rest
    | _ => cs
  (readHex? digits).bind fun n => if n < UInt32.size then some (UInt32.ofNat n) else none

end Postmortem.Text
