import Postmortem.Json.Value
import Postmortem.Text.Numeral

/-!
# JSON texts

Printing and parsing of JSON values.  The parser works on characters and takes as fuel a bound on
the nesting and length of what it reads; `parse?` gives it twice the length of the text, which is
always enough, since every second step takes a character.
-/

set_option autoImplicit false

namespace Postmortem.Json

/-! ## Printing -/

def escapeLetter? (c : Char) : Option Char :=
  match c with
  | '"' => some '"'
  | '\\' => some '\\'
  | '\x08' => some 'b'
  | '\x0c' => some 'f'
  | '\n' => some 'n'
  | '\r' => some 'r'
  | '\t' => some 't'
  | _ => none

def escape (c : Char) : List Char :=
  match escapeLetter? c with
  | some letter => ['\\', letter]
  | none =>
    if c.toNat < 0x20 then '\\' :: 'u' :: Text.padZeros 4 (Text.digits 16 c.toNat) else [c]

def printString (s : String) : List Char := '"' :: s.toList.flatMap escape ++ ['"']

def printInt (n : Int) : List Char := (Text.decimalInt n).toList

mutual

/-- The characters of a value.  A number that is not an integer and a value that cannot be read are
printed as some text of their kind. -/
def print : Json → List Char
  | null => ['n', 'u', 'l', 'l']
  | bool true => ['t', 'r', 'u', 'e']
  | bool false => ['f', 'a', 'l', 's', 'e']
  | int n => printInt n
  | real => ['0', '.', '5']
  | str s => printString s
  | unpaired => ['"', '\\', 'u', 'd', '8', '0', '0', '"']
  | arr [] => ['[', ']']
  | arr (x :: xs) => '[' :: x.print ++ printItems xs
  | obj [] => ['\x7b', '\x7d']
  | obj ((name, x) :: xs) => '\x7b' :: printString name ++ ':' :: x.print ++ printMembers xs

def printItems : List Json → List Char
  | [] => [']']
  | x :: xs => ',' :: x.print ++ printItems xs

def printMembers : List (String × Json) → List Char
  | [] => ['\x7d']
  | (name, x) :: xs => ',' :: printString name ++ ':' :: x.print ++ printMembers xs

end

def toText (j : Json) : String := String.ofList j.print

/-! ## Parsing -/

def isSpace (c : Char) : Bool := c == ' ' || c == '\t' || c == '\n' || c == '\r'

def skipSpace (cs : List Char) : List Char := cs.dropWhile isSpace

def expect (start : List Char) (cs : List Char) : Option (List Char) :=
  if start.isPrefixOf cs then some (cs.drop start.length) else none

def unit? : List Char → Option (Nat × List Char)
  | a :: b :: c :: d :: rest => (Text.readHex? [a, b, c, d]).map (·, rest)
  | _ => none

/-- The characters up to the closing quote.  The text is none if an escape names half of a
surrogate pair. -/
def stringTail : (fuel : Nat) → List Char → Option (Option (List Char) × List Char)
  | 0, _ => none
  | _ + 1, [] => none
  | fuel + 1, c :: rest =>
    let go (d : Option Char) (rest : List Char) := do
      let (cs, rest) ← stringTail fuel rest
      return ((do return (← d) :: (← cs)), rest)
    if c = '"' then some (some [], rest)
    else if c.toNat < 0x20 then none
    else if c = '\\' then
      match rest with
      | '"' :: rest => go (some '"') rest
      | '\\' :: rest => go (some '\\') rest
      | '/' :: rest => go (some '/') rest
      | 'b' :: rest => go (some '\x08') rest
      | 'f' :: rest => go (some '\x0c') rest
      | 'n' :: rest => go (some '\n') rest
      | 'r' :: rest => go (some '\r') rest
      | 't' :: rest => go (some '\t') rest
      | 'u' :: rest => do
        let (u, rest) ← unit? rest
        if 0xd800 ≤ u ∧ u < 0xdc00 then
          match rest with
          | '\\' :: 'u' :: low =>
            let (v, after) ← unit? low
            if 0xdc00 ≤ v ∧ v < 0xe000 then
              go (some (Char.ofNat (0x10000 + (u - 0xd800) * 0x400 + (v - 0xdc00)))) after
            else go none rest
          | _ => go none rest
        else if 0xdc00 ≤ u ∧ u < 0xe000 then go none rest
        else go (some (Char.ofNat u)) rest
      | _ => none
    else go (some c) rest

def stringAfterQuote (fuel : Nat) (cs : List Char) : Option (Json × List Char) := do
  let (text, rest) ← stringTail fuel cs
  return (match text with | some t => str (String.ofList t) | none => unpaired, rest)

/-- A number.  A zero has no digit after it, and a point or an exponent has one. -/
def number? (cs : List Char) : Option (Json × List Char) := do
  let negative := cs.head? == some '-'
  let cs := if negative then cs.drop 1 else cs
  let ds := cs.takeWhile Text.isDecimalDigit
  let rest := cs.dropWhile Text.isDecimalDigit
  if ds.head? == some '0' && ds.length != 1 then none
  let n ← Text.readDecimal? ds
  let (fraction, rest) ← match rest with
    | '.' :: rest =>
      if (rest.head?.map Text.isDecimalDigit).getD false
      then some (true, rest.dropWhile Text.isDecimalDigit) else none
    | _ => some (false, rest)
  let (exponent, rest) ← match rest with
    | c :: rest' =>
      if c == 'e' || c == 'E' then
        let rest' := match rest' with
          | s :: more => if s == '+' || s == '-' then more else rest'
          | [] => []
        if (rest'.head?.map Text.isDecimalDigit).getD false
        then some (true, rest'.dropWhile Text.isDecimalDigit) else none
      else some (false, rest)
    | [] => some (false, rest)
  if fraction || exponent || (negative && n == 0) then return (real, rest)
  return (int (if negative then -(n : Int) else n), rest)

mutual

def parseValue? : (fuel : Nat) → List Char → Option (Json × List Char)
  | 0, _ => none
  | fuel + 1, cs =>
    match skipSpace cs with
    | 'n' :: rest => (expect ['u', 'l', 'l'] rest).map (null, ·)
    | 't' :: rest => (expect ['r', 'u', 'e'] rest).map (bool true, ·)
    | 'f' :: rest => (expect ['a', 'l', 's', 'e'] rest).map (bool false, ·)
    | '"' :: rest => stringAfterQuote fuel rest
    | '[' :: rest =>
      match skipSpace rest with
      | ']' :: rest => some (arr [], rest)
      | _ => (parseItems? fuel rest).map fun (xs, rest) => (arr xs, rest)
    | '\x7b' :: rest =>
      match skipSpace rest with
      | '\x7d' :: rest => some (obj [], rest)
      | _ => (parseMembers? fuel rest).map fun (xs, rest) => ((xs.map obj).getD unpaired, rest)
    | cs => number? cs

def parseItems? : (fuel : Nat) → List Char → Option (List Json × List Char)
  | 0, _ => none
  | fuel + 1, cs => do
    let (x, rest) ← parseValue? fuel cs
    match skipSpace rest with
    | ']' :: rest => return ([x], rest)
    | ',' :: rest =>
      let (xs, rest) ← parseItems? fuel rest
      return (x :: xs, rest)
    | _ => none

/-- The members of an object up to its end.  There are none if one of their names is no text. -/
def parseMembers? : (fuel : Nat) → List Char →
    Option (Option (List (String × Json)) × List Char)
  | 0, _ => none
  | fuel + 1, cs =>
    match skipSpace cs with
    | '"' :: rest => do
      let (key, rest) ← stringAfterQuote fuel rest
      match skipSpace rest with
      | ':' :: rest =>
        let (x, rest) ← parseValue? fuel rest
        let first := key.text?.map (·, x)
        match skipSpace rest with
        | '\x7d' :: rest => return (first.map ([·]), rest)
        | ',' :: rest =>
          let (xs, rest) ← parseMembers? fuel rest
          return ((do return (← first) :: (← xs)), rest)
        | _ => none
      | _ => none
    | _ => none

end

def parse? (s : String) : Option Json := do
  let cs := s.toList
  let (j, rest) ← parseValue? (2 * cs.length + 2) cs
  if (skipSpace rest).isEmpty then some j else none

end Postmortem.Json
