import Postmortem.Text.Hidden
import Postmortem.Text.Numeral

/-!
# Inspection

A one-line rendering of structured values for people who look into them: records with their field
names, tuples, lists, and quoted texts in which characters that cannot be seen appear by number.
-/

set_option autoImplicit false

namespace Postmortem.Text

inductive Inspect where
  /-- Text that stands as it is, such as a number. -/
  | plain (text : String)
  /-- A text between quotes. -/
  | quoted (text : String)
  /-- `Name { field: value, … }`. -/
  | record (name : String) (fields : List (String × Inspect))
  /-- `Name(value, …)`. -/
  | tuple (name : String) (items : List Inspect)
  /-- `[value, …]`. -/
  | list (items : List Inspect)
  /-- `{key: value, …}`. -/
  | map (entries : List (Inspect × Inspect))
  deriving Inhabited

namespace Inspect

def nat (n : Nat) : Inspect := plain (decimal n)

def int (n : Int) : Inspect := plain (decimalInt n)

def address (n : UInt64) : Inspect := plain (hexPrefixed n.toNat)

def bool (b : Bool) : Inspect := plain (if b then "true" else "false")

def option {α : Type} (f : α → Inspect) : Option α → Inspect
  | none => plain "None"
  | some a => tuple "Some" [f a]

/-- A character of a quoted text: escaped if it is a quote, a backslash, or cannot be seen. -/
def escape (c : Char) : String :=
  match c with
  | '\x00' => "\\0"
  | '\t' => "\\t"
  | '\r' => "\\r"
  | '\n' => "\\n"
  | '"' => "\\\""
  | '\\' => "\\\\"
  | c =>
    if ' ' ≤ c ∧ c ≤ '~' then c.toString
    else if isHidden c then "\\u\x7b" ++ hex c.toNat ++ "\x7d"
    else c.toString

def quote (s : String) : String :=
  "\"" ++ String.join (s.toList.map escape) ++ "\""

mutual

def render : Inspect → String
  | plain s => s
  | quoted s => quote s
  | record name [] => name
  | record name fields => name ++ " \x7b " ++ ", ".intercalate (renderFields fields) ++ " \x7d"
  | tuple name items => name ++ "(" ++ ", ".intercalate (renderItems items) ++ ")"
  | list items => "[" ++ ", ".intercalate (renderItems items) ++ "]"
  | map entries => "\x7b" ++ ", ".intercalate (renderEntries entries) ++ "\x7d"

def renderItems : List Inspect → List String
  | [] => []
  | x :: xs => x.render :: renderItems xs

def renderFields : List (String × Inspect) → List String
  | [] => []
  | (name, x) :: xs => (name ++ ": " ++ x.render) :: renderFields xs

def renderEntries : List (Inspect × Inspect) → List String
  | [] => []
  | (k, x) :: xs => (k.render ++ ": " ++ x.render) :: renderEntries xs

end

end Inspect

end Postmortem.Text
