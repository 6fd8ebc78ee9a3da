import Postmortem.Text.Inspect

/-!
# Source languages and names

The language that a function was written in, as far as debug information knows it, and names that
carry one.
-/

set_option autoImplicit false

namespace Postmortem

inductive Language where
  | unknown
  | c
  | cpp
  | d
  | go
  | objC
  | objCpp
  | rust
  | swift
  deriving DecidableEq, Repr, Inhabited

namespace Language

def all : List Language := [unknown, c, cpp, d, go, objC, objCpp, rust, swift]

def code : Language → UInt32
  | unknown => 0
  | c => 1
  | cpp => 2
  | d => 3
  | go => 4
  | objC => 5
  | objCpp => 6
  | rust => 7
  | swift => 8

def ofCode (n : UInt32) : Language := (all.find? (·.code == n)).getD unknown

def name : Language → String
  | unknown => "unknown"
  | c => "c"
  | cpp => "cpp"
  | d => "d"
  | go => "go"
  | objC => "objc"
  | objCpp => "objcpp"
  | rust => "rust"
  | swift => "swift"

def title : Language → String
  | unknown => "unknown"
  | c => "C"
  | cpp => "C++"
  | d => "D"
  | go => "Go"
  | objC => "Objective-C"
  | objCpp => "Objective-C++"
  | rust => "Rust"
  | swift => "Swift"

def label : Language → String
  | unknown => "Unknown"
  | c => "C"
  | cpp => "Cpp"
  | d => "D"
  | go => "Go"
  | objC => "ObjC"
  | objCpp => "ObjCpp"
  | rust => "Rust"
  | swift => "Swift"

def parse? (s : String) : Option Language := all.find? (·.name == s)

def unknownMessage : String := "unknown language"

end Language

structure Name where
  text : String
  language : Language := .unknown
  deriving DecidableEq, Repr, Inhabited

namespace Name

def titled (n : Name) : String :=
  if n.language = .unknown then n.text else n.text ++ " [" ++ n.language.title ++ "]"

def inspect (n : Name) : Text.Inspect :=
  .record "Name" [("string", .quoted n.text), ("lang", .plain n.language.label)]

end Name

end Postmortem
