import Postmortem.Bytes

/-!
# Views of a minidump

Numbers and texts at known places in a part of a minidump.  All numbers of a dump start at the same
end, and reading past the end of a part gives nothing.  Texts are in units of 16 bits: a character
beyond U+FFFF takes two of them, a high and a low surrogate, and neither half stands alone.
-/

set_option autoImplicit false

namespace Postmortem.Text.Utf16

def isHigh (n : Nat) : Bool := 0xd800 ≤ n && n < 0xdc00

def isLow (n : Nat) : Bool := 0xdc00 ≤ n && n < 0xe000

/-- The characters of some units, if no half of a pair stands alone. -/
def decode? : List Nat → Option (List Char)
  | [] => some []
  | n :: rest =>
    if isHigh n then
      match rest with
      | m :: rest =>
        if isLow m then
          (decode? rest).map (Char.ofNat (0x10000 + (n - 0xd800) * 0x400 + (m - 0xdc00)) :: ·)
        else none
      | [] => none
    else if isLow n then none
    else (decode? rest).map (Char.ofNat n :: ·)

end Postmortem.Text.Utf16

namespace Postmortem.Minidump

structure View where
  endian : Endian
  bytes : Bytes

structure Location where
  size : Nat
  offset : Nat
  deriving DecidableEq, Repr

namespace View

def size (v : View) : Nat := v.bytes.length

def part? (v : View) (l : Location) : Option View :=
  (v.bytes.slice? l.offset l.size).map (⟨v.endian, ·⟩)

def number? (v : View) (width offset : Nat) : Option Nat :=
  (v.bytes.slice? offset width).map v.endian.decode

def word32? (v : View) (offset : Nat) : Option UInt32 := (v.number? 4 offset).map UInt32.ofNat

def word64? (v : View) (offset : Nat) : Option UInt64 := (v.number? 8 offset).map UInt64.ofNat

/-- The location whose size and file offset stand at an offset. -/
def location? (v : View) (offset : Nat) : Option Location := do
  return ⟨← v.number? 4 offset, ← v.number? 4 (offset + 4)⟩

def units (e : Endian) : Bytes → List Nat
  | a :: b :: rest => e.decode [a, b] :: units e rest
  | _ => []

/-- The text that starts at an offset with its length in bytes. -/
def text? (v : View) (offset : Nat) : Option String := do
  let n ← v.number? 4 offset
  let b ← v.bytes.slice? (offset + 4) n
  if n % 2 = 0 then (Text.Utf16.decode? (units v.endian b)).map String.ofList else none

/-- The text of `n` units at an offset, up to the first zero. -/
def fixedText? (v : View) (offset n : Nat) : Option String := do
  let b ← v.bytes.slice? offset (2 * n)
  (Text.Utf16.decode? ((units v.endian b).takeWhile (· ≠ 0))).map String.ofList

/-- The records of `width` bytes in a list, which starts with their number.  Four bytes may stand
between the number and the records. -/
def records? (v : View) (width : Nat) : Option (List View) := do
  let n ← v.number? 4 0
  let start ←
    if v.size = 4 + n * width then some 4
    else if v.size = 8 + n * width then some 8
    else none
  (List.range n).mapM fun i => v.part? ⟨width, start + i * width⟩

end View

end Postmortem.Minidump
