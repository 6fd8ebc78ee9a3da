import Postmortem.Leb128
import Postmortem.Text.Utf8

/-!
# String tables

Texts in one run of bytes, each after its length.  A text is known by the offset of its length, and
is stored once however often it is inserted.  The empty text is not stored: the offset `absent`
stands for it, and reads as no text.
-/

set_option autoImplicit false

namespace Postmortem

/-- The offset of a text that is not there. -/
def absent : UInt32 := 0xffffffff

def StringTable.encodeText (s : String) : Bytes :=
  let b := Utf8.encode s
  Leb128.ofNat b.length ++ b

structure StringTable where
  /-- The texts and their offsets, the newest first. -/
  entries : List (String × UInt32) := []
  /-- How many bytes the texts take. -/
  size : Nat := 0
  deriving Inhabited, Repr

namespace StringTable

def empty : StringTable := {}

/-- The offset of a text and the table with it, unless offsets would no longer fit. -/
def insert? (t : StringTable) (s : String) : Option (UInt32 × StringTable) :=
  if s.isEmpty then some (absent, t)
  else match t.entries.lookup s with
    | some offset => some (offset, t)
    | none =>
      if t.size < absent.toNat then
        let offset := UInt32.ofNat t.size
        some (offset, ⟨(s, offset) :: t.entries, t.size + (encodeText s).length⟩)
      else none

def toBytes (t : StringTable) : Bytes :=
  t.entries.reverse.flatMap fun e => encodeText e.1

/-- The text at an offset, if a complete one in valid UTF-8 is there. -/
def read? (b : Bytes) (offset : UInt32) : Option String :=
  if offset = absent then none
  else if offset.toNat ≤ b.length then
    match Leb128.read (b.drop offset.toNat) with
    | (some n, rest) => (rest.splitAt? n.toNat).bind fun p => Utf8.decode? p.1
    | (none, _) => none
  else none

end StringTable

end Postmortem
