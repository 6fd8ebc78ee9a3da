/-!
# Bytes

Runs of bytes and the fixed-width numbers in them.  A number of `w` bytes is read by
`Endian.decode` and written by `Endian.encode`; a `Cursor` walks forward over a buffer and knows
its position, so that sections can be aligned.
-/

set_option autoImplicit false

namespace Postmortem

abbrev Bytes := List UInt8

inductive Endian where
  | little
  | big
  deriving DecidableEq, Repr, Inhabited

namespace Bytes

def leNat : Bytes → Nat
  | [] => 0
  | b :: rest => b.toNat + 256 * leNat rest

/-- The lowest `width` bytes of a number, the least significant one first. -/
def ofNatLE : (width : Nat) → Nat → Bytes
  | 0, _ => []
  | width + 1, n => UInt8.ofNat (n % 256) :: ofNatLE width (n / 256)

def splitAt? (n : Nat) (b : Bytes) : Option (Bytes × Bytes) :=
  let head := b.take n
  if head.length = n then some (head, b.drop n) else none

/-- The bytes `offset, …, offset + n - 1`, if they all exist. -/
def slice? (b : Bytes) (offset n : Nat) : Option Bytes :=
  if offset ≤ b.length then (splitAt? n (b.drop offset)).map Prod.fst else none

end Bytes

namespace Endian

def decode : Endian → Bytes → Nat
  | .little, b => Bytes.leNat b
  | .big, b => Bytes.leNat b.reverse

/-- A number as `width` bytes; higher bytes are lost. -/
def encode (e : Endian) (width n : Nat) : Bytes :=
  match e with
  | .little => Bytes.ofNatLE width n
  | .big => (Bytes.ofNatLE width n).reverse

end Endian

def Bytes.ofWord32 (n : UInt32) : Bytes := Bytes.ofNatLE 4 n.toNat

def Bytes.ofWord64 (n : UInt64) : Bytes := Bytes.ofNatLE 8 n.toNat

/-- A place in a buffer: how many bytes lie before it, and the bytes from there on. -/
structure Cursor where
  position : Nat := 0
  rest : Bytes
  deriving DecidableEq, Repr

namespace Cursor

def take? (n : Nat) (c : Cursor) : Option (Bytes × Cursor) :=
  (c.rest.splitAt? n).map fun (head, rest) => (head, ⟨c.position + n, rest⟩)

/-- How many bytes of padding bring `position` to a multiple of eight. -/
def padding (position : Nat) : Nat := (8 - position % 8) % 8

/-- Steps to the next multiple of eight, which must still lie in the buffer. -/
def align? (c : Cursor) : Option Cursor :=
  (c.take? (padding c.position)).map Prod.snd

def word32? (c : Cursor) : Option (UInt32 × Cursor) :=
  (c.take? 4).map fun (b, c) => (UInt32.ofNat b.leNat, c)

def word64? (c : Cursor) : Option (UInt64 × Cursor) :=
  (c.take? 8).map fun (b, c) => (UInt64.ofNat b.leNat, c)

def words32? : Nat → Cursor → Option (List UInt32 × Cursor)
  | 0, c => some ([], c)
  | n + 1, c => do
    let (w, c) ← c.word32?
    let (ws, c) ← words32? n c
    return (w :: ws, c)

end Cursor

def Bytes.paddingAt (position : Nat) : Bytes := List.replicate (Cursor.padding position) 0

/-- Sections one behind the other, each but the first at a multiple of eight. -/
def Bytes.joinSections : List Bytes → Bytes
  | [] => []
  | first :: rest => rest.foldl (fun b s => b ++ paddingAt b.length ++ s) first

/-- A record that is stored as a fixed number of 32-bit words. -/
class WordRecord (α : Type) where
  /-- The number of words of each record. -/
  arity : Nat
  /-- The words of a record, in the order in which they are stored. -/
  toWords : α → List UInt32
  /-- The record with the given words, if their number is right. -/
  ofWords? : List UInt32 → Option α

def WordRecord.encodeTable {α : Type} [WordRecord α] (records : List α) : Bytes :=
  records.flatMap fun r => (toWords r).flatMap Bytes.ofWord32

def WordRecord.table? (α : Type) [WordRecord α] : Nat → Cursor → Option (List α × Cursor)
  | 0, c => some ([], c)
  | n + 1, c => do
    let (ws, c) ← c.words32? (arity α)
    let r ← ofWords? ws
    let (rs, c) ← table? α n c
    return (r :: rs, c)

end Postmortem
