import Postmortem.Bytes

/-!
# Variable-length integers

LEB128: seven bits a byte, the lowest first, and the top bit set on every byte but the last.
A 64-bit value takes at most ten bytes.  Reading returns what is left of the data in every case,
since a caller may go on after a value that does not fit.
-/

set_option autoImplicit false

namespace Postmortem.Leb128

def ofNat (n : Nat) : Bytes :=
  if n < 128 then [UInt8.ofNat n] else UInt8.ofNat (n % 128 + 128) :: ofNat (n / 128)
termination_by n
decreasing_by omega

/-- The shortest encoding of a signed value, in two's complement. -/
def ofInt (n : Int) : Bytes :=
  if -64 ≤ n ∧ n < 64 then [UInt8.ofNat (n % 128).toNat]
  else UInt8.ofNat ((n % 128).toNat + 128) :: ofInt (n / 128)
termination_by n.natAbs
decreasing_by omega

def encode (n : UInt64) : Bytes := ofNat n.toNat

def encodeSigned (n : Int64) : Bytes := ofInt n.toInt

/-- What is left after a value that does not fit: reading goes on to the first byte without its
top bit. -/
def skip : UInt8 → Bytes → Bytes
  | b, rest =>
    if b < 128 then rest
    else match rest with
      | [] => []
      | b :: rest => skip b rest

/-- Reads an unsigned value of which `left + 1` bytes may still come.  The last possible byte holds
a single bit, and must be 0 or 1. -/
def readNat : (left : Nat) → Bytes → Option Nat × Bytes
  | _, [] => (none, [])
  | 0, b :: rest => if b ≤ 1 then (some b.toNat, rest) else (none, skip b rest)
  | left + 1, b :: rest =>
    if b < 128 then (some b.toNat, rest)
    else
      let (high, rest) := readNat left rest
      (high.map fun h => b.toNat % 128 + 128 * h, rest)

/-- The value of a last byte: its seven bits in two's complement. -/
def signedLast (b : UInt8) : Int := if b < 64 then b.toNat else b.toNat - 128

/-- Reads a signed value of which `left + 1` bytes may still come.  The last possible byte holds a
single bit and its sign, and must be 0x00 or 0x7f. -/
def readInt : (left : Nat) → Bytes → Option Int × Bytes
  | _, [] => (none, [])
  | 0, b :: rest => if b = 0 ∨ b = 0x7f then (some (signedLast b), rest) else (none, skip b rest)
  | left + 1, b :: rest =>
    if b < 128 then (some (signedLast b), rest)
    else
      let (high, rest) := readInt left rest
      (high.map fun h => b.toNat % 128 + 128 * h, rest)

def read (b : Bytes) : Option UInt64 × Bytes :=
  let (n, rest) := readNat 9 b
  (n.map UInt64.ofNat, rest)

def readSigned (b : Bytes) : Option Int64 × Bytes :=
  let (n, rest) := readInt 9 b
  (n.map Int64.ofInt, rest)

/-- Reads an unsigned value that must fit 32 bits.  A larger one is consumed and refused. -/
def read32 (b : Bytes) : Option UInt32 × Bytes :=
  let (n, rest) := read b
  (n.bind fun n => if n.toNat < UInt32.size then some n.toUInt32 else none, rest)

def readByte : Bytes → Option UInt8 × Bytes
  | [] => (none, [])
  | b :: rest => (some b, rest)

end Postmortem.Leb128
