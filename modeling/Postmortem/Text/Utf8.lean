import Postmortem.Bytes

/-!
# UTF-8

Text as bytes.  `decode?` accepts exactly the encodings of texts; `lossy` reads any bytes and puts
U+FFFD for each maximal ill-formed part: the longest start of a character that could have gone on,
or else a single byte.
-/

set_option autoImplicit false

namespace Postmortem.Utf8

def encode (s : String) : Bytes := s.toUTF8.data.toList

def decode? (b : Bytes) : Option String := String.fromUTF8? ⟨b.toArray⟩

/-- What a first byte announces: how many bytes follow, its payload, and the range of the next
byte, which excludes overlong forms, surrogates and values above U+10FFFF. -/
structure Lead where
  following : Nat
  payload : Nat
  low : UInt8 := 0x80
  high : UInt8 := 0xbf

/-- Reads a first byte; continuation bytes and bytes that never occur are none. -/
def lead? (b : UInt8) : Option Lead :=
  if b < 0x80 then some ⟨0, b.toNat, 0x80, 0xbf⟩
  else if b < 0xc2 then none
  else if b < 0xe0 then some ⟨1, b.toNat - 0xc0, 0x80, 0xbf⟩
  else if b = 0xe0 then some ⟨2, 0, 0xa0, 0xbf⟩
  else if b = 0xed then some ⟨2, 13, 0x80, 0x9f⟩
  else if b < 0xf0 then some ⟨2, b.toNat - 0xe0, 0x80, 0xbf⟩
  else if b = 0xf0 then some ⟨3, 0, 0x90, 0xbf⟩
  else if b < 0xf4 then some ⟨3, b.toNat - 0xf0, 0x80, 0xbf⟩
  else if b = 0xf4 then some ⟨3, 4, 0x80, 0x8f⟩
  else none

/-- Reads the `n` continuation bytes of a character, the first of them between `low` and `high`.
Returns the character, or U+FFFD at the first byte that does not fit, which is left unread. -/
def continuation (n payload : Nat) (low high : UInt8) (b : Bytes) : Char × Bytes :=
  match n, b with
  | 0, rest => (Char.ofNat payload, rest)
  | _ + 1, [] => ('\uFFFD', [])
  | n + 1, c :: rest =>
    if low ≤ c ∧ c ≤ high then continuation n (payload * 64 + c.toNat % 64) 0x80 0xbf rest
    else ('\uFFFD', c :: rest)

theorem continuation_length_le (n payload : Nat) (low high : UInt8) (b : Bytes) :
    (continuation n payload low high b).2.length ≤ b.length := by
  induction n generalizing payload low high b with
  | zero => simp [continuation]
  | succ n ih =>
    cases b with
    | nil => simp [continuation]
    | cons c rest =>
      simp only [continuation]
      split
      · have := ih (payload * 64 + c.toNat % 64) 0x80 0xbf rest
        simp only [List.length_cons]
        omega
      · simp

/-- The characters of any bytes, with U+FFFD for what is ill-formed. -/
def repair : Bytes → List Char
  | [] => []
  | b :: rest =>
    match lead? b with
    | none => '\uFFFD' :: repair rest
    | some l =>
      let r := continuation l.following l.payload l.low l.high rest
      r.1 :: repair r.2
termination_by b => b.length
decreasing_by
  · simp
  · have := continuation_length_le l.following l.payload l.low l.high rest
    simp only [List.length_cons]
    omega

/-- The text of any bytes: exact if they are an encoding, repaired otherwise. -/
def lossy (b : Bytes) : String :=
  match decode? b with
  | some s => s
  | none => String.ofList (repair b)

end Postmortem.Utf8
