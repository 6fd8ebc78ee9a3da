import Postmortem.Bytes
import Postmortem.Text.Inspect

/-!
# Debug identifiers

The identifier that ties a loaded module to its debug information: a UUID, or the timestamp of a
PDB 2.0 file, and a number of revisions, the appendix.  Two spellings are in use.  The hyphenated
one leaves out an appendix of zero, the compact one never does.
-/

set_option autoImplicit false

namespace Postmortem

inductive DebugId.Form where
  | uuid
  | pdb20
  deriving DecidableEq, Repr, Inhabited

def DebugId.Form.code : DebugId.Form → UInt8
  | uuid => 0
  | pdb20 => 1

/-- An identifier of debug information.  A timestamp lies in the highest 32 bits of `uuid`. -/
structure DebugId where
  uuid : BitVec 128 := 0
  appendix : UInt32 := 0
  form : DebugId.Form := .uuid
  deriving DecidableEq, Repr, Inhabited

namespace DebugId

/-- Identifiers are ordered by their first part, then the appendix, then the form. -/
instance : Ord DebugId where
  compare := compareLex (compareOn uuid)
    (compareLex (compareOn appendix) (compareOn fun id => id.form.code))

instance : Std.TransOrd DebugId :=
  inferInstanceAs (Std.TransCmp (compareLex (compareOn uuid)
    (compareLex (compareOn appendix) (compareOn fun id : DebugId => id.form.code))))

theorem Form.code_injective {a b : Form} (h : a.code = b.code) : a = b := by
  cases a <;> cases b <;> first | rfl | simp [code] at h

instance : Std.LawfulEqOrd DebugId where
  eq_of_compare {a b} h := by
    have h : (compareLex (compareOn uuid) (compareLex (compareOn appendix)
      (compareOn fun id : DebugId => id.form.code))) a b = .eq := h
    simp only [compareLex, Ordering.then_eq_eq, compareOn, Std.LawfulEqCmp.compare_eq_iff_eq] at h
    obtain ⟨h₁, h₂, h₃⟩ := h
    have h₃ := Form.code_injective h₃
    cases a; cases b; simp_all

def nil : DebugId := {}

/-- Whether an identifier of either form holds zeros only, and so identifies nothing. -/
def isNil (id : DebugId) : Bool := id.uuid == 0 && id.appendix == 0

def ofTimestamp (timestamp appendix : UInt32) : DebugId :=
  ⟨BitVec.ofNat 128 (timestamp.toNat <<< 96), appendix, .pdb20⟩

def timestamp (id : DebugId) : Nat := id.uuid.toNat >>> 96

/-! ## Spelling -/

def uuidDigits (id : DebugId) : List Char := Text.padZeros 32 (Text.digits 16 id.uuid.toNat)

def timestampDigits (id : DebugId) : List Char :=
  (Text.padZeros 8 (Text.digits 16 id.timestamp)).map Char.toUpper

def hyphenate (ds : List Char) : List Char :=
  ds.take 8 ++ '-' :: (ds.drop 8).take 4 ++ '-' :: (ds.drop 12).take 4 ++
    '-' :: (ds.drop 16).take 4 ++ '-' :: ds.drop 20

def uuidText (id : DebugId) : String := String.ofList (hyphenate id.uuidDigits)

def hyphenated (id : DebugId) : List Char :=
  (match id.form with
    | .pdb20 => id.timestampDigits
    | .uuid => hyphenate id.uuidDigits) ++
  if id.appendix = 0 then [] else '-' :: Text.digits 16 id.appendix.toNat

def compact (id : DebugId) : List Char :=
  (match id.form with
    | .pdb20 => id.timestampDigits
    | .uuid => id.uuidDigits.map Char.toUpper) ++
  Text.digits 16 id.appendix.toNat

def toText (id : DebugId) : String := String.ofList id.hyphenated

def toCompactText (id : DebugId) : String := String.ofList id.compact

def inspect (id : DebugId) : Text.Inspect :=
  .record "DebugId" [("uuid", .quoted id.uuidText), ("appendix", .nat id.appendix.toNat)]

/-! ## Reading -/

structure Reading where
  /-- Whether the hyphenated spelling is accepted. -/
  hyphens : Bool
  /-- Whether the appendix must be there. -/
  needsAppendix : Bool
  /-- Whether the appendix ends after eight characters, whatever follows. -/
  cutsTail : Bool

def Reading.compactOnly : Reading := ⟨false, true, false⟩

def Reading.either : Reading := ⟨true, false, true⟩

/-- The UUID with these digits, hyphens among them in their four places or not at all. -/
def readUuid? (isHyphenated : Bool) (cs : List Char) : Option (BitVec 128) :=
  let ds := if isHyphenated then cs.filter (· != '-') else cs
  if ds.length = 32 && (!isHyphenated || hyphenate ds == cs) then
    (Text.readHex? ds).map (BitVec.ofNat 128)
  else none

def readChars? (r : Reading) (cs : List Char) : Option DebugId :=
  let isHyphenated := cs[8]? == some '-'
  let n := cs.length
  if cs.any (·.toNat ≥ 128) || (isHyphenated && !r.hyphens) then none
  else if (if isHyphenated then 10 ≤ n && n ≤ 17 else 9 ≤ n && n ≤ 16) then do
    let timestamp ← Text.readHex32? (cs.take 8)
    let appendix ← Text.readHex32? (cs.drop (if isHyphenated then 9 else 8))
    return ofTimestamp timestamp appendix
  else do
    let width := if isHyphenated then 36 else 32
    let uuid ← readUuid? isHyphenated (cs.take width)
    if n = width && !r.needsAppendix then return ⟨uuid, 0, .uuid⟩
    let tail ← match cs.drop width with
      | '-' :: tail => if isHyphenated then some tail else none
      | tail => if isHyphenated then none else some tail
    let appendix ← Text.readHex32? (if r.cutsTail then tail.take 8 else tail)
    return ⟨uuid, appendix, .uuid⟩

def parseCompact? (s : String) : Option DebugId := readChars? .compactOnly s.toList

def parse? (s : String) : Option DebugId := readChars? .either s.toList

def invalidMessage : String := "invalid debug identifier"

/-! ## Storage -/

/-- The stored form: the first part from its highest byte, the appendix from its lowest, eleven
unused bytes and the form. -/
def toBytes (id : DebugId) : Bytes :=
  Endian.big.encode 16 id.uuid.toNat ++ Bytes.ofWord32 id.appendix ++
    List.replicate 11 0 ++ [id.form.code]

/-- The identifier with a stored form of 32 bytes.  An unknown form counts as a UUID. -/
def ofBytes (b : Bytes) : DebugId where
  uuid := BitVec.ofNat 128 (Endian.big.decode (b.take 16))
  appendix := UInt32.ofNat (Bytes.leNat ((b.drop 16).take 4))
  form := if b[31]? = some 1 then .pdb20 else .uuid

end DebugId

structure CodeId where
  digits : String
  deriving DecidableEq, Repr, Inhabited

namespace CodeId

/-- The identifier in a text: its digits in base sixteen, in lowercase, without anything else. -/
def ofText (s : String) : CodeId :=
  ⟨String.ofList ((s.toList.filter Text.isHexDigit).map Char.toLower)⟩

def isNil (id : CodeId) : Bool := id.digits.isEmpty

end CodeId

end Postmortem
