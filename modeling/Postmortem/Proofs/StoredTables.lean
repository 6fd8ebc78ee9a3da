import Mathlib.Algebra.Group.Nat.Defs
import Postmortem.Bytes

/-!
# Stored tables

Words, tables of records and aligned sections are read back as they were written.  Every lemma
leaves what follows the written bytes open, so that a file is read by one lemma for each of its
parts.  Whatever the bytes are, a table that is read has as many records as were asked for.
-/

set_option autoImplicit false

namespace Postmortem

namespace Bytes

theorem length_ofNatLE (width n : Nat) : (ofNatLE width n).length = width := by
  induction width generalizing n with
  | zero => rfl
  | succ width ih => simp [ofNatLE, ih]

theorem leNat_ofNatLE_mod (width n : Nat) : leNat (ofNatLE width n) = n % 256 ^ width := by
  induction width generalizing n with
  | zero => simp [ofNatLE, leNat, Nat.mod_one]
  | succ width ih =>
      have hb : (UInt8.ofNat (n % 256)).toNat = n % 256 := by simp
      rw [ofNatLE, leNat, ih, hb, Nat.pow_succ', Nat.mod_mul]

theorem leNat_ofNatLE (width n : Nat) (h : n < 256 ^ width) : leNat (ofNatLE width n) = n := by
  rw [leNat_ofNatLE_mod, Nat.mod_eq_of_lt h]

theorem splitAt?_append (a b : Bytes) : splitAt? a.length (a ++ b) = some (a, b) := by
  simp [splitAt?]

theorem length_ofWord32 (n : UInt32) : (ofWord32 n).length = 4 := length_ofNatLE 4 _

theorem length_ofWord64 (n : UInt64) : (ofWord64 n).length = 8 := length_ofNatLE 8 _

theorem length_flatMap_ofWord32 (ws : List UInt32) :
    (ws.flatMap ofWord32).length = 4 * ws.length := by
  induction ws with
  | nil => rfl
  | cons w ws ih =>
      rw [List.flatMap_cons, List.length_append, length_ofWord32, ih, List.length_cons]
      omega

end Bytes

namespace Cursor

theorem take?_append {n : Nat} (position : Nat) {a : Bytes} (b : Bytes) (h : a.length = n) :
    take? n ⟨position, a ++ b⟩ = some (a, ⟨position + n, b⟩) := by
  subst h
  simp [take?, Bytes.splitAt?_append]

theorem word32?_append (position : Nat) (n : UInt32) (b : Bytes) :
    word32? ⟨position, Bytes.ofWord32 n ++ b⟩ = some (n, ⟨position + 4, b⟩) := by
  have hn : Bytes.leNat (Bytes.ofWord32 n) = n.toNat :=
    Bytes.leNat_ofNatLE 4 n.toNat n.toNat_lt
  rw [word32?, take?_append position b (Bytes.length_ofWord32 n)]
  simp [hn]

theorem word64?_append (position : Nat) (n : UInt64) (b : Bytes) :
    word64? ⟨position, Bytes.ofWord64 n ++ b⟩ = some (n, ⟨position + 8, b⟩) := by
  have hn : Bytes.leNat (Bytes.ofWord64 n) = n.toNat :=
    Bytes.leNat_ofNatLE 8 n.toNat n.toNat_lt
  rw [word64?, take?_append position b (Bytes.length_ofWord64 n)]
  simp [hn]

theorem words32?_append (position : Nat) (ws : List UInt32) (b : Bytes) :
    words32? ws.length ⟨position, ws.flatMap Bytes.ofWord32 ++ b⟩ =
      some (ws, ⟨position + 4 * ws.length, b⟩) := by
  induction ws generalizing position with
  | nil => rfl
  | cons w ws ih =>
      have hpos : position + 4 + 4 * ws.length = position + 4 * (ws.length + 1) := by omega
      rw [List.length_cons, words32?, List.flatMap_cons, List.append_assoc, word32?_append]
      simp only [Option.bind_eq_bind, Option.bind_some, ih, hpos]
      rfl

end Cursor

/-! ## Tables of records -/

/-- Records that are stored as many words as they should be, and read back as they were. -/
class LawfulWordRecord (α : Type) [WordRecord α] : Prop where
  length_toWords (r : α) : (WordRecord.toWords r).length = WordRecord.arity α
  ofWords?_toWords (r : α) : WordRecord.ofWords? (WordRecord.toWords r) = some r

namespace WordRecord

variable {α : Type} [WordRecord α]

theorem encodeTable_cons (r : α) (rs : List α) :
    encodeTable (r :: rs) = (toWords r).flatMap Bytes.ofWord32 ++ encodeTable rs := rfl

theorem table?_append [LawfulWordRecord α] (position : Nat) (rs : List α) (b : Bytes) :
    table? α rs.length ⟨position, encodeTable rs ++ b⟩ =
      some (rs, ⟨position + (encodeTable rs).length, b⟩) := by
  induction rs generalizing position with
  | nil => rfl
  | cons r rs ih =>
      have hread := Cursor.words32?_append position (toWords r) (encodeTable rs ++ b)
      rw [LawfulWordRecord.length_toWords] at hread
      have hlen : position + (encodeTable (r :: rs)).length =
          position + 4 * arity α + (encodeTable rs).length := by
        rw [encodeTable_cons, List.length_append, Bytes.length_flatMap_ofWord32,
          LawfulWordRecord.length_toWords]
        omega
      rw [List.length_cons, table?, encodeTable_cons, List.append_assoc, hread, ← encodeTable_cons,
        hlen]
      simp only [Option.bind_eq_bind, Option.bind_some, LawfulWordRecord.ofWords?_toWords, ih]
      rfl

theorem length_of_table? {n : Nat} {c c' : Cursor} {records : List α}
    (h : table? α n c = some (records, c')) : records.length = n := by
  induction n generalizing c records with
  | zero =>
      cases h
      rfl
  | succ n ih =>
      obtain ⟨_, -, h⟩ := Option.bind_eq_some_iff.1 h
      obtain ⟨r, -, h⟩ := Option.bind_eq_some_iff.1 h
      obtain ⟨⟨rest, _⟩, hrest, h⟩ := Option.bind_eq_some_iff.1 h
      cases h
      rw [List.length_cons, ih hrest]

end WordRecord

/-! ## Sections -/

namespace Bytes

def sectionsAt (position : Nat) : List Bytes → Bytes
  | [] => []
  | s :: rest =>
    paddingAt position ++ (s ++ sectionsAt (position + Cursor.padding position + s.length) rest)

theorem length_paddingAt (position : Nat) :
    (paddingAt position).length = Cursor.padding position := by
  simp [paddingAt]

theorem foldl_sections (b : Bytes) (rest : List Bytes) :
    rest.foldl (fun b s => b ++ paddingAt b.length ++ s) b = b ++ sectionsAt b.length rest := by
  induction rest generalizing b with
  | nil => simp [sectionsAt]
  | cons s rest ih =>
      rw [List.foldl_cons, ih]
      simp [sectionsAt, length_paddingAt, Nat.add_assoc]

theorem joinSections_cons (first : Bytes) (rest : List Bytes) :
    joinSections (first :: rest) = first ++ sectionsAt first.length rest :=
  foldl_sections first rest

end Bytes

theorem Cursor.align?_sectionsAt (position : Nat) (s : Bytes) (rest : List Bytes) :
    align? ⟨position, Bytes.sectionsAt position (s :: rest)⟩ =
      some ⟨position + padding position,
        s ++ Bytes.sectionsAt (position + padding position + s.length) rest⟩ := by
  rw [align?, Bytes.sectionsAt, take?_append position _ (Bytes.length_paddingAt position)]
  rfl

end Postmortem
