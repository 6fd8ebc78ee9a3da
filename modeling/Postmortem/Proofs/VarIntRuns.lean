import Mathlib.Data.List.Infix
import Postmortem.Proofs.VarInts

/-!
# Runs of variable-length integers

Values that were written one after the other are read back by a reader that asks for the same kinds
of values, and what follows them is left over.  Whatever the data is, each read leaves an end of it,
and a read that gives a value has used at least one byte, so a reader cannot stand still.
-/

set_option autoImplicit false

namespace Postmortem.Leb128

/-! ## What a read leaves -/

theorem suffix_of_tail {b rest : Bytes} {x : UInt8} (h : rest <:+ b) : rest <:+ x :: b :=
  h.trans (List.suffix_cons x b)

theorem skip_suffix (x : UInt8) (rest : Bytes) : skip x rest <:+ rest := by
  induction rest generalizing x with
  | nil =>
      rw [skip]
      split
      · exact List.suffix_refl _
      · exact List.suffix_refl _
  | cons y rest ih =>
      rw [skip]
      split
      · exact List.suffix_refl _
      · exact suffix_of_tail (ih y)

theorem readNat_suffix (left : Nat) (b : Bytes) : (readNat left b).2 <:+ b := by
  induction b generalizing left with
  | nil => cases left <;> exact List.suffix_refl _
  | cons x b ih =>
      cases left with
      | zero =>
          rw [readNat]
          split
          · exact List.suffix_cons x b
          · exact suffix_of_tail (skip_suffix x b)
      | succ left =>
          rw [readNat]
          split
          · exact List.suffix_cons x b
          · exact suffix_of_tail (ih left)

theorem readInt_suffix (left : Nat) (b : Bytes) : (readInt left b).2 <:+ b := by
  induction b generalizing left with
  | nil => cases left <;> exact List.suffix_refl _
  | cons x b ih =>
      cases left with
      | zero =>
          rw [readInt]
          split
          · exact List.suffix_cons x b
          · exact suffix_of_tail (skip_suffix x b)
      | succ left =>
          rw [readInt]
          split
          · exact List.suffix_cons x b
          · exact suffix_of_tail (ih left)

/-- Whether a reader leaves an end of its data, and a shorter one whenever it gives a value. -/
def Advances {α : Type} (reader : Bytes → Option α × Bytes) : Prop :=
  ∀ b, (reader b).2 <:+ b ∧ ∀ n ∈ (reader b).1, (reader b).2.length < b.length

/-- It does not matter what is made of the values. -/
theorem Advances.map {α β : Type} {reader : Bytes → Option α × Bytes} (h : Advances reader)
    (f : α → β) : Advances fun b => ((reader b).1.map f, (reader b).2) := by
  intro b
  refine ⟨(h b).1, fun v hv => ?_⟩
  obtain ⟨n, hn, -⟩ := Option.map_eq_some_iff.1 hv
  exact (h b).2 n hn

theorem advances_read : Advances read := fun b =>
  ⟨readNat_suffix 9 b, fun _ hn => length_lt_of_read (Prod.ext hn rfl)⟩

theorem advances_readSigned : Advances readSigned := fun b =>
  ⟨readInt_suffix 9 b, fun _ hn => length_lt_of_readSigned (Prod.ext hn rfl)⟩

/-- A value that does not fit 32 bits is used up all the same. -/
theorem advances_read32 : Advances read32 := by
  intro b
  refine ⟨readNat_suffix 9 b, fun n hn => ?_⟩
  obtain ⟨wide, hwide, -⟩ := Option.bind_eq_some_iff.1 hn
  exact length_lt_of_read (Prod.ext hwide rfl)

theorem advances_readByte : Advances readByte := by
  intro b
  cases b with
  | nil => exact ⟨List.suffix_refl _, nofun⟩
  | cons x rest => exact ⟨List.suffix_cons x rest, fun _ _ => Nat.lt_succ_self _⟩

/-! ## Runs -/

inductive Value where
  | unsigned (n : UInt64)
  | signed (n : Int64)
  deriving DecidableEq, Repr

inductive Kind where
  | unsigned
  | signed
  deriving DecidableEq, Repr

namespace Value

def kind : Value → Kind
  | unsigned _ => .unsigned
  | signed _ => .signed

def toBytes : Value → Bytes
  | unsigned n => encode n
  | signed n => encodeSigned n

end Value

namespace Kind

def read : Kind → Bytes → Option Value × Bytes
  | unsigned, b => ((Leb128.read b).1.map .unsigned, (Leb128.read b).2)
  | signed, b => ((readSigned b).1.map .signed, (readSigned b).2)

/-- Reads values one after the other, also behind one that cannot be read. -/
def readEach : List Kind → Bytes → List (Option Value) × Bytes
  | [], b => ([], b)
  | k :: rest, b =>
    ((k.read b).1 :: (readEach rest (k.read b).2).1, (readEach rest (k.read b).2).2)

end Kind

theorem readSigned_encodeSigned (n : Int64) (rest : Bytes) :
    readSigned (encodeSigned n ++ rest) = (some n, rest) := by
  rw [encodeSigned, readSigned_ofInt _ _ (Int64.minValue_le_toInt n) (Int64.toInt_le n),
    Int64.ofInt_toInt]

theorem Kind.read_toBytes (v : Value) (rest : Bytes) :
    v.kind.read (v.toBytes ++ rest) = (some v, rest) := by
  cases v with
  | unsigned n => simp only [Value.kind, Value.toBytes, Kind.read, read_encode, Option.map_some]
  | signed n =>
      simp only [Value.kind, Value.toBytes, Kind.read, readSigned_encodeSigned, Option.map_some]

theorem Kind.advances_read (k : Kind) : Advances k.read := by
  cases k with
  | unsigned => exact Leb128.advances_read.map Value.unsigned
  | signed => exact advances_readSigned.map Value.signed

/-- A run of reads uses up at least one byte for each value that it gives. -/
theorem Kind.readEach_advances (ks : List Kind) (b : Bytes) :
    (readEach ks b).2 <:+ b ∧
      (readEach ks b).2.length + (readEach ks b).1.countP Option.isSome ≤ b.length := by
  induction ks generalizing b with
  | nil => exact ⟨List.suffix_refl _, Nat.le_refl _⟩
  | cons k ks ih =>
      obtain ⟨hsuffix, hshorter⟩ := k.advances_read b
      obtain ⟨hrest, hlength⟩ := ih (k.read b).2
      refine ⟨hrest.trans hsuffix, ?_⟩
      rw [readEach]
      cases hvalue : (k.read b).1 with
      | none =>
          have hle := hsuffix.length_le
          rw [List.countP_cons_of_neg (by simp)]
          exact Nat.le_trans hlength hle
      | some v =>
          have hlt := hshorter v hvalue
          rw [List.countP_cons_of_pos (by rfl)]
          exact Nat.le_trans (Nat.succ_le_succ hlength) hlt

theorem Kind.readEach_toBytes (vs : List Value) (rest : Bytes) :
    readEach (vs.map Value.kind) (vs.flatMap Value.toBytes ++ rest) = (vs.map some, rest) := by
  induction vs with
  | nil => rfl
  | cons v vs ih =>
      rw [List.map_cons, List.flatMap_cons, List.append_assoc, readEach, Kind.read_toBytes, ih,
        List.map_cons]

/-- Written values are read back with what follows them left over, and on any data each read, and
each run of them, only moves towards the end. -/
theorem written_values_read_back :
    (∀ (vs : List Value) (rest : Bytes),
      Kind.readEach (vs.map Value.kind) (vs.flatMap Value.toBytes ++ rest) =
        (vs.map some, rest)) ∧
    (Advances read ∧ Advances readSigned ∧ Advances read32 ∧ Advances readByte) ∧
    ∀ (ks : List Kind) (b : Bytes), (Kind.readEach ks b).2 <:+ b ∧
      (Kind.readEach ks b).2.length + (Kind.readEach ks b).1.countP Option.isSome ≤ b.length :=
  ⟨Kind.readEach_toBytes, ⟨advances_read, advances_readSigned, advances_read32,
    advances_readByte⟩, Kind.readEach_advances⟩

/-- The ends of the 64-bit numbers take all ten bytes. -/
example : Kind.readEach [.unsigned, .signed, .signed]
    ([Value.unsigned 0xffffffffffffffff, .signed Int64.minValue, .signed (-65)].flatMap
      Value.toBytes ++ [0x80]) =
      ([some (.unsigned 0xffffffffffffffff), some (.signed Int64.minValue), some (.signed (-65))],
        [0x80]) := by
  decide +kernel

end Postmortem.Leb128
