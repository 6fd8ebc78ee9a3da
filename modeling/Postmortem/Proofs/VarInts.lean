import Mathlib.Algebra.Group.Nat.Defs
import Postmortem.Leb128

/-!
# Variable-length integers are read back

Each 64-bit value, unsigned or signed, fits the ten bytes that reading allows, and is read back from
its shortest encoding with what follows it left over.  Whatever the bytes are, a value that can be
read takes at least one of them.
-/

set_option autoImplicit false

namespace Postmortem.Leb128

theorem toNat_ofNat_of_lt {n : Nat} (h : n < 256) : (UInt8.ofNat n).toNat = n := by
  simp [Nat.mod_eq_of_lt h]

theorem ofNat_lt_128_iff {n : Nat} (h : n < 256) : UInt8.ofNat n < 128 ↔ n < 128 := by
  rw [UInt8.lt_iff_toNat_lt, toNat_ofNat_of_lt h]
  exact Iff.rfl

theorem readNat_ofNat (left n : Nat) (rest : Bytes) (h : n < 2 * 128 ^ left) :
    readNat left (ofNat n ++ rest) = (some n, rest) := by
  induction left generalizing n with
  | zero =>
      have hn : n = 0 ∨ n = 1 := by
        have : n < 2 := by simpa using h
        omega
      rcases hn with rfl | rfl
      · rw [ofNat]; rfl
      · rw [ofNat]; rfl
  | succ left ih =>
      rw [ofNat]
      by_cases hn : n < 128
      · have hb : UInt8.ofNat n < 128 := (ofNat_lt_128_iff (by omega)).2 hn
        rw [if_pos hn, List.singleton_append, readNat, if_pos hb, toNat_ofNat_of_lt (by omega)]
      · have hq : n / 128 < 2 * 128 ^ left := by
          rw [Nat.pow_succ] at h
          omega
        have hb : ¬ UInt8.ofNat (n % 128 + 128) < 128 := by
          rw [ofNat_lt_128_iff (by omega)]
          omega
        rw [if_neg hn, List.cons_append, readNat, if_neg hb, ih _ hq,
          toNat_ofNat_of_lt (by omega)]
        simp only [Option.map_some, Prod.mk.injEq, Option.some.injEq, and_true]
        omega

theorem signedLast_ofNat (n : Int) (low : -64 ≤ n) (high : n < 64) :
    signedLast (UInt8.ofNat (n % 128).toNat) = n := by
  have hb : (UInt8.ofNat (n % 128).toNat).toNat = (n % 128).toNat :=
    toNat_ofNat_of_lt (by omega)
  rw [signedLast]
  by_cases hn : 0 ≤ n
  · have hlt : UInt8.ofNat (n % 128).toNat < 64 := by
      rw [UInt8.lt_iff_toNat_lt, hb]
      show (n % 128).toNat < 64
      omega
    rw [if_pos hlt, hb]
    omega
  · have hge : ¬ UInt8.ofNat (n % 128).toNat < 64 := by
      rw [UInt8.lt_iff_toNat_lt, hb]
      show ¬ (n % 128).toNat < 64
      omega
    rw [if_neg hge, hb]
    omega

theorem readInt_ofInt (left : Nat) (n : Int) (rest : Bytes) (low : -(128 ^ left : Nat) ≤ n)
    (high : n < (128 ^ left : Nat)) : readInt left (ofInt n ++ rest) = (some n, rest) := by
  induction left generalizing n with
  | zero =>
      have hn : n = 0 ∨ n = -1 := by
        simp only [Nat.pow_zero] at low high
        omega
      rcases hn with rfl | rfl
      · rw [ofInt]; rfl
      · rw [ofInt]; rfl
  | succ left ih =>
      rw [ofInt]
      by_cases hn : -64 ≤ n ∧ n < 64
      · have hb : UInt8.ofNat (n % 128).toNat < 128 := (ofNat_lt_128_iff (by omega)).2 (by omega)
        rw [if_pos hn, List.singleton_append, readInt, if_pos hb,
          signedLast_ofNat n hn.1 hn.2]
      · have hlow : -(128 ^ left : Nat) ≤ n / 128 := by
          rw [Nat.pow_succ] at low
          omega
        have hhigh : n / 128 < (128 ^ left : Nat) := by
          rw [Nat.pow_succ] at high
          omega
        have hb : ¬ UInt8.ofNat ((n % 128).toNat + 128) < 128 := by
          rw [ofNat_lt_128_iff (by omega)]
          omega
        rw [if_neg hn, List.cons_append, readInt, if_neg hb, ih _ hlow hhigh,
          toNat_ofNat_of_lt (by omega)]
        simp only [Option.map_some, Prod.mk.injEq, Option.some.injEq, and_true]
        omega

theorem read_ofNat (n : Nat) (rest : Bytes) (h : n < UInt64.size) :
    read (ofNat n ++ rest) = (some (UInt64.ofNat n), rest) := by
  rw [read, readNat_ofNat 9 n rest (by simpa [UInt64.size] using h)]
  rfl

theorem read_encode (n : UInt64) (rest : Bytes) : read (encode n ++ rest) = (some n, rest) := by
  rw [encode, read_ofNat _ _ n.toNat_lt, UInt64.ofNat_toNat]

theorem readSigned_ofInt (n : Int) (rest : Bytes) (low : Int64.minValue.toInt ≤ n)
    (high : n ≤ Int64.maxValue.toInt) :
    readSigned (ofInt n ++ rest) = (some (Int64.ofInt n), rest) := by
  have hmin : Int64.minValue.toInt = -(128 ^ 9 : Nat) := by decide
  have hmax : Int64.maxValue.toInt = (128 ^ 9 : Nat) - 1 := by decide
  rw [readSigned, readInt_ofInt 9 n rest (by omega) (by omega)]
  rfl

theorem ofNat_ne_nil (n : Nat) : ofNat n ≠ [] := by
  rw [ofNat]
  split
  · simp
  · simp

theorem read32_ofNat (n : UInt32) (rest : Bytes) :
    read32 (ofNat n.toNat ++ rest) = (some n, rest) := by
  have hn := n.toNat_lt
  have hsize : n.toNat < UInt64.size := by
    simp only [UInt64.size]
    omega
  have hword : (UInt64.ofNat n.toNat).toNat = n.toNat := by
    simp only [UInt64.toNat_ofNat']
    exact Nat.mod_eq_of_lt hsize
  have hback : (UInt64.ofNat n.toNat).toUInt32 = n := by
    apply UInt32.toNat_inj.1
    rw [UInt64.toNat_toUInt32, hword]
    exact Nat.mod_eq_of_lt hn
  rw [read32, read_ofNat _ _ hsize]
  simp only [Option.bind_some, hword, hback]
  rw [if_pos (by simpa [UInt32.size] using hn)]

/-! ## What reading takes -/

theorem length_lt_of_readNat {left n : Nat} {b rest : Bytes}
    (h : readNat left b = (some n, rest)) : rest.length < b.length := by
  induction b generalizing left n with
  | nil => cases left <;> cases h
  | cons x b ih =>
      cases left with
      | zero =>
          rw [readNat] at h
          split at h
          · cases h
            exact Nat.lt_succ_self _
          · cases h
      | succ left =>
          rw [readNat] at h
          split at h
          · cases h
            exact Nat.lt_succ_self _
          · cases hread : readNat left b with
            | mk high after =>
                rw [hread] at h
                cases high with
                | none => cases h
                | some high =>
                    cases h
                    exact Nat.lt_succ_of_lt (ih hread)

theorem length_lt_of_readInt {left : Nat} {n : Int} {b rest : Bytes}
    (h : readInt left b = (some n, rest)) : rest.length < b.length := by
  induction b generalizing left n with
  | nil => cases left <;> cases h
  | cons x b ih =>
      cases left with
      | zero =>
          rw [readInt] at h
          split at h
          · cases h
            exact Nat.lt_succ_self _
          · cases h
      | succ left =>
          rw [readInt] at h
          split at h
          · cases h
            exact Nat.lt_succ_self _
          · cases hread : readInt left b with
            | mk high after =>
                rw [hread] at h
                cases high with
                | none => cases h
                | some high =>
                    cases h
                    exact Nat.lt_succ_of_lt (ih hread)

theorem length_lt_of_read {n : UInt64} {b rest : Bytes} (h : read b = (some n, rest)) :
    rest.length < b.length := by
  obtain ⟨hn, rfl⟩ := Prod.mk.inj h
  obtain ⟨value, hvalue, -⟩ := Option.map_eq_some_iff.1 hn
  exact length_lt_of_readNat (Prod.ext hvalue rfl)

theorem length_lt_of_readSigned {n : Int64} {b rest : Bytes}
    (h : readSigned b = (some n, rest)) : rest.length < b.length := by
  obtain ⟨hn, rfl⟩ := Prod.mk.inj h
  obtain ⟨value, hvalue, -⟩ := Option.map_eq_some_iff.1 hn
  exact length_lt_of_readInt (Prod.ext hvalue rfl)

end Postmortem.Leb128
