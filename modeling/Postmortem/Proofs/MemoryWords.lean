import Mathlib.Algebra.BigOperators.Intervals
import Mathlib.Algebra.BigOperators.Ring.Finset
import Mathlib.Tactic.Ring
import Postmortem.Memory
import Postmortem.Proofs.StoredTables

/-!
# Words in memory

What is read at an address is the number that the bytes there spell, with the lowest byte or the
highest one first.  Eight bytes are two words of four, and memory that is made of words reads back
as these words, cut down to their width.
-/

set_option autoImplicit false

namespace Postmortem

open Finset (range sum_congr sum_range_succ' sum_range_reflect mul_sum)

namespace Bytes

theorem leNat_append (a b : Bytes) : leNat (a ++ b) = leNat a + 256 ^ a.length * leNat b := by
  induction a with
  | nil => simp [leNat]
  | cons x a ih =>
      rw [List.cons_append, leNat, leNat, ih, List.length_cons]
      ring

theorem leNat_eq_sum (b : Bytes) :
    leNat b = ∑ k ∈ range b.length, (b[k]?.getD 0).toNat * 256 ^ k := by
  induction b with
  | nil => rfl
  | cons x b ih =>
      rw [List.length_cons, sum_range_succ', leNat, ih, mul_sum]
      have hshift : ∀ k ∈ range b.length, 256 * ((b[k]?.getD 0).toNat * 256 ^ k) =
          ((x :: b)[k + 1]?.getD 0).toNat * 256 ^ (k + 1) := by
        intro k _
        rw [List.getElem?_cons_succ]
        ring
      rw [sum_congr rfl hshift]
      simp [Nat.add_comm]

theorem take_ofNatLE {k width : Nat} (h : k ≤ width) (n : Nat) :
    (ofNatLE width n).take k = ofNatLE k n := by
  induction k generalizing width n with
  | zero => rfl
  | succ k ih =>
      cases width with
      | zero => omega
      | succ width => rw [ofNatLE, ofNatLE, List.take_succ_cons, ih (by omega)]

end Bytes

/-- Where pieces of one length are joined, each lies behind as many of that length as there are
pieces before it. -/
theorem take_drop_flatMap {α β : Type} {f : α → List β} {n : Nat} (hf : ∀ x, (f x).length = n)
    (l : List α) (i : Nat) : ((l.flatMap f).drop (i * n)).take n = (l[i]?.map f).getD [] := by
  induction l generalizing i with
  | nil => simp
  | cons x l ih =>
      rw [List.flatMap_cons]
      cases i with
      | zero => simp [← hf x]
      | succ i =>
          have hskip : (i + 1) * n = (f x).length + i * n := by
            rw [hf x]
            ring
          rw [hskip, List.drop_length_add_append, List.getElem?_cons_succ, ih i]

namespace MemoryRegion

theorem isSome_read?_iff {m : MemoryRegion} {e : Endian} {width : Nat} {a : UInt64}
    (hwidth : 0 < width) :
    (m.read? e width a).isSome ↔
      m.base.toNat ≤ a.toNat ∧ a.toNat + width ≤ m.base.toNat + m.size := by
  rw [read?, ← UInt64.le_iff_toNat_le]
  by_cases hbase : m.base ≤ a
  · have hle := UInt64.le_iff_toNat_le.1 hbase
    rw [if_pos hbase]
    simp only [Array.length_toList, Array.size_extract]
    split
    · rename_i hlength
      have : a.toNat + width ≤ m.base.toNat + m.size := by
        simp only [size]
        omega
      simp [hbase, this]
    · rename_i hlength
      have : ¬ a.toNat + width ≤ m.base.toNat + m.size := by
        simp only [size]
        omega
      simp [this]
  · simp [hbase]

variable {m : MemoryRegion} {e : Endian} {width n v : Nat} {a : UInt64}

def bytesAt (m : MemoryRegion) (a : UInt64) (n : Nat) : Bytes :=
  (m.contents.toList.drop (a.toNat - m.base.toNat)).take n

theorem length_bytesAt (hfits : a.toNat + n ≤ m.base.toNat + m.size)
    (hbase : m.base.toNat ≤ a.toNat) : (m.bytesAt a n).length = n := by
  rw [size] at hfits
  simp only [bytesAt, List.length_take, List.length_drop, Array.length_toList]
  omega

theorem read?_eq (m : MemoryRegion) (e : Endian) (width : Nat) (a : UInt64) :
    m.read? e width a =
      if m.base ≤ a then
        if (m.bytesAt a width).length = width then some (e.decode (m.bytesAt a width)) else none
      else none := by
  have hbytes : (m.contents.extract (a.toNat - m.base.toNat)
      (a.toNat - m.base.toNat + width)).toList = m.bytesAt a width := by
    rw [bytesAt, Array.toList_extract, List.extract, Nat.add_sub_cancel_left]
  rw [← hbytes]
  rfl

theorem read?_eq_some_iff (hwidth : 0 < width) :
    m.read? e width a = some v ↔
      m.base.toNat ≤ a.toNat ∧ a.toNat + width ≤ m.base.toNat + m.size ∧
        e.decode (m.bytesAt a width) = v := by
  constructor
  · intro h
    obtain ⟨hbase, hfits⟩ := (isSome_read?_iff hwidth).1 (Option.isSome_of_eq_some h)
    rw [read?_eq, if_pos (UInt64.le_iff_toNat_le.2 hbase), if_pos (length_bytesAt hfits hbase)] at h
    exact ⟨hbase, hfits, Option.some.inj h⟩
  · rintro ⟨hbase, hfits, rfl⟩
    rw [read?_eq, if_pos (UInt64.le_iff_toNat_le.2 hbase), if_pos (length_bytesAt hfits hbase)]

/-! ## Numbers that bytes spell -/

def byteAt (m : MemoryRegion) (a : Nat) : UInt8 := m.contents[a - m.base.toNat]?.getD 0

def number (m : MemoryRegion) (e : Endian) (width a : Nat) : Nat :=
  match e with
  | .little => ∑ k ∈ range width, (m.byteAt (a + k)).toNat * 256 ^ k
  | .big => ∑ k ∈ range width, (m.byteAt (a + k)).toNat * 256 ^ (width - 1 - k)

theorem getD_bytesAt {k : Nat} (hbase : m.base.toNat ≤ a.toNat) (hk : k < n) :
    (m.bytesAt a n)[k]?.getD 0 = m.byteAt (a.toNat + k) := by
  have hindex : a.toNat - m.base.toNat + k = a.toNat + k - m.base.toNat := by omega
  rw [bytesAt, byteAt, List.getElem?_take_of_lt hk, List.getElem?_drop, Array.getElem?_toList,
    hindex]

theorem decode_bytesAt (hbase : m.base.toNat ≤ a.toNat)
    (hfits : a.toNat + width ≤ m.base.toNat + m.size) :
    e.decode (m.bytesAt a width) = m.number e width a.toNat := by
  have hlength := length_bytesAt hfits hbase
  cases e with
  | little =>
      rw [Endian.decode, Bytes.leNat_eq_sum, hlength, number]
      apply sum_congr rfl
      intro k hk
      rw [getD_bytesAt hbase (Finset.mem_range.1 hk)]
  | big =>
      rw [Endian.decode, Bytes.leNat_eq_sum, List.length_reverse, hlength, number,
        ← sum_range_reflect]
      -- counted from the other end, a byte has as many above it as it had below it
      apply sum_congr rfl
      intro k hk
      have hk := Finset.mem_range.1 hk
      have hback : width - 1 - (width - 1 - k) = k := by omega
      rw [List.getElem?_reverse (by omega), hlength, hback, getD_bytesAt hbase hk]

/-! ## Two words in one -/

theorem bytesAt_add {b : UInt64} {k : Nat} (hb : b.toNat = a.toNat + k)
    (hbase : m.base.toNat ≤ a.toNat) : m.bytesAt a (k + n) = m.bytesAt a k ++ m.bytesAt b n := by
  have hindex : b.toNat - m.base.toNat = a.toNat - m.base.toNat + k := by omega
  rw [bytesAt, bytesAt, bytesAt, hindex, List.take_add, List.drop_drop]

theorem read?_double {b : UInt64} (hb : b.toNat = a.toNat + 4) :
    m.read? .little 8 a = some v ↔
      ∃ low high, m.read? .little 4 a = some low ∧ m.read? .little 4 b = some high ∧
        v = low + 2 ^ 32 * high := by
  have hsplit (hbase : m.base.toNat ≤ a.toNat) (hfits : a.toNat + 4 ≤ m.base.toNat + m.size) :
      Endian.little.decode (m.bytesAt a 8) =
        Endian.little.decode (m.bytesAt a 4) + 2 ^ 32 * Endian.little.decode (m.bytesAt b 4) := by
    simp only [Endian.decode]
    rw [show 8 = 4 + 4 from rfl, bytesAt_add hb hbase, Bytes.leNat_append,
      length_bytesAt hfits hbase]
    rfl
  simp only [read?_eq_some_iff (by decide : 0 < 8), read?_eq_some_iff (by decide : 0 < 4)]
  constructor
  · rintro ⟨hbase, hfits, rfl⟩
    exact ⟨_, _, ⟨hbase, by omega, rfl⟩, ⟨by omega, by omega, rfl⟩, hsplit hbase (by omega)⟩
  · rintro ⟨low, high, ⟨hbase, hlow, rfl⟩, ⟨-, hhigh, rfl⟩, rfl⟩
    exact ⟨hbase, by omega, hsplit hbase hlow⟩

/-! ## Memory made of words -/

theorem bytesAt_ofWords {base : UInt64} {i : Nat} (hwidth : width ≤ 8)
    (ha : a.toNat = base.toNat + i * width) (words : List UInt64) :
    (ofWords base words width).bytesAt a width =
      (words[i]?.map fun w => Bytes.ofNatLE width w.toNat).getD [] := by
  have hword (w : UInt64) : (Bytes.ofWord64 w).take width = Bytes.ofNatLE width w.toNat :=
    Bytes.take_ofNatLE hwidth _
  have hindex : a.toNat - base.toNat = i * width := by omega
  simp only [bytesAt, ofWords, hindex, hword]
  exact take_drop_flatMap (fun w => Bytes.length_ofNatLE width w.toNat) words i

theorem read?_ofWords {base : UInt64} {i : Nat} (hpos : 0 < width) (hwidth : width ≤ 8)
    (ha : a.toNat = base.toNat + i * width) (words : List UInt64) :
    (ofWords base words width).read? .little width a =
      words[i]?.map fun w => w.toNat % 2 ^ (8 * width) := by
  have hbase : (ofWords base words width).base ≤ a :=
    UInt64.le_iff_toNat_le.2 (ha ▸ Nat.le_add_right _ _)
  rw [read?_eq, if_pos hbase, bytesAt_ofWords hwidth ha]
  cases words[i]? with
  | none => exact if_neg (Nat.ne_of_lt hpos)
  | some w =>
      have hmod : Bytes.leNat (Bytes.ofNatLE width w.toNat) = w.toNat % 2 ^ (8 * width) := by
        rw [Bytes.leNat_ofNatLE_mod, Nat.pow_mul]
      simp only [Option.map_some, Option.getD_some, Bytes.length_ofNatLE, if_pos, Endian.decode,
        hmod]

/-- A read succeeds exactly if all of its bytes lie in the region, in numbers without bound, and
gives the number that these bytes spell.  The eight bytes at an address are the four bytes there and
the four at the next word, if that is an address.  Memory made of words gives back each word, as
much of it as the width holds, and has no others. -/
theorem reads_spell_bytes (m : MemoryRegion) :
    (∀ e width (a : UInt64) v, 0 < width →
      (m.read? e width a = some v ↔
        m.base.toNat ≤ a.toNat ∧ a.toNat + width ≤ m.base.toNat + m.size ∧
          v = m.number e width a.toNat)) ∧
    (∀ a b : UInt64, b.toNat = a.toNat + 4 → ∀ v,
      (m.read? .little 8 a = some v ↔
        ∃ low high, m.read? .little 4 a = some low ∧ m.read? .little 4 b = some high ∧
          v = low + 2 ^ 32 * high)) ∧
    ∀ (base : UInt64) words width i (a : UInt64), 0 < width → width ≤ 8 →
      a.toNat = base.toNat + i * width →
      (ofWords base words width).read? .little width a =
        words[i]?.map fun w => w.toNat % 2 ^ (8 * width) := by
  refine ⟨fun e width a v hwidth => ?_, fun a b hb v => read?_double hb,
    fun base words width i a hpos hwidth ha => read?_ofWords hpos hwidth ha words⟩
  rw [read?_eq_some_iff hwidth]
  constructor
  · rintro ⟨hbase, hfits, rfl⟩
    exact ⟨hbase, hfits, decode_bytesAt hbase hfits⟩
  · rintro ⟨hbase, hfits, rfl⟩
    exact ⟨hbase, hfits, decode_bytesAt hbase hfits⟩

def lastBytes : MemoryRegion := ⟨0xfffffffffffffff8, #[1, 2, 3, 4, 5, 6, 7, 8]⟩

theorem reads_spell_bytes_sample :
    lastBytes.read? .big 4 0xfffffffffffffffc = some 0x05060708 ∧
      lastBytes.read? .little 4 0xfffffffffffffffd = none ∧
      lastBytes.read? .little 8 0xfffffffffffffff8 = some (0x04030201 + 2 ^ 32 * 0x08070605) ∧
      (ofWords 0xfffffffffffffff8 [7, 0x100000009] 4).read? .little 4 0xfffffffffffffffc =
        some 9 := by
  obtain ⟨hspells, hdouble, hwords⟩ := reads_spell_bytes lastBytes
  have hlow : lastBytes.read? .little 4 0xfffffffffffffff8 = some 0x04030201 :=
    (hspells .little 4 _ _ (by decide)).2 ⟨by decide, by decide, by decide⟩
  have hhigh : lastBytes.read? .little 4 0xfffffffffffffffc = some 0x08070605 :=
    (hspells .little 4 _ _ (by decide)).2 ⟨by decide, by decide, by decide⟩
  refine ⟨(hspells .big 4 _ _ (by decide)).2 ⟨by decide, by decide, by decide⟩, ?_,
    (hdouble _ 0xfffffffffffffffc (by decide) _).2 ⟨_, _, hlow, hhigh, rfl⟩,
    hwords _ [7, 0x100000009] 4 1 _ (by decide) (by decide) (by decide)⟩
  -- one byte further on, the last of four bytes is not there
  rw [Option.eq_none_iff_forall_ne_some]
  intro v hv
  obtain ⟨-, hfits, -⟩ := (hspells .little 4 _ v (by decide)).1 hv
  exact absurd hfits (by decide)

end MemoryRegion

end Postmortem
