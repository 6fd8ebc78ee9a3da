import Mathlib
import Postmortem.Proofs.SymCache.CorruptLookups

/-!
# The addresses of found locations

A location has two absolute addresses: where its function starts, and where its line record does.
In a corrupt cache both may lie outside the address space, as a function and the inlined calls
around the innermost one start anywhere.  A line record that was found does not start above the
address that was looked up, and neither do the range and the innermost call.
-/

set_option autoImplicit false

namespace Postmortem.SymCache

variable {s : SymCache} {a : UInt64} {offset x : UInt32}

/-! ## Relative addresses -/

theorem absolute_eq_overflow_iff :
    s.absolute x = .error .overflow ↔ UInt64.size ≤ s.loadAddress.toNat + x.toNat := by
  rw [absolute, addOrAbort_eq_overflow_iff, UInt32.toNat_toUInt64]

/-- An address that is looked up is the sum of its offset and the load address, so the sum does not
leave the address space for a smaller offset. -/
theorem exists_absolute_of_le (hoffset : s.relative? a = some offset) (hle : x ≤ offset) :
    ∃ b, s.absolute x = .ok b ∧ b ≤ a := by
  obtain ⟨hwithin, rfl⟩ := offset32?_eq_some_iff.1 hoffset
  have hdistance := hwithin.toNat_distance
  have hload := hwithin.1
  have ha : a.toNat < UInt64.size := a.toNat_lt
  rw [UInt32.le_iff_toNat_le] at hle
  cases h : s.absolute x with
  | error abort =>
      have hsum := absolute_eq_overflow_iff.1 h
      omega
  | ok b =>
      have hsum := addOrAbort_eq_ok_iff.1 h
      rw [UInt32.toNat_toUInt64] at hsum
      exact ⟨b, rfl, UInt64.le_iff_toNat_le.2 (by omega)⟩

/-! ## Scopes -/

/-- The outermost call in a range: that of its function. -/
def RangeRecord.outermost (r : RangeRecord) : InlineeRecord :=
  ⟨r.start, r.stop, r.function, absent, 0, r.firstBlock, r.blockCount⟩

def scopesAt (s : SymCache) (r : RangeRecord) (offset : UInt32) : List InlineeRecord :=
  (s.callsAt r offset).map Prod.snd ++ [r.outermost]

def lineIn? (s : SymCache) (offset : UInt32) (n : InlineeRecord) : Option LineTable.Record :=
  s.line? (part s.lineBlocks n.firstBlock.toNat n.blockCount.toNat) offset

/-- Where the line record at an address in a call starts; the start of the call if there is none. -/
def lineStart (s : SymCache) (offset : UInt32) (n : InlineeRecord) : UInt32 :=
  ((s.lineIn? offset n).map (·.address)).getD n.start

/-- Where the function of a call starts; the start of the call if the function does not say. -/
def symbolStart (s : SymCache) (n : InlineeRecord) : UInt32 :=
  let f := (s.function? n.function).getD {}
  if f.entry = absent then n.start else f.entry

theorem locationsIn_eq_map (s : SymCache) (r : RangeRecord) (offset : UInt32) :
    s.locationsIn r offset = (s.scopesAt r offset).map (s.locateCall offset) := by
  rw [locationsIn_eq, scopesAt, List.map_append, List.map_map]
  rfl

theorem symbolAddress_eq_overflow_iff {n : InlineeRecord} :
    (s.locateCall offset n).symbolAddress = .error .overflow ↔
      UInt64.size ≤ s.loadAddress.toNat + (s.symbolStart n).toNat :=
  absolute_eq_overflow_iff

theorem lineStart_le {n : InlineeRecord} (hn : s.lineIn? offset n = none → n.start ≤ offset) :
    s.lineStart offset n ≤ offset := by
  rw [lineStart]
  cases h : s.lineIn? offset n with
  | none => exact hn h
  | some record => exact address_le_of_line? h

theorem lineAddress_eq_overflow_iff {n : InlineeRecord} (hoffset : s.relative? a = some offset) :
    (s.locateCall offset n).lineAddress = .error .overflow ↔
      s.lineIn? offset n = none ∧ UInt64.size ≤ s.loadAddress.toNat + n.start.toNat := by
  have hline : (s.locateCall offset n).lineAddress = s.absolute (s.lineStart offset n) := rfl
  rw [hline]
  -- a record that was found does not start above the address that was looked up
  by_cases h : s.lineIn? offset n = none
  · have hstart : s.lineStart offset n = n.start := by
      rw [lineStart, h, Option.map_none, Option.getD_none]
    rw [hstart, absolute_eq_overflow_iff]
    exact (and_iff_right h).symm
  · obtain ⟨b, hb, -⟩ := exists_absolute_of_le hoffset (lineStart_le fun hnone => absurd hnone h)
    rw [hb]
    exact iff_of_false nofun fun hnone => h hnone.1

theorem start_le_of_scope {r : RangeRecord} {n : InlineeRecord} (hr : r.start ≤ offset)
    (hn : (s.scopesAt r offset).head? = some n ∨ n = r.outermost) : n.start ≤ offset := by
  rcases hn with hn | rfl
  · rw [scopesAt] at hn
    cases hcalls : s.callsAt r offset with
    | nil =>
        rw [hcalls] at hn
        cases hn
        exact hr
    | cons v rest =>
        have hv : (s.callsAt r offset).head? = some v := by rw [hcalls, List.head?_cons]
        rw [hcalls] at hn
        cases hn
        exact (covers_of_head_callsAt hv).1
  · exact hr

/-! ## Lookups -/

/-- However corrupt a cache is, the locations of an address are those of scopes of one range.  The
symbol address of a scope overflows exactly if its function starts too far up, and its line address
exactly if it has no line record there and starts too far up itself, which the first and the last
scope do not.  If all 32-bit offsets fit behind the load address, neither overflows. -/
theorem location_addresses (s : SymCache) (a : UInt64) :
    s.lookup a = [] ∨ ∃ r ∈ s.ranges, ∃ offset, s.relative? a = some offset ∧
      s.lookup a = (s.scopesAt r offset).map (s.locateCall offset) ∧
      (∀ n, ((s.locateCall offset n).symbolAddress = .error .overflow ↔
          UInt64.size ≤ s.loadAddress.toNat + (s.symbolStart n).toNat) ∧
        ((s.locateCall offset n).lineAddress = .error .overflow ↔
          s.lineIn? offset n = none ∧ UInt64.size ≤ s.loadAddress.toNat + n.start.toNat)) ∧
      (∀ n, (s.scopesAt r offset).head? = some n ∨ n = r.outermost →
        ∃ b, (s.locateCall offset n).lineAddress = .ok b ∧ b ≤ a) ∧
      (s.loadAddress.toNat + UInt32.size ≤ UInt64.size →
        ∀ l ∈ s.lookup a, l.symbolAddress ≠ .error .overflow ∧
          l.lineAddress ≠ .error .overflow) := by
  rcases lookup_empty_or_covered s a with h | ⟨r, hr, offset, hoffset, hstart, -, h⟩
  · exact .inl h
  rw [locationsIn_eq_map] at h
  refine .inr ⟨r, hr, offset, hoffset, h, ?_, ?_, ?_⟩
  · intro n
    exact ⟨symbolAddress_eq_overflow_iff, lineAddress_eq_overflow_iff hoffset⟩
  · intro n hn
    exact exists_absolute_of_le hoffset (lineStart_le fun _ => start_le_of_scope hstart hn)
  · intro hfits l hl
    rw [h] at hl
    obtain ⟨n, -, rfl⟩ := List.mem_map.1 hl
    constructor
    · intro habort
      have hsum := symbolAddress_eq_overflow_iff.1 habort
      have hlt : (s.symbolStart n).toNat < UInt32.size := UInt32.toNat_lt _
      omega
    · intro habort
      obtain ⟨-, hsum⟩ := (lineAddress_eq_overflow_iff hoffset).1 habort
      have hlt : n.start.toNat < UInt32.size := UInt32.toNat_lt _
      omega

/-- A cache in which a function and the outer one of two inlined calls start `0x1000` above the load
address, although the range is short. -/
def farCache (load : UInt64) : SymCache where
  header := { debugId := .nil, arch := 0, counts := ⟨0, 1, 1, 2, 0, 0, 0⟩, loadAddress := load }
  files := []
  functions := [⟨absent, absent, 0x1000, 0⟩]
  ranges := [⟨0, 0x20, 0, 0, 0, 0, 0, 2⟩]
  inlinees := [⟨0x1000, 0x1010, 9, absent, 1, 0, 0⟩, ⟨0, 8, 9, 0, 2, 0, 0⟩]
  lineBlocks := []
  lineProgram := []
  strings := []

def farBytes (load : UInt64) : Bytes :=
  let s := farCache load
  Bytes.joinSections [s.header.toBytes, [], WordRecord.encodeTable s.functions,
    WordRecord.encodeTable s.ranges, WordRecord.encodeTable s.inlinees, [], [], []]

theorem lookup_farCache {load : UInt64} (h : offset32? a load = some 4) :
    (farCache load).lookup a =
      [⟨0, 8, 9, 0, 2, 0, 0⟩, ⟨0x1000, 0x1010, 9, absent, 1, 0, 0⟩,
        ⟨0, 0x20, 0, absent, 0, 0, 0⟩].map ((farCache load).locateCall 4) := by
  have hoffset : (farCache load).relative? a = some 4 := h
  have hrange : (farCache load).range? 4 = some ⟨0, 0x20, 0, 0, 0, 0, 0, 2⟩ := by
    have hbelow : compare (0 : UInt32) 4 = .lt := by decide
    simp [range?, Bisect.floor?, Bisect.search, Bisect.narrow, farCache, hbelow]
  rw [lookup, hoffset]
  dsimp only
  rw [hrange]
  dsimp only
  rw [locationsIn_eq_map]
  simp [scopesAt, callsAt, innermost, part, climbed, RangeRecord.outermost, farCache]

theorem location_addresses_sample : parse (farBytes 0x1000) = .ok (farCache 0x1000) ∧
    ((farCache 0x1000).lookup 0x1004).length = 3 ∧
    ∃ l ∈ (farCache 0x1000).lookup 0x1004, l.symbolAddress ≠ .error .overflow ∧
      ∃ b, l.lineAddress = .ok b ∧ b ≤ 0x1004 := by
  have hparse : parse (farBytes 0x1000) = .ok (farCache 0x1000) := by cbv
  have hlength : ((farCache 0x1000).lookup 0x1004).length = 3 := by
    rw [lookup_farCache (by decide), List.length_map]
    rfl
  rcases location_addresses (farCache 0x1000) 0x1004 with
    hnil | ⟨r, -, offset, -, hlookup, -, hends, hfits⟩
  · rw [hnil] at hlength
    cases hlength
  · have houter : (farCache 0x1000).locateCall offset r.outermost ∈
        (farCache 0x1000).lookup 0x1004 := by
      rw [hlookup]
      exact List.mem_map_of_mem (by simp [scopesAt])
    obtain ⟨hsymbol, -⟩ := hfits (by decide) _ houter
    exact ⟨hparse, hlength, _, houter, hsymbol, hends r.outermost (.inr rfl)⟩

theorem far_locations_leave_address_space :
    parse (farBytes 0xffffffffffffff00) = .ok (farCache 0xffffffffffffff00) ∧
    ((farCache 0xffffffffffffff00).lookup 0xffffffffffffff04).map
        (fun l => (l.symbolAddress, l.lineAddress)) =
      [(.ok 0xffffffffffffff00, .ok 0xffffffffffffff00),
        (.error .overflow, .error .overflow), (.error .overflow, .ok 0xffffffffffffff00)] := by
  have hparse : parse (farBytes 0xffffffffffffff00) = .ok (farCache 0xffffffffffffff00) := by cbv
  rw [lookup_farCache (by decide)]
  exact ⟨hparse, rfl⟩

end Postmortem.SymCache
