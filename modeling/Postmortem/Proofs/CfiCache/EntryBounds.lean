import Mathlib
import Postmortem.Proofs.CfiCache.CorruptEntries

/-!
# Entries that end before they start

The bounds of a record are not checked when a cache is read.  An entry that an address finds covers
that address, so it has a text.  A list of all entries shows reversed records as well, and these
have none, unless the ends of both of their bounds are cut off at the end of the address space.
-/

set_option autoImplicit false

namespace Postmortem.CfiCache

/-- Whether a record ends before it starts, and its end is not cut off. -/
structure EntryRecord.Reversed (load : UInt64) (e : EntryRecord) : Prop where
  stop_lt : e.stop < e.start
  fits : load.toNat + e.stop.toNat + 1 < UInt64.size

theorem Entry.toText?_eq_none_iff {entry : Entry} :
    entry.toText? = none ↔ entry.stop < entry.start := by
  rw [toText?, ← UInt64.not_le]
  split
  · rename_i hle
    exact iff_of_false nofun (not_not_intro hle)
  · rename_i hlt
    exact iff_of_true rfl hlt

variable {s : CfiCache} {e : EntryRecord} {entry : Entry} {a : UInt64}

theorem stop_lt_start_iff (h : s.decode? e = some entry) :
    entry.stop < entry.start ↔ e.Reversed s.loadAddress := by
  obtain ⟨hstart, hstop⟩ := bounds_of_decode? h
  rw [hstart, hstop, UInt64.lt_iff_toNat_lt, toNat_addSaturating, toNat_addSaturating,
    UInt32.toNat_toUInt64, UInt32.toNat_toUInt64]
  constructor
  · intro hlt
    exact ⟨UInt32.lt_iff_toNat_lt.2 (by omega), by omega⟩
  · intro hreversed
    have hlt := UInt32.lt_iff_toNat_lt.1 hreversed.stop_lt
    have hfits := hreversed.fits
    omega

theorem exists_record_of_listed (h : entry ∈ s.allEntries) :
    ∃ e ∈ s.entries, s.decode? e = some entry :=
  List.mem_filterMap.1 h

/-- An entry that an address finds covers it.  Only the last address can be at its end. -/
theorem covers_of_entry (h : s.entry? a = some entry) :
    entry.start ≤ a ∧ (a < entry.stop ∨ a = entry.stop ∧ a.toNat + 1 = UInt64.size) := by
  obtain ⟨e, -, hentry, hwithin, hle, hlt⟩ := covering_record_of_entry h
  obtain ⟨hstart, hstop⟩ := bounds_of_decode? hentry
  have hdistance := hwithin.toNat_distance
  have hload := hwithin.1
  have ha : a.toNat < UInt64.size := a.toNat_lt
  rw [UInt32.le_iff_toNat_le] at hle
  rw [UInt32.lt_iff_toNat_lt] at hlt
  have hstart : entry.start.toNat ≤ a.toNat := by
    rw [hstart, toNat_addSaturating, UInt32.toNat_toUInt64]
    omega
  have hstop : a.toNat < entry.stop.toNat ∨
      a.toNat = entry.stop.toNat ∧ a.toNat + 1 = UInt64.size := by
    rw [hstop, toNat_addSaturating, UInt32.toNat_toUInt64]
    omega
  rw [UInt64.le_iff_toNat_le, UInt64.lt_iff_toNat_lt, ← UInt64.toNat_inj]
  exact ⟨hstart, hstop⟩

/-- However corrupt a cache is, an entry that an address finds covers the address and has a text.
A listed entry has one unless it comes from a reversed record. -/
theorem entry_bounds (s : CfiCache) :
    (∀ entry ∈ s.allEntries, ∃ e ∈ s.entries, s.decode? e = some entry ∧
      (entry.toText? = none ↔ e.Reversed s.loadAddress) ∧
      (entry.start ≤ entry.stop ↔ ¬ e.Reversed s.loadAddress)) ∧
    ∀ a entry, s.entry? a = some entry → entry ∈ s.allEntries ∧
      entry.start ≤ a ∧ (a < entry.stop ∨ a = entry.stop ∧ a.toNat + 1 = UInt64.size) ∧
      entry.start ≤ entry.stop ∧ ∃ text, entry.toText? = some text := by
  constructor
  · intro entry hentry
    obtain ⟨e, he, hdecode⟩ := exists_record_of_listed hentry
    refine ⟨e, he, hdecode, ?_, ?_⟩
    · rw [Entry.toText?_eq_none_iff, stop_lt_start_iff hdecode]
    · rw [← UInt64.not_lt, stop_lt_start_iff hdecode]
  · intro a entry hentry
    obtain ⟨e, he, hdecode⟩ := exists_record_of_entry hentry
    obtain ⟨hstart, hstop⟩ := covers_of_entry hentry
    have hle : a ≤ entry.stop := by
      rcases hstop with hlt | ⟨heq, -⟩
      · exact UInt64.le_of_lt hlt
      · exact heq ▸ UInt64.le_refl a
    have hbounds := UInt64.le_trans hstart hle
    refine ⟨List.mem_filterMap.2 ⟨e, he, hdecode⟩, hstart, hstop, hbounds, ?_⟩
    rw [← Option.ne_none_iff_exists', Ne, Entry.toText?_eq_none_iff]
    exact UInt64.not_lt.2 hbounds

def reversedCache : CfiCache :=
  let header : Header :=
    { arch := 201, entries := 2, programBytes := 2, stringBytes := 11, loadAddress := 0x1000 }
  let entries : List EntryRecord := [⟨0, 0x10, 0, 5⟩, ⟨0x20, 0x10, 0, 5⟩]
  let strings := StringTable.encodeText ".cfa: $rsp"
  let bytes := Bytes.joinSections
    [header.toBytes, WordRecord.encodeTable entries, [0, 0], strings]
  { bytes, header, entries, programs := [0, 0], strings }

theorem entry_bounds_sample :
    ∃ entry, reversedCache.entry? 0x100f = some entry ∧ 0x100f < entry.stop ∧
      (∃ text, entry.toText? = some text) ∧
      ∃ e ∈ reversedCache.entries, reversedCache.decode? e = some entry ∧ ¬ e.Reversed 0x1000 := by
  have hentry : reversedCache.entry? 0x100f =
      some ⟨0x1000, 0x1010, .breakpad, ⟨".cfa: $rsp", []⟩⟩ := by cbv
  obtain ⟨hlisted, -, hstop, hle, htext⟩ := (entry_bounds reversedCache).2 0x100f _ hentry
  obtain ⟨e, he, hdecode, -, hreversed⟩ := (entry_bounds reversedCache).1 _ hlisted
  exact ⟨_, hentry, hstop.resolve_right (by decide), htext, e, he, hdecode, hreversed.1 hle⟩

theorem reversed_entry_is_listed : parse reversedCache.bytes = .ok reversedCache ∧
    ∃ entry ∈ reversedCache.allEntries, entry.stop < entry.start ∧ entry.toText? = none := by
  have hparse : parse reversedCache.bytes = .ok reversedCache := by cbv
  have hentry : reversedCache.decode? ⟨0x20, 0x10, 0, 5⟩ =
      some ⟨0x1020, 0x1010, .breakpad, ⟨".cfa: $rsp", []⟩⟩ := by cbv
  have hrecord : ⟨0x20, 0x10, 0, 5⟩ ∈ reversedCache.entries := by simp [reversedCache]
  exact ⟨hparse, _, List.mem_filterMap.2 ⟨_, hrecord, hentry⟩, by decide, by decide⟩

end Postmortem.CfiCache
