import Mathlib
import Postmortem.CfiCache.Reader
import Postmortem.Proofs.CfiCache.RuleSets
import Postmortem.Proofs.Distances
import Postmortem.Proofs.Floors
import Postmortem.Proofs.Outcomes
import Postmortem.Proofs.StoredTables
import Postmortem.Proofs.VarInts

/-!
# Entries of corrupt caches

The number of changes in a program is whatever its bytes say, but each change that is read takes two
bytes or more, so reading ends with the bytes at the latest.  Addresses are added up without
overflow and cannot decrease.  Rules are arbitrary strings: however they are folded, the rules in
effect at an address are for distinct registers, and their text is read back as the same rules.
-/

set_option autoImplicit false

namespace Postmortem

theorem Cursor.length_of_take? {n : Nat} {c c' : Cursor} {b : Bytes}
    (h : c.take? n = some (b, c')) : b.length = n := by
  obtain ⟨⟨head, rest⟩, hsplit, h⟩ := Option.map_eq_some_iff.1 h
  cases h
  rw [Bytes.splitAt?] at hsplit
  split at hsplit
  · rename_i hlength
    cases hsplit
    exact hlength
  · cases hsplit

theorem le_of_addExact? {a n sum : UInt64} (h : addExact? a n = some sum) : a ≤ sum := by
  rw [UInt64.le_iff_toNat_le, addExact?_eq_some_iff.1 h]
  exact Nat.le_add_right ..

namespace CfiCache

/-! ## Reading changes -/

def readDelta? (strings : Bytes) (previous : UInt64) (b : Bytes) :
    Option ((UInt64 × String) × Bytes) := do
  let (step, b) := Leb128.read b
  let a ← addExact? previous (← step)
  let (text, b) ← readText? strings b
  return ((a, text), b)

/-- The changes behind an address that are read before the first one that cannot be, up to `n`. -/
def completed (strings : Bytes) : (n : Nat) → UInt64 → Bytes → List (UInt64 × String)
  | 0, _, _ => []
  | n + 1, previous, b =>
    match readDelta? strings previous b with
    | some (d, rest) => d :: completed strings n d.1 rest
    | none => []

variable {strings : Bytes}

theorem length_lt_of_readText? {b rest : Bytes} {text : String}
    (h : readText? strings b = some (text, rest)) : rest.length < b.length := by
  simp only [readText?] at h
  obtain ⟨offset, hoffset, h⟩ := Option.bind_eq_some_iff.1 h
  obtain ⟨_, -, h⟩ := Option.bind_eq_some_iff.1 h
  cases h
  obtain ⟨n, hn, -⟩ := Option.bind_eq_some_iff.1 hoffset
  exact Leb128.length_lt_of_read (Prod.ext hn rfl)

/-- A change takes a byte or more for its address, and one or more for its rules. -/
theorem readDelta?_eq_some {previous : UInt64} {b rest : Bytes} {d : UInt64 × String}
    (h : readDelta? strings previous b = some (d, rest)) :
    previous ≤ d.1 ∧ rest.length + 2 ≤ b.length := by
  simp only [readDelta?] at h
  obtain ⟨step, hstep, h⟩ := Option.bind_eq_some_iff.1 h
  obtain ⟨a, ha, h⟩ := Option.bind_eq_some_iff.1 h
  obtain ⟨x, htext, h⟩ := Option.bind_eq_some_iff.1 h
  cases h
  have haddress : (Leb128.read b).2.length < b.length :=
    Leb128.length_lt_of_read (Prod.ext hstep rfl)
  have hrules : x.2.length < (Leb128.read b).2.length := length_lt_of_readText? htext
  exact ⟨le_of_addExact? ha, by omega⟩

theorem readDeltas?_succ (n : Nat) (previous : UInt64) (b : Bytes) :
    readDeltas? strings (n + 1) previous b =
      (readDelta? strings previous b).bind fun x =>
        (readDeltas? strings n x.1.1 x.2).map (x.1 :: ·) := by
  simp only [readDeltas?, readDelta?]
  cases (Leb128.read b).1 with
  | none => rfl
  | some step =>
      dsimp only [Option.bind_eq_bind, Option.bind_some]
      cases addExact? previous step with
      | none => rfl
      | some a =>
          dsimp only [Option.bind_some]
          cases readText? strings (Leb128.read b).2 with
          | none => rfl
          | some x =>
              dsimp only [Option.bind_some]
              exact (Option.map_eq_bind ..).symm

/-- Reading succeeds if no change stops it early. -/
theorem readDeltas?_eq (n : Nat) (previous : UInt64) (b : Bytes) :
    readDeltas? strings n previous b =
      if (completed strings n previous b).length = n then some (completed strings n previous b)
      else none := by
  fun_induction completed strings n previous b with
  | case1 previous b => rfl
  | case2 n previous b d rest hread ih =>
      rw [readDeltas?_succ, hread, Option.bind_some, ih]
      dsimp only
      -- with one change read, all of them are if the others are
      split
      · rename_i hlength
        rw [Option.map_some, if_pos (by rw [List.length_cons, hlength])]
      · rename_i hlength
        rw [Option.map_none, if_neg (by rw [List.length_cons]; omega)]
  | case3 n previous b hread =>
      rw [readDeltas?_succ, hread]
      rfl

theorem two_mul_length_completed_le (n : Nat) (previous : UInt64) (b : Bytes) :
    2 * (completed strings n previous b).length ≤ b.length := by
  fun_induction completed strings n previous b with
  | case1 previous b => exact Nat.zero_le _
  | case2 n previous b d rest hread ih =>
      have hlength := (readDelta?_eq_some hread).2
      rw [List.length_cons]
      omega
  | case3 n previous b hread => exact Nat.zero_le _

theorem ordered_completed (n : Nat) (previous : UInt64) (b : Bytes) :
    (previous :: (completed strings n previous b).map Prod.fst).Pairwise (· ≤ ·) := by
  fun_induction completed strings n previous b with
  | case1 previous b => exact List.pairwise_singleton ..
  | case2 n previous b d rest hread ih =>
      have hle := (readDelta?_eq_some hread).1
      refine .cons (fun a ha => ?_) ih
      rcases List.mem_cons.1 ha with rfl | ha
      · exact hle
      · exact UInt64.le_trans hle ((List.pairwise_cons.1 ih).1 a ha)
  | case3 n previous b hread => exact List.pairwise_singleton ..

/-! ## Entries -/

variable {bytes : Bytes} {s : CfiCache}

def claimed? (s : CfiCache) (e : EntryRecord) : Option (Nat × Bytes) := do
  let (_, b) ← readText? s.strings (s.programs.drop e.program.toNat)
  let (n, b) := Leb128.read b
  return ((← n).toNat, b)

def stepsOf (s : CfiCache) (e : EntryRecord) : List (UInt64 × String) :=
  match s.claimed? e with
  | some (n, b) => completed s.strings n (addSaturating s.loadAddress e.start.toUInt64) b
  | none => []

theorem length_le_of_claimed? {e : EntryRecord} {n : Nat} {b : Bytes}
    (h : s.claimed? e = some (n, b)) : b.length ≤ s.programs.length := by
  simp only [claimed?] at h
  obtain ⟨x, htext, h⟩ := Option.bind_eq_some_iff.1 h
  obtain ⟨count, hcount, h⟩ := Option.bind_eq_some_iff.1 h
  cases h
  have htext : x.2.length < (s.programs.drop e.program.toNat).length := length_lt_of_readText? htext
  have hcount : (Leb128.read x.2).2.length < x.2.length :=
    Leb128.length_lt_of_read (Prod.ext hcount rfl)
  rw [List.length_drop] at htext
  omega

theorem two_mul_length_stepsOf_le (e : EntryRecord) :
    2 * (s.stepsOf e).length ≤ s.programs.length := by
  rw [stepsOf]
  split
  · rename_i n b hclaimed
    exact Nat.le_trans (two_mul_length_completed_le ..) (length_le_of_claimed? hclaimed)
  · exact Nat.zero_le _

theorem ordered_stepsOf (e : EntryRecord) :
    (addSaturating s.loadAddress e.start.toUInt64 :: (s.stepsOf e).map Prod.fst).Pairwise
      (· ≤ ·) := by
  rw [stepsOf]
  split
  · exact ordered_completed ..
  · exact List.pairwise_singleton ..

theorem bounds_of_decode? {e : EntryRecord} {entry : Entry} (h : s.decode? e = some entry) :
    entry.start = addSaturating s.loadAddress e.start.toUInt64 ∧
      entry.stop = addSaturating s.loadAddress e.stop.toUInt64 := by
  obtain ⟨_, -, h⟩ := Option.bind_eq_some_iff.1 h
  obtain ⟨_, -, h⟩ := Option.bind_eq_some_iff.1 h
  cases h
  exact ⟨rfl, rfl⟩

/-- An entry is decoded only if all changes that its program claims can be read. -/
theorem decode?_eq_some {e : EntryRecord} {entry : Entry} (h : s.decode? e = some entry) :
    entry.start = addSaturating s.loadAddress e.start.toUInt64 ∧
      entry.program.deltas = s.stepsOf e ∧
      (s.claimed? e).map Prod.fst = some (s.stepsOf e).length := by
  obtain ⟨program, hprogram, h⟩ := Option.bind_eq_some_iff.1 h
  obtain ⟨_, -, h⟩ := Option.bind_eq_some_iff.1 h
  cases h
  rw [readProgram?] at hprogram
  split at hprogram
  · cases hprogram
  · obtain ⟨x, htext, hprogram⟩ := Option.bind_eq_some_iff.1 hprogram
    obtain ⟨n, hn, hprogram⟩ := Option.bind_eq_some_iff.1 hprogram
    obtain ⟨deltas, hdeltas, hprogram⟩ := Option.bind_eq_some_iff.1 hprogram
    cases hprogram
    have hclaimed : s.claimed? e = some (n.toNat, (Leb128.read x.2).2) := by
      simp only [claimed?]
      exact Option.bind_eq_some_iff.2 ⟨x, htext, Option.bind_eq_some_iff.2 ⟨n, hn, rfl⟩⟩
    rw [readDeltas?_eq] at hdeltas
    split at hdeltas
    · rename_i hall
      cases hdeltas
      rw [stepsOf, hclaimed]
      exact ⟨rfl, rfl, congrArg some hall.symm⟩
    · cases hdeltas

theorem wellFormed_rulesAt (p : Program) (a : UInt64) : (p.rulesAt a).WellFormed := by
  rw [Program.rulesAt, Program.fold]
  generalize p.deltas.takeWhile (·.1 ≤ a) = deltas
  have hinit := RuleSet.wellFormed_parse p.init
  -- the rules in front of a change are well-formed whatever the changes before it say
  generalize RuleSet.parse p.init = rules at hinit
  induction deltas generalizing rules with
  | nil => exact hinit
  | cons d deltas ih => exact ih _ (hinit.apply d.2)

/-- The record that an address finds covers it, also where records are in no order. -/
theorem covering_record_of_entry {a : UInt64} {entry : Entry} (h : s.entry? a = some entry) :
    ∃ e ∈ s.entries, s.decode? e = some entry ∧
      Within s.loadAddress a ∧ e.start ≤ distance s.loadAddress a ∧
      distance s.loadAddress a < e.stop := by
  unfold entry? at h
  split at h
  · cases h
  · rename_i offset hoffset
    obtain ⟨hwithin, rfl⟩ := offset32?_eq_some_iff.1 hoffset
    dsimp only at h
    split at h
    · cases h
    · rename_i i hpoint
      obtain ⟨e, he, hle⟩ := Bisect.exists_of_partitionPoint_byKey hpoint
      obtain ⟨e', hfound, h⟩ := Option.bind_eq_some_iff.1 h
      obtain ⟨he', hlt⟩ := Option.filter_eq_some_iff.1 hfound
      cases he.symm.trans he'
      exact ⟨e, List.mem_of_getElem? he, h, hwithin, hle, of_decide_eq_true hlt⟩

theorem exists_record_of_entry {a : UInt64} {entry : Entry} (h : s.entry? a = some entry) :
    ∃ e ∈ s.entries, s.decode? e = some entry := by
  obtain ⟨e, he, hentry, -⟩ := covering_record_of_entry h
  exact ⟨e, he, hentry⟩

theorem lengths_of_parse (h : parse bytes = .ok s) :
    s.entries.length = s.header.entries.toNat ∧
      s.programs.length = s.header.programBytes.toNat := by
  obtain ⟨⟨header, _⟩, -, h⟩ := bind_eq_ok.1 h
  obtain ⟨_, -, h⟩ := bind_eq_ok.1 h
  obtain ⟨_, -, h⟩ := bind_eq_ok.1 h
  obtain ⟨⟨entries, _⟩, hentries, h⟩ := bind_eq_ok.1 h
  obtain ⟨_, -, h⟩ := bind_eq_ok.1 h
  obtain ⟨⟨programs, _⟩, hprograms, h⟩ := bind_eq_ok.1 h
  obtain ⟨_, -, h⟩ := bind_eq_ok.1 h
  split at h
  · cases h
  · cases h
    exact ⟨WordRecord.length_of_table? (orFault_eq_ok.1 hentries),
      Cursor.length_of_take? (orFault_eq_ok.1 hprograms)⟩

/-- However corrupt an accepted cache is, and whatever number of changes the program of a record
claims, no more changes are read than half the bytes of all programs.  If an entry is decoded, its
changes are in order and none is below its start.  If an address has an entry, it has a program,
whose text is read back as the rules in effect there, each for a register of its own. -/
theorem corrupt_entries_end (h : parse bytes = .ok s) :
    (∀ e, 2 * (s.stepsOf e).length ≤ s.header.programBytes.toNat) ∧
    (∀ e entry, s.decode? e = some entry →
      entry.program.deltas = s.stepsOf e ∧
      (s.claimed? e).map Prod.fst = some (s.stepsOf e).length ∧
      (entry.start :: entry.program.deltas.map Prod.fst).Pairwise (· ≤ ·)) ∧
    ∀ a entry, s.entry? a = some entry →
      (∃ e ∈ s.entries, s.decode? e = some entry) ∧
      ∃ text, s.programAt? a = some text ∧
        RuleSet.parse text = entry.program.rulesAt a ∧
        RuleSet.Distinct (RuleSet.parse text).rules := by
  refine ⟨fun e => ?_, fun e entry hentry => ?_, fun a entry hentry => ?_⟩
  · rw [← (lengths_of_parse h).2]
    exact two_mul_length_stepsOf_le e
  · obtain ⟨hstart, hdeltas, hclaimed⟩ := decode?_eq_some hentry
    refine ⟨hdeltas, hclaimed, ?_⟩
    rw [hstart, hdeltas]
    exact ordered_stepsOf e
  · have hrules := wellFormed_rulesAt entry.program a
    have hback := RuleSet.parse_toText hrules
    refine ⟨exists_record_of_entry hentry, (entry.program.rulesAt a).toText, ?_, hback, ?_⟩
    · rw [programAt?, hentry, Option.map_some]
    · rw [hback]
      exact hrules.distinct

/-- A cache with two records: the program of one claims all changes that a number can count but ends
within the second, and the rules of the other name a register twice. -/
def truncatedCache : CfiCache :=
  let header : Header :=
    { arch := 0, entries := 2, programBytes := 18, stringBytes := 33, loadAddress := 0x1000 }
  let entries : List EntryRecord := [⟨0, 0x10, 4, 5⟩, ⟨0x10, 0x20, 0, 5⟩]
  let programs := [0, 1, 4, 18] ++ 0 :: Leb128.encode 0xffffffffffffffff ++ [4, 18, 4]
  let strings :=
    StringTable.encodeText ".cfa: a .cfa: b +" ++ StringTable.encodeText "x: .cfa: ^ x::"
  let bytes := Bytes.joinSections
    [header.toBytes, WordRecord.encodeTable entries, programs, strings]
  { bytes, header, entries, programs, strings }

theorem truncated_entries_end : parse truncatedCache.bytes = .ok truncatedCache ∧
    (truncatedCache.claimed? ⟨0, 0x10, 4, 5⟩).map Prod.fst = some 0xffffffffffffffff ∧
    (truncatedCache.stepsOf ⟨0, 0x10, 4, 5⟩).length = 1 ∧
    2 * (truncatedCache.stepsOf ⟨0, 0x10, 4, 5⟩).length ≤ 18 ∧
    ∃ entry, truncatedCache.entry? 0x1014 = some entry ∧
      ∃ text, truncatedCache.programAt? 0x1014 = some text ∧
        RuleSet.parse text = entry.program.rulesAt 0x1014 := by
  have hparse : parse truncatedCache.bytes = .ok truncatedCache := by cbv
  obtain ⟨hsteps, -, hrules⟩ := corrupt_entries_end hparse
  have hentry : truncatedCache.entry? 0x1014 =
      some ⟨0x1010, 0x1020, .breakpad, ⟨".cfa: a .cfa: b +", [(0x1014, "x: .cfa: ^ x::")]⟩⟩ := by
    cbv
  obtain ⟨-, text, htext, hback, -⟩ := hrules 0x1014 _ hentry
  exact ⟨hparse, by cbv, by cbv, hsteps _, _, hentry, text, htext, hback⟩

end CfiCache

end Postmortem
