import Mathlib
import Postmortem.Proofs.Distances
import Postmortem.Proofs.Floors
import Postmortem.Proofs.Outcomes
import Postmortem.Proofs.StoredTables
import Postmortem.Proofs.VarInts
import Postmortem.SymCache.Lookup

/-!
# Lookups in corrupt caches

Only the sizes of the sections of a cache are checked when it is read.  A lookup ends all the same:
it climbs from an inlined call to one with a smaller number only, and each line record that it reads
takes bytes of the line program, whatever number of records a block claims.  References that lead
out of their table, out of the line program or out of the strings read as absent.
-/

set_option autoImplicit false

namespace Postmortem

def StringTable.Inside (b : Bytes) (offset : UInt32) : Prop :=
  offset.toNat ≤ b.length ∧ ∃ n rest, Leb128.read (b.drop offset.toNat) = (some n, rest) ∧
    n.toNat ≤ rest.length

theorem StringTable.inside_of_read? {b : Bytes} {offset : UInt32} {t : String}
    (h : read? b offset = some t) : Inside b offset := by
  rw [read?] at h
  split at h
  · cases h
  split at h
  · rename_i hoffset
    split at h
    · rename_i n rest hread
      obtain ⟨⟨head, more⟩, hsplit, -⟩ := Option.bind_eq_some_iff.1 h
      refine ⟨hoffset, n, rest, hread, ?_⟩
      rw [Bytes.splitAt?] at hsplit
      split at hsplit
      · rename_i hlength
        rw [List.length_take] at hlength
        omega
      · cases hsplit
    · cases h
  · cases h

namespace SymCache

/-! ## Line records -/

namespace LineTable

theorem length_of_next? {r next : Record} {program rest : Bytes}
    (h : r.next? program = some (next, rest)) : rest.length + 3 ≤ program.length := by
  let afterStep := (Leb128.read program).2
  let afterLines := (Leb128.readSigned afterStep).2
  simp only [Record.next?] at h
  obtain ⟨_, hstep, h⟩ := Option.bind_eq_some_iff.1 h
  obtain ⟨_, hlines, h⟩ := Option.bind_eq_some_iff.1 h
  obtain ⟨_, hfile, h⟩ := Option.bind_eq_some_iff.1 h
  have hstep : afterStep.length < program.length := Leb128.length_lt_of_read (Prod.ext hstep rfl)
  have hlines : afterLines.length < afterStep.length :=
    Leb128.length_lt_of_readSigned (Prod.ext hlines rfl)
  have hfile : (Leb128.read afterLines).2.length < afterLines.length :=
    Leb128.length_lt_of_read (Prod.ext hfile rfl)
  have hrest : (Leb128.read afterLines).2 = rest := by grind
  rw [hrest] at hfile
  omega

/-- What is read behind a record, up to `n` times: records, until one cannot be read or starts above
an address. -/
def Record.reads (a : UInt32) : (n : Nat) → Record → Bytes → List (Option Record)
  | 0, _, _ => []
  | n + 1, r, program =>
    match r.next? program with
    | some (next, program) =>
      some next :: if next.address ≤ a then reads a n next program else []
    | none => [none]

theorem length_reads_le (a : UInt32) (n : Nat) (r : Record) (program : Bytes) :
    (Record.reads a n r program).length ≤ n := by
  fun_induction Record.reads a n r program with
  | case1 => exact Nat.le_refl _
  | case2 n r program next rest hnext ih =>
      rw [List.length_cons]
      split
      · exact Nat.succ_le_succ ih
      · exact Nat.succ_le_succ (Nat.zero_le _)
  | case3 n r program hnext => exact Nat.succ_le_succ (Nat.zero_le _)

/-- Each record that is read takes three bytes or more. -/
theorem three_mul_length_reads_le (a : UInt32) (n : Nat) (r : Record) (program : Bytes) :
    3 * (Record.reads a n r program).reduceOption.length ≤ program.length := by
  fun_induction Record.reads a n r program with
  | case1 => exact Nat.zero_le _
  | case2 n r program next rest hnext ih =>
      have hlength := length_of_next? hnext
      rw [List.reduceOption_cons_of_some, List.length_cons]
      split
      · omega
      · rw [List.reduceOption_nil, List.length_nil]
        omega
  | case3 n r program hnext => exact Nat.zero_le _

/-- The search ends at the last record that was read and does not start above the address. -/
theorem advance_eq_reads (a : UInt32) (n : Nat) (r : Record) (program : Bytes) :
    Record.advance a n r program =
      ((Record.reads a n r program).reduceOption.filter (·.address ≤ a)).getLast?.getD r := by
  fun_induction Record.reads a n r program with
  | case1 => rfl
  | case2 n r program next rest hnext ih =>
      rw [Record.advance, hnext, List.reduceOption_cons_of_some]
      dsimp only
      split
      · rename_i hle
        rw [ih, List.filter_cons_of_pos (by simpa using hle), List.getLast?_cons, Option.getD_some]
      -- the record that ends the search is above the address
      · rename_i hgt
        rw [List.filter_cons_of_neg (by simpa using hgt)]
        rfl
  | case3 n r program hnext =>
      rw [Record.advance, hnext]
      rfl

end LineTable

open LineTable (Record)

def LineBlock.head (x : LineBlock) : Record := ⟨x.address, x.line, x.file⟩

def LineBlock.reads (x : LineBlock) (program : Bytes) (a : UInt32) : List (Option Record) :=
  Record.reads a (x.size.toNat - 1) x.head (program.drop x.program.toNat)

/-- The last record of a block that is read and does not start above an address. -/
def LineBlock.reached (x : LineBlock) (program : Bytes) (a : UInt32) : Record :=
  ((x.reads program a).reduceOption.filter (·.address ≤ a)).getLast?.getD x.head

variable {b : Bytes} {s : SymCache}

theorem block_of_line? {blocks : List LineBlock} {a : UInt32} {record : Record}
    (h : s.line? blocks a = some record) :
    ∃ x ∈ blocks, x.address ≤ a ∧ record = x.reached s.lineProgram a := by
  obtain ⟨i, hi, h⟩ := Option.bind_eq_some_iff.1 h
  obtain ⟨x, hx, h⟩ := Option.bind_eq_some_iff.1 h
  obtain ⟨x', hx', hle⟩ := Bisect.exists_of_floor?_byKey hi
  cases hx.symm.trans hx'
  refine ⟨x, List.mem_of_getElem? hx, hle, ?_⟩
  rw [← Option.some.inj h, LineTable.advance_eq_reads]
  rfl

theorem line?_cases (blocks : List LineBlock) (a : UInt32) :
    s.line? blocks a = none ∨
      ∃ x ∈ blocks, s.line? blocks a = some (x.reached s.lineProgram a) := by
  cases h : s.line? blocks a with
  | none => exact .inl rfl
  | some record =>
      obtain ⟨x, hx, -, rfl⟩ := block_of_line? h
      exact .inr ⟨x, hx, rfl⟩

/-- No line record that is found starts above the address. -/
theorem address_le_of_line? {blocks : List LineBlock} {a : UInt32} {record : Record}
    (h : s.line? blocks a = some record) : record.address ≤ a := by
  obtain ⟨x, -, hle, rfl⟩ := block_of_line? h
  rw [LineBlock.reached]
  cases hlast : ((x.reads s.lineProgram a).reduceOption.filter (·.address ≤ a)).getLast? with
  | none => exact hle
  | some last =>
      have hmem := List.mem_of_getLast? hlast
      exact of_decide_eq_true (List.mem_filter.1 hmem).2

/-! ## Inlined calls -/

def locateCall (s : SymCache) (a : UInt32) (n : InlineeRecord) : Location :=
  s.locate a n.function n.depth n.start n.firstBlock n.blockCount

def climbed (s : SymCache) (i : Nat) (n : InlineeRecord) : List (Nat × InlineeRecord) :=
  (i, n) ::
    if _h : n.parent.toNat < i then
      match s.inlinees[n.parent.toNat]? with
      | some p => climbed s n.parent.toNat p
      | none => []
    else []
termination_by i

theorem climb_eq_map (s : SymCache) (a : UInt32) (i : Nat) (n : InlineeRecord) :
    s.climb a i n = (s.climbed i n).map fun v => s.locateCall a v.2 := by
  induction i using Nat.strongRecOn generalizing n with
  | ind i ih =>
      rw [climb, climbed, List.map_cons]
      refine congrArg (_ :: ·) ?_
      split
      · rename_i hlt
        cases s.inlinees[n.parent.toNat]? with
        | none => rfl
        | some p => exact ih _ hlt p
      · rfl

/-- One step of climbing: it ends, or goes on from the parent, which has a smaller number. -/
theorem climbed_cases (s : SymCache) (i : Nat) (n : InlineeRecord) :
    s.climbed i n = [(i, n)] ∨
      ∃ p, n.parent.toNat < i ∧ s.inlinees[n.parent.toNat]? = some p ∧
        s.climbed i n = (i, n) :: s.climbed n.parent.toNat p := by
  rw [climbed]
  split
  · rename_i hlt
    cases hp : s.inlinees[n.parent.toNat]? with
    | none => exact .inl rfl
    | some p => exact .inr ⟨p, hlt, rfl, rfl⟩
  · exact .inl rfl

structure Climbs (s : SymCache) (calls : List (Nat × InlineeRecord)) : Prop where
  stored : ∀ v ∈ calls, s.inlinees[v.1]? = some v.2
  descends : calls.Pairwise fun u v => v.1 < u.1
  parents : calls.IsChain fun u v => u.2.parent.toNat = v.1

theorem climbs_climbed {i : Nat} {n : InlineeRecord} (hn : s.inlinees[i]? = some n) :
    s.Climbs (s.climbed i n) ∧ ∀ v ∈ s.climbed i n, v.1 ≤ i := by
  -- the parent of a call may have any number, as long as it is smaller
  induction i using Nat.strongRecOn generalizing n with
  | ind i ih =>
      rcases climbed_cases s i n with h | ⟨p, hlt, hp, h⟩
      · rw [h]
        exact ⟨⟨by simpa using hn, List.pairwise_singleton .., List.isChain_singleton ..⟩, by simp⟩
      · obtain ⟨hclimbs, hle⟩ := ih _ hlt hp
        obtain ⟨rest, hrest⟩ : ∃ rest, s.climbed n.parent.toNat p = (n.parent.toNat, p) :: rest :=
          ⟨_, by rw [climbed]⟩
        rw [hrest] at hclimbs hle
        rw [h, hrest]
        refine ⟨⟨?_, ?_, .cons_cons rfl hclimbs.parents⟩, ?_⟩
        · intro v hv
          rcases List.mem_cons.1 hv with rfl | hv
          · exact hn
          · exact hclimbs.stored v hv
        · exact .cons (fun v hv => Nat.lt_of_le_of_lt (hle v hv) hlt) hclimbs.descends
        · intro v hv
          rcases List.mem_cons.1 hv with rfl | hv
          · exact Nat.le_refl _
          · exact Nat.le_trans (hle v hv) (Nat.le_of_lt hlt)

/-- As the numbers get smaller, no more calls are climbed to than there are. -/
theorem Climbs.length_le {calls : List (Nat × InlineeRecord)} (h : s.Climbs calls) :
    calls.length ≤ s.inlinees.length := by
  have hnodup : (calls.map Prod.fst).Nodup := by
    rw [List.Nodup, List.pairwise_map]
    exact h.descends.imp fun hlt => (Nat.ne_of_lt hlt).symm
  have hsub : calls.map Prod.fst ⊆ List.range s.inlinees.length := by
    intro i hi
    obtain ⟨v, hv, rfl⟩ := List.mem_map.1 hi
    exact List.mem_range.2 (List.getElem?_eq_some_iff.1 (h.stored v hv)).1
  have hlength := (hnodup.subperm hsub).length_le
  rwa [List.length_map, List.length_range] at hlength

theorem getElem?_of_part {α : Type} {l : List α} {first n k : Nat} {x : α}
    (h : (part l first n)[k]? = some x) : l[first + k]? = some x := by
  rw [part] at h
  split at h
  · rw [List.getElem?_take, List.getElem?_drop] at h
    split at h
    · exact h
    · cases h
  · cases h

/-- The innermost call is the best one so far, or one of the list that covers the address. -/
theorem innermost_of_all {P : Nat → InlineeRecord → Prop} {a : UInt32} {i : Nat}
    {best : Option (Nat × InlineeRecord)} {l : List InlineeRecord}
    (hbest : ∀ v ∈ best, P v.1 v.2)
    (hl : ∀ k n, l[k]? = some n → n.start ≤ a → a < n.stop → P (i + k) n) :
    ∀ v ∈ innermost a i best l, P v.1 v.2 := by
  induction l generalizing i best with
  | nil =>
      rw [innermost]
      exact hbest
  | cons n rest ih =>
      rw [innermost.eq_def]
      refine ih ?_ fun k m hk => ?_
      -- the best call is now the first of the list, or it is still the one before
      · intro v hv
        rcases ite_eq_iff.1 (Option.mem_def.1 hv) with ⟨hcovers, h⟩ | ⟨-, h⟩
        · cases h
          simp only [Bool.and_eq_true, decide_eq_true_eq] at hcovers
          exact hl 0 n rfl hcovers.1.1 hcovers.1.2
        · exact hbest v h
      · rw [Nat.add_right_comm]
        exact hl (k + 1) m hk

/-- The inlined calls at an address in a range, with their numbers, innermost first. -/
def callsAt (s : SymCache) (r : RangeRecord) (a : UInt32) : List (Nat × InlineeRecord) :=
  match innermost a r.firstInlinee.toNat none
      (part s.inlinees r.firstInlinee.toNat r.inlineeCount.toNat) with
  | some (i, n) => s.climbed i n
  | none => []

theorem climbs_callsAt (s : SymCache) (r : RangeRecord) (a : UInt32) :
    s.Climbs (s.callsAt r a) := by
  rw [callsAt]
  split
  · rename_i i n hfound
    have hn := innermost_of_all (P := fun i n => s.inlinees[i]? = some n) (by simp)
      (fun k n hk _ _ => getElem?_of_part hk) _ hfound
    exact (climbs_climbed hn).1
  · exact ⟨by simp, .nil, .nil⟩

theorem covers_of_head_callsAt {r : RangeRecord} {a : UInt32} {v : Nat × InlineeRecord}
    (h : (s.callsAt r a).head? = some v) : v.2.start ≤ a ∧ a < v.2.stop := by
  rw [callsAt] at h
  split at h
  · rename_i i n hfound
    rw [climbed] at h
    cases h
    exact innermost_of_all (P := fun _ n => n.start ≤ a ∧ a < n.stop) (by simp)
      (fun _ _ _ hstart hstop => ⟨hstart, hstop⟩) _ hfound
  · cases h

/-- The locations in a range are those of the inlined calls, and last that of the function. -/
theorem locationsIn_eq (s : SymCache) (r : RangeRecord) (a : UInt32) :
    s.locationsIn r a = (s.callsAt r a).map (fun v => s.locateCall a v.2) ++
      [s.locate a r.function 0 r.start r.firstBlock r.blockCount] := by
  rw [locationsIn, callsAt]
  refine congrArg (· ++ _) ?_
  cases innermost a r.firstInlinee.toNat none
      (part s.inlinees r.firstInlinee.toNat r.inlineeCount.toNat) with
  | none => rfl
  | some best => exact climb_eq_map s a best.1 best.2

/-! ## References that lead nowhere -/

theorem lengths_of_parse (h : parse b = .ok s) :
    s.files.length = s.header.counts.files.toNat ∧
      s.inlinees.length = s.header.counts.inlinees.toNat := by
  obtain ⟨⟨header, _⟩, -, h⟩ := bind_eq_ok.1 h
  obtain ⟨_, -, h⟩ := bind_eq_ok.1 h
  obtain ⟨⟨files, _⟩, hfiles, h⟩ := bind_eq_ok.1 h
  obtain ⟨_, -, h⟩ := bind_eq_ok.1 h
  obtain ⟨_, -, h⟩ := bind_eq_ok.1 h
  obtain ⟨⟨inlinees, _⟩, hinlinees, h⟩ := bind_eq_ok.1 h
  obtain ⟨_, -, h⟩ := bind_eq_ok.1 h
  obtain ⟨_, -, h⟩ := bind_eq_ok.1 h
  obtain ⟨_, -, h⟩ := bind_eq_ok.1 h
  obtain ⟨_, -, h⟩ := bind_eq_ok.1 h
  split at h
  · cases h
  · cases h
    obtain ⟨_, -, hfiles⟩ := bind_eq_ok.1 hfiles
    obtain ⟨_, -, hinlinees⟩ := bind_eq_ok.1 hinlinees
    exact ⟨WordRecord.length_of_table? (orFault_eq_ok.1 hfiles),
      WordRecord.length_of_table? (orFault_eq_ok.1 hinlinees)⟩

/-- What leads out of the strings, a table or the line program reads as absent. -/
structure ReadsAbsent (s : SymCache) : Prop where
  strings : ∀ offset, ¬ StringTable.Inside s.strings offset → s.string? offset = none
  functions : ∀ i : UInt32, s.functions.length ≤ i.toNat → s.function? i = none ∧
    ∀ a depth start first count, (s.locate a i depth start first count).function = {}
  files : ∀ i : UInt32, s.files.length ≤ i.toNat → s.file? i = none
  calls : ∀ r a, s.inlinees.length < r.firstInlinee.toNat + r.inlineeCount.toNat →
    s.callsAt r a = []
  blocks : ∀ first count : UInt32, s.lineBlocks.length < first.toNat + count.toNat →
    ∀ a i depth start, (s.locate a i depth start first count).line = 0 ∧
      (s.locate a i depth start first count).file = none
  programs : ∀ (x : LineBlock) a, s.lineProgram.length < x.program.toNat →
    (x.reads s.lineProgram a).reduceOption = []

theorem readsAbsent_of_files (h : s.files.length < UInt32.size) : s.ReadsAbsent where
  strings offset houtside := by
    cases ht : s.string? offset with
    | none => rfl
    | some t => exact absurd (StringTable.inside_of_read? ht) houtside
  functions i hi := by
    have hnone : s.function? i = none := by
      rw [function?, List.getElem?_eq_none hi, Option.map_none]
    refine ⟨hnone, fun a depth start first count => ?_⟩
    rw [locate, hnone]
    rfl
  files i hi := by
    rw [file?, List.getElem?_eq_none hi, Option.map_none]
  calls r a hr := by
    rw [callsAt, part, if_neg (Nat.not_le.2 hr)]
    rfl
  blocks first count hcount a i depth start := by
    have hfile : s.file? absent = none := by
      have hle : s.files.length ≤ absent.toNat := Nat.le_of_lt_succ h
      rw [file?, List.getElem?_eq_none hle, Option.map_none]
    rw [locate, part, if_neg (Nat.not_le.2 hcount)]
    exact ⟨rfl, hfile⟩
  programs x a hx := by
    have hread := LineTable.three_mul_length_reads_le a (x.size.toNat - 1) x.head
      (s.lineProgram.drop x.program.toNat)
    rw [List.drop_eq_nil_of_le (Nat.le_of_lt hx), List.length_nil] at hread
    rw [LineBlock.reads, List.drop_eq_nil_of_le (Nat.le_of_lt hx)]
    exact List.length_eq_zero_iff.1 (by omega)

/-! ## Lookups -/

theorem covers_of_range? {a : UInt32} {r : RangeRecord} (h : s.range? a = some r) :
    r ∈ s.ranges ∧ r.start ≤ a ∧ a < r.stop := by
  obtain ⟨i, hi, h⟩ := Option.bind_eq_some_iff.1 h
  obtain ⟨x, hx, h⟩ := Option.bind_eq_some_iff.1 h
  obtain ⟨x', hx', hle⟩ := Bisect.exists_of_floor?_byKey hi
  cases hx.symm.trans hx'
  split at h
  · rename_i hstop
    cases h
    exact ⟨List.mem_of_getElem? hx, hle, hstop⟩
  · cases h

theorem lookup_empty_or_covered (s : SymCache) (a : UInt64) :
    s.lookup a = [] ∨ ∃ r ∈ s.ranges, ∃ offset, s.relative? a = some offset ∧
      r.start ≤ offset ∧ offset < r.stop ∧ s.lookup a = s.locationsIn r offset := by
  rw [lookup]
  cases s.relative? a with
  | none => exact .inl rfl
  | some offset =>
      dsimp only
      cases h : s.range? offset with
      | none => exact .inl rfl
      | some r =>
          obtain ⟨hr, hstart, hstop⟩ := covers_of_range? h
          exact .inr ⟨r, hr, offset, rfl, hstart, hstop, rfl⟩

theorem lookup_empty_or_located (s : SymCache) (a : UInt64) :
    s.lookup a = [] ∨ ∃ r ∈ s.ranges, ∃ offset, s.relative? a = some offset ∧ offset < r.stop ∧
      s.lookup a = s.locationsIn r offset := by
  rcases lookup_empty_or_covered s a with h | ⟨r, hr, offset, hoffset, -, hstop, h⟩
  · exact .inl h
  · exact .inr ⟨r, hr, offset, hoffset, hstop, h⟩

/-- However corrupt an accepted cache is, a lookup finds nothing or the locations of one range,
whichever range that is: those of inlined calls with smaller and smaller numbers, so that there are
no more of them than the cache has, and last that of the function.  For each location one block is
searched, whichever block that is: fewer records are read behind its first than it claims to have,
and no more than a third of the bytes of the line program. -/
theorem corrupt_lookups_end (h : parse b = .ok s) :
    (∀ a, s.lookup a = [] ∨ ∃ r ∈ s.ranges, ∃ offset, s.relative? a = some offset ∧
      offset < r.stop ∧ s.lookup a = s.locationsIn r offset) ∧
    (∀ r a, s.Climbs (s.callsAt r a) ∧
      (s.locationsIn r a).length ≤ s.header.counts.inlinees.toNat + 1 ∧
      ∃ outer, outer.depth = 0 ∧ outer.function = (s.function? r.function).getD {} ∧
        s.locationsIn r a = (s.callsAt r a).map (fun v => s.locateCall a v.2) ++ [outer]) ∧
    (∀ blocks a, s.line? blocks a = none ∨
      ∃ x ∈ blocks, s.line? blocks a = some (x.reached s.lineProgram a)) ∧
    (∀ (x : LineBlock) a, (x.size = 0 → x.reads s.lineProgram a = []) ∧
      (x.size ≠ 0 → (x.reads s.lineProgram a).length < x.size.toNat) ∧
      3 * (x.reads s.lineProgram a).reduceOption.length ≤ s.lineProgram.length) ∧
    s.ReadsAbsent := by
  obtain ⟨hfiles, hinlinees⟩ := lengths_of_parse h
  have hfit : s.files.length < UInt32.size := hfiles ▸ UInt32.toNat_lt _
  refine ⟨lookup_empty_or_located s, fun r a => ?_, line?_cases, fun x a => ?_,
    readsAbsent_of_files hfit⟩
  · have hclimbs := climbs_callsAt s r a
    refine ⟨hclimbs, ?_, _, rfl, rfl, locationsIn_eq s r a⟩
    rw [locationsIn_eq, List.length_append, List.length_map, List.length_singleton, ← hinlinees]
    exact Nat.succ_le_succ hclimbs.length_le
  · have hsize := LineTable.length_reads_le a (x.size.toNat - 1) x.head
      (s.lineProgram.drop x.program.toNat)
    have hbytes := LineTable.three_mul_length_reads_le a (x.size.toNat - 1) x.head
      (s.lineProgram.drop x.program.toNat)
    rw [List.length_drop] at hbytes
    refine ⟨fun hx => ?_, fun hx => ?_, by rw [LineBlock.reads]; omega⟩
    · rw [LineBlock.reads, hx]
      rfl
    · have hne : x.size.toNat ≠ 0 := fun h => hx (UInt32.toNat_inj.1 h)
      rw [LineBlock.reads]
      omega

/-- A cache without functions and strings in which the parents of two inlined calls lead to each
other, and whose only block claims as many records as its size can say. -/
def cyclicCache : SymCache where
  header :=
    { debugId := .nil, arch := 0, counts := ⟨0, 0, 1, 2, 1, 4, 0⟩, loadAddress := 0 }
  files := []
  functions := []
  ranges := [⟨0, 0x10, 7, 0, 0, 1, 0, 2⟩]
  inlinees := [⟨0, 0x10, 8, 1, 1, 0, 1⟩, ⟨0, 0x10, 9, 0, 2, 0, 0xffffffff⟩]
  lineBlocks := [⟨0, 1, 0, 0, 0xffffffff⟩]
  lineProgram := [1, 1, 0, 1]
  strings := []

theorem cyclic_lookup_ends : ∃ b, parse b = .ok cyclicCache ∧
    (cyclicCache.callsAt ⟨0, 0x10, 7, 0, 0, 1, 0, 2⟩ 4).map Prod.fst = [1, 0] ∧
    (∀ r a, (cyclicCache.locationsIn r a).length ≤ 3) ∧
    ∀ (x : LineBlock) a, 3 * (x.reads cyclicCache.lineProgram a).reduceOption.length ≤ 4 := by
  have hparse : parse (Bytes.joinSections [cyclicCache.header.toBytes, [], [],
      WordRecord.encodeTable cyclicCache.ranges, WordRecord.encodeTable cyclicCache.inlinees,
      WordRecord.encodeTable cyclicCache.lineBlocks, cyclicCache.lineProgram, []]) =
      .ok cyclicCache := by cbv
  obtain ⟨-, hcalls, -, hblocks, -⟩ := corrupt_lookups_end hparse
  refine ⟨_, hparse, ?_, fun r a => (hcalls r a).2.1, fun x a => (hblocks x a).2.2⟩
  simp [callsAt, innermost, part, climbed, cyclicCache]

end SymCache

end Postmortem
