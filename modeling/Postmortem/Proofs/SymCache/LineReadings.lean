import Mathlib.Data.List.TakeWhile
import Postmortem.Proofs.RecordsInEffect
import Postmortem.SymCache.LineTable

/-!
# What line tables say

A line table is read by its last row up to an address.  Settling sized rows keeps what they say of
each address: the gaps between them read as no line, and rows that repeat their predecessor are not
missed.  Clipping a table keeps what it says of the addresses that are left.
-/

set_option autoImplicit false

namespace Postmortem.SymCache

def SizedRow.EndedBy (r : SizedRow) (a : UInt64) : Prop :=
  ∃ stop ∈ r.stop, r.row.address < stop ∧ stop ≤ a

instance (r : SizedRow) (a : UInt64) : Decidable (r.EndedBy a) :=
  inferInstanceAs (Decidable (∃ stop ∈ r.stop, _))

namespace LineTable

/-- The last row up to an address. -/
def rowAt? (a : UInt64) (rows : List LineRow) : Option LineRow :=
  (rows.filter (·.address ≤ a)).getLast?

/-- The line and the file of a row; without a row, line zero and no file. -/
def reading : Option LineRow → UInt32 × UInt32
  | some r => (r.line, r.file)
  | none => (0, absent)

def Increasing (rows : List LineRow) : Prop := rows.Pairwise fun r s => r.address < s.address

theorem rowAt?_append (a : UInt64) (rows more : List LineRow) :
    rowAt? a (rows ++ more) = (rowAt? a more).or (rowAt? a rows) := by
  rw [rowAt?, rowAt?, rowAt?, List.filter_append, List.getLast?_append]

theorem rowAt?_eq_none {a : UInt64} {rows : List LineRow} (h : ∀ r ∈ rows, a < r.address) :
    rowAt? a rows = none := by
  rw [rowAt?, List.getLast?_eq_none_iff, List.filter_eq_nil_iff]
  intro r hr
  rw [decide_eq_true_eq, UInt64.not_le]
  exact h r hr

theorem rowAt?_of_le {a : UInt64} {rows : List LineRow} (h : ∀ r ∈ rows, r.address ≤ a) :
    rowAt? a rows = rows.getLast? := by
  rw [rowAt?, List.filter_eq_self.2]
  intro r hr
  exact decide_eq_true (h r hr)

theorem address_le_of_rowAt? {a : UInt64} {rows : List LineRow} {r : LineRow}
    (h : rowAt? a rows = some r) : r ∈ rows ∧ r.address ≤ a := by
  have hmem := List.mem_filter.1 (List.mem_of_getLast? h)
  exact ⟨hmem.1, of_decide_eq_true hmem.2⟩

/-! ## One row for each address -/

theorem firstPerAddress_eq {rows : List SizedRow}
    (sorted : rows.Pairwise fun r s => r.row.address ≤ s.row.address) :
    firstPerAddress rows = firsts (·.row.address) rows := by
  fun_induction firstPerAddress rows with
  | case1 => rfl
  | case2 r => rfl
  | case3 r next rest heq ih =>
      have hsub : (r :: rest).Sublist (r :: next :: rest) := .cons_cons r (.cons next (.refl rest))
      rw [ih (sorted.sublist hsub), firsts, firsts, firsts]
      simp only [List.filter_cons, heq, ne_eq, not_true_eq_false, decide_false,
        Bool.false_eq_true, if_false, List.filter_filter, Bool.and_self]
  | case4 r next rest hne ih =>
      obtain ⟨hr, hrest⟩ := List.pairwise_cons.1 sorted
      have hnext : r.row.address < next.row.address :=
        UInt64.lt_of_le_of_ne (hr next (List.mem_cons_self ..)) hne
      rw [ih hrest]
      refine congrArg (r :: ·) (List.filter_eq_self.2 ?_).symm
      intro s hs
      have hs := (firsts_sublist (·.row.address) (next :: rest)).subset hs
      have hle : next.row.address ≤ s.row.address := by
        rcases List.mem_cons.1 hs with rfl | hs
        · exact UInt64.le_refl _
        · exact (List.pairwise_cons.1 hrest).1 s hs
      exact decide_eq_true (UInt64.ne_of_lt (UInt64.lt_of_lt_of_le hnext hle)).symm

/-! ## Settling -/

def nextAddress (stop : UInt64) : List SizedRow → UInt64
  | [] => stop
  | n :: _ => n.row.address

/-- What is kept of one row. -/
def keptOf (last : Option LineRow) (r : SizedRow) : List LineRow :=
  if repeats last r.row then [] else [r.row]

theorem settleFrom_cons (stop : UInt64) (last : Option LineRow) (r : SizedRow)
    (rest : List SizedRow) :
    settleFrom stop last (r :: rest) =
      (keptOf last r ++ (gap? r (nextAddress stop rest)).toList) ++
        settleFrom stop
          ((keptOf last r ++ (gap? r (nextAddress stop rest)).toList).getLast?.or last) rest := by
  rfl

theorem mem_keptOf {last : Option LineRow} {r : SizedRow} {x : LineRow}
    (h : x ∈ keptOf last r) : x = r.row := by
  rw [keptOf] at h
  split at h
  · simp at h
  · exact List.mem_singleton.1 h

theorem gap?_eq_some {r : SizedRow} {next : UInt64} {x : LineRow} (h : gap? r next = some x) :
    ∃ stop, r.stop = some stop ∧ r.row.address < stop ∧ stop < next ∧ x = ⟨stop, 0, absent⟩ := by
  rw [gap?] at h
  split at h
  · rename_i stop hstop
    split at h
    · rename_i hgap
      rw [Bool.and_eq_true, decide_eq_true_eq, decide_eq_true_eq] at hgap
      rw [Option.some.injEq] at h
      exact ⟨stop, hstop, hgap.1, hgap.2, h.symm⟩
    · cases h
  · cases h

theorem mem_here {last : Option LineRow} {r : SizedRow} {next : UInt64} {x : LineRow}
    (hnext : r.row.address < next) (h : x ∈ keptOf last r ++ (gap? r next).toList) :
    r.row.address ≤ x.address ∧ x.address < next := by
  rcases List.mem_append.1 h with h | h
  · rw [mem_keptOf h]
    exact ⟨UInt64.le_refl _, hnext⟩
  · rw [Option.mem_toList] at h
    obtain ⟨stop, -, hlt, hstop, rfl⟩ := gap?_eq_some h
    exact ⟨UInt64.le_of_lt hlt, hstop⟩

/-- A row that is left out repeats the one before it, so either way its line and file are read. -/
theorem reading_keptOf (last : Option LineRow) (r : SizedRow) :
    reading ((keptOf last r).getLast?.or last) = (r.row.line, r.row.file) := by
  rw [keptOf]
  split
  · rename_i hrep
    cases last with
    | none => cases hrep
    | some l =>
        rw [repeats.eq_def, Bool.and_eq_true, beq_iff_eq, beq_iff_eq] at hrep
        simp [reading, hrep.1, hrep.2]
  · rfl

structure Ascending (stop : UInt64) (rows : List SizedRow) : Prop where
  increasing : rows.Pairwise fun r s => r.row.address < s.row.address
  before : ∀ r ∈ rows, r.row.address < stop

theorem Ascending.tail {stop : UInt64} {r : SizedRow} {rest : List SizedRow}
    (h : Ascending stop (r :: rest)) : Ascending stop rest :=
  ⟨(List.pairwise_cons.1 h.increasing).2, fun s hs => h.before s (List.mem_cons_of_mem _ hs)⟩

theorem Ascending.lt_next {stop : UInt64} {r : SizedRow} {rest : List SizedRow}
    (h : Ascending stop (r :: rest)) : r.row.address < nextAddress stop rest := by
  cases rest with
  | nil => exact h.before r (List.mem_cons_self ..)
  | cons n rest => exact (List.pairwise_cons.1 h.increasing).1 n (List.mem_cons_self ..)

theorem Ascending.next_le {stop : UInt64} {rows : List SizedRow} (h : Ascending stop rows)
    {s : SizedRow} (hs : s ∈ rows) : nextAddress stop rows ≤ s.row.address := by
  cases rows with
  | nil => simp at hs
  | cons r rest =>
      rcases List.mem_cons.1 hs with rfl | hs
      · exact UInt64.le_refl _
      · exact UInt64.le_of_lt ((List.pairwise_cons.1 h.increasing).1 s hs)

theorem mem_settleFrom {stop : UInt64} {last : Option LineRow} {rows : List SizedRow}
    {x : LineRow} (h : Ascending stop rows) (hx : x ∈ settleFrom stop last rows) :
    nextAddress stop rows ≤ x.address ∧ x.address < stop := by
  induction rows generalizing last with
  | nil => simp [settleFrom] at hx
  | cons r rest ih =>
      have hnext := h.lt_next
      rw [settleFrom_cons] at hx
      rcases List.mem_append.1 hx with hx | hx
      · obtain ⟨hlow, hhigh⟩ := mem_here hnext hx
        refine ⟨hlow, ?_⟩
        cases rest with
        | nil => exact hhigh
        | cons n rest => exact UInt64.lt_trans hhigh (h.before n (by simp))
      · obtain ⟨hlow, hhigh⟩ := ih h.tail hx
        exact ⟨UInt64.le_trans (UInt64.le_of_lt hnext) hlow, hhigh⟩

theorem increasing_here {last : Option LineRow} {r : SizedRow} {next : UInt64} :
    Increasing (keptOf last r ++ (gap? r next).toList) := by
  refine List.pairwise_append.2 ⟨?_, ?_, ?_⟩
  · rw [keptOf]
    split
    · exact .nil
    · exact List.pairwise_singleton _ _
  · cases gap? r next with
    | none => exact .nil
    | some x => exact List.pairwise_singleton _ _
  · intro x hx y hy
    rw [Option.mem_toList] at hy
    obtain ⟨stop, -, hlt, -, rfl⟩ := gap?_eq_some hy
    rw [mem_keptOf hx]
    exact hlt

theorem increasing_settleFrom {stop : UInt64} {last : Option LineRow} {rows : List SizedRow}
    (h : Ascending stop rows) : Increasing (settleFrom stop last rows) := by
  induction rows generalizing last with
  | nil => exact .nil
  | cons r rest ih =>
      rw [settleFrom_cons]
      refine List.pairwise_append.2 ⟨increasing_here, ih h.tail, ?_⟩
      intro x hx y hy
      exact UInt64.lt_of_lt_of_le (mem_here h.lt_next hx).2 (mem_settleFrom h.tail hy).1

def sizedReading (a : UInt64) (r : SizedRow) : UInt32 × UInt32 :=
  if r.EndedBy a then (0, absent) else (r.row.line, r.row.file)

/-- What is left of one row says the same of an address before the next row, given that the row
starts at or before that address. -/
theorem reading_here {last : Option LineRow} {r : SizedRow} {next a : UInt64}
    (hr : r.row.address ≤ a) (ha : a < next) :
    reading ((rowAt? a (keptOf last r ++ (gap? r next).toList)).or last) = sizedReading a r := by
  have hkept : rowAt? a (keptOf last r) = (keptOf last r).getLast? :=
    rowAt?_of_le fun x hx => (mem_keptOf hx) ▸ hr
  rw [rowAt?_append, hkept, sizedReading]
  by_cases hend : r.EndedBy a
  · obtain ⟨stop, hstop, hlt, hle⟩ := hend
    have hgap : gap? r next = some ⟨stop, 0, absent⟩ := by
      rw [gap?, hstop]
      simp [hlt, UInt64.lt_of_le_of_lt hle ha]
    rw [hgap, if_pos ⟨stop, hstop, hlt, hle⟩, Option.toList_some, rowAt?_of_le (by simpa using hle)]
    rfl
  · have hgap : rowAt? a (gap? r next).toList = none := by
      apply rowAt?_eq_none
      intro x hx
      rw [Option.mem_toList] at hx
      obtain ⟨stop, hstop, hlt, -, rfl⟩ := gap?_eq_some hx
      exact UInt64.not_le.1 fun hle => hend ⟨stop, hstop, hlt, hle⟩
    rw [hgap, if_neg hend, Option.none_or, reading_keptOf]

theorem rowAt?_settleFrom_eq_none {stop a : UInt64} {last : Option LineRow}
    {rows : List SizedRow} (h : Ascending stop rows) (ha : a < nextAddress stop rows) :
    rowAt? a (settleFrom stop last rows) = none := by
  apply rowAt?_eq_none
  intro x hx
  exact UInt64.lt_of_lt_of_le ha (mem_settleFrom h hx).1

theorem filter_eq_nil_of_lt_next {stop a : UInt64} {rows : List SizedRow}
    (h : Ascending stop rows) (ha : a < nextAddress stop rows) :
    rows.filter (·.row.address ≤ a) = [] := by
  rw [List.filter_eq_nil_iff]
  intro s hs
  simpa using UInt64.lt_of_lt_of_le ha (h.next_le hs)

/-- Settled rows, read behind a last row, say what the last sized row up to an address says. -/
theorem reading_settleFrom {stop a : UInt64} (last : Option LineRow) {rows : List SizedRow}
    (h : Ascending stop rows) (ha : a < stop) :
    reading ((rowAt? a (settleFrom stop last rows)).or last) =
      ((rows.filter (·.row.address ≤ a)).getLast?.map (sizedReading a)).getD (reading last) := by
  induction rows generalizing last with
  | nil => simp [settleFrom, rowAt?]
  | cons r rest ih =>
      by_cases hr : r.row.address ≤ a
      · rw [settleFrom_cons, rowAt?_append, List.filter_cons_of_pos (by simpa using hr)]
        by_cases hnext : a < nextAddress stop rest
        · rw [rowAt?_settleFrom_eq_none h.tail hnext, filter_eq_nil_of_lt_next h.tail hnext,
            Option.none_or, reading_here hr hnext]
          rfl
        · -- the next row has started, so that all of this one lies before the address
          have hhere : ∀ x ∈ keptOf last r ++ (gap? r (nextAddress stop rest)).toList,
              x.address ≤ a := by
            intro x hx
            exact UInt64.le_trans (UInt64.le_of_lt (mem_here h.lt_next hx).2)
              (UInt64.not_lt.1 hnext)
          have hsome : (rest.filter (·.row.address ≤ a)).getLast? ≠ none := by
            cases rest with
            | nil => exact absurd ha hnext
            | cons n rest =>
                rw [Ne, List.getLast?_eq_none_iff, List.filter_cons_of_pos]
                · simp
                · simpa [nextAddress] using hnext
          rw [rowAt?_of_le hhere, Option.or_assoc, ih _ h.tail]
          obtain ⟨s, hs⟩ := Option.ne_none_iff_exists'.1 hsome
          rw [List.getLast?_cons, hs]
          rfl
      · have hbefore : a < nextAddress stop (r :: rest) := UInt64.not_le.1 hr
        rw [rowAt?_settleFrom_eq_none h hbefore, filter_eq_nil_of_lt_next h hbefore]
        rfl

theorem ascending_settled (start stop : UInt64) (rows : List SizedRow) :
    Ascending stop (firstPerAddress ((rows.filter fun r =>
      start ≤ r.row.address && r.row.address < stop).mergeSort
        fun a b => a.row.address ≤ b.row.address)) := by
  have hsorted := sorted_mergeSort (·.row.address)
    (rows.filter fun r => start ≤ r.row.address && r.row.address < stop)
  rw [firstPerAddress_eq hsorted]
  refine ⟨increasing_firsts hsorted, ?_⟩
  intro r hr
  have hr := List.mem_mergeSort.1 ((firsts_sublist _ _).subset hr)
  have hinside := (List.mem_filter.1 hr).2
  rw [Bool.and_eq_true, decide_eq_true_eq, decide_eq_true_eq] at hinside
  exact hinside.2

theorem increasing_settle (start stop : UInt64) (rows : List SizedRow) :
    Increasing (settle start stop rows) :=
  increasing_settleFrom (ascending_settled start stop rows)

/-- A settled table says of each address what the record in effect there says. -/
theorem reading_settle {start stop a : UInt64} (rows : List SizedRow) (ha : a < stop) :
    reading (rowAt? a (settle start stop rows)) =
      ((inEffect? (·.row.address) start stop a rows).map (sizedReading a)).getD (0, absent) := by
  have h := reading_settleFrom none (ascending_settled start stop rows) ha
  rw [Option.or_none] at h
  rw [inEffect?, ← firstPerAddress_eq (sorted_mergeSort _ _)]
  exact h

/-! ## Clipping -/

theorem takeWhile_eq_filter {rows : List LineRow} (h : Increasing rows) (a : UInt64) :
    rows.takeWhile (·.address ≤ a) = rows.filter (·.address ≤ a) :=
  (comeFirst_le LineRow.address (h.imp UInt64.le_of_lt) a).takeWhile_eq_filter

theorem dropWhile_above {rows : List LineRow} (h : Increasing rows) (a : UInt64) :
    ∀ r ∈ rows.dropWhile (·.address ≤ a), a < r.address := by
  induction rows with
  | nil => simp
  | cons r rest ih =>
      obtain ⟨hr, hrest⟩ := List.pairwise_cons.1 h
      by_cases hle : r.address ≤ a
      · rw [List.dropWhile_cons_of_pos (by simpa using hle)]
        exact ih hrest
      · rw [List.dropWhile_cons_of_neg (by simpa using hle)]
        intro s hs
        rcases List.mem_cons.1 hs with rfl | hs
        · exact UInt64.not_le.1 hle
        · exact UInt64.lt_trans (UInt64.not_le.1 hle) (hr s hs)

theorem rowAt?_takeWhile_lt {rows : List LineRow} {a stop : UInt64} (h : Increasing rows)
    (ha : a < stop) : rowAt? a (rows.takeWhile (·.address < stop)) = rowAt? a rows := by
  induction rows with
  | nil => rfl
  | cons r rest ih =>
      obtain ⟨hr, hrest⟩ := List.pairwise_cons.1 h
      by_cases hlt : r.address < stop
      · rw [List.takeWhile_cons_of_pos (by simpa using hlt)]
        have happend := rowAt?_append a [r] (rest.takeWhile (·.address < stop))
        rw [ih hrest, ← rowAt?_append] at happend
        exact happend
      · have hnone : ∀ s ∈ r :: rest, a < s.address := by
          intro s hs
          have hge := UInt64.lt_of_lt_of_le ha (UInt64.not_lt.1 hlt)
          rcases List.mem_cons.1 hs with rfl | hs
          · exact hge
          · exact UInt64.lt_trans hge (hr s hs)
        rw [List.takeWhile_cons_of_neg (by simpa using hlt), rowAt?_eq_none hnone]
        rfl

def clipTail (start stop : UInt64) (rows : List LineRow) : List LineRow :=
  (rows.dropWhile (·.address ≤ start)).takeWhile (·.address < stop)

theorem clip_eq (start stop : UInt64) {rows : List LineRow} (h : Increasing rows) :
    clip start stop rows =
      ((rowAt? start rows).map fun r => { r with address := start }).toList ++
        clipTail start stop rows := by
  rw [clip, rowAt?, ← takeWhile_eq_filter h]
  cases (rows.takeWhile (·.address ≤ start)).getLast? with
  | none => rfl
  | some r => rfl

theorem mem_clipTail {start stop : UInt64} {rows : List LineRow} {r : LineRow}
    (h : Increasing rows) (hr : r ∈ clipTail start stop rows) :
    start < r.address ∧ r.address < stop := by
  refine ⟨dropWhile_above h start r ((List.takeWhile_sublist _).subset hr), ?_⟩
  simpa using List.mem_takeWhile_imp hr

theorem mem_clip {start stop : UInt64} {rows : List LineRow} {r : LineRow} (h : Increasing rows)
    (hlt : start < stop) (hr : r ∈ clip start stop rows) :
    start ≤ r.address ∧ r.address < stop := by
  rw [clip_eq start stop h] at hr
  rcases List.mem_append.1 hr with hr | hr
  · rw [Option.mem_toList, Option.map_eq_some_iff] at hr
    obtain ⟨s, -, rfl⟩ := hr
    exact ⟨UInt64.le_refl _, hlt⟩
  · obtain ⟨hlow, hhigh⟩ := mem_clipTail h hr
    exact ⟨UInt64.le_of_lt hlow, hhigh⟩

theorem increasing_clip {start stop : UInt64} {rows : List LineRow} (h : Increasing rows) :
    Increasing (clip start stop rows) := by
  rw [clip_eq start stop h]
  refine List.pairwise_append.2 ⟨?_, ?_, ?_⟩
  · cases rowAt? start rows with
    | none => exact .nil
    | some r => exact List.pairwise_singleton _ _
  · exact h.sublist ((List.takeWhile_sublist _).trans (List.dropWhile_sublist _))
  · intro r hr s hs
    rw [Option.mem_toList, Option.map_eq_some_iff] at hr
    obtain ⟨_, -, rfl⟩ := hr
    exact (mem_clipTail h hs).1

/-- A clipped table says of the addresses that are left what the whole table says. -/
theorem reading_clip {start stop a : UInt64} {rows : List LineRow} (h : Increasing rows)
    (low : start ≤ a) (high : a < stop) :
    reading (rowAt? a (clip start stop rows)) = reading (rowAt? a rows) := by
  have hsplit : rowAt? a rows =
      (rowAt? a (clipTail start stop rows)).or (rowAt? start rows) := by
    have hdrop : Increasing (rows.dropWhile (·.address ≤ start)) :=
      h.sublist (List.dropWhile_sublist _)
    have htake : rowAt? a (rows.takeWhile (·.address ≤ start)) = rowAt? start rows := by
      rw [rowAt?_of_le, rowAt?, takeWhile_eq_filter h]
      intro r hr
      exact UInt64.le_trans (by simpa using List.mem_takeWhile_imp hr) low
    rw [clipTail, rowAt?_takeWhile_lt hdrop high, ← htake, ← rowAt?_append,
      List.takeWhile_append_dropWhile]
  rw [clip_eq start stop h, rowAt?_append, hsplit]
  cases rowAt? a (clipTail start stop rows) with
  | some r => rfl
  | none =>
      cases rowAt? start rows with
      | none => rfl
      | some r =>
          rw [Option.map_some, Option.toList_some, rowAt?_of_le (by simpa using low)]
          rfl

end LineTable

end Postmortem.SymCache
