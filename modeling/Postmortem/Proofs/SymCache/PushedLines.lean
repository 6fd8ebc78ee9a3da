import Mathlib.Data.UInt
import Mathlib.Logic.Relation
import Postmortem.Proofs.SymCache.LaidTables

/-!
# Lines that were pushed are found

Pushing a line table puts the rows of a range into new blocks behind those that are there.  Whatever
is pushed later, searching these blocks for any 32-bit offset finds the last row of the clipped
table up to that offset, also where the offset leads out of the address space.  A push is refused
only if a block would get a number or a place that does not fit 32 bits.
-/

set_option autoImplicit false

namespace Postmortem.SymCache

/-! ## Offsets in place of addresses -/

namespace LineTable

def rebased (load : UInt64) (r : LineRow) : LineRow := { r with address := r.address - load }

theorem within_zero {load a : UInt64} (h : Within load a) : Within 0 (a - load) := by
  have hle := h.1
  have hlt := h.2
  refine ⟨Nat.zero_le _, ?_⟩
  rw [toNat_sub_of_le hle, UInt64.toNat_zero]
  omega

theorem distance_zero (load a : UInt64) : distance 0 (a - load) = distance load a := by
  rw [distance, distance, UInt64.sub_zero]

theorem recordOf_rebased (load : UInt64) (r : LineRow) :
    recordOf 0 (rebased load r) = recordOf load r := by
  rw [recordOf, rebased, distance_zero]
  rfl

/-- Only the differences of addresses are stored, and those of offsets are the same. -/
theorem encodeFrom_rebased (load : UInt64) (head : LineRow) (rest : List LineRow) :
    encodeFrom (rebased load head) (rest.map (rebased load)) = encodeFrom head rest := by
  induction rest generalizing head with
  | nil => rfl
  | cons r rest ih =>
      have hstep : r.address - load - (head.address - load) = r.address - head.address :=
        sub_sub_sub_cancel_right _ _ _
      rw [List.map_cons, encodeFrom, encodeFrom, ih]
      simp only [rebased, hstep]
      rfl

theorem blockOf_rebased {load : UInt64} {program : Bytes} {b : LineBlock} {rows : List LineRow}
    (h : BlockOf load program b rows) : BlockOf 0 program b (rows.map (rebased load)) := by
  cases rows with
  | nil => exact h
  | cons head rest =>
      obtain ⟨hhead, hsize, hprogram⟩ := h
      refine ⟨(recordOf_rebased load head).trans hhead, ?_, ?_⟩
      · rw [hsize, List.length_map]
      · rwa [encodeFrom_rebased]

/-- The last row up to an offset from the load address, which is not cut down to 64 bits. -/
def rowUpTo? (load : UInt64) (offset : UInt32) (rows : List LineRow) : Option LineRow :=
  (rows.filter fun r => r.address.toNat ≤ load.toNat + offset.toNat).getLast?

theorem rowAt?_rebased {load : UInt64} {rows : List LineRow} (offset : UInt32)
    (hwithin : ∀ r ∈ rows, Within load r.address) :
    rowAt? offset.toUInt64 (rows.map (rebased load)) =
      (rowUpTo? load offset rows).map (rebased load) := by
  rw [rowAt?, rowUpTo?, List.filter_map, List.getLast?_map]
  congr 2
  apply List.filter_congr
  intro r hr
  have hle := (hwithin r hr).1
  rw [Function.comp, rebased, decide_eq_decide, UInt64.le_iff_toNat_le, UInt32.toNat_toUInt64,
    toNat_sub_of_le hle]
  omega

theorem increasing_rebased {load : UInt64} {rows : List LineRow} (h : Increasing rows)
    (hwithin : ∀ r ∈ rows, Within load r.address) : Increasing (rows.map (rebased load)) := by
  rw [Increasing, List.pairwise_map]
  refine h.imp_of_mem fun {r s} hr hs hlt => ?_
  have hr := (hwithin r hr).1
  have hs := (hwithin s hs).1
  rw [UInt64.lt_iff_toNat_lt] at hlt
  rw [rebased, rebased, UInt64.lt_iff_toNat_lt, toNat_sub_of_le hr, toNat_sub_of_le hs]
  omega

/-- Whether a record is that of a row, by its exact offset. -/
structure RecordAt (load : UInt64) (x : Record) (r : LineRow) : Prop where
  address : Offset load x.address r.address
  line : x.line = r.line
  file : x.file = r.file

end LineTable

open LineTable (RecordAt rebased rowUpTo?)

/-- Blocks that hold a line table are read as the table is, at every offset. -/
theorem line?_of_linesAt {s : SymCache} {load : UInt64} {t : Tables} {first n : UInt32}
    {rows : List LineRow} (h : t.LinesAt load first n rows)
    (hprogram : s.lineProgram = t.lineProgram) (hrows : LineTable.Increasing rows)
    (hwithin : ∀ r ∈ rows, Within load r.address) (offset : UInt32) :
    Option.Rel (RecordAt load) (s.line? (part t.lineBlocks first.toNat n.toNat) offset)
      (rowUpTo? load offset rows) := by
  have hflatten : ((LineTable.groups (blockSize - 1) rows).map (List.map (rebased load))).flatten =
      rows.map (rebased load) := by
    rw [← List.map_flatten, LineTable.flatten_groups]
  have hblocks : List.Forall₂ (LineTable.BlockOf 0 s.lineProgram)
      (part t.lineBlocks first.toNat n.toNat)
      ((LineTable.groups (blockSize - 1) rows).map (List.map (rebased load))) := by
    rw [hprogram, List.forall₂_map_right_iff]
    exact h.2.imp fun _ _ hb => LineTable.blockOf_rebased hb
  -- as offsets start at zero, each of them is within reach
  have hoffset : Within 0 offset.toUInt64 := by
    refine ⟨Nat.zero_le _, ?_⟩
    rw [UInt32.toNat_toUInt64, UInt64.toNat_zero, Nat.zero_add]
    exact offset.toNat_lt
  have hdistance : distance 0 offset.toUInt64 = offset := by
    rw [distance, UInt64.sub_zero, UInt32.toUInt32_toUInt64]
  have hread := line?_eq hblocks
    (by
      rw [hflatten]
      exact LineTable.increasing_rebased hrows hwithin)
    (by
      rw [hflatten]
      intro r hr
      obtain ⟨r', hr', rfl⟩ := List.mem_map.1 hr
      exact LineTable.within_zero (hwithin r' hr')) hoffset
  rw [hdistance, hflatten, LineTable.rowAt?_rebased offset hwithin, Option.map_map] at hread
  rw [hread]
  cases hrow : rowUpTo? load offset rows with
  | none => exact .none
  | some r =>
      have hr : r ∈ rows := (List.mem_filter.1 (List.mem_of_getLast? hrow)).1
      refine .some ?_
      rw [Function.comp, LineTable.recordOf_rebased]
      exact ⟨offset_distance (hwithin r hr), rfl, rfl⟩

namespace Tables

variable {load : UInt64} {t t' : Tables}

/-! ## What is refused -/

theorem pushBlocks_refused {gs : List (List LineRow)} (hgroups : ∀ g ∈ gs, g ≠ [])
    (hrows : ∀ g ∈ gs, ∀ r ∈ g, Within load r.address)
    (hfits : ¬ Piece.PlacesFit t.lineProgram.length gs) :
    t.pushBlocks load gs = .error (.tooMany .line) := by
  induction gs generalizing t with
  | nil => exact absurd trivial hfits
  | cons g gs ih =>
      obtain ⟨hne, hgroups'⟩ := List.forall_mem_cons.1 hgroups
      obtain ⟨hg, hrows'⟩ := List.forall_mem_cons.1 hrows
      cases g with
      | nil => exact absurd rfl hne
      | cons head rest =>
          rw [pushBlocks]
          by_cases hplace : t.lineProgram.length < UInt32.size
          · rw [count_of_lt hplace, relative_of_within (hg head (List.mem_cons_self ..))]
            refine ih hgroups' hrows' fun hrest => hfits ⟨hplace, ?_⟩
            rwa [List.length_append] at hrest
          · rw [count, if_neg hplace]
            rfl

theorem pushLines_refused {p : Piece} (hlines : LineTable.Increasing p.lines)
    (hstart : Within load p.start) (hstop : Within load p.stop) (hfits : ¬ t.Fits p) :
    t.pushLines load p.start p.stop p.lines = .error (.tooMany .line) := by
  have hrows := within_of_mem_groups hlines hstart hstop
  have hgroups : ∀ g ∈ p.groups, g ≠ [] := fun g hg => LineTable.ne_nil_of_mem_groups hg
  rw [pushLines]
  by_cases hfirst : t.lineBlocks.length < UInt32.size
  · rw [count_of_lt hfirst]
    by_cases hplaces : Piece.PlacesFit t.lineProgram.length p.groups
    · -- the blocks can be written, so there are too many of them
      obtain ⟨blocks, hpush, hnew⟩ := pushBlocks_succeeds hgroups hrows hplaces
      have hafter : ¬ (t.lineBlocks ++ blocks).length < UInt32.size := by
        rw [List.length_append, hnew.length_eq]
        exact fun hblocks => hfits ⟨hblocks, hplaces⟩
      show (t.pushBlocks load p.groups >>= _) = _
      rw [hpush]
      show (count (t.lineBlocks ++ blocks).length .line >>= _) = _
      rw [count, if_neg hafter]
      rfl
    · show (t.pushBlocks load p.groups >>= _) = _
      rw [pushBlocks_refused hgroups hrows hplaces]
      rfl
  · rw [count, if_neg hfirst]
    rfl

/-! ## Later pushes -/

/-- One more push of lines, of an inlined call or of a range. -/
inductive Push (load : UInt64) (t t' : Tables) : Prop where
  | lines {start stop : UInt64} {rows : List LineRow} {numbers : UInt32 × UInt32}
      (h : t.pushLines load start stop rows = .ok (numbers, t'))
  | inlinee {start stop : UInt64} {parent depth : UInt32} {s : Scope}
      (h : t.pushInlinee load start stop parent depth s = .ok t')
  | range {c : Claim OuterScope} (h : t.pushRange load c = .ok t')

mutual

theorem extends_of_pushInlinee {s : Scope} {start stop : UInt64} {parent depth : UInt32}
    {t t' : Tables} (h : t.pushInlinee load start stop parent depth s = .ok t') : t.Extends t' := by
  by_cases hlt : max s.start start < min s.stop stop
  · obtain ⟨scopeStart, scopeStop, function, lines, inlinees⟩ := s
    obtain ⟨t₁, r, index, hadds, -, hrest⟩ := pushInlinee_eq_ok hlt h
    exact (hadds.lines.grown.trans (extends_withInlinee t₁ r)).trans
      (extends_of_pushInlinees (l := inlinees) hrest)
  · rw [pushInlinee_of_not_lt hlt] at h
    rw [← Except.ok.inj h]
    exact .refl t

theorem extends_of_pushInlinees {l : List Scope} {start stop : UInt64} {parent depth : UInt32}
    {t t' : Tables} (h : t.pushInlinees load start stop parent depth l = .ok t') :
    t.Extends t' := by
  cases l with
  | nil =>
      rw [pushInlinees] at h
      rw [← Except.ok.inj h]
      exact .refl t
  | cons s rest =>
      rw [pushInlinees] at h
      obtain ⟨t₁, ht₁, h⟩ := bind_eq_ok.1 h
      exact (extends_of_pushInlinee ht₁).trans (extends_of_pushInlinees h)

end

theorem Push.extends (h : Push load t t') : t.Extends t' := by
  cases h with
  | @lines _ _ _ numbers h =>
      obtain ⟨first, n⟩ := numbers
      exact (pushLines_spec h).grown
  | inlinee h => exact extends_of_pushInlinee h
  | range h =>
      obtain ⟨t₁, t₂, r, hadds, rfl⟩ := pushRange_eq_ok h
      exact (hadds.lines.grown.trans (extends_of_pushInlinees hadds.calls)).trans
        (extends_withRange t₂ r)

theorem extends_of_pushes (h : Relation.ReflTransGen (Push load) t t') : t.Extends t' := by
  induction h with
  | refl => exact .refl t
  | tail _ hpush ih => exact ih.trans hpush.extends

end Tables

/-- Lines within reach are pushed behind what is there, unless their numbers or places do not fit 32
bits.  At every offset the new blocks are read as the clipped table, now and after later pushes. -/
theorem pushed_lines_are_found {load start stop : UInt64} {rows : List LineRow}
    (increasing : LineTable.Increasing rows) (hstart : Within load start) (hstop : Within load stop)
    (t : Tables) :
    (¬ t.Fits ⟨start, stop, rows⟩ →
      t.pushLines load start stop rows = .error (.tooMany .line)) ∧
    (t.Fits ⟨start, stop, rows⟩ → ∃ first n blocks program,
      let t' : Tables := { t with lineBlocks := t.lineBlocks ++ blocks
                                  lineProgram := t.lineProgram ++ program }
      t.pushLines load start stop rows = .ok ((first, n), t') ∧
      first.toNat = t.lineBlocks.length ∧ n.toNat = blocks.length ∧
      ∀ later, Relation.ReflTransGen (Tables.Push load) t' later →
        ∀ s : SymCache, s.lineBlocks = later.lineBlocks → s.lineProgram = later.lineProgram →
          ∀ offset, Option.Rel (RecordAt load)
            (s.line? (part s.lineBlocks first.toNat n.toNat) offset)
            (rowUpTo? load offset (LineTable.clip start stop rows))) := by
  let p : Piece := ⟨start, stop, rows⟩
  have increasing : LineTable.Increasing p.lines := increasing
  refine ⟨Tables.pushLines_refused increasing hstart hstop, fun fits => ?_⟩
  obtain ⟨⟨first, n⟩, t', hpush, -⟩ := Tables.pushLines_succeeds increasing hstart hstop fits
  have hadds := Tables.pushLines_spec hpush
  obtain ⟨blocks, hblocks⟩ := hadds.grown.lineBlocks
  obtain ⟨program, hprogram⟩ := hadds.grown.lineProgram
  have hlength := hadds.length
  have heq : t' = { t with lineBlocks := t.lineBlocks ++ blocks
                           lineProgram := t.lineProgram ++ program } := by
    rw [hblocks, hprogram, ← hadds.ranges, ← hadds.inlinees]
  rw [← hblocks, List.length_append] at hlength
  refine ⟨first, n, blocks, program, heq ▸ hpush, hadds.first_eq, by omega, ?_⟩
  rw [← heq]
  intro later hlater s hs hprogram offset
  have hlines := hadds.lines.mono (Tables.extends_of_pushes hlater)
  rw [hs]
  exact line?_of_linesAt hlines hprogram (LineTable.increasing_clip increasing)
    (fun r hr => LineTable.within_of_mem_clip increasing hstart hstop hr) offset

/-- Eighteen rows, which take two blocks, with the widest steps between lines and all kinds of
files. -/
def sampleRows : List LineRow :=
  (List.range 18).map fun i =>
    ⟨UInt64.ofNat (0x1000 + 8 * i), if i % 2 = 0 then 0xffffffff else 0,
      if i % 3 = 0 then absent else 0xfffffffe⟩

theorem increasing_sampleRows : LineTable.Increasing sampleRows := by
  rw [LineTable.Increasing]
  decide

theorem pushed_lines_are_found_sample :
    LineTable.Increasing sampleRows ∧ Within 0x1000 0x1004 ∧ Within 0x1000 0x1090 ∧
      Tables.Fits {} ⟨0x1004, 0x1090, sampleRows⟩ ∧
      ∃ first n t', Tables.pushLines 0x1000 0x1004 0x1090 sampleRows {} = .ok ((first, n), t') ∧
        ∀ later, Relation.ReflTransGen (Tables.Push 0x1000) t' later →
          ∀ s : SymCache, s.lineBlocks = later.lineBlocks → s.lineProgram = later.lineProgram →
            s.line? (part s.lineBlocks first.toNat n.toNat) 0x3 = none ∧
            ∃ x, s.line? (part s.lineBlocks first.toNat n.toNat) 0x8f = some x ∧
              RecordAt 0x1000 x ⟨0x1088, 0, 0xfffffffe⟩ := by
  have hstart : Within 0x1000 0x1004 := ⟨by decide, by decide⟩
  have hstop : Within 0x1000 0x1090 := ⟨by decide, by decide⟩
  have hgroups : (Piece.groups ⟨0x1004, 0x1090, sampleRows⟩).length = 2 := by decide +kernel
  have hprogram : (Piece.program ⟨0x1004, 0x1090, sampleRows⟩).length = 156 := by
    decide +kernel
  have hfits : Tables.Fits {} ⟨0x1004, 0x1090, sampleRows⟩ := by
    refine ⟨by rw [hgroups]; decide, Piece.placesFit_of_lt ?_⟩
    show [].length + (Piece.program ⟨0x1004, 0x1090, sampleRows⟩).length < _
    rw [hprogram]
    decide
  obtain ⟨first, n, blocks, program, hpush, -, -, hfound⟩ :=
    (pushed_lines_are_found increasing_sampleRows hstart hstop {}).2 hfits
  refine ⟨increasing_sampleRows, hstart, hstop, hfits, first, n, _, hpush, ?_⟩
  intro later hlater s hblocks hprogram
  have hbefore : rowUpTo? 0x1000 0x3 (LineTable.clip 0x1004 0x1090 sampleRows) = none := by decide
  have hlast : rowUpTo? 0x1000 0x8f (LineTable.clip 0x1004 0x1090 sampleRows) =
      some ⟨0x1088, 0, 0xfffffffe⟩ := by decide
  have hnone := hfound later hlater s hblocks hprogram 0x3
  have hsome := hfound later hlater s hblocks hprogram 0x8f
  rw [hbefore] at hnone
  rw [hlast] at hsome
  refine ⟨?_, ?_⟩
  · cases hline : s.line? (part s.lineBlocks first.toNat n.toNat) 0x3 with
    | none => rfl
    | some x =>
        rw [hline] at hnone
        cases hnone
  · cases hline : s.line? (part s.lineBlocks first.toNat n.toNat) 0x8f with
    | none =>
        rw [hline] at hsome
        cases hsome
    | some x =>
        rw [hline] at hsome
        cases hsome with
        | some hx => exact ⟨x, rfl, hx⟩

/-- Tables with as many blocks as 32-bit numbers can tell apart. -/
def fullTables : Tables := { lineBlocks := List.replicate UInt32.size default }

/-- Behind so many blocks, lines are refused although their range is within reach. -/
theorem full_tables_refuse_lines :
    LineTable.Increasing sampleRows ∧ Within 0x1000 0x1004 ∧ Within 0x1000 0x1090 ∧
      fullTables.pushLines 0x1000 0x1004 0x1090 sampleRows = .error (.tooMany .line) := by
  have hstart : Within 0x1000 0x1004 := ⟨by decide, by decide⟩
  have hstop : Within 0x1000 0x1090 := ⟨by decide, by decide⟩
  have hfull : fullTables.lineBlocks.length = UInt32.size := List.length_replicate
  have hfits : ¬ fullTables.Fits ⟨0x1004, 0x1090, sampleRows⟩ := by
    intro hfits
    have hblocks := hfits.blocks
    omega
  have hrefused := Tables.pushLines_refused (p := ⟨0x1004, 0x1090, sampleRows⟩)
    increasing_sampleRows hstart hstop hfits
  exact ⟨increasing_sampleRows, hstart, hstop, hrefused⟩

end Postmortem.SymCache
