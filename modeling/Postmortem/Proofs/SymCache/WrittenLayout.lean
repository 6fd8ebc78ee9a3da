import Mathlib
import Postmortem.Proofs.RangeRecords
import Postmortem.Proofs.SymCache.BlockRecords
import Postmortem.Proofs.SymCache.References
import Postmortem.Proofs.SymCache.StoredCache
import Postmortem.Proofs.SymCache.TableLookup

/-!
# The layout of written caches

However the additions to a builder went, a cache that is written from it is laid out as readers
expect: ranges, inlined calls and blocks are divided into slices, calls are nested in their parents,
line tables lie inside the code that they are for, and no reference leads out of its table.
-/

set_option autoImplicit false

namespace Postmortem.SymCache

open Slice (Tile)
open Tables (InlineeOf HasChain HasChains RangeOf chainsIn)

def HasString (s : SymCache) (offset : UInt32) : Prop :=
  offset = absent ∨ ∃ t, s.string? offset = some t

/-- Whether the inlined call with a number has code inside the range that it belongs to, or inside
another call of the range with a smaller number. -/
structure NestedIn (s : SymCache) (r : RangeRecord) (i : Nat) (n : InlineeRecord) : Prop where
  nonempty : n.start < n.stop
  inside : (n.parent = absent ∧ n.depth.toNat = 1 ∧ r.start ≤ n.start ∧ n.stop ≤ r.stop) ∨
    r.calls.first.toNat ≤ n.parent.toNat ∧ n.parent.toNat < i ∧
      ∃ p, s.inlinees[n.parent.toNat]? = some p ∧ n.depth.toNat = p.depth.toNat + 1 ∧
        p.start ≤ n.start ∧ n.stop ≤ p.stop

/-- The layout of symbol caches. -/
structure LaidOut (s : SymCache) : Prop where
  ranges_nonempty : ∀ r ∈ s.ranges, r.start < r.stop
  ranges_ordered : s.ranges.Pairwise fun x y => x.stop ≤ y.start
  /-- The inlined calls of one range follow those of the range before it. -/
  calls : Tile 0 (s.ranges.map RangeRecord.calls) s.inlinees.length
  nested : ∀ r ∈ s.ranges, ∀ i n, r.calls.first.toNat ≤ i → i < r.calls.stop →
    s.inlinees[i]? = some n → s.NestedIn r i n
  /-- The blocks of a range are followed by those of its inlined calls. -/
  blocks : Tile 0 (s.ranges.flatMap s.tables.blockSlices) s.lineBlocks.length
  range_lines : ∀ r ∈ s.ranges, s.HoldsLines r.start r.stop (r.blocks.of s.lineBlocks)
  call_lines : ∀ n ∈ s.inlinees, s.HoldsLines n.start n.stop (n.blocks.of s.lineBlocks)
  range_functions : ∀ r ∈ s.ranges, r.function.toNat < s.functions.length
  call_functions : ∀ n ∈ s.inlinees, n.function.toNat < s.functions.length
  function_strings : ∀ f ∈ s.functions, s.HasString f.name ∧ s.HasString f.compDir
  file_strings : ∀ f ∈ s.files,
    s.HasString f.compDir ∧ s.HasString f.directory ∧ s.HasString f.name

/-! ## Calls -/

variable {s : SymCache} {b : Builder} {load : UInt64} {c : Claim OuterScope} {r : RangeRecord}
  {n : InlineeRecord} {i : Nat} {chain : List Scope}

theorem Tables.HasChains.exists_chain {t : Tables} {start stop : UInt64} {first : Nat}
    {chains : List (List Scope)} (h : HasChains load start stop t first chains) (low : first ≤ i)
    (high : i < first + chains.length) : ∃ chain ∈ chains, HasChain load start stop t chain i := by
  induction chains generalizing first with
  | nil => exact absurd high (Nat.not_lt.2 low)
  | cons chain rest ih =>
      obtain ⟨hchain, hrest⟩ := h
      rcases Nat.eq_or_lt_of_le low with rfl | low
      · exact ⟨chain, List.mem_cons_self .., hchain⟩
      · rw [List.length_cons] at high
        obtain ⟨other, hother, hhas⟩ := ih hrest low (by omega)
        exact ⟨other, List.mem_cons_of_mem _ hother, hhas⟩

theorem exists_chain_of_range (h : RangeOf load s.tables c r) (low : r.calls.first.toNat ≤ i)
    (high : i < r.calls.stop) :
    ∃ chain ∈ chainsIn c, HasChain load c.start c.stop s.tables chain i := by
  refine h.has.exists_chain low ?_
  rw [← h.count_eq]
  exact high

theorem Tables.InlineeOf.nonempty {t : Tables} {start stop : UInt64} {scope : Scope}
    {outer : List Scope} (h : InlineeOf load start stop t scope outer n)
    (hshared : Scope.isShared start stop (scope :: outer) = true) : n.start < n.stop := by
  rw [h.start_eq, h.stop_eq, distance_lt_iff h.within_start h.within_stop]
  exact of_decide_eq_true hshared

theorem nestedIn_of_hasChain (hrange : RangeOf load s.tables c r)
    (hfits : s.inlinees.length < UInt32.size) (hn : s.inlinees[i]? = some n)
    (hparent : n.parent = absent ∨ r.calls.first.toNat ≤ n.parent.toNat)
    (hchain : HasChain load c.start c.stop s.tables chain i)
    (hshared : Scope.isShared c.start c.stop chain = true) : s.NestedIn r i n := by
  have hdepth := hchain.depth_eq hn hfits
  cases hchain with
  | @inFunction scope root n' _ here record habsent =>
      obtain rfl : n' = n := Option.some.inj (here.symm.trans hn)
      obtain ⟨hlow, hhigh⟩ := Scope.shared_bounds c.start c.stop [scope, root]
      refine ⟨record.nonempty hshared, .inl ⟨habsent, by simpa using hdepth, ?_, ?_⟩⟩
      · rwa [hrange.start_eq, record.start_eq,
          distance_le_iff hrange.within_start record.within_start]
      · rwa [hrange.stop_eq, record.stop_eq, distance_le_iff record.within_stop hrange.within_stop]
  | @inInlinee scope outer n' _ here record before parent =>
      obtain rfl : n' = n := Option.some.inj (here.symm.trans hn)
      obtain ⟨p, hp⟩ := parent.lt
      have hcallerDepth := parent.depth_eq hp hfits
      obtain ⟨caller, rest, rfl, hcaller⟩ := parent.record hp
      obtain ⟨hlow, hhigh⟩ := Scope.shared_cons c.start c.stop scope (caller :: rest)
      -- the caller has a record, and no record has the number that stands for none
      have hpresent : n'.parent ≠ absent := by
        intro habsent
        have hlt := (List.getElem?_eq_some_iff.1 hp).1
        rw [habsent] at hlt
        exact absurd hfits (Nat.not_lt.2 hlt)
      refine ⟨record.nonempty hshared,
        .inr ⟨hparent.resolve_left hpresent, before, p, hp, ?_, ?_, ?_⟩⟩
      · rw [List.length_cons] at hdepth
        omega
      · rwa [hcaller.start_eq, record.start_eq,
          distance_le_iff hcaller.within_start record.within_start]
      · rwa [hcaller.stop_eq, record.stop_eq,
          distance_le_iff record.within_stop hcaller.within_stop]

/-! ## References -/

theorem hasString_of_pools (hstored : StoredBy s b) {offset : UInt32}
    (h : b.pools.HasString offset) : s.HasString offset := by
  obtain ⟨t, ht⟩ := h
  have hread := string?_of_holds hstored ht
  by_cases hempty : t.isEmpty = true
  · rw [StringTable.Holds, if_pos hempty] at ht
    exact .inl ht
  · rw [StringTable.shown, if_neg hempty] at hread
    exact .inr ⟨t, hread⟩

theorem hasFile_of_pools (hstored : StoredBy s b) {file : UInt32} (h : b.pools.HasFile file) :
    s.HasFile file := by
  rw [HasFile, hstored.files]
  exact h

theorem length_functions (hstored : StoredBy s b) :
    s.functions.length = b.pools.functions.length := by
  rw [hstored.functions, List.length_map]

theorem holdsLines_of_scope (hstored : StoredBy s b) {scope : Scope} (hscope : scope.Whole b.pools)
    {slice : Slice} {low high : UInt64}
    (hlines : Tables.LinesAt load s.tables slice.first slice.count
      (LineTable.clip low high scope.lines))
    (hlt : low < high) (hlow : Within load low) (hhigh : Within load high) :
    s.HoldsLines (distance load low) (distance load high) (slice.of s.lineBlocks) := by
  refine holdsLines_of_linesAt hlines (LineTable.increasing_clip hscope.lines)
    (fun r hr => LineTable.mem_clip hscope.lines hlt hr) ?_ hlow hhigh
  intro r hr
  obtain ⟨row, hrow, hfile⟩ := LineTable.file_clip hr
  rw [hfile]
  exact hasFile_of_pools hstored (hscope.files row hrow)

theorem refers_of_range (hstored : StoredBy s b) (hrange : RangeOf load s.tables c r)
    (hc : c.value.scope.Whole b.pools) (hlt : c.start < c.stop) :
    r.function.toNat < s.functions.length ∧
      s.HoldsLines r.start r.stop (r.blocks.of s.lineBlocks) := by
  rw [hrange.function, length_functions hstored, hrange.start_eq, hrange.stop_eq]
  exact ⟨hc.function_lt, holdsLines_of_scope hstored hc hrange.lines hlt hrange.within_start
    hrange.within_stop⟩

theorem refers_of_call (hstored : StoredBy s b) (hrange : RangeOf load s.tables c r)
    (hc : c.value.scope.Whole b.pools) (low : r.calls.first.toNat ≤ i) (high : i < r.calls.stop)
    (hn : s.inlinees[i]? = some n) :
    n.function.toNat < s.functions.length ∧
      s.HoldsLines n.start n.stop (n.blocks.of s.lineBlocks) := by
  obtain ⟨chain, hmem, hchain⟩ := exists_chain_of_range hrange low high
  obtain ⟨hmem, hshared⟩ := List.mem_filter.1 hmem
  obtain ⟨scope, outer, rfl, record⟩ := hchain.record hn
  have hscope : scope.Whole b.pools := by
    rcases Scope.Whole.of_mem_chainsOf hc.inlinees hmem (List.mem_cons_self ..) with hroot | hwhole
    · rw [List.mem_singleton.1 hroot]
      exact hc
    · exact hwhole
  rw [record.function, length_functions hstored, record.start_eq, record.stop_eq]
  exact ⟨hscope.function_lt, holdsLines_of_scope hstored hscope record.lines
    (of_decide_eq_true hshared) record.within_start record.within_stop⟩

/-! ## Written caches -/

theorem laidOut_of_storedBy (hstored : StoredBy s b) (hb : b.Whole) : s.LaidOut := by
  have hdivides := b.divides_ranges
  have hranges : List.Forall₂ (RangeOf b.loadAddress s.tables) b.ranges s.ranges := by
    refine Tables.ofRanges_spec ?_ hstored.tables
    exact fun c hc => ⟨(Builder.owner_of_range hc).1, (Builder.owner_of_range hc).2.1⟩
  have hdivided := Tables.divided_ofRanges hstored.tables
  obtain ⟨hnonempty, hordered⟩ :=
    disjoint_records (fun _ _ hr => RangeOf.placed hr) hranges hdivides.disjoint
  have hscope {c : Claim OuterScope} (hc : c ∈ b.ranges) : c.value.scope.Whole b.pools :=
    hb.scopes _ (Builder.mem_outer_of_range hc)
  have hrefers : ∀ r ∈ s.ranges, r.function.toNat < s.functions.length ∧
      s.HoldsLines r.start r.stop (r.blocks.of s.lineBlocks) := by
    intro r hr
    obtain ⟨c, hc, hrange⟩ := exists_left hranges hr
    exact refers_of_range hstored hrange (hscope hc) (hdivides.disjoint.nonempty c hc)
  have hcalls : ∀ n ∈ s.inlinees, n.function.toNat < s.functions.length ∧
      s.HoldsLines n.start n.stop (n.blocks.of s.lineBlocks) := by
    intro n hn
    obtain ⟨i, hi, hget⟩ := List.getElem_of_mem hn
    obtain ⟨slice, hslice, low, high⟩ := hdivided.calls.exists_slice (Nat.zero_le i) hi
    obtain ⟨r, hr, rfl⟩ := List.mem_map.1 hslice
    obtain ⟨c, hc, hrange⟩ := exists_left hranges hr
    exact refers_of_call hstored hrange (hscope hc) low high
      (List.getElem?_eq_some_iff.2 ⟨hi, hget⟩)
  refine ⟨hnonempty, hordered, hdivided.calls, ?_, hdivided.blocks, fun r hr => (hrefers r hr).2,
    fun n hn => (hcalls n hn).2, fun r hr => (hrefers r hr).1, fun n hn => (hcalls n hn).1, ?_, ?_⟩
  · intro r hr i n low high hn
    obtain ⟨c, hc, hrange⟩ := exists_left hranges hr
    obtain ⟨chain, hmem, hchain⟩ := exists_chain_of_range hrange low high
    have hin : n ∈ r.calls.of s.inlinees :=
      Slice.mem_of (hdivided.calls.bounds (List.mem_map_of_mem hr)).2 low high hn
    exact nestedIn_of_hasChain hrange hstored.inlinees_fit hn (hdivided.parents r hr n hin) hchain
      (List.mem_filter.1 hmem).2
  · rw [hstored.functions]
    intro f hf
    obtain ⟨key, hkey, rfl⟩ := List.mem_map.1 hf
    obtain ⟨hname, hcompDir⟩ := hb.pools.functions key hkey
    exact ⟨hasString_of_pools hstored hname, hasString_of_pools hstored hcompDir⟩
  · rw [hstored.files]
    intro f hf
    obtain ⟨hcompDir, hdirectory, hname⟩ := hb.pools.files f hf
    exact ⟨hasString_of_pools hstored hcompDir, hasString_of_pools hstored hdirectory,
      hasString_of_pools hstored hname⟩

/-- Whatever was added to a builder, and whichever additions were refused, a cache that is written
from it is accepted and laid out as it should be. -/
theorem layout_of_written_cache {items : List Item} {arch : Arch} {debugId : DebugId}
    {bytes : Bytes}
    (hbytes : { Builder.addEach {} items with arch, debugId, loadAddress := load }.toBytes =
      .ok bytes) :
    ∃ s, parse bytes = .ok s ∧ s.LaidOut := by
  obtain ⟨s, hparse, hstored⟩ := parse_toBytes hbytes
  have hwhole := Builder.whole_empty.addEach items
  exact ⟨s, hparse, laidOut_of_storedBy hstored ⟨hwhole.pools, hwhole.scopes⟩⟩

/-- A function that is refused for its line number, one with an inlined call, and a symbol that the
function before it leaves some code to. -/
def layoutItems : List Item :=
  [.function
      { address := 0x1000, size := 0x10, name := { text := "refused" }
        lines := [{ address := 0x1000, line := 0x100000000 }] },
    .function
      { address := 0x1000, size := 0x20, name := { text := "main" }
        lines := [{ address := 0x1000, line := 7 }]
        inlinees :=
          [{ address := 0x1010, size := 0x10, name := { text := "helper" }
             lines := [{ address := 0x1010, size := some 8, line := 3 }] }] },
    .symbol { name := some "start", address := 0x1000, size := 0x30 }]

set_option maxRecDepth 20000 in
theorem layout_of_written_cache_sample : ∃ bytes,
    { Builder.addEach {} layoutItems with
      arch := .unknown, debugId := .nil, loadAddress := 0x1000 }.toBytes = .ok bytes ∧
    ∃ s, parse bytes = .ok s ∧ s.LaidOut := by
  have hok : { Builder.addEach {} layoutItems with
      arch := .unknown, debugId := .nil,
      loadAddress := 0x1000 }.toBytes.toOption.isSome = true := by
    cbv
  obtain ⟨bytes, hbytes⟩ := exists_ok_of_isSome hok
  exact ⟨bytes, hbytes, layout_of_written_cache hbytes⟩

end Postmortem.SymCache
