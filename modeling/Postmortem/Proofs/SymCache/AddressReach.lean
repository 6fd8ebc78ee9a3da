import Mathlib
import Postmortem.Proofs.SymCache.CollectedItems
import Postmortem.Proofs.SymCache.LaidTables
import Postmortem.Proofs.SymCache.StoredCache

/-!
# Addresses in reach of the load address

A cache stores distances from the load address in 32 bits, with one value left for what is absent.
The check is made on the disjoint ranges that overlapping code was divided into, but it tells
whether the code of a function or symbol ends out of reach, even if others win most of it: the last
address of its code belongs to some range, which ends no lower.
-/

set_option autoImplicit false

namespace Postmortem.SymCache

/-- Whether an item has code that ends out of reach of the load address. -/
def Item.Overreaches (load : UInt64) (i : Item) : Prop :=
  i.Accepted load ∧ i.tree.address < i.tree.stop ∧ load.toNat + 0xffffffff < i.tree.stop.toNat

namespace Builder

variable {b : Builder} {items : List Item}

/-- If an item overreaches, so does the range that its last address belongs to. -/
theorem exists_out_of_reach
    (h : List.Forall₂ (OuterOf b.pools) b.outer (items.filter fun i => i.HasCode)) {i : Item}
    (hi : i ∈ items) (hover : i.Overreaches b.loadAddress) :
    ∃ c ∈ b.ranges, ¬ InReach b.loadAddress c := by
  obtain ⟨hkept, hlt, hend⟩ := hover
  rw [UInt64.lt_iff_toNat_lt] at hlt
  have hlast : (i.tree.stop - 1).toNat = i.tree.stop.toNat - 1 :=
    UInt64.toNat_sub_of_le _ _ (UInt64.le_iff_toNat_le.2 (Nat.one_le_of_lt hlt))
  have hcovers : i.Covers b.loadAddress (i.tree.stop - 1) := by
    refine ⟨hkept, UInt64.le_iff_toNat_le.2 ?_, UInt64.lt_iff_toNat_lt.2 ?_⟩
    · omega
    · omega
  cases howner : RangeClaims.owner? (b.claims.served priority) (i.tree.stop - 1) with
  | none => exact absurd hcovers (no_owner h howner i hi)
  | some c =>
      -- whoever wins the last address, the range with it ends behind it
      obtain ⟨x, hx, hcov⟩ := b.divides_ranges.covers _ c howner
      refine ⟨x, hx, fun hreach => ?_⟩
      have hstop := UInt64.lt_iff_toNat_lt.1 hcov.2
      have hwithin : x.stop.toNat < b.loadAddress.toNat + 4294967296 := hreach.2.2
      omega

/-- Some range ends out of reach exactly if some item does. -/
theorem exists_out_of_reach_iff
    (h : List.Forall₂ (OuterOf b.pools) b.outer (items.filter fun i => i.HasCode)) :
    (∃ c ∈ b.ranges, ¬ InReach b.loadAddress c) ↔ ∃ i ∈ items, i.Overreaches b.loadAddress := by
  refine ⟨?_, fun ⟨i, hi, hover⟩ => exists_out_of_reach h hi hover⟩
  rintro ⟨c, hc, hout⟩
  have hnonempty := b.divides_ranges.disjoint.nonempty c hc
  -- the item that wins the first address of the range has all of it
  obtain ⟨-, hstop, howner⟩ := owner_of_range hc
  obtain ⟨i, hclaim, hfirst⟩ := owner_is_least h (howner c.start ⟨UInt64.le_refl _, hnonempty⟩)
  obtain ⟨hkept, hfrom, hto⟩ := hfirst.holds
  refine ⟨i, hfirst.mem, hkept, UInt64.lt_of_le_of_lt hfrom hto, ?_⟩
  rw [← hclaim.2.1]
  have hload := UInt64.le_iff_toNat_le.1 (UInt64.le_trans hkept.2 hfrom)
  have hnonempty := UInt64.lt_iff_toNat_lt.1 hnonempty
  have hstop : c.stop.toNat ≤ (claimOf c.value).stop.toNat := UInt64.le_iff_toNat_le.1 hstop
  by_contra hend
  have hsize : UInt32.size = 0xffffffff + 1 := rfl
  exact hout ⟨⟨hload, by omega⟩, by omega, by omega⟩

structure Fits (b : Builder) : Prop where
  files : b.pools.files.length < UInt32.size
  functions : b.pools.functions.length < UInt32.size
  strings : b.pools.strings.toBytes.length < UInt32.size
  ranges : b.ranges.length < UInt32.size
  inlinees : (b.ranges.flatMap callPieces).length < UInt32.size
  lineBlocks : ((b.ranges.flatMap rangePieces).flatMap Piece.groups).length < UInt32.size
  lineProgram : ((b.ranges.flatMap rangePieces).flatMap Piece.program).length < UInt32.size

theorem layable_of_range (hb : b.Whole) {c : Claim OuterScope} (hc : c ∈ b.ranges) :
    Tables.Layable b.pools c := by
  obtain ⟨hstart, hstop, -⟩ := owner_of_range hc
  exact ⟨b.divides_ranges.disjoint.nonempty c hc, hstart, hstop, hb.scopes _ (mem_outer_of_range hc)⟩

theorem toBytes_of_lays {t : Tables} (hfits : b.Fits)
    (ht : Tables.ofRanges b.loadAddress b.ranges = .ok t)
    (hlays : Tables.Lays b.loadAddress {} t b.ranges (b.ranges.flatMap callPieces)
      (b.ranges.flatMap rangePieces)) : ∃ bytes, b.toBytes = .ok bytes := by
  have hranges := hlays.length_ranges
  have hinlinees := hlays.length_inlinees
  have hlineBlocks := hlays.length_lineBlocks
  have hlineProgram := hlays.length_lineProgram
  simp only [List.length_nil, Nat.zero_add] at hranges hinlinees hlineBlocks hlineProgram
  rw [toBytes]
  refine exists_bind_eq_ok ht ?_
  refine exists_bind_eq_ok (Tables.count_of_lt hfits.files) ?_
  refine exists_bind_eq_ok (Tables.count_of_lt ?_) ?_
  · rw [List.length_map]
    exact hfits.functions
  refine exists_bind_eq_ok (Tables.count_of_lt (hranges ▸ hfits.ranges)) ?_
  refine exists_bind_eq_ok (Tables.count_of_lt (hinlinees ▸ hfits.inlinees)) ?_
  refine exists_bind_eq_ok (Tables.count_of_lt (hlineBlocks ▸ hfits.lineBlocks)) ?_
  refine exists_bind_eq_ok (Tables.count_of_lt (hlineProgram ▸ hfits.lineProgram)) ?_
  exact exists_bind_eq_ok (Tables.count_of_lt hfits.strings) ⟨_, rfl⟩

end Builder

/-- Whether each range, inlined call and block of a cache that was written from a builder has the
exact distance of its address. -/
structure ExactlyPlaced (s : SymCache) (b : Builder) : Prop where
  ranges : List.Forall₂ (RangeAt b.loadAddress) s.ranges b.ranges
  inlinees : List.Forall₂ (CallAt b.loadAddress) s.inlinees (b.ranges.flatMap callPieces)
  lineBlocks : List.Forall₂ (BlockAt b.loadAddress) s.lineBlocks
    ((b.ranges.flatMap rangePieces).flatMap Piece.groups)
  starts_present : ∀ r ∈ s.ranges, r.start ≠ absent

theorem RangeAt.start_ne_absent {load : UInt64} {r : RangeRecord} {c : Claim OuterScope}
    (h : RangeAt load r c) (hlt : c.start < c.stop) : r.start ≠ absent := by
  refine ne_max_of_lt (s := r.stop) (UInt32.lt_iff_toNat_lt.2 ?_)
  have hstart : load.toNat + r.start.toNat = c.start.toNat := h.start
  have hstop : load.toNat + r.stop.toNat = c.stop.toNat := h.stop
  rw [UInt64.lt_iff_toNat_lt] at hlt
  omega

/-- A cache is written as long as all ranges are within reach, and then each record of it is exactly
placed. -/
theorem Builder.toBytes_cases {b : Builder} (hb : b.Whole) (hfits : b.Fits) :
    (∃ c ∈ b.ranges, ¬ InReach b.loadAddress c) ∧ b.toBytes = .error (.tooLarge .address) ∨
      (∀ c ∈ b.ranges, InReach b.loadAddress c) ∧
        ∃ bytes s, b.toBytes = .ok bytes ∧ parse bytes = .ok s ∧ s.ExactlyPlaced b := by
  have room : Tables.Room {} (b.ranges.flatMap callPieces) (b.ranges.flatMap rangePieces) := by
    refine ⟨?_, ?_, ?_⟩
    · exact (Nat.zero_add _).symm ▸ hfits.inlinees
    · exact (Nat.zero_add _).symm ▸ hfits.lineBlocks
    · exact (Nat.zero_add _).symm ▸ hfits.lineProgram
  rcases Tables.foldlM_pushRange_cases b.loadAddress (fun c hc => layable_of_range hb hc)
    room with ⟨hreach, t, ht, hlays⟩ | ⟨hout, herror⟩
  · right
    obtain ⟨bytes, hbytes⟩ := toBytes_of_lays hfits ht hlays
    obtain ⟨s, hparse, hstored⟩ := parse_toBytes hbytes
    refine ⟨hreach, bytes, s, hbytes, hparse, ?_⟩
    obtain rfl : s.tables = t := Except.ok.inj (hstored.tables.symm.trans ht)
    obtain ⟨⟨ranges, hr, hranges⟩, ⟨inlinees, hn, hinlinees⟩, ⟨blocks, hx, hblocks⟩, -⟩ := hlays
    obtain rfl : s.ranges = ranges := hr
    obtain rfl : s.inlinees = inlinees := hn
    obtain rfl : s.lineBlocks = blocks := hx
    refine ⟨hranges, hinlinees, hblocks, ?_⟩
    intro r hr
    obtain ⟨c, hc, hat⟩ := exists_right hranges hr
    exact hat.start_ne_absent (layable_of_range hb hc).nonempty
  · left
    refine ⟨hout, ?_⟩
    rw [toBytes]
    exact congrArg (· >>= _) herror

/-- Writing fails for an address exactly if some function or symbol that was added has code that
ends out of reach of the load address, however much of it others win.  Otherwise a cache is written,
and each range, inlined call and block of it has the exact distance of its address. -/
theorem Builder.reach_decides_writing {b : Builder} (hb : b.Reached) (hfits : b.Fits) :
    (∃ items, b.Collected items) ∧ ∀ items, b.Collected items →
      (b.toBytes = .error (.tooLarge .address) ↔ ∃ i ∈ items, i.Overreaches b.loadAddress) ∧
      ((∀ i ∈ items, ¬ i.Overreaches b.loadAddress) →
        ∃ bytes s, b.toBytes = .ok bytes ∧ parse bytes = .ok s ∧ s.ExactlyPlaced b) := by
  refine ⟨hb.collected, fun items hitems => ?_⟩
  rw [← exists_out_of_reach_iff hitems.outer]
  rcases toBytes_cases hb.whole hfits with ⟨hout, herror⟩ | ⟨hreach, bytes, s, hbytes, hwritten⟩
  · refine ⟨iff_of_true herror hout, fun hnone => ?_⟩
    obtain ⟨i, hi, hover⟩ := (exists_out_of_reach_iff hitems.outer).1 hout
    exact absurd hover (hnone i hi)
  · refine ⟨iff_of_false ?_ ?_, fun _ => ⟨bytes, s, hbytes, hwritten⟩⟩
    · rw [hbytes]
      exact nofun
    · rintro ⟨c, hc, hout⟩
      exact hout (hreach c hc)

/-- A function that ends with the last address in reach. -/
def longFunction : Debug.Function where
  address := 0x1000
  size := 0xffffffff
  name := { text := "main" }
  lines := [{ address := 0x1000, line := 7 }]

def longerSymbol : Debug.Symbol where
  name := some "start"
  address := 0x1000
  size := 0x100000000

def collectedAt (load : UInt64) (items : List Item) : Builder :=
  { Builder.addEach {} items with arch := .unknown, debugId := .nil, loadAddress := load }

theorem collectedAt_reached (load : UInt64) (items : List Item) :
    (collectedAt load items).Reached :=
  .settings _ _ _ (Builder.Reached.empty.addEach items)

theorem shadowed_symbol_refused :
    (collectedAt 0x1000 [.function longFunction, .symbol longerSymbol]).toBytes =
        .error (.tooLarge .address) ∧
      ∃ bytes s, (collectedAt 0x1000 [.function longFunction]).toBytes = .ok bytes ∧
        parse bytes = .ok s ∧ s.ExactlyPlaced (collectedAt 0x1000 [.function longFunction]) := by
  have hadd : (Builder.add {} (.function longFunction)).1 = .ok () := by cbv
  have hfunction : (Builder.addEach {} [.function longFunction]).Collected
      [.function longFunction] := .added .empty (Prod.ext hadd rfl)
  have hsymbol : (Builder.addEach {} [.function longFunction, .symbol longerSymbol]).Collected
      [.function longFunction, .symbol longerSymbol] := by
    refine .added hfunction (Prod.ext ?_ rfl)
    cbv
  have hbeyond : (collectedAt 0x1000 [.function longFunction, .symbol longerSymbol]).Fits :=
    ⟨by cbv, by cbv, by cbv, by cbv, by cbv, by cbv, by cbv⟩
  have hwithin : (collectedAt 0x1000 [.function longFunction]).Fits :=
    ⟨by cbv, by cbv, by cbv, by cbv, by cbv, by cbv, by cbv⟩
  constructor
  · refine ((Builder.reach_decides_writing (collectedAt_reached _ _) hbeyond).2 _
      (hsymbol.settings .unknown .nil 0x1000)).1.2 ?_
    exact ⟨.symbol longerSymbol, by simp, ⟨by decide, by decide⟩, by decide, by decide⟩
  · refine ((Builder.reach_decides_writing (collectedAt_reached _ _) hwithin).2 _
      (hfunction.settings .unknown .nil 0x1000)).2 ?_
    intro i hi hover
    obtain rfl := List.mem_singleton.1 hi
    exact absurd hover.2.2 (by decide)

/-- Code at the last address ends, after saturation, where it starts.  It makes no range, so it is
left out, however far it is from the load address. -/
def lastAddress : Debug.Function where
  address := 0xffffffffffffffff
  size := 1
  name := { text := "main" }

theorem last_address_is_left_out :
    (collectedAt 0 [.function lastAddress]).Reached ∧
      (collectedAt 0 [.function lastAddress]).Collected [.function lastAddress] ∧
      (collectedAt 0 [.function lastAddress]).Fits ∧
      (Item.function lastAddress).Accepted 0 ∧ 0xffffffff < lastAddress.stop.toNat ∧
      ∃ bytes, (collectedAt 0 [.function lastAddress]).toBytes = .ok bytes := by
  have hadd : (Builder.add {} (.function lastAddress)).1 = .ok () := by cbv
  have hcollected : (Builder.addEach {} [.function lastAddress]).Collected
      [.function lastAddress] := .added .empty (Prod.ext hadd rfl)
  refine ⟨collectedAt_reached _ _, hcollected.settings .unknown .nil 0,
    ⟨by cbv, by cbv, by cbv, by cbv, by cbv, by cbv, by cbv⟩, ⟨by decide, by decide⟩, by decide, ?_⟩
  exact exists_ok_of_isSome (by cbv)

end Postmortem.SymCache
