import Postmortem.Proofs.SymCache.TableLayout

/-!
# Slices of tables

A record refers to other records by a slice of their table: the number of the first one, and how
many there are.  The slices that are handed out follow one another without gaps, so that each record
belongs to one slice only.
-/

set_option autoImplicit false

namespace Postmortem.SymCache

structure Slice where
  first : UInt32
  count : UInt32

namespace Slice

def stop (s : Slice) : Nat := s.first.toNat + s.count.toNat

def of {α : Type} (s : Slice) (l : List α) : List α := part l s.first.toNat s.count.toNat

/-- Whether slices follow one another, from one number up to another. -/
def Tile : Nat → List Slice → Nat → Prop
  | i, [], n => i = n
  | i, s :: rest, n => s.first.toNat = i ∧ Tile s.stop rest n

theorem tile_append {before after : List Slice} {i n : Nat} :
    Tile i (before ++ after) n ↔ ∃ k, Tile i before k ∧ Tile k after n := by
  induction before generalizing i with
  | nil => simp [Tile]
  | cons s rest ih => simp only [List.cons_append, Tile, ih, and_assoc, exists_and_left]

theorem tile_singleton {s : Slice} {i n : Nat} :
    Tile i [s] n ↔ s.first.toNat = i ∧ s.stop = n := Iff.rfl

theorem Tile.le {l : List Slice} {i n : Nat} (h : Tile i l n) : i ≤ n := by
  induction l generalizing i with
  | nil => exact Nat.le_of_eq h
  | cons s rest ih =>
      obtain ⟨rfl, hrest⟩ := h
      exact Nat.le_trans (Nat.le_add_right _ _) (ih hrest)

theorem Tile.bounds {l : List Slice} {i n : Nat} (h : Tile i l n) {s : Slice} (hs : s ∈ l) :
    i ≤ s.first.toNat ∧ s.stop ≤ n := by
  induction l generalizing i with
  | nil => simp at hs
  | cons s' rest ih =>
      obtain ⟨rfl, hrest⟩ := h
      rcases List.mem_cons.1 hs with rfl | hs
      · exact ⟨Nat.le_refl _, hrest.le⟩
      · obtain ⟨hlow, hhigh⟩ := ih hrest hs
        exact ⟨Nat.le_trans (Nat.le_add_right _ _) hlow, hhigh⟩

/-- Each number belongs to one of the slices. -/
theorem Tile.exists_slice {l : List Slice} {i n k : Nat} (h : Tile i l n) (low : i ≤ k)
    (high : k < n) : ∃ s ∈ l, s.first.toNat ≤ k ∧ k < s.stop := by
  induction l generalizing i with
  | nil =>
      rw [Tile] at h
      omega
  | cons s rest ih =>
      obtain ⟨rfl, hrest⟩ := h
      by_cases hk : k < s.stop
      · exact ⟨s, List.mem_cons_self .., low, hk⟩
      · obtain ⟨s', hs', hin⟩ := ih hrest (Nat.not_lt.1 hk)
        exact ⟨s', List.mem_cons_of_mem _ hs', hin⟩

theorem mem_of {α : Type} {s : Slice} {l : List α} {a : α} {i : Nat} (hs : s.stop ≤ l.length)
    (low : s.first.toNat ≤ i) (high : i < s.stop) (ha : l[i]? = some a) : a ∈ s.of l := by
  have hcount : i - s.first.toNat < s.count.toNat := by
    rw [stop] at high
    omega
  have hpart : s.of l = (l.drop s.first.toNat).take s.count.toNat := if_pos hs
  rw [hpart]
  refine List.mem_of_getElem? (i := i - s.first.toNat) ?_
  rw [List.getElem?_take_of_lt hcount, List.getElem?_drop, Nat.add_sub_cancel' low, ha]

end Slice

open Slice (Tile)

namespace RangeRecord

def calls (r : RangeRecord) : Slice := ⟨r.firstInlinee, r.inlineeCount⟩

def blocks (r : RangeRecord) : Slice := ⟨r.firstBlock, r.blockCount⟩

end RangeRecord

def InlineeRecord.blocks (n : InlineeRecord) : Slice := ⟨n.firstBlock, n.blockCount⟩

namespace Tables

def blockSlices (t : Tables) (r : RangeRecord) : List Slice :=
  r.blocks :: (r.calls.of t.inlinees).map InlineeRecord.blocks

/-- How the tables are divided: each range has its own inlined calls, each of them and the range
itself has its own blocks, and a parent stands among the calls of the same range. -/
structure Divided (t : Tables) : Prop where
  calls : Tile 0 (t.ranges.map RangeRecord.calls) t.inlinees.length
  blocks : Tile 0 (t.ranges.flatMap t.blockSlices) t.lineBlocks.length
  parents : ∀ r ∈ t.ranges, ∀ n ∈ r.calls.of t.inlinees,
    n.parent = absent ∨ r.firstInlinee.toNat ≤ n.parent.toNat

variable {load : UInt64} {t t' t'' : Tables}

structure AddsCalls (parent : UInt32) (t t' : Tables) (calls : List InlineeRecord) : Prop where
  ranges : t'.ranges = t.ranges
  inlinees : t'.inlinees = t.inlinees ++ calls
  blocks : Tile t.lineBlocks.length (calls.map InlineeRecord.blocks) t'.lineBlocks.length
  parents : ∀ n ∈ calls, n.parent = parent ∨ t.inlinees.length ≤ n.parent.toNat

theorem AddsCalls.nil (parent : UInt32) (t : Tables) : AddsCalls parent t t [] :=
  ⟨rfl, (List.append_nil _).symm, rfl, by simp⟩

theorem AddsCalls.append {parent : UInt32} {before after : List InlineeRecord}
    (h : AddsCalls parent t t' before) (h' : AddsCalls parent t' t'' after) :
    AddsCalls parent t t'' (before ++ after) := by
  refine ⟨h'.ranges.trans h.ranges, ?_, ?_, ?_⟩
  · rw [h'.inlinees, h.inlinees, List.append_assoc]
  · rw [List.map_append, Slice.tile_append]
    exact ⟨_, h.blocks, h'.blocks⟩
  · intro n hn
    rcases List.mem_append.1 hn with hn | hn
    · exact h.parents n hn
    · refine (h'.parents n hn).imp_right fun hle => Nat.le_trans ?_ hle
      rw [h.inlinees, List.length_append]
      exact Nat.le_add_right _ _

theorem AddsLines.tile {first n : UInt32} {rows : List LineRow}
    (h : AddsLines load t t' first n rows) :
    Tile t.lineBlocks.length [⟨first, n⟩] t'.lineBlocks.length :=
  Slice.tile_singleton.2 ⟨h.first_eq, by rw [Slice.stop, h.length, h.first_eq]⟩

/-- A call adds its own record, and then those of the calls that have it as their parent. -/
theorem AddsInlinee.addsCalls {low high : UInt64} {s : Scope} {parent depth index : UInt32}
    {t₁ : Tables} {r : InlineeRecord} {inner : List InlineeRecord}
    (h : AddsInlinee load low high s parent depth t t₁ r) (hindex : index.toNat = t.inlinees.length)
    (h' : AddsCalls index (t₁.withInlinee r) t' inner) : AddsCalls parent t t' (r :: inner) := by
  refine ⟨h'.ranges.trans h.lines.ranges, ?_, ?_, ?_⟩
  · rw [h'.inlinees, withInlinee, h.lines.inlinees, List.append_assoc, List.singleton_append]
  · rw [List.map_cons, ← List.singleton_append, Slice.tile_append]
    exact ⟨_, h.lines.tile, h'.blocks⟩
  · intro n hn
    rcases List.mem_cons.1 hn with rfl | hn
    · exact .inl h.parent
    · refine .inr ?_
      rcases h'.parents n hn with hparent | hle
      · rw [hparent, hindex]
      · rw [withInlinee, h.lines.inlinees, List.length_append] at hle
        exact Nat.le_trans (Nat.le_add_right _ _) hle

mutual

theorem pushInlinee_calls {s : Scope} {low high : UInt64} {parent depth : UInt32} {t t' : Tables}
    (h : t.pushInlinee load low high parent depth s = .ok t') :
    ∃ calls, AddsCalls parent t t' calls := by
  by_cases hlt : max s.start low < min s.stop high
  · obtain ⟨scopeStart, scopeStop, function, lines, inlinees⟩ := s
    obtain ⟨t₁, r, index, hadds, hindex, hrest⟩ := pushInlinee_eq_ok hlt h
    obtain ⟨inner, hinner⟩ := pushInlinees_calls (l := inlinees) hrest
    exact ⟨r :: inner, hadds.addsCalls hindex hinner⟩
  · rw [pushInlinee_of_not_lt hlt] at h
    rw [← Except.ok.inj h]
    exact ⟨[], .nil parent t⟩

theorem pushInlinees_calls {l : List Scope} {low high : UInt64} {parent depth : UInt32}
    {t t' : Tables} (h : t.pushInlinees load low high parent depth l = .ok t') :
    ∃ calls, AddsCalls parent t t' calls := by
  cases l with
  | nil =>
      rw [pushInlinees] at h
      rw [← Except.ok.inj h]
      exact ⟨[], .nil parent t⟩
  | cons s rest =>
      rw [pushInlinees] at h
      obtain ⟨t₁, ht₁, h⟩ := bind_eq_ok.1 h
      obtain ⟨before, hbefore⟩ := pushInlinee_calls ht₁
      obtain ⟨after, hafter⟩ := pushInlinees_calls h
      exact ⟨before ++ after, hbefore.append hafter⟩

end

theorem Divided.calls_of_append (h : t.Divided) {calls : List InlineeRecord}
    (ht : t'.inlinees = t.inlinees ++ calls) {r : RangeRecord} (hr : r ∈ t.ranges) :
    r.calls.of t'.inlinees = r.calls.of t.inlinees :=
  part_mono (ht ▸ List.prefix_append _ _) (h.calls.bounds (List.mem_map_of_mem hr)).2

theorem Divided.pushRange {c : Claim OuterScope} (h : t.Divided)
    (ht : t.pushRange load c = .ok t') : t'.Divided := by
  obtain ⟨t₁, t₂, r, hadds, rfl⟩ := pushRange_eq_ok ht
  obtain ⟨calls, hcalls⟩ := pushInlinees_calls hadds.calls
  have hranges : (t₂.withRange r).ranges = t.ranges ++ [r] := by
    rw [withRange, hcalls.ranges, hadds.lines.ranges]
  have hinlinees : (t₂.withRange r).inlinees = t.inlinees ++ calls := by
    rw [withRange, hcalls.inlinees, hadds.lines.inlinees]
  have hfirst : r.firstInlinee.toNat = t.inlinees.length := by
    rw [hadds.first_eq, hadds.lines.inlinees]
  have hcount : r.inlineeCount.toNat = calls.length :=
    hadds.count_eq _ (by rw [hcalls.inlinees, List.length_append])
  have hnew : r.calls.of (t₂.withRange r).inlinees = calls := by
    rw [hinlinees]
    exact part_append hfirst hcount
  -- the ranges before this one still have the calls that they had
  have hold : ∀ r' ∈ t.ranges,
      r'.calls.of (t₂.withRange r).inlinees = r'.calls.of t.inlinees :=
    fun r' hr' => h.calls_of_append hinlinees hr'
  refine ⟨?_, ?_, ?_⟩
  · rw [hranges, List.map_append, Slice.tile_append]
    refine ⟨_, h.calls, Slice.tile_singleton.2 ⟨hfirst, ?_⟩⟩
    rw [Slice.stop, RangeRecord.calls, hfirst, hcount, hinlinees, List.length_append]
  · have hsame : t.ranges.flatMap (t₂.withRange r).blockSlices = t.ranges.flatMap t.blockSlices :=
      List.flatMap_congr fun r' hr' => by rw [blockSlices, blockSlices, hold r' hr']
    rw [hranges, List.flatMap_append, hsame, Slice.tile_append]
    refine ⟨_, h.blocks, ?_⟩
    rw [List.flatMap_singleton, blockSlices, hnew, ← List.singleton_append, Slice.tile_append]
    exact ⟨_, hadds.lines.tile, hcalls.blocks⟩
  · rw [hranges]
    intro r' hr' n hn
    rcases List.mem_append.1 hr' with hr' | hr'
    · rw [hold r' hr'] at hn
      exact h.parents r' hr' n hn
    · obtain rfl := List.mem_singleton.1 hr'
      rw [hnew] at hn
      rw [hadds.first_eq]
      exact hcalls.parents n hn

theorem divided_ofRanges {ranges : List (Claim OuterScope)} (h : ofRanges load ranges = .ok t) :
    t.Divided := by
  have hfold : ∀ t₀ : Tables, t₀.Divided → ranges.foldlM (pushRange load) t₀ = .ok t →
      t.Divided := by
    clear h
    induction ranges with
    | nil =>
        intro t₀ ht₀ h
        rw [← Except.ok.inj h]
        exact ht₀
    | cons c rest ih =>
        intro t₀ ht₀ h
        rw [List.foldlM_cons] at h
        obtain ⟨t₁, ht₁, h⟩ := bind_eq_ok.1 h
        exact ih t₁ (ht₀.pushRange ht₁) h
  exact hfold {} ⟨rfl, rfl, by simp⟩ h

end Tables

end Postmortem.SymCache
