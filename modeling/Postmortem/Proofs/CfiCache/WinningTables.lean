import Postmortem.Proofs.CfiCache.Fragments
import Postmortem.Proofs.RangeOwners

/-!
# Winning tables

The ranges of a cache divide the addresses that its tables cover, and each address belongs to the
least of the tables there.
-/

set_option autoImplicit false

namespace Postmortem.CfiCache

open Postmortem.Debug (Object UnwindTable)

def Covers (load a : UInt64) (t : UnwindTable) : Prop :=
  isLive load t = true ∧ t.address ≤ a ∧ a < t.stop

/-- Which of two tables wins where both cover an address: the smaller one, then the more precise
kind, and then the one that starts first. -/
def precedence (t u : UnwindTable) : Ordering :=
  (compare (t.stop - t.address) (u.stop - u.address)).then <|
    (compare t.source.rank u.source.rank).then (compare t.address u.address)

instance : Std.TransCmp precedence := by
  show Std.TransCmp (compareLex (compareOn fun t : UnwindTable => t.stop - t.address)
    (compareLex (compareOn fun t : UnwindTable => t.source.rank) (compareOn UnwindTable.address)))
  infer_instance

instance : Std.TransCmp priority := by
  show Std.TransCmp (compareLex (compareOn Claim.length)
    (compareLex (compareOn fun c : Claim ConvertedTable => c.value.source.rank)
      (compareOn Claim.start)))
  infer_instance

/-! ## Claims -/

def claimOf (t : ConvertedTable) : Claim ConvertedTable := ⟨t.start, t.stop, t⟩

def claims (tables : List ConvertedTable) : RangeClaims ConvertedTable :=
  ⟨(tables.filter fun t => t.start < t.stop).map claimOf⟩

theorem ranges_eq (tables : List ConvertedTable) :
    ranges tables = (claims tables).resolve priority := by
  have hpush := RangeClaims.foldl_push (tables.map claimOf) .empty
  rw [List.foldl_map, List.filter_map] at hpush
  exact congrArg (RangeClaims.resolve · priority) hpush

theorem disjoint_ranges (tables : List ConvertedTable) : Claim.Disjoint (ranges tables) := by
  rw [ranges_eq]
  exact (RangeClaims.divides_resolve (claims tables) priority).disjoint

structure ClaimOf (family : Cpu.Family) (c : Claim ConvertedTable) (t : UnwindTable) : Prop where
  start : c.start = t.address
  stop : c.stop = t.stop
  source : c.value.source = t.source
  program : programOf family t = .ok c.value.program

variable {family : Cpu.Family} {load a : UInt64} {tables : List ConvertedTable}

theorem claimOf_convert {t : UnwindTable} {c : ConvertedTable}
    (h : convert family load t = .ok c) : ClaimOf family (claimOf c) t := by
  rw [convert] at h
  split at h
  · cases h
  · obtain ⟨program, hprogram, h⟩ := bind_eq_ok.1 h
    cases h
    exact ⟨rfl, rfl, rfl, hprogram⟩

theorem ClaimOf.covers_iff {c : Claim ConvertedTable} {t : UnwindTable}
    (h : ClaimOf family c t) : c.Covers a ↔ t.address ≤ a ∧ a < t.stop := by
  rw [Claim.Covers, h.start, h.stop]

theorem priority_eq_precedence {c d : Claim ConvertedTable} {t u : UnwindTable}
    (hc : ClaimOf family c t) (hd : ClaimOf family d u) : priority c d = precedence t u := by
  rw [priority, precedence, Claim.length, Claim.length, hc.start, hc.stop, hd.start, hd.stop,
    hc.source, hd.source]

/-! ## Owners -/

def claimants (load : UInt64) (all : List UnwindTable) : List UnwindTable :=
  (all.filter (isLive load)).filter fun t => t.address < t.stop

variable {all : List UnwindTable}

theorem forall₂_claims
    (h : List.Forall₂ (fun t c => convert family load t = .ok c) (all.filter (isLive load))
      tables) :
    List.Forall₂ (ClaimOf family) (claims tables).claims (claimants load all) := by
  rw [claims, List.forall₂_map_left_iff]
  refine List.Forall₂.imp (fun _ _ hc => claimOf_convert hc) (List.rel_filter ?_ h.flip)
  intro c t hc
  have hclaim := claimOf_convert hc
  dsimp only
  rw [← hclaim.start, ← hclaim.stop]
  rfl

theorem owner_is_least
    (h : List.Forall₂ (fun t c => convert family load t = .ok c) (all.filter (isLive load))
      tables) {c : Claim ConvertedTable}
    (howner : RangeClaims.owner? ((claims tables).served priority) a = some c) :
    ∃ t, ClaimOf family c t ∧ IsFirstLeast precedence (Covers load a) all t := by
  obtain ⟨t, ht, hleast⟩ := (RangeClaims.isFirstLeast_of_owner? howner).replace
    (q := fun t => t.address ≤ a ∧ a < t.stop) (forall₂_claims h)
    (fun _ _ _ _ hc hd => priority_eq_precedence hc hd) (fun _ _ hc => hc.covers_iff)
  refine ⟨t, ht, ?_⟩
  have hkept : IsFirstLeast precedence (Covers load a) (claimants load all) t := by
    refine hleast.congr fun u hu => ⟨fun hcov => ⟨?_, hcov⟩, fun hcov => hcov.2⟩
    exact (List.mem_filter.1 (List.mem_filter.1 hu).1).2
  refine (hkept.of_filter ?_).of_filter ?_
  · intro u _ hcov
    exact decide_eq_true (UInt64.lt_of_le_of_lt hcov.2.1 hcov.2.2)
  · intro u _ hcov
    exact hcov.1

theorem no_owner
    (h : List.Forall₂ (fun t c => convert family load t = .ok c) (all.filter (isLive load))
      tables)
    (howner : RangeClaims.owner? ((claims tables).served priority) a = none) :
    ∀ t ∈ all, ¬ Covers load a t := by
  intro t ht hcov
  have hmem : t ∈ claimants load all := by
    refine List.mem_filter.2 ⟨List.mem_filter.2 ⟨ht, hcov.1⟩, ?_⟩
    exact decide_eq_true (UInt64.lt_of_le_of_lt hcov.2.1 hcov.2.2)
  obtain ⟨c, hc, hclaim⟩ := exists_left (forall₂_claims h) hmem
  exact RangeClaims.owner?_eq_none_iff.1 howner c hc (hclaim.covers_iff.2 hcov.2)

/-- One table is the least at all addresses of a range, and the range has its source and its
program. -/
theorem winner_of_range
    (h : List.Forall₂ (fun t c => convert family load t = .ok c) (all.filter (isLive load))
      tables) {x : Claim ConvertedTable} (hx : x ∈ ranges tables) :
    ∃ t, t.source = x.value.source ∧ programOf family t = .ok x.value.program ∧
      ∀ a, x.Covers a → IsFirstLeast precedence (Covers load a) all t := by
  have hdivides := RangeClaims.divides_resolve (claims tables) priority
  rw [← ranges_eq] at hdivides
  obtain ⟨c, hvalue, hstart, hstop, howner⟩ := hdivides.owned x hx
  have hfirst : x.Covers x.start := ⟨UInt64.le_refl _, hdivides.disjoint.nonempty x hx⟩
  obtain ⟨t, ht, hleast⟩ := owner_is_least h (howner x.start hfirst)
  have hinside {a : UInt64} (ha : x.Covers a) : c.Covers a := ha.of_part hstart hstop
  refine ⟨t, by rw [← hvalue, ht.source], hvalue ▸ ht.program, ?_⟩
  intro a ha
  -- the least table at another address of the range has the same claim
  obtain ⟨u, hu, hleast'⟩ := owner_is_least h (howner a ha)
  have hta : Covers load a t := ⟨hleast.holds.1, ht.covers_iff.1 (hinside ha)⟩
  have huc : Covers load x.start u := ⟨hleast'.holds.1, hu.covers_iff.1 (hinside hfirst)⟩
  rwa [hleast.eq_of_both hleast' hta huc]

theorem exists_range
    (h : List.Forall₂ (fun t c => convert family load t = .ok c) (all.filter (isLive load))
      tables) {t : UnwindTable} (ht : t ∈ all) (hcov : Covers load a t) :
    ∃ x ∈ ranges tables, x.Covers a := by
  have hdivides := RangeClaims.divides_resolve (claims tables) priority
  rw [← ranges_eq] at hdivides
  cases howner : RangeClaims.owner? ((claims tables).served priority) a with
  | none => exact absurd hcov (no_owner h howner t ht)
  | some c => exact hdivides.covers a c howner

end Postmortem.CfiCache
