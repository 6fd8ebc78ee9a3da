import Postmortem.Proofs.RangeRecords
import Postmortem.Proofs.SymCache.TableLayout

/-!
# Lookups in tables

Looking up an address in the tables of some ranges finds the range that covers it, climbs the
longest chain of inlined calls there that all cover it, and reads the line table of each of them.
-/

set_option autoImplicit false

namespace Postmortem.SymCache

open LineTable (rowAt? reading recordOf)
open Tables (LinesAt InlineeOf HasChain HasChains RangeOf chainsIn)

/-- Whether a location says of an address what a scope does.  The line may start below the address,
but not above it. -/
structure Reads (s : SymCache) (a : UInt64) (scope : Scope) (l : Location) : Prop where
  function : l.function = (s.function? scope.function).getD {}
  line : l.line = (reading (rowAt? a scope.lines)).1
  file : l.file = s.file? (reading (rowAt? a scope.lines)).2
  symbolAddress : l.function.entry ≠ absent → l.symbolAddress = s.absolute l.function.entry
  lineAddress : ∃ b, l.lineAddress = .ok b ∧ b ≤ a

variable {s : SymCache} {load start stop a : UInt64}

theorem absolute_distance (hload : s.loadAddress = load) (ha : Within load a) :
    s.absolute (distance load a) = .ok a := by
  rw [absolute, hload, addOrAbort_distance ha]

/-- The location of an address in a scope of which the part from `start` up to `stop` is stored. -/
def locationIn (s : SymCache) (start stop a : UInt64) (depth : UInt32) (scope : Scope) : Location :=
  let r := rowAt? a (LineTable.clip start stop scope.lines)
  let f := (s.function? scope.function).getD {}
  { function := f
    file := s.file? (reading r).2
    line := (reading r).1
    depth
    symbolAddress := if f.entry = absent then .ok start else s.absolute f.entry
    lineAddress := .ok ((r.map (·.address)).getD start) }

theorem locationIn_reads {scope : Scope} {depth : UInt32}
    (hrows : LineTable.Increasing scope.lines) (low : start ≤ a) (high : a < stop) :
    Reads s a scope (s.locationIn start stop a depth scope) := by
  have hreading := LineTable.reading_clip hrows low high
  refine ⟨rfl, ?_, ?_, fun hentry => if_neg hentry, ?_⟩
  · rw [← hreading]
    rfl
  · rw [← hreading]
    rfl
  · rw [locationIn]
    cases hrow : rowAt? a (LineTable.clip start stop scope.lines) with
    | none => exact ⟨start, rfl, low⟩
    | some r => exact ⟨r.address, rfl, (LineTable.address_le_of_rowAt? hrow).2⟩

/-- What is located in the blocks of a part of a line table is located in that part. -/
theorem locate_eq {scope : Scope} {depth first n : UInt32} (hload : s.loadAddress = load)
    (hlines : LinesAt load s.tables first n (LineTable.clip start stop scope.lines))
    (hrows : LineTable.Increasing scope.lines) (hstart : Within load start)
    (hstop : Within load stop) (low : start ≤ a) (high : a < stop) :
    s.locate (distance load a) scope.function depth (distance load start) first n =
      s.locationIn start stop a depth scope := by
  have hinside {r : LineRow} (hr : r ∈ LineTable.clip start stop scope.lines) :
      Within load r.address := by
    obtain ⟨hlow, hhigh⟩ := LineTable.mem_clip hrows (UInt64.lt_of_le_of_lt low high) hr
    exact hstart.between hstop hlow (UInt64.le_of_lt hhigh)
  have hline : s.line? (part s.lineBlocks first.toNat n.toNat) (distance load a) =
      (rowAt? a (LineTable.clip start stop scope.lines)).map (recordOf load) := by
    obtain ⟨-, hblocks⟩ := hlines
    have hgroups := LineTable.flatten_groups (blockSize - 1)
      (LineTable.clip start stop scope.lines)
    rw [← hgroups] at hinside ⊢
    refine line?_eq hblocks ?_ (fun r hr => hinside hr)
      (hstart.between hstop low (UInt64.le_of_lt high))
    rw [hgroups]
    exact LineTable.increasing_clip hrows
  have hsymbol (entry : UInt32) :
      s.absolute (if entry = absent then distance load start else entry) =
        if entry = absent then .ok start else s.absolute entry := by
    split
    · exact absolute_distance hload hstart
    · rfl
  rw [locate, hline, locationIn, hsymbol]
  cases hrow : rowAt? a (LineTable.clip start stop scope.lines) with
  | none =>
      simp only [Option.map_none, Option.getD_none, absolute_distance hload hstart]
      rfl
  | some r =>
      have hr := absolute_distance hload (hinside (LineTable.address_le_of_rowAt? hrow).1)
      simp only [Option.map_some, Option.getD_some, recordOf, hr]
      rfl

/-! ## Chains -/

def AllCover (a : UInt64) (chain : List Scope) : Prop := ∀ scope ∈ chain, scope.Covers a

theorem Tables.HasChain.record {t : Tables} {chain : List Scope} {i : Nat} {r : InlineeRecord}
    (h : HasChain load start stop t chain i) (hr : t.inlinees[i]? = some r) :
    ∃ scope outer, chain = scope :: outer ∧ InlineeOf load start stop t scope outer r := by
  cases h with
  | inFunction here record _ =>
      rw [hr] at here
      cases here
      exact ⟨_, _, rfl, record⟩
  | inInlinee here record _ _ =>
      rw [hr] at here
      cases here
      exact ⟨_, _, rfl, record⟩

theorem Tables.HasChain.length_le {t : Tables} {chain : List Scope} {i : Nat}
    (h : HasChain load start stop t chain i) : chain.length ≤ i + 2 := by
  induction h with
  | inFunction => simp
  | inInlinee _ _ before _ ih =>
      rw [List.length_cons]
      omega

theorem Tables.HasChain.two_le {t : Tables} {chain : List Scope} {i : Nat}
    (h : HasChain load start stop t chain i) : 2 ≤ chain.length := by
  induction h with
  | inFunction => simp
  | inInlinee _ _ _ _ ih =>
      rw [List.length_cons]
      omega

theorem Tables.HasChain.lt {t : Tables} {chain : List Scope} {i : Nat}
    (h : HasChain load start stop t chain i) : ∃ r, t.inlinees[i]? = some r := by
  cases h with
  | inFunction here => exact ⟨_, here⟩
  | inInlinee here => exact ⟨_, here⟩

/-- The depth in a record counts the scopes around its own.  It does not overflow, since each of
them but the last has a record of its own. -/
theorem Tables.HasChain.depth_eq {t : Tables} {chain : List Scope} {i : Nat} {r : InlineeRecord}
    (h : HasChain load start stop t chain i) (hr : t.inlinees[i]? = some r)
    (hfits : t.inlinees.length < UInt32.size) : r.depth.toNat + 1 = chain.length := by
  have hlen := h.length_le
  obtain ⟨hi, -⟩ := List.getElem?_eq_some_iff.1 hr
  obtain ⟨scope, outer, rfl, record⟩ := h.record hr
  rw [List.length_cons] at hlen ⊢
  rw [record.depth, UInt32.toNat_ofNat', Nat.mod_eq_of_lt (Nat.lt_of_le_of_lt (by omega) hfits)]

/-- A record covers what all scopes of its chain cover. -/
theorem Tables.HasChain.covers_iff {t : Tables} {chain : List Scope} {i : Nat} {r : InlineeRecord}
    (h : HasChain load start stop t chain i) (hr : t.inlinees[i]? = some r)
    (ha : Within load a) (low : start ≤ a) (high : a < stop) :
    (r.start ≤ distance load a ∧ distance load a < r.stop) ↔ AllCover a chain := by
  obtain ⟨scope, outer, rfl, record⟩ := h.record hr
  rw [record.start_eq, record.stop_eq, distance_le_iff record.within_start ha,
    distance_lt_iff ha record.within_stop, Scope.shared_covers, AllCover]
  exact and_iff_right ⟨low, high⟩

/-- The locations of an address in the scopes of a chain, each of which is stored as far as all
scopes around it and the range from `start` up to `stop` share its code. -/
def locationsOf (s : SymCache) (start stop a : UInt64) : List Scope → List Location
  | [] => []
  | scope :: outer =>
    s.locationIn (Scope.shared start stop (scope :: outer)).1
        (Scope.shared start stop (scope :: outer)).2 a (UInt32.ofNat outer.length) scope ::
      s.locationsOf start stop a outer

theorem locationsOf_reads {chain : List Scope} (low : start ≤ a) (high : a < stop)
    (hcover : AllCover a chain) (hrows : ∀ scope ∈ chain, LineTable.Increasing scope.lines) :
    List.Forall₂ (Reads s a) chain (s.locationsOf start stop a chain) := by
  induction chain with
  | nil => exact .nil
  | cons scope outer ih =>
      obtain ⟨hscope, houter⟩ := List.forall_mem_cons.1 hrows
      have hshared := (Scope.shared_covers _).2 ⟨⟨low, high⟩, hcover⟩
      exact .cons (locationIn_reads hscope hshared.1 hshared.2)
        (ih (fun x hx => hcover x (List.mem_cons_of_mem _ hx)) houter)

theorem locationsOf_ne_nil {chain : List Scope} (h : chain ≠ []) :
    s.locationsOf start stop a chain ≠ [] := by
  cases chain with
  | nil => exact absurd rfl h
  | cons scope outer => exact List.cons_ne_nil _ _

theorem locationsOf_concat (s : SymCache) (start stop a : UInt64) (up : List Scope)
    (root : Scope) :
    (s.locationsOf start stop a (up ++ [root])).dropLast ++ s.locationsOf start stop a [root] =
      s.locationsOf start stop a (up ++ [root]) := by
  induction up with
  | nil => rfl
  | cons scope up ih =>
      rw [List.cons_append, locationsOf,
        List.dropLast_cons_of_ne_nil (locationsOf_ne_nil (by simp)), List.cons_append, ih]

theorem depths_locationsOf {chain : List Scope} (hfits : chain.length ≤ UInt32.size) :
    (s.locationsOf start stop a chain).map (·.depth.toNat) =
      (List.range chain.length).reverse := by
  induction chain with
  | nil => rfl
  | cons scope outer ih =>
      rw [List.length_cons] at hfits
      rw [locationsOf, List.map_cons, ih (Nat.le_of_succ_le hfits), List.length_cons,
        List.range_succ, List.reverse_concat]
      have hdepth : (UInt32.ofNat outer.length).toNat = outer.length := by
        rw [UInt32.toNat_ofNat']
        exact Nat.mod_eq_of_lt hfits
      exact congrArg (· :: _) hdepth

theorem locate_inlinee {scope : Scope} {outer : List Scope} {r : InlineeRecord}
    (hload : s.loadAddress = load) (record : InlineeOf load start stop s.tables scope outer r)
    (hrows : LineTable.Increasing scope.lines) (low : start ≤ a) (high : a < stop)
    (hcover : AllCover a (scope :: outer)) :
    s.locate (distance load a) r.function r.depth r.start r.firstBlock r.blockCount =
      s.locationIn (Scope.shared start stop (scope :: outer)).1
        (Scope.shared start stop (scope :: outer)).2 a (UInt32.ofNat outer.length) scope := by
  have hshared := (Scope.shared_covers _).2 ⟨⟨low, high⟩, hcover⟩
  rw [record.function, record.start_eq, record.depth]
  exact locate_eq hload record.lines hrows record.within_start record.within_stop hshared.1
    hshared.2

/-- Climbing from a record locates the address in all scopes of its chain but the last. -/
theorem climb_eq {chain : List Scope} {i : Nat} {r : InlineeRecord}
    (hload : s.loadAddress = load) (hfits : s.inlinees.length < UInt32.size)
    (low : start ≤ a) (high : a < stop)
    (h : HasChain load start stop s.tables chain i) (hr : s.inlinees[i]? = some r)
    (hcover : AllCover a chain) (hrows : ∀ scope ∈ chain, LineTable.Increasing scope.lines) :
    s.climb (distance load a) i r = (s.locationsOf start stop a chain).dropLast := by
  induction h generalizing r with
  | @inFunction scope root r' i here record parent =>
      obtain rfl : r' = r := Option.some.inj (here.symm.trans hr)
      have hi := (List.getElem?_eq_some_iff.1 hr).1
      have hlast : ¬ r'.parent.toNat < i := by
        rw [parent]
        exact Nat.not_lt.2 (Nat.le_of_lt_succ (Nat.lt_trans hi hfits))
      rw [climb, dif_neg hlast, locate_inlinee hload record (hrows _ (by simp)) low high hcover]
      rfl
  | @inInlinee scope outer r' i here record before parent ih =>
      obtain rfl : r' = r := Option.some.inj (here.symm.trans hr)
      obtain ⟨p, hp⟩ := parent.lt
      have hp' : s.inlinees[r'.parent.toNat]? = some p := hp
      have hparent := ih hp (fun x hx => hcover x (List.mem_cons_of_mem _ hx))
        (fun x hx => hrows x (List.mem_cons_of_mem _ hx))
      have hne : s.locationsOf start stop a outer ≠ [] :=
        locationsOf_ne_nil (List.ne_nil_of_length_pos (Nat.zero_lt_of_lt parent.two_le))
      rw [climb, dif_pos before, hp',
        locate_inlinee hload record (hrows _ (by simp)) low high hcover, locationsOf,
        List.dropLast_cons_of_ne_nil hne]
      exact congrArg (_ :: ·) hparent

/-! ## The innermost call -/

def better (a : UInt32) (i : Nat) (r : InlineeRecord) :
    Option (Nat × InlineeRecord) → Option (Nat × InlineeRecord)
  | none => if r.start ≤ a ∧ a < r.stop then some (i, r) else none
  | some (j, b) =>
    if (r.start ≤ a ∧ a < r.stop) ∧ b.depth < r.depth then some (i, r) else some (j, b)

theorem innermost_cons (a : UInt32) (i : Nat) (best : Option (Nat × InlineeRecord))
    (r : InlineeRecord) (rest : List InlineeRecord) :
    innermost a i best (r :: rest) = innermost a (i + 1) (better a i r best) rest := by
  rw [innermost.eq_def]
  cases best with
  | none => simp [better]
  | some found => simp [better]

/-- The invariant of the search among records: the best one so far is that of the longest chain seen
so far that covers the address. -/
def IsBest (load start stop a : UInt64) (t : Tables) (seen : List (List Scope)) :
    Option (Nat × InlineeRecord) → Prop
  | none => ∀ chain ∈ seen, ¬ AllCover a chain
  | some (i, r) =>
    t.inlinees[i]? = some r ∧ ∃ chain, IsFirstLeast longerFirst (AllCover a) seen chain ∧
      HasChain load start stop t chain i

theorem IsBest.step {t : Tables} {seen : List (List Scope)} {best : Option (Nat × InlineeRecord)}
    {chain : List Scope} {i : Nat} {r : InlineeRecord} (hfits : t.inlinees.length < UInt32.size)
    (ha : Within load a) (low : start ≤ a) (high : a < stop)
    (h : IsBest load start stop a t seen best) (hchain : HasChain load start stop t chain i)
    (hr : t.inlinees[i]? = some r) :
    IsBest load start stop a t (seen ++ [chain])
      (better (distance load a) i r best) := by
  have hcovers := hchain.covers_iff hr ha low high
  have hdepth := hchain.depth_eq hr hfits
  cases best with
  | none =>
      rw [better]
      by_cases hcover : AllCover a chain
      · rw [if_pos (hcovers.2 hcover)]
        exact ⟨hr, chain, .concat_self (fun c hc hcov => absurd hcov (h c hc)) hcover, hchain⟩
      · rw [if_neg (fun hrec => hcover (hcovers.1 hrec))]
        intro c hc
        rcases List.mem_append.1 hc with hc | hc
        · exact h c hc
        · rwa [List.mem_singleton.1 hc]
  | some found =>
      obtain ⟨j, b⟩ := found
      obtain ⟨hb, longest, hlongest, hj⟩ := h
      have hbdepth := hj.depth_eq hb hfits
      have hdeeper : b.depth < r.depth ↔ longest.length < chain.length := by
        rw [UInt32.lt_iff_toNat_lt]
        omega
      rw [better]
      by_cases hcover : AllCover a chain ∧ longest.length < chain.length
      · rw [if_pos ⟨hcovers.2 hcover.1, hdeeper.2 hcover.2⟩]
        refine ⟨hr, chain, .concat_self ?_ hcover.1, hchain⟩
        intro c hc hcov
        have hle := hlongest.isLE_of_mem hc hcov (longerFirst_isLE.2 (Nat.le_refl _))
        exact longerFirst_eq_lt.2 (Nat.lt_of_le_of_lt (longerFirst_isLE.1 hle) hcover.2)
      · rw [if_neg (fun hrec => hcover ⟨hcovers.1 hrec.1, hdeeper.1 hrec.2⟩)]
        refine ⟨hb, longest, hlongest.concat ?_, hj⟩
        intro hcov
        exact longerFirst_isLE.2 (Nat.not_lt.1 fun hlt => hcover ⟨hcov, hlt⟩)

theorem innermost_spec {t : Tables} {seen chains : List (List Scope)}
    {best : Option (Nat × InlineeRecord)} {i : Nat} (hfits : t.inlinees.length < UInt32.size)
    (ha : Within load a) (low : start ≤ a) (high : a < stop)
    (h : IsBest load start stop a t seen best) (hchains : HasChains load start stop t i chains) :
    IsBest load start stop a t (seen ++ chains)
      (innermost (distance load a) i best ((t.inlinees.drop i).take chains.length)) := by
  induction chains generalizing seen best i with
  | nil =>
      rw [List.append_nil, List.length_nil, List.take_zero, innermost]
      exact h
  | cons chain rest ih =>
      obtain ⟨hchain, hrest⟩ := hchains
      obtain ⟨r, hr⟩ := hchain.lt
      obtain ⟨hi, hget⟩ := List.getElem?_eq_some_iff.1 hr
      rw [List.drop_eq_getElem_cons hi, hget, List.length_cons, List.take_succ_cons,
        innermost_cons, List.append_cons]
      exact ih (h.step hfits ha low high hchain hr) hrest

/-- The search among the records of a range finds that of the longest chain of inlined calls that
covers the address. -/
theorem innermost_cases {c : Claim OuterScope} {r : RangeRecord}
    (hfits : s.inlinees.length < UInt32.size) (hrange : RangeOf load s.tables c r)
    (ha : c.Covers a) :
    let calls := Scope.chainsOf [c.value.scope] c.value.scope.inlinees
    let found := innermost (distance load a) r.firstInlinee.toNat none
      (part s.inlinees r.firstInlinee.toNat r.inlineeCount.toNat)
    (found = none ∧ ∀ chain ∈ calls, ¬ AllCover a chain) ∨
      ∃ i n chain, found = some (i, n) ∧ s.inlinees[i]? = some n ∧
        IsFirstLeast longerFirst (AllCover a) calls chain ∧
        HasChain load c.start c.stop s.tables chain i := by
  intro calls found
  obtain ⟨low, high⟩ := ha
  have hwithin := hrange.within_start.between hrange.within_stop low (UInt64.le_of_lt high)
  -- chains that are not in the table share no address with the range
  have hshared : ∀ chain ∈ calls, AllCover a chain →
      Scope.isShared c.start c.stop chain = true := by
    intro chain _ hchain
    have h := (Scope.shared_covers _).2 ⟨⟨low, high⟩, hchain⟩
    exact decide_eq_true (UInt64.lt_of_le_of_lt h.1 h.2)
  have hnothing : IsBest load c.start c.stop a s.tables [] none := by
    simp [IsBest]
  have hbest := innermost_spec hfits hwithin low high hnothing hrange.has
  rw [List.nil_append, ← hrange.count_eq] at hbest
  have hpart : part s.inlinees r.firstInlinee.toNat r.inlineeCount.toNat =
      (s.tables.inlinees.drop r.firstInlinee.toNat).take r.inlineeCount.toNat := if_pos hrange.room
  rw [← hpart] at hbest
  cases hfound : found with
  | none =>
      rw [show innermost _ _ _ _ = none from hfound] at hbest
      refine .inl ⟨rfl, ?_⟩
      intro chain hchain hcov
      exact hbest chain (List.mem_filter.2 ⟨hchain, hshared chain hchain hcov⟩) hcov
  | some best =>
      obtain ⟨i, n⟩ := best
      rw [show innermost _ _ _ _ = some (i, n) from hfound] at hbest
      obtain ⟨hn, chain, hlongest, hchain⟩ := hbest
      exact .inr ⟨i, n, chain, rfl, hn, hlongest.of_filter hshared, hchain⟩

/-- The locations in a range are those of the longest chain that covers the address. -/
theorem locationsIn_of_range {c : Claim OuterScope} {r : RangeRecord} (hload : s.loadAddress = load)
    (hfits : s.inlinees.length < UInt32.size) (hrange : RangeOf load s.tables c r)
    (hstart : c.value.scope.start ≤ c.start) (hstop : c.stop ≤ c.value.scope.stop)
    (hrows : ∀ chain ∈ Scope.chains [] c.value.scope, ∀ scope ∈ chain,
      LineTable.Increasing scope.lines)
    (ha : c.Covers a) :
    ∃ chain, IsFirstLeast longerFirst (AllCover a) (Scope.chains [] c.value.scope) chain ∧
      chain.length ≤ UInt32.size ∧
      s.locationsIn r (distance load a) = s.locationsOf c.start c.stop a chain := by
  have hcover : c.value.scope.Covers a :=
    ⟨UInt64.le_trans hstart ha.1, UInt64.lt_of_lt_of_le ha.2 hstop⟩
  rw [Scope.chains_outermost] at hrows ⊢
  -- the function itself is stored in all of the range
  have hlast : [s.locate (distance load a) r.function 0 r.start r.firstBlock r.blockCount] =
      s.locationsOf c.start c.stop a [c.value.scope] := by
    rw [hrange.function, hrange.start_eq, locationsOf, Scope.shared_outermost hstart hstop,
      locate_eq hload hrange.lines (hrows [c.value.scope] (List.mem_cons_self ..) _
        (List.mem_singleton_self _)) hrange.within_start hrange.within_stop ha.1 ha.2]
    rfl
  rw [locationsIn, hlast]
  rcases innermost_cases hfits hrange ha with
    ⟨hfound, hnone⟩ | ⟨i, n, chain, hfound, hn, hlongest, hchain⟩
  · rw [hfound]
    exact ⟨[c.value.scope], .of_only hnone (by simpa [AllCover] using hcover),
      Nat.le_of_ble_eq_true rfl, rfl⟩
  · rw [hfound]
    obtain ⟨up, rfl⟩ := Scope.suffix_of_mem_chainsOf hlongest.mem
    have hlength := hchain.length_le
    have hlonger := hchain.two_le
    have hi : i < s.inlinees.length := (List.getElem?_eq_some_iff.1 hn).1
    refine ⟨up ++ [c.value.scope], hlongest.cons fun _ => longerFirst_eq_lt.2 hlonger, by omega, ?_⟩
    rw [← locationsOf_concat, ← climb_eq hload hfits ha.1 ha.2 hchain hn hlongest.holds
      (hrows _ (List.mem_cons_of_mem _ hlongest.mem))]

/-! ## Ranges -/

variable {claims : List (Claim OuterScope)}

theorem Tables.RangeOf.placed {t : Tables} {c : Claim OuterScope} {r : RangeRecord}
    (h : RangeOf load t c r) : Placed load c r.start r.stop :=
  ⟨h.within_start, h.within_stop, h.start_eq, h.stop_eq⟩

theorem range?_cases (h : List.Forall₂ (RangeOf load s.tables) claims s.ranges)
    (hclaims : Claim.Disjoint claims) (ha : Within load a) :
    (∃ c ∈ claims, c.Covers a ∧ ∃ r, RangeOf load s.tables c r ∧
      s.range? (distance load a) = some r) ∨
      ((∀ c ∈ claims, ¬ c.Covers a) ∧ s.range? (distance load a) = none) := by
  have hsorted := sorted_records (fun _ _ hr => RangeOf.placed hr) h hclaims
  rcases record_cases (fun _ _ hr => RangeOf.placed hr) h hclaims ha with
    ⟨habove, hnone⟩ | ⟨before, r, after, hsplit, hr, hafter, hcovered, hfree⟩
  · refine .inr ⟨hnone, ?_⟩
    rw [range?, Bisect.floor?_byKey_eq_none habove]
    rfl
  · rw [hsplit] at hsorted
    have hfloor := Bisect.floor?_byKey hsorted hr hafter
    rw [← hsplit] at hfloor
    have hget : s.ranges[before.length]? = some r := by
      rw [hsplit]
      simp
    have hrange : s.range? (distance load a) =
        if distance load a < r.stop then some r else none := by
      rw [range?, hfloor]
      simp only [Option.bind_eq_bind, Option.bind_some, hget]
    rw [hrange]
    by_cases hlt : distance load a < r.stop
    · obtain ⟨c, hc, hrecord, hcov⟩ := hcovered hlt
      rw [if_pos hlt]
      exact .inl ⟨c, hc, hcov, r, hrecord, rfl⟩
    · rw [if_neg hlt]
      exact .inr ⟨hfree hlt, rfl⟩

/-- A lookup finds nothing outside all ranges, and elsewhere the locations of the longest chain that
covers the address. -/
theorem lookup_locates (hload : s.loadAddress = load)
    (hfits : s.inlinees.length < UInt32.size)
    (hranges : List.Forall₂ (RangeOf load s.tables) claims s.ranges)
    (hclaims : Claim.Disjoint claims)
    (hinside : ∀ c ∈ claims, c.value.scope.start ≤ c.start ∧ c.stop ≤ c.value.scope.stop)
    (hrows : ∀ c ∈ claims, ∀ chain ∈ Scope.chains [] c.value.scope, ∀ scope ∈ chain,
      LineTable.Increasing scope.lines) (a : UInt64) :
    ((∀ c ∈ claims, ¬ c.Covers a) ∧ s.lookup a = []) ∨
      ∃ c ∈ claims, c.Covers a ∧ Within load c.start ∧ Within load c.stop ∧ ∃ chain,
        IsFirstLeast longerFirst (AllCover a) (Scope.chains [] c.value.scope) chain ∧
        chain.length ≤ UInt32.size ∧ s.lookup a = s.locationsOf c.start c.stop a chain := by
  cases hrelative : s.relative? a with
  | none =>
      refine .inl ⟨?_, by rw [lookup, hrelative]⟩
      intro c hc hcov
      obtain ⟨r, -, hrange⟩ := exists_right hranges hc
      have hwithin := hrange.placed.within hcov
      rw [relative?, hload, offset32?_of_within hwithin] at hrelative
      cases hrelative
  | some goal =>
      have hgoal := hrelative
      rw [relative?, hload, offset32?_eq_some_iff] at hgoal
      obtain ⟨ha, rfl⟩ := hgoal
      rcases range?_cases hranges hclaims ha with ⟨c, hc, hcov, r, hrange, hr⟩ | ⟨hnone, hr⟩
      · refine .inr ⟨c, hc, hcov, hrange.within_start, hrange.within_stop, ?_⟩
        have hlookup : s.lookup a = s.locationsIn r (distance load a) := by
          rw [lookup, hrelative]
          dsimp only
          rw [hr]
        rw [hlookup]
        exact locationsIn_of_range hload hfits hrange (hinside c hc).1 (hinside c hc).2
          (hrows c hc) hcov
      · refine .inl ⟨hnone, ?_⟩
        rw [lookup, hrelative]
        dsimp only
        rw [hr]

theorem lookup_cases (hload : s.loadAddress = load)
    (hfits : s.inlinees.length < UInt32.size)
    (hranges : List.Forall₂ (RangeOf load s.tables) claims s.ranges)
    (hclaims : Claim.Disjoint claims)
    (hinside : ∀ c ∈ claims, c.value.scope.start ≤ c.start ∧ c.stop ≤ c.value.scope.stop)
    (hrows : ∀ c ∈ claims, ∀ chain ∈ Scope.chains [] c.value.scope, ∀ scope ∈ chain,
      LineTable.Increasing scope.lines) (a : UInt64) :
    ((∀ c ∈ claims, ¬ c.Covers a) ∧ s.lookup a = []) ∨
      ∃ c ∈ claims, c.Covers a ∧ Within load c.start ∧ Within load c.stop ∧ ∃ chain,
        IsFirstLeast longerFirst (AllCover a) (Scope.chains [] c.value.scope) chain ∧
        List.Forall₂ (Reads s a) chain (s.lookup a) ∧
        (s.lookup a).map (·.depth.toNat) = (List.range chain.length).reverse := by
  rcases lookup_locates hload hfits hranges hclaims hinside hrows a with
    hnone | ⟨c, hc, hcov, hstart, hstop, chain, hlongest, hlength, hlookup⟩
  · exact .inl hnone
  · rw [hlookup]
    exact .inr ⟨c, hc, hcov, hstart, hstop, chain, hlongest,
      locationsOf_reads hcov.1 hcov.2 hlongest.holds (hrows c hc chain hlongest.mem),
      depths_locationsOf hlength⟩

end Postmortem.SymCache
