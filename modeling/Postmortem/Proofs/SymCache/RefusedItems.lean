import Postmortem.Proofs.RelatedClaims
import Postmortem.Proofs.SymCache.AddressReach
import Postmortem.Proofs.SymCache.Lookups
import Postmortem.Proofs.SymCache.ParallelRuns

/-!
# Items that are refused

A function that is refused in the middle leaves strings, files and functions behind, so all numbers
that are handed out later are others than without it.  The cache that is written in the end still
answers each lookup as if it had never been added.
-/

set_option autoImplicit false

namespace Postmortem.SymCache

open LineTable (rowAt? reading)
open Pools (Crowded SameString SameFile SameFunction)

/-! ## Numbers of files -/

namespace Pools

variable {p q : Pools} {i j k : UInt32}

theorem SameString.symm (h : SameString p q i j) : SameString q p j i := by
  obtain ⟨s, hi, hj⟩ := h
  exact ⟨s, hj, hi⟩

theorem SameFile.symm (h : SameFile p q i j) : SameFile q p j i := by
  obtain ⟨f, g, hf, hg, hcompDir, hdirectory, hname⟩ := h
  exact ⟨g, f, hg, hf, hcompDir.symm, hdirectory.symm, hname.symm⟩

theorem SameString.left_unique (hq : q.strings.Sound)
    (hfits : q.strings.toBytes.length < UInt32.size) (hi : SameString p q i k)
    (hj : SameString p q j k) : i = j := by
  obtain ⟨s, hi, hs⟩ := hi
  obtain ⟨r, hj, hr⟩ := hj
  obtain rfl := StringTable.eq_of_offset? hq hfits hs hr
  exact Option.some.inj (hi.symm.trans hj)

theorem SameFile.left_unique (hp : p.files.Nodup) (hq : q.strings.Sound)
    (hfits : q.strings.toBytes.length < UInt32.size) (hi : SameFile p q i k)
    (hj : SameFile p q j k) : i = j := by
  obtain ⟨f, g, hf, hg, hcompDir, hdirectory, hname⟩ := hi
  obtain ⟨f', g', hf', hg', hcompDir', hdirectory', hname'⟩ := hj
  obtain rfl : g = g' := Option.some.inj (hg.symm.trans hg')
  have heq : f = f' := by
    have h₁ := hcompDir.left_unique hq hfits hcompDir'
    have h₂ := hdirectory.left_unique hq hfits hdirectory'
    have h₃ := hname.left_unique hq hfits hname'
    cases f
    cases f'
    cases h₁
    cases h₂
    cases h₃
    rfl
  obtain ⟨hlt, hget⟩ := List.getElem?_eq_some_iff.1 hf
  obtain ⟨hlt', hget'⟩ := List.getElem?_eq_some_iff.1 hf'
  exact UInt32.toNat_inj.1 ((hp.getElem_inj_iff).1 (hget.trans (heq.trans hget'.symm)))

def SameFileOrNone (p q : Pools) (i j : UInt32) : Prop :=
  (i = absent ∧ j = absent) ∨ SameFile p q i j

theorem SameFileOrNone.left_unique (hp : p.files.Nodup) (hq : q.strings.Sound)
    (hfiles : q.files.length < UInt32.size) (hfits : q.strings.toBytes.length < UInt32.size)
    (hi : SameFileOrNone p q i k) (hj : SameFileOrNone p q j k) : i = j := by
  have hne {i k : UInt32} (h : SameFile p q i k) : k ≠ absent := by
    rintro rfl
    obtain ⟨-, g, -, hg, -⟩ := h
    have hlt := (List.getElem?_eq_some_iff.1 hg).1
    exact absurd hfiles (Nat.not_lt.2 hlt)
  rcases hi with ⟨rfl, hk⟩ | hi
  · rcases hj with ⟨rfl, -⟩ | hj
    · rfl
    · exact absurd hk (hne hj)
  · rcases hj with ⟨-, hk⟩ | hj
    · exact absurd hk (hne hi)
    · exact hi.left_unique hp hq hfits hj

theorem SameFileOrNone.symm (h : SameFileOrNone p q i j) : SameFileOrNone q p j i :=
  h.imp And.symm SameFile.symm

end Pools

open Pools (SameFileOrNone)

/-! ## Answers -/

variable {s s' : SymCache} {b c : Builder} {start stop a : UInt64}

theorem biUnique_sameFile (hs : StoredBy s b) (hs' : StoredBy s' c)
    (h : b.pools.Covers c.pools) : Relator.BiUnique (SameFileOrNone b.pools c.pools) := by
  have hfiles := hs.files_fit
  have hfiles' := hs'.files_fit
  have hstrings := hs.strings_fit
  have hstrings' := hs'.strings_fit
  rw [hs.files] at hfiles
  rw [hs'.files] at hfiles'
  rw [hs.strings] at hstrings
  rw [hs'.strings] at hstrings'
  refine ⟨fun i j k hi hj => ?_, fun k i j hi hj => ?_⟩
  · exact hi.left_unique h.left.files h.right.strings.sound hfiles' hstrings' hj
  · exact hi.symm.left_unique h.right.files h.left.strings.sound hfiles hstrings hj.symm

theorem string?_eq_of_same (hs : StoredBy s b) (hs' : StoredBy s' c)
    (h : b.pools.Covers c.pools) {i j : UInt32} (hij : SameString b.pools c.pools i j) :
    s.string? i = s'.string? j := by
  obtain ⟨t, hi, hj⟩ := hij
  rw [string?_of_holds hs (StringTable.holds_of_offset? h.left.strings.sound hi),
    string?_of_holds hs' (StringTable.holds_of_offset? h.right.strings.sound hj)]

theorem file?_eq_of_same (hs : StoredBy s b) (hs' : StoredBy s' c)
    (h : b.pools.Covers c.pools) {i j : UInt32} (hij : SameFileOrNone b.pools c.pools i j) :
    s.file? i = s'.file? j := by
  rcases hij with ⟨rfl, rfl⟩ | ⟨f, g, hf, hg, hcompDir, hdirectory, hname⟩
  · rw [file?_absent hs, file?_absent hs']
  · rw [file?, file?, hs.files, hs'.files, hf, hg, Option.map_some, Option.map_some,
      string?_eq_of_same hs hs' h hcompDir, string?_eq_of_same hs hs' h hdirectory,
      string?_eq_of_same hs hs' h hname]

theorem function?_eq_of_same (hs : StoredBy s b) (hs' : StoredBy s' c) (h : b.Parallels c)
    {i j : UInt32} (hij : SameFunction b.pools c.pools i j) : s.function? i = s'.function? j := by
  obtain ⟨f, g, hf, hg, hname, hentry, hlanguage⟩ := hij
  rw [function?, function?, hs.functions, hs'.functions, List.getElem?_map, List.getElem?_map, hf,
    hg]
  simp only [Option.map_some, functionOf, Builder.functionRecord,
    string?_eq_of_same hs hs' h.covers hname, hentry, hlanguage, h.loadAddress]

/-- An address is located in the same way in scopes that are the same. -/
theorem locationIn_eq_of_same (hs : StoredBy s b) (hs' : StoredBy s' c) (h : b.Parallels c)
    {x y : Scope} (hxy : SameNode b.pools c.pools x y) (depth : UInt32) :
    s.locationIn start stop a depth x = s'.locationIn start stop a depth y := by
  obtain ⟨rows, rows', hrows, hx, hy⟩ := hxy.lines
  have hsized : List.Forall₂ (SameSized (SameFileOrNone b.pools c.pools)) rows rows' :=
    hrows.imp fun _ _ hr => hr.imp fun _ _ => .inr
  have hlines : List.Forall₂ (SameRow (SameFileOrNone b.pools c.pools))
      (LineTable.settle x.start x.stop rows) (LineTable.settle x.start x.stop rows') :=
    LineTable.forall₂_settle (biUnique_sameFile hs hs' h.covers) (.inl ⟨rfl, rfl⟩) hsized
  rw [← hx, ← hy] at hlines
  have hrow := LineTable.rel_rowAt? (LineTable.forall₂_clip hlines start stop) a
  have habsolute (entry : UInt32) : s.absolute entry = s'.absolute entry := by
    rw [absolute, absolute, hs.loadAddress, hs'.loadAddress, h.loadAddress]
  have habsent : s.file? absent = s'.file? absent := by
    rw [file?_absent hs, file?_absent hs']
  rw [locationIn, locationIn, function?_eq_of_same hs hs' h hxy.function]
  generalize rowAt? a (LineTable.clip start stop x.lines) = r,
    rowAt? a (LineTable.clip start stop y.lines) = r' at hrow
  cases hrow with
  | none => simp only [reading, habsent, habsolute, Option.map_none]
  | some hrr =>
      simp only [reading, file?_eq_of_same hs hs' h.covers hrr.file, hrr.line, hrr.address,
        habsolute, Option.map_some]

theorem shared_eq_of_same {p q : Pools} {xs ys : List Scope}
    (h : List.Forall₂ (SameNode p q) xs ys) :
    Scope.shared start stop xs = Scope.shared start stop ys := by
  induction h with
  | nil => rfl
  | cons hxy _ ih => rw [Scope.shared, Scope.shared, ih, hxy.start, hxy.stop]

theorem locationsOf_eq_of_same (hs : StoredBy s b) (hs' : StoredBy s' c) (h : b.Parallels c)
    {xs ys : List Scope} (hxs : List.Forall₂ (SameNode b.pools c.pools) xs ys) :
    s.locationsOf start stop a xs = s'.locationsOf start stop a ys := by
  induction hxs with
  | nil => rfl
  | cons hxy hrest ih =>
      rw [locationsOf, locationsOf, ih, shared_eq_of_same (.cons hxy hrest), hrest.length_eq,
        locationIn_eq_of_same hs hs' h hxy]

theorem allCover_iff_of_same {p q : Pools} {xs ys : List Scope}
    (h : List.Forall₂ (SameNode p q) xs ys) : AllCover a xs ↔ AllCover a ys := by
  induction h with
  | nil => exact Iff.rfl
  | cons hxy _ ih =>
      rw [AllCover, AllCover, List.forall_mem_cons, List.forall_mem_cons, Scope.Covers,
        Scope.Covers, hxy.start, hxy.stop]
      exact and_congr_right fun _ => ih

/-- Both builders divide the same code into the same ranges. -/
theorem Builder.Parallels.ranges (h : b.Parallels c) :
    List.Forall₂ (SameClaim (SameOuter b.pools c.pools)) b.ranges c.ranges := by
  rw [ranges_eq, ranges_eq]
  apply RangeClaims.forall₂_resolve
  · rw [claims, claims, List.forall₂_map_left_iff, List.forall₂_map_right_iff]
    refine (forall₂_filter h.outer ?_).imp ?_
    · intro o o' ho
      rw [hasClaim, hasClaim, h.loadAddress, ho.tree.node.start, ho.tree.node.stop]
    · exact fun o o' ho => ⟨ho.tree.node.start, ho.tree.node.stop, ho⟩
  · intro x x' y y' hxy hxy'
    rw [priority, priority, Claim.length, Claim.length, Claim.length, Claim.length, hxy.start,
      hxy.stop, hxy'.start, hxy'.stop, hxy.value.fromSymbol, hxy'.value.fromSymbol,
      hxy.value.name, hxy'.value.name]

/-- Where a lookup in a written cache finds its answer. -/
theorem lookup_in_range (hs : StoredBy s b) (hb : b.Whole) (a : UInt64) :
    ((∀ x ∈ b.ranges, ¬ x.Covers a) ∧ s.lookup a = []) ∨
      ∃ x ∈ b.ranges, x.Covers a ∧ ∃ chain,
        IsFirstLeast longerFirst (AllCover a) (Scope.chains [] x.value.scope) chain ∧
        s.lookup a = s.locationsOf x.start x.stop a chain := by
  have hinside : ∀ x ∈ b.ranges, x.value.scope.start ≤ x.start ∧ x.stop ≤ x.value.scope.stop :=
    fun x hx => ⟨(Builder.owner_of_range hx).1, (Builder.owner_of_range hx).2.1⟩
  have hrows : ∀ x ∈ b.ranges, ∀ chain ∈ Scope.chains [] x.value.scope, ∀ scope ∈ chain,
      LineTable.Increasing scope.lines := by
    intro x hx chain hchain scope hscope
    have hwhole := hb.scopes _ (Builder.mem_outer_of_range hx)
    exact ((hwhole.of_mem_chains hchain hscope).resolve_left (by simp)).lines
  rcases lookup_locates hs.loadAddress hs.inlinees_fit (Tables.ofRanges_spec hinside hs.tables)
    b.divides_ranges.disjoint hinside hrows a with
    hnone | ⟨x, hx, hcov, -, -, chain, hlongest, -, hlookup⟩
  · exact .inl hnone
  · exact .inr ⟨x, hx, hcov, chain, hlongest, hlookup⟩

instance {α : Type} : Std.OrientedCmp (longerFirst : List α → List α → Ordering) where
  eq_swap {xs ys} := Std.OrientedOrd.eq_swap (a := ys.length) (b := xs.length)

/-- Caches of builders that hold the same answer each lookup in the same way. -/
theorem lookup_eq_of_parallels (hs : StoredBy s b) (hs' : StoredBy s' c) (hb : b.Whole)
    (hc : c.Whole) (h : b.Parallels c) (a : UInt64) : s.lookup a = s'.lookup a := by
  rcases lookup_in_range hs hb a with ⟨hnone, hlookup⟩ | ⟨x, hx, hxa, chain, hlongest, hlookup⟩
  · rcases lookup_in_range hs' hc a with ⟨-, hlookup'⟩ | ⟨y, hy, hya, -⟩
    · rw [hlookup, hlookup']
    · obtain ⟨x, hx, hxy⟩ := exists_left h.ranges hy
      exact absurd (hxy.covers_iff.2 hya) (hnone x hx)
  · obtain ⟨y, hy, hxy⟩ := exists_right h.ranges hx
    have hya := hxy.covers_iff.1 hxa
    rcases lookup_in_range hs' hc a with ⟨hnone, -⟩ | ⟨z, hz, hza, chain', hlongest', hlookup'⟩
    · exact absurd hya (hnone y hy)
    · obtain rfl := c.divides_ranges.disjoint.eq_of_covers hy hz hya hza
      -- the longest chains of both trees are the same
      have hlength : ∀ xs ys xs' ys', List.Forall₂ (SameNode b.pools c.pools) xs ys →
          List.Forall₂ (SameNode b.pools c.pools) xs' ys' →
          longerFirst xs xs' = longerFirst ys ys' := by
        intro xs ys xs' ys' hxs hxs'
        rw [longerFirst, longerFirst, hxs.length_eq, hxs'.length_eq]
      obtain ⟨other, hsame, hother⟩ := hlongest.replace (hxy.value.tree.chains .nil) hlength
        fun _ _ => allCover_iff_of_same
      obtain rfl := hother.eq_of_both hlongest' hother.holds hlongest'.holds
      rw [hlookup, hlookup', hxy.start, hxy.stop]
      exact locationsOf_eq_of_same hs hs' h hsame

/-! ## Runs with and without refused items -/

namespace Builder

/-- A function with a line that does not fit 32 bits, in itself or in a call inlined into it, is
refused. -/
theorem lines_fit_of_add {b' : Builder} {i : Item} (hb : b.pools.strings.Sound)
    (hadd : b.add i = (.ok (), b')) (hcode : i.HasCode) {chain : List Debug.Function}
    {f : Debug.Function} {l : Debug.LineInfo} (hchain : chain ∈ i.tree.arranged.chains [])
    (hf : f ∈ chain) (hl : l ∈ f.lines) : l.line.toNat < UInt32.size := by
  have hadds := add_spec hb hadd
  rw [filter_hasCode i hcode] at hadds
  obtain ⟨new, -, hnew⟩ := hadds.outer
  obtain ⟨o, -, ho⟩ := exists_left hnew (List.mem_singleton_self i)
  obtain ⟨scopes, -, hscopes⟩ := exists_left (ho.mirrors.chains .nil) hchain
  obtain ⟨scope, -, hnode⟩ := exists_left hscopes hf
  obtain ⟨rows, hrows, -⟩ := hnode.lines
  obtain ⟨r, -, hrow⟩ := exists_right hrows hl
  rw [← hrow.line]
  exact r.row.line.toNat_lt

theorem exists_add_of_mem_taken {items : List Item} {i : Item} (hb : b.pools.Distinct)
    (hi : i ∈ b.taken items) :
    ∃ b₁ b₂ : Builder, b₁.pools.Distinct ∧ b₁.add i = (.ok (), b₂) := by
  induction items generalizing b with
  | nil => cases hi
  | cons j rest ih =>
      have hrest := hb.steps (b.steps_add j)
      rw [taken] at hi
      split at hi
      · rename_i b' hadd
        rw [hadd] at hrest
        rcases List.mem_cons.1 hi with rfl | hi
        · exact ⟨b, b', hb, hadd⟩
        · exact ih hrest hi
      · rename_i e b' hadd
        rw [hadd] at hrest
        exact ih hrest hi

theorem not_crowded (hb : b.pools.Distinct)
    (hstrings : b.pools.strings.toBytes.length < UInt32.size)
    (hfiles : c.pools.files.length < UInt32.size)
    (hfunctions : c.pools.functions.length < UInt32.size) : ¬ Crowded b.pools c.pools := by
  rintro (h | h | h)
  · rw [hb.strings.sound.size_eq] at h
    exact Nat.not_lt.2 h hstrings
  · exact Nat.not_lt.2 h hfiles
  · exact Nat.not_lt.2 h hfunctions

theorem functions_fit_of_toBytes {bytes : Bytes} (h : b.toBytes = .ok bytes) :
    b.pools.functions.length < UInt32.size := by
  rw [toBytes] at h
  obtain ⟨_, -, h⟩ := bind_eq_ok.1 h
  obtain ⟨_, -, h⟩ := bind_eq_ok.1 h
  obtain ⟨_, hfunctions, -⟩ := bind_eq_ok.1 h
  simpa using lt_of_count hfunctions

/-- The ranges of one builder reach no further than those of the other one. -/
theorem Parallels.out_of_reach_iff (h : b.Parallels c) :
    (∃ x ∈ b.ranges, ¬ InReach b.loadAddress x) ↔ ∃ y ∈ c.ranges, ¬ InReach c.loadAddress y := by
  have hreach {x y : Claim OuterScope} (hxy : SameClaim (SameOuter b.pools c.pools) x y) :
      InReach b.loadAddress x ↔ InReach c.loadAddress y := by
    rw [InReach, InReach, hxy.start, hxy.stop, h.loadAddress]
  constructor
  · rintro ⟨x, hx, hout⟩
    obtain ⟨y, hy, hxy⟩ := exists_right h.ranges hx
    exact ⟨y, hy, fun hin => hout ((hreach hxy).2 hin)⟩
  · rintro ⟨y, hy, hout⟩
    obtain ⟨x, hx, hxy⟩ := exists_left h.ranges hy
    exact ⟨x, hx, fun hin => hout ((hreach hxy).1 hin)⟩

/-- A function that is refused, such as one with a line that does not fit 32 bits anywhere in its
tree, leaves no trace in the answers of a cache: each lookup finds the same as in the cache of a
builder that was given the others only.  That builder refuses none of them.  As long as the records
of both fit their sections, both are written or both have code that ends out of reach.  Either cache
can be the larger one, since a file can have a smaller number if a refused function had it too. -/
theorem refused_items_leave_no_trace (arch : Arch) (debugId : DebugId) (loadAddress : UInt64)
    (items : List Item) :
    let start : Builder := { arch, debugId, loadAddress }
    let full := start.addEach items
    let clean := start.addEach (start.taken items)
    (∀ i ∈ start.taken items, i.HasCode → ∀ chain ∈ i.tree.arranged.chains [], ∀ f ∈ chain,
      ∀ l ∈ f.lines, l.line.toNat < UInt32.size) ∧
    (∀ bytes bytes', full.toBytes = .ok bytes → clean.toBytes = .ok bytes' →
      addAll add start (start.taken items) = (.ok (), clean) ∧
      ∃ s s', parse bytes = .ok s ∧ parse bytes' = .ok s' ∧ ∀ a, s.lookup a = s'.lookup a) ∧
    (full.Fits → clean.Fits →
      (full.toBytes = .error (.tooLarge .address) ∧
        clean.toBytes = .error (.tooLarge .address)) ∨
      ∃ bytes bytes', full.toBytes = .ok bytes ∧ clean.toBytes = .ok bytes') := by
  intro start full clean
  have hstart : start.Whole := ⟨Pools.whole_empty, by simp [start]⟩
  have hdistinct : start.pools.Distinct := Pools.distinct_empty
  have hsame : start.Parallels start := ⟨⟨hdistinct, hdistinct, fun _ => id⟩, rfl, .nil⟩
  have hfull : full.Whole := hstart.addEach items
  have hclean : clean.Whole := hstart.addEach (start.taken items)
  have hfullDistinct : full.pools.Distinct := hdistinct.steps (start.steps_addEach items)
  refine ⟨?_, ?_, ?_⟩
  · intro i hi hcode chain hchain f hf l hl
    obtain ⟨b, b', hb, hadd⟩ := exists_add_of_mem_taken hdistinct hi
    exact lines_fit_of_add hb.strings.sound hadd hcode hchain hf hl
  · intro bytes bytes' hbytes hbytes'
    obtain ⟨s, hparse, hs⟩ := parse_toBytes hbytes
    obtain ⟨s', hparse', hs'⟩ := parse_toBytes hbytes'
    rcases hsame.addEach items with ⟨hadds, hparallels⟩ | hcrowded
    · exact ⟨hadds, s, s', hparse, hparse',
        lookup_eq_of_parallels hs hs' hfull hclean hparallels⟩
    · refine absurd hcrowded (not_crowded hfullDistinct ?_ ?_ (functions_fit_of_toBytes hbytes'))
      · exact hs.strings ▸ hs.strings_fit
      · exact hs'.files ▸ hs'.files_fit
  · intro hfits hfits'
    rcases hsame.addEach items with ⟨-, hparallels⟩ | hcrowded
    · rcases toBytes_cases hfull hfits with ⟨hout, herror⟩ | ⟨hreach, bytes, s, hbytes, -⟩
      · rcases toBytes_cases hclean hfits' with ⟨-, herror'⟩ | ⟨hreach', -⟩
        · exact .inl ⟨herror, herror'⟩
        · obtain ⟨y, hy, hyout⟩ := hparallels.out_of_reach_iff.1 hout
          exact absurd (hreach' y hy) hyout
      · rcases toBytes_cases hclean hfits' with ⟨hout', -⟩ | ⟨-, bytes', s', hbytes', -⟩
        · obtain ⟨x, hx, hxout⟩ := hparallels.out_of_reach_iff.2 hout'
          exact absurd (hreach x hx) hxout
        · exact .inr ⟨bytes, bytes', hbytes, hbytes'⟩
    · exact absurd hcrowded
        (not_crowded hfullDistinct hfits.strings hfits'.files hfits'.functions)

/-- A function, one that is refused for a line of the call inlined into it, and one that shares a
file with that call. -/
def refusedItems : List Item :=
  [.function
      { address := 0x1000, size := 0x100, name := { text := "main" }
        lines := [{ address := 0x1000, line := 7, file := { name := [0x61] } }] },
    .function
      { address := 0x1080, size := 0x40, name := { text := "broken" }
        inlinees :=
          [{ address := 0x1090, size := 8, name := { text := "helper" }
             lines :=
              [{ address := 0x1090, line := 1, file := { name := [0x62] } },
                { address := 0x1094, line := 0x100000000, file := { name := [0x63] } }] }] },
    .function
      { address := 0x1200, size := 0x10, name := { text := "exit" }
        lines := [{ address := 0x1200, line := 9, file := { name := [0x63] } }] }]

set_option maxRecDepth 20000 in
theorem refused_items_leave_no_trace_sample :
    let start : Builder := { loadAddress := 0x1000 }
    start.taken refusedItems = [refusedItems[0], refusedItems[2]] ∧
    ∃ bytes bytes', (start.addEach refusedItems).toBytes = .ok bytes ∧
      (start.addEach (start.taken refusedItems)).toBytes = .ok bytes' ∧ bytes ≠ bytes' ∧
      ∃ s s', parse bytes = .ok s ∧ parse bytes' = .ok s' ∧ ∀ a, s.lookup a = s'.lookup a := by
  intro start
  obtain ⟨bytes, hbytes⟩ : ∃ bytes, (start.addEach refusedItems).toBytes = .ok bytes :=
    exists_ok_of_isSome (by cbv)
  obtain ⟨bytes', hbytes'⟩ :
      ∃ bytes, (start.addEach (start.taken refusedItems)).toBytes = .ok bytes :=
    exists_ok_of_isSome (by cbv)
  have hsame := (refused_items_leave_no_trace .unknown .nil 0x1000 refusedItems).2.1
    bytes bytes' hbytes hbytes'
  refine ⟨by cbv, bytes, bytes', hbytes, hbytes', ?_, hsame.2⟩
  rintro rfl
  have hlengths : (start.addEach refusedItems).toBytes.toOption.map List.length ≠
      (start.addEach (start.taken refusedItems)).toBytes.toOption.map List.length := by
    cbv
    decide
  exact hlengths (by rw [hbytes, hbytes'])

end Builder

end Postmortem.SymCache
