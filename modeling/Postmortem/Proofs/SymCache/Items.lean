import Postmortem.Proofs.RangeOwners
import Postmortem.Proofs.SymCache.Pooling

/-!
# What a symbol cache is made from

A symbol cache is made from functions and symbols, in the order in which they are added.  The ranges
of a builder divide the addresses that they cover, and each address belongs to the least of them
there.
-/

set_option autoImplicit false

namespace Postmortem.SymCache

open Postmortem.Debug (Symbol)

inductive Item where
  | function (f : Debug.Function)
  | symbol (s : Symbol)

namespace Item

def tree : Item → Debug.Function
  | function f => f
  | symbol s =>
    { address := s.address, size := s.size, name := { text := s.name.getD "" } }

def fromSymbol : Item → Bool
  | function _ => false
  | symbol _ => true

/-- Whether an item has code and, if it is a symbol, a name. -/
def HasCode : Item → Prop
  | function f => f.size ≠ 0
  | symbol s => s.name ≠ none ∧ s.size ≠ 0

instance (i : Item) : Decidable i.HasCode :=
  match i with
  | function f => inferInstanceAs (Decidable (f.size ≠ 0))
  | symbol s => inferInstanceAs (Decidable (s.name ≠ none ∧ s.size ≠ 0))

/-- Whether an item is kept: it has code, which does not start below the load address. -/
def Accepted (load : UInt64) (i : Item) : Prop := i.HasCode ∧ load ≤ i.tree.address

def Covers (load a : UInt64) (i : Item) : Prop := i.Accepted load ∧ i.tree.Covers a

/-- Which of two items wins where both cover an address: a function before a symbol, then the
smaller one, the one that starts first, and the one whose name comes first. -/
def precedence (i j : Item) : Ordering :=
  (compare i.fromSymbol j.fromSymbol).then <|
    (compare (i.tree.stop - i.tree.address) (j.tree.stop - j.tree.address)).then <|
      (compare i.tree.address j.tree.address).then (compare i.tree.name.text j.tree.name.text)

end Item

def Builder.add (b : Builder) : Item → Except Fault Unit × Builder
  | .function f => b.addFunction f
  | .symbol s => b.addSymbol s

/-- Whether an outer scope is that of an item.  All files in it are in the compilation directory of
the item, whatever those of the calls inlined into it are. -/
structure OuterOf (p : Pools) (o : OuterScope) (i : Item) : Prop where
  mirrors : Mirrors p (Utf8.lossy i.tree.compDir) o.scope i.tree.arranged
  name : o.name = i.tree.name.text
  fromSymbol : o.fromSymbol = i.fromSymbol

theorem OuterOf.mono {p p' : Pools} {o : OuterScope} {i : Item} (h : OuterOf p o i)
    (hp : p.Grows p') : OuterOf p' o i :=
  { h with mirrors := h.mirrors.mono hp }

theorem filter_hasCode (i : Item) (h : i.HasCode) : [i].filter (fun i => i.HasCode) = [i] := by
  simp [h]

theorem filter_not_hasCode (i : Item) (h : ¬ i.HasCode) :
    [i].filter (fun i => i.HasCode) = [] := by
  simp [h]

namespace Builder

/-- Whether one builder goes on from another with the scopes of some items. -/
structure Adds (b b' : Builder) (items : List Item) : Prop where
  loadAddress : b'.loadAddress = b.loadAddress
  grown : b.pools.Grows b'.pools
  outer : ∃ new, b'.outer = b.outer ++ new ∧ List.Forall₂ (OuterOf b'.pools) new items

theorem Adds.refl (b : Builder) : Adds b b [] :=
  ⟨rfl, .refl _, [], (List.append_nil _).symm, .nil⟩

theorem Adds.append {b b' b'' : Builder} {before after : List Item} (h : Adds b b' before)
    (h' : Adds b' b'' after) : Adds b b'' (before ++ after) := by
  obtain ⟨new, houter, hnew⟩ := h.outer
  obtain ⟨new', houter', hnew'⟩ := h'.outer
  refine ⟨h'.loadAddress.trans h.loadAddress, h.grown.trans h'.grown, new ++ new', ?_, ?_⟩
  · rw [houter', houter, List.append_assoc]
  · exact List.rel_append (hnew.imp fun _ _ ho => ho.mono h'.grown) hnew'

theorem collect_spec {b b' : Builder} {step : Collect OuterScope} {i : Item}
    (hstep : ∀ o p', Collect.Yields step b.pools o p' → b.pools.Grows p' ∧ OuterOf p' o i)
    (h : b.collect step = (.ok (), b')) : Adds b b' [i] := by
  rw [collect] at h
  split at h
  · rename_i o p' hrun
    obtain ⟨hgrown, ho⟩ := hstep o p' hrun
    rw [← (Prod.mk.inj h).2]
    exact ⟨rfl, hgrown, [o], rfl, .cons ho .nil⟩
  · cases h

theorem addFunction_spec {b b' : Builder} {f : Debug.Function} (hb : b.pools.strings.Sound)
    (h : b.addFunction f = (.ok (), b')) :
    Adds b b' ([.function f].filter fun i => i.HasCode) := by
  rw [addFunction] at h
  by_cases hsize : f.size = 0
  · rw [if_pos hsize] at h
    rw [← (Prod.mk.inj h).2, filter_not_hasCode (.function f) fun hcode => hcode hsize]
    exact .refl b
  · rw [if_neg hsize] at h
    rw [filter_hasCode (.function f) hsize]
    refine collect_spec ?_ h
    intro o p' hstep
    obtain ⟨scope, p₁, hscope, hrest⟩ := Collect.yields_bind hstep
    obtain ⟨rfl, rfl⟩ := Collect.yields_pure hrest
    obtain ⟨hgrown, hmirrors⟩ := Collect.scope_spec hb hscope
    exact ⟨hgrown, hmirrors, rfl, rfl⟩

theorem addSymbol_spec {b b' : Builder} {s : Symbol} (hb : b.pools.strings.Sound)
    (h : b.addSymbol s = (.ok (), b')) :
    Adds b b' ([.symbol s].filter fun i => i.HasCode) := by
  rw [addSymbol] at h
  cases hname : s.name with
  | none =>
      rw [hname] at h
      rw [← (Prod.mk.inj h).2, filter_not_hasCode (.symbol s) fun hcode => hcode.1 hname]
      exact .refl b
  | some name =>
      rw [hname] at h
      dsimp only at h
      by_cases hsize : s.size = 0
      · rw [if_pos hsize] at h
        rw [← (Prod.mk.inj h).2, filter_not_hasCode (.symbol s) fun hcode => hcode.2 hsize]
        exact .refl b
      · rw [if_neg hsize] at h
        rw [filter_hasCode (.symbol s) ⟨by simp [hname], hsize⟩]
        refine collect_spec ?_ h
        intro o p' hstep
        obtain ⟨i, p₁, hfunction, hrest⟩ := Collect.yields_bind hstep
        obtain ⟨rfl, rfl⟩ := Collect.yields_pure hrest
        obtain ⟨hgrown, hi⟩ := Collect.function_spec hb hfunction
        have hname' : (Item.symbol s).tree.name = ⟨name, .unknown⟩ := by
          simp [Item.tree, hname]
        have hnode : NodeOf p₁ (Utf8.lossy (Item.symbol s).tree.compDir)
            ⟨s.address, addSaturating s.address s.size, i, [], []⟩
            (Item.symbol s).tree.arranged := by
          refine ⟨rfl, rfl, ?_, [], .nil, by simp [LineTable.settle, LineTable.firstPerAddress,
            LineTable.settleFrom]⟩
          rw [Debug.Function.arranged_name, hname', Debug.Function.arranged_address]
          exact hi
        refine ⟨hgrown, ⟨hnode, ?_⟩, by rw [hname'], rfl⟩
        rw [Debug.Function.arrangedIn, List.mergeSort_nil]
        trivial

theorem add_spec {b b' : Builder} {i : Item} (hb : b.pools.strings.Sound)
    (h : b.add i = (.ok (), b')) : Adds b b' ([i].filter fun i => i.HasCode) := by
  cases i with
  | function f => exact addFunction_spec hb h
  | symbol s => exact addSymbol_spec hb h

/-- An addition that is refused changes the pools only. -/
theorem add_refused {b b' : Builder} {i : Item} {e : Fault} (h : b.add i = (.error e, b')) :
    ∃ pools, b' = { b with pools } := by
  have hcollect {step : Collect OuterScope} (h : b.collect step = (.error e, b')) :
      ∃ pools, b' = { b with pools } := by
    rw [collect] at h
    split at h
    · cases h
    · exact ⟨_, (Prod.mk.inj h).2.symm⟩
  cases i with
  | function f =>
      rw [add, addFunction] at h
      split at h
      · cases h
      · exact hcollect h
  | symbol s =>
      rw [add, addSymbol] at h
      split at h
      · cases h
      · split at h
        · cases h
        · exact hcollect h

/-- Adding items one after the other adds the scopes of those that have code. -/
theorem addAll_spec {b b' : Builder} {items : List Item} (hb : b.pools.strings.Sound)
    (h : addAll add b items = (.ok (), b')) : Adds b b' (items.filter fun i => i.HasCode) := by
  induction items generalizing b with
  | nil =>
      rw [addAll] at h
      rw [← (Prod.mk.inj h).2]
      exact .refl b
  | cons i rest ih =>
      rw [addAll] at h
      split at h
      · rename_i b₁ hadd
        have hfirst := add_spec hb hadd
        rw [← List.singleton_append, List.filter_append]
        exact hfirst.append (ih (hfirst.grown.sound hb) h)
      · cases h

/-! ## Owners -/

def claimOf (o : OuterScope) : Claim OuterScope := ⟨o.scope.start, o.scope.stop, o⟩

def hasClaim (load : UInt64) (o : OuterScope) : Bool :=
  load ≤ o.scope.start && o.scope.start < o.scope.stop

def claims (b : Builder) : RangeClaims OuterScope :=
  ⟨(b.outer.filter (hasClaim b.loadAddress)).map claimOf⟩

theorem ranges_eq (b : Builder) : b.ranges = b.claims.resolve priority := by
  have hkept : b.outer.filter (hasClaim b.loadAddress) =
      (b.outer.filter fun o => b.loadAddress ≤ o.scope.start).filter
        fun o => (claimOf o).start < (claimOf o).stop := by
    rw [List.filter_filter]
    congr 1
    funext o
    exact Bool.and_comm ..
  have hpush := RangeClaims.foldl_push
    ((b.outer.filter fun o => b.loadAddress ≤ o.scope.start).map claimOf) .empty
  rw [List.foldl_map, List.foldl_filter, List.filter_map] at hpush
  simp only [decide_eq_true_eq, ← UInt64.not_lt, ite_not] at hpush
  rw [ranges, claims, hkept]
  simp only [← UInt64.not_lt]
  exact congrArg (RangeClaims.resolve · priority) hpush

/-- The ranges divide the claims of all code among them. -/
theorem divides_ranges (b : Builder) : RangeClaims.Divides (b.claims.served priority) b.ranges := by
  rw [ranges_eq]
  exact RangeClaims.divides_resolve b.claims priority

instance : Std.TransCmp priority := by
  show Std.TransCmp (compareLex (compareOn fun c : Claim OuterScope => c.value.fromSymbol)
    (compareLex (compareOn Claim.length)
      (compareLex (compareOn Claim.start) (compareOn fun c : Claim OuterScope => c.value.name))))
  infer_instance

variable {b : Builder} {items : List Item} {a : UInt64}

def ClaimOf (p : Pools) (c : Claim OuterScope) (i : Item) : Prop :=
  c.start = i.tree.address ∧ c.stop = i.tree.stop ∧ c = claimOf c.value ∧ OuterOf p c.value i

theorem claimOf_spec {p : Pools} {o : OuterScope} {i : Item} (h : OuterOf p o i) :
    ClaimOf p (claimOf o) i := by
  have hnode : NodeOf p (Utf8.lossy i.tree.compDir) o.scope i.tree.arranged := by
    have hmirrors := h.mirrors
    cases harranged : i.tree.arranged
    rw [harranged] at hmirrors
    exact hmirrors.1
  refine ⟨?_, ?_, rfl, h⟩
  · rw [← Debug.Function.arranged_address, ← hnode.start]
    rfl
  · rw [← Debug.Function.arranged_stop, ← hnode.stop]
    rfl

theorem priority_eq_precedence {p : Pools} {c d : Claim OuterScope} {i j : Item}
    (hc : ClaimOf p c i) (hd : ClaimOf p d j) : priority c d = i.precedence j := by
  rw [priority, Item.precedence, Claim.length, Claim.length, hc.1, hc.2.1, hd.1, hd.2.1,
    hc.2.2.2.fromSymbol, hd.2.2.2.fromSymbol, hc.2.2.2.name, hd.2.2.2.name]

def claimants (load : UInt64) (items : List Item) : List Item :=
  (items.filter fun i => i.HasCode).filter fun i =>
    load ≤ i.tree.address && i.tree.address < i.tree.stop

theorem mem_claimants {load : UInt64} {i : Item} :
    i ∈ claimants load items ↔ i ∈ items ∧ i.Accepted load ∧ i.tree.address < i.tree.stop := by
  simp only [claimants, List.mem_filter, decide_eq_true_eq, Bool.and_eq_true, Item.Accepted]
  exact ⟨fun ⟨⟨h₁, h₂⟩, h₃, h₄⟩ => ⟨h₁, ⟨h₂, h₃⟩, h₄⟩, fun ⟨h₁, ⟨h₂, h₃⟩, h₄⟩ => ⟨⟨h₁, h₂⟩, h₃, h₄⟩⟩

theorem forall₂_claims
    (h : List.Forall₂ (OuterOf b.pools) b.outer (items.filter fun i => i.HasCode)) :
    List.Forall₂ (ClaimOf b.pools) b.claims.claims (claimants b.loadAddress items) := by
  rw [claims, List.forall₂_map_left_iff]
  refine List.Forall₂.imp (fun o i ho => claimOf_spec ho) (List.rel_filter ?_ h)
  intro o i ho
  obtain ⟨hstart, hstop, -⟩ := claimOf_spec ho
  dsimp only
  rw [← hstart, ← hstop]
  rfl

theorem owner_is_least
    (h : List.Forall₂ (OuterOf b.pools) b.outer (items.filter fun i => i.HasCode))
    {c : Claim OuterScope}
    (howner : RangeClaims.owner? (b.claims.served priority) a = some c) :
    ∃ i, ClaimOf b.pools c i ∧
      IsFirstLeast Item.precedence (Item.Covers b.loadAddress a) items i := by
  obtain ⟨i, hi, hleast⟩ := (RangeClaims.isFirstLeast_of_owner? howner).replace
    (q := fun i => i.tree.Covers a) (forall₂_claims h)
    (fun _ _ _ _ hc hd => priority_eq_precedence hc hd)
    (fun c i hc => by rw [Claim.Covers, Debug.Function.Covers, hc.1, hc.2.1])
  refine ⟨i, hi, ?_⟩
  have hkept : IsFirstLeast Item.precedence (Item.Covers b.loadAddress a)
      (claimants b.loadAddress items) i :=
    hleast.congr fun j hj =>
      ⟨fun hcov => ⟨(mem_claimants.1 hj).2.1, hcov⟩, fun hcov => hcov.2⟩
  refine (hkept.of_filter ?_).of_filter ?_
  · intro j _ hcov
    rw [Bool.and_eq_true, decide_eq_true_eq, decide_eq_true_eq]
    exact ⟨hcov.1.2, UInt64.lt_of_le_of_lt hcov.2.1 hcov.2.2⟩
  · intro j _ hcov
    exact decide_eq_true hcov.1.1

theorem no_owner
    (h : List.Forall₂ (OuterOf b.pools) b.outer (items.filter fun i => i.HasCode))
    (howner : RangeClaims.owner? (b.claims.served priority) a = none) :
    ∀ i ∈ items, ¬ i.Covers b.loadAddress a := by
  intro i hi hcov
  have hmem : i ∈ claimants b.loadAddress items :=
    mem_claimants.2 ⟨hi, hcov.1, UInt64.lt_of_le_of_lt hcov.2.1 hcov.2.2⟩
  obtain ⟨c, hc, hclaim⟩ := exists_left (forall₂_claims h) hmem
  refine RangeClaims.owner?_eq_none_iff.1 howner c hc ?_
  rw [Claim.Covers, hclaim.1, hclaim.2.1]
  exact hcov.2

/-- Each range is part of the scope that it belongs to, which owns all of it. -/
theorem owner_of_range {x : Claim OuterScope} (hx : x ∈ b.ranges) :
    x.value.scope.start ≤ x.start ∧ x.stop ≤ x.value.scope.stop ∧
      ∀ a, x.Covers a →
        RangeClaims.owner? (b.claims.served priority) a = some (claimOf x.value) := by
  have hdivides := b.divides_ranges
  obtain ⟨c, hvalue, hstart, hstop, howner⟩ := hdivides.owned x hx
  have hmem := List.mem_of_find?_eq_some
    (howner x.start ⟨UInt64.le_refl _, hdivides.disjoint.nonempty x hx⟩)
  obtain ⟨o, -, rfl⟩ := List.mem_map.1 (List.mem_mergeSort.1 hmem)
  obtain rfl : o = x.value := hvalue
  exact ⟨hstart, hstop, howner⟩

/-- The scope of a range is that of the item that wins at each address of the range. -/
theorem outer_of_range
    (h : List.Forall₂ (OuterOf b.pools) b.outer (items.filter fun i => i.HasCode))
    {x : Claim OuterScope} (hx : x ∈ b.ranges) (ha : x.Covers a) :
    ∃ i, OuterOf b.pools x.value i ∧
      IsFirstLeast Item.precedence (Item.Covers b.loadAddress a) items i := by
  obtain ⟨i, hclaim, hleast⟩ := owner_is_least h ((owner_of_range hx).2.2 a ha)
  exact ⟨i, hclaim.2.2.2, hleast⟩

end Builder

end Postmortem.SymCache
