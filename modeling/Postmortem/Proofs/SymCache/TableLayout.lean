import Postmortem.Proofs.Outcomes
import Postmortem.Proofs.SymCache.StoredLines
import Postmortem.SymCache.Lookup
import Postmortem.SymCache.Writer

/-!
# What the tables hold

Laying out a range adds one record for each inlined call that has code in it.  Each record has the
part of the call's code that all calls around it share, the line table of that part, and the number
of the record around it.
-/

set_option autoImplicit false

namespace Postmortem.SymCache

namespace Scope

def Covers (s : Scope) (a : UInt64) : Prop := s.start ≤ a ∧ a < s.stop

mutual

def chains (outer : List Scope) : Scope → List (List Scope)
  | ⟨start, stop, function, lines, inlinees⟩ =>
    let chain := ⟨start, stop, function, lines, inlinees⟩ :: outer
    chain :: chainsOf chain inlinees

def chainsOf (outer : List Scope) : List Scope → List (List Scope)
  | [] => []
  | s :: rest => chains outer s ++ chainsOf outer rest

end

mutual

theorem suffix_of_mem_chains {s : Scope} {outer chain : List Scope} (h : chain ∈ chains outer s) :
    (s :: outer) <:+ chain := by
  obtain ⟨start, stop, function, lines, inlinees⟩ := s
  rw [chains] at h
  rcases List.mem_cons.1 h with rfl | h
  · exact List.suffix_refl _
  · exact suffix_of_mem_chainsOf h

theorem suffix_of_mem_chainsOf {l outer chain : List Scope} (h : chain ∈ chainsOf outer l) :
    outer <:+ chain := by
  cases l with
  | nil => simp [chainsOf] at h
  | cons s rest =>
      rw [chainsOf] at h
      rcases List.mem_append.1 h with h | h
      · exact (List.suffix_cons s outer).trans (suffix_of_mem_chains h)
      · exact suffix_of_mem_chainsOf h

end

theorem chains_outermost (s : Scope) : s.chains [] = [s] :: chainsOf [s] s.inlinees := by
  cases s
  rfl

/-- The addresses from `start` up to `stop` that all scopes of a chain share. -/
def shared (start stop : UInt64) : List Scope → UInt64 × UInt64
  | [] => (start, stop)
  | s :: outer => (max s.start (shared start stop outer).1, min s.stop (shared start stop outer).2)

def isShared (start stop : UInt64) (chain : List Scope) : Bool :=
  (shared start stop chain).1 < (shared start stop chain).2

theorem max_le_iff (a b c : UInt64) : max a b ≤ c ↔ a ≤ c ∧ b ≤ c := by
  have h : max a b = if a ≤ b then b else a := rfl
  grind

theorem lt_min_iff (a b c : UInt64) : c < min a b ↔ c < a ∧ c < b := by
  have h : min a b = if a ≤ b then a else b := rfl
  grind

theorem shared_covers {start stop a : UInt64} (chain : List Scope) :
    (shared start stop chain).1 ≤ a ∧ a < (shared start stop chain).2 ↔
      (start ≤ a ∧ a < stop) ∧ ∀ s ∈ chain, s.Covers a := by
  induction chain with
  | nil => simp [shared]
  | cons s outer ih =>
      rw [shared, max_le_iff, lt_min_iff, List.forall_mem_cons, and_and_and_comm, ih, Covers]
      exact and_left_comm

/-- A scope shares no more code than the scopes around it do. -/
theorem shared_cons (start stop : UInt64) (s : Scope) (outer : List Scope) :
    (shared start stop outer).1 ≤ (shared start stop (s :: outer)).1 ∧
      (shared start stop (s :: outer)).2 ≤ (shared start stop outer).2 := by
  rw [shared]
  refine ⟨((max_le_iff _ _ _).1 (UInt64.le_refl _)).2, UInt64.not_lt.1 fun hlt => ?_⟩
  exact UInt64.lt_irrefl _ ((lt_min_iff _ _ _).1 hlt).2

theorem shared_bounds (start stop : UInt64) (chain : List Scope) :
    start ≤ (shared start stop chain).1 ∧ (shared start stop chain).2 ≤ stop := by
  induction chain with
  | nil => exact ⟨UInt64.le_refl _, UInt64.le_refl _⟩
  | cons s outer ih =>
      obtain ⟨hlow, hhigh⟩ := shared_cons start stop s outer
      exact ⟨UInt64.le_trans ih.1 hlow, UInt64.le_trans hhigh ih.2⟩

/-- In a range of its own code, a scope shares the whole range. -/
theorem shared_outermost {start stop : UInt64} {s : Scope} (hstart : s.start ≤ start)
    (hstop : stop ≤ s.stop) : shared start stop [s] = (start, stop) := by
  have hmax : max s.start start = start := if_pos hstart
  have hmin : min s.stop stop = stop := by
    have hdef : min s.stop stop = if s.stop ≤ stop then s.stop else stop := rfl
    grind
  rw [shared, shared, hmax, hmin]

theorem isShared_of_suffix {start stop : UInt64} {outer chain : List Scope}
    (h : isShared start stop chain = true) (hsuffix : outer <:+ chain) :
    isShared start stop outer = true := by
  rw [isShared, decide_eq_true_eq] at h ⊢
  have hlow := (shared_covers chain).1 ⟨UInt64.le_refl _, h⟩
  exact UInt64.lt_of_le_of_lt
    ((shared_covers outer).2 ⟨hlow.1, fun s hs => hlow.2 s (hsuffix.subset hs)⟩).1
    ((shared_covers outer).2 ⟨hlow.1, fun s hs => hlow.2 s (hsuffix.subset hs)⟩).2

/-- If a scope has no code in a range, no scope in it does. -/
theorem filter_chains_eq_nil {start stop : UInt64} {s : Scope} {outer : List Scope}
    (h : ¬ isShared start stop (s :: outer) = true) :
    (s.chains outer).filter (isShared start stop) = [] := by
  rw [List.filter_eq_nil_iff]
  intro chain hchain hkept
  cases s
  rw [chains] at hchain
  rcases List.mem_cons.1 hchain with rfl | hchain
  · exact h hkept
  · exact h (isShared_of_suffix hkept (suffix_of_mem_chainsOf hchain))

end Scope

def tables (s : SymCache) : Tables := ⟨s.ranges, s.inlinees, s.lineBlocks, s.lineProgram⟩

theorem count_eq_ok {n : Nat} {what : Quantity} {m : UInt32} (h : count n what = .ok m) :
    m.toNat = n := by
  rw [count] at h
  split at h
  · rename_i hn
    rw [← Except.ok.inj h, UInt32.toNat_ofNat']
    exact Nat.mod_eq_of_lt hn
  · cases h

theorem relative_eq_ok {load a : UInt64} {r : UInt32} (h : relative load a = .ok r) :
    Within load a ∧ r = distance load a :=
  offset32?_eq_some_iff.1 (orFault_eq_ok.1 h)

namespace Tables

open LineTable (BlockOf)

structure Extends (t t' : Tables) : Prop where
  inlinees : t.inlinees <+: t'.inlinees
  lineBlocks : t.lineBlocks <+: t'.lineBlocks
  lineProgram : t.lineProgram <+: t'.lineProgram

theorem Extends.refl (t : Tables) : t.Extends t :=
  ⟨List.prefix_refl _, List.prefix_refl _, List.prefix_refl _⟩

theorem Extends.trans {t t' t'' : Tables} (h : t.Extends t') (h' : t'.Extends t'') :
    t.Extends t'' :=
  ⟨h.inlinees.trans h'.inlinees, h.lineBlocks.trans h'.lineBlocks,
    h.lineProgram.trans h'.lineProgram⟩

/-! ## Lines -/

/-- Whether some of the blocks hold a line table, in groups of sixteen rows. -/
def LinesAt (load : UInt64) (t : Tables) (first n : UInt32) (rows : List LineRow) : Prop :=
  first.toNat + n.toNat ≤ t.lineBlocks.length ∧
    List.Forall₂ (BlockOf load t.lineProgram) (part t.lineBlocks first.toNat n.toNat)
      (LineTable.groups (blockSize - 1) rows)

theorem part_mono {α : Type} {l l' : List α} {first n : Nat} (h : l <+: l')
    (hn : first + n ≤ l.length) : part l' first n = part l first n := by
  obtain ⟨more, rfl⟩ := h
  rw [part, part, if_pos hn, if_pos (by simp; omega), List.drop_append_of_le_length (by omega),
    List.take_append_of_le_length (by simp; omega)]

theorem part_append {α : Type} {l m : List α} {first n : Nat} (hfirst : first = l.length)
    (hn : n = m.length) : part (l ++ m) first n = m := by
  subst hfirst hn
  rw [part, if_pos (by simp), List.drop_left, List.take_length]

theorem LinesAt.mono {load : UInt64} {t t' : Tables} {first n : UInt32} {rows : List LineRow}
    (h : LinesAt load t first n rows) (ht : t.Extends t') : LinesAt load t' first n rows := by
  obtain ⟨hn, hblocks⟩ := h
  refine ⟨Nat.le_trans hn ht.lineBlocks.length_le, ?_⟩
  rw [part_mono ht.lineBlocks hn]
  exact hblocks.imp fun _ _ hb => hb.mono ht.lineProgram

/-- Adding blocks changes nothing else, and each new block holds one group of rows. -/
theorem pushBlocks_spec {load : UInt64} {t t' : Tables} {gs : List (List LineRow)}
    (hsize : ∀ g ∈ gs, g ≠ [] ∧ g.tail.length < blockSize) (h : t.pushBlocks load gs = .ok t') :
    ∃ blocks program, t' = { t with lineBlocks := t.lineBlocks ++ blocks
                                    lineProgram := t.lineProgram ++ program } ∧
      List.Forall₂ (BlockOf load (t.lineProgram ++ program)) blocks gs := by
  induction gs generalizing t with
  | nil =>
      rw [pushBlocks] at h
      rw [← Except.ok.inj h]
      exact ⟨[], [], by simp, .nil⟩
  | cons g gs ih =>
      obtain ⟨⟨hne, hlen⟩, hrest⟩ := List.forall_mem_cons.1 hsize
      cases g with
      | nil => exact absurd rfl hne
      | cons head rest =>
          rw [pushBlocks] at h
          obtain ⟨offset, hoffset, h⟩ := bind_eq_ok.1 h
          obtain ⟨address, haddress, h⟩ := bind_eq_ok.1 h
          obtain ⟨hwithin, rfl⟩ := relative_eq_ok haddress
          obtain ⟨blocks, program, rfl, hblocks⟩ := ih hrest h
          have hsize : (UInt32.ofNat (rest.length + 1)).toNat = rest.length + 1 := by
            have hrestlen : rest.length < 16 := hlen
            rw [UInt32.toNat_ofNat']
            exact Nat.mod_eq_of_lt (by omega)
          let block : LineBlock := ⟨distance load head.address, head.line, head.file, offset,
            UInt32.ofNat (rest.length + 1)⟩
          refine ⟨block :: blocks, LineTable.encodeFrom head rest ++ program, by simp [block], ?_⟩
          rw [← List.append_assoc]
          refine .cons ⟨rfl, hsize, ?_⟩ hblocks
          rw [count_eq_ok hoffset, List.append_assoc, List.drop_left]
          exact List.prefix_append _ _

structure AddsLines (load : UInt64) (t t' : Tables) (first n : UInt32) (rows : List LineRow) :
    Prop where
  ranges : t'.ranges = t.ranges
  inlinees : t'.inlinees = t.inlinees
  grown : t.Extends t'
  first_eq : first.toNat = t.lineBlocks.length
  length : t'.lineBlocks.length = t.lineBlocks.length + n.toNat
  lines : LinesAt load t' first n rows

theorem pushLines_spec {load start stop : UInt64} {rows : List LineRow} {t t' : Tables}
    {first n : UInt32} (h : t.pushLines load start stop rows = .ok ((first, n), t')) :
    AddsLines load t t' first n (LineTable.clip start stop rows) := by
  rw [pushLines] at h
  obtain ⟨first', hfirst, h⟩ := bind_eq_ok.1 h
  obtain ⟨t₁, ht₁, h⟩ := bind_eq_ok.1 h
  obtain ⟨after, hafter, h⟩ := bind_eq_ok.1 h
  have h := Except.ok.inj h
  simp only [Prod.mk.injEq] at h
  obtain ⟨⟨rfl, rfl⟩, rfl⟩ := h
  have hsize : ∀ g ∈ LineTable.groups (blockSize - 1) (LineTable.clip start stop rows),
      g ≠ [] ∧ g.tail.length < blockSize :=
    fun g hg => ⟨LineTable.ne_nil_of_mem_groups hg,
      Nat.lt_of_le_pred (by decide) (LineTable.length_tail_groups hg)⟩
  obtain ⟨blocks, program, rfl, hblocks⟩ := pushBlocks_spec hsize ht₁
  have hfirst := count_eq_ok hfirst
  have hafter := count_eq_ok hafter
  have hn : (after - first').toNat = blocks.length := by
    rw [List.length_append] at hafter
    rw [UInt32.toNat_sub_of_le _ _ (UInt32.le_iff_toNat_le.2 (by omega))]
    omega
  refine ⟨rfl, rfl, ⟨List.prefix_refl _, List.prefix_append _ _, List.prefix_append _ _⟩, hfirst,
    by rw [hn, List.length_append], ?_⟩
  refine ⟨by simp [hfirst, hn], ?_⟩
  rw [part_append hfirst hn]
  exact hblocks

/-! ## Inlined calls -/

structure InlineeOf (load start stop : UInt64) (t : Tables) (s : Scope) (outer : List Scope)
    (r : InlineeRecord) : Prop where
  function : r.function = s.function
  depth : r.depth = UInt32.ofNat outer.length
  within_start : Within load (Scope.shared start stop (s :: outer)).1
  within_stop : Within load (Scope.shared start stop (s :: outer)).2
  start_eq : r.start = distance load (Scope.shared start stop (s :: outer)).1
  stop_eq : r.stop = distance load (Scope.shared start stop (s :: outer)).2
  lines : LinesAt load t r.firstBlock r.blockCount
    (LineTable.clip (Scope.shared start stop (s :: outer)).1
      (Scope.shared start stop (s :: outer)).2 s.lines)

/-- Whether the record with a number is that of the first scope of a chain, its parent that of the
second one, and so on.  The last scope of a chain, the outer function, has no record. -/
inductive HasChain (load start stop : UInt64) (t : Tables) : List Scope → Nat → Prop where
  | inFunction {s root : Scope} {r : InlineeRecord} {i : Nat} (here : t.inlinees[i]? = some r)
      (record : InlineeOf load start stop t s [root] r) (parent : r.parent = absent) :
      HasChain load start stop t [s, root] i
  | inInlinee {s : Scope} {outer : List Scope} {r : InlineeRecord} {i : Nat}
      (here : t.inlinees[i]? = some r) (record : InlineeOf load start stop t s outer r)
      (before : r.parent.toNat < i) (parent : HasChain load start stop t outer r.parent.toNat) :
      HasChain load start stop t (s :: outer) i

/-- Whether the records from a number on are those of some chains. -/
def HasChains (load start stop : UInt64) (t : Tables) : Nat → List (List Scope) → Prop
  | _, [] => True
  | i, chain :: rest => HasChain load start stop t chain i ∧ HasChains load start stop t (i + 1) rest

variable {load start stop : UInt64} {t t' t'' : Tables}

theorem InlineeOf.mono {s : Scope} {outer : List Scope} {r : InlineeRecord}
    (h : InlineeOf load start stop t s outer r) (ht : t.Extends t') :
    InlineeOf load start stop t' s outer r :=
  { h with lines := h.lines.mono ht }

theorem HasChain.mono {chain : List Scope} {i : Nat} (h : HasChain load start stop t chain i)
    (ht : t.Extends t') : HasChain load start stop t' chain i := by
  have still {i : Nat} {r : InlineeRecord} (hr : t.inlinees[i]? = some r) :
      t'.inlinees[i]? = some r := by
    obtain ⟨more, hmore⟩ := ht.inlinees
    obtain ⟨hi, -⟩ := List.getElem?_eq_some_iff.1 hr
    rw [← hmore, List.getElem?_append_left hi, hr]
  induction h with
  | inFunction here record parent => exact .inFunction (still here) (record.mono ht) parent
  | inInlinee here record before _ ih => exact .inInlinee (still here) (record.mono ht) before ih

theorem HasChains.mono {chains : List (List Scope)} {i : Nat}
    (h : HasChains load start stop t i chains) (ht : t.Extends t') :
    HasChains load start stop t' i chains := by
  induction chains generalizing i with
  | nil => trivial
  | cons chain rest ih => exact ⟨h.1.mono ht, ih h.2⟩

theorem hasChains_append {before after : List (List Scope)} {i : Nat} :
    HasChains load start stop t i (before ++ after) ↔
      HasChains load start stop t i before ∧
        HasChains load start stop t (i + before.length) after := by
  induction before generalizing i with
  | nil => simp [HasChains]
  | cons chain rest ih =>
      have hi : i + 1 + rest.length = i + (chain :: rest).length := by
        rw [List.length_cons]
        omega
      rw [List.cons_append, HasChains, HasChains, ih, hi, and_assoc]

structure AddsChains (load start stop : UInt64) (t t' : Tables) (chains : List (List Scope)) :
    Prop where
  ranges : t'.ranges = t.ranges
  grown : t.Extends t'
  length : t'.inlinees.length = t.inlinees.length + chains.length
  has : HasChains load start stop t' t.inlinees.length chains

theorem AddsChains.nil (t : Tables) : AddsChains load start stop t t [] :=
  ⟨rfl, .refl t, rfl, trivial⟩

theorem AddsChains.append {before after : List (List Scope)}
    (h : AddsChains load start stop t t' before) (h' : AddsChains load start stop t' t'' after) :
    AddsChains load start stop t t'' (before ++ after) := by
  refine ⟨h'.ranges.trans h.ranges, h.grown.trans h'.grown, ?_, ?_⟩
  · rw [h'.length, h.length, List.length_append]
    omega
  · rw [hasChains_append, ← h.length]
    exact ⟨h.has.mono h'.grown, h'.has⟩

def IsParent (load start stop : UInt64) (t : Tables) (outer : List Scope) (parent : UInt32) :
    Prop :=
  (∃ root, outer = [root] ∧ parent = absent) ∨
    parent.toNat < t.inlinees.length ∧ HasChain load start stop t outer parent.toNat

theorem IsParent.mono {outer : List Scope} {parent : UInt32}
    (h : IsParent load start stop t outer parent) (ht : t.Extends t') :
    IsParent load start stop t' outer parent := by
  rcases h with h | ⟨hlt, hchain⟩
  · exact .inl h
  · exact .inr ⟨Nat.lt_of_lt_of_le hlt ht.inlinees.length_le, hchain.mono ht⟩

theorem hasChain_of_isParent {s : Scope} {outer : List Scope} {r : InlineeRecord} {i : Nat}
    (hparent : IsParent load start stop t outer r.parent) (hlen : t.inlinees.length = i)
    (ht : t.Extends t') (here : t'.inlinees[i]? = some r)
    (record : InlineeOf load start stop t' s outer r) :
    HasChain load start stop t' (s :: outer) i := by
  rcases hparent with ⟨root, rfl, habsent⟩ | ⟨hlt, hchain⟩
  · exact .inFunction here record habsent
  · exact .inInlinee here record (hlen ▸ hlt) (hchain.mono ht)

def withInlinee (t : Tables) (r : InlineeRecord) : Tables :=
  { t with inlinees := t.inlinees ++ [r] }

theorem extends_withInlinee (t : Tables) (r : InlineeRecord) : t.Extends (t.withInlinee r) :=
  ⟨List.prefix_append _ _, List.prefix_refl _, List.prefix_refl _⟩

theorem AddsChains.isParent {chain : List Scope} {index : UInt32}
    (h : AddsChains load start stop t t' [chain]) (hindex : index.toNat = t.inlinees.length) :
    IsParent load start stop t' chain index := by
  refine .inr ?_
  rw [hindex, h.length]
  exact ⟨Nat.lt_succ_self _, h.has.1⟩

structure AddsInlinee (load low high : UInt64) (s : Scope) (parent depth : UInt32) (t t' : Tables)
    (r : InlineeRecord) : Prop where
  lines : AddsLines load t t' r.firstBlock r.blockCount (LineTable.clip low high s.lines)
  within_start : Within load low
  within_stop : Within load high
  start_eq : r.start = distance load low
  stop_eq : r.stop = distance load high
  function : r.function = s.function
  parent : r.parent = parent
  depth : r.depth = depth

theorem pushInlinee_eq_ok {s : Scope} {low high : UInt64} {parent depth : UInt32}
    (hlt : max s.start low < min s.stop high)
    (h : t.pushInlinee load low high parent depth s = .ok t') :
    ∃ t₁ r index,
      AddsInlinee load (max s.start low) (min s.stop high) s parent depth t t₁ r ∧
      index.toNat = t.inlinees.length ∧
      (t₁.withInlinee r).pushInlinees load (max s.start low) (min s.stop high) index (depth + 1)
        s.inlinees = .ok t' := by
  obtain ⟨scopeStart, scopeStop, function, lines, inlinees⟩ := s
  rw [pushInlinee] at h
  dsimp only at h hlt ⊢
  rw [if_pos hlt] at h
  obtain ⟨index, hindex, h⟩ := bind_eq_ok.1 h
  obtain ⟨first, hfirst, h⟩ := bind_eq_ok.1 h
  obtain ⟨last, hlast, h⟩ := bind_eq_ok.1 h
  obtain ⟨⟨⟨firstBlock, blocks⟩, t₁⟩, ht₁, h⟩ := bind_eq_ok.1 h
  obtain ⟨hwithinStart, rfl⟩ := relative_eq_ok hfirst
  obtain ⟨hwithinStop, rfl⟩ := relative_eq_ok hlast
  exact ⟨t₁, ⟨_, _, function, parent, depth, firstBlock, blocks⟩, index,
    ⟨pushLines_spec ht₁, hwithinStart, hwithinStop, rfl, rfl, rfl, rfl, rfl⟩, count_eq_ok hindex, h⟩

/-- A record behind its lines adds the chain that it is the first of. -/
theorem AddsInlinee.addsChains {s : Scope} {outer : List Scope} {parent depth : UInt32}
    {r : InlineeRecord}
    (h : AddsInlinee load (Scope.shared start stop (s :: outer)).1
      (Scope.shared start stop (s :: outer)).2 s parent depth t t' r)
    (hparent : IsParent load start stop t outer parent)
    (hdepth : depth = UInt32.ofNat outer.length) :
    AddsChains load start stop t (t'.withInlinee r) [s :: outer] := by
  have hgrown := h.lines.grown.trans (extends_withInlinee t' r)
  have here : (t'.withInlinee r).inlinees[t.inlinees.length]? = some r := by
    rw [withInlinee, ← h.lines.inlinees, List.getElem?_concat_length]
  have record : InlineeOf load start stop (t'.withInlinee r) s outer r :=
    ⟨h.function, by rw [h.depth, hdepth], h.within_start, h.within_stop, h.start_eq, h.stop_eq,
      h.lines.lines.mono (extends_withInlinee t' r)⟩
  rw [← h.parent] at hparent
  refine ⟨h.lines.ranges, hgrown, ?_, hasChain_of_isParent hparent rfl hgrown here record, trivial⟩
  rw [withInlinee, ← h.lines.inlinees, List.length_append]
  rfl

/-- An inlined call without code adds nothing. -/
theorem pushInlinee_of_not_lt {s : Scope} {low high : UInt64} {parent depth : UInt32}
    (hlt : ¬ max s.start low < min s.stop high) :
    t.pushInlinee load low high parent depth s = .ok t := by
  obtain ⟨scopeStart, scopeStop, function, lines, inlinees⟩ := s
  rw [pushInlinee]
  dsimp only at hlt ⊢
  rw [if_neg hlt]

mutual

/-- Laying out an inlined call adds the records of all calls in it that have code in the range. -/
theorem pushInlinee_spec {s : Scope} {outer : List Scope} {parent depth : UInt32} {t t' : Tables}
    (hparent : IsParent load start stop t outer parent)
    (hdepth : depth = UInt32.ofNat outer.length)
    (h : t.pushInlinee load (Scope.shared start stop outer).1 (Scope.shared start stop outer).2
      parent depth s = .ok t') :
    AddsChains load start stop t t' ((Scope.chains outer s).filter (Scope.isShared start stop)) := by
  by_cases hshared : Scope.isShared start stop (s :: outer) = true
  · obtain ⟨scopeStart, scopeStop, function, lines, inlinees⟩ := s
    obtain ⟨t₁, r, index, hadds, hindex, hrest⟩ := pushInlinee_eq_ok (of_decide_eq_true hshared) h
    have hone := hadds.addsChains hparent hdepth
    have hnext : depth + 1 = UInt32.ofNat (outer.length + 1) := by
      rw [hdepth, UInt32.ofNat_add]
      rfl
    have hin := pushInlinees_spec (l := inlinees) (hone.isParent hindex) hnext hrest
    rw [Scope.chains, List.filter_cons_of_pos hshared]
    exact hone.append hin
  · rw [Scope.filter_chains_eq_nil hshared]
    have hlt : ¬ max s.start (Scope.shared start stop outer).1 <
        min s.stop (Scope.shared start stop outer).2 :=
      fun hlt => hshared (decide_eq_true hlt)
    rw [pushInlinee_of_not_lt hlt] at h
    rw [← Except.ok.inj h]
    exact .nil t

theorem pushInlinees_spec {l : List Scope} {outer : List Scope} {parent depth : UInt32}
    {t t' : Tables} (hparent : IsParent load start stop t outer parent)
    (hdepth : depth = UInt32.ofNat outer.length)
    (h : t.pushInlinees load (Scope.shared start stop outer).1 (Scope.shared start stop outer).2
      parent depth l = .ok t') :
    AddsChains load start stop t t'
      ((Scope.chainsOf outer l).filter (Scope.isShared start stop)) := by
  cases l with
  | nil =>
      rw [pushInlinees] at h
      rw [← Except.ok.inj h]
      exact .nil t
  | cons s rest =>
      rw [pushInlinees] at h
      obtain ⟨t₁, ht₁, h⟩ := bind_eq_ok.1 h
      have hs := pushInlinee_spec hparent hdepth ht₁
      rw [Scope.chainsOf, List.filter_append]
      exact hs.append (pushInlinees_spec (hparent.mono hs.grown) hdepth h)

end

/-! ## Ranges -/

def chainsIn (c : Claim OuterScope) : List (List Scope) :=
  (Scope.chainsOf [c.value.scope] c.value.scope.inlinees).filter (Scope.isShared c.start c.stop)

structure RangeOf (load : UInt64) (t : Tables) (c : Claim OuterScope) (r : RangeRecord) : Prop where
  within_start : Within load c.start
  within_stop : Within load c.stop
  start_eq : r.start = distance load c.start
  stop_eq : r.stop = distance load c.stop
  function : r.function = c.value.scope.function
  lines : LinesAt load t r.firstBlock r.blockCount
    (LineTable.clip c.start c.stop c.value.scope.lines)
  count_eq : r.inlineeCount.toNat = (chainsIn c).length
  room : r.firstInlinee.toNat + r.inlineeCount.toNat ≤ t.inlinees.length
  has : HasChains load c.start c.stop t r.firstInlinee.toNat (chainsIn c)

theorem RangeOf.mono {c : Claim OuterScope} {r : RangeRecord} (h : RangeOf load t c r)
    (ht : t.Extends t') : RangeOf load t' c r :=
  { h with
    lines := h.lines.mono ht
    room := Nat.le_trans h.room ht.inlinees.length_le
    has := h.has.mono ht }

def withRange (t : Tables) (r : RangeRecord) : Tables :=
  { t with ranges := t.ranges ++ [r] }

theorem extends_withRange (t : Tables) (r : RangeRecord) : t.Extends (t.withRange r) :=
  ⟨List.prefix_refl _, List.prefix_refl _, List.prefix_refl _⟩

structure AddsRange (load : UInt64) (c : Claim OuterScope) (t t₁ t₂ : Tables) (r : RangeRecord) :
    Prop where
  lines : AddsLines load t t₁ r.firstBlock r.blockCount
    (LineTable.clip c.start c.stop c.value.scope.lines)
  calls : t₁.pushInlinees load c.start c.stop absent 1 c.value.scope.inlinees = .ok t₂
  within_start : Within load c.start
  within_stop : Within load c.stop
  start_eq : r.start = distance load c.start
  stop_eq : r.stop = distance load c.stop
  function : r.function = c.value.scope.function
  first_eq : r.firstInlinee.toNat = t₁.inlinees.length
  count_eq : ∀ n, t₂.inlinees.length = t₁.inlinees.length + n → r.inlineeCount.toNat = n

theorem pushRange_eq_ok {c : Claim OuterScope} (h : t.pushRange load c = .ok t') :
    ∃ t₁ t₂ r, AddsRange load c t t₁ t₂ r ∧ t' = t₂.withRange r := by
  rw [pushRange] at h
  obtain ⟨first, hfirst, h⟩ := bind_eq_ok.1 h
  obtain ⟨last, hlast, h⟩ := bind_eq_ok.1 h
  obtain ⟨⟨⟨firstBlock, blocks⟩, t₁⟩, ht₁, h⟩ := bind_eq_ok.1 h
  obtain ⟨firstInlinee, hfirstInlinee, h⟩ := bind_eq_ok.1 h
  obtain ⟨t₂, ht₂, h⟩ := bind_eq_ok.1 h
  obtain ⟨inlinees, hinlinees, h⟩ := bind_eq_ok.1 h
  obtain ⟨hwithinStart, rfl⟩ := relative_eq_ok hfirst
  obtain ⟨hwithinStop, rfl⟩ := relative_eq_ok hlast
  have hfirstInlinee := count_eq_ok hfirstInlinee
  have hinlinees := count_eq_ok hinlinees
  refine ⟨t₁, t₂, _, ⟨pushLines_spec ht₁, ht₂, hwithinStart, hwithinStop, rfl, rfl, rfl,
    hfirstInlinee, ?_⟩, (Except.ok.inj h).symm⟩
  intro n hn
  dsimp only
  rw [UInt32.toNat_sub_of_le _ _ (UInt32.le_iff_toNat_le.2 (by omega))]
  omega

theorem pushRange_spec {c : Claim OuterScope} (hstart : c.value.scope.start ≤ c.start)
    (hstop : c.stop ≤ c.value.scope.stop) (h : t.pushRange load c = .ok t') :
    t.Extends t' ∧ ∃ r, t'.ranges = t.ranges ++ [r] ∧ RangeOf load t' c r := by
  have hshared := Scope.shared_outermost hstart hstop
  obtain ⟨t₁, t₂, r, hadds, rfl⟩ := pushRange_eq_ok h
  have hchains : AddsChains load c.start c.stop t₁ t₂ (chainsIn c) := by
    have hparent : IsParent load c.start c.stop t₁ [c.value.scope] absent := .inl ⟨_, rfl, rfl⟩
    refine pushInlinees_spec hparent rfl ?_
    rw [hshared]
    exact hadds.calls
  have hcount := hadds.count_eq _ hchains.length
  have hgrown := hchains.grown.trans (extends_withRange t₂ r)
  refine ⟨hadds.lines.grown.trans hgrown, r, ?_, hadds.within_start, hadds.within_stop,
    hadds.start_eq, hadds.stop_eq, hadds.function, hadds.lines.lines.mono hgrown, hcount, ?_, ?_⟩
  · rw [withRange, hchains.ranges, hadds.lines.ranges]
  · rw [hadds.first_eq, hcount, ← hchains.length]
    exact Nat.le_refl _
  · rw [hadds.first_eq]
    exact hchains.has.mono (extends_withRange t₂ r)

theorem ofRanges_spec {ranges : List (Claim OuterScope)}
    (hranges : ∀ c ∈ ranges, c.value.scope.start ≤ c.start ∧ c.stop ≤ c.value.scope.stop)
    (h : ofRanges load ranges = .ok t) :
    List.Forall₂ (RangeOf load t) ranges t.ranges := by
  -- the records so far stay right while more are added
  have hfold : ∀ (before : List (Claim OuterScope)) (t₀ : Tables),
      List.Forall₂ (RangeOf load t₀) before t₀.ranges →
      ranges.foldlM (pushRange load) t₀ = .ok t →
      List.Forall₂ (RangeOf load t) (before ++ ranges) t.ranges := by
    clear h
    induction ranges with
    | nil =>
        intro before t₀ hbefore h
        rw [← Except.ok.inj h, List.append_nil]
        exact hbefore
    | cons c rest ih =>
        intro before t₀ hbefore h
        rw [List.foldlM_cons] at h
        obtain ⟨t₁, ht₁, h⟩ := bind_eq_ok.1 h
        obtain ⟨hstart, hstop⟩ := hranges c (List.mem_cons_self ..)
        obtain ⟨hgrown, r, hr, hrange⟩ := pushRange_spec hstart hstop ht₁
        rw [List.append_cons]
        refine ih (fun c hc => hranges c (List.mem_cons_of_mem _ hc)) _ t₁ ?_ h
        rw [hr]
        exact List.rel_append (hbefore.imp fun _ _ hb => hb.mono hgrown) (.cons hrange .nil)
  exact hfold [] {} .nil h

end Tables

end Postmortem.SymCache
