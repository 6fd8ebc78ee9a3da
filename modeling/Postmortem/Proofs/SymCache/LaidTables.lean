import Postmortem.Proofs.SymCache.References
import Postmortem.Proofs.SymCache.TableLayout

/-!
# What it takes to lay tables out

The tables of some ranges can be laid out if their records fit 32 bits in number and all ends of the
ranges are within reach of the load address: the parts of inlined calls, and the rows of line
tables, lie inside the ranges.  Then each record and each block has the exact distance of its
address.  If a range reaches too far, it is refused before anything of it is laid out.
-/

set_option autoImplicit false

namespace Postmortem.SymCache

/-- A run of code with records of its own: a range, or the part of an inlined call in one. -/
structure Piece where
  start : UInt64
  stop : UInt64
  lines : List LineRow

namespace Piece

def groups (p : Piece) : List (List LineRow) :=
  LineTable.groups (blockSize - 1) (LineTable.clip p.start p.stop p.lines)

def encodeGroup : List LineRow → Bytes
  | [] => []
  | head :: rest => LineTable.encodeFrom head rest

def program (p : Piece) : Bytes := p.groups.flatMap encodeGroup

def PlacesFit (n : Nat) : List (List LineRow) → Prop
  | [] => True
  | g :: gs => n < UInt32.size ∧ PlacesFit (n + (encodeGroup g).length) gs

theorem placesFit_of_lt {n : Nat} {gs : List (List LineRow)}
    (h : n + (gs.flatMap encodeGroup).length < UInt32.size) : PlacesFit n gs := by
  induction gs generalizing n with
  | nil => trivial
  | cons g gs ih =>
      rw [List.flatMap_cons, List.length_append] at h
      exact ⟨by omega, ih (by omega)⟩

end Piece

def Piece.ofChain (start stop : UInt64) (chain : List Scope) : Piece where
  start := (Scope.shared start stop chain).1
  stop := (Scope.shared start stop chain).2
  lines := (chain.head?.map Scope.lines).getD []

def Piece.ofChains (start stop : UInt64) (chains : List (List Scope)) : List Piece :=
  (chains.filter (Scope.isShared start stop)).map (ofChain start stop)

theorem Piece.ofChains_append (start stop : UInt64) (before after : List (List Scope)) :
    ofChains start stop (before ++ after) =
      ofChains start stop before ++ ofChains start stop after := by
  rw [ofChains, List.filter_append, List.map_append]
  rfl

def callPieces (c : Claim OuterScope) : List Piece :=
  Piece.ofChains c.start c.stop (Scope.chainsOf [c.value.scope] c.value.scope.inlinees)

def rangePieces (c : Claim OuterScope) : List Piece :=
  ⟨c.start, c.stop, c.value.scope.lines⟩ :: callPieces c

def InReach (load : UInt64) (c : Claim OuterScope) : Prop :=
  Within load c.start ∧ Within load c.stop

/-! ## Exact records -/

def Offset (load : UInt64) (r : UInt32) (a : UInt64) : Prop := load.toNat + r.toNat = a.toNat

theorem offset_distance {load a : UInt64} (h : Within load a) :
    Offset load (distance load a) a := by
  rw [Offset, h.toNat_distance]
  exact Nat.add_sub_cancel' h.1

structure RangeAt (load : UInt64) (r : RangeRecord) (c : Claim OuterScope) : Prop where
  start : Offset load r.start c.start
  stop : Offset load r.stop c.stop

structure CallAt (load : UInt64) (n : InlineeRecord) (p : Piece) : Prop where
  start : Offset load n.start p.start
  stop : Offset load n.stop p.stop

def BlockAt (load : UInt64) (x : LineBlock) (g : List LineRow) : Prop :=
  ∃ head ∈ g.head?, Offset load x.address head.address

namespace Tables

variable {load : UInt64} {t t' t'' : Tables}

/-- Whether tables go on from others with exact records of some ranges and inlined calls, and with
blocks and the line programs of some pieces. -/
structure Lays (load : UInt64) (t t' : Tables) (ranges : List (Claim OuterScope))
    (calls lined : List Piece) : Prop where
  ranges : ∃ new, t'.ranges = t.ranges ++ new ∧ List.Forall₂ (RangeAt load) new ranges
  inlinees : ∃ new, t'.inlinees = t.inlinees ++ new ∧ List.Forall₂ (CallAt load) new calls
  lineBlocks : ∃ new, t'.lineBlocks = t.lineBlocks ++ new ∧
    List.Forall₂ (BlockAt load) new (lined.flatMap Piece.groups)
  lineProgram : t'.lineProgram = t.lineProgram ++ lined.flatMap Piece.program

theorem Lays.refl (t : Tables) : Lays load t t [] [] [] :=
  ⟨⟨[], by simp⟩, ⟨[], by simp⟩, ⟨[], by simp⟩, by simp⟩

theorem Lays.append {ranges ranges' : List (Claim OuterScope)}
    {calls calls' lined lined' : List Piece}
    (h : Lays load t t' ranges calls lined) (h' : Lays load t' t'' ranges' calls' lined') :
    Lays load t t'' (ranges ++ ranges') (calls ++ calls') (lined ++ lined') := by
  obtain ⟨⟨r, hr, hranges⟩, ⟨n, hn, hcalls⟩, ⟨x, hx, hblocks⟩, hprogram⟩ := h
  obtain ⟨⟨r', hr', hranges'⟩, ⟨n', hn', hcalls'⟩, ⟨x', hx', hblocks'⟩, hprogram'⟩ := h'
  refine ⟨⟨r ++ r', ?_, List.rel_append hranges hranges'⟩,
    ⟨n ++ n', ?_, List.rel_append hcalls hcalls'⟩, ⟨x ++ x', ?_, ?_⟩, ?_⟩
  · rw [hr', hr, List.append_assoc]
  · rw [hn', hn, List.append_assoc]
  · rw [hx', hx, List.append_assoc]
  · rw [List.flatMap_append]
    exact List.rel_append hblocks hblocks'
  · rw [hprogram', hprogram, List.flatMap_append, List.append_assoc]

theorem Lays.length_ranges {ranges : List (Claim OuterScope)} {calls lined : List Piece}
    (h : Lays load t t' ranges calls lined) :
    t'.ranges.length = t.ranges.length + ranges.length := by
  obtain ⟨new, hnew, hranges⟩ := h.ranges
  rw [hnew, List.length_append, hranges.length_eq]

theorem Lays.length_inlinees {ranges : List (Claim OuterScope)} {calls lined : List Piece}
    (h : Lays load t t' ranges calls lined) :
    t'.inlinees.length = t.inlinees.length + calls.length := by
  obtain ⟨new, hnew, hcalls⟩ := h.inlinees
  rw [hnew, List.length_append, hcalls.length_eq]

theorem Lays.length_lineBlocks {ranges : List (Claim OuterScope)} {calls lined : List Piece}
    (h : Lays load t t' ranges calls lined) :
    t'.lineBlocks.length = t.lineBlocks.length + (lined.flatMap Piece.groups).length := by
  obtain ⟨new, hnew, hblocks⟩ := h.lineBlocks
  rw [hnew, List.length_append, hblocks.length_eq]

theorem Lays.length_lineProgram {ranges : List (Claim OuterScope)} {calls lined : List Piece}
    (h : Lays load t t' ranges calls lined) :
    t'.lineProgram.length = t.lineProgram.length + (lined.flatMap Piece.program).length := by
  rw [h.lineProgram, List.length_append]

structure Room (t : Tables) (calls lined : List Piece) : Prop where
  inlinees : t.inlinees.length + calls.length < UInt32.size
  lineBlocks : t.lineBlocks.length + (lined.flatMap Piece.groups).length < UInt32.size
  lineProgram : t.lineProgram.length + (lined.flatMap Piece.program).length < UInt32.size

theorem Room.front {calls calls' lined lined' : List Piece}
    (h : t.Room (calls ++ calls') (lined ++ lined')) : t.Room calls lined := by
  obtain ⟨hcalls, hblocks, hprogram⟩ := h
  rw [List.length_append] at hcalls
  rw [List.flatMap_append, List.length_append] at hblocks
  rw [List.flatMap_append, List.length_append] at hprogram
  exact ⟨by omega, by omega, by omega⟩

theorem Room.back {ranges : List (Claim OuterScope)} {calls calls' lined lined' : List Piece}
    (h : t.Room (calls ++ calls') (lined ++ lined')) (hlays : Lays load t t' ranges calls lined) :
    t'.Room calls' lined' := by
  obtain ⟨hcalls, hblocks, hprogram⟩ := h
  have hcalls' := hlays.length_inlinees
  have hblocks' := hlays.length_lineBlocks
  have hprogram' := hlays.length_lineProgram
  rw [List.length_append] at hcalls
  rw [List.flatMap_append, List.length_append] at hblocks
  rw [List.flatMap_append, List.length_append] at hprogram
  exact ⟨by omega, by omega, by omega⟩

structure Fits (t : Tables) (p : Piece) : Prop where
  blocks : t.lineBlocks.length + p.groups.length < UInt32.size
  places : Piece.PlacesFit t.lineProgram.length p.groups

theorem Room.fits {calls : List Piece} {p : Piece} (h : t.Room calls [p]) : t.Fits p := by
  obtain ⟨-, hblocks, hprogram⟩ := h
  simp only [List.flatMap_cons, List.flatMap_nil, List.append_nil] at hblocks hprogram
  exact ⟨hblocks, Piece.placesFit_of_lt hprogram⟩

/-! ## Steps that succeed -/

theorem count_of_lt {n : Nat} {what : Quantity} (h : n < UInt32.size) :
    count n what = .ok (UInt32.ofNat n) :=
  if_pos h

theorem relative_of_within {a : UInt64} (h : Within load a) :
    relative load a = .ok (distance load a) :=
  congrArg (orFault _) (offset32?_of_within h)

theorem relative_of_not_within {a : UInt64} (h : ¬ Within load a) :
    relative load a = .error (.tooLarge .address) := by
  rw [relative]
  cases hoffset : offset32? a load with
  | none => rfl
  | some r => exact absurd (offset32?_eq_some_iff.1 hoffset).1 h

theorem pushBlocks_succeeds {gs : List (List LineRow)} (hgroups : ∀ g ∈ gs, g ≠ [])
    (hrows : ∀ g ∈ gs, ∀ r ∈ g, Within load r.address)
    (hfits : Piece.PlacesFit t.lineProgram.length gs) :
    ∃ blocks, t.pushBlocks load gs =
        .ok { t with lineBlocks := t.lineBlocks ++ blocks
                     lineProgram := t.lineProgram ++ gs.flatMap Piece.encodeGroup } ∧
      List.Forall₂ (BlockAt load) blocks gs := by
  induction gs generalizing t with
  | nil => exact ⟨[], by simp [pushBlocks], .nil⟩
  | cons g gs ih =>
      obtain ⟨hne, hgroups'⟩ := List.forall_mem_cons.1 hgroups
      obtain ⟨hg, hrows'⟩ := List.forall_mem_cons.1 hrows
      cases g with
      | nil => exact absurd rfl hne
      | cons head rest =>
          have hhead := hg head (List.mem_cons_self ..)
          -- the block refers to the end of the program so far, where its rows are put
          let block : LineBlock := ⟨distance load head.address, head.line, head.file,
            UInt32.ofNat t.lineProgram.length, UInt32.ofNat (rest.length + 1)⟩
          let t' : Tables := { t with
            lineBlocks := t.lineBlocks ++ [block]
            lineProgram := t.lineProgram ++ LineTable.encodeFrom head rest }
          obtain ⟨hplace, hfits⟩ := hfits
          have hfits' : Piece.PlacesFit t'.lineProgram.length gs := by
            rwa [List.length_append]
          obtain ⟨blocks, hpush, hblocks⟩ := ih hgroups' hrows' hfits'
          rw [List.flatMap_cons, Piece.encodeGroup]
          refine ⟨block :: blocks, ?_, .cons ⟨head, rfl, offset_distance hhead⟩ hblocks⟩
          rw [pushBlocks]
          refine bind_eq_ok.2 ⟨_, count_of_lt hplace, ?_⟩
          refine bind_eq_ok.2 ⟨_, relative_of_within hhead, ?_⟩
          rw [List.append_cons, ← List.append_assoc]
          exact hpush

/-- All rows in a piece within reach are within reach, since none but the first is outside its
addresses, and that one is moved to its start. -/
theorem within_of_mem_groups {p : Piece} (hlines : LineTable.Increasing p.lines)
    (hstart : Within load p.start) (hstop : Within load p.stop) :
    ∀ g ∈ p.groups, ∀ r ∈ g, Within load r.address := by
  intro g hg r hr
  have hmem : r ∈ LineTable.clip p.start p.stop p.lines := by
    rw [← LineTable.flatten_groups (blockSize - 1) (LineTable.clip p.start p.stop p.lines)]
    exact List.mem_flatten.2 ⟨g, hg, hr⟩
  exact LineTable.within_of_mem_clip hlines hstart hstop hmem

/-- Lines can be added to a piece within reach if there is room for them. -/
theorem pushLines_succeeds {p : Piece} (hlines : LineTable.Increasing p.lines)
    (hstart : Within load p.start) (hstop : Within load p.stop) (fits : t.Fits p) :
    ∃ numbers t', t.pushLines load p.start p.stop p.lines = .ok (numbers, t') ∧
      Lays load t t' [] [] [p] := by
  have hblocks := fits.blocks
  have hrows := within_of_mem_groups hlines hstart hstop
  obtain ⟨blocks, hpush, hnew⟩ := pushBlocks_succeeds (t := t)
    (fun g hg => LineTable.ne_nil_of_mem_groups hg) hrows fits.places
  have hafter : (t.lineBlocks ++ blocks).length < UInt32.size := by
    rw [List.length_append, hnew.length_eq]
    exact hblocks
  have hbegin : count t.lineBlocks.length .line = .ok _ := count_of_lt (by omega)
  have hend : count (t.lineBlocks ++ blocks).length .line = .ok _ := count_of_lt hafter
  refine ⟨_, _, bind_eq_ok.2 ⟨_, hbegin, bind_eq_ok.2 ⟨_, hpush, bind_eq_ok.2 ⟨_, hend, rfl⟩⟩⟩,
    ⟨[], (List.append_nil _).symm, .nil⟩, ⟨[], (List.append_nil _).symm, .nil⟩,
    ⟨blocks, rfl, ?_⟩, ?_⟩
  · rw [List.flatMap_cons, List.flatMap_nil, List.append_nil]
    exact hnew
  · rw [List.flatMap_cons, List.flatMap_nil, List.append_nil]
    rfl

/-- The addresses that a call shares with the calls around it are within reach if those that the
latter share are. -/
theorem within_shared {start stop : UInt64} {s : Scope} {outer : List Scope}
    (hlow : Within load (Scope.shared start stop outer).1)
    (hhigh : Within load (Scope.shared start stop outer).2)
    (hshared : Scope.isShared start stop (s :: outer) = true) :
    Within load (Scope.shared start stop (s :: outer)).1 ∧
      Within load (Scope.shared start stop (s :: outer)).2 := by
  have hlt : (Scope.shared start stop (s :: outer)).1 < (Scope.shared start stop (s :: outer)).2 :=
    of_decide_eq_true hshared
  obtain ⟨hfrom, hto⟩ := Scope.shared_cons start stop s outer
  exact ⟨hlow.between hhigh hfrom (UInt64.le_of_lt (UInt64.lt_of_lt_of_le hlt hto)),
    hlow.between hhigh (UInt64.le_of_lt (UInt64.lt_of_le_of_lt hfrom hlt)) hto⟩

theorem lays_withInlinee {r : InlineeRecord} {p : Piece} (h : CallAt load r p) :
    Lays load t (t.withInlinee r) [] [p] [] :=
  ⟨⟨[], (List.append_nil _).symm, .nil⟩, ⟨[r], rfl, .cons h .nil⟩,
    ⟨[], (List.append_nil _).symm, .nil⟩, (List.append_nil _).symm⟩

theorem lays_withRange {r : RangeRecord} {c : Claim OuterScope} (h : RangeAt load r c) :
    Lays load t (t.withRange r) [c] [] [] :=
  ⟨⟨[r], rfl, .cons h .nil⟩, ⟨[], (List.append_nil _).symm, .nil⟩,
    ⟨[], (List.append_nil _).symm, .nil⟩, (List.append_nil _).symm⟩

mutual

/-- An inlined call can be added if the addresses that it shares with the calls around it are within
reach. -/
theorem pushInlinee_succeeds {pools : Pools} {start stop : UInt64} {s : Scope} {outer : List Scope}
    (parent depth : UInt32) {t : Tables} (hs : s.Whole pools)
    (hlow : Within load (Scope.shared start stop outer).1)
    (hhigh : Within load (Scope.shared start stop outer).2)
    (room : t.Room (Piece.ofChains start stop (Scope.chains outer s))
      (Piece.ofChains start stop (Scope.chains outer s))) :
    ∃ t', t.pushInlinee load (Scope.shared start stop outer).1 (Scope.shared start stop outer).2
        parent depth s = .ok t' ∧
      Lays load t t' [] (Piece.ofChains start stop (Scope.chains outer s))
        (Piece.ofChains start stop (Scope.chains outer s)) := by
  by_cases hshared : Scope.isShared start stop (s :: outer) = true
  · obtain ⟨scopeStart, scopeStop, function, lines, inlinees⟩ := s
    obtain ⟨hwithinLow, hwithinHigh⟩ := within_shared hlow hhigh hshared
    -- the call itself is the first piece, and those inside it are cut to what it shares
    let chain : List Scope := ⟨scopeStart, scopeStop, function, lines, inlinees⟩ :: outer
    have hpieces : Piece.ofChains start stop (Scope.chains outer
        ⟨scopeStart, scopeStop, function, lines, inlinees⟩) =
          [Piece.ofChain start stop chain] ++
            Piece.ofChains start stop (Scope.chainsOf chain inlinees) := by
      rw [Scope.chains, Piece.ofChains, List.filter_cons_of_pos hshared]
      rfl
    rw [hpieces] at room ⊢
    have hlt := of_decide_eq_true hshared
    have hindex := room.inlinees
    rw [List.length_append, List.length_singleton] at hindex
    obtain ⟨⟨firstBlock, blocks⟩, t₁, ht₁, hlines⟩ := pushLines_succeeds (t := t)
      (p := Piece.ofChain start stop chain) hs.lines hwithinLow hwithinHigh room.front.fits
    let r : InlineeRecord := ⟨distance load (Scope.shared start stop chain).1,
      distance load (Scope.shared start stop chain).2, function, parent, depth, firstBlock, blocks⟩
    have hone : Lays load t (t₁.withInlinee r) [] [Piece.ofChain start stop chain]
        [Piece.ofChain start stop chain] :=
      hlines.append (lays_withInlinee
        ⟨offset_distance hwithinLow, offset_distance hwithinHigh⟩)
    obtain ⟨t₂, ht₂, hothers⟩ := pushInlinees_succeeds (UInt32.ofNat t.inlinees.length)
      (depth + 1) hs.inlinees hwithinLow hwithinHigh (room.back hone)
    refine ⟨t₂, ?_, hone.append hothers⟩
    rw [pushInlinee]
    refine (if_pos hlt).trans ?_
    refine bind_eq_ok.2 ⟨_, count_of_lt (by omega), ?_⟩
    refine bind_eq_ok.2 ⟨_, relative_of_within hwithinLow, ?_⟩
    refine bind_eq_ok.2 ⟨_, relative_of_within hwithinHigh, ?_⟩
    exact bind_eq_ok.2 ⟨_, ht₁, ht₂⟩
  · rw [Piece.ofChains, Scope.filter_chains_eq_nil hshared]
    have hlt : ¬ max s.start (Scope.shared start stop outer).1 <
        min s.stop (Scope.shared start stop outer).2 :=
      fun hlt => hshared (decide_eq_true hlt)
    exact ⟨t, pushInlinee_of_not_lt hlt, .refl t⟩

theorem pushInlinees_succeeds {pools : Pools} {start stop : UInt64} {l outer : List Scope}
    (parent depth : UInt32) {t : Tables} (hl : ∀ s ∈ l, s.Whole pools)
    (hlow : Within load (Scope.shared start stop outer).1)
    (hhigh : Within load (Scope.shared start stop outer).2)
    (room : t.Room (Piece.ofChains start stop (Scope.chainsOf outer l))
      (Piece.ofChains start stop (Scope.chainsOf outer l))) :
    ∃ t', t.pushInlinees load (Scope.shared start stop outer).1 (Scope.shared start stop outer).2
        parent depth l = .ok t' ∧
      Lays load t t' [] (Piece.ofChains start stop (Scope.chainsOf outer l))
        (Piece.ofChains start stop (Scope.chainsOf outer l)) := by
  cases l with
  | nil => exact ⟨t, rfl, .refl t⟩
  | cons s rest =>
      obtain ⟨hs, hrest⟩ := List.forall_mem_cons.1 hl
      rw [Scope.chainsOf, Piece.ofChains_append] at room ⊢
      obtain ⟨t₁, ht₁, hfirst⟩ := pushInlinee_succeeds parent depth hs hlow hhigh room.front
      obtain ⟨t₂, ht₂, hothers⟩ :=
        pushInlinees_succeeds parent depth hrest hlow hhigh (room.back hfirst)
      exact ⟨t₂, bind_eq_ok.2 ⟨t₁, ht₁, ht₂⟩, hfirst.append hothers⟩

end

/-- A range that can be laid out if it is within reach: it is part of its scope, whose lines are in
order. -/
structure Layable (pools : Pools) (c : Claim OuterScope) : Prop where
  nonempty : c.start < c.stop
  start_le : c.value.scope.start ≤ c.start
  stop_le : c.stop ≤ c.value.scope.stop
  whole : c.value.scope.Whole pools

theorem pushRange_succeeds {pools : Pools} {c : Claim OuterScope} (hc : Layable pools c)
    (hreach : InReach load c) (room : t.Room (callPieces c) (rangePieces c)) :
    ∃ t', t.pushRange load c = .ok t' ∧ Lays load t t' [c] (callPieces c) (rangePieces c) := by
  -- the range lies in its own scope, so the calls in it are cut to the range alone
  have hshared := Scope.shared_outermost hc.start_le hc.stop_le
  let own : Piece := ⟨c.start, c.stop, c.value.scope.lines⟩
  have room : t.Room ([] ++ callPieces c) ([own] ++ callPieces c) := room
  obtain ⟨⟨firstBlock, blocks⟩, t₁, ht₁, hlines⟩ := pushLines_succeeds (p := own) hc.whole.lines
    hreach.1 hreach.2 room.front.fits
  have hroom := room.back hlines
  have hlow : Within load (Scope.shared c.start c.stop [c.value.scope]).1 := by
    rw [hshared]
    exact hreach.1
  have hhigh : Within load (Scope.shared c.start c.stop [c.value.scope]).2 := by
    rw [hshared]
    exact hreach.2
  obtain ⟨t₂, ht₂, hcalls⟩ := pushInlinees_succeeds absent 1 hc.whole.inlinees hlow hhigh hroom
  rw [hshared] at ht₂
  have hfits := hroom.inlinees
  have hbefore : count t₁.inlinees.length .inlinee = .ok _ := count_of_lt (by omega)
  have hafter : count t₂.inlinees.length .inlinee = .ok _ :=
    count_of_lt (hcalls.length_inlinees ▸ hfits)
  have hlays (r : RangeRecord) (hr : RangeAt load r c) :
      Lays load t (t₂.withRange r) [c] (callPieces c) (rangePieces c) := by
    have hall := (hlines.append hcalls).append (lays_withRange hr)
    simp only [List.append_nil] at hall
    exact hall
  exact ⟨_, bind_eq_ok.2 ⟨_, relative_of_within hreach.1, bind_eq_ok.2 ⟨_,
    relative_of_within hreach.2, bind_eq_ok.2 ⟨_, ht₁, bind_eq_ok.2 ⟨_, hbefore, bind_eq_ok.2 ⟨_,
    ht₂, bind_eq_ok.2 ⟨_, hafter, rfl⟩⟩⟩⟩⟩⟩,
    hlays _ ⟨offset_distance hreach.1, offset_distance hreach.2⟩⟩

/-- A range out of reach is refused before anything of it is laid out. -/
theorem pushRange_refused {c : Claim OuterScope} (h : ¬ InReach load c) :
    t.pushRange load c = .error (.tooLarge .address) := by
  rw [pushRange]
  by_cases hstart : Within load c.start
  · have hstop : ¬ Within load c.stop := fun hstop => h ⟨hstart, hstop⟩
    rw [relative_of_within hstart, relative_of_not_within hstop]
    rfl
  · rw [relative_of_not_within hstart]
    rfl

/-- Ranges are laid out one after the other, up to the first one out of reach. -/
theorem foldlM_pushRange_cases (load : UInt64) {pools : Pools} {ranges : List (Claim OuterScope)}
    (hranges : ∀ c ∈ ranges, Layable pools c)
    (room : t.Room (ranges.flatMap callPieces) (ranges.flatMap rangePieces)) :
    (∀ c ∈ ranges, InReach load c) ∧ (∃ t', ranges.foldlM (pushRange load) t = .ok t' ∧
        Lays load t t' ranges (ranges.flatMap callPieces) (ranges.flatMap rangePieces)) ∨
      (∃ c ∈ ranges, ¬ InReach load c) ∧
        ranges.foldlM (pushRange load) t = .error (.tooLarge .address) := by
  induction ranges generalizing t with
  | nil => exact .inl ⟨by simp, t, rfl, .refl t⟩
  | cons c rest ih =>
      obtain ⟨hc, hrest⟩ := List.forall_mem_cons.1 hranges
      rw [List.flatMap_cons, List.flatMap_cons] at room ⊢
      rw [List.foldlM_cons]
      by_cases hreach : InReach load c
      · obtain ⟨t₁, ht₁, hfirst⟩ := pushRange_succeeds hc hreach room.front
        rw [ht₁]
        rcases ih hrest (room.back hfirst) with ⟨hall, t', ht', hothers⟩ | ⟨⟨d, hd, hout⟩, herror⟩
        · exact .inl ⟨List.forall_mem_cons.2 ⟨hreach, hall⟩, t', ht', hfirst.append hothers⟩
        · exact .inr ⟨⟨d, List.mem_cons_of_mem _ hd, hout⟩, herror⟩
      · rw [pushRange_refused hreach]
        exact .inr ⟨⟨c, List.mem_cons_self .., hreach⟩, rfl⟩

end Tables

end Postmortem.SymCache
