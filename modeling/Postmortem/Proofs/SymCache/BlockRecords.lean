import Postmortem.Proofs.SymCache.TableSlices

/-!
# What line blocks hold

A line table is stored in blocks that are full up to the last one.  All records of a block can be
read, and they are the rows that were stored in it.
-/

set_option autoImplicit false

namespace Postmortem.SymCache

def HasFile (s : SymCache) (i : UInt32) : Prop := i = absent ∨ i.toNat < s.files.length

namespace LineTable

def Record.run? : (n : Nat) → Record → Bytes → Option (List Record)
  | 0, r, _ => some [r]
  | n + 1, r, program => do
    let (next, program) ← r.next? program
    let rest ← run? n next program
    return r :: rest

end LineTable

open LineTable

def LineBlock.records? (b : LineBlock) (program : Bytes) : Option (List Record) :=
  Record.run? (b.size.toNat - 1) ⟨b.address, b.line, b.file⟩ (program.drop b.program.toNat)

/-- Whether some blocks are laid out as the line table of the code from `start` up to `stop`. -/
structure HoldsLines (s : SymCache) (start stop : UInt32) (blocks : List LineBlock) : Prop where
  size : ∀ b ∈ blocks, 1 ≤ b.size.toNat ∧ b.size.toNat ≤ blockSize
  full : ∀ b ∈ blocks.dropLast, b.size.toNat = blockSize
  increasing : blocks.Pairwise fun b c => b.address < c.address
  inside : ∀ b ∈ blocks, start ≤ b.address ∧ b.address < stop
  /-- All records can be read, not only those at the starts of the blocks. -/
  records : ∃ groups, List.Forall₂ (fun b g => b.records? s.lineProgram = some g) blocks groups ∧
    groups.flatten.Pairwise (fun x y => x.address < y.address) ∧
    ∀ x ∈ groups.flatten, (start ≤ x.address ∧ x.address < stop) ∧ s.HasFile x.file

namespace LineTable

variable {load : UInt64} {program : Bytes}

theorem run?_encodeFrom {head : LineRow} {rest : List LineRow} (more : Bytes)
    (hrows : Increasing (head :: rest)) (hwithin : ∀ r ∈ head :: rest, Within load r.address) :
    Record.run? rest.length (recordOf load head) (encodeFrom head rest ++ more) =
      some ((head :: rest).map (recordOf load)) := by
  induction rest generalizing head with
  | nil => rfl
  | cons r rest ih =>
      obtain ⟨hhead, hrest⟩ := List.pairwise_cons.1 hrows
      obtain ⟨hin, hwithin⟩ := List.forall_mem_cons.1 hwithin
      rw [List.length_cons, Record.run?, next?_encodeFrom rest more hin
        (hwithin r (List.mem_cons_self ..)) (UInt64.le_of_lt (hhead r (List.mem_cons_self ..)))]
      simp only [Option.bind_eq_bind, Option.bind_some, ih hrest hwithin]
      rfl

theorem records?_of_blockOf {b : LineBlock} {rows : List LineRow} (h : BlockOf load program b rows)
    (hrows : Increasing rows) (hwithin : ∀ r ∈ rows, Within load r.address) :
    b.records? program = some (rows.map (recordOf load)) := by
  cases rows with
  | nil => exact h.elim
  | cons head rest =>
      obtain ⟨hhead, hsize, more, hmore⟩ := h
      rw [LineBlock.records?, ← hhead, hsize, ← hmore, Nat.add_sub_cancel]
      exact run?_encodeFrom more hrows hwithin

theorem records?_of_blocks {blocks : List LineBlock} {gs : List (List LineRow)}
    (h : List.Forall₂ (BlockOf load program) blocks gs) (hrows : Increasing gs.flatten)
    (hwithin : ∀ r ∈ gs.flatten, Within load r.address) :
    List.Forall₂ (fun b g => b.records? program = some g) blocks
      (gs.map (List.map (recordOf load))) := by
  induction h with
  | nil => exact .nil
  | @cons b g blocks gs hb h ih =>
      rw [List.flatten_cons] at hrows hwithin
      obtain ⟨hg, hrest, -⟩ := List.pairwise_append.1 hrows
      exact .cons
        (records?_of_blockOf hb hg fun r hr => hwithin r (List.mem_append_left _ hr))
        (ih hrest fun r hr => hwithin r (List.mem_append_right _ hr))

theorem BlockOf.size_eq {b : LineBlock} {rows : List LineRow} (h : BlockOf load program b rows) :
    b.size.toNat = rows.length := by
  cases rows with
  | nil => exact h.elim
  | cons head rest => exact h.2.1

theorem BlockOf.address_eq {b : LineBlock} {rows : List LineRow}
    (h : BlockOf load program b rows) : ∃ r ∈ rows, b.address = distance load r.address := by
  cases rows with
  | nil => exact h.elim
  | cons head rest =>
      exact ⟨head, List.mem_cons_self .., (congrArg Record.address h.1).symm⟩

theorem length_of_mem_groups {α : Type} {n : Nat} {l g : List α} (h : g ∈ groups n l) :
    1 ≤ g.length ∧ g.length ≤ n + 1 := by
  have hpos := List.length_pos_iff.2 (ne_nil_of_mem_groups h)
  have htail := length_tail_groups h
  rw [List.length_tail] at htail
  omega

/-- Only the last group may be smaller than the others. -/
theorem length_of_mem_dropLast_groups {α : Type} {n : Nat} {l g : List α}
    (h : g ∈ (groups n l).dropLast) : g.length = n + 1 := by
  fun_induction groups n l with
  | case1 => simp at h
  | case2 a rest ih =>
      by_cases hlast : groups n (rest.drop n) = []
      · rw [hlast] at h
        simp at h
      · rw [List.dropLast_cons_of_ne_nil hlast] at h
        rcases List.mem_cons.1 h with rfl | h
        · -- something is left for another group, so this one is full
          have hlong : n < rest.length := by
            by_contra hshort
            rw [List.drop_eq_nil_of_le (Nat.not_lt.1 hshort)] at hlast
            exact hlast (by rw [groups])
          rw [List.length_cons, List.length_take, Nat.min_eq_left (Nat.le_of_lt hlong)]
        · exact ih h

end LineTable

open Tables (LinesAt)

theorem holdsLines_of_linesAt {s : SymCache} {load low high : UInt64} {slice : Slice}
    {rows : List LineRow} (h : LinesAt load s.tables slice.first slice.count rows)
    (hrows : LineTable.Increasing rows) (hinside : ∀ r ∈ rows, low ≤ r.address ∧ r.address < high)
    (hfiles : ∀ r ∈ rows, s.HasFile r.file) (hlow : Within load low) (hhigh : Within load high) :
    HoldsLines s (distance load low) (distance load high) (slice.of s.lineBlocks) := by
  obtain ⟨-, hblocks⟩ := h
  have hwithin : ∀ r ∈ rows, Within load r.address := fun r hr =>
    hlow.between hhigh (hinside r hr).1 (UInt64.le_of_lt (hinside r hr).2)
  have hplaced : ∀ r ∈ rows,
      distance load low ≤ distance load r.address ∧
        distance load r.address < distance load high := by
    intro r hr
    rw [distance_le_iff hlow (hwithin r hr), distance_lt_iff (hwithin r hr) hhigh]
    exact hinside r hr
  have hgroups := flatten_groups (blockSize - 1) rows
  have hrecords := records?_of_blocks hblocks (by rwa [hgroups]) (by rwa [hgroups])
  refine ⟨?_, ?_, ?_, ?_, _, hrecords, ?_, ?_⟩
  · intro b hb
    obtain ⟨g, hg, hbg⟩ := exists_right hblocks hb
    rw [hbg.size_eq]
    exact length_of_mem_groups hg
  · intro b hb
    have hfront : List.Forall₂ (BlockOf load s.lineProgram) (slice.of s.lineBlocks).dropLast
        (groups (blockSize - 1) rows).dropLast := by
      rw [List.dropLast_eq_take, List.dropLast_eq_take, ← hblocks.length_eq]
      exact List.forall₂_take _ hblocks
    obtain ⟨g, hg, hbg⟩ := exists_right hfront hb
    rw [hbg.size_eq]
    exact length_of_mem_dropLast_groups hg
  · exact sorted_blocks hblocks (by rwa [hgroups]) (by rwa [hgroups])
  · intro b hb
    obtain ⟨g, hg, hbg⟩ := exists_right hblocks hb
    obtain ⟨r, hr, haddress⟩ := hbg.address_eq
    rw [haddress]
    exact hplaced r (hgroups ▸ List.mem_flatten_of_mem hg hr)
  · rw [← List.map_flatten, hgroups, List.pairwise_map]
    refine (List.Pairwise.and_mem.1 hrows).imp ?_
    rintro r r' ⟨hr, hr', hlt⟩
    exact (distance_lt_iff (hwithin r hr) (hwithin r' hr')).2 hlt
  · rw [← List.map_flatten, hgroups]
    intro x hx
    obtain ⟨r, hr, rfl⟩ := List.mem_map.1 hx
    exact ⟨hplaced r hr, hfiles r hr⟩

end Postmortem.SymCache
