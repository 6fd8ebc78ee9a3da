import Postmortem.Proofs.Distances
import Postmortem.Proofs.Floors
import Postmortem.Proofs.RelatedLists
import Postmortem.Proofs.SymCache.LineReadings
import Postmortem.Proofs.VarInts
import Postmortem.SymCache.Lookup

/-!
# Line tables as they are stored

The rows of a line table are stored in blocks, the rows of a block behind its first as differences.
Searching the blocks for an address finds the last row up to it.
-/

set_option autoImplicit false

namespace Postmortem.SymCache

namespace LineTable

def recordOf (load : UInt64) (r : LineRow) : Record := ⟨distance load r.address, r.line, r.file⟩

def fileNumber (file : UInt32) : Nat := if file = absent then 0 else file.toNat + 1

theorem fileNumber_lt (file : UInt32) : fileNumber file < UInt64.size := by
  have h := file.toNat_lt
  rw [fileNumber]
  split
  · decide
  · simp only [UInt64.size]
    omega

def fileOf? (n : UInt64) : Option UInt32 :=
  if n = 0 then some absent
  else if n.toNat ≤ UInt32.size then some (UInt32.ofNat (n.toNat - 1)) else none

theorem fileOf?_fileNumber (file : UInt32) :
    fileOf? (UInt64.ofNat (fileNumber file)) = some file := by
  have hlt := file.toNat_lt
  rw [fileNumber]
  split
  · rename_i habsent
    rw [habsent]
    rfl
  · have hnat : (UInt64.ofNat (file.toNat + 1)).toNat = file.toNat + 1 := by
      rw [UInt64.toNat_ofNat']
      exact Nat.mod_eq_of_lt (by omega)
    have hne : UInt64.ofNat (file.toNat + 1) ≠ 0 := by
      intro h
      rw [h] at hnat
      simp at hnat
    rw [fileOf?, if_neg hne, hnat, if_pos (by simp only [UInt32.size]; omega), Nat.add_sub_cancel,
      UInt32.ofNat_toNat]

theorem toInt_lineDifference (a b : UInt32) :
    (Int64.ofInt ((b.toNat : Int) - a.toNat)).toInt = (b.toNat : Int) - a.toNat := by
  have ha := a.toNat_lt
  have hb := b.toNat_lt
  exact Int64.toInt_ofInt_of_le (by omega) (by omega)

theorem readSigned_lineDifference (a b : UInt32) (rest : Bytes) :
    Leb128.readSigned (Leb128.ofInt ((b.toNat : Int) - a.toNat) ++ rest) =
      (some (Int64.ofInt ((b.toNat : Int) - a.toNat)), rest) := by
  have ha := a.toNat_lt
  have hb := b.toNat_lt
  have hmin : Int64.minValue.toInt = -9223372036854775808 := by decide
  have hmax : Int64.maxValue.toInt = 9223372036854775807 := by decide
  exact Leb128.readSigned_ofInt _ rest (by omega) (by omega)

/-- Only the first row of a clipped table may lie outside the part that is left, and it is moved to
its start. -/
theorem within_of_mem_clip {load start stop : UInt64} {rows : List LineRow} {r : LineRow}
    (h : Increasing rows) (hstart : Within load start) (hstop : Within load stop)
    (hr : r ∈ clip start stop rows) : Within load r.address := by
  rw [clip_eq start stop h] at hr
  rcases List.mem_append.1 hr with hr | hr
  · rw [Option.mem_toList, Option.map_eq_some_iff] at hr
    obtain ⟨s, -, rfl⟩ := hr
    exact hstart
  · obtain ⟨hlow, hhigh⟩ := mem_clipTail h hr
    exact hstart.between hstop (UInt64.le_of_lt hlow) (UInt64.le_of_lt hhigh)

/-- The next row is read back behind the one before it. -/
theorem next?_encodeFrom {load : UInt64} {previous r : LineRow} (rest : List LineRow)
    (more : Bytes) (hprevious : Within load previous.address) (hr : Within load r.address)
    (hle : previous.address ≤ r.address) :
    (recordOf load previous).next? (encodeFrom previous (r :: rest) ++ more) =
      some (recordOf load r, encodeFrom r rest ++ more) := by
  have hstep : (distance load previous.address).toNat + (r.address - previous.address).toNat =
      (distance load r.address).toNat := by
    have h₁ := hprevious.1
    have h₂ := UInt64.le_iff_toNat_le.1 hle
    rw [hprevious.toNat_distance, hr.toNat_distance, toNat_sub_of_le h₂]
    omega
  have hline : (previous.line.toNat : Int) + ((r.line.toNat : Int) - previous.line.toNat) =
      (r.line.toNat : Int) := by omega
  have hbounds : (distance load r.address).toNat < UInt32.size ∧ (0 : Int) ≤ r.line.toNat ∧
      (r.line.toNat : Int) < UInt32.size := by
    have h₁ := (distance load r.address).toNat_lt
    have h₂ := r.line.toNat_lt
    simp only [UInt32.size]
    omega
  have hread : encodeFrom previous (r :: rest) ++ more =
      Leb128.encode (r.address - previous.address) ++
        (Leb128.ofInt ((r.line.toNat : Int) - previous.line.toNat) ++
          (Leb128.ofNat (fileNumber r.file) ++ (encodeFrom r rest ++ more))) := by
    simp only [encodeFrom, fileNumber, List.append_assoc]
  have hfile := fileOf?_fileNumber r.file
  rw [hread, Record.next?]
  simp only [Leb128.read_encode, readSigned_lineDifference,
    Leb128.read_ofNat _ _ (fileNumber_lt r.file), Option.bind_eq_bind, Option.bind_some,
    recordOf, toInt_lineDifference, hstep, hline, if_pos hbounds, Int.toNat_natCast,
    UInt32.ofNat_toNat]
  rw [fileOf?] at hfile
  split at hfile
  · rw [if_pos ‹_›, Option.some.inj hfile]
    rfl
  · rw [if_neg ‹_›]
    split at hfile
    · rw [if_pos ‹_›, Option.some.inj hfile]
      rfl
    · cases hfile

/-- Reading on from the first of some rows ends at the last one up to the address. -/
theorem advance_encodeFrom {load a : UInt64} {head : LineRow} {rest : List LineRow} (more : Bytes)
    (hrows : Increasing (head :: rest)) (hwithin : ∀ r ∈ head :: rest, Within load r.address)
    (ha : Within load a) (hle : head.address ≤ a) :
    some (Record.advance (distance load a) rest.length (recordOf load head)
        (encodeFrom head rest ++ more)) =
      (rowAt? a (head :: rest)).map (recordOf load) := by
  induction rest generalizing head with
  | nil =>
      rw [rowAt?_of_le (by simpa using hle)]
      rfl
  | cons r rest ih =>
      obtain ⟨hhead, hrest⟩ := List.pairwise_cons.1 hrows
      have hr : Within load r.address := hwithin r (by simp)
      have hlt : head.address < r.address := hhead r (List.mem_cons_self ..)
      have hsplit : rowAt? a (head :: r :: rest) = (rowAt? a (r :: rest)).or (some head) := by
        have hone : rowAt? a [head] = some head := rowAt?_of_le (by simpa using hle)
        have h := rowAt?_append a [head] (r :: rest)
        rwa [hone] at h
      rw [List.length_cons, Record.advance, next?_encodeFrom rest more (hwithin head (by simp)) hr
        (UInt64.le_of_lt hlt)]
      rw [hsplit]
      dsimp only
      have hgoal : (recordOf load r).address ≤ distance load a ↔ r.address ≤ a :=
        distance_le_iff hr ha
      by_cases hra : r.address ≤ a
      · have hnext := ih hrest (fun s hs => hwithin s (List.mem_cons_of_mem _ hs)) hra
        rw [if_pos (hgoal.2 hra), hnext]
        cases hrow : rowAt? a (r :: rest) with
        | none =>
            rw [hrow] at hnext
            cases hnext
        | some s => rfl
      · have hnone : rowAt? a (r :: rest) = none := by
          apply rowAt?_eq_none
          intro s hs
          rcases List.mem_cons.1 hs with rfl | hs
          · exact UInt64.not_le.1 hra
          · exact UInt64.lt_trans (UInt64.not_le.1 hra) ((List.pairwise_cons.1 hrest).1 s hs)
        rw [if_neg (fun h => hra (hgoal.1 h)), hnone]
        rfl

/-! ## Blocks -/

theorem flatten_groups {α : Type} (n : Nat) (l : List α) : (groups n l).flatten = l := by
  fun_induction groups n l with
  | case1 => rfl
  | case2 a rest ih =>
      rw [List.flatten_cons, ih, List.cons_append, List.take_append_drop]

theorem length_tail_groups {α : Type} {n : Nat} {l g : List α} (h : g ∈ groups n l) :
    g.tail.length ≤ n := by
  fun_induction groups n l with
  | case1 => simp at h
  | case2 a rest ih =>
      rcases List.mem_cons.1 h with rfl | h
      · rw [List.tail_cons, List.length_take]
        exact Nat.min_le_left _ _
      · exact ih h

theorem ne_nil_of_mem_groups {α : Type} {n : Nat} {l g : List α} (h : g ∈ groups n l) :
    g ≠ [] := by
  fun_induction groups n l with
  | case1 => simp at h
  | case2 a rest ih =>
      rcases List.mem_cons.1 h with rfl | h
      · exact List.cons_ne_nil _ _
      · exact ih h

/-- Whether a block and the line program hold some rows. -/
def BlockOf (load : UInt64) (program : Bytes) (b : LineBlock) : List LineRow → Prop
  | [] => False
  | head :: rest =>
    recordOf load head = ⟨b.address, b.line, b.file⟩ ∧ b.size.toNat = rest.length + 1 ∧
      encodeFrom head rest <+: program.drop b.program.toNat

theorem BlockOf.mono {load : UInt64} {program program' : Bytes} {b : LineBlock}
    {rows : List LineRow} (h : BlockOf load program b rows) (hp : program <+: program') :
    BlockOf load program' b rows := by
  cases rows with
  | nil => exact h
  | cons head rest =>
      obtain ⟨more, rfl⟩ := hp
      obtain ⟨hhead, hsize, hrest⟩ := h
      refine ⟨hhead, hsize, hrest.trans ?_⟩
      rw [List.drop_append]
      exact List.prefix_append _ _

theorem sorted_blocks {load : UInt64} {program : Bytes} {blocks : List LineBlock}
    {gs : List (List LineRow)} (h : List.Forall₂ (BlockOf load program) blocks gs)
    (hrows : Increasing gs.flatten) (hwithin : ∀ r ∈ gs.flatten, Within load r.address) :
    blocks.Pairwise fun b c => b.address < c.address := by
  induction h with
  | nil => exact .nil
  | @cons b g blocks gs hb h ih =>
      rw [List.flatten_cons] at hrows hwithin
      obtain ⟨-, hrest, hacross⟩ := List.pairwise_append.1 hrows
      have hrest' := ih hrest fun r hr => hwithin r (List.mem_append_right _ hr)
      refine List.pairwise_cons.2 ⟨?_, hrest'⟩
      intro c hc
      cases g with
      | nil => exact hb.elim
      | cons head rest =>
          obtain ⟨other, hother, hcother⟩ := exists_right h hc
          cases other with
          | nil => exact hcother.elim
          | cons next more =>
              have hnext : next ∈ gs.flatten :=
                List.mem_flatten.2 ⟨_, hother, List.mem_cons_self ..⟩
              have hlt := hacross head (List.mem_cons_self ..) next hnext
              rw [← distance_lt_iff (hwithin head (by simp))
                (hwithin next (List.mem_append_right _ hnext))] at hlt
              have hbaddr := congrArg Record.address hb.1
              have hcaddr := congrArg Record.address hcother.1
              simp only [recordOf] at hbaddr hcaddr
              rwa [hbaddr, hcaddr] at hlt

theorem above_of_blocks {load a : UInt64} {program : Bytes} {blocks : List LineBlock}
    {gs : List (List LineRow)} (h : List.Forall₂ (BlockOf load program) blocks gs)
    (hrows : Increasing gs.flatten) (hwithin : ∀ r ∈ gs.flatten, Within load r.address)
    (ha : Within load a) (habove : ∀ b ∈ blocks, distance load a < b.address) :
    ∀ r ∈ gs.flatten, a < r.address := by
  induction h with
  | nil => simp
  | @cons b g blocks gs hb h ih =>
      rw [List.flatten_cons] at hrows hwithin ⊢
      obtain ⟨hg, hrest, -⟩ := List.pairwise_append.1 hrows
      intro r hr
      rcases List.mem_append.1 hr with hr | hr
      · cases g with
        | nil => exact hb.elim
        | cons head rest =>
            have hlt : distance load a < distance load head.address := by
              have haddress := congrArg Record.address hb.1
              simp only [recordOf] at haddress
              rw [haddress]
              exact habove b (List.mem_cons_self ..)
            rw [distance_lt_iff ha (hwithin head (by simp))] at hlt
            rcases List.mem_cons.1 hr with rfl | hr
            · exact hlt
            · exact UInt64.lt_trans hlt ((List.pairwise_cons.1 hg).1 r hr)
      · exact ih hrest (fun r hr => hwithin r (List.mem_append_right _ hr))
          (fun b hb => habove b (List.mem_cons_of_mem _ hb)) r hr

end LineTable

open LineTable

/-- The stored form of a table is read as the table itself is. -/
theorem line?_eq {s : SymCache} {load a : UInt64} {blocks : List LineBlock}
    {gs : List (List LineRow)} (h : List.Forall₂ (BlockOf load s.lineProgram) blocks gs)
    (hrows : LineTable.Increasing gs.flatten)
    (hwithin : ∀ r ∈ gs.flatten, Within load r.address) (ha : Within load a) :
    s.line? blocks (distance load a) = (rowAt? a gs.flatten).map (recordOf load) := by
  have hsorted := sorted_blocks h hrows hwithin
  rcases Bisect.byKey_cases (·.address) blocks (distance load a) with
    habove | ⟨before, b, after, rfl, hb, hafter⟩
  · rw [line?, Bisect.floor?_byKey_eq_none habove,
      rowAt?_eq_none (above_of_blocks h hrows hwithin ha habove)]
    rfl
  · obtain ⟨gs₁, gs₂, rfl, -, h₂⟩ := forall₂_split h
    cases h₂ with
    | @cons _ g _ gs₂ hg h₂ =>
        cases g with
        | nil => exact hg.elim
        | cons head rest =>
            obtain ⟨hhead, hsize, hprogram⟩ := hg
            rw [List.flatten_append, List.flatten_cons] at hrows hwithin ⊢
            obtain ⟨-, hlater, -⟩ := List.pairwise_append.1 hrows
            obtain ⟨hrow, hrest, -⟩ := List.pairwise_append.1 hlater
            have hlast : rowAt? a gs₂.flatten = none :=
              rowAt?_eq_none (above_of_blocks h₂ hrest
                (fun r hr => hwithin r (by simp [hr])) ha hafter)
            have hle : head.address ≤ a := by
              rw [← distance_le_iff (hwithin head (by simp)) ha]
              have haddress := congrArg Record.address hhead
              simp only [recordOf] at haddress
              rw [haddress]
              exact hb
            obtain ⟨more, hmore⟩ := hprogram
            have hread := advance_encodeFrom more hrow
              (fun r hr => hwithin r (List.mem_append_right _ (List.mem_append_left _ hr))) ha hle
            rw [line?, Bisect.floor?_byKey hsorted hb hafter, rowAt?_append, rowAt?_append, hlast,
              Option.none_or, Option.map_or, ← hread, Option.some_or]
            simp [hhead, hsize, hmore]

end Postmortem.SymCache
