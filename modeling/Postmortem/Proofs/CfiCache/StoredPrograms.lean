import Postmortem.CfiCache.Reader
import Postmortem.Proofs.CfiCache.Fragments
import Postmortem.Proofs.Distances
import Postmortem.Proofs.Outcomes
import Postmortem.Proofs.StoredTables
import Postmortem.Proofs.StringOffsets

/-!
# Stored programs

A program is read back from the bytes that were written for it, with the strings of any later state
of the string table, as long as none of its texts is empty and its changes lie behind its start.
-/

set_option autoImplicit false

namespace Postmortem

theorem addExact?_sub {base a : UInt64} (h : base ≤ a) : addExact? base (a - base) = some a := by
  have hle := UInt64.le_iff_toNat_le.1 h
  have hsum : base.toNat + (a - base).toNat = a.toNat := by
    rw [toNat_sub_of_le hle]
    omega
  rw [addExact?, if_pos (by rw [hsum]; exact a.toNat_lt), Option.some.injEq]
  apply UInt64.toNat_inj.1
  rw [UInt64.toNat_add, hsum]
  exact Nat.mod_eq_of_lt a.toNat_lt

namespace CfiCache

open StringTable (Holds)

structure StringsOf (t : StringTable) (strings : Bytes) : Prop where
  grown : t.toBytes <+: strings
  fits : strings.length < UInt32.size

theorem StringsOf.mono {t t' : StringTable} {strings : Bytes} (h : StringsOf t' strings)
    (ht : t.toBytes <+: t'.toBytes) : StringsOf t strings :=
  ⟨ht.trans h.grown, h.fits⟩

theorem insertText_spec {t t' : StringTable} {text : String} {offset : UInt32} (ht : t.Sound)
    (h : insertText t text = .ok (offset, t')) :
    t'.Sound ∧ t.toBytes <+: t'.toBytes ∧
      (text.isEmpty = false → ∀ strings, StringsOf t' strings → ∀ rest,
        readText? strings (Leb128.ofNat offset.toNat ++ rest) = some (text, rest)) := by
  obtain ⟨hsound, hgrown, hholds⟩ := StringTable.insert?_sound ht (orFault_eq_ok.1 h)
  refine ⟨hsound, hgrown, ?_⟩
  intro hne strings hstrings rest
  have hread := StringTable.read?_of_holds (hholds.mono hstrings.grown) hstrings.fits
  rw [StringTable.shown, if_neg (by simp [hne])] at hread
  rw [readText?, Leb128.read32_ofNat]
  refine Option.bind_eq_some_iff.2 ⟨offset, rfl, ?_⟩
  exact Option.bind_eq_some_iff.2 ⟨text, hread, rfl⟩

theorem encodeDeltas_spec {deltas : List (UInt64 × String)} {previous : UInt64}
    {t t' : StringTable} {bytes : Bytes} (ht : t.Sound)
    (h : encodeDeltas previous t deltas = .ok (bytes, t')) :
    t'.Sound ∧ t.toBytes <+: t'.toBytes ∧
      ((∀ d ∈ deltas, d.2.isEmpty = false) →
        (previous :: deltas.map Prod.fst).Pairwise (· < ·) →
        ∀ strings, StringsOf t' strings → ∀ rest,
          readDeltas? strings deltas.length previous (bytes ++ rest) = some deltas) := by
  induction deltas generalizing previous t bytes with
  | nil =>
      cases h
      exact ⟨ht, List.prefix_refl _, fun _ _ _ _ _ => rfl⟩
  | cons d deltas ih =>
      obtain ⟨a, text⟩ := d
      obtain ⟨⟨offset, t₁⟩, hinsert, h⟩ := bind_eq_ok.1 h
      obtain ⟨⟨others, t₂⟩, hothers, h⟩ := bind_eq_ok.1 h
      cases h
      obtain ⟨hsound₁, hgrown₁, hread₁⟩ := insertText_spec ht hinsert
      obtain ⟨hsound₂, hgrown₂, hread₂⟩ := ih hsound₁ hothers
      refine ⟨hsound₂, hgrown₁.trans hgrown₂, ?_⟩
      intro htexts hsorted strings hstrings rest
      rw [List.map_cons, List.pairwise_cons] at hsorted
      have hlt : previous < a := hsorted.1 a (List.mem_cons_self ..)
      have htext := hread₁ (htexts (a, text) (List.mem_cons_self ..))
      have hlater := hread₂ (fun d hd => htexts d (List.mem_cons_of_mem _ hd)) hsorted.2
      rw [List.length_cons, readDeltas?, List.append_assoc, List.append_assoc,
        Leb128.read_encode]
      refine Option.bind_eq_some_iff.2 ⟨a - previous, rfl, ?_⟩
      refine Option.bind_eq_some_iff.2 ⟨a, addExact?_sub (UInt64.le_of_lt hlt), ?_⟩
      refine Option.bind_eq_some_iff.2 ⟨(text, others ++ rest), ?_, ?_⟩
      · exact htext strings (hstrings.mono hgrown₂) (others ++ rest)
      · exact Option.bind_eq_some_iff.2 ⟨deltas, hlater strings hstrings rest, rfl⟩

theorem length_of_increasing {first : UInt64} {addresses : List UInt64}
    (h : (first :: addresses).Pairwise (· < ·)) :
    first.toNat + addresses.length < UInt64.size := by
  induction addresses generalizing first with
  | nil => exact first.toNat_lt
  | cons a addresses ih =>
      rw [List.pairwise_cons] at h
      have hlt := UInt64.lt_iff_toNat_lt.1 (h.1 a (List.mem_cons_self ..))
      have hrest := ih h.2
      rw [List.length_cons]
      omega

/-- Whether a program can be stored for a range that starts at `start`. -/
structure Storable (start : UInt64) (p : Program) : Prop where
  init : p.init.isEmpty = false
  texts : ∀ d ∈ p.deltas, d.2.isEmpty = false
  sorted : (start :: p.deltas.map Prod.fst).Pairwise (· < ·)

theorem storable_clip {p : Program} (h : p.Sound) (start stop : UInt64) :
    Storable start (p.clip start stop) := by
  have hclip := h.clip start stop
  refine ⟨hclip.init.isEmpty, fun d hd => (hclip.texts d hd).isEmpty, ?_⟩
  refine List.pairwise_cons.2 ⟨?_, hclip.sorted⟩
  intro a ha
  obtain ⟨d, hd, rfl⟩ := List.mem_map.1 ha
  have hinside := (List.mem_filter.1 hd).2
  rw [Bool.and_eq_true, decide_eq_true_eq] at hinside
  exact hinside.1

/-- A program that can be stored is read back wherever its bytes stand. -/
theorem encodeProgram_spec {start : UInt64} {p : Program} {t t' : StringTable} {bytes : Bytes}
    (ht : t.Sound) (h : encodeProgram start t p = .ok (bytes, t')) :
    t'.Sound ∧ t.toBytes <+: t'.toBytes ∧
      (Storable start p → ∀ s : CfiCache, StringsOf t' s.strings →
        ∀ offset : UInt32, offset.toNat ≤ s.programs.length →
          bytes <+: s.programs.drop offset.toNat → s.readProgram? start offset = some p) := by
  obtain ⟨⟨offset, t₁⟩, hinsert, h⟩ := bind_eq_ok.1 h
  obtain ⟨⟨deltas, t₂⟩, hdeltas, h⟩ := bind_eq_ok.1 h
  cases h
  obtain ⟨hsound₁, hgrown₁, hinit⟩ := insertText_spec ht hinsert
  obtain ⟨hsound₂, hgrown₂, hread⟩ := encodeDeltas_spec hsound₁ hdeltas
  refine ⟨hsound₂, hgrown₁.trans hgrown₂, ?_⟩
  intro hp s hstrings place hplace hbytes
  obtain ⟨rest, hrest⟩ := hbytes
  have hlength : p.deltas.length < UInt64.size := by
    have := length_of_increasing hp.sorted
    rw [List.length_map] at this
    omega
  have hcount : (UInt64.ofNat p.deltas.length).toNat = p.deltas.length := by
    rw [UInt64.toNat_ofNat']
    exact Nat.mod_eq_of_lt hlength
  rw [readProgram?, if_neg (Nat.not_lt.2 hplace), ← hrest, List.append_assoc, List.append_assoc]
  refine Option.bind_eq_some_iff.2 ⟨_, hinit hp.init s.strings (hstrings.mono hgrown₂) _, ?_⟩
  dsimp only
  rw [Leb128.read_ofNat _ _ hlength]
  refine Option.bind_eq_some_iff.2 ⟨_, rfl, ?_⟩
  rw [hcount]
  exact Option.bind_eq_some_iff.2
    ⟨p.deltas, hread hp.texts hp.sorted s.strings hstrings rest, rfl⟩

end CfiCache

end Postmortem
