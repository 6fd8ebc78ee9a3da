import Postmortem.Proofs.CfiCache.RuleSets
import Postmortem.Proofs.RecordsInEffect

/-!
# Clipped programs

A clipped program begins with the text of the rules that were in effect at its start, so reading
this text has to give the same rules in the same order.  It does so whatever the texts are that the
rules come from.  Then a part of a program has the rules of the whole program at each of its
addresses, and a part of a part is the part itself.
-/

set_option autoImplicit false

namespace Postmortem.CfiCache

namespace RuleSet

theorem wellFormed_foldl {s : RuleSet} (h : s.WellFormed) (programs : List String) :
    (programs.foldl apply s).WellFormed := by
  induction programs generalizing s with
  | nil => exact h
  | cons program programs ih => exact ih (h.apply program)

end RuleSet

namespace Program

theorem fold_append (init : String) (deltas more : List (UInt64 × String)) :
    fold init (deltas ++ more) = more.foldl (fun s d => s.apply d.2) (fold init deltas) :=
  List.foldl_append

theorem wellFormed_fold (init : String) (deltas : List (UInt64 × String)) :
    (fold init deltas).WellFormed := by
  have h := RuleSet.wellFormed_foldl (RuleSet.wellFormed_parse init) (deltas.map Prod.snd)
  rwa [List.foldl_map] at h

/-! ## Changes up to an address -/

variable {deltas : List (UInt64 × String)}

theorem comeFirst_of_sorted (sorted : (deltas.map Prod.fst).Pairwise (· ≤ ·)) (a : UInt64) :
    ComeFirst (·.1 ≤ a) deltas :=
  comeFirst_le Prod.fst (List.pairwise_map.1 sorted) a

/-- The changes up to an address are those up to an earlier one, and then those in between. -/
theorem filter_split (sorted : (deltas.map Prod.fst).Pairwise (· ≤ ·)) {start a : UInt64}
    (hle : start ≤ a) :
    deltas.filter (·.1 ≤ a) =
      deltas.filter (·.1 ≤ start) ++ deltas.filter fun d => start < d.1 && d.1 ≤ a := by
  have hsplit := congrArg (List.filter fun d => decide (d.1 ≤ a))
    (comeFirst_of_sorted sorted start).filter_append
  rw [List.filter_append, List.filter_filter, List.filter_filter] at hsplit
  rw [← hsplit]
  congr 1
  · apply List.filter_congr
    intro d _
    by_cases hd : d.1 ≤ start
    · simp [hd, UInt64.le_trans hd hle]
    · simp [hd]
  · apply List.filter_congr
    intro d _
    by_cases hd : d.1 ≤ start
    · simp [hd, UInt64.not_lt.2 hd]
    · simp [hd, UInt64.not_le.1 hd]

variable {p : Program}

theorem rulesAt_eq (sorted : (p.deltas.map Prod.fst).Pairwise (· ≤ ·)) (a : UInt64) :
    p.rulesAt a = fold p.init (p.deltas.filter (·.1 ≤ a)) := by
  rw [rulesAt, (comeFirst_of_sorted sorted a).takeWhile_eq_filter]

/-! ## Clipping -/

/-- The changes that a clipped program keeps up to one of its addresses. -/
theorem filter_clip {start stop a : UInt64} (hstop : a < stop) :
    (p.clip start stop).deltas.filter (·.1 ≤ a) =
      p.deltas.filter fun d => start < d.1 && d.1 ≤ a := by
  rw [clip, List.filter_filter]
  apply List.filter_congr
  intro d _
  by_cases hd : d.1 ≤ a
  · have : d.1 < stop := UInt64.lt_of_le_of_lt hd hstop
    simp [hd, this]
  · simp [hd]

/-- Up to each of its addresses, a clipped program folds to what the whole program folds to. -/
theorem fold_clip (sorted : (p.deltas.map Prod.fst).Pairwise (· ≤ ·)) {start stop a : UInt64}
    (hstart : start ≤ a) (hstop : a < stop) :
    fold (p.clip start stop).init ((p.clip start stop).deltas.filter (·.1 ≤ a)) =
      fold p.init (p.deltas.filter (·.1 ≤ a)) := by
  have hinit : RuleSet.parse (p.clip start stop).init =
      fold p.init (p.deltas.filter (·.1 ≤ start)) :=
    RuleSet.parse_toText (wellFormed_fold _ _)
  rw [filter_clip hstop, filter_split sorted hstart, fold_append, ← hinit]
  rfl

theorem sorted_clip (sorted : (p.deltas.map Prod.fst).Pairwise (· ≤ ·)) (start stop : UInt64) :
    ((p.clip start stop).deltas.map Prod.fst).Pairwise (· ≤ ·) :=
  sorted.sublist (List.filter_sublist.map _)

/-- Cutting a program does not change the rules at the addresses that are left. -/
theorem rulesAt_clip (sorted : (p.deltas.map Prod.fst).Pairwise (· ≤ ·))
    {start stop a : UInt64} (hstart : start ≤ a) (hstop : a < stop) :
    (p.clip start stop).rulesAt a = p.rulesAt a := by
  rw [rulesAt_eq (sorted_clip sorted start stop), rulesAt_eq sorted,
    fold_clip sorted hstart hstop]

/-- A part of a part of a program is cut from the program itself. -/
theorem clip_clip (sorted : (p.deltas.map Prod.fst).Pairwise (· ≤ ·))
    {start stop start' stop' : UInt64} (hstart : start ≤ start') (hlt : start' < stop')
    (hstop : stop' ≤ stop) : (p.clip start stop).clip start' stop' = p.clip start' stop' := by
  have hinit := fold_clip sorted hstart (UInt64.lt_of_lt_of_le hlt hstop)
  have hdeltas : (p.clip start stop).deltas.filter (fun d => start' < d.1 && d.1 < stop') =
      p.deltas.filter fun d => start' < d.1 && d.1 < stop' := by
    rw [clip, List.filter_filter]
    apply List.filter_congr
    intro d _
    by_cases hd : start' < d.1 ∧ d.1 < stop'
    · have hlow : start < d.1 := UInt64.lt_of_le_of_lt hstart hd.1
      have hhigh : d.1 < stop := UInt64.lt_of_lt_of_le hd.2 hstop
      simp [hd.1, hd.2, hlow, hhigh]
    · rw [← Bool.decide_and, decide_eq_false hd, Bool.false_and]
  rw [clip.eq_def (p.clip start stop), clip.eq_def p start' stop', hinit, hdeltas]

/-- Rules are read back from their text with no register twice, and so clipping loses nothing:
neither a second clip nor the rules at an address depend on the first one. -/
theorem clips_keep_rules :
    (∀ (init : String) (later : List String),
      let s := later.foldl RuleSet.apply (RuleSet.parse init)
      RuleSet.parse s.toText = s ∧ RuleSet.Distinct s.rules) ∧
    ∀ p : Program, (p.deltas.map Prod.fst).Pairwise (· ≤ ·) → ∀ start stop : UInt64,
      (∀ start' stop', start ≤ start' → start' < stop' → stop' ≤ stop →
        (p.clip start stop).clip start' stop' = p.clip start' stop') ∧
      ∀ a, start ≤ a → a < stop → (p.clip start stop).rulesAt a = p.rulesAt a := by
  refine ⟨fun init later => ?_, fun p sorted start stop => ⟨?_, ?_⟩⟩
  · have h := RuleSet.wellFormed_foldl (RuleSet.wellFormed_parse init) later
    exact ⟨RuleSet.parse_toText h, h.distinct⟩
  · intro start' stop' hstart hlt hstop
    exact clip_clip sorted hstart hlt hstop
  · intro a hstart hstop
    exact rulesAt_clip sorted hstart hstop

def sampleProgram : Program :=
  ⟨"8 + .cfa: $rsp 8 + .ra: .cfa -8 + ^",
    [(0x11, ".cfa: $rsp 16 + a:: x :"), (0x18, "$rbp: .cfa -16 + ^"), (0x18, ".ra: .cfa: $rbp")]⟩

theorem clips_keep_rules_sample :
    (sampleProgram.deltas.map Prod.fst).Pairwise (· ≤ ·) ∧
      (sampleProgram.clip 0x10 0x30).clip 0x18 0x20 = sampleProgram.clip 0x18 0x20 ∧
      (sampleProgram.clip 0x12 0x20).rulesAt 0x18 = sampleProgram.rulesAt 0x18 ∧
      (sampleProgram.rulesAt 0x18).toText = ".cfa: $rbp .ra:  a:: x : $rbp: .cfa -16 + ^" := by
  have hsorted : (sampleProgram.deltas.map Prod.fst).Pairwise (· ≤ ·) := by decide
  have hclips := clips_keep_rules.2 sampleProgram hsorted
  refine ⟨hsorted, ?_, ?_, by decide +kernel⟩
  · exact (hclips 0x10 0x30).1 0x18 0x20 (by decide) (by decide) (by decide)
  · exact (hclips 0x12 0x20).2 0x18 (by decide) (by decide)

end Program

end Postmortem.CfiCache
