import Postmortem.Proofs.CfiCache.ClippedPrograms
import Postmortem.Proofs.CfiCache.Conversions

/-!
# Fragments of readable programs

A program whose texts can be read has readable rules at each address, and so has each fragment of
it.
-/

set_option autoImplicit false

namespace Postmortem.CfiCache

/-- Whether a rule set has rules, each of them readable, and no two for one register. -/
structure RuleSet.Sound (s : RuleSet) : Prop where
  ne_nil : s.rules ≠ []
  readable : ∀ r ∈ s.rules, r.Readable
  distinct : RuleSet.Distinct s.rules

namespace RuleSet

theorem Sound.readableText {s : RuleSet} (h : s.Sound) : ReadableText s.toText :=
  readableText_toText h.ne_nil h.readable

theorem Sound.apply {s : RuleSet} (h : s.Sound) {program : String} (hp : ReadableText program) :
    (s.apply program).Sound := by
  refine ⟨putAll_ne_nil _ h.ne_nil, ?_, distinct_putAll _ h.distinct⟩
  intro r hr
  rcases mem_putAll hr with hr | hr
  · exact hp.rules r hr
  · exact h.readable r hr

theorem named_foldl {name : String} {deltas : List (UInt64 × String)} {s : RuleSet} :
    Named name (deltas.foldl (fun s d => s.apply d.2) s).rules ↔
      Named name s.rules ∨ ∃ d ∈ deltas, Named name (rulesOf d.2) := by
  induction deltas generalizing s with
  | nil => simp
  | cons d deltas ih =>
      rw [List.foldl_cons, ih, apply_rules, named_putAll, List.exists_mem_cons_iff,
        or_left_comm, or_assoc]

theorem sound_parse {program : String} (h : ReadableText program) : (parse program).Sound :=
  ⟨parse_ne_nil h.ne_nil, readable_of_mem_parse h.rules, distinct_putAll _ .nil⟩

end RuleSet

namespace Program

theorem sound_fold {init : String} {deltas : List (UInt64 × String)} (hinit : ReadableText init)
    (hdeltas : ∀ d ∈ deltas, ReadableText d.2) : (fold init deltas).Sound := by
  have hstep (s : RuleSet) (hs : s.Sound) :
      (deltas.foldl (fun s d => s.apply d.2) s).Sound := by
    induction deltas generalizing s with
    | nil => exact hs
    | cons d deltas ih =>
        have hd := hdeltas d (List.mem_cons_self ..)
        exact ih (fun e he => hdeltas e (List.mem_cons_of_mem _ he)) _ (hs.apply hd)
  exact hstep _ (RuleSet.sound_parse hinit)

/-! ## Rules at an address -/

variable {p : Program}

theorem Sound.sound_folded (h : p.Sound) (a : UInt64) :
    (fold p.init (p.deltas.filter (·.1 ≤ a))).Sound :=
  sound_fold h.init fun d hd => h.texts d (List.mem_filter.1 hd).1

theorem Sound.sorted_le (h : p.Sound) : (p.deltas.map Prod.fst).Pairwise (· ≤ ·) :=
  h.sorted.imp UInt64.le_of_lt

theorem Sound.rulesAt_eq (h : p.Sound) (a : UInt64) :
    p.rulesAt a = fold p.init (p.deltas.filter (·.1 ≤ a)) :=
  Program.rulesAt_eq h.sorted_le a

theorem Sound.rulesAt (h : p.Sound) (a : UInt64) : (p.rulesAt a).Sound := by
  rw [h.rulesAt_eq]
  exact h.sound_folded a

theorem Sound.clip (h : p.Sound) (start stop : UInt64) : (p.clip start stop).Sound := by
  have hfold := h.sound_folded start
  refine ⟨hfold.readableText, ?_, ?_⟩
  · intro d hd
    exact h.texts d (List.mem_filter.1 hd).1
  · exact h.sorted.sublist (List.filter_sublist.map _)

end Program

end Postmortem.CfiCache
