import Postmortem.Proofs.CfiCache.CorruptEntries
import Postmortem.Proofs.CfiCache.RuleLookups

/-!
# The layout of written caches

Every cache that is written from unwind tables can be read entirely: its entries are disjoint and in
order, all of them are decoded, their changes lie strictly between their ends, and the rules at each
address can be read and recover the canonical frame address.  No difference that is taken on the way
lies below zero.
-/

set_option autoImplicit false

namespace Postmortem

namespace CfiCache

open Debug (Object UnwindTable)
open Postfix (Width parseRules)
open RuleSet (Named)

variable {s : CfiCache} {parts : List (Claim ConvertedTable)}

/-! ## The rule for the canonical frame address -/

theorem named_cfa_of_rows {family : Cpu.Family} {start stop : UInt64} {returnAddress : UInt16}
    {rows : List Debug.UnwindRow} {p : Program}
    (h : programOfRows family start stop returnAddress rows = .ok p) :
    Named ".cfa" (rulesOf p.init) := by
  obtain ⟨-, row, later, line, rfl, hline, hinit, -⟩ := programOfRows_eq_ok h
  rw [hinit, rulesOf_joinRules hline.readable_first]
  obtain ⟨cfa, ⟨hnone, -⟩ | ⟨q, hq, rfl⟩, rfl⟩ := hline
  · cases hnone
  · obtain ⟨_, _, _, -, -, hregister, -⟩ := cfaRule?_eq_some hq
    exact ⟨q, by simp, hregister⟩

theorem named_cfa_of_text {start stop : UInt64} {init : String} {deltas : List (UInt64 × String)}
    {p : Program} (h : programOfText start stop init deltas = .ok p)
    (hcolons : spacedColons init.toList = true) : Named ".cfa" (rulesOf p.init) := by
  obtain ⟨_, -, h⟩ := bind_eq_ok.1 h
  obtain ⟨rules, hrules, h⟩ := bind_eq_ok.1 h
  obtain ⟨hreadable, hall⟩ := rulesOf_of_parseRules (readRules_eq_ok.1 hrules) hcolons
  split at h
  · cases h
  · rename_i hcfa
    obtain ⟨normal, -, h⟩ := bind_eq_ok.1 h
    cases h
    rw [rulesOf_toText fun r hr => (readable_of_mem_parse hreadable r hr).wellFormed,
      RuleSet.parse, RuleSet.apply_rules, RuleSet.named_putAll]
    have hrule : ∃ x ∈ rules, x.register = .ofName ".cfa" := by
      rw [show Postfix.Register.ofName ".cfa" = .cfa by decide]
      simpa using hcfa
    exact .inl ((named_iff_of_rules hall).1 hrule)

theorem named_cfa_of_program {family : Cpu.Family} {t : UnwindTable} {p : Program}
    (h : programOf family t = .ok p) (hcolons : SpacedColons t) :
    Named ".cfa" (rulesOf p.init) := by
  rw [programOf] at h
  rw [SpacedColons] at hcolons
  split at h
  · exact named_cfa_of_rows h
  · rename_i init deltas hrules
    rw [hrules] at hcolons
    exact named_cfa_of_text h hcolons.1

theorem Program.named_rulesAt {name : String} {p : Program} (h : Named name (rulesOf p.init))
    (a : UInt64) : Named name (p.rulesAt a).rules := by
  rw [rulesAt, fold, RuleSet.named_foldl, RuleSet.parse, RuleSet.apply_rules, RuleSet.named_putAll]
  exact .inl (.inl h)

/-! ## Entries -/

theorem decode?_of_serves {records : List EntryRecord} (h : List.Forall₂ (Serves s) parts records) :
    records.filterMap s.decode? = parts.map entryOf := by
  induction h with
  | nil => rfl
  | cons he _ ih =>
      rw [List.filterMap_cons_some he.decode, List.map_cons, ih]
      rfl

/-- Whether what is stored in a cache can be read entirely: its records are not empty, disjoint, in
order, and as many as the header says, and all of them are decoded; so are the entries, whose
changes lie in order strictly between their ends; and the rules at each address can be read at
either width, with one for the canonical frame address. -/
structure LaidOut (s : CfiCache) : Prop where
  records_nonempty : ∀ e ∈ s.entries, e.start < e.stop
  records_ordered : s.entries.Pairwise (·.stop ≤ ·.start)
  decoded : ∀ e ∈ s.entries, (s.decode? e).isSome
  count : s.allEntries.length = s.header.entries.toNat
  nonempty : ∀ e ∈ s.allEntries, e.start < e.stop
  ordered : s.allEntries.Pairwise (·.stop ≤ ·.start)
  changes : ∀ e ∈ s.allEntries,
    (e.start :: (e.program.deltas.map Prod.fst ++ [e.stop])).Pairwise (· < ·)
  programs : ∀ a text, s.programAt? a = some text → ∀ w, ∃ rules,
    parseRules w text = .ok rules ∧ ∃ x ∈ rules, x.register = .cfa

/-- Whether no difference that is taken while a cache is written lies below zero: those of tables
and ranges from the load address, the lengths of claims, and the steps from one change in a range to
the next. -/
structure NoUnderflow (o : Object) (tables : List ConvertedTable) : Prop where
  stops : ∀ t ∈ o.unwindTables.filter (isLive o.loadAddress), o.loadAddress ≤ t.stop
  lengths : ∀ c ∈ (claims tables).claims, c.start ≤ c.stop
  ends : ∀ c ∈ ranges tables, o.loadAddress ≤ c.start ∧ o.loadAddress ≤ c.stop
  steps : ∀ c ∈ ranges tables,
    (c.start :: (c.value.program.clip c.start c.stop).deltas.map Prod.fst).Pairwise (· ≤ ·)

theorem load_le_of_isLive {load : UInt64} {t : UnwindTable} (h : isLive load t = true) :
    load ≤ t.address := by
  rw [isLive, Bool.and_eq_true] at h
  exact of_decide_eq_true h.2

theorem noUnderflow_of_convertAll {o : Object} {tables : List ConvertedTable}
    (h : convertAll o = .ok tables)
    (hsound : ∀ c ∈ ranges tables, c.value.program.Sound) : NoUnderflow o tables := by
  have hdisjoint := disjoint_ranges tables
  refine ⟨?_, ?_, ?_, ?_⟩
  · intro t ht
    exact UInt64.le_trans (load_le_of_isLive (List.mem_filter.1 ht).2) (le_addSaturating _ _)
  · intro c hc
    obtain ⟨t, ht, rfl⟩ := List.mem_map.1 hc
    exact UInt64.le_of_lt (of_decide_eq_true (List.mem_filter.1 ht).2)
  · intro c hc
    have hlt := hdisjoint.nonempty c hc
    -- the table that wins at the start of a range covers it, and is live
    obtain ⟨t, -, -, -, hwins⟩ := wins_of_range h hc
    have hcov := (hwins c.start ⟨UInt64.le_refl _, hlt⟩).holds
    have hstart := UInt64.le_trans (load_le_of_isLive hcov.1) hcov.2.1
    exact ⟨hstart, UInt64.le_trans hstart (UInt64.le_of_lt hlt)⟩
  · intro c hc
    exact (storable_clip (hsound c hc) c.start c.stop).sorted.imp UInt64.le_of_lt

theorem increasing_entryOf {c : Claim ConvertedTable} (hc : c.value.program.Sound)
    (hlt : c.start < c.stop) :
    ((entryOf c).start :: ((entryOf c).program.deltas.map Prod.fst ++ [(entryOf c).stop])).Pairwise
      (· < ·) := by
  have hsorted := (storable_clip hc c.start c.stop).sorted
  rw [← List.cons_append, List.pairwise_append]
  refine ⟨hsorted, List.pairwise_singleton _ _, ?_⟩
  intro a ha b hb
  rw [List.mem_singleton.1 hb]
  rcases List.mem_cons.1 ha with rfl | ha
  · exact hlt
  · obtain ⟨d, hd, rfl⟩ := List.mem_map.1 ha
    have hinside := (List.mem_filter.1 hd).2
    rw [Bool.and_eq_true, decide_eq_true_eq, decide_eq_true_eq] at hinside
    exact hinside.2

theorem rules_of_programAt? {a : UInt64} {text : String}
    (hserves : List.Forall₂ (Serves s) parts s.entries) (hdisjoint : Claim.Disjoint parts)
    (hsound : ∀ c ∈ parts, c.value.program.Sound)
    (hcfa : ∀ c ∈ parts, Named ".cfa" (rulesOf c.value.program.init))
    (h : s.programAt? a = some text) (w : Width) :
    ∃ rules, parseRules w text = .ok rules ∧ ∃ x ∈ rules, x.register = .cfa := by
  rcases entry?_cases (a := a) hserves hdisjoint with ⟨c, hc, hcov, hentry⟩ | ⟨-, hentry⟩
  · rw [programAt?_of_entry (hsound c hc) hcov hentry] at h
    obtain ⟨xs, hxs, hall⟩ := parseRules_toText (w := w) ((hsound c hc).rulesAt a).readable
    have hnamed := Program.named_rulesAt (hcfa c hc) a
    exact ⟨xs, Option.some.inj h ▸ hxs, (named_iff_of_rules hall).2 hnamed⟩
  · rw [(none_of_entry hentry).1] at h
    cases h

/-- Whatever is written from tables in which a blank stands behind each colon is laid out as it
should be, and no difference that is taken for it lies below zero. -/
theorem written_cache_laid_out {o : Object} {bytes : Bytes}
    (hcolons : ∀ t ∈ o.unwindTables, SpacedColons t) (h : ofObject o = .ok bytes) :
    ∃ tables s, convertAll o = .ok tables ∧ parse bytes = .ok s ∧ LaidOut s ∧
      NoUnderflow o tables := by
  have hprogram : ∀ tables, convertAll o = .ok tables → ∀ c ∈ ranges tables,
      c.value.program.Sound ∧ Named ".cfa" (rulesOf c.value.program.init) := by
    intro tables htables c hc
    obtain ⟨t, ht, -, hprogram, -⟩ := wins_of_range htables hc
    exact ⟨sound_programOf hprogram (hcolons t ht), named_cfa_of_program hprogram (hcolons t ht)⟩
  obtain ⟨tables, s, htables, hparse, hserves⟩ :=
    parse_ofObject h fun tables htables c hc => (hprogram tables htables c hc).1
  have hdisjoint := disjoint_ranges tables
  have hsound : ∀ c ∈ ranges tables, c.value.program.Sound :=
    fun c hc => (hprogram tables htables c hc).1
  have hentries : s.allEntries = (ranges tables).map entryOf := decode?_of_serves hserves
  have hrecords := disjoint_records (fun _ _ he => Serves.placed he) hserves hdisjoint
  refine ⟨tables, s, htables, hparse, ?_, noUnderflow_of_convertAll htables hsound⟩
  constructor
  case records_nonempty => exact hrecords.1
  case records_ordered => exact hrecords.2
  case decoded =>
    intro e he
    obtain ⟨c, -, hserves⟩ := exists_left hserves he
    rw [hserves.decode]
    rfl
  case count =>
    rw [hentries, List.length_map, hserves.length_eq, (lengths_of_parse hparse).1]
  case nonempty =>
    rw [hentries]
    exact List.forall_mem_map.2 hdisjoint.nonempty
  case ordered =>
    rw [hentries]
    exact List.pairwise_map.2 hdisjoint.ordered
  case changes =>
    rw [hentries]
    exact List.forall_mem_map.2 fun c hc =>
      increasing_entryOf (hsound c hc) (hdisjoint.nonempty c hc)
  case programs =>
    intro a text htext w
    exact rules_of_programAt? hserves hdisjoint hsound
      (fun c hc => (hprogram tables htables c hc).2) htext w

theorem written_cache_laid_out_sample :
    (∀ t ∈ sampleObject.unwindTables, SpacedColons t) ∧
      ∃ bytes tables s, ofObject sampleObject = .ok bytes ∧
        convertAll sampleObject = .ok tables ∧ parse bytes = .ok s ∧ LaidOut s ∧
        NoUnderflow sampleObject tables := by
  have hcolons : ∀ t ∈ sampleObject.unwindTables, SpacedColons t := by
    intro t ht
    rcases List.mem_cons.1 ht with rfl | ht
    · trivial
    · rw [List.mem_singleton.1 ht]
      exact ⟨by decide, by decide⟩
  obtain ⟨bytes, hbytes⟩ := sampleObject_written
  obtain ⟨tables, s, htables, hparse, hlaid, hdifferences⟩ := written_cache_laid_out hcolons hbytes
  exact ⟨hcolons, bytes, tables, s, hbytes, htables, hparse, hlaid, hdifferences⟩

end CfiCache

end Postmortem
