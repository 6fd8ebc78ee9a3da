import Mathlib
import Postmortem.Proofs.CfiCache.StoredEntries
import Postmortem.Proofs.CfiCache.WinningTables

/-!
# What lookups of rules find

A cache that is written from the unwind tables of an object, and read back, has rules for exactly
the addresses that a table covers: those of the table that wins there, after all of its changes up
to the address.
-/

set_option autoImplicit false

namespace Postmortem.CfiCache

open Postmortem.Debug (Object UnwindTable)

variable {s : CfiCache} {a : UInt64} {parts : List (Claim ConvertedTable)}

/-! ## Entries -/

def entryOf (c : Claim ConvertedTable) : Entry :=
  ⟨c.start, c.stop, c.value.source, c.value.program.clip c.start c.stop⟩

/-- The entry at an address is decoded from the record of the range that covers it. -/
theorem entry?_of_records {R : Claim ConvertedTable → EntryRecord → Prop}
    (hR : ∀ c e, R c e → Placed s.loadAddress c e.start e.stop)
    (h : List.Forall₂ R parts s.entries) (hclaims : Claim.Disjoint parts) :
    (∃ c ∈ parts, ∃ e, R c e ∧ c.Covers a ∧ s.entry? a = s.decode? e) ∨
      ((∀ c ∈ parts, ¬ c.Covers a) ∧ s.entry? a = none) := by
  cases hrelative : offset32? a s.loadAddress with
  | none =>
      refine .inr ⟨?_, by unfold entry?; rw [hrelative]⟩
      intro c hc hcov
      obtain ⟨e, -, he⟩ := exists_right h hc
      rw [offset32?_of_within ((hR c e he).within hcov)] at hrelative
      cases hrelative
  | some goal =>
      have hgoal := hrelative
      rw [offset32?_eq_some_iff] at hgoal
      obtain ⟨ha, rfl⟩ := hgoal
      have hsorted := sorted_records hR h hclaims
      rcases record_cases hR h hclaims ha with
        ⟨habove, hnone⟩ | ⟨before, e, after, hsplit, hstart, hafter, hcovered, hfree⟩
      · refine .inr ⟨hnone, ?_⟩
        unfold entry?
        rw [hrelative]
        dsimp only
        rw [Bisect.partitionPoint_byKey_eq_zero habove]
      · have hget : s.entries[before.length]? = some e := by
          rw [hsplit]
          simp
        rw [hsplit] at hsorted
        have hpoint := Bisect.partitionPoint_byKey hsorted hstart hafter
        rw [← hsplit] at hpoint
        have hentry : s.entry? a =
            ((some e).filter fun e => distance s.loadAddress a < e.stop).bind s.decode? := by
          unfold entry?
          rw [hrelative]
          dsimp only
          rw [hpoint]
          dsimp only
          rw [hget]
        rw [hentry, Option.filter_some]
        by_cases hlt : distance s.loadAddress a < e.stop
        · obtain ⟨c, hc, hrecord, hcov⟩ := hcovered hlt
          rw [if_pos (decide_eq_true hlt)]
          exact .inl ⟨c, hc, e, hrecord, hcov, rfl⟩
        · rw [if_neg (by simpa using hlt)]
          exact .inr ⟨hfree hlt, rfl⟩

theorem entry?_cases (h : List.Forall₂ (Serves s) parts s.entries)
    (hclaims : Claim.Disjoint parts) :
    (∃ c ∈ parts, c.Covers a ∧ s.entry? a = some (entryOf c)) ∨
      ((∀ c ∈ parts, ¬ c.Covers a) ∧ s.entry? a = none) := by
  rcases entry?_of_records (a := a) (fun _ _ he => Serves.placed he) h hclaims with
    ⟨c, hc, e, he, hcov, hentry⟩ | hnone
  · exact .inl ⟨c, hc, hcov, hentry.trans he.decode⟩
  · exact .inr hnone

theorem lookup?_of_programAt? {w : Postfix.Width} {rules : RuleSet} (hrules : rules.Sound)
    (h : s.programAt? a = some rules.toText) :
    ∃ xs, s.lookup? w a = some xs ∧
      List.Forall₂ (fun r x => r.rule? w = some x) rules.rules xs := by
  obtain ⟨xs, hparse, hxs⟩ := parseRules_toText (w := w) hrules.readable
  exact ⟨xs, by rw [lookup?, h, Option.bind_some, hparse]; rfl, hxs⟩

theorem programAt?_of_entry {c : Claim ConvertedTable} (hc : c.value.program.Sound)
    (hcov : c.Covers a) (h : s.entry? a = some (entryOf c)) :
    s.programAt? a = some (c.value.program.rulesAt a).toText := by
  have hrules : (entryOf c).program.rulesAt a = c.value.program.rulesAt a :=
    Program.rulesAt_clip hc.sorted_le hcov.1 hcov.2
  rw [programAt?, h, Option.map_some, hrules]

/-- The rules at an address of a range are those of its whole program, and they can be read. -/
theorem rules_of_entry {c : Claim ConvertedTable} (hc : c.value.program.Sound)
    (hcov : c.Covers a) (h : s.entry? a = some (entryOf c)) :
    s.programAt? a = some (c.value.program.rulesAt a).toText ∧
      ∀ width, ∃ rules, s.lookup? width a = some rules := by
  have hprogram := programAt?_of_entry hc hcov h
  refine ⟨hprogram, ?_⟩
  intro width
  obtain ⟨rules, hrules, -⟩ := lookup?_of_programAt? (w := width) (hc.rulesAt a) hprogram
  exact ⟨rules, hrules⟩

theorem none_of_entry (h : s.entry? a = none) :
    s.programAt? a = none ∧ ∀ width, s.lookup? width a = none := by
  have hprogram : s.programAt? a = none := by rw [programAt?, h, Option.map_none]
  exact ⟨hprogram, fun width => by rw [lookup?, hprogram, Option.bind_none]⟩

/-! ## Tables -/

theorem convertAll_spec {o : Object} {tables : List ConvertedTable}
    (h : convertAll o = .ok tables) :
    List.Forall₂ (fun t c => convert o.arch.family o.loadAddress t = .ok c)
      (o.unwindTables.filter (isLive o.loadAddress)) tables := by
  rw [convertAll] at h
  dsimp only at h
  split at h
  · cases h
  · split at h
    · cases h
    · obtain ⟨converted, hconverted, h⟩ := bind_eq_ok.1 h
      split at h
      · cases h
      · cases h
        exact forall₂_of_mapM hconverted

def Covered (o : Object) (a : UInt64) : Prop := ∃ t ∈ o.unwindTables, Covers o.loadAddress a t

/-- Whether a table wins at an address: it is the least of the tables of an object that cover it,
and the first of equal ones. -/
def Wins (o : Object) (a : UInt64) (t : UnwindTable) : Prop :=
  IsFirstLeast precedence (Covers o.loadAddress a) o.unwindTables t

/-- One table of an object wins at all addresses of a range. -/
theorem wins_of_range {o : Object} {tables : List ConvertedTable}
    (h : convertAll o = .ok tables) {c : Claim ConvertedTable} (hc : c ∈ ranges tables) :
    ∃ w ∈ o.unwindTables, w.source = c.value.source ∧
      programOf o.arch.family w = .ok c.value.program ∧ ∀ a, c.Covers a → Wins o a w := by
  obtain ⟨w, hsource, hprogram, hwins⟩ := winner_of_range (convertAll_spec h) hc
  have hfirst : c.Covers c.start := ⟨UInt64.le_refl _, (disjoint_ranges tables).nonempty c hc⟩
  exact ⟨w, (hwins c.start hfirst).mem, hsource, hprogram, hwins⟩

/-- Where a table wins, lookups find the rules of its program, if that can be read. -/
theorem lookup?_of_wins {o : Object} {bytes : Bytes} (h : ofObject o = .ok bytes) :
    ∃ s, parse bytes = .ok s ∧ ∀ a t, Wins o a t → ∃ p, programOf o.arch.family t = .ok p ∧
      (p.Sound → ∀ w, ∃ xs, s.lookup? w a = some xs ∧
        List.Forall₂ (fun r x => r.rule? w = some x) (p.rulesAt a).rules xs) := by
  obtain ⟨tables, s, htables, hparse, hstores⟩ := parse_written h
  refine ⟨s, hparse, ?_⟩
  intro a t hwins
  obtain ⟨x, hx, hxcov⟩ := exists_range (convertAll_spec htables) hwins.mem hwins.holds
  rcases entry?_of_records (a := a) (fun _ _ he => Stores.placed he) hstores
    (disjoint_ranges tables) with ⟨c, hc, e, he, hcov, hentry⟩ | ⟨hfree, -⟩
  · obtain ⟨u, -, -, hprogram, hwins'⟩ := wins_of_range htables hc
    have hut : u = t := (hwins' a hcov).eq_of_both hwins (hwins' a hcov).holds hwins.holds
    refine ⟨c.value.program, hut ▸ hprogram, ?_⟩
    intro hsound w
    have htext := programAt?_of_entry hsound hcov (hentry.trans (he.decode hsound))
    exact lookup?_of_programAt? (hsound.rulesAt a) htext
  · exact absurd hxcov (hfree x hx)

/-- The rules at an address are those of the table that wins there, with all of its changes up to
the address. -/
theorem lookup_follows_winner {o : Object} {bytes : Bytes}
    (hcolons : ∀ t ∈ o.unwindTables, SpacedColons t) (h : ofObject o = .ok bytes) :
    ∃ s, parse bytes = .ok s ∧ ∀ a,
      (¬ Covered o a ↔ s.entry? a = none) ∧ (¬ Covered o a ↔ s.programAt? a = none) ∧
      (∀ width, ¬ Covered o a ↔ s.lookup? width a = none) ∧
      (Covered o a → ∃ w program e, Wins o a w ∧ programOf o.arch.family w = .ok program ∧
        s.entry? a = some e ∧ e.source = w.source ∧ e.start ≤ a ∧ a < e.stop ∧
        (∀ b, e.start ≤ b → b < e.stop → Wins o b w) ∧
        s.programAt? a =
          some (Program.fold program.init (program.deltas.filter (·.1 ≤ a))).toText) := by
  have hsound : ∀ tables, convertAll o = .ok tables →
      ∀ c ∈ ranges tables, c.value.program.Sound := by
    intro tables htables c hc
    obtain ⟨w, hw, -, hprogram, -⟩ := wins_of_range htables hc
    exact sound_programOf hprogram (hcolons w hw)
  obtain ⟨tables, s, htables, hparse, hserves⟩ := parse_ofObject h hsound
  refine ⟨s, hparse, ?_⟩
  intro a
  rcases entry?_cases (a := a) hserves (disjoint_ranges tables) with
    ⟨c, hc, hcov, hentry⟩ | ⟨hfree, hentry⟩
  · obtain ⟨w, -, hsource, hprogram, hwins⟩ := wins_of_range htables hc
    have hsound := hsound tables htables c hc
    obtain ⟨hprogramAt, hlookup⟩ := rules_of_entry hsound hcov hentry
    have hcovered : Covered o a := ⟨w, (hwins a hcov).mem, (hwins a hcov).holds⟩
    refine ⟨?_, ?_, ?_, ?_⟩
    · simp [hentry, hcovered]
    · simp [hprogramAt, hcovered]
    · intro width
      obtain ⟨rules, hrules⟩ := hlookup width
      simp [hrules, hcovered]
    · intro _
      refine ⟨w, c.value.program, entryOf c, hwins a hcov, hprogram, hentry, hsource.symm,
        hcov.1, hcov.2, fun b hstart hstop => hwins b ⟨hstart, hstop⟩, ?_⟩
      rw [hprogramAt, hsound.rulesAt_eq]
  · have huncovered : ¬ Covered o a := by
      rintro ⟨t, ht, hcov⟩
      obtain ⟨x, hx, hxcov⟩ := exists_range (convertAll_spec htables) ht hcov
      exact hfree x hx hxcov
    obtain ⟨hprogramAt, hlookup⟩ := none_of_entry hentry
    refine ⟨?_, ?_, ?_, ?_⟩
    · simp [hentry, huncovered]
    · simp [hprogramAt, huncovered]
    · intro width
      simp [hlookup width, huncovered]
    · intro hcovered
      exact absurd hcovered huncovered

/-- Two tables, of which the smaller one splits the larger one behind a change. -/
def sampleObject : Object where
  arch := .amd64
  loadAddress := 0x1000
  unwindTables :=
    [{ source := .debugFrame, address := 0x1000, size := 0x40
       rules := .rows 16
         [{ address := 0x1000, cfa := .registerOffset 7 8, registers := [(16, .offset (-8))] },
           { address := 0x1004, cfa := .registerOffset 7 16
             registers := [(16, .offset (-8)), (6, .offset (-16))] }] },
      { source := .breakpad, address := 0x1010, size := 0x10
        rules := .postfixRules ".cfa: $rsp 32 + .ra: .cfa -8 + ^"
          [(0x1018, "$rbx: .cfa -24 + ^")] }]

def sampleTables : List ConvertedTable :=
  [⟨.debugFrame, 0x1000, 0x1040, ⟨".cfa: $rsp 8 + .ra: .cfa -8 + ^",
      [(0x1004, ".cfa: $rsp 16 + $rbp: .cfa -16 + ^")]⟩⟩,
    ⟨.breakpad, 0x1010, 0x1020, ⟨".cfa: $rsp 32 + .ra: .cfa -8 + ^",
      [(0x1018, "$rbx: .cfa -24 + ^")]⟩⟩]

theorem convertAll_sampleObject : convertAll sampleObject = .ok sampleTables := by
  decide +kernel

theorem served_sampleTables :
    (claims sampleTables).served priority = (claims sampleTables).claims.reverse := by
  cbv

theorem sampleObject_written : ∃ bytes, ofObject sampleObject = .ok bytes := by
  have hok : (ofObject sampleObject).toOption.isSome = true := by
    rw [ofObject, convertAll_sampleObject]
    dsimp only [bind, Except.bind]
    rw [ranges_eq, RangeClaims.resolve, served_sampleTables]
    decide +kernel
  exact exists_ok_of_isSome hok

theorem lookup_follows_winner_sample :
    (∀ t ∈ sampleObject.unwindTables, SpacedColons t) ∧
    ∃ bytes s, ofObject sampleObject = .ok bytes ∧ parse bytes = .ok s ∧ ∀ a,
      (¬ Covered sampleObject a ↔ s.entry? a = none) ∧
      (¬ Covered sampleObject a ↔ s.programAt? a = none) ∧
      (∀ width, ¬ Covered sampleObject a ↔ s.lookup? width a = none) ∧
      (Covered sampleObject a → ∃ w program e, Wins sampleObject a w ∧
        programOf .amd64 w = .ok program ∧ s.entry? a = some e ∧ e.source = w.source ∧
        e.start ≤ a ∧ a < e.stop ∧ (∀ b, e.start ≤ b → b < e.stop → Wins sampleObject b w) ∧
        s.programAt? a =
          some (Program.fold program.init (program.deltas.filter (·.1 ≤ a))).toText) := by
  have hcolons : ∀ t ∈ sampleObject.unwindTables, SpacedColons t := by
    intro t ht
    rcases List.mem_cons.1 ht with rfl | ht
    · trivial
    · rw [List.mem_singleton.1 ht]
      exact ⟨by decide, by decide⟩
  obtain ⟨bytes, hbytes⟩ := sampleObject_written
  obtain ⟨s, hparse, hanswers⟩ := lookup_follows_winner hcolons hbytes
  exact ⟨hcolons, bytes, s, hbytes, hparse, hanswers⟩

end Postmortem.CfiCache
