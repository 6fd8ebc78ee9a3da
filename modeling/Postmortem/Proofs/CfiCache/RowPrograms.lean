import Postmortem.Proofs.CfiCache.Fragments

/-!
# Programs of rows

A row is written as the rules that differ from the last ones given, yet all of its rules are in
effect at its addresses.  The invariant is that the rule given last for a register is among those in
effect; it needs that no two registers share a name, so that one does not replace the rule of the
other.
-/

set_option autoImplicit false

namespace Postmortem.CfiCache

open Debug (CfaRule RegisterRule UnwindRow)
open RuleSet (put putAll)

variable {family : Cpu.Family} {returnAddress : UInt16} {listed : UInt16 → Prop} {given : Given}
  {rules : List TextRule}

/-- Whether no two registers of some have the same name. -/
def Apart (family : Cpu.Family) (listed : UInt16 → Prop) : Prop :=
  ∀ r s name, listed r → listed s → family.ruleName? r = some name →
    family.ruleName? s = some name → r = s

theorem Apart.eq_of_targetName? (h : Apart family listed) {r s : UInt16} {name : String}
    (hr : listed r) (hs : listed s) (hname : targetName? family returnAddress r = some name)
    (hname' : targetName? family returnAddress s = some name) : r = s := by
  rw [targetName?] at hname hname'
  split at hname
  · rename_i hra
    split at hname'
    · rename_i hra'
      rw [hra, hra']
    · cases hname
      exact absurd rfl (Cpu.Family.isRuleName_of_ruleName? hname').2.2
  · split at hname'
    · cases hname'
      exact absurd rfl (Cpu.Family.isRuleName_of_ruleName? hname).2.2
    · exact h r s name hr hs hname hname'

theorem targetName?_ne_cfa {r : UInt16} {name : String}
    (h : targetName? family returnAddress r = some name) : name ≠ ".cfa" := by
  rw [targetName?] at h
  split at h
  · cases h
    decide
  · exact (Cpu.Family.isRuleName_of_ruleName? h).2.1

/-- Whether the rules given last are in effect, as far as they have a text. -/
structure Tracks (family : Cpu.Family) (returnAddress : UInt16) (listed : UInt16 → Prop)
    (given : Given) (rules : List TextRule) : Prop where
  cfa : ∀ c, given.cfa = some c → ∃ q ∈ rules, cfaRule? family c = some q
  registers : ∀ r rule q, given.registers.lookup r = some rule →
    registerRule? family returnAddress r rule = some q → q ∈ rules
  listed : ∀ r rule, given.registers.lookup r = some rule → listed r

theorem tracks_nil : Tracks family returnAddress listed {} [] :=
  ⟨nofun, nofun, nofun⟩

theorem Tracks.giveCfa (h : Tracks family returnAddress listed given rules) {c : CfaRule}
    {q : TextRule} (hq : cfaRule? family c = some q) :
    Tracks family returnAddress listed ⟨some c, given.registers⟩ (put q rules) := by
  refine ⟨?_, ?_, h.listed⟩
  · rintro c' ⟨⟩
    exact ⟨q, RuleSet.mem_put_self q rules, hq⟩
  · intro r rule p hlookup hp
    obtain ⟨-, name, hname, hregister⟩ := registerRule?_eq_some_iff.1 hp
    obtain ⟨_, _, _, -, -, hcfa, -⟩ := cfaRule?_eq_some hq
    refine RuleSet.mem_put_of_ne (h.registers r rule p hlookup hp) ?_
    rw [hregister, hcfa]
    exact fun heq => targetName?_ne_cfa hname (String.toList_inj.1 heq)

theorem Tracks.give (h : Tracks family returnAddress listed given rules)
    (hapart : Apart family listed) {r : UInt16} (hr : listed r) (rule : RegisterRule) :
    Tracks family returnAddress listed ⟨given.cfa, (r, rule) :: given.registers⟩
      (putAll (registerRule? family returnAddress r rule).toList rules) := by
  refine ⟨?_, ?_, ?_⟩
  · intro c hc
    obtain ⟨q, hq, hcfa⟩ := h.cfa c hc
    refine ⟨q, ?_, hcfa⟩
    cases hp : registerRule? family returnAddress r rule with
    | none => exact hq
    | some p =>
        obtain ⟨-, name, hname, hregister⟩ := registerRule?_eq_some_iff.1 hp
        obtain ⟨_, _, _, -, -, htarget, -⟩ := cfaRule?_eq_some hcfa
        refine RuleSet.mem_put_of_ne hq ?_
        rw [hregister, htarget]
        exact fun heq => targetName?_ne_cfa hname (String.toList_inj.1 heq).symm
  · intro s other q hlookup hq
    rw [List.lookup_cons] at hlookup
    split at hlookup
    · rename_i hsame
      cases hlookup
      rw [beq_iff_eq.1 hsame] at hq
      rw [hq]
      exact RuleSet.mem_put_self q rules
    · rename_i hother
      have hmem := h.registers s other q hlookup hq
      cases hp : registerRule? family returnAddress r rule with
      | none => exact hmem
      | some p =>
          -- the new rule is for another name, so it leaves this one as it is
          obtain ⟨-, name, hname, hregister⟩ := registerRule?_eq_some_iff.1 hp
          obtain ⟨-, name', hname', hregister'⟩ := registerRule?_eq_some_iff.1 hq
          refine RuleSet.mem_put_of_ne hmem ?_
          rw [hregister, hregister']
          intro heq
          rw [String.toList_inj.1 heq] at hname'
          have hs := hapart.eq_of_targetName? (h.listed s other hlookup) hr hname' hname
          simp [hs] at hother
  · intro s other hlookup
    rw [List.lookup_cons] at hlookup
    split at hlookup
    · rename_i hsame
      rw [beq_iff_eq.1 hsame]
      exact hr
    · exact h.listed s other hlookup

theorem Tracks.giveAll {row : List (UInt16 × RegisterRule)}
    (h : Tracks family returnAddress listed given rules) (hapart : Apart family listed)
    (hrow : ∀ e ∈ row, listed e.1) :
    Tracks family returnAddress listed ⟨given.cfa, givenAfter given.registers row⟩
      (putAll ((changes family returnAddress given.registers row).map Prod.snd) rules) := by
  induction row generalizing given rules with
  | nil => exact h
  | cons head row ih =>
      obtain ⟨r, rule⟩ := head
      have hrest : ∀ e ∈ row, listed e.1 := fun e he => hrow e (List.mem_cons_of_mem _ he)
      rw [changes, givenAfter]
      split
      · exact ih h hrest
      · have hgive := h.give hapart (hrow (r, rule) (List.mem_cons_self ..)) rule
        rw [List.map_append, RuleSet.putAll_append, List.map_map, List.map_id'']
        · exact ih hgive hrest
        · intro q
          rfl

/-- A row keeps the rules given last in effect, with its own. -/
theorem Tracks.row (h : Tracks family returnAddress listed given rules)
    (hapart : Apart family listed) {row : UnwindRow} {line : List TextRule}
    (hline : Changed family returnAddress given row line)
    (hrow : ∀ e ∈ row.registers, listed e.1) :
    Tracks family returnAddress listed (given.after row) (putAll line rules) := by
  obtain ⟨cfa, hcfa, rfl⟩ := hline
  rw [RuleSet.putAll_append]
  rcases hcfa with ⟨hsame, rfl⟩ | ⟨q, hq, rfl⟩
  · have hrow := h.giveAll hapart hrow
    rwa [hsame] at hrow
  · exact (h.giveCfa hq).giveAll hapart hrow

/-! ## Rules of a row -/

theorem lookup_givenAfter_of_notMem {r : UInt16} {given row : List (UInt16 × RegisterRule)}
    (h : r ∉ row.map Prod.fst) : (givenAfter given row).lookup r = given.lookup r := by
  induction row generalizing given with
  | nil => rfl
  | cons e row ih =>
      rw [List.map_cons, List.mem_cons, not_or] at h
      rw [givenAfter, ih h.2]
      split
      · rfl
      · rw [List.lookup_cons, beq_eq_false_iff_ne.2 h.1]

theorem lookup_givenAfter {given row : List (UInt16 × RegisterRule)}
    (hunique : (row.map Prod.fst).Nodup) {e : UInt16 × RegisterRule} (he : e ∈ row) :
    (givenAfter given row).lookup e.1 = some e.2 := by
  induction row generalizing given with
  | nil => cases he
  | cons head row ih =>
      obtain ⟨hnew, hrest⟩ := List.nodup_cons.1 hunique
      rcases List.mem_cons.1 he with rfl | he
      · rw [givenAfter, lookup_givenAfter_of_notMem hnew]
        split
        · assumption
        · rw [List.lookup_cons_self]
      · exact ih hrest he

structure Lists (family : Cpu.Family) (returnAddress : UInt16) (row : UnwindRow)
    (rules : List TextRule) : Prop where
  cfa : ∃ q ∈ rules, cfaRule? family row.cfa = some q
  registers : ∀ e ∈ row.registers, ∀ q,
    registerRule? family returnAddress e.1 e.2 = some q → q ∈ rules

theorem Tracks.lists {row : UnwindRow}
    (h : Tracks family returnAddress listed (given.after row) rules)
    (hunique : (row.registers.map Prod.fst).Nodup) : Lists family returnAddress row rules := by
  refine ⟨h.cfa row.cfa rfl, ?_⟩
  intro e he q hq
  exact h.registers e.1 e.2 q (lookup_givenAfter hunique he) hq

/-! ## The rule for the return address -/

theorem mem_changes {r : UInt16} {rule : RegisterRule} {q : TextRule}
    {given row : List (UInt16 × RegisterRule)} (h : (givenAfter given row).lookup r = some rule)
    (hq : registerRule? family returnAddress r rule = some q) :
    given.lookup r = some rule ∨ (r, q) ∈ changes family returnAddress given row := by
  induction row generalizing given with
  | nil => exact .inl h
  | cons head row ih =>
      obtain ⟨s, other⟩ := head
      rw [givenAfter] at h
      rw [changes]
      split
      · rename_i hsame
        rw [if_pos hsame] at h
        exact ih h
      · rename_i hnew
        rw [if_neg hnew] at h
        rcases ih h with hlookup | hmem
        · rw [List.lookup_cons] at hlookup
          split at hlookup
          · rename_i hs
            cases hlookup
            rw [← beq_iff_eq.1 hs, hq]
            exact .inr (List.mem_append_left _ (List.mem_singleton_self _))
          · exact .inl hlookup
        · exact .inr (List.mem_append_right _ hmem)

/-- The rule for the return address is added only where the first row gives none. -/
theorem Tracks.link {row : UnwindRow}
    (h : Tracks family returnAddress listed (Given.after {} row) rules) :
    Tracks family returnAddress listed (Given.after {} row)
      (putAll (linkRules family returnAddress row) rules) := by
  rw [linkRules]
  split
  · rename_i hlink
    rw [Bool.and_eq_true, Bool.not_eq_true', List.any_eq_false] at hlink
    refine ⟨?_, ?_, h.listed⟩
    · intro c hc
      obtain ⟨q, hq, hcfa⟩ := h.cfa c hc
      obtain ⟨_, _, _, -, -, htarget, -⟩ := cfaRule?_eq_some hcfa
      refine ⟨q, RuleSet.mem_put_of_ne hq ?_, hcfa⟩
      rw [htarget]
      decide
    · intro r rule q hlookup hq
      refine RuleSet.mem_put_of_ne (h.registers r rule q hlookup hq) ?_
      intro hra
      obtain ⟨-, name, hname, hregister⟩ := registerRule?_eq_some_iff.1 hq
      have hname' : name = ".ra" := String.toList_inj.1 (hregister.symm.trans hra)
      subst hname'
      have hr : r = returnAddress := by
        rw [targetName?] at hname
        split at hname
        · assumption
        · exact absurd rfl (Cpu.Family.isRuleName_of_ruleName? hname).2.2
      rcases mem_changes hlookup hq with hnone | hmem
      · cases hnone
      · exact hlink.2 (r, q) hmem (beq_iff_eq.2 hr)
  · exact h

/-! ## Whole programs -/

theorem not_le_of_sorted {first a : UInt64} {addresses : List UInt64}
    (h : (first :: addresses).Pairwise (· < ·)) (hfirst : ¬ first ≤ a) :
    ∀ b ∈ first :: addresses, ¬ b ≤ a := by
  intro b hb hle
  rcases List.mem_cons.1 hb with rfl | hb
  · exact hfirst hle
  · have hlt := (List.pairwise_cons.1 h).1 b hb
    exact hfirst (UInt64.le_of_lt (UInt64.lt_of_lt_of_le hlt hle))

/-- The rules that a row changes are put first, and there is no change for a row without any. -/
theorem foldl_line {address a : UInt64} {line : List TextRule} (hline : ∀ q ∈ line, q.Readable)
    (haddress : address ≤ a) (s : RuleSet) (rest : List (UInt64 × String)) :
    ∃ t : RuleSet, t.rules = putAll line s.rules ∧
      ((if line.isEmpty then rest
        else (address, joinRules (line.map TextRule.text)) :: rest).filter
          (·.1 ≤ a)).foldl (fun s d => s.apply d.2) s =
        (rest.filter (·.1 ≤ a)).foldl (fun s d => s.apply d.2) t := by
  split
  · rename_i hempty
    rw [List.isEmpty_iff.1 hempty]
    exact ⟨s, rfl, rfl⟩
  · refine ⟨s.apply (joinRules (line.map TextRule.text)), ?_, ?_⟩
    · rw [RuleSet.apply_rules, rulesOf_joinRules hline]
    · rw [List.filter_cons_of_pos (by simpa using haddress)]
      rfl

theorem lists_after {first row : UnwindRow} {rows : List UnwindRow} {s : RuleSet}
    {later : List (UInt64 × String)} {a : UInt64}
    (htracks : Tracks family returnAddress listed (given.after first) s.rules)
    (hlater : rowDeltas family returnAddress (given.after first) rows = .ok later)
    (hapart : Apart family listed)
    (hlisted : ∀ row ∈ first :: rows, ∀ e ∈ row.registers, listed e.1)
    (hunique : ∀ row ∈ first :: rows, (row.registers.map Prod.fst).Nodup)
    (hsorted : ((first :: rows).map (·.address)).Pairwise (· < ·)) (hfirst : first.address ≤ a)
    (hrow : ((first :: rows).filter (·.address ≤ a)).getLast? = some row) :
    Lists family returnAddress row
      ((later.filter (·.1 ≤ a)).foldl (fun s d => s.apply d.2) s).rules := by
  induction rows generalizing first s later given with
  | nil =>
      cases hlater
      rw [List.filter_cons_of_pos (by simpa using hfirst)] at hrow
      cases hrow
      exact htracks.lists (hunique first (List.mem_cons_self ..))
  | cons second rows ih =>
      have hsorted' := (List.pairwise_cons.1 hsorted).2
      rw [List.filter_cons_of_pos (by simpa using hfirst)] at hrow
      by_cases hsecond : second.address ≤ a
      · -- the second row is in effect too, on the rules that it leaves
        obtain ⟨line, rest, hline, hrest, rfl⟩ := rowDeltas_cons_eq_ok hlater
        have hnext := htracks.row hapart hline (hlisted second (by simp))
        obtain ⟨t, ht, hfold⟩ := foldl_line hline.readable hsecond s rest
        rw [← ht] at hnext
        rw [hfold]
        refine ih hnext hrest (fun row hrow => hlisted row (List.mem_cons_of_mem _ hrow))
          (fun row hrow => hunique row (List.mem_cons_of_mem _ hrow)) hsorted' hsecond ?_
        rwa [List.filter_cons_of_pos (by simpa using hsecond), List.getLast?_cons_cons,
          ← List.filter_cons_of_pos (by simpa using hsecond)] at hrow
      · -- no change from the second row on is in effect
        have hbehind := not_le_of_sorted hsorted' hsecond
        have hrows : (second :: rows).filter (·.address ≤ a) = [] := by
          rw [List.filter_eq_nil_iff]
          intro row hmem
          simpa using hbehind row.address (List.mem_map_of_mem hmem)
        obtain ⟨-, hsub⟩ := rowDeltas_spec hlater
        have hchanges : later.filter (·.1 ≤ a) = [] := by
          rw [List.filter_eq_nil_iff]
          intro d hd
          simpa using hbehind d.1 (hsub.subset (List.mem_map_of_mem hd))
        rw [hrows] at hrow
        cases hrow
        rw [hchanges]
        exact htracks.lists (hunique first (List.mem_cons_self ..))

def ListedIn (rows : List UnwindRow) (r : UInt16) : Prop :=
  ∃ row ∈ rows, ∃ e ∈ row.registers, e.1 = r

/-- At an address, the program of some rows has the rules of the row in effect. -/
theorem lists_rulesAt {start stop a : UInt64} {rows : List UnwindRow} {row : UnwindRow}
    {p : Program} (h : programOfRows family start stop returnAddress rows = .ok p)
    (hapart : Apart family (ListedIn rows))
    (hunique : ∀ row ∈ rows, (row.registers.map Prod.fst).Nodup)
    (hrow : (rows.filter (·.address ≤ a)).getLast? = some row) :
    Lists family returnAddress row (p.rulesAt a).rules := by
  have hsound := sound_programOfRows h
  obtain ⟨hcheck, first, rows, line, rfl, hline, hinit, hdeltas⟩ := programOfRows_eq_ok h
  have hsorted := sorted_of_checkAddresses hcheck
  have hlisted : ∀ row ∈ first :: rows, ∀ e ∈ row.registers, ListedIn (first :: rows) e.1 :=
    fun row hrow e he => ⟨row, hrow, e, he, rfl⟩
  have hfirst : first.address ≤ a := by
    obtain ⟨hmem, hle⟩ := List.mem_filter.1 (List.mem_of_getLast? hrow)
    by_contra hbehind
    exact not_le_of_sorted hsorted hbehind row.address (List.mem_map_of_mem hmem)
      (by simpa using hle)
  have htracks : Tracks family returnAddress (ListedIn (first :: rows)) (Given.after {} first)
      (RuleSet.parse p.init).rules := by
    rw [RuleSet.parse, RuleSet.apply_rules, hinit, rulesOf_joinRules hline.readable_first,
      RuleSet.putAll_append]
    exact (tracks_nil.row hapart hline (hlisted first (List.mem_cons_self ..))).link
  rw [hsound.rulesAt_eq]
  exact lists_after htracks hdeltas hapart hlisted hunique hsorted hfirst hrow

end Postmortem.CfiCache
