import Postmortem.Proofs.CfiCache.RowLookups

/-!
# Registers with a rule

A row is written as changes to the rules before it, and there is no text that takes a rule away.  So
a register that one row restores has a rule at all later addresses of the table.  The invariant is
that the rules in effect name the registers of all rows up to now, in effect or not.
-/

set_option autoImplicit false

namespace Postmortem.CfiCache

open Debug (Object RegisterRule UnwindRow)
open Postfix (Register Rule Width)
open RuleSet (Named putAll)

variable {family : Cpu.Family} {returnAddress : UInt16} {given : Given} {name : String} {w : Width}

/-! ## Names of rows -/

def Restored (family : Cpu.Family) (returnAddress : UInt16)
    (registers : List (UInt16 × RegisterRule)) (name : String) : Prop :=
  ∃ e ∈ registers, targetName? family returnAddress e.1 = some name ∧
    (registerText? family returnAddress e.1 e.2).isSome

instance {registers : List (UInt16 × RegisterRule)} :
    Decidable (Restored family returnAddress registers name) :=
  inferInstanceAs (Decidable (∃ e ∈ registers, _))

theorem restored_iff_rule {registers : List (UInt16 × RegisterRule)} :
    Restored family returnAddress registers name ↔ ∃ e ∈ registers, ∃ q,
      registerRule? family returnAddress e.1 e.2 = some q ∧ q.register = name.toList := by
  refine exists_congr fun e => and_congr_right fun _ => ?_
  rw [registerText?_eq, Option.isSome_map, Option.isSome_iff_exists]
  constructor
  · rintro ⟨hname, q, hq⟩
    obtain ⟨-, name', hname', hregister⟩ := registerRule?_eq_some_iff.1 hq
    cases hname.symm.trans hname'
    exact ⟨q, hq, hregister⟩
  · rintro ⟨q, hq, hregister⟩
    obtain ⟨-, name', hname, hregister'⟩ := registerRule?_eq_some_iff.1 hq
    rw [String.toList_inj.1 (hregister.symm.trans hregister')]
    exact ⟨hname, q, hq⟩

theorem restored_cons {e : UInt16 × RegisterRule} {registers : List (UInt16 × RegisterRule)} :
    Restored family returnAddress (e :: registers) name ↔
      Restored family returnAddress [e] name ∨ Restored family returnAddress registers name := by
  simp only [Restored, List.mem_cons, List.not_mem_nil, or_false, or_and_right, exists_or]

theorem mem_of_lookup {register : UInt16} {rule : RegisterRule}
    {registers : List (UInt16 × RegisterRule)} (h : registers.lookup register = some rule) :
    (register, rule) ∈ registers := by
  obtain ⟨before, after, rfl, -⟩ := List.lookup_eq_some_iff.1 h
  simp

theorem mem_givenAfter {registers row : List (UInt16 × RegisterRule)}
    {e : UInt16 × RegisterRule} : e ∈ givenAfter registers row ↔ e ∈ registers ∨ e ∈ row := by
  induction row generalizing registers with
  | nil => simp [givenAfter]
  | cons head row ih =>
      rw [givenAfter, ih, List.mem_cons]
      split
      · rename_i hsame
        have hhead := mem_of_lookup hsame
        constructor
        · exact Or.imp_right .inr
        · rintro (he | rfl | he)
          · exact .inl he
          · exact .inl hhead
          · exact .inr he
      · rw [List.mem_cons, or_left_comm, or_assoc]

theorem restored_givenAfter {registers row : List (UInt16 × RegisterRule)} :
    Restored family returnAddress (givenAfter registers row) name ↔
      Restored family returnAddress registers name ∨ Restored family returnAddress row name := by
  simp only [Restored, mem_givenAfter, or_and_right, exists_or]

/-- The rules that a row does not repeat name registers that were named before. -/
theorem named_changes {registers row : List (UInt16 × RegisterRule)} :
    Restored family returnAddress registers name ∨
        Named name ((changes family returnAddress registers row).map Prod.snd) ↔
      Restored family returnAddress registers name ∨ Restored family returnAddress row name := by
  induction row generalizing registers with
  | nil => simp [changes, Named, Restored]
  | cons head row ih =>
      obtain ⟨register, rule⟩ := head
      rw [changes, restored_cons (e := (register, rule))]
      split
      · rename_i hsame
        have hrestored : Restored family returnAddress [(register, rule)] name →
            Restored family returnAddress registers name := by
          rintro ⟨e, he, hname⟩
          rw [List.mem_singleton.1 he] at hname
          exact ⟨_, mem_of_lookup hsame, hname⟩
        rw [ih, ← or_assoc, or_iff_left_of_imp hrestored]
      · have hrule : Named name (((registerRule? family returnAddress register rule).toList.map
            (register, ·)).map Prod.snd) ↔
            Restored family returnAddress [(register, rule)] name := by
          rw [restored_iff_rule]
          simp [Named, Function.comp_def]
        rw [List.map_append, RuleSet.named_append, hrule, ← or_assoc, ← or_assoc,
          or_comm (b := Restored family returnAddress [_] name), ← restored_cons]
        exact ih

/-- Whether a row has a rule for a name: that of the canonical frame address, or of a register that
it restores. -/
def Gives (family : Cpu.Family) (returnAddress : UInt16) (row : UnwindRow) (name : String) : Prop :=
  name = ".cfa" ∨ Restored family returnAddress row.registers name

def Given.Names (family : Cpu.Family) (returnAddress : UInt16) (given : Given) (name : String) :
    Prop :=
  (given.cfa.isSome ∧ name = ".cfa") ∨ Restored family returnAddress given.registers name

theorem Given.names_after {row : UnwindRow} :
    (given.after row).Names family returnAddress name ↔
      given.Names family returnAddress name ∨ Gives family returnAddress row name := by
  have hcfa : given.cfa.isSome ∧ name = ".cfa" → name = ".cfa" := And.right
  rw [Names, Names, Gives, after, restored_givenAfter, Option.isSome_some, and_iff_right rfl,
    or_or_or_comm, or_iff_right_of_imp hcfa]

theorem Changed.names {row : UnwindRow} {line : List TextRule}
    (h : Changed family returnAddress given row line) :
    given.Names family returnAddress name ∨ Named name line ↔
      given.Names family returnAddress name ∨ Gives family returnAddress row name := by
  obtain ⟨cfa, hcfa, rfl⟩ := h
  have hregisters : Restored family returnAddress given.registers name ∨
        Named name ((changes family returnAddress given.registers row.registers).map Prod.snd) ↔
      Restored family returnAddress given.registers name ∨
        Restored family returnAddress row.registers name := named_changes
  have hline : (given.cfa.isSome ∧ name = ".cfa") ∨ Named name cfa ↔ name = ".cfa" := by
    rcases hcfa with ⟨hsame, rfl⟩ | ⟨q, hq, rfl⟩
    · simp [hsame, Named]
    · obtain ⟨_, _, _, -, -, hregister, -⟩ := cfaRule?_eq_some hq
      have hnamed : Named name [q] ↔ name = ".cfa" := by
        simp only [Named, List.mem_singleton, exists_eq_left, hregister, String.toList_inj]
        exact eq_comm
      rw [hnamed]
      exact or_iff_right_of_imp And.right
  have hcfa : given.cfa.isSome ∧ name = ".cfa" → name = ".cfa" := And.right
  rw [RuleSet.named_append, Given.Names, Gives, or_or_or_comm, hline, hregisters,
    or_or_or_comm (a := _ ∧ _), or_iff_right_of_imp hcfa]

/-! ## Names of programs -/

/-- The changes up to an address are those of the rows up to it. -/
theorem rowDeltas_filter {rows : List UnwindRow} {deltas : List (UInt64 × String)}
    (h : rowDeltas family returnAddress given rows = .ok deltas)
    (hsorted : (rows.map (·.address)).Pairwise (· < ·)) (a : UInt64) :
    rowDeltas family returnAddress given (rows.filter (·.address ≤ a)) =
      .ok (deltas.filter (·.1 ≤ a)) := by
  induction rows generalizing given deltas with
  | nil =>
      cases h
      rfl
  | cons row rows ih =>
      by_cases hrow : row.address ≤ a
      · obtain ⟨⟨cfa, texts, given'⟩, hchanges, h⟩ := bind_eq_ok.1 h
        obtain ⟨later, hlater, h⟩ := bind_eq_ok.1 h
        have hrest := ih hlater (List.pairwise_cons.1 hsorted).2
        rw [List.filter_cons_of_pos (by simpa using hrow)]
        refine bind_eq_ok.2 ⟨_, hchanges, bind_eq_ok.2 ⟨_, hrest, ?_⟩⟩
        rw [← Except.ok.inj h]
        dsimp only
        split
        · rfl
        · rw [List.filter_cons_of_pos (by simpa using hrow)]
          rfl
      · have hbehind := not_le_of_sorted hsorted hrow
        have hrows : (row :: rows).filter (·.address ≤ a) = [] := by
          rw [List.filter_eq_nil_iff]
          intro r hr
          simpa using hbehind r.address (List.mem_map_of_mem hr)
        have hdeltas : deltas.filter (·.1 ≤ a) = [] := by
          rw [List.filter_eq_nil_iff]
          intro d hd
          simpa using hbehind d.1 ((rowDeltas_spec h).2.subset (List.mem_map_of_mem hd))
        rw [hrows, hdeltas]
        rfl

/-- The changes of some rows name, beyond what was given before, what these rows give. -/
theorem named_rowDeltas {rows : List UnwindRow} {deltas : List (UInt64 × String)}
    (h : rowDeltas family returnAddress given rows = .ok deltas) :
    given.Names family returnAddress name ∨ (∃ d ∈ deltas, Named name (rulesOf d.2)) ↔
      given.Names family returnAddress name ∨
        ∃ row ∈ rows, Gives family returnAddress row name := by
  induction rows generalizing given deltas with
  | nil =>
      cases h
      simp
  | cons row rows ih =>
      obtain ⟨line, later, hline, hlater, rfl⟩ := rowDeltas_cons_eq_ok h
      have hnames : (∃ d ∈ if line.isEmpty then later
          else (row.address, joinRules (line.map TextRule.text)) :: later,
            Named name (rulesOf d.2)) ↔
          Named name line ∨ ∃ d ∈ later, Named name (rulesOf d.2) := by
        split
        · rename_i hempty
          rw [List.isEmpty_iff.1 hempty]
          simp [Named]
        · rw [List.exists_mem_cons_iff, rulesOf_joinRules hline.readable]
      have hlater := ih hlater
      rw [Given.names_after] at hlater
      rw [hnames, List.exists_mem_cons_iff, ← or_assoc, ← or_assoc, hline.names]
      exact hlater

theorem given_of_mem_changes {registers row : List (UInt16 × RegisterRule)}
    {e : UInt16 × TextRule} (h : e ∈ changes family returnAddress registers row) :
    ∃ rule, (e.1, rule) ∈ row ∧ registerRule? family returnAddress e.1 rule = some e.2 := by
  induction row generalizing registers with
  | nil => cases h
  | cons head row ih =>
      obtain ⟨register, rule⟩ := head
      have hlater {registers : List (UInt16 × RegisterRule)}
          (h : e ∈ changes family returnAddress registers row) : ∃ rule', (e.1, rule') ∈
            (register, rule) :: row ∧ registerRule? family returnAddress e.1 rule' = some e.2 := by
        obtain ⟨rule', hmem, hrule⟩ := ih h
        exact ⟨rule', List.mem_cons_of_mem _ hmem, hrule⟩
      rw [changes] at h
      split at h
      · exact hlater h
      · rcases List.mem_append.1 h with h | h
        · obtain ⟨q, hq, rfl⟩ := List.mem_map.1 h
          exact ⟨rule, List.mem_cons_self .., Option.mem_toList.1 hq⟩
        · exact hlater h

/-- The first row, with the rule that may be added to it, gives what it lists and a rule for the
return address where that is in a register of its own. -/
theorem named_first {row : UnwindRow} {line : List TextRule}
    (hline : Changed family returnAddress {} row line) :
    Named name (line ++ linkRules family returnAddress row) ↔
      Gives family returnAddress row name ∨ (hasLinkRule family = true ∧ name = ".ra") := by
  have hnone : ¬ Given.Names family returnAddress {} name := by simp [Given.Names, Restored]
  have hnames : Given.Names family returnAddress {} name ∨ Named name line ↔
      Given.Names family returnAddress {} name ∨ Gives family returnAddress row name := hline.names
  rw [or_iff_right hnone, or_iff_right hnone] at hnames
  rw [RuleSet.named_append, hnames, linkRules]
  by_cases hlink : hasLinkRule family = true
  · cases hany : (changes family returnAddress [] row.registers).any (·.1 == returnAddress) with
    | false =>
        have hra : Named name [linkRule] ↔ name = ".ra" := by
          simp only [Named, List.mem_singleton, exists_eq_left, linkRule, String.toList_inj]
          exact eq_comm
        simp [hlink, hra]
    | true =>
        -- no rule is added, for the row restores the return address itself
        obtain ⟨e, he, hreturn⟩ := List.any_eq_true.1 hany
        obtain ⟨rule, hmem, hrule⟩ := given_of_mem_changes he
        have hname : targetName? family returnAddress e.1 = some ".ra" := by
          rw [targetName?, if_pos (beq_iff_eq.1 hreturn)]
        have hra : name = ".ra" → Gives family returnAddress row name := by
          rintro rfl
          refine .inr ⟨_, hmem, hname, ?_⟩
          rw [registerText?_eq, hrule]
          rfl
        simp only [hlink, Bool.not_true, Bool.and_false, Bool.false_eq_true, if_false, true_and]
        simp only [Named, List.not_mem_nil, false_and, exists_false, or_false]
        rw [or_iff_left_of_imp hra]
  · simp [hlink, Named]

/-- At an address, the program of some rows has rules for what the rows up to it give. -/
theorem named_rulesAt {start stop a : UInt64} {rows : List UnwindRow} {row : UnwindRow}
    {p : Program} (h : programOfRows family start stop returnAddress rows = .ok p)
    (hrow : row ∈ rows) (hle : row.address ≤ a) :
    Named name (p.rulesAt a).rules ↔
      name = ".cfa" ∨ (hasLinkRule family = true ∧ name = ".ra") ∨
        ∃ row ∈ rows, row.address ≤ a ∧ Restored family returnAddress row.registers name := by
  have hsound := sound_programOfRows h
  obtain ⟨hcheck, first, rows, line, rfl, hline, hinit, hdeltas⟩ := programOfRows_eq_ok h
  have hsorted := sorted_of_checkAddresses hcheck
  have hfirst : first.address ≤ a := by
    by_contra hbehind
    exact not_le_of_sorted hsorted hbehind row.address (List.mem_map_of_mem hrow) hle
  have hupTo := rowDeltas_filter hdeltas (List.pairwise_cons.1 hsorted).2 a
  have hinitial : Named name (RuleSet.parse p.init).rules ↔
      Gives family returnAddress first name ∨ (hasLinkRule family = true ∧ name = ".ra") := by
    rw [RuleSet.parse, RuleSet.apply_rules, hinit, rulesOf_joinRules hline.readable_first,
      RuleSet.named_putAll, named_first hline]
    simp [Named]
  have hgiven : (Given.after {} first).Names family returnAddress name ↔
      Gives family returnAddress first name := by
    rw [Given.names_after]
    simp [Given.Names, Restored]
  have hlater := @named_rowDeltas _ _ _ name _ _ hupTo
  rw [hgiven] at hlater
  rw [hsound.rulesAt_eq, Program.fold, RuleSet.named_foldl, hinitial, or_right_comm, hlater]
  rw [List.exists_mem_cons_iff, and_iff_right hfirst]
  constructor
  · rintro (((hcfa | hname) | ⟨row, hrow, hcfa | hname⟩) | hlink)
    · exact .inl hcfa
    · exact .inr (.inr (.inl hname))
    · exact .inl hcfa
    · obtain ⟨hrow, hle⟩ := List.mem_filter.1 hrow
      exact .inr (.inr (.inr ⟨row, hrow, of_decide_eq_true hle, hname⟩))
    · exact .inr (.inl hlink)
  · rintro (hcfa | hlink | hname | ⟨row, hrow, hle, hname⟩)
    · exact .inl (.inl (.inl hcfa))
    · exact .inr hlink
    · exact .inl (.inl (.inr hname))
    · exact .inl (.inr ⟨row, List.mem_filter.2 ⟨hrow, decide_eq_true hle⟩, .inr hname⟩)

/-! ## Names that lookups find -/

theorem lookup?_named {o : Object} {bytes : Bytes} (h : ofObject o = .ok bytes) :
    ∃ s, parse bytes = .ok s ∧ ∀ a t returnAddress rows row, Wins o a t →
      t.rules = .rows returnAddress rows → row ∈ rows → row.address ≤ a →
      ∀ w, ∃ rules, s.lookup? w a = some rules ∧
        (∀ x ∈ rules, ∃ name, x.register = .ofName name) ∧
        ∀ name, (∃ x ∈ rules, x.register = .ofName name) ↔
          name = ".cfa" ∨ (hasLinkRule o.arch.family = true ∧ name = ".ra") ∨
            ∃ row ∈ rows, row.address ≤ a ∧
              Restored o.arch.family returnAddress row.registers name := by
  obtain ⟨s, hparse, hlookup⟩ := lookup?_of_wins h
  refine ⟨s, hparse, ?_⟩
  intro a t returnAddress rows row hwins hrules hrow hle w
  obtain ⟨p, hp, hread⟩ := hlookup a t hwins
  rw [programOf, hrules] at hp
  obtain ⟨xs, hxs, hall⟩ := hread (sound_programOfRows hp) w
  refine ⟨xs, hxs, ?_, fun name => (named_iff_of_rules hall).trans (named_rulesAt hp hrow hle)⟩
  intro x hx
  obtain ⟨q, -, hrule⟩ := exists_left hall hx
  exact ⟨_, (TextRule.rule?_eq_some_iff.1 hrule).2⟩

/-- Whether rules for a name are in effect by a row itself: for the canonical frame address, for the
return address where that is in a register of its own, and for what the row restores. -/
def InEffect (family : Cpu.Family) (returnAddress : UInt16) (row : UnwindRow) (name : String) :
    Prop :=
  name = ".cfa" ∨ (hasLinkRule family = true ∧ name = ".ra") ∨
    Restored family returnAddress row.registers name

instance {row : UnwindRow} : Decidable (InEffect family returnAddress row name) :=
  inferInstanceAs (Decidable (_ ∨ _))

/-- Where a table of rows wins, lookups find rules for all registers that the rows up to the address
restore.  These are those of the last of these rows only where it restores what all others do. -/
theorem lookup_names_rows {o : Object} {bytes : Bytes} (h : ofObject o = .ok bytes) :
    ∃ s, parse bytes = .ok s ∧ ∀ a t returnAddress rows row, Wins o a t →
      t.rules = .rows returnAddress rows → (rows.filter (·.address ≤ a)).getLast? = some row →
      ∀ w, ∃ rules, s.lookup? w a = some rules ∧
        (∀ name, (∃ x ∈ rules, x.register = .ofName name) ↔
          name = ".cfa" ∨ (hasLinkRule o.arch.family = true ∧ name = ".ra") ∨
            ∃ row ∈ rows, row.address ≤ a ∧
              Restored o.arch.family returnAddress row.registers name) ∧
        ((∀ x ∈ rules, ∃ name, x.register = .ofName name ∧
            InEffect o.arch.family returnAddress row name) ↔
          ∀ earlier ∈ rows, earlier.address ≤ a → ∀ name,
            Restored o.arch.family returnAddress earlier.registers name →
              InEffect o.arch.family returnAddress row name) := by
  obtain ⟨s, hparse, hlookup⟩ := lookup?_named h
  refine ⟨s, hparse, ?_⟩
  intro a t returnAddress rows row hwins hrules hrow w
  obtain ⟨hmem, hle⟩ := List.mem_filter.1 (List.mem_of_getLast? hrow)
  obtain ⟨xs, hxs, hregister, hnames⟩ :=
    hlookup a t returnAddress rows row hwins hrules hmem (of_decide_eq_true hle) w
  refine ⟨xs, hxs, hnames, ?_⟩
  constructor
  · intro hown earlier hearlier hbefore name hrestored
    obtain ⟨x, hx, hname⟩ := (hnames name).2 (.inr (.inr ⟨earlier, hearlier, hbefore, hrestored⟩))
    obtain ⟨name', hname', heffect⟩ := hown x hx
    rwa [Register.ofName_injective (hname.symm.trans hname')]
  · intro hrestores x hx
    obtain ⟨name, hname⟩ := hregister x hx
    refine ⟨name, hname, ?_⟩
    rcases (hnames name).1 ⟨x, hx, hname⟩ with hcfa | hlink | ⟨earlier, hearlier, hbefore, hrest⟩
    · exact .inl hcfa
    · exact .inr (.inl hlink)
    · exact hrestores earlier hearlier hbefore name hrest

theorem wins_sampleObject :
    Wins sampleObject 0x1030 ⟨.debugFrame, 0x1000, 0x40, .rows 16 sampleRows⟩ := by
  refine ⟨[], _, rfl, ⟨by decide, by decide, by decide⟩, nofun, ?_⟩
  intro t ht hcov
  rw [List.mem_singleton.1 ht] at hcov
  exact absurd hcov.2.2 (by decide)

theorem lookup_names_rows_sample :
    ∃ bytes s t row, ofObject sampleObject = .ok bytes ∧ parse bytes = .ok s ∧
      Wins sampleObject 0x1030 t ∧ t.rules = .rows 16 sampleRows ∧
      (sampleRows.filter (·.address ≤ 0x1030)).getLast? = some row ∧ row.address = 0x1004 ∧
      ∀ w, ∃ rules, s.lookup? w 0x1030 = some rules ∧
        ∀ x ∈ rules, ∃ name, x.register = .ofName name ∧ InEffect .amd64 16 row name := by
  obtain ⟨bytes, hbytes⟩ := sampleObject_written
  obtain ⟨s, hparse, hlookup⟩ := lookup_names_rows hbytes
  refine ⟨bytes, s, _, _, hbytes, hparse, wins_sampleObject, rfl, rfl, rfl, ?_⟩
  intro w
  obtain ⟨rules, hrules, -, heffect⟩ := hlookup 0x1030 _ 16 sampleRows _ wins_sampleObject rfl rfl w
  refine ⟨rules, hrules, heffect.2 ?_⟩
  -- the later row restores `.ra`, which is all that the earlier one does, and `$rbp`
  have hlisted : ∀ row ∈ sampleRows, ∀ e ∈ row.registers, ∀ name ∈ targetName? .amd64 16 e.1,
      InEffect .amd64 16 ⟨0x1004, .registerOffset 7 16, [(16, .offset (-8)), (6, .offset (-16))]⟩
        name := by
    decide +kernel
  rintro earlier hearlier - name ⟨e, he, hname, -⟩
  exact hlisted earlier hearlier e he name hname

def lostRows : List UnwindRow :=
  [{ address := 0x1000, cfa := .registerOffset 7 8
     registers := [(16, .offset (-8)), (6, .offset (-16))] },
    { address := 0x1004, cfa := .registerOffset 7 8
      registers := [(16, .offset (-8)), (6, .undefined)] }]

def lostRegister : Object where
  arch := .amd64
  loadAddress := 0x1000
  unwindTables :=
    [{ source := .ehFrame, address := 0x1000, size := 0x10, rules := .rows 16 lostRows }]

theorem lostRegister_written : ∃ bytes, ofObject lostRegister = .ok bytes := by
  have hok : (ofObject lostRegister).toOption.isSome = true := by
    decide +kernel
  exact exists_ok_of_isSome hok

/-- The rule of an earlier row stays where a later one says that the value is lost. -/
theorem lost_register_keeps_rule :
    ∃ bytes s t row rules, ofObject lostRegister = .ok bytes ∧ parse bytes = .ok s ∧
      Wins lostRegister 0x1004 t ∧ t.rules = .rows 16 lostRows ∧
      (lostRows.filter (·.address ≤ 0x1004)).getLast? = some row ∧
      row.registers.lookup 6 = some .undefined ∧ s.lookup? .w64 0x1004 = some rules ∧
      (∃ x ∈ rules, x.register = .ofName "$rbp") ∧
      ¬ ∀ x ∈ rules, ∃ name, x.register = .ofName name ∧ InEffect .amd64 16 row name := by
  obtain ⟨bytes, hbytes⟩ := lostRegister_written
  obtain ⟨s, hparse, hlookup⟩ := lookup?_named hbytes
  have hwins : Wins lostRegister 0x1004 ⟨.ehFrame, 0x1000, 0x10, .rows 16 lostRows⟩ :=
    ⟨[], _, rfl, ⟨by decide, by decide, by decide⟩, nofun, nofun⟩
  obtain ⟨rules, hrules, -, hnames⟩ :=
    hlookup 0x1004 _ 16 lostRows _ hwins rfl (List.mem_cons_self ..) (by decide) .w64
  have hrbp : ∃ x ∈ rules, x.register = .ofName "$rbp" := (hnames "$rbp").2 (by decide +kernel)
  refine ⟨bytes, s, _, _, rules, hbytes, hparse, hwins, rfl, rfl, rfl, hrules, hrbp, ?_⟩
  intro hown
  obtain ⟨x, hx, hname⟩ := hrbp
  obtain ⟨name, hname', heffect⟩ := hown x hx
  rw [← Register.ofName_injective (hname.symm.trans hname')] at heffect
  exact absurd heffect (by decide +kernel)

end Postmortem.CfiCache
