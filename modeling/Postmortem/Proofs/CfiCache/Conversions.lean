import Postmortem.CfiCache.Writer
import Postmortem.Proofs.CfiCache.AcceptedTexts
import Postmortem.Proofs.CfiCache.RowRules

/-!
# Converted programs

The program of a table, whether from rows or from postfix text, has a readable text with a rule for
its start and for each change, and its changes lie at increasing addresses.
-/

set_option autoImplicit false

namespace Postmortem.CfiCache

structure ReadableText (text : String) : Prop where
  ne_nil : rulesOf text ≠ []
  rules : ∀ r ∈ rulesOf text, r.Readable

theorem ReadableText.isEmpty {text : String} (h : ReadableText text) : text.isEmpty = false := by
  rw [← Bool.not_eq_true, String.isEmpty_iff]
  rintro rfl
  apply h.ne_nil
  rw [rulesOf, String.toList_empty, Text.splitBlanks]
  rfl

theorem readableText_toText {s : RuleSet} (hne : s.rules ≠ [])
    (h : ∀ r ∈ s.rules, r.Readable) : ReadableText s.toText := by
  have hrules := rulesOf_toText fun r hr => (h r hr).wellFormed
  exact ⟨by rwa [hrules], by rwa [hrules]⟩

/-! ## Texts of rows -/

theorem joinRules_text (line : List TextRule) :
    joinRules (line.map TextRule.text) = RuleSet.toText ⟨line⟩ := by
  apply String.toList_inj.1
  rw [joinRules, String.toList_intercalate, List.map_map, RuleSet.toText]
  simp [Function.comp_def, TextRule.text]

theorem rulesOf_joinRules {line : List TextRule} (h : ∀ q ∈ line, q.Readable) :
    rulesOf (joinRules (line.map TextRule.text)) = line := by
  rw [joinRules_text, rulesOf_toText fun q hq => (h q hq).wellFormed]

theorem readableText_joinRules {line : List TextRule} (hne : line ≠ [])
    (h : ∀ q ∈ line, q.Readable) : ReadableText (joinRules (line.map TextRule.text)) := by
  rw [joinRules_text]
  exact readableText_toText hne h

theorem joinRules_isEmpty {line : List TextRule} :
    (line.map TextRule.text).isEmpty = line.isEmpty := by
  cases line <;> rfl

theorem rowDeltas_cons_eq_ok {family : Cpu.Family} {returnAddress : UInt16} {given : Given}
    {row : Debug.UnwindRow} {rows : List Debug.UnwindRow} {deltas : List (UInt64 × String)}
    (h : rowDeltas family returnAddress given (row :: rows) = .ok deltas) :
    ∃ line later, Changed family returnAddress given row line ∧
      rowDeltas family returnAddress (given.after row) rows = .ok later ∧
      deltas = if line.isEmpty then later
        else (row.address, joinRules (line.map TextRule.text)) :: later := by
  obtain ⟨⟨cfa, texts, given'⟩, hchanges, h⟩ := bind_eq_ok.1 h
  obtain ⟨later, hlater, hdeltas⟩ := bind_eq_ok.1 h
  obtain ⟨rfl, -, line, hline, htexts⟩ := rowChanges_eq_ok hchanges
  refine ⟨line, later, hline, hlater, ?_⟩
  simp only [htexts, joinRules_isEmpty] at hdeltas
  exact (Except.ok.inj hdeltas).symm

def linkRule : TextRule := ⟨".ra".toList, ["$ra".toList]⟩

def linkRules (family : Cpu.Family) (returnAddress : UInt16) (row : Debug.UnwindRow) :
    List TextRule :=
  if hasLinkRule family &&
    !(changes family returnAddress [] row.registers).any (·.1 == returnAddress) then [linkRule]
  else []

theorem readable_linkRules {family : Cpu.Family} {returnAddress : UInt16} {row : Debug.UnwindRow} :
    ∀ q ∈ linkRules family returnAddress row, q.Readable := by
  intro q hq
  rw [linkRules] at hq
  split at hq
  · rw [List.mem_singleton.1 hq]
    exact ⟨by decide, by decide⟩
  · cases hq

theorem Changed.readable_first {family : Cpu.Family} {returnAddress : UInt16} {given : Given}
    {row : Debug.UnwindRow} {line : List TextRule}
    (h : Changed family returnAddress given row line) :
    ∀ q ∈ line ++ linkRules family returnAddress row, q.Readable := by
  intro q hq
  rcases List.mem_append.1 hq with hq | hq
  · exact h.readable q hq
  · exact readable_linkRules q hq

theorem programOfRows_eq_ok {family : Cpu.Family} {start stop : UInt64} {returnAddress : UInt16}
    {rows : List Debug.UnwindRow} {p : Program}
    (h : programOfRows family start stop returnAddress rows = .ok p) :
    checkAddresses start stop (rows.map (·.address)) = .ok () ∧
    ∃ row later line, rows = row :: later ∧ Changed family returnAddress {} row line ∧
      p.init = joinRules
        ((line ++ linkRules family returnAddress row).map TextRule.text) ∧
      rowDeltas family returnAddress (Given.after {} row) later = .ok p.deltas := by
  obtain ⟨_, hcheck, h⟩ := bind_eq_ok.1 h
  refine ⟨hcheck, ?_⟩
  cases rows with
  | nil =>
      obtain ⟨_, -, hempty⟩ := bind_eq_ok.1 hcheck
      cases hempty
  | cons row later =>
      obtain ⟨⟨cfa, texts, given⟩, hchanges, h⟩ := bind_eq_ok.1 h
      obtain ⟨deltas, hdeltas, h⟩ := bind_eq_ok.1 h
      cases h
      obtain ⟨rfl, htexts, line, hline, htext⟩ := rowChanges_eq_ok hchanges
      refine ⟨row, later, line, rfl, hline, ?_, hdeltas⟩
      have hlink : (linkRules family returnAddress row).map TextRule.text =
          if hasLinkRule family && !texts.any (·.1 == returnAddress) then [".ra: $ra"] else [] := by
        rw [linkRules, htexts, List.any_map]
        split
        · rename_i hlink
          rw [if_pos (by simpa using hlink)]
          rfl
        · rename_i hlink
          rw [if_neg (by simpa using hlink)]
          rfl
      dsimp only
      rw [htext, ← hlink, List.map_append]

/-! ## Programs -/

structure Program.Sound (p : Program) : Prop where
  init : ReadableText p.init
  texts : ∀ d ∈ p.deltas, ReadableText d.2
  sorted : (p.deltas.map Prod.fst).Pairwise (· < ·)

theorem checkOrder_cons {start stop a : UInt64} {previous : Option UInt64}
    {addresses : List UInt64} (h : checkOrder start stop previous (a :: addresses) = .ok ()) :
    (∀ p ∈ previous, p < a) ∧ checkOrder start stop (some a) addresses = .ok () := by
  rw [checkOrder.eq_def] at h
  cases previous with
  | none =>
      simp only at h
      split at h
      · exact ⟨by simp, h⟩
      · cases h
  | some p =>
      simp only at h
      split at h
      · rename_i hnext
        rw [Bool.and_eq_true, decide_eq_true_eq] at hnext
        exact ⟨by simpa using hnext.1, h⟩
      · cases h

theorem sorted_of_checkOrder {start stop : UInt64} {previous : Option UInt64}
    {addresses : List UInt64} (h : checkOrder start stop previous addresses = .ok ()) :
    (∀ p ∈ previous, ∀ a ∈ addresses, p < a) ∧ addresses.Pairwise (· < ·) := by
  induction addresses generalizing previous with
  | nil => simp
  | cons a addresses ih =>
      obtain ⟨hprevious, hrest⟩ := checkOrder_cons h
      obtain ⟨hafter, hsorted⟩ := ih hrest
      refine ⟨?_, List.pairwise_cons.2 ⟨hafter a rfl, hsorted⟩⟩
      intro p hp b hb
      rcases List.mem_cons.1 hb with rfl | hb
      · exact hprevious p hp
      · exact UInt64.lt_trans (hprevious p hp) (hafter a rfl b hb)

theorem sorted_of_checkAddresses {start stop : UInt64} {addresses : List UInt64}
    (h : checkAddresses start stop addresses = .ok ()) : addresses.Pairwise (· < ·) := by
  obtain ⟨_, horder, -⟩ := bind_eq_ok.1 h
  exact (sorted_of_checkOrder horder).2

theorem rowDeltas_spec {family : Cpu.Family} {returnAddress : UInt16} {given : Given}
    {rows : List Debug.UnwindRow} {deltas : List (UInt64 × String)}
    (h : rowDeltas family returnAddress given rows = .ok deltas) :
    (∀ d ∈ deltas, ReadableText d.2) ∧
      (deltas.map Prod.fst).Sublist (rows.map (·.address)) := by
  induction rows generalizing given deltas with
  | nil =>
      cases h
      exact ⟨by simp, .slnil⟩
  | cons row rows ih =>
      obtain ⟨line, later, hline, hlater, rfl⟩ := rowDeltas_cons_eq_ok h
      obtain ⟨htexts, hsub⟩ := ih hlater
      split
      · exact ⟨htexts, hsub.cons _⟩
      · rename_i hne
        refine ⟨?_, hsub.cons_cons _⟩
        intro d hd
        rcases List.mem_cons.1 hd with rfl | hd
        · exact readableText_joinRules (by simpa using hne) hline.readable
        · exact htexts d hd

theorem sound_programOfRows {family : Cpu.Family} {start stop : UInt64} {returnAddress : UInt16}
    {rows : List Debug.UnwindRow} {p : Program}
    (h : programOfRows family start stop returnAddress rows = .ok p) : p.Sound := by
  obtain ⟨hcheck, row, later, line, rfl, hline, hinit, hdeltas⟩ := programOfRows_eq_ok h
  have hsorted := sorted_of_checkAddresses hcheck
  obtain ⟨htexts, hsub⟩ := rowDeltas_spec hdeltas
  have hne : line ≠ [] := by
    obtain ⟨cfa, ⟨hnone, -⟩ | ⟨q, -, rfl⟩, rfl⟩ := hline
    · cases hnone
    · simp
  refine ⟨?_, htexts, (List.pairwise_cons.1 hsorted).2.sublist hsub⟩
  rw [hinit]
  exact readableText_joinRules (by simp [hne]) hline.readable_first

/-! ## Programs of postfix text -/

theorem readRules_eq_ok {text : String} {rules : List (Postfix.Rule .w64)} :
    readRules text = .ok rules ↔ Postfix.parseRules .w64 text = .ok rules := by
  rw [readRules]
  cases Postfix.parseRules .w64 text with
  | ok rules' => simp
  | error e => simp

theorem parse_ne_nil {text : String} (h : rulesOf text ≠ []) : (RuleSet.parse text).rules ≠ [] := by
  rw [RuleSet.parse, RuleSet.apply_rules]
  cases hrules : rulesOf text with
  | nil => exact absurd hrules h
  | cons r rules => exact RuleSet.putAll_ne_nil rules (RuleSet.put_ne_nil r [])

theorem readable_of_mem_parse {text : String} (h : ∀ r ∈ rulesOf text, r.Readable) :
    ∀ r ∈ (RuleSet.parse text).rules, r.Readable := by
  intro r hr
  rcases RuleSet.mem_putAll hr with hr | hr
  · exact h r hr
  · simp at hr

theorem textDeltas_spec {deltas normal : List (UInt64 × String)}
    (h : textDeltas deltas = .ok normal)
    (hcolons : ∀ d ∈ deltas, spacedColons d.2.toList = true) :
    (∀ d ∈ normal, ReadableText d.2) ∧
      (normal.map Prod.fst).Sublist (deltas.map Prod.fst) := by
  induction deltas generalizing normal with
  | nil =>
      cases h
      exact ⟨by simp, .slnil⟩
  | cons d deltas ih =>
      obtain ⟨a, text⟩ := d
      obtain ⟨rules, hrules, h⟩ := bind_eq_ok.1 h
      obtain ⟨rest, hrest, h⟩ := bind_eq_ok.1 h
      obtain ⟨htexts, hsub⟩ := ih hrest fun d hd => hcolons d (List.mem_cons_of_mem _ hd)
      have hreadable := (rulesOf_of_parseRules (readRules_eq_ok.1 hrules)
        (hcolons _ (List.mem_cons_self ..))).1
      split at h
      · cases h
        exact ⟨htexts, hsub.cons _⟩
      · rename_i hne
        cases h
        refine ⟨?_, hsub.cons_cons _⟩
        have hrules : (RuleSet.parse text).rules ≠ [] := by
          intro hnil
          apply hne
          rw [RuleSet.toText, hnil]
          rfl
        intro d hd
        rcases List.mem_cons.1 hd with rfl | hd
        · exact readableText_toText hrules (readable_of_mem_parse hreadable)
        · exact htexts d hd

theorem sound_programOfText {start stop : UInt64} {init : String}
    {deltas : List (UInt64 × String)} {p : Program}
    (h : programOfText start stop init deltas = .ok p)
    (hinit : spacedColons init.toList = true)
    (hdeltas : ∀ d ∈ deltas, spacedColons d.2.toList = true) : p.Sound := by
  obtain ⟨_, hcheck, h⟩ := bind_eq_ok.1 h
  obtain ⟨rules, hrules, h⟩ := bind_eq_ok.1 h
  have hsorted := sorted_of_checkAddresses hcheck
  obtain ⟨hreadable, hall⟩ := rulesOf_of_parseRules (readRules_eq_ok.1 hrules) hinit
  split at h
  · cases h
  · rename_i hcfa
    obtain ⟨normal, hnormal, h⟩ := bind_eq_ok.1 h
    cases h
    obtain ⟨htexts, hsub⟩ := textDeltas_spec hnormal hdeltas
    have hne : rulesOf init ≠ [] := by
      intro hnil
      rw [hnil] at hall
      cases hall
      exact hcfa rfl
    exact ⟨readableText_toText (parse_ne_nil hne) (readable_of_mem_parse hreadable), htexts,
      (List.pairwise_cons.1 hsorted).2.sublist hsub⟩

/-- Whether the colons in the postfix texts of a table are followed by blanks. -/
def SpacedColons (t : Debug.UnwindTable) : Prop :=
  match t.rules with
  | .rows _ _ => True
  | .postfixRules init deltas =>
    spacedColons init.toList = true ∧ ∀ d ∈ deltas, spacedColons d.2.toList = true

theorem sound_programOf {family : Cpu.Family} {t : Debug.UnwindTable} {p : Program}
    (h : programOf family t = .ok p) (hcolons : SpacedColons t) : p.Sound := by
  rw [programOf] at h
  rw [SpacedColons] at hcolons
  split at h
  · exact sound_programOfRows h
  · rename_i init deltas hrules
    rw [hrules] at hcolons
    exact sound_programOfText h hcolons.1 hcolons.2

end Postmortem.CfiCache
