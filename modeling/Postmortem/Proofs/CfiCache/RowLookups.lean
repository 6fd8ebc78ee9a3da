import Postmortem.Proofs.CfiCache.RowPrograms
import Postmortem.Proofs.CfiCache.RuleLookups

/-!
# What lookups find for rows

Where a table of rows wins, the rules that a lookup finds recover the canonical frame address and
the registers as the row in effect prescribes, at either width and on all registers and memory.
-/

set_option autoImplicit false

namespace Postmortem.CfiCache

open Debug (Object UnwindRow)
open Postfix (Expr Register Rule Width)

variable {family : Cpu.Family} {returnAddress : UInt16} {w : Width}

/-- Whether some rules have one for a register, and no other. -/
def Only (rules : List (Rule w)) (r : Register) (e : Expr w) : Prop :=
  ⟨r, e⟩ ∈ rules ∧ ∀ x ∈ rules, x.register = r → x.expr = e

theorem only_of_mem {rules : List TextRule} {xs : List (Rule w)}
    (hdistinct : RuleSet.Distinct rules)
    (hxs : List.Forall₂ (fun r x => r.rule? w = some x) rules xs) {q : TextRule} (hq : q ∈ rules)
    {e : Expr w} (he : Postfix.stackAfter? w q.expr [] = some [e]) :
    Only xs (.ofName (String.ofList q.register)) e := by
  have hrule : q.rule? w = some ⟨.ofName (String.ofList q.register), e⟩ :=
    TextRule.rule?_eq_some_iff.2 ⟨he, rfl⟩
  refine ⟨?_, ?_⟩
  · obtain ⟨x, hx, hqx⟩ := exists_right hxs hq
    rw [Option.some.inj (hrule.symm.trans hqx)]
    exact hx
  · intro x hx hregister
    obtain ⟨p, hp, hpx⟩ := exists_left hxs hx
    have hname : p.register = q.register := by
      rw [(TextRule.rule?_eq_some_iff.1 hpx).2] at hregister
      exact String.ofList_injective (Register.ofName_injective hregister)
    have hpq : p = q := List.inj_on_of_nodup_map (List.pairwise_map.2 hdistinct) hp hq hname
    rw [hpq, hrule] at hpx
    rw [← Option.some.inj hpx]

/-- Whether rules recover what a row prescribes: the canonical frame address is the sum of a
register and an offset, and each register with a name has the value that its rule gives it. -/
structure Recovers (family : Cpu.Family) (returnAddress : UInt16) (row : UnwindRow)
    (rules : List (Rule w)) : Prop where
  cfa : ∃ register offset name e, row.cfa = .registerOffset register offset ∧
    family.ruleName? register = some name ∧ Only rules .cfa e ∧
    ∀ ev, ev.evaluate e = (valueOf ev name).map (· + BitVec.ofInt w.bits offset.toInt)
  registers : ∀ r ∈ row.registers, ∀ name value,
    targetName? family returnAddress r.1 = some name →
    prescribed? w family r.1 r.2 = some value →
    ∃ e, Only rules (.ofName name) e ∧ ∀ ev cfa, (ev.set .cfa cfa).evaluate e = value ev cfa

theorem tokens?_of_prescribed? {register : UInt16} {rule : Debug.RegisterRule}
    (h : (prescribed? w family register rule).isSome) :
    ∃ tokens, tokens? family register rule = some tokens := by
  have hcopy {number : UInt16} (h : (family.ruleName? number).isSome) :
      ∃ tokens, (family.ruleName? number).map (fun name => [name.toList]) = some tokens := by
    obtain ⟨name, hname⟩ := Option.isSome_iff_exists.1 h
    exact ⟨_, congrArg (Option.map _) hname⟩
  cases rule with
  | sameValue => exact hcopy (by simpa [prescribed?] using h)
  | register other => exact hcopy (by simpa [prescribed?] using h)
  | offset n => exact ⟨_, rfl⟩
  | valOffset n => exact ⟨_, rfl⟩
  | undefined => cases h
  | architectural => cases h
  | expression program => cases h
  | valExpression program => cases h

theorem evaluate_sum (ev : Postfix.Evaluator w) (name : String) (n : Postfix.Word w) :
    ev.evaluate (.op (.register (.ofName name)) (.value n) .add) =
      (valueOf ev name).map (· + n) := by
  rw [Postfix.Evaluator.evaluate, evaluate_register]
  cases valueOf ev name with
  | error e => rfl
  | ok value => rfl

theorem Lists.recovers {row : UnwindRow} {s : RuleSet} {xs : List (Rule w)} (hs : s.Sound)
    (h : Lists family returnAddress row s.rules)
    (hxs : List.Forall₂ (fun r x => r.rule? w = some x) s.rules xs) :
    Recovers family returnAddress row xs := by
  refine ⟨?_, ?_⟩
  · obtain ⟨q, hq, hcfa⟩ := h.cfa
    obtain ⟨register, offset, name, hrow, hname, hregister, hstack⟩ := cfaRule?_eq_some hcfa
    have honly := only_of_mem hs.distinct hxs hq (hstack w)
    rw [hregister] at honly
    exact ⟨register, offset, name, _, hrow, hname, honly, fun ev => evaluate_sum ev name _⟩
  · intro r hr name value hname hvalue
    obtain ⟨tokens, htokens⟩ := tokens?_of_prescribed? (Option.isSome_of_eq_some hvalue)
    obtain ⟨e, value', hstack, hvalue', heval⟩ := stackAfter?_tokens? (w := w) htokens
    cases hvalue.symm.trans hvalue'
    have hq : registerRule? family returnAddress r.1 r.2 = some ⟨name.toList, tokens⟩ :=
      registerRule?_eq_some_iff.2 ⟨htokens, name, hname, rfl⟩
    have honly := only_of_mem hs.distinct hxs (h.registers r hr _ hq) hstack
    rw [String.ofList_toList] at honly
    exact ⟨e, honly, heval⟩

/-- Where a table of rows wins, the rules recover what the last row up to the address prescribes,
unless two registers of the table share a name or a row lists a register twice. -/
theorem lookup_follows_row {o : Object} {bytes : Bytes} (h : ofObject o = .ok bytes) :
    ∃ s, parse bytes = .ok s ∧ ∀ a t returnAddress rows row, Wins o a t →
      t.rules = .rows returnAddress rows → Apart o.arch.family (ListedIn rows) →
      (∀ row ∈ rows, (row.registers.map Prod.fst).Nodup) →
      (rows.filter (·.address ≤ a)).getLast? = some row →
      ∀ w, ∃ rules, s.lookup? w a = some rules ∧
        Recovers o.arch.family returnAddress row rules := by
  obtain ⟨tables, s, htables, hparse, hstores⟩ := parse_written h
  refine ⟨s, hparse, ?_⟩
  intro a t returnAddress rows row hwins hrules hapart hunique hrow w
  obtain ⟨x, hx, hxcov⟩ := exists_range (convertAll_spec htables) hwins.mem hwins.holds
  rcases entry?_of_records (a := a) (fun _ _ he => Stores.placed he) hstores
    (disjoint_ranges tables) with ⟨c, hc, e, he, hcov, hentry⟩ | ⟨hfree, -⟩
  · obtain ⟨u, -, -, hprogram, hwins'⟩ := wins_of_range htables hc
    have hut : u = t := (hwins' a hcov).eq_of_both hwins (hwins' a hcov).holds hwins.holds
    rw [hut, programOf, hrules] at hprogram
    have hsound := sound_programOfRows hprogram
    have htext := programAt?_of_entry hsound hcov (hentry.trans (he.decode hsound))
    obtain ⟨xs, hlookup, hxs⟩ := lookup?_of_programAt? (w := w) (hsound.rulesAt a) htext
    have hlists := lists_rulesAt hprogram hapart hunique hrow
    exact ⟨xs, hlookup, hlists.recovers (hsound.rulesAt a) hxs⟩
  · exact absurd hxcov (hfree x hx)

def sampleRows : List UnwindRow :=
  [{ address := 0x1000, cfa := .registerOffset 7 8, registers := [(16, .offset (-8))] },
    { address := 0x1004, cfa := .registerOffset 7 16
      registers := [(16, .offset (-8)), (6, .offset (-16))] }]

theorem apart_sampleRows : Apart .amd64 (ListedIn sampleRows) := by
  have hlisted : ∀ row ∈ sampleRows, ∀ e ∈ row.registers, e.1 = 16 ∨ e.1 = 6 := by decide
  rintro _ _ name ⟨row, hrow, e, he, rfl⟩ ⟨row', hrow', e', he', rfl⟩ hname hname'
  have hsame := hname.trans hname'.symm
  have hother : Cpu.Family.amd64.ruleName? 16 ≠ Cpu.Family.amd64.ruleName? 6 := by decide
  rcases hlisted row hrow e he with h | h
  · rcases hlisted row' hrow' e' he' with h' | h'
    · rw [h, h']
    · rw [h, h'] at hsame
      exact absurd hsame hother
  · rcases hlisted row' hrow' e' he' with h' | h'
    · rw [h, h'] at hsame
      exact absurd hsame hother.symm
    · rw [h, h']

theorem lookup_follows_row_sample :
    ∃ bytes s t row, ofObject sampleObject = .ok bytes ∧ parse bytes = .ok s ∧
      Wins sampleObject 0x1030 t ∧ t.rules = .rows 16 sampleRows ∧
      Apart sampleObject.arch.family (ListedIn sampleRows) ∧
      (∀ row ∈ sampleRows, (row.registers.map Prod.fst).Nodup) ∧
      (sampleRows.filter (·.address ≤ 0x1030)).getLast? = some row ∧ row.address = 0x1004 ∧
      ∀ w, ∃ rules, s.lookup? w 0x1030 = some rules ∧ Recovers .amd64 16 row rules := by
  obtain ⟨bytes, hbytes⟩ := sampleObject_written
  obtain ⟨s, hparse, hlookup⟩ := lookup_follows_row hbytes
  have hunique : ∀ row ∈ sampleRows, (row.registers.map Prod.fst).Nodup := by decide
  have hwins : Wins sampleObject 0x1030
      ⟨.debugFrame, 0x1000, 0x40, .rows 16 sampleRows⟩ := by
    refine ⟨[], _, rfl, ⟨by decide, by decide, by decide⟩, nofun, ?_⟩
    intro t ht hcov
    rw [List.mem_singleton.1 ht] at hcov
    exact absurd hcov.2.2 (by decide)
  exact ⟨bytes, s, _, _, hbytes, hparse, hwins, rfl, apart_sampleRows, hunique, rfl, rfl,
    hlookup 0x1030 _ 16 sampleRows _ hwins rfl apart_sampleRows hunique rfl⟩

end Postmortem.CfiCache
