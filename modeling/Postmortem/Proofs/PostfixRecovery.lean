import Mathlib
import Postmortem.Postfix.Evaluator
import Postmortem.Proofs.Outcomes
import Postmortem.Proofs.PostfixAssignments
import Postmortem.Proofs.SortedMaps

/-!
# Recovered registers

The rules of a frame are carried out together.  The canonical frame address comes first.  All other
rules see the registers of the callee and that address, but never what another rule has given, so
their order does not matter as long as each register has one rule only.
-/

set_option autoImplicit false

namespace Postmortem.Postfix.Evaluator

variable {w : Width} {ev : Evaluator w} {rules others : List (Rule w)} {caller values : Registers w}
  {q : Register} {value cfa : Word w}

/-! ## The value of a rule -/

/-- The value that the first rule for a register gives it, or none without a rule. -/
def ruled (ev : Evaluator w) (rules : List (Rule w)) (q : Register) :
    Except EvaluationError (Option (Word w)) :=
  match rules.find? (·.register == q) with
  | some r => (ev.evaluate r.expr).map some
  | none => .ok none

theorem map_some_eq_ok_iff {ε α : Type} {x : Except ε α} {a : α} :
    x.map some = .ok (some a) ↔ x = .ok a := by
  cases x with
  | error e => exact ⟨nofun, nofun⟩
  | ok b =>
      exact ⟨fun h => congrArg Except.ok (Option.some.inj (Except.ok.inj h)),
        fun h => congrArg (Except.map some) h⟩

theorem exists_rule_of_ruled (h : ev.ruled rules q = .ok (some value)) :
    ∃ r ∈ rules, r.register = q ∧ ev.evaluate r.expr = .ok value := by
  rw [ruled] at h
  split at h
  · rename_i r hr
    exact ⟨r, List.mem_of_find?_eq_some hr, by simpa using List.find?_some hr,
      map_some_eq_ok_iff.1 h⟩
  · cases h

theorem ruled_eq_ok_none_iff : ev.ruled rules q = .ok none ↔ ∀ r ∈ rules, r.register ≠ q := by
  rw [ruled]
  split
  · rename_i r hr
    constructor
    · intro h
      cases hvalue : ev.evaluate r.expr with
      | error e =>
          rw [hvalue] at h
          cases h
      | ok v =>
          rw [hvalue] at h
          cases h
    · intro h
      exact absurd (by simpa using List.find?_some hr) (h r (List.mem_of_find?_eq_some hr))
  · rename_i hnone
    simpa using hnone

theorem isSome_iff_of_ruled {o : Option (Word w)} (h : ev.ruled rules q = .ok o) :
    o.isSome = true ↔ q ∈ rules.map Rule.register := by
  rw [List.mem_map]
  cases o with
  | none =>
      refine iff_of_false Bool.false_ne_true ?_
      rintro ⟨r, hr, hq⟩
      exact ruled_eq_ok_none_iff.1 h r hr hq
  | some value =>
      obtain ⟨r, hr, hq, -⟩ := exists_rule_of_ruled h
      exact iff_of_true rfl ⟨r, hr, hq⟩

/-! ## Recovering one register after the other -/

/-- The value that a register of the caller has already, or else the one that its rule gives. -/
def settled (ev : Evaluator w) (caller : Registers w) (rules : List (Rule w)) (q : Register) :
    Except EvaluationError (Option (Word w)) :=
  match caller.find? q with
  | some value => .ok (some value)
  | none => ev.ruled rules q

theorem ruled_cons_of_ne {r : Rule w} (h : r.register ≠ q) :
    ev.ruled (r :: rules) q = ev.ruled rules q := by
  simp [ruled, h]

theorem ruled_cons_self (r : Rule w) :
    ev.ruled (r :: rules) r.register = (ev.evaluate r.expr).map some := by
  simp [ruled]

theorem settled_cons_of_contains {r : Rule w} (h : caller.contains r.register = true) :
    ev.settled caller (r :: rules) q = ev.settled caller rules q := by
  simp only [settled]
  split
  · rfl
  · rename_i hnone
    refine ruled_cons_of_ne ?_
    rintro rfl
    rw [SortedMap.contains, hnone] at h
    cases h

theorem settled_cons_of_evaluate {r : Rule w} (h : caller.find? r.register = none)
    (hvalue : ev.evaluate r.expr = .ok value) :
    ev.settled caller (r :: rules) q = ev.settled (caller.insert r.register value) rules q := by
  by_cases hq : q = r.register
  · subst hq
    simp only [settled, h, SortedMap.find?_insert_self]
    rw [ruled_cons_self, hvalue]
    rfl
  · simp only [settled, SortedMap.find?_insert_of_ne _ hq]
    rw [ruled_cons_of_ne (Ne.symm hq)]

/-- All registers are recovered if each has a value that is settled. -/
theorem recover_eq_ok_iff :
    ev.recover caller rules = .ok values ↔
      ∀ q, ev.settled caller rules q = .ok (values.find? q) := by
  induction rules generalizing caller with
  | nil =>
      have hsettled : ∀ q, ev.settled caller [] q = .ok (caller.find? q) := by
        intro q
        rw [settled]
        split
        · rename_i h
          rw [h]
        · rename_i h
          rw [h]
          rfl
      simp only [recover, hsettled, Except.ok.injEq]
      exact ⟨fun h q => h ▸ rfl, SortedMap.eq_of_find?⟩
  | cons r rest ih =>
      rw [recover]
      split
      · rename_i hcontains
        rw [ih]
        exact forall_congr' fun q => by rw [settled_cons_of_contains hcontains]
      · rename_i hcontains
        have hnone : caller.find? r.register = none := by
          simpa [SortedMap.contains] using hcontains
        rw [bind_eq_ok]
        constructor
        · rintro ⟨value, hvalue, h⟩ q
          rw [settled_cons_of_evaluate hnone hvalue]
          exact ih.1 h q
        · intro h
          cases hvalue : ev.evaluate r.expr with
          | error e =>
              have herror := h r.register
              rw [settled, hnone] at herror
              simp only [ruled_cons_self, hvalue] at herror
              cases herror
          | ok value =>
              refine ⟨value, rfl, ih.2 fun q => ?_⟩
              rw [← settled_cons_of_evaluate hnone hvalue]
              exact h q

/-- Rules recover some values exactly if the canonical frame address has the value that its rule
gives it on the registers of the callee, and every other register the value, if any, that its rule
gives it with that address known. -/
theorem evaluateRules_eq_ok_iff :
    ev.evaluateRules rules = .ok values ↔
      ∃ cfa, ev.ruled rules .cfa = .ok (some cfa) ∧ values.find? .cfa = some cfa ∧
        ∀ q, q ≠ .cfa → (ev.set .cfa cfa).ruled rules q = .ok (values.find? q) := by
  have hrecover (cfa : Word w) :
      (ev.set .cfa cfa).recover (SortedMap.empty.insert .cfa cfa) rules = .ok values ↔
        values.find? .cfa = some cfa ∧
          ∀ q, q ≠ .cfa → (ev.set .cfa cfa).ruled rules q = .ok (values.find? q) := by
    have hother {q : Register} (hq : q ≠ .cfa) :
        (SortedMap.empty.insert Register.cfa cfa).find? q = none :=
      SortedMap.find?_insert_of_ne _ hq cfa
    rw [recover_eq_ok_iff]
    constructor
    · intro h
      refine ⟨?_, ?_⟩
      · have hcfa := h .cfa
        rw [settled, SortedMap.find?_insert_self] at hcfa
        exact (Except.ok.inj hcfa).symm
      · intro q hq
        have hvalue := h q
        rw [settled, hother hq] at hvalue
        exact hvalue
    · rintro ⟨hcfa, h⟩ q
      by_cases hq : q = .cfa
      · rw [hq, settled, SortedMap.find?_insert_self, hcfa]
      · rw [settled, hother hq]
        exact h q hq
  rw [evaluateRules, ruled]
  cases rules.find? (·.register == .cfa) with
  | none => exact ⟨nofun, fun ⟨_, hcfa, _⟩ => nomatch hcfa⟩
  | some r =>
      exact (bind_eq_ok (x := ev.evaluate r.expr)).trans <|
        exists_congr fun cfa => and_congr map_some_eq_ok_iff.symm (hrecover cfa)

theorem mem_keys_iff_mem_rules (h : ev.evaluateRules rules = .ok values) :
    q ∈ values.keys ↔ q ∈ rules.map Rule.register := by
  obtain ⟨cfa, hcfa, haddress, h⟩ := evaluateRules_eq_ok_iff.1 h
  rw [SortedMap.mem_keys_iff, ← Option.isSome_iff_exists]
  by_cases hq : q = .cfa
  · rw [hq, haddress]
    exact isSome_iff_of_ruled hcfa
  · exact isSome_iff_of_ruled (h q hq)

/-! ## One rule for each register -/

theorem find?_rule_iff (hdistinct : (rules.map Rule.register).Nodup) {r : Rule w} :
    rules.find? (·.register == q) = some r ↔ r ∈ rules ∧ r.register = q := by
  constructor
  · intro h
    exact ⟨List.mem_of_find?_eq_some h, by simpa using List.find?_some h⟩
  · rintro ⟨hr, rfl⟩
    cases h : rules.find? (·.register == r.register) with
    | none => exact absurd (BEq.rfl (a := r.register)) (List.find?_eq_none.1 h r hr)
    | some first =>
        have hregister : first.register = r.register := by simpa using List.find?_some h
        rw [List.inj_on_of_nodup_map hdistinct (List.mem_of_find?_eq_some h) hr hregister]

theorem ruled_perm (hdistinct : (rules.map Rule.register).Nodup) (hperm : rules.Perm others)
    (ev : Evaluator w) (q : Register) : ev.ruled rules q = ev.ruled others q := by
  have hfind : rules.find? (·.register == q) = others.find? (·.register == q) := by
    ext r
    rw [find?_rule_iff hdistinct, find?_rule_iff ((hperm.map _).nodup_iff.1 hdistinct),
      hperm.mem_iff]
  rw [ruled, ruled, hfind]

theorem evaluateRules_perm (hdistinct : (rules.map Rule.register).Nodup)
    (hperm : rules.Perm others) :
    (ev.evaluateRules rules).toOption = (ev.evaluateRules others).toOption := by
  ext values
  simp only [toOption_eq_some_iff, evaluateRules_eq_ok_iff, ruled_perm hdistinct hperm]

theorem ruled_eq_ok_iff_of_mem (hdistinct : (rules.map Rule.register).Nodup) {r : Rule w}
    (hr : r ∈ rules) {o : Option (Word w)} :
    ev.ruled rules r.register = .ok o ↔
      ∃ value, ev.evaluate r.expr = .ok value ∧ o = some value := by
  rw [ruled, (find?_rule_iff hdistinct).2 ⟨hr, rfl⟩]
  change (ev.evaluate r.expr).map some = .ok o ↔ _
  cases ev.evaluate r.expr with
  | error e => exact ⟨nofun, fun ⟨_, h, _⟩ => nomatch h⟩
  | ok value =>
      constructor
      · intro h
        exact ⟨value, rfl, (Except.ok.inj h).symm⟩
      · rintro ⟨_, h, rfl⟩
        cases h
        rfl

/-- Whether expressions are evaluated as on another evaluator, with another canonical frame
address. -/
structure Rebinds (ev callee : Evaluator w) (cfa : Word w) : Prop where
  memory : callee.memory = ev.memory
  endian : callee.endian = ev.endian
  address : callee.registers.find? .cfa = some cfa
  others : ∀ q, q ≠ .cfa → callee.registers.find? q = ev.registers.find? q

theorem rebinds_iff {callee : Evaluator w} : ev.Rebinds callee cfa ↔ callee = ev.set .cfa cfa := by
  rw [← gives_iff]
  exact ⟨fun h => ⟨h.memory, h.endian, h.address, h.others⟩,
    fun h => ⟨h.memory, h.endian, h.given, h.others⟩⟩

/-- With one rule for each register, the order of the rules does not matter.  They recover the
registers that they are for and no others: the canonical frame address on the registers of the
callee, and each other register on the same ones with that address known.  The callee is not changed
by this, since all there is to an evaluation is its result. -/
theorem rules_are_simultaneous (ev : Evaluator w) (hdistinct : (rules.map Rule.register).Nodup)
    (hperm : rules.Perm others) :
    (ev.evaluateRules rules).toOption = (ev.evaluateRules others).toOption ∧
    ∀ values, ev.evaluateRules rules = .ok values ↔
      (∀ q, q ∈ values.keys ↔ q ∈ rules.map Rule.register) ∧
      ∃ cfa callee, ev.Rebinds callee cfa ∧ values.find? .cfa = some cfa ∧
        (∃ r ∈ rules, r.register = .cfa ∧ ev.evaluate r.expr = .ok cfa) ∧
        ∀ r ∈ rules, r.register ≠ .cfa →
          ∃ value, callee.evaluate r.expr = .ok value ∧
            values.find? r.register = some value := by
  refine ⟨evaluateRules_perm hdistinct hperm, fun values => ?_⟩
  constructor
  · intro hvalues
    obtain ⟨cfa, hcfa, haddress, h⟩ := evaluateRules_eq_ok_iff.1 hvalues
    refine ⟨fun q => mem_keys_iff_mem_rules hvalues, cfa, _, rebinds_iff.2 rfl, haddress,
      exists_rule_of_ruled hcfa, ?_⟩
    intro r hr hne
    exact (ruled_eq_ok_iff_of_mem hdistinct hr).1 (h _ hne)
  · rintro ⟨hkeys, cfa, callee, hrebinds, haddress, ⟨r, hr, hregister, hvalue⟩, h⟩
    obtain rfl := rebinds_iff.1 hrebinds
    refine evaluateRules_eq_ok_iff.2 ⟨cfa, ?_, haddress, ?_⟩
    · rw [← hregister]
      exact (ruled_eq_ok_iff_of_mem hdistinct hr).2 ⟨cfa, hvalue, rfl⟩
    · intro q hq
      by_cases hmem : q ∈ rules.map Rule.register
      · obtain ⟨s, hs, rfl⟩ := List.mem_map.1 hmem
        exact (ruled_eq_ok_iff_of_mem hdistinct hs).2 (h s hs hq)
      · -- a register without a rule has no value on either side
        have hnone : values.find? q = none := by
          rw [← hkeys, SortedMap.mem_keys_iff, ← Option.isSome_iff_exists] at hmem
          simpa using hmem
        rw [hnone, ruled_eq_ok_none_iff]
        rintro s hs rfl
        exact hmem (List.mem_map_of_mem hs)

/-- Rules that swap two registers around a call.  The return address lies below the canonical frame
address. -/
def sampleRules : List (Rule .w64) :=
  [⟨.ra, .deref (.op (.register .cfa) (.value 8) .sub)⟩, ⟨.var "$rax", .register (.var "$rbx")⟩,
    ⟨.var "$rbx", .register (.var "$rax")⟩,
    ⟨.cfa, .op (.register (.var "$rsp")) (.value 16) .add⟩]

/-- A callee that has an older canonical frame address. -/
def sampleCallee : Evaluator .w64 where
  memory := some (.ofWords 0x8000 [1, 0x4242] 8)
  registers := .ofList [(.var "$rsp", 0x8000), (.var "$rax", 5), (.var "$rbx", 7), (.cfa, 3)]

def sampleCaller : Registers .w64 :=
  .ofList [(.cfa, 0x8010), (.ra, 0x4242), (.var "$rax", 7), (.var "$rbx", 5)]

theorem rules_are_simultaneous_sample :
    (sampleRules.map Rule.register).Nodup ∧ sampleRules.Perm sampleRules.reverse ∧
    (sampleCallee.evaluateRules sampleRules).toOption = some sampleCaller ∧
    (sampleCallee.evaluateRules sampleRules.reverse).toOption = some sampleCaller ∧
    ∀ q, q ∈ sampleCaller.keys ↔ q ∈ sampleRules.map Rule.register := by
  have hdistinct : (sampleRules.map Rule.register).Nodup := by decide
  have hperm : sampleRules.Perm sampleRules.reverse := (List.reverse_perm _).symm
  have hvalues : sampleCallee.evaluateRules sampleRules = .ok sampleCaller := by cbv
  obtain ⟨horder, hiff⟩ := rules_are_simultaneous sampleCallee hdistinct hperm
  have hsome : (sampleCallee.evaluateRules sampleRules).toOption = some sampleCaller :=
    toOption_eq_some_iff.2 hvalues
  exact ⟨hdistinct, hperm, hsome, horder ▸ hsome, ((hiff _).1 hvalues).1⟩

end Postmortem.Postfix.Evaluator
