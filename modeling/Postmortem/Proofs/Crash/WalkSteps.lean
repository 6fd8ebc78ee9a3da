import Mathlib.Algebra.Group.Nat.Defs
import Postmortem.Crash.Walker
import Postmortem.Proofs.Distances
import Postmortem.Proofs.MemoryWords
import Postmortem.Proofs.Outcomes
import Postmortem.Proofs.SortedMaps

/-!
# Steps of a walk

What a walk knows of the caller that it finds for a frame: which strategy proposed it and from what,
that the earlier ones were passed over, and that the caller is plausible.  Stack pointers that are
read off the stack lie behind one of its words, and so not behind its end.
-/

set_option autoImplicit false

namespace Postmortem.Crash.Walker

variable {w : Walker} {callee caller : WalkFrame} {scans : Nat}

theorem isPlausible_iff : w.isPlausible callee caller = true ↔
    callee.sp < caller.sp ∧ ∃ m, w.modules.find? caller.instruction = some m := by
  rw [isPlausible, Bool.and_eq_true, decide_eq_true_eq, Option.isSome_iff_exists]

/-- Whether a walk passes over a strategy: it proposes nothing, or a caller that does not end the
stack but is not plausible. -/
def Passes (w : Walker) (callee : WalkFrame) (scans : Nat) (s : Strategy) : Prop :=
  ∀ c, w.propose? callee scans s = some c →
    c.ip ≠ 0 ∧ w.isPlausible callee (w.callerFrame c s.trust) = false

/-- Whether a strategy leads from a frame to its caller, after it has passed over others. -/
structure Finds (w : Walker) (callee : WalkFrame) (scans : Nat) (passed : List Strategy)
    (s : Strategy) (c : Candidate) (caller : WalkFrame) : Prop where
  passes : ∀ r ∈ passed, w.Passes callee scans r
  proposes : w.propose? callee scans s = some c
  ip_ne_zero : c.ip ≠ 0
  eq_callerFrame : caller = w.callerFrame c s.trust
  accepted : w.isPlausible callee caller = true

theorem firstCaller?_cons_of_passes {s : Strategy} (h : w.Passes callee scans s)
    (strategies : List Strategy) :
    w.firstCaller? callee scans (s :: strategies) = w.firstCaller? callee scans strategies := by
  rw [firstCaller?]
  cases hpropose : w.propose? callee scans s with
  | none => rfl
  | some c =>
      obtain ⟨hip, himplausible⟩ := h c hpropose
      simp [hip, himplausible]

/-- A walk passes over all strategies, or up to one that ends the stack or leads to the caller. -/
theorem firstCaller?_cases (w : Walker) (callee : WalkFrame) (scans : Nat)
    (strategies : List Strategy) :
    ((∀ s ∈ strategies, w.Passes callee scans s) ∧
      w.firstCaller? callee scans strategies = none) ∨
    ∃ passed s rest c, strategies = passed ++ s :: rest ∧
      (∀ r ∈ passed, w.Passes callee scans r) ∧ w.propose? callee scans s = some c ∧
      (c.ip = 0 ∧ w.firstCaller? callee scans strategies = none ∨
        c.ip ≠ 0 ∧ w.isPlausible callee (w.callerFrame c s.trust) = true ∧
          w.firstCaller? callee scans strategies = some (w.callerFrame c s.trust)) := by
  induction strategies with
  | nil => exact .inl ⟨by simp, rfl⟩
  | cons s strategies ih =>
      by_cases hs : w.Passes callee scans s
      · rw [firstCaller?_cons_of_passes hs]
        rcases ih with ⟨hall, hnone⟩ | ⟨passed, k, rest, c, rfl, hpassed, hk⟩
        · exact .inl ⟨List.forall_mem_cons.2 ⟨hs, hall⟩, hnone⟩
        · exact .inr ⟨s :: passed, k, rest, c, rfl, List.forall_mem_cons.2 ⟨hs, hpassed⟩, hk⟩
      · obtain ⟨c, hpropose, hc⟩ : ∃ c, w.propose? callee scans s = some c ∧
            (c.ip ≠ 0 → w.isPlausible callee (w.callerFrame c s.trust) = true) := by
          simpa [Passes] using hs
        refine .inr ⟨[], s, strategies, c, rfl, by simp, hpropose, ?_⟩
        rw [firstCaller?, hpropose]
        by_cases hip : c.ip = 0
        · exact .inl ⟨hip, if_pos hip⟩
        · exact .inr ⟨hip, hc hip, by simp [hip, hc hip]⟩

theorem finds_of_firstCaller? {strategies : List Strategy}
    (h : w.firstCaller? callee scans strategies = some caller) :
    ∃ passed s rest c, strategies = passed ++ s :: rest ∧
      w.Finds callee scans passed s c caller := by
  rcases firstCaller?_cases w callee scans strategies with
    ⟨-, hnone⟩ | ⟨passed, s, rest, c, hall, hpassed, hs, ⟨-, hnone⟩ | ⟨hip, hplausible, hsome⟩⟩
  · rw [hnone] at h
    cases h
  · rw [hnone] at h
    cases h
  · obtain rfl := Option.some.inj (hsome.symm.trans h)
    exact ⟨passed, s, rest, c, hall, hpassed, hs, hip, rfl, hplausible⟩

/-! ## Words of the stack -/

theorem width_pos : 0 < w.width.bytes := by cases w.width <;> decide

theorem toNat_wordSize : w.wordSize.toNat = w.width.bytes := by
  rw [wordSize]
  cases w.width <;> rfl

theorem next?_eq_some_iff {a b : UInt64} :
    w.next? a = some b ↔ b.toNat = a.toNat + w.width.bytes := by
  rw [next?, addExact?_eq_some_iff, toNat_wordSize]

def HasWord (w : Walker) (a : UInt64) : Prop :=
  ∃ m, w.stack = some m ∧ m.base.toNat ≤ a.toNat ∧
    a.toNat + w.width.bytes ≤ m.base.toNat + m.size

theorem isSome_word?_iff {a : UInt64} : (w.word? a).isSome = true ↔ w.HasWord a := by
  rw [word?, HasWord]
  cases w.stack with
  | none => simp
  | some m =>
      rw [Option.bind_some, Option.isSome_map, MemoryRegion.isSome_read?_iff width_pos]
      simp

def BehindWord (w : Walker) (sp : UInt64) : Prop :=
  ∃ m, w.stack = some m ∧ m.base.toNat + w.width.bytes ≤ sp.toNat ∧
    sp.toNat ≤ m.base.toNat + m.size

theorem behindWord_of_word? {a value sp : UInt64} (hword : w.word? a = some value)
    (hnext : w.next? a = some sp) : w.BehindWord sp := by
  obtain ⟨m, hm, hbase, hstop⟩ := isSome_word?_iff.1 (Option.isSome_of_eq_some hword)
  rw [← next?_eq_some_iff.1 hnext] at hstop
  have hsp := next?_eq_some_iff.1 hnext
  exact ⟨m, hm, by omega, hstop⟩

def OnStack (w : Walker) (sp : UInt64) : Prop :=
  ∃ m, w.stack = some m ∧ sp.toNat ≤ m.base.toNat + m.size

theorem BehindWord.onStack {sp : UInt64} (h : w.BehindWord sp) : w.OnStack sp := by
  obtain ⟨m, hm, -, hle⟩ := h
  exact ⟨m, hm, hle⟩

/-! ## What strategies propose -/

/-- Whether rules are in effect for a frame: the cache of its module has them for the place of the
frame in it. -/
def InEffect (w : Walker) (callee : WalkFrame) (rules : List (Postfix.Rule w.width)) : Prop :=
  ∃ m cache a, w.modules.find? callee.instruction = some m ∧ w.cache? m = some cache ∧
    cacheAddress? m cache callee.instruction = some a ∧ cache.lookup? w.width a = some rules

def ruleEvaluator (w : Walker) (callee : WalkFrame) : Postfix.Evaluator w.width where
  memory := w.stack
  registers := ruleRegisters w.arch.family w.width callee.registers

theorem byCfi?_eq_some {c : Candidate} (h : w.byCfi? callee = some c) :
    ∃ rules values cfa ra, w.InEffect callee rules ∧
      (w.ruleEvaluator callee).evaluateRules rules = .ok values ∧
      values.find? .cfa = some cfa ∧ values.find? .ra = some ra ∧
      c = ⟨withRecovered w.arch.family (preserved w.arch.family callee.registers) values.entries,
        UInt64.ofNat ra.toNat, UInt64.ofNat cfa.toNat⟩ := by
  simp only [byCfi?, Option.bind_eq_bind] at h
  obtain ⟨m, hm, h⟩ := Option.bind_eq_some_iff.1 h
  obtain ⟨cache, hcache, h⟩ := Option.bind_eq_some_iff.1 h
  obtain ⟨a, ha, h⟩ := Option.bind_eq_some_iff.1 h
  obtain ⟨rules, hrules, h⟩ := Option.bind_eq_some_iff.1 h
  simp only [applyRules?, Option.bind_eq_bind] at h
  obtain ⟨values, hvalues, h⟩ := Option.bind_eq_some_iff.1 h
  obtain ⟨cfa, hcfa, h⟩ := Option.bind_eq_some_iff.1 h
  obtain ⟨ra, hra, h⟩ := Option.bind_eq_some_iff.1 h
  cases h
  exact ⟨rules, values, cfa, ra, ⟨m, cache, a, hm, hcache, ha, hrules⟩,
    toOption_eq_some_iff.1 hvalues, hcfa, hra, rfl⟩

theorem sp_lt_of_byCfi? {c : Candidate} (h : w.byCfi? callee = some c) :
    c.sp.toNat < 2 ^ w.width.bits := by
  obtain ⟨rules, values, cfa, ra, -, -, -, -, rfl⟩ := byCfi?_eq_some h
  rw [UInt64.toNat_ofNat']
  exact Nat.lt_of_le_of_lt (Nat.mod_le _ _) cfa.isLt

theorem byFramePointer?_eq_some {c : Candidate} (h : w.byFramePointer? callee = some c) :
    ∃ name fp callerFp above ip sp, w.arch.family.framePointer? = some name ∧
      callee.registers.find? name = some fp ∧ w.word? fp = some callerFp ∧
      w.next? fp = some above ∧ w.word? above = some ip ∧ w.next? above = some sp ∧
      (callerFp = 0 ∨ sp ≤ callerFp ∧ w.HasWord callerFp) ∧
      c = ⟨SortedMap.empty.insert name callerFp, ip, sp⟩ := by
  simp only [byFramePointer?, Option.bind_eq_bind] at h
  obtain ⟨name, hname, h⟩ := Option.bind_eq_some_iff.1 h
  obtain ⟨fp, hfp, h⟩ := Option.bind_eq_some_iff.1 h
  obtain ⟨callerFp, hcallerFp, h⟩ := Option.bind_eq_some_iff.1 h
  obtain ⟨above, habove, h⟩ := Option.bind_eq_some_iff.1 h
  obtain ⟨ip, hip, h⟩ := Option.bind_eq_some_iff.1 h
  obtain ⟨sp, hsp, h⟩ := Option.bind_eq_some_iff.1 h
  split at h
  · cases h
  · rename_i hchain
    cases h
    refine ⟨name, fp, callerFp, above, ip, sp, hname, hfp, hcallerFp, habove, hip, hsp, ?_, rfl⟩
    by_cases hzero : callerFp = 0
    · exact .inl hzero
    · simp only [ne_eq, hzero, not_false_eq_true, true_and, not_or, UInt64.not_lt,
        Option.isNone_iff_eq_none, ← Option.isSome_iff_ne_none] at hchain
      exact .inr ⟨hchain.1, isSome_word?_iff.1 hchain.2⟩

theorem behindWord_of_byFramePointer? {c : Candidate} (h : w.byFramePointer? callee = some c) :
    w.BehindWord c.sp := by
  obtain ⟨name, fp, callerFp, above, ip, sp, -, -, -, -, hip, hsp, -, rfl⟩ :=
    byFramePointer?_eq_some h
  exact behindWord_of_word? hip hsp

theorem behindWord_of_scanFrom? {needsCfi : Bool} {n : Nat} {a : UInt64} {c : Candidate}
    (h : w.scanFrom? needsCfi callee n a = some c) : w.BehindWord c.sp := by
  induction n generalizing a with
  | zero => cases h
  | succ n ih =>
      simp only [scanFrom?, Option.bind_eq_bind] at h
      obtain ⟨value, hvalue, h⟩ := Option.bind_eq_some_iff.1 h
      obtain ⟨above, habove, h⟩ := Option.bind_eq_some_iff.1 h
      split at h
      · cases h
        exact behindWord_of_word? hvalue habove
      · exact ih h

/-! ## What is known of a caller -/

/-- Whether a frame has what every caller has that a walk finds.  Its stack pointer is a word, or it
was read off the stack. -/
structure Recovered (w : Walker) (f : WalkFrame) : Prop where
  trust : f.trust ∈ Strategy.all.map Strategy.trust
  ip_ne_zero : f.ip ≠ 0
  instruction_eq : f.instruction = Cpu.callSite w.arch f.ip
  sp_eq : f.registers.find? w.spName = some f.sp
  sp_bounded : f.sp.toNat < 2 ^ w.width.bits ∨ w.OnStack f.sp
  module : ∃ m, w.modules.find? f.instruction = some m

theorem Finds.sp_bounded {passed : List Strategy} {s : Strategy} {c : Candidate}
    (h : w.Finds callee scans passed s c caller) :
    caller.sp.toNat < 2 ^ w.width.bits ∨ w.OnStack caller.sp := by
  obtain ⟨-, hpropose, -, rfl, -⟩ := h
  cases s with
  | cfi => exact .inl (sp_lt_of_byCfi? hpropose)
  | framePointer => exact .inr (behindWord_of_byFramePointer? hpropose).onStack
  | cfiScan => exact .inr (behindWord_of_scanFrom? hpropose).onStack
  | scan =>
      simp only [propose?] at hpropose
      split at hpropose
      · cases hpropose
      · exact .inr (behindWord_of_scanFrom? hpropose).onStack

theorem Finds.recovered {passed : List Strategy} {s : Strategy} {c : Candidate}
    (h : w.Finds callee scans passed s c caller) : w.Recovered caller := by
  have hbounded := h.sp_bounded
  obtain ⟨-, -, hip, rfl, hplausible⟩ := h
  refine ⟨?_, hip, rfl, SortedMap.find?_insert_self _ _ _, hbounded,
    (isPlausible_iff.1 hplausible).2⟩
  cases s <;> simp [callerFrame, Strategy.all]

theorem Finds.sp_lt {passed : List Strategy} {s : Strategy} {c : Candidate}
    (h : w.Finds callee scans passed s c caller) : callee.sp < caller.sp :=
  (isPlausible_iff.1 h.accepted).1

theorem Finds.scans_lt {passed : List Strategy} {s : Strategy} {c : Candidate}
    (h : w.Finds callee scans passed s c caller) (htrust : caller.trust = .scan) :
    scans < w.config.maxConsecutiveScans := by
  obtain ⟨-, hpropose, -, rfl, -⟩ := h
  have hs : s = .scan := by
    cases s <;> simp_all [callerFrame, Strategy.trust]
  subst hs
  simp only [propose?] at hpropose
  split at hpropose
  · cases hpropose
  · exact Nat.lt_of_not_le ‹_›

end Postmortem.Crash.Walker
