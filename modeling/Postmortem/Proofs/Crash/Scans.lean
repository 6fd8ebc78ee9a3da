import Mathlib.Tactic.Ring
import Postmortem.Proofs.Crash.Walks

/-!
# Scans of the stack

A scan takes the first word above the stack pointer that returns into a module.  It can count its
words and multiply, since it stops at the end of the stack: no product is larger than the stack is
long.
-/

set_option autoImplicit false

namespace Postmortem

/-! ## Call sites -/

namespace Cpu

def Family.instructionSize (family : Family) : Nat := (family.alignment?.map UInt64.toNat).getD 1

def Family.skipped : Family → Nat
  | .mips32 | .mips64 => 2
  | _ => 1

theorem toNat_callDistance (family : Family) :
    (Instruction.callDistance family).toNat = family.skipped * family.instructionSize := by
  cases family <;> rfl

theorem toNat_aligned (i : Instruction) :
    i.aligned.toNat =
      i.address.toNat / i.arch.family.instructionSize * i.arch.family.instructionSize := by
  rw [Instruction.aligned, Family.instructionSize]
  cases i.arch.family.alignment? with
  | none => simp
  | some size =>
      have hle : i.address % size ≤ i.address := by
        rw [UInt64.le_iff_toNat_le, UInt64.toNat_mod]
        exact Nat.mod_le _ _
      simp only [Option.map_some, Option.getD_some]
      rw [UInt64.toNat_sub_of_le _ _ hle, UInt64.toNat_mod, Nat.div_mul_self_eq_mod_sub_self]

/-- The address of a call in unbounded numbers, where differences do not fall below zero. -/
theorem toNat_callSite (arch : Arch) (a : UInt64) :
    (callSite arch a).toNat =
      a.toNat / arch.family.instructionSize * arch.family.instructionSize -
        arch.family.skipped * arch.family.instructionSize := by
  change (Instruction.previous ⟨arch, a, false, none, none⟩).toNat = _
  rw [Instruction.previous, ← toNat_callDistance, ← toNat_aligned ⟨arch, a, false, none, none⟩]
  split
  · exact UInt64.toNat_sub_of_le _ _ ‹_›
  · rename_i hlt
    rw [UInt64.le_iff_toNat_le] at hlt
    rw [Nat.sub_eq_zero_of_le (Nat.le_of_not_le hlt)]
    rfl

end Cpu

namespace Crash.Walker

variable {w : Walker} {needsCfi : Bool} {callee : WalkFrame} {n k : Nat} {a b value : UInt64}
  {c : Candidate}

/-! ## Words above an address -/

def WordAt (w : Walker) (a : UInt64) (k : Nat) (value : UInt64) : Prop :=
  a.toNat + k * w.width.bytes < UInt64.size ∧
    w.word? (UInt64.ofNat (a.toNat + k * w.width.bytes)) = some value

theorem wordAt_zero : w.WordAt a 0 value ↔ w.word? a = some value := by
  simp [WordAt, a.toNat_lt]

theorem toNat_add_of_next? (h : w.next? a = some b) :
    a.toNat + (k + 1) * w.width.bytes = b.toNat + k * w.width.bytes := by
  rw [next?_eq_some_iff.1 h]
  ring

theorem wordAt_succ (h : w.next? a = some b) : w.WordAt a (k + 1) value ↔ w.WordAt b k value := by
  rw [WordAt, WordAt, toNat_add_of_next? h]

theorem exists_next?_iff :
    (∃ above, w.next? a = some above) ↔ a.toNat + w.width.bytes < UInt64.size := by
  constructor
  · rintro ⟨above, h⟩
    rw [← next?_eq_some_iff.1 h]
    exact above.toNat_lt
  · intro h
    exact ⟨UInt64.ofNat _, next?_eq_some_iff.2 (UInt64.toNat_ofNat_of_lt' h)⟩

def ReadTo (w : Walker) (a : UInt64) (k : Nat) : Prop :=
  k = 0 ∨ ∃ m, w.stack = some m ∧ m.base.toNat ≤ a.toNat ∧
    a.toNat + k * w.width.bytes ≤ m.base.toNat + m.size

theorem ReadTo.succ (h : w.ReadTo a k) (hword : w.WordAt a k value) : w.ReadTo a (k + 1) := by
  obtain ⟨hlt, hword⟩ := hword
  obtain ⟨m, hm, hbase, hle⟩ := isSome_word?_iff.1 (Option.isSome_of_eq_some hword)
  rw [UInt64.toNat_ofNat_of_lt' hlt] at hbase hle
  refine .inr ⟨m, hm, ?_, ?_⟩
  · rcases h with rfl | ⟨m', hm', hbase', -⟩
    · simpa using hbase
    · cases hm.symm.trans hm'
      exact hbase'
  · rw [Nat.succ_mul]
    omega

theorem ReadTo.lt (h : w.ReadTo a k) {bound : Nat} (hstack : ∀ m ∈ w.stack, m.size < bound)
    (hbound : 0 < bound) : k * w.width.bytes < bound := by
  rcases h with rfl | ⟨m, hm, hbase, hle⟩
  · simpa using hbound
  · have := hstack m hm
    omega

/-! ## The first return address -/

def ReturnsInto (w : Walker) (needsCfi : Bool) (value : UInt64) : Prop :=
  ∃ m, w.modules.find? (Cpu.callSite w.arch value) = some m ∧
    (needsCfi = true → ∃ cache a e, w.cache? m = some cache ∧
      cacheAddress? m cache (Cpu.callSite w.arch value) = some a ∧ cache.entry? a = some e)

theorem hasCfi_iff {m : Module} : w.hasCfi m a = true ↔
    ∃ cache b e, w.cache? m = some cache ∧ cacheAddress? m cache a = some b ∧
      cache.entry? b = some e := by
  rw [hasCfi]
  cases w.cache? m with
  | none => simp
  | some cache =>
      simp only [Option.isSome_iff_exists, Option.bind_eq_some_iff, Option.some.injEq,
        exists_and_left, exists_eq_left']
      exact exists_comm.trans (exists_congr fun b => exists_and_left)

theorem mayReturnTo_iff : w.mayReturnTo needsCfi value = true ↔ w.ReturnsInto needsCfi value := by
  simp only [mayReturnTo, ReturnsInto, ← hasCfi_iff]
  cases w.modules.find? (Cpu.callSite w.arch value) with
  | none => simp
  | some m => cases needsCfi <;> simp

/-- Whether the word with a number above an address is the first of some words that returns into a
module.  The words before it can all be read, and the address behind it is none too large. -/
structure FirstReturn (w : Walker) (needsCfi : Bool) (n : Nat) (a : UInt64) (k : Nat)
    (value : UInt64) : Prop where
  below : k < n
  passed : ∀ j < k, ∃ other, w.WordAt a j other ∧ ¬ w.ReturnsInto needsCfi other
  found : w.WordAt a k value
  returns : w.ReturnsInto needsCfi value
  fits : a.toNat + (k + 1) * w.width.bytes < UInt64.size

def callerBehind (w : Walker) (callee : WalkFrame) (a : UInt64) (k : Nat) (value : UInt64) :
    Candidate :=
  let sp := UInt64.ofNat (a.toNat + (k + 1) * w.width.bytes)
  ⟨w.keptFramePointer callee sp, value, sp⟩

theorem firstReturn_zero : w.FirstReturn needsCfi (n + 1) a 0 value ↔
    w.word? a = some value ∧ w.ReturnsInto needsCfi value ∧ ∃ above, w.next? a = some above := by
  rw [exists_next?_iff]
  constructor
  · rintro ⟨-, -, hfound, hreturns, hfits⟩
    exact ⟨wordAt_zero.1 hfound, hreturns, by simpa using hfits⟩
  · rintro ⟨hfound, hreturns, hfits⟩
    exact ⟨Nat.succ_pos n, nofun, wordAt_zero.2 hfound, hreturns, by simpa using hfits⟩

theorem firstReturn_succ : w.FirstReturn needsCfi (n + 1) a (k + 1) value ↔
    ∃ first above, w.word? a = some first ∧ ¬ w.ReturnsInto needsCfi first ∧
      w.next? a = some above ∧ w.FirstReturn needsCfi n above k value := by
  constructor
  · rintro ⟨hbelow, hpassed, hfound, hreturns, hfits⟩
    obtain ⟨first, hfirst, hno⟩ := hpassed 0 (Nat.succ_pos k)
    obtain ⟨above, habove⟩ : ∃ above, w.next? a = some above := by
      rw [exists_next?_iff]
      rw [Nat.succ_mul] at hfits
      omega
    refine ⟨first, above, wordAt_zero.1 hfirst, hno, habove, Nat.lt_of_succ_lt_succ hbelow, ?_,
      (wordAt_succ habove).1 hfound, hreturns, ?_⟩
    · intro j hj
      obtain ⟨other, hother, hno⟩ := hpassed (j + 1) (Nat.succ_lt_succ hj)
      exact ⟨other, (wordAt_succ habove).1 hother, hno⟩
    · rw [← toNat_add_of_next? habove]
      exact hfits
  · rintro ⟨first, above, hfirst, hno, habove, hbelow, hpassed, hfound, hreturns, hfits⟩
    refine ⟨Nat.succ_lt_succ hbelow, ?_, (wordAt_succ habove).2 hfound, hreturns, ?_⟩
    · intro j hj
      cases j with
      | zero => exact ⟨first, wordAt_zero.2 hfirst, hno⟩
      | succ j =>
          obtain ⟨other, hother, hno⟩ := hpassed j (Nat.lt_of_succ_lt_succ hj)
          exact ⟨other, (wordAt_succ habove).2 hother, hno⟩
    · rw [toNat_add_of_next? habove]
      exact hfits

theorem callerBehind_zero (h : w.next? a = some b) :
    w.callerBehind callee a 0 value = ⟨w.keptFramePointer callee b, value, b⟩ := by
  have hsp : UInt64.ofNat (a.toNat + (0 + 1) * w.width.bytes) = b := by
    rw [Nat.zero_add, Nat.one_mul, ← next?_eq_some_iff.1 h, UInt64.ofNat_toNat]
  rw [callerBehind, hsp]

theorem callerBehind_succ (h : w.next? a = some b) :
    w.callerBehind callee a (k + 1) value = w.callerBehind callee b k value := by
  rw [callerBehind, callerBehind, toNat_add_of_next? h]

/-- A scan proposes the caller of the first return address. -/
theorem scanFrom?_eq_some_iff : w.scanFrom? needsCfi callee n a = some c ↔
    ∃ k value, w.FirstReturn needsCfi n a k value ∧ c = w.callerBehind callee a k value := by
  induction n generalizing a with
  | zero => exact ⟨nofun, fun ⟨_, _, h, _⟩ => absurd h.below (Nat.not_lt_zero _)⟩
  | succ n ih =>
      simp only [scanFrom?, Option.bind_eq_bind, Option.bind_eq_some_iff]
      constructor
      · rintro ⟨first, hfirst, above, habove, h⟩
        split at h
        · rename_i hmay
          cases h
          exact ⟨0, first, firstReturn_zero.2 ⟨hfirst, mayReturnTo_iff.1 hmay, above, habove⟩,
            (callerBehind_zero habove).symm⟩
        · rename_i hmay
          obtain ⟨k, value, hreturn, rfl⟩ := ih.1 h
          refine ⟨k + 1, value, firstReturn_succ.2 ⟨first, above, hfirst, ?_, habove, hreturn⟩,
            (callerBehind_succ habove).symm⟩
          exact fun hinto => hmay (mayReturnTo_iff.2 hinto)
      · rintro ⟨k, value, hreturn, rfl⟩
        cases k with
        | zero =>
            obtain ⟨hfound, hreturns, above, habove⟩ := firstReturn_zero.1 hreturn
            refine ⟨value, hfound, above, habove, ?_⟩
            rw [if_pos (mayReturnTo_iff.2 hreturns), callerBehind_zero habove]
        | succ k =>
            obtain ⟨first, above, hfirst, hno, habove, hlater⟩ := firstReturn_succ.1 hreturn
            refine ⟨first, hfirst, above, habove, ?_⟩
            rw [if_neg fun hmay => hno (mayReturnTo_iff.1 hmay)]
            exact ih.2 ⟨k, value, hlater, callerBehind_succ habove⟩

/-! ## Arithmetic on words -/

inductive Overflow where
  | sum (x y : UInt64)
  | product (x y : UInt64)
  deriving DecidableEq

def exactSum (x y : UInt64) : Except Overflow UInt64 :=
  if x.toNat + y.toNat < UInt64.size then .ok (x + y) else .error (.sum x y)

def exactProduct (x y : UInt64) : Except Overflow UInt64 :=
  if x.toNat * y.toNat < UInt64.size then .ok (x * y) else .error (.product x y)

def countedScan (w : Walker) (needsCfi : Bool) (callee : WalkFrame) :
    (n : Nat) → (index : UInt64) → Except Overflow (Option Candidate)
  | 0, _ => return none
  | n + 1, index => do
    let offset ← exactProduct index w.wordSize
    let some a := addExact? callee.sp offset | return none
    let some value := w.word? a | return none
    if w.mayReturnTo needsCfi value then
      let some sp := addExact? a w.wordSize | return none
      return some ⟨w.keptFramePointer callee sp, value, sp⟩
    else countedScan w needsCfi callee n (← exactSum index 1)

def countedFramePointer (w : Walker) (callee : WalkFrame) :
    Except Overflow (Option Candidate) := do
  let some name := w.arch.family.framePointer? | return none
  let some fp := callee.registers.find? name | return none
  let some callerFp := w.word? fp | return none
  let some above := addExact? fp w.wordSize | return none
  let some ip := w.word? above | return none
  let size ← exactProduct 2 w.wordSize
  let some sp := addExact? fp size | return none
  if callerFp ≠ 0 ∧ (callerFp < sp ∨ (w.word? callerFp).isNone) then return none
  else return some ⟨SortedMap.empty.insert name callerFp, ip, sp⟩

theorem exactProduct_eq {x y : UInt64} {bound : Nat} (h : x.toNat * y.toNat < bound)
    (hbound : bound ≤ UInt64.size) :
    exactProduct x y = .ok (x * y) ∧ (x * y).toNat = x.toNat * y.toNat := by
  have hlt := Nat.lt_of_lt_of_le h hbound
  exact ⟨if_pos hlt, by rw [UInt64.toNat_mul, Nat.mod_eq_of_lt hlt]⟩

theorem exactSum_eq {x y : UInt64} (h : x.toNat + y.toNat < UInt64.size) :
    exactSum x y = .ok (x + y) ∧ (x + y).toNat = x.toNat + y.toNat :=
  ⟨if_pos h, by rw [UInt64.toNat_add, Nat.mod_eq_of_lt h]⟩

theorem wordAt_of_addExact? {offset : UInt64} (hoffset : offset.toNat = k * w.width.bytes)
    (hsum : addExact? a offset = some b) (hword : w.word? b = some value) :
    w.WordAt a k value := by
  have hb : a.toNat + k * w.width.bytes = b.toNat := by
    rw [addExact?_eq_some_iff.1 hsum, hoffset]
  refine ⟨hb ▸ b.toNat_lt, ?_⟩
  rw [hb, UInt64.ofNat_toNat]
  exact hword

/-- The word after some words lies behind the last of them. -/
theorem addExact?_eq_next? {offset above sp : UInt64} (hsum : addExact? sp offset = some a)
    (habove : above.toNat = offset.toNat + w.width.bytes) : addExact? sp above = w.next? a := by
  ext b
  rw [addExact?_eq_some_iff, next?_eq_some_iff, habove, addExact?_eq_some_iff.1 hsum, Nat.add_assoc]

/-- Products stay below the size of the stack, as long as all words so far were read. -/
theorem exactProduct_of_readTo (hstack : ∀ m ∈ w.stack, m.size < 2 ^ 63) {index : UInt64}
    (hread : w.ReadTo a index.toNat) :
    exactProduct index w.wordSize = .ok (index * w.wordSize) ∧
      (index * w.wordSize).toNat = index.toNat * w.width.bytes := by
  have hlt : index.toNat * w.wordSize.toNat < 2 ^ 63 := by
    rw [toNat_wordSize]
    exact hread.lt hstack (by decide)
  obtain ⟨hproduct, hoffset⟩ := exactProduct_eq hlt (by decide)
  exact ⟨hproduct, toNat_wordSize (w := w) ▸ hoffset⟩

/-- Counting and multiplying never overflows, and finds what going from word to word finds. -/
theorem countedScan_eq (hstack : ∀ m ∈ w.stack, m.size < 2 ^ 63) {index : UInt64}
    (hindex : index.toNat + n < UInt64.size) (hread : w.ReadTo callee.sp index.toNat) :
    w.countedScan needsCfi callee n index =
      .ok ((addExact? callee.sp (index * w.wordSize)).bind (w.scanFrom? needsCfi callee n)) := by
  induction n generalizing index with
  | zero =>
      cases addExact? callee.sp (index * w.wordSize) with
      | none => rfl
      | some a => rfl
  | succ n ih =>
      obtain ⟨hproduct, hoffset⟩ := exactProduct_of_readTo hstack hread
      simp only [countedScan, hproduct, bind, Except.bind, pure, Except.pure]
      cases ha : addExact? callee.sp (index * w.wordSize) with
      | none => rfl
      | some a =>
          simp only [Option.bind_some, scanFrom?, bind]
          cases hvalue : w.word? a with
          | none => rfl
          | some value =>
              simp only [Option.bind_some]
              by_cases hmay : w.mayReturnTo needsCfi value = true
              · simp only [if_pos hmay, next?]
                cases addExact? a w.wordSize with
                | none => rfl
                | some sp => rfl
              · have hone : (1 : UInt64).toNat = 1 := rfl
                obtain ⟨hsum, hnext⟩ := exactSum_eq (x := index) (y := 1) (by omega)
                have hread' : w.ReadTo callee.sp (index + 1).toNat := by
                  rw [hnext, hone]
                  exact hread.succ (wordAt_of_addExact? hoffset ha hvalue)
                have habove : ((index + 1) * w.wordSize).toNat =
                    (index * w.wordSize).toNat + w.width.bytes := by
                  rw [(exactProduct_of_readTo hstack hread').2, hoffset, hnext, hone, Nat.succ_mul]
                simp only [if_neg hmay, hsum]
                rw [ih (by omega) hread', addExact?_eq_next? ha habove]

theorem countedFramePointer_eq :
    w.countedFramePointer callee = .ok (w.byFramePointer? callee) := by
  have hdouble : (2 : UInt64).toNat * w.wordSize.toNat < 17 := by
    rw [toNat_wordSize]
    cases w.width <;> decide
  obtain ⟨hproduct, hsize⟩ := exactProduct_eq hdouble (by decide)
  have htwo : (2 * w.wordSize).toNat = w.wordSize.toNat + w.width.bytes := by
    rw [hsize, toNat_wordSize]
    exact Nat.two_mul _
  simp only [countedFramePointer, byFramePointer?, hproduct, bind, Except.bind, pure, Except.pure]
  cases w.arch.family.framePointer? with
  | none => rfl
  | some name =>
      simp only [Option.bind_some]
      cases callee.registers.find? name with
      | none => rfl
      | some fp =>
          simp only [Option.bind_some]
          cases w.word? fp with
          | none => rfl
          | some callerFp =>
              simp only [Option.bind_some]
              cases habove : addExact? fp w.wordSize with
              | none => simp only [next?, habove, Option.bind_none]
              | some above =>
                  simp only [show w.next? fp = some above from habove, Option.bind_some]
                  cases w.word? above with
                  | none => rfl
                  | some ip =>
                      simp only [Option.bind_some, addExact?_eq_next? habove htwo]
                      cases w.next? above with
                      | none => rfl
                      | some sp =>
                          simp only [Option.bind_some]
                          split
                          · rfl
                          · rfl

/-- A scan proposes a caller exactly if one of the words up to its limit is a return address, all
words before it can be read, and the address behind it is an address.  It proposes the caller of the
first such word.  With limits that are words, and less than half of all memory on the stack, it may
count and multiply without leaving the words; neither does the chain of frame pointers, nor the way
from a return address to its call. -/
theorem scan_finds_first_return (hstack : ∀ m ∈ w.stack, m.size < 2 ^ 63)
    (hscan : w.config.scanWords < 2 ^ 64) (hcontext : w.config.contextScanWords < 2 ^ 64)
    (callee : WalkFrame) :
    (∀ needsCfi c, w.byScan? needsCfi callee = some c ↔
      ∃ k value, w.FirstReturn needsCfi (w.scanLimit callee) callee.sp k value ∧
        c = w.callerBehind callee callee.sp k value) ∧
    (∀ needsCfi, w.countedScan needsCfi callee (w.scanLimit callee) 0 =
      .ok (w.byScan? needsCfi callee)) ∧
    w.countedFramePointer callee = .ok (w.byFramePointer? callee) ∧
    ∀ a, (Cpu.callSite w.arch a).toNat =
      a.toNat / w.arch.family.instructionSize * w.arch.family.instructionSize -
        w.arch.family.skipped * w.arch.family.instructionSize := by
  refine ⟨fun needsCfi c => scanFrom?_eq_some_iff, ?_, countedFramePointer_eq,
    Cpu.toNat_callSite w.arch⟩
  intro needsCfi
  have hlimit : (0 : UInt64).toNat + w.scanLimit callee < UInt64.size := by
    rw [UInt64.toNat_zero, Nat.zero_add, scanLimit]
    split
    · exact hcontext
    · exact hscan
  have hstart : addExact? callee.sp (0 * w.wordSize) = some callee.sp := by
    rw [UInt64.zero_mul, addExact?_eq_some_iff]
    rfl
  rw [countedScan_eq hstack hlimit (.inl rfl), hstart, byScan?, Option.bind_some]

/-- A walker without limits on a stack of three words that ends with the last address. -/
def topWalker : Walker :=
  { sampleWalker with
    stack := some (.ofWords 0xffffffffffffffe8 [7, 0x1020, 0x1030] 8)
    config := { scanWords := 2 ^ 64 - 1, contextScanWords := 2 ^ 64 - 1 } }

def topFrame (sp : UInt64) : WalkFrame := ⟨.empty, 0x1010, sp, 0x1010, .context⟩

/-- The second word is found.  The last one is a return address too, but nothing lies behind it. -/
theorem scan_finds_first_return_sample :
    (∀ m ∈ topWalker.stack, m.size < 2 ^ 63) ∧ topWalker.config.scanWords < 2 ^ 64 ∧
    topWalker.config.contextScanWords < 2 ^ 64 ∧
    (topWalker.byScan? false (topFrame 0xffffffffffffffe8)).map (fun c => (c.ip, c.sp)) =
      some (0x1020, 0xfffffffffffffff8) ∧
    topWalker.byScan? false (topFrame 0xfffffffffffffff8) = none ∧
    ∀ sp, topWalker.countedScan false (topFrame sp) (2 ^ 64 - 1) 0 =
      .ok (topWalker.byScan? false (topFrame sp)) := by
  have hstack : ∀ m ∈ topWalker.stack, m.size < 2 ^ 63 := by
    intro m hm
    cases hm
    decide +kernel
  have hscan : topWalker.config.scanWords < 2 ^ 64 := by decide +kernel
  have hcontext : topWalker.config.contextScanWords < 2 ^ 64 := by decide +kernel
  refine ⟨hstack, hscan, hcontext, by cbv, by cbv, ?_⟩
  intro sp
  exact (scan_finds_first_return hstack hscan hcontext (topFrame sp)).2.1 false

end Crash.Walker

end Postmortem
