import Postmortem.Proofs.Crash.Scans

/-!
# The order of strategies

A walk takes the caller that the first strategy leads to whose candidate is not rejected.  It ends
where a return address is zero, where all strategies are rejected, or at the limit of frames.
-/

set_option autoImplicit false

namespace Postmortem.Crash.Walker

variable {w : Walker} {callee : WalkFrame} {scans : Nat} {s : Strategy} {c : Candidate}

def candidate? (w : Walker) (callee : WalkFrame) : Strategy → Option Candidate
  | .cfi => w.byCfi? callee
  | .framePointer => w.byFramePointer? callee
  | .cfiScan => w.byScan? true callee
  | .scan => w.byScan? false callee

def Enabled (w : Walker) (scans : Nat) (s : Strategy) : Prop :=
  s = .scan → scans < w.config.maxConsecutiveScans

/-- Whether a strategy proposes nothing, or a caller that does not end the stack but does not lie
above its callee, or in no module. -/
def Rejects (w : Walker) (callee : WalkFrame) (s : Strategy) : Prop :=
  ∀ c, w.candidate? callee s = some c →
    c.ip ≠ 0 ∧ (c.sp ≤ callee.sp ∨ w.modules.find? (Cpu.callSite w.arch c.ip) = none)

/-- Whether a caller is the plausible one of the first strategy that is not rejected. -/
def FirstFound (w : Walker) (callee caller : WalkFrame) : Prop :=
  ∃ passed k rest c, Strategy.all = passed ++ k :: rest ∧ (∀ s ∈ passed, w.Rejects callee s) ∧
    w.candidate? callee k = some c ∧ c.ip ≠ 0 ∧ caller = w.callerFrame c k.trust ∧
    w.isPlausible callee caller = true

/-- Whether the first strategy that is not rejected finds the end of the stack. -/
def FindsEnd (w : Walker) (scans : Nat) (callee : WalkFrame) : Prop :=
  ∃ passed k rest c, Strategy.all = passed ++ k :: rest ∧ (∀ s ∈ passed, w.Rejects callee s) ∧
    w.Enabled scans k ∧ w.candidate? callee k = some c ∧ c.ip = 0

/-! ## One step -/

theorem propose?_of_enabled (h : w.Enabled scans s) :
    w.propose? callee scans s = w.candidate? callee s := by
  cases s with
  | cfi => rfl
  | framePointer => rfl
  | cfiScan => rfl
  | scan => exact if_neg (Nat.not_le.2 (h rfl))

theorem enabled_of_propose? (h : w.propose? callee scans s = some c) : w.Enabled scans s := by
  rintro rfl
  rw [propose?] at h
  split at h
  · cases h
  · exact Nat.lt_of_not_le ‹_›

theorem isPlausible_eq_false {trust : Trust} :
    w.isPlausible callee (w.callerFrame c trust) = false ↔
      c.sp ≤ callee.sp ∨ w.modules.find? (Cpu.callSite w.arch c.ip) = none := by
  rw [isPlausible, Bool.and_eq_false_iff, decide_eq_false_iff_not, UInt64.not_lt,
    Option.isSome_eq_false_iff, Option.isNone_iff_eq_none]
  rfl

theorem rejects_of_passes (hs : w.Enabled scans s) (h : w.Passes callee scans s) :
    w.Rejects callee s := by
  intro c hc
  rw [← propose?_of_enabled hs] at hc
  obtain ⟨hip, himplausible⟩ := h c hc
  exact ⟨hip, isPlausible_eq_false.1 himplausible⟩

/-- Only the plain scan, which is the last strategy, may be disabled. -/
theorem enabled_of_mem_passed {passed rest : List Strategy} {k : Strategy}
    (hall : Strategy.all = passed ++ k :: rest) (hs : s ∈ passed) : w.Enabled scans s := by
  rintro rfl
  -- the plain scan would not be last, as a strategy follows those passed over
  have hmem : Strategy.scan ∈ Strategy.all.dropLast := by
    rw [hall, List.dropLast_append_of_ne_nil (List.cons_ne_nil _ _)]
    exact List.mem_append_left _ hs
  exact absurd hmem (by decide)

theorem firstFound_of_firstCaller? {caller : WalkFrame}
    (h : w.firstCaller? callee scans Strategy.all = some caller) : w.FirstFound callee caller := by
  obtain ⟨passed, k, rest, c, hall, hfinds⟩ := finds_of_firstCaller? h
  refine ⟨passed, k, rest, c, hall, ?_, ?_, hfinds.ip_ne_zero, hfinds.eq_callerFrame,
    hfinds.accepted⟩
  · intro s hs
    exact rejects_of_passes (enabled_of_mem_passed hall hs) (hfinds.passes s hs)
  · rw [← propose?_of_enabled (enabled_of_propose? hfinds.proposes)]
    exact hfinds.proposes

theorem end_of_firstCaller? (h : w.firstCaller? callee scans Strategy.all = none) :
    w.FindsEnd scans callee ∨ ∀ s, w.Enabled scans s → w.Rejects callee s := by
  rcases firstCaller?_cases w callee scans Strategy.all with
    ⟨hall, -⟩ | ⟨passed, k, rest, c, hall, hpassed, hk, ⟨hip, -⟩ | ⟨-, -, hsome⟩⟩
  · right
    intro s hs
    have hmem : s ∈ Strategy.all := by cases s <;> decide
    exact rejects_of_passes hs (hall s hmem)
  · have henabled := enabled_of_propose? hk
    refine .inl ⟨passed, k, rest, c, hall, ?_, henabled, ?_, hip⟩
    · intro s hs
      exact rejects_of_passes (enabled_of_mem_passed hall hs) (hpassed s hs)
    · rw [← propose?_of_enabled henabled]
      exact hk
  · rw [h] at hsome
    cases hsome

/-! ## Scans -/

/-- What a plain scan proposes is plausible. -/
theorem isPlausible_of_byScan? (h : w.byScan? false callee = some c) :
    w.isPlausible callee (w.callerFrame c .scan) = true := by
  obtain ⟨k, value, hreturn, rfl⟩ := scanFrom?_eq_some_iff.1 h
  obtain ⟨m, hm, -⟩ := hreturn.returns
  have hrises : callee.sp < UInt64.ofNat (callee.sp.toNat + (k + 1) * w.width.bytes) := by
    rw [UInt64.lt_iff_toNat_lt, UInt64.toNat_ofNat_of_lt' hreturn.fits]
    exact Nat.lt_add_of_pos_right (Nat.mul_pos (Nat.succ_pos k) width_pos)
  exact isPlausible_iff.2 ⟨hrises, m, hm⟩

/-! ## The whole walk -/

/-- The number of frames at the end of a list that were found by a plain scan. -/
def scansAtEnd (frames : List WalkFrame) : Nat :=
  (frames.reverse.takeWhile fun f => f.trust = .scan).length

def countScans (scans : Nat) (f : WalkFrame) : Nat := if f.trust = .scan then scans + 1 else 0

theorem foldl_countScans (frames : List WalkFrame) :
    frames.foldl countScans 0 = scansAtEnd frames := by
  -- the count starts over at the front of the list, so frames are added at the back
  induction frames using List.reverseRecOn with
  | nil => rfl
  | append_singleton frames f ih =>
      rw [List.foldl_append, ih, scansAtEnd, scansAtEnd, List.reverse_append,
        List.reverse_singleton, List.singleton_append, List.takeWhile_cons]
      simp only [List.foldl_cons, List.foldl_nil, countScans, decide_eq_true_eq]
      split
      · rfl
      · rfl

theorem isChain_firstFound {n : Nat} :
    (callee :: w.callers n callee scans).IsChain w.FirstFound := by
  induction n generalizing callee scans with
  | zero => exact List.isChain_singleton callee
  | succ n ih =>
      simp only [callers]
      split
      · exact List.isChain_singleton callee
      · exact List.isChain_cons_cons.2 ⟨firstFound_of_firstCaller? ‹_›, ih⟩

/-- The last of the callers has no caller, if there could be one more of them. -/
theorem firstCaller?_last {n : Nat} {earlier : List WalkFrame} {last : WalkFrame}
    (hlast : callee :: w.callers n callee scans = earlier ++ [last])
    (hlength : (w.callers n callee scans).length < n) :
    w.firstCaller? last ((w.callers n callee scans).foldl countScans scans) Strategy.all =
      none := by
  induction n generalizing callee scans earlier with
  | zero => cases hlength
  | succ n ih =>
      cases hcaller : w.firstCaller? callee scans Strategy.all with
      | none =>
          simp only [callers, hcaller] at hlast ⊢
          have hsame : callee = last := by simpa using congrArg List.getLast? hlast
          rw [← hsame]
          exact hcaller
      | some caller =>
          simp only [callers, hcaller, List.length_cons] at hlast hlength ⊢
          cases earlier with
          | nil => simp at hlast
          | cons f earlier =>
              obtain ⟨-, hlater⟩ := List.cons.inj hlast
              exact ih hlater (Nat.lt_of_succ_lt_succ hlength)

/-- In a walk each caller comes from the first strategy that was not rejected.  Below the limit of
frames a walk ends where such a strategy finds the end of the stack, or where all strategies that may
be used are rejected.  Nothing that a plain scan proposes is ever implausible. -/
theorem walk_tries_in_order {t : Thread} (ht : t.prewalked = none) :
    (w.walk t).frames = (w.visited t).map w.toFrame ∧
    (w.visited t).IsChain w.FirstFound ∧
    (w.visited t = [] → t.context.bind w.contextFrame? = none ∨ w.config.maxFrames = 0) ∧
    (∀ earlier last, w.visited t = earlier ++ [last] →
      (w.walk t).frames.length < w.config.maxFrames →
      w.FindsEnd (scansAtEnd (w.visited t)) last ∨
        ∀ s, w.Enabled (scansAtEnd (w.visited t)) s → w.Rejects last s) ∧
    ∀ callee c, w.candidate? callee .scan = some c →
      callee.sp < c.sp ∧ ∃ m, w.modules.find? (Cpu.callSite w.arch c.ip) = some m := by
  have hframes : (w.walk t).frames = (w.visited t).map w.toFrame := frames_eq_visited ht
  refine ⟨hframes, ?_, ?_, ?_, ?_⟩
  · rcases visited_cases w t with h | ⟨first, n, -, -, h⟩
    · rw [h]
      exact .nil
    · rw [h]
      exact isChain_firstFound
  · intro hnil
    cases hfirst : t.context.bind w.contextFrame? with
    | none => exact .inl rfl
    | some first =>
        cases hn : w.config.maxFrames with
        | zero => exact .inr rfl
        | succ n =>
            rw [visited, hfirst, hn] at hnil
            cases hnil
  · intro earlier last hlast hlength
    rw [hframes, List.length_map] at hlength
    rcases visited_cases w t with h | ⟨first, n, hfirst, hn, h⟩
    · rw [h] at hlast
      simp at hlast
    · have hcount : scansAtEnd (w.visited t) = (w.callers n first 0).foldl countScans 0 := by
        have htrust := (visited_trust h).1.1
        rw [← foldl_countScans, h, List.foldl_cons, countScans, htrust]
        rfl
      rw [h] at hlast
      rw [h, hn, List.length_cons] at hlength
      rw [hcount]
      exact end_of_firstCaller? (firstCaller?_last hlast (Nat.lt_of_succ_lt_succ hlength))
  · intro callee c hc
    exact isPlausible_iff.1 (isPlausible_of_byScan? hc)

theorem walk_tries_in_order_sample : sampleThread.prewalked = none ∧
    (sampleWalker.visited sampleThread).map (fun f => (f.ip, f.trust)) =
      [(0x1010, .context), (0x1020, .framePointer), (0x1030, .scan), (0x1040, .scan)] ∧
    (sampleWalker.visited sampleThread).IsChain sampleWalker.FirstFound ∧
    ∀ earlier last, sampleWalker.visited sampleThread = earlier ++ [last] →
      (sampleWalker.walk sampleThread).frames.length < sampleWalker.config.maxFrames →
      sampleWalker.FindsEnd (scansAtEnd (sampleWalker.visited sampleThread)) last ∨
        ∀ s, sampleWalker.Enabled (scansAtEnd (sampleWalker.visited sampleThread)) s →
          sampleWalker.Rejects last s := by
  obtain ⟨-, hchain, -, hend, -⟩ := walk_tries_in_order (w := sampleWalker) (t := sampleThread) rfl
  exact ⟨rfl, by cbv, hchain, hend⟩

end Postmortem.Crash.Walker
