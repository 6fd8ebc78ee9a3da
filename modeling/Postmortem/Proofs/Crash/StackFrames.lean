import Postmortem.Proofs.Crash.Scans

/-!
# Frames that are read off the stack

Frames that were found without unwind information stand behind a word of the stack, each behind
another one.  So there are no more of them than the stack has bytes, whatever the limits of the walk
and wherever unwind information leads in between.  Their frame pointers lead upwards on the stack or
are zero.
-/

set_option autoImplicit false

namespace Postmortem.Crash.Walker

variable {w : Walker} {callee caller : WalkFrame} {scans : Nat} {passed : List Strategy}
  {s : Strategy} {c : Candidate}

/-! ## Candidates -/

/-- Whether a candidate has no frame pointer, one that ends the chain, or one that leads to a word at
or above its stack pointer. -/
def KeepsChain (w : Walker) (c : Candidate) : Prop :=
  ∀ name fp, w.arch.family.framePointer? = some name → c.registers.find? name = some fp →
    fp = 0 ∨ c.sp ≤ fp ∧ w.HasWord fp

theorem keepsChain_of_byFramePointer? (h : w.byFramePointer? callee = some c) :
    w.KeepsChain c := by
  obtain ⟨name, fp, callerFp, above, ip, sp, hname, -, -, -, -, -, hchain, rfl⟩ :=
    byFramePointer?_eq_some h
  intro other value hother hvalue
  obtain rfl := Option.some.inj (hname.symm.trans hother)
  rw [SortedMap.find?_insert_self] at hvalue
  cases hvalue
  exact hchain

theorem keptFramePointer_reads {sp : UInt64} {name : String} {fp : UInt64}
    (h : (w.keptFramePointer callee sp).find? name = some fp) : sp ≤ fp ∧ w.HasWord fp := by
  rw [keptFramePointer] at h
  rcases SortedMap.find?_ofList name _ with ⟨value, hmem, hvalue⟩ | ⟨-, hnone⟩
  · cases hvalue.symm.trans h
    obtain ⟨_, -, hmem⟩ := Option.bind_eq_some_iff.1 (Option.mem_toList.1 hmem)
    obtain ⟨old, -, hmem⟩ := Option.bind_eq_some_iff.1 hmem
    split at hmem
    · rename_i hkept
      cases hmem
      rw [Bool.and_eq_true, decide_eq_true_eq] at hkept
      exact ⟨hkept.1, isSome_word?_iff.1 hkept.2⟩
    · cases hmem
  · cases hnone.symm.trans h

theorem keepsChain_of_byScan? {needsCfi : Bool} (h : w.byScan? needsCfi callee = some c) :
    w.KeepsChain c := by
  obtain ⟨k, value, hreturn, rfl⟩ := scanFrom?_eq_some_iff.1 h
  intro name fp _ hfp
  exact .inr (keptFramePointer_reads hfp)

/-! ## Frames -/

def stackTrusts : List Trust := [.framePointer, .cfiScan, .scan]

/-- Candidates that are not found by unwind information are read off the stack. -/
theorem propose?_reads (hs : s.trust ∈ stackTrusts) (h : w.propose? callee scans s = some c) :
    w.BehindWord c.sp ∧ w.KeepsChain c := by
  cases s with
  | cfi => exact absurd hs (by decide)
  | framePointer => exact ⟨behindWord_of_byFramePointer? h, keepsChain_of_byFramePointer? h⟩
  | cfiScan => exact ⟨behindWord_of_scanFrom? h, keepsChain_of_byScan? h⟩
  | scan =>
      simp only [propose?] at h
      split at h
      · cases h
      · exact ⟨behindWord_of_scanFrom? h, keepsChain_of_byScan? h⟩

/-- Whether a frame stands behind a word of the stack, and its frame pointer, if it has one, is zero
or leads to a word at or above its stack pointer. -/
structure OnStackWord (w : Walker) (f : WalkFrame) : Prop where
  behind : w.BehindWord f.sp
  chained : ∀ name fp, w.arch.family.framePointer? = some name →
    f.registers.find? name = some fp → fp = 0 ∨ f.sp ≤ fp ∧ w.HasWord fp

theorem Finds.onStackWord
    (hnames : ∀ name, w.arch.family.framePointer? = some name → name ≠ w.ipName ∧ name ≠ w.spName)
    (h : w.Finds callee scans passed s c caller) (htrust : caller.trust ∈ stackTrusts) :
    w.OnStackWord caller := by
  obtain ⟨-, hpropose, -, rfl, -⟩ := h
  obtain ⟨hbehind, hchain⟩ := propose?_reads htrust hpropose
  refine ⟨hbehind, ?_⟩
  intro name fp hname hfp
  obtain ⟨hip, hsp⟩ := hnames name hname
  simp only [callerFrame, SortedMap.find?_insert_of_ne _ hsp,
    SortedMap.find?_insert_of_ne _ hip] at hfp
  exact hchain name fp hname hfp

theorem onStackWord_of_mem_visited
    (hnames : ∀ name, w.arch.family.framePointer? = some name → name ≠ w.ipName ∧ name ≠ w.spName)
    {t : Thread} {f : WalkFrame} (hf : f ∈ w.visited t) (htrust : f.trust ∈ stackTrusts) :
    w.OnStackWord f := by
  rcases visited_cases w t with h | ⟨first, n, -, -, h⟩
  · rw [h] at hf
    cases hf
  · have hfirst := (visited_trust h).1.1
    rw [h] at hf
    rcases List.mem_cons.1 hf with rfl | hf
    · rw [hfirst] at htrust
      exact absurd htrust (by decide)
    · obtain ⟨g, scans, passed, s, c, hfinds⟩ := leadsTo_of_mem_callers hf
      exact hfinds.onStackWord hnames htrust

/-! ## The number of frames -/

theorem length_le_of_increasing {l : List Nat} {n : Nat} (h : l.Pairwise (· < ·))
    (hlt : ∀ x ∈ l, x < n) : l.length ≤ n := by
  have hnodup : l.Nodup := h.imp Nat.ne_of_lt
  have hsubset : l ⊆ List.range n := fun x hx => List.mem_range.2 (hlt x hx)
  simpa using (hnodup.subperm hsubset).length_le

/-- Frames with rising stack pointers, each behind a word of the stack, are no more than the stack
has bytes. -/
theorem length_le_of_behindWord {frames : List WalkFrame}
    (hrise : frames.Pairwise fun f g => f.sp < g.sp) (h : ∀ f ∈ frames, w.BehindWord f.sp) :
    frames.length ≤ (w.stack.map MemoryRegion.size).getD 0 := by
  cases hstack : w.stack with
  | none =>
      cases frames with
      | nil => exact Nat.le_refl 0
      | cons f rest =>
          obtain ⟨m, hm, -⟩ := h f (List.mem_cons_self ..)
          cases hstack.symm.trans hm
  | some m =>
      -- the places of the words in the stack rise with the stack pointers
      let place (f : WalkFrame) : Nat := f.sp.toNat - w.width.bytes - m.base.toNat
      have hword : ∀ f ∈ frames, m.base.toNat + w.width.bytes ≤ f.sp.toNat ∧
          f.sp.toNat ≤ m.base.toNat + m.size := by
        intro f hf
        obtain ⟨m', hm', hbounds⟩ := h f hf
        cases hstack.symm.trans hm'
        exact hbounds
      have hplaces : (frames.map place).Pairwise (· < ·) := by
        refine List.pairwise_map.2 (hrise.imp_of_mem ?_)
        intro f g hf hg hlt
        have hf := hword f hf
        have hg := hword g hg
        rw [UInt64.lt_iff_toNat_lt] at hlt
        simp only [place]
        omega
      have hbound : ∀ x ∈ frames.map place, x < m.size := by
        intro x hx
        obtain ⟨f, hf, rfl⟩ := List.mem_map.1 hx
        have hf := hword f hf
        have := width_pos (w := w)
        simp only [place]
        omega
      simpa using length_le_of_increasing hplaces hbound

/-- Whatever its limits, a walk finds no more frames by words of the stack than the stack has bytes,
and the frame pointer of each is zero or leads to a word at or above its stack pointer. -/
theorem stack_bounds_its_frames {arch : Arch} {modules : ModuleMap} {frameInfos : FrameInfoMap}
    {config : WalkerConfig} {t : Thread}
    (hw : make? arch t.stack modules frameInfos config = some w) (ht : t.prewalked = none) :
    ((w.walk t).frames.filter (·.trust ∈ stackTrusts)).length ≤
      (t.stack.map MemoryRegion.size).getD 0 ∧
    (w.walk t).frames = (w.visited t).map w.toFrame ∧
    ∀ f ∈ w.visited t, f.trust ∈ stackTrusts →
      ∀ name fp, arch.family.framePointer? = some name → f.registers.find? name = some fp →
        fp = 0 ∨ f.sp ≤ fp ∧ ∃ m ∈ t.stack, m.base.toNat ≤ fp.toNat ∧
          fp.toNat + w.width.bytes ≤ m.base.toNat + m.size := by
  obtain ⟨harch, hstack, -, -, -, -⟩ := make?_eq_some hw
  have hnames := (names_of_make? hw).2
  have hframes : (w.walk t).frames = (w.visited t).map w.toFrame := frames_eq_visited ht
  refine ⟨?_, hframes, ?_⟩
  · rw [hframes, List.filter_map, List.length_map, ← hstack]
    refine length_le_of_behindWord ((pairwise_visited w t).sublist List.filter_sublist) ?_
    intro f hf
    obtain ⟨hf, htrust⟩ := List.mem_filter.1 hf
    exact (onStackWord_of_mem_visited hnames hf (of_decide_eq_true htrust)).behind
  · intro f hf htrust name fp hname hfp
    rw [← harch] at hname
    rw [← hstack]
    exact (onStackWord_of_mem_visited hnames hf htrust).chained name fp hname hfp

/-- A thread with two saved frame pointers on its stack, the last one zero, and a return address
behind them. -/
def chainThread : Thread where
  context := some (.ofList [("rip", 0x1010), ("rsp", 0x8000), ("rbp", 0x8000)])
  stack := some (.ofWords 0x8000 [0x8018, 0x1020, 7, 0, 0x1030, 0x1040] 8)

def endlessWalker : Walker :=
  { sampleWalker with stack := chainThread.stack, config := { maxFrames := 2 ^ 64 - 1 } }

theorem endlessWalker_eq : make? .amd64 chainThread.stack (.ofList sampleSnapshot.modules) .empty
    { maxFrames := 2 ^ 64 - 1 } = some endlessWalker := rfl

theorem stack_bounds_its_frames_sample :
    make? .amd64 chainThread.stack (.ofList sampleSnapshot.modules) .empty
      { maxFrames := 2 ^ 64 - 1 } = some endlessWalker ∧ chainThread.prewalked = none ∧
    (endlessWalker.visited chainThread).map
        (fun f => (f.trust, f.sp, f.registers.find? "rbp")) =
      [(.context, 0x8000, some 0x8000), (.framePointer, 0x8010, some 0x8018),
        (.framePointer, 0x8028, some 0), (.scan, 0x8030, none)] ∧
    ((endlessWalker.walk chainThread).frames.filter (·.trust ∈ stackTrusts)).length ≤ 48 := by
  have hsize : (chainThread.stack.map MemoryRegion.size).getD 0 = 48 := by decide +kernel
  have hbound := (stack_bounds_its_frames endlessWalker_eq rfl).1
  rw [hsize] at hbound
  exact ⟨endlessWalker_eq, rfl, by decide +kernel, hbound⟩

end Postmortem.Crash.Walker
