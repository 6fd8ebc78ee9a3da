import Mathlib
import Postmortem.Proofs.Crash.ModuleOwners
import Postmortem.Proofs.Crash.WalkSteps

/-!
# Walks

The frames of a walk, each found from the one before it.  There are no more of them than the limits
allow, their stack pointers rise, and every caller was recovered by one of the strategies from code
that lies in a module.
-/

set_option autoImplicit false

/-- The registers that a walk is about have different names. -/
theorem Postmortem.Cpu.Family.names_differ {family : Family} {ip sp : String}
    (hip : family.instructionPointer? = some ip) (hsp : family.stackPointer? = some sp) :
    ip ≠ sp ∧ ∀ fp, family.framePointer? = some fp → fp ≠ ip ∧ fp ≠ sp := by
  refine ⟨?_, fun fp hfp => ?_⟩
  · cases family <;> cases hip <;> cases hsp <;> decide
  · cases family <;> cases hip <;> cases hsp <;> cases hfp <;> decide

namespace Postmortem.Crash.Walker

variable {w : Walker} {n scans : Nat} {callee : WalkFrame}

/-! ## Callers -/

/-- Every member of a chain but the first is related to the one before it. -/
theorem exists_before_of_isChain {α : Type} {r : α → α → Prop} {a b : α} {l : List α}
    (h : (a :: l).IsChain r) (hb : b ∈ l) : ∃ c, [c, b] <:+: a :: l ∧ r c b := by
  induction l generalizing a with
  | nil => cases hb
  | cons x l ih =>
      obtain ⟨hax, hrest⟩ := List.isChain_cons_cons.1 h
      rcases List.mem_cons.1 hb with rfl | hb
      · exact ⟨a, ⟨[], l, rfl⟩, hax⟩
      · obtain ⟨c, hinfix, hcb⟩ := ih hrest hb
        exact ⟨c, List.infix_cons hinfix, hcb⟩

theorem length_callers_le : (w.callers n callee scans).length ≤ n := by
  induction n generalizing callee scans with
  | zero => exact Nat.le_refl 0
  | succ n ih =>
      simp only [callers]
      split
      · exact Nat.zero_le _
      · exact Nat.succ_le_succ ih

def LeadsTo (w : Walker) (callee caller : WalkFrame) : Prop :=
  ∃ scans passed s c, w.Finds callee scans passed s c caller

theorem isChain_callers : (callee :: w.callers n callee scans).IsChain w.LeadsTo := by
  induction n generalizing callee scans with
  | zero => exact List.isChain_singleton callee
  | succ n ih =>
      simp only [callers]
      split
      · exact List.isChain_singleton callee
      · rename_i caller hcaller
        obtain ⟨passed, s, rest, c, -, hfinds⟩ := finds_of_firstCaller? hcaller
        exact List.isChain_cons_cons.2 ⟨⟨scans, passed, s, c, hfinds⟩, ih⟩

theorem leadsTo_of_mem_callers {f : WalkFrame} (h : f ∈ w.callers n callee scans) :
    ∃ g, w.LeadsTo g f := by
  obtain ⟨g, -, hleads⟩ := exists_before_of_isChain isChain_callers h
  exact ⟨g, hleads⟩

theorem recovered_of_mem_callers {f : WalkFrame} (h : f ∈ w.callers n callee scans) :
    w.Recovered f := by
  obtain ⟨g, scans, passed, s, c, hfinds⟩ := leadsTo_of_mem_callers h
  exact hfinds.recovered

/-! ## Plain scans in a row -/

theorem scans_at_front {run : List WalkFrame} (hrun : run <+: w.callers n callee scans)
    (hscan : ∀ f ∈ run, f.trust = .scan) (hle : scans ≤ w.config.maxConsecutiveScans) :
    scans + run.length ≤ w.config.maxConsecutiveScans := by
  induction n generalizing callee scans run with
  | zero =>
      rw [List.prefix_nil.1 hrun]
      exact hle
  | succ n ih =>
      simp only [callers] at hrun
      split at hrun
      · rw [List.prefix_nil.1 hrun]
        exact hle
      · rename_i caller hcaller
        rcases List.prefix_cons_iff.1 hrun with rfl | ⟨later, rfl, hlater⟩
        · exact hle
        · obtain ⟨passed, s, rest, c, -, hfinds⟩ := finds_of_firstCaller? hcaller
          have htrust := hscan caller (List.mem_cons_self ..)
          have hlt := hfinds.scans_lt htrust
          rw [if_pos htrust] at hlater
          have := ih hlater (fun f hf => hscan f (List.mem_cons_of_mem _ hf)) hlt
          rw [List.length_cons]
          omega

theorem scans_in_a_row {run : List WalkFrame} (hrun : run <:+: w.callers n callee scans)
    (hscan : ∀ f ∈ run, f.trust = .scan) (hle : scans ≤ w.config.maxConsecutiveScans) :
    run.length ≤ w.config.maxConsecutiveScans := by
  induction n generalizing callee scans with
  | zero =>
      rw [List.infix_nil.1 hrun]
      exact Nat.zero_le _
  | succ n ih =>
      rw [callers] at hrun
      split at hrun
      · rw [List.infix_nil.1 hrun]
        exact Nat.zero_le _
      · rename_i caller hcaller
        obtain ⟨passed, s, rest, c, -, hfinds⟩ := finds_of_firstCaller? hcaller
        rcases List.infix_cons_iff.1 hrun with hfront | hlater
        · have hcallers : run <+: w.callers (n + 1) callee scans := by
            simpa only [callers, hcaller] using hfront
          have := scans_at_front hcallers hscan hle
          omega
        · refine ih hlater ?_
          split
          · rename_i htrust
            exact hfinds.scans_lt htrust
          · exact Nat.zero_le _

/-! ## The whole walk -/

def visited (w : Walker) (t : Thread) : List WalkFrame :=
  match t.context.bind w.contextFrame?, w.config.maxFrames with
  | some first, n + 1 => first :: w.callers n first 0
  | _, _ => []

theorem frames_eq_visited {t : Thread} (h : t.prewalked = none) :
    w.frames t = (w.visited t).map w.toFrame := by
  rw [frames, visited, h]
  cases t.context.bind w.contextFrame? with
  | none => rfl
  | some first =>
      cases w.config.maxFrames with
      | zero => rfl
      | succ n => rfl

theorem visited_cases (w : Walker) (t : Thread) :
    w.visited t = [] ∨ ∃ first n, t.context.bind w.contextFrame? = some first ∧
      w.config.maxFrames = n + 1 ∧ w.visited t = first :: w.callers n first 0 := by
  rw [visited]
  split
  · rename_i first n hfirst hn
    exact .inr ⟨first, n, hfirst, hn, rfl⟩
  · exact .inl rfl

theorem length_visited_le (w : Walker) (t : Thread) :
    (w.visited t).length ≤ w.config.maxFrames := by
  rcases visited_cases w t with h | ⟨first, n, -, hn, h⟩
  · rw [h]
    exact Nat.zero_le _
  · rw [h, hn]
    exact Nat.succ_le_succ length_callers_le

theorem isChain_visited (w : Walker) (t : Thread) : (w.visited t).IsChain w.LeadsTo := by
  rcases visited_cases w t with h | ⟨first, n, -, -, h⟩
  · rw [h]
    exact .nil
  · rw [h]
    exact isChain_callers

theorem pairwise_visited (w : Walker) (t : Thread) :
    (w.visited t).Pairwise fun f g => f.sp < g.sp := by
  have hchain : (w.visited t).IsChain fun f g => f.sp < g.sp :=
    (isChain_visited w t).imp fun _ _ ⟨_, _, _, _, hfinds⟩ => hfinds.sp_lt
  have : IsTrans WalkFrame fun f g => f.sp < g.sp := ⟨fun _ _ _ => UInt64.lt_trans⟩
  exact hchain.pairwise

theorem contextFrame?_eq_some {context : RegisterFile} {first : WalkFrame}
    (h : w.contextFrame? context = some first) :
    first.trust = .context ∧ first.registers = context ∧
      context.find? w.spName = some first.sp := by
  simp only [contextFrame?, Option.bind_eq_bind] at h
  obtain ⟨ip, -, h⟩ := Option.bind_eq_some_iff.1 h
  obtain ⟨sp, hsp, h⟩ := Option.bind_eq_some_iff.1 h
  cases h
  exact ⟨rfl, rfl, hsp⟩

/-- The first frame comes from the context, and every other one was recovered. -/
theorem visited_trust {t : Thread} {first : WalkFrame} {rest : List WalkFrame}
    (h : w.visited t = first :: rest) :
    (first.trust = .context ∧ first.registers.find? w.spName = some first.sp) ∧
      ∀ f ∈ rest, w.Recovered f := by
  rcases visited_cases w t with hnil | ⟨frame, n, hframe, -, hvisited⟩
  · rw [hnil] at h
    cases h
  · rw [hvisited] at h
    cases h
    obtain ⟨context, -, hcontext⟩ := Option.bind_eq_some_iff.1 hframe
    obtain ⟨htrust, hregisters, hsp⟩ := contextFrame?_eq_some hcontext
    refine ⟨⟨htrust, by rw [hregisters, hsp]⟩, ?_⟩
    intro f hf
    exact recovered_of_mem_callers hf

/-- A frame that was recovered has the frame before it as its callee. -/
theorem exists_callee_of_mem_visited {t : Thread} {caller : WalkFrame} (h : caller ∈ w.visited t)
    (htrust : caller.trust ≠ .context) :
    ∃ callee, [callee, caller] <:+: w.visited t ∧ w.LeadsTo callee caller := by
  have hchain := isChain_visited w t
  cases hvisited : w.visited t with
  | nil =>
      rw [hvisited] at h
      cases h
  | cons first rest =>
      have hfirst := (visited_trust hvisited).1.1
      rw [hvisited] at h hchain
      rcases List.mem_cons.1 h with rfl | h
      · exact absurd hfirst htrust
      · exact exists_before_of_isChain hchain h

theorem sp_of_mem_visited {t : Thread} {f : WalkFrame} (h : f ∈ w.visited t) :
    f.registers.find? w.spName = some f.sp := by
  cases hvisited : w.visited t with
  | nil =>
      rw [hvisited] at h
      cases h
  | cons first rest =>
      obtain ⟨⟨-, hfirst⟩, hrest⟩ := visited_trust hvisited
      rw [hvisited] at h
      rcases List.mem_cons.1 h with rfl | h
      · exact hfirst
      · exact (hrest f h).sp_eq

theorem scans_of_visited {t : Thread} {run : List WalkFrame} (hrun : run <:+: w.visited t)
    (hscan : ∀ f ∈ run, f.trust = .scan) : run.length ≤ w.config.maxConsecutiveScans := by
  rcases visited_cases w t with h | ⟨first, n, -, -, h⟩
  · rw [h] at hrun
    rw [List.infix_nil.1 hrun]
    exact Nat.zero_le _
  · have hfirst := (visited_trust h).1.1
    rw [h] at hrun
    rcases List.infix_cons_iff.1 hrun with hfront | hlater
    · -- the context frame cannot begin a run of scans
      rcases List.prefix_cons_iff.1 hfront with rfl | ⟨later, rfl, -⟩
      · exact Nat.zero_le _
      · have hcontext := hscan first (List.mem_cons_self ..)
        rw [hfirst] at hcontext
        cases hcontext
    · exact scans_in_a_row hlater hscan (Nat.zero_le _)

theorem make?_eq_some {arch : Arch} {stack : Option MemoryRegion} {modules : ModuleMap}
    {frameInfos : FrameInfoMap} {config : WalkerConfig}
    (h : make? arch stack modules frameInfos config = some w) :
    w.arch = arch ∧ w.stack = stack ∧ w.modules = modules ∧ w.config = config ∧
      arch.family.stackPointer? = some w.spName ∧
      arch.family.pointerSize? = some w.width.bytes := by
  simp only [make?, Option.bind_eq_bind] at h
  obtain ⟨size, hsize, h⟩ := Option.bind_eq_some_iff.1 h
  obtain ⟨ipName, -, h⟩ := Option.bind_eq_some_iff.1 h
  obtain ⟨spName, hsp, h⟩ := Option.bind_eq_some_iff.1 h
  cases h
  refine ⟨rfl, rfl, rfl, rfl, hsp, ?_⟩
  cases hfamily : arch.family <;> rw [hfamily] at hsize <;> cases hsize <;> rfl

theorem names_of_make? {arch : Arch} {stack : Option MemoryRegion} {modules : ModuleMap}
    {frameInfos : FrameInfoMap} {config : WalkerConfig}
    (h : make? arch stack modules frameInfos config = some w) :
    w.ipName ≠ w.spName ∧
      ∀ name, w.arch.family.framePointer? = some name → name ≠ w.ipName ∧ name ≠ w.spName := by
  simp only [make?, Option.bind_eq_bind] at h
  obtain ⟨size, -, h⟩ := Option.bind_eq_some_iff.1 h
  obtain ⟨ipName, hip, h⟩ := Option.bind_eq_some_iff.1 h
  obtain ⟨spName, hsp, h⟩ := Option.bind_eq_some_iff.1 h
  cases h
  exact Cpu.Family.names_differ hip hsp

/-- A walk on any thread, with unwind information of any content, keeps to its limits.  All frames
but the first are callers that were recovered from code in a module, and each stack pointer lies
above the one before. -/
theorem walk_finds_callers {s : Snapshot} {frameInfos : FrameInfoMap} {config : WalkerConfig}
    {t : Thread}
    (hw : make? s.systemInfo.arch t.stack (ModuleMap.ofList s.modules) frameInfos config = some w)
    (ht : t.prewalked = none) :
    (w.walk t).frames.length ≤ config.maxFrames ∧
    (∀ first rest, (w.walk t).frames = first :: rest → first.trust = .context ∧
      ∀ f ∈ rest, f.trust ∈ [Trust.cfi, .framePointer, .cfiScan, .scan] ∧
        f.returnAddress ≠ 0 ∧
        f.instruction = Cpu.callSite s.systemInfo.arch f.returnAddress ∧
        ∃ m ∈ s.modules, f.module = some m ∧ m.contains f.instruction = true) ∧
    ((w.walk t).frames = (w.visited t).map w.toFrame ∧
      (∀ f ∈ w.visited t, f.registers.find? w.spName = some f.sp) ∧
      (w.visited t).Pairwise fun f g => f.sp < g.sp) ∧
    ∀ run, run <:+: (w.walk t).frames → (∀ f ∈ run, f.trust = .scan) →
      run.length ≤ config.maxConsecutiveScans := by
  obtain ⟨harch, -, hmodules, hconfig, -, -⟩ := make?_eq_some hw
  have hframes : (w.walk t).frames = (w.visited t).map w.toFrame := frames_eq_visited ht
  rw [hframes]
  refine ⟨?_, ?_, ⟨rfl, fun f hf => sp_of_mem_visited hf, pairwise_visited w t⟩, ?_⟩
  · rw [List.length_map, ← hconfig]
    exact length_visited_le w t
  · intro first rest hcons
    obtain ⟨frame, later, hvisited, rfl, rfl⟩ := List.map_eq_cons_iff.1 hcons
    obtain ⟨⟨htrust, -⟩, hlater⟩ := visited_trust hvisited
    refine ⟨htrust, ?_⟩
    intro f hf
    obtain ⟨g, hg, rfl⟩ := List.mem_map.1 hf
    have hrecovered := hlater g hg
    obtain ⟨m, hm⟩ := hrecovered.module
    refine ⟨hrecovered.trust, hrecovered.ip_ne_zero, ?_, m, ?_⟩
    · rw [← harch]
      exact hrecovered.instruction_eq
    · obtain ⟨hmem, hcontains⟩ := ModuleMap.contains_of_find? (hmodules ▸ hm)
      exact ⟨hmem, hm, hcontains⟩
  · intro run hrun hscan
    obtain ⟨visits, hvisits, rfl⟩ := List.infix_map_iff.1 hrun
    rw [List.length_map, ← hconfig]
    refine scans_of_visited hvisits ?_
    intro f hf
    exact hscan (w.toFrame f) (List.mem_map_of_mem hf)

/-- A thread whose frame pointer leads to one caller, behind which the stack holds return
addresses only. -/
def sampleThread : Thread where
  context := some (.ofList [("rip", 0x1010), ("rsp", 0x8000), ("rbp", 0x8008)])
  stack := some (.ofWords 0x8000 [0, 0, 0x1020, 7, 0x1030, 0x1040, 0x1050] 8)

def sampleSnapshot : Snapshot where
  systemInfo := .ofArch .amd64
  threads := [sampleThread]
  modules := [{ base := 0x1000, size := 0x1000, codeFile := "app" }]

def sampleWalker : Walker where
  arch := .amd64
  width := .w64
  ipName := "rip"
  spName := "rsp"
  stack := sampleThread.stack
  modules := .ofList sampleSnapshot.modules
  frameInfos := .empty
  config := { maxConsecutiveScans := 2 }

theorem sampleWalker_eq : make? sampleSnapshot.systemInfo.arch sampleThread.stack
    (.ofList sampleSnapshot.modules) .empty { maxConsecutiveScans := 2 } = some sampleWalker := by
  have harch : sampleSnapshot.systemInfo.arch = .amd64 := by decide +kernel
  rw [harch]
  rfl

theorem walk_finds_callers_sample :
    make? sampleSnapshot.systemInfo.arch sampleThread.stack (.ofList sampleSnapshot.modules) .empty
      { maxConsecutiveScans := 2 } = some sampleWalker ∧ sampleThread.prewalked = none ∧
    (sampleWalker.walk sampleThread).frames.map (fun f => (f.returnAddress, f.trust)) =
      [(0x1010, .context), (0x1020, .framePointer), (0x1030, .scan), (0x1040, .scan)] ∧
    ((sampleWalker.visited sampleThread).Pairwise fun f g => f.sp < g.sp) ∧
    ∀ run, run <:+: (sampleWalker.walk sampleThread).frames → (∀ f ∈ run, f.trust = .scan) →
      run.length ≤ 2 := by
  obtain ⟨-, -, ⟨-, -, hsp⟩, hscans⟩ := walk_finds_callers sampleWalker_eq rfl
  exact ⟨sampleWalker_eq, rfl, by cbv, hsp, hscans⟩

end Postmortem.Crash.Walker
