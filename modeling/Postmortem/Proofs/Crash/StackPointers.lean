import Postmortem.Proofs.Crash.Walks

/-!
# Reported stack pointers

A walk compares stack pointers of 64 bits and reports them cut down to a word of the machine.  As
long as they fit a word, what is reported rises too.  They do if the stack ends below the last
address of the machine; behind a stack that ends with it lies a stack pointer that is reported as
zero.
-/

set_option autoImplicit false

namespace Postmortem.Crash

theorem RegisterValue.toWord64_ofWidth {width : Postfix.Width} {n : UInt64}
    (h : n.toNat < 2 ^ width.bits) : (RegisterValue.ofWidth width.bytes n).toWord64 = n := by
  cases width with
  | w64 => rfl
  | w32 =>
      apply UInt64.toNat_inj.1
      simp only [ofWidth, Postfix.Width.bytes, if_pos, toWord64, UInt32.toNat_toUInt64,
        UInt64.toNat_toUInt32]
      exact Nat.mod_eq_of_lt h

namespace Walker

variable {w : Walker}

def reportedSp? (w : Walker) (f : Frame) : Option UInt64 :=
  (f.registers.find? w.spName).map RegisterValue.toWord64

theorem reportedSp?_toFrame {f : WalkFrame} (hsp : f.registers.find? w.spName = some f.sp)
    (hfits : f.sp.toNat < 2 ^ w.width.bits) : w.reportedSp? (w.toFrame f) = some f.sp := by
  rw [reportedSp?, toFrame, report, SortedMap.find?_mapValues, hsp, Option.map_some,
    Option.map_some, RegisterValue.toWord64_ofWidth hfits]

def Fits (width : Postfix.Width) (registers : RegisterFile) : Prop :=
  ∀ e ∈ registers.entries, e.2.toNat < 2 ^ width.bits

theorem fits_of_mem_visited {t : Thread} (hcontext : ∀ c ∈ t.context, Fits w.width c)
    (hstack : w.width = .w32 → ∀ m ∈ w.stack, m.base.toNat + m.size < 2 ^ 32) {f : WalkFrame}
    (hf : f ∈ w.visited t) : f.sp.toNat < 2 ^ w.width.bits := by
  rcases visited_cases w t with h | ⟨first, n, hfirst, -, h⟩
  · rw [h] at hf
    cases hf
  · rw [h] at hf
    rcases List.mem_cons.1 hf with rfl | hf
    · obtain ⟨c, hc, hframe⟩ := Option.bind_eq_some_iff.1 hfirst
      obtain ⟨-, -, hsp⟩ := contextFrame?_eq_some hframe
      exact hcontext c hc _ (SortedMap.mem_of_find? hsp)
    · rcases (recovered_of_mem_callers hf).sp_bounded with hlt | ⟨m, hm, hle⟩
      · exact hlt
      · cases hwidth : w.width with
        | w64 => exact f.sp.toNat_lt
        | w32 => exact Nat.lt_of_le_of_lt hle (hstack hwidth m hm)

/-- The stack pointers that are reported rise, on machines of 32 bits if the stack does not reach up
to the last address. -/
theorem reported_stack_pointers_rise {s : Snapshot} {frameInfos : FrameInfoMap}
    {config : WalkerConfig} {t : Thread}
    (hw : make? s.systemInfo.arch t.stack (ModuleMap.ofList s.modules) frameInfos config = some w)
    (ht : t.prewalked = none) (hcontext : ∀ c ∈ t.context, Fits w.width c)
    (hstack : w.width = .w32 → ∀ m ∈ t.stack, m.base.toNat + m.size < 2 ^ 32) :
    s.systemInfo.arch.family.stackPointer? = some w.spName ∧
    ∃ sps : List UInt64, (w.walk t).frames.map w.reportedSp? = sps.map some ∧
      sps.Pairwise (· < ·) := by
  obtain ⟨-, hstackEq, -, -, hname, -⟩ := make?_eq_some hw
  refine ⟨hname, (w.visited t).map (·.sp), ?_, ?_⟩
  · have hframes : (w.walk t).frames = (w.visited t).map w.toFrame := frames_eq_visited ht
    rw [hframes, List.map_map, List.map_map]
    apply List.map_congr_left
    intro f hf
    exact reportedSp?_toFrame (sp_of_mem_visited hf)
      (fits_of_mem_visited hcontext (hstackEq ▸ hstack) hf)
  · exact List.pairwise_map.2 (pairwise_visited w t)

/-- A thread of a machine of 32 bits whose stack is one word, a return address. -/
def wordThread (base : UInt64) : Thread where
  id := 1
  context := some (.ofList [("eip", 0x10150), ("esp", base)])
  stack := some (.ofWords base [0x10350] 4)

def wordSnapshot (base : UInt64) : Snapshot where
  systemInfo := .ofArch .x86
  threads := [wordThread base]
  modules := [{ base := 0x10000, size := 0x1000 }]

def wordWalker (base : UInt64) : Walker where
  arch := .x86
  width := .w32
  ipName := "eip"
  spName := "esp"
  stack := (wordThread base).stack
  modules := .ofList (wordSnapshot base).modules
  frameInfos := .empty
  config := {}

theorem wordWalker_eq (base : UInt64) : make? (wordSnapshot base).systemInfo.arch
    (wordThread base).stack (.ofList (wordSnapshot base).modules) .empty {} =
      some (wordWalker base) := by
  have harch : (wordSnapshot base).systemInfo.arch = .x86 := by
    change (SystemInfo.ofArch .x86).arch = .x86
    decide +kernel
  rw [harch]
  rfl

theorem reported_stack_pointers_rise_sample :
    (wordThread 0x8000).prewalked = none ∧
    (∀ c ∈ (wordThread 0x8000).context, Fits .w32 c) ∧
    (∀ m ∈ (wordThread 0x8000).stack, m.base.toNat + m.size < 2 ^ 32) ∧
    ((wordWalker 0x8000).walk (wordThread 0x8000)).frames.map (wordWalker 0x8000).reportedSp? =
      [some 0x8000, some 0x8004] ∧
    ∃ sps : List UInt64,
      ((wordWalker 0x8000).walk (wordThread 0x8000)).frames.map (wordWalker 0x8000).reportedSp? =
        sps.map some ∧ sps.Pairwise (· < ·) := by
  have hcontext : ∀ c ∈ (wordThread 0x8000).context, Fits .w32 c := by
    intro c hc
    cases hc
    simp only [Fits]
    decide +kernel
  have hstack : ∀ m ∈ (wordThread 0x8000).stack, m.base.toNat + m.size < 2 ^ 32 := by
    intro m hm
    cases hm
    decide +kernel
  exact ⟨rfl, hcontext, hstack, by cbv,
    (reported_stack_pointers_rise (wordWalker_eq 0x8000) rfl hcontext fun _ => hstack).2⟩

/-- Behind the last word of a machine the stack pointer is reported as zero, below the one before
it. -/
theorem stack_pointer_behind_last_word :
    make? (wordSnapshot 0xfffffffc).systemInfo.arch (wordThread 0xfffffffc).stack
      (.ofList (wordSnapshot 0xfffffffc).modules) .empty {} = some (wordWalker 0xfffffffc) ∧
    (wordThread 0xfffffffc).prewalked = none ∧
    (∀ c ∈ (wordThread 0xfffffffc).context, Fits (wordWalker 0xfffffffc).width c) ∧
    ((wordWalker 0xfffffffc).walk (wordThread 0xfffffffc)).frames.map
      (wordWalker 0xfffffffc).reportedSp? = [some 0xfffffffc, some 0] ∧
    ¬ ∃ sps : List UInt64, ((wordWalker 0xfffffffc).walk (wordThread 0xfffffffc)).frames.map
      (wordWalker 0xfffffffc).reportedSp? = sps.map some ∧ sps.Pairwise (· < ·) := by
  have hreported : ((wordWalker 0xfffffffc).walk (wordThread 0xfffffffc)).frames.map
      (wordWalker 0xfffffffc).reportedSp? = [some 0xfffffffc, some 0] := by cbv
  refine ⟨wordWalker_eq 0xfffffffc, rfl, ?_, hreported, ?_⟩
  · intro c hc
    cases hc
    simp only [Fits]
    decide +kernel
  · rintro ⟨sps, hsps, hrise⟩
    have hmap : [0xfffffffc, 0].map some = sps.map some := hreported.symm.trans hsps
    have heq := (List.map_inj_right fun _ _ => Option.some.inj).1 hmap
    rw [← heq] at hrise
    exact absurd hrise (by decide)

end Walker

end Postmortem.Crash
