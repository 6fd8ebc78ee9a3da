import Postmortem.Proofs.Crash.Walks
import Postmortem.Proofs.PostfixRecovery
import Postmortem.Proofs.PostfixRegisters

/-!
# Unwound registers

What a caller that is found by unwind rules has in its registers.  Every one of them comes from a
rule or is a register that survives calls.  Registers go by different names in thread contexts and
in rules, which is why both directions of the translation matter: the rules must see the registers
of the callee under the names that they use, and what they give must replace the register of the
callee that it is about.
-/

set_option autoImplicit false

namespace Postmortem.Cpu.Family

/-! ## Spellings of a register -/

/-- All spellings that rules have for a register of a context lead to the same name. -/
theorem contextName_of_mem_ruleNames {family : Family} {name spelling : String}
    (hname : name.toList.head? ≠ some '$') (h : spelling ∈ family.ruleNames name) :
    family.contextName spelling = family.contextName name := by
  rcases List.mem_cons.1 h with rfl | h
  · rfl
  rcases List.mem_cons.1 h with rfl | h
  · have hdollar : ("$" ++ name).toList = '$' :: name.toList := by simp
    simp only [contextName, hdollar, String.ofList_toList]
    congr 1
    split
    · rename_i heq
      rw [heq] at hname
      exact absurd rfl hname
    · rfl
  · split at h <;> first | (obtain rfl := List.mem_singleton.1 h; decide +kernel) | cases h

theorem contextName_of_calleeSaved {family : Family} {name spelling : String}
    (hname : name ∈ family.calleeSaved) (h : spelling ∈ family.ruleNames name) :
    family.contextName spelling = name := by
  have hplain : ∀ name ∈ family.calleeSaved,
      name.toList.head? ≠ some '$' ∧ family.contextName name = name := by
    cases family <;> decide +kernel
  obtain ⟨hdollar, hself⟩ := hplain name hname
  rw [contextName_of_mem_ruleNames hdollar h, hself]

/-- The spelling that debug information has for a register is one of those under which rules find
that register in a context. -/
theorem mem_ruleNames_of_ruleName? {family : Family} {number : UInt16} {spelling : String}
    (h : family.ruleName? number = some spelling) :
    spelling ∈ family.ruleNames (family.contextName spelling) := by
  have hall : ∀ s ∈ family.registerNames.toList,
      s.isEmpty = true ∨ s ∈ family.ruleNames (family.contextName s) := by
    cases family <;> decide +kernel
  obtain ⟨hnumber, hname⟩ := Option.filter_eq_some_iff.1 h
  have hmem : spelling ∈ family.registerNames.toList :=
    Array.mem_toList_iff.2 (Array.mem_of_getElem? hnumber)
  exact (hall _ hmem).resolve_left (by simpa using hname)

end Postmortem.Cpu.Family

namespace Postmortem.Crash.Walker

variable {w : Walker} {callee caller : WalkFrame} {rules : List (Postfix.Rule w.width)}
  {ev : Postfix.Evaluator w.width} {c : Candidate}

/-! ## What the rules see -/

/-- Whether an evaluator sees the stack and, under all of their spellings, the registers of a frame.
A spelling that several registers share stands for one of them. -/
structure Sees (w : Walker) (callee : WalkFrame) (ev : Postfix.Evaluator w.width) : Prop where
  memory : ev.memory = w.stack
  endian : ev.endian = .little
  only : ∀ r value, ev.registers.find? r = some value →
    ∃ name n spelling, callee.registers.find? name = some n ∧
      spelling ∈ w.arch.family.ruleNames name ∧ r = .ofName spelling ∧
      value = BitVec.ofNat w.width.bits n.toNat
  every : ∀ name n spelling, callee.registers.find? name = some n →
    spelling ∈ w.arch.family.ruleNames name →
    (∀ other ∈ callee.registers.keys, spelling ∈ w.arch.family.ruleNames other → other = name) →
    ev.registers.find? (.ofName spelling) = some (BitVec.ofNat w.width.bits n.toNat)

theorem sees_ruleEvaluator (w : Walker) (callee : WalkFrame) :
    w.Sees callee (w.ruleEvaluator callee) where
  memory := rfl
  endian := rfl
  only := by
    intro r value h
    rw [ruleEvaluator, ruleRegisters] at h
    rcases SortedMap.find?_ofList r _ with ⟨v, hv, hfind⟩ | ⟨-, hnone⟩
    · cases hfind.symm.trans h
      obtain ⟨⟨name, n⟩, hn, hspelled⟩ := List.mem_flatMap.1 hv
      obtain ⟨spelling, hspelling, heq⟩ := List.mem_map.1 hspelled
      cases heq
      exact ⟨name, n, spelling, SortedMap.find?_eq_some_iff.2 hn, hspelling, rfl, rfl⟩
    · rw [hnone] at h
      cases h
  every := by
    intro name n spelling hn hspelling hsole
    rw [ruleEvaluator, ruleRegisters]
    rcases SortedMap.find?_ofList (Postfix.Register.ofName spelling) _ with
      ⟨v, hv, hfind⟩ | ⟨hnone, -⟩
    · rw [hfind]
      obtain ⟨⟨other, k⟩, hk, hspelled⟩ := List.mem_flatMap.1 hv
      obtain ⟨s, hs, heq⟩ := List.mem_map.1 hspelled
      obtain ⟨hregister, rfl⟩ := Prod.mk.inj heq
      obtain rfl := Postfix.Register.ofName_injective hregister
      obtain rfl : other = name := hsole other (List.mem_map_of_mem hk) hs
      cases hn.symm.trans (SortedMap.find?_eq_some_iff.2 hk)
      rfl
    · refine absurd rfl (hnone (Postfix.Register.ofName spelling, BitVec.ofNat _ n.toNat) ?_)
      exact List.mem_flatMap.2 ⟨(name, n), SortedMap.find?_eq_some_iff.1 hn,
        List.mem_map_of_mem hspelling⟩

/-! ## What the rules give -/

theorem find?_preserved (family : Cpu.Family) (registers : RegisterFile) (name : String) :
    (preserved family registers).find? name =
      if name ∈ family.calleeSaved then registers.find? name else none := by
  rw [preserved]
  rcases SortedMap.find?_ofList name
      (family.calleeSaved.filterMap fun name => (registers.find? name).map (name, ·)) with
    ⟨value, hvalue, hfind⟩ | ⟨hnone, hfind⟩
  · obtain ⟨saved, hsaved, heq⟩ := List.mem_filterMap.1 hvalue
    obtain ⟨n, hn, heq⟩ := Option.map_eq_some_iff.1 heq
    obtain ⟨rfl, rfl⟩ := Prod.mk.inj heq
    rw [hfind, if_pos hsaved, hn]
  · rw [hfind]
    split
    · rename_i hsaved
      cases hn : registers.find? name with
      | none => rfl
      | some n =>
          refine absurd rfl (hnone (name, n) (List.mem_filterMap.2 ⟨name, hsaved, ?_⟩))
          rw [hn]
          rfl
    · rfl

/-- A register has the value of one of those that were recovered under its name, or the one that it
had if there are none. -/
theorem find?_withRecovered {width : Postfix.Width} (family : Cpu.Family) (registers : RegisterFile)
    (recovered : List (Postfix.Register × Postfix.Word width)) (name : String) :
    (∃ e ∈ recovered, e.1.isPseudo = false ∧ family.contextName e.1.name = name ∧
      (withRecovered family registers recovered).find? name = some (UInt64.ofNat e.2.toNat)) ∨
    (∀ e ∈ recovered, e.1.isPseudo = false → family.contextName e.1.name ≠ name) ∧
      (withRecovered family registers recovered).find? name = registers.find? name := by
  have hfold : withRecovered family registers recovered =
      (recovered.filter (!·.1.isPseudo)).foldl (fun registers e =>
        registers.insert (family.contextName e.1.name) (UInt64.ofNat e.2.toNat)) registers := by
    rw [withRecovered, List.foldl_filter]
    congr 1
    funext registers ⟨r, value⟩
    cases hpseudo : r.isPseudo <;> simp [hpseudo]
  rw [hfold]
  rcases SortedMap.find?_foldl_insert name (fun e => family.contextName e.1.name)
      (fun e => UInt64.ofNat e.2.toNat) (recovered.filter (!·.1.isPseudo)) registers with
    ⟨e, he, hname, hfind⟩ | ⟨hne, hfind⟩
  · obtain ⟨he, hpseudo⟩ := List.mem_filter.1 he
    exact .inl ⟨e, he, by simpa using hpseudo, hname, hfind⟩
  · refine .inr ⟨fun e he hpseudo => hne e (List.mem_filter.2 ⟨he, ?_⟩), hfind⟩
    rw [hpseudo]
    rfl

def IsFor (w : Walker) (r : Postfix.Rule w.width) (name : String) : Prop :=
  r.register.isPseudo = false ∧ w.arch.family.contextName r.register.name = name

/-- Whether rules give a caller its registers on an evaluator that knows the canonical frame
address. -/
structure Restores (w : Walker) (callee : WalkFrame) (rules : List (Postfix.Rule w.width))
    (ev : Postfix.Evaluator w.width) (cfa : Postfix.Word w.width) (caller : WalkFrame) : Prop where
  sp : caller.sp = UInt64.ofNat cfa.toNat ∧ caller.registers.find? w.spName = some caller.sp
  ip : ∃ ra, ev.ruled rules .ra = .ok (some ra) ∧ caller.ip = UInt64.ofNat ra.toNat ∧
    caller.registers.find? w.ipName = some caller.ip
  /-- A register with one rule has its value, and one with several that of one of them. -/
  ruled : ∀ name r, name ≠ w.ipName → name ≠ w.spName → r ∈ rules → w.IsFor r name →
    ∃ s ∈ rules, w.IsFor s name ∧ ∃ value, ev.evaluate s.expr = .ok value ∧
      caller.registers.find? name = some (UInt64.ofNat value.toNat)
  kept : ∀ name, name ≠ w.ipName → name ≠ w.spName → (∀ r ∈ rules, ¬ w.IsFor r name) →
    caller.registers.find? name =
      if name ∈ w.arch.family.calleeSaved then callee.registers.find? name else none

theorem find?_callerFrame {name : String} {trust : Trust} (hip : name ≠ w.ipName)
    (hsp : name ≠ w.spName) :
    (w.callerFrame c trust).registers.find? name = c.registers.find? name := by
  rw [callerFrame, SortedMap.find?_insert_of_ne _ hsp, SortedMap.find?_insert_of_ne _ hip]

def Unwinds (w : Walker) (callee caller : WalkFrame) : Prop :=
  ∃ rules ev cfa, w.InEffect callee rules ∧ w.Sees callee ev ∧
    ev.ruled rules .cfa = .ok (some cfa) ∧
    w.Restores callee rules (ev.set .cfa cfa) cfa caller

/-- What is recovered for a register of the machine is what a rule for it gives once the canonical
frame address is known. -/
theorem exists_rule_of_recovered {values : Postfix.Registers w.width}
    (h : ∀ q, q ≠ .cfa → ev.ruled rules q = .ok (values.find? q))
    {e : Postfix.Register × Postfix.Word w.width} (he : e ∈ values.entries)
    (hpseudo : e.1.isPseudo = false) :
    ∃ r ∈ rules, r.register = e.1 ∧ ev.evaluate r.expr = .ok e.2 := by
  have hne : e.1 ≠ .cfa := by
    intro heq
    rw [heq] at hpseudo
    cases hpseudo
  have hruled := h e.1 hne
  rw [SortedMap.find?_eq_some_iff.2 he] at hruled
  exact Postfix.Evaluator.exists_rule_of_ruled hruled

/-- A register of a context is restored by a rule for it, or else it is as rules find it. -/
theorem restored_or_kept {values : Postfix.Registers w.width} (registers : RegisterFile)
    (hkeys : ∀ q, q ∈ values.keys ↔ q ∈ rules.map Postfix.Rule.register)
    (h : ∀ q, q ≠ .cfa → ev.ruled rules q = .ok (values.find? q)) (name : String) :
    (∃ r ∈ rules, w.IsFor r name ∧ ∃ value, ev.evaluate r.expr = .ok value ∧
      (withRecovered w.arch.family registers values.entries).find? name =
        some (UInt64.ofNat value.toNat)) ∨
    (∀ r ∈ rules, ¬ w.IsFor r name) ∧
      (withRecovered w.arch.family registers values.entries).find? name =
        registers.find? name := by
  rcases find?_withRecovered w.arch.family registers values.entries name with
    ⟨e, he, hpseudo, hname, hfind⟩ | ⟨hne, hfind⟩
  · obtain ⟨r, hr, hregister, hvalue⟩ := exists_rule_of_recovered h he hpseudo
    rw [← hregister] at hpseudo hname
    exact .inl ⟨r, hr, ⟨hpseudo, hname⟩, e.2, hvalue, hfind⟩
  · refine .inr ⟨?_, hfind⟩
    rintro r hr ⟨hpseudo, hname⟩
    obtain ⟨e, he, hregister⟩ := List.mem_map.1 ((hkeys _).2 (List.mem_map_of_mem hr))
    rw [← hregister] at hpseudo hname
    exact hne e he hpseudo hname

theorem unwinds_of_byCfi? (hnames : w.ipName ≠ w.spName) (h : w.byCfi? callee = some c)
    (trust : Trust) : w.Unwinds callee (w.callerFrame c trust) := by
  obtain ⟨rules, values, cfa, ra, heffect, hvalues, hcfa, hra, rfl⟩ := byCfi?_eq_some h
  obtain ⟨address, haddress, hsame, hother⟩ :=
    Postfix.Evaluator.evaluateRules_eq_ok_iff.1 hvalues
  obtain rfl : address = cfa := Option.some.inj (hsame.symm.trans hcfa)
  have hcases := restored_or_kept (preserved w.arch.family callee.registers)
    (fun _ => Postfix.Evaluator.mem_keys_iff_mem_rules hvalues) hother
  refine ⟨rules, w.ruleEvaluator callee, address, heffect, sees_ruleEvaluator w callee, haddress,
    ⟨rfl, SortedMap.find?_insert_self _ _ _⟩, ⟨ra, ?_, rfl, ?_⟩, ?_, ?_⟩
  · rw [← hra]
    exact hother .ra (by decide)
  · rw [callerFrame, SortedMap.find?_insert_of_ne _ hnames, SortedMap.find?_insert_self]
  · intro name r hip hsp hr hfor
    rw [find?_callerFrame hip hsp]
    rcases hcases name with hrestored | ⟨hnone, -⟩
    · exact hrestored
    · exact absurd hfor (hnone r hr)
  · intro name hip hsp hnone
    rw [find?_callerFrame hip hsp, ← find?_preserved]
    rcases hcases name with ⟨r, hr, hfor, -⟩ | ⟨-, hkept⟩
    · exact absurd hfor (hnone r hr)
    · exact hkept

theorem Finds.unwinds {scans : Nat} {passed : List Strategy} {s : Strategy}
    (hnames : w.ipName ≠ w.spName) (h : w.Finds callee scans passed s c caller)
    (htrust : caller.trust = .cfi) : w.Unwinds callee caller := by
  obtain ⟨-, hpropose, -, rfl, -⟩ := h
  cases s with
  | cfi => exact unwinds_of_byCfi? hnames hpropose _
  | framePointer => cases htrust
  | cfiScan => cases htrust
  | scan => cases htrust

/-- A frame that is reported as found by unwind rules is a caller that a walk has visited. -/
theorem exists_caller_of_mem_frames {t : Thread} {f : Frame} (hf : f ∈ w.frames t)
    (htrust : f.trust = .cfi) :
    ∃ callee caller, [callee, caller] <:+: w.visited t ∧ w.toFrame caller = f ∧
      w.LeadsTo callee caller := by
  cases hknown : t.prewalked with
  | none =>
      rw [frames_eq_visited hknown] at hf
      obtain ⟨caller, hcaller, rfl⟩ := List.mem_map.1 hf
      have hcontext : caller.trust ≠ .context := by
        intro heq
        rw [toFrame, heq] at htrust
        cases htrust
      obtain ⟨callee, hinfix, hleads⟩ := exists_callee_of_mem_visited hcaller hcontext
      exact ⟨callee, caller, hinfix, rfl, hleads⟩
  | some known =>
      -- the first frame comes from the context, and the others have been found by someone else
      cases hfirst : t.context.bind w.contextFrame? with
      | none => simp [frames, hfirst] at hf
      | some first =>
          obtain ⟨context, -, hcontext⟩ := Option.bind_eq_some_iff.1 hfirst
          cases hn : w.config.maxFrames with
          | zero => simp [frames, hfirst, hn] at hf
          | succ n =>
              simp only [frames, hfirst, hknown, hn, List.mem_cons] at hf
              rcases hf with rfl | hf
              · rw [toFrame, (contextFrame?_eq_some hcontext).1] at htrust
                cases htrust
              · obtain ⟨_, -, rfl⟩ := List.mem_map.1 hf
                cases htrust

/-- A caller that unwind rules have found has in its registers what they give it, what survives the
call, and nothing else.  However a context, a rule or debug information spells a register, it is the
same register in both directions. -/
theorem unwinding_restores_registers {arch : Arch} {stack : Option MemoryRegion}
    {modules : ModuleMap} {frameInfos : FrameInfoMap} {config : WalkerConfig}
    (hw : make? arch stack modules frameInfos config = some w) :
    (∀ callee scans caller, w.firstCaller? callee scans Strategy.all = some caller →
      caller.trust = .cfi → w.Unwinds callee caller) ∧
    (∀ t, ∀ f ∈ (w.walk t).frames, f.trust = .cfi →
      ∃ callee caller, [callee, caller] <:+: w.visited t ∧ w.toFrame caller = f ∧
        w.Unwinds callee caller) ∧
    (∀ name ∈ arch.family.calleeSaved, ∀ spelling ∈ arch.family.ruleNames name,
      arch.family.contextName spelling = name) ∧
    ∀ number spelling, arch.family.ruleName? number = some spelling →
      spelling ∈ arch.family.ruleNames (arch.family.contextName spelling) := by
  have hnames := (names_of_make? hw).1
  refine ⟨?_, ?_, ?_, ?_⟩
  · intro callee scans caller hcaller htrust
    obtain ⟨passed, s, rest, c, -, hfinds⟩ := finds_of_firstCaller? hcaller
    exact hfinds.unwinds hnames htrust
  · intro t f hf htrust
    obtain ⟨callee, caller, hinfix, rfl, scans, passed, s, c, hfinds⟩ :=
      exists_caller_of_mem_frames hf htrust
    exact ⟨callee, caller, hinfix, rfl, hfinds.unwinds hnames htrust⟩
  · intro name hname spelling
    exact Cpu.Family.contextName_of_calleeSaved hname
  · intro number spelling
    exact Cpu.Family.mem_ruleNames_of_ruleName?

def savedCache : CfiCache :=
  let header : CfiCache.Header :=
    { arch := Arch.arm64.code, entries := 1, programBytes := 2, stringBytes := 56,
      loadAddress := 0 }
  let entries : List CfiCache.EntryRecord := [⟨0, 0x1000, 0, 5⟩]
  let programs := [0, 0]
  let strings :=
    StringTable.encodeText ".cfa: sp 16 + .ra: .cfa 8 - ^ x29: .cfa 16 - ^ x19: x20"
  let bytes := Bytes.joinSections
    [header.toBytes, WordRecord.encodeTable entries, programs, strings]
  { bytes, header, entries, programs, strings }

def savedModule : Module where
  id := some (.ofParts 1 0)
  base := 0x4000
  size := 0x1000

def savedWalker : Walker where
  arch := .arm64
  width := .w64
  ipName := "pc"
  spName := "sp"
  stack := some (.ofWords 0x8000 [0x9000, 0x4020] 8)
  modules := .ofList [savedModule]
  frameInfos := .ofList [(.ofParts 1 0, savedCache)]
  config := {}

theorem savedWalker_eq : make? .arm64 savedWalker.stack (.ofList [savedModule])
    (.ofList [(.ofParts 1 0, savedCache)]) {} = some savedWalker := rfl

def savedFrame : WalkFrame where
  registers := .ofList [("pc", 0x4010), ("sp", 0x8000), ("fp", 0x8000), ("lr", 0x4020), ("x0", 1),
    ("x19", 2), ("x20", 3)]
  ip := 0x4010
  sp := 0x8000
  instruction := 0x4010
  trust := .context

/-- The frame pointer and one register have the values that rules give them, another one is kept,
and all others are lost. -/
theorem unwinding_restores_registers_sample :
    make? .arm64 savedWalker.stack (.ofList [savedModule])
      (.ofList [(.ofParts 1 0, savedCache)]) {} = some savedWalker ∧
    CfiCache.parse savedCache.bytes = .ok savedCache ∧
    ∃ caller, savedWalker.firstCaller? savedFrame 0 Strategy.all = some caller ∧
      caller.trust = .cfi ∧ caller.registers.entries =
        [("fp", 0x9000), ("pc", 0x4020), ("sp", 0x8010), ("x19", 3), ("x20", 3)] ∧
      savedWalker.Unwinds savedFrame caller := by
  have hsome : (savedWalker.firstCaller? savedFrame 0 Strategy.all).map
      (fun f => (f.trust, f.registers.entries)) = some (.cfi,
        [("fp", 0x9000), ("pc", 0x4020), ("sp", 0x8010), ("x19", 3), ("x20", 3)]) := by
    decide +kernel
  obtain ⟨caller, hcaller, heq⟩ := Option.map_eq_some_iff.1 hsome
  obtain ⟨htrust, hregisters⟩ := Prod.mk.inj heq
  exact ⟨savedWalker_eq, by cbv, caller, hcaller, htrust, hregisters,
    (unwinding_restores_registers savedWalker_eq).1 savedFrame 0 caller hcaller htrust⟩

end Postmortem.Crash.Walker
