import Postmortem.Crash.Stored
import Postmortem.Proofs.Crash.ModuleIds
import Postmortem.Proofs.Crash.ModuleOwners
import Postmortem.Proofs.Crash.Walks
import Postmortem.Proofs.JsonTexts

/-!
# Stored states

The state of a process is read back from the JSON text that is written for it, if its modules have
identifiers that can be spelled.
-/

set_option autoImplicit false

namespace Postmortem

namespace Json

/-! ## Records -/

theorem filter_eq_singleton {name : String} {j : Json} {members : List (String × Json)}
    (hnames : (members.map Prod.fst).Nodup) (h : (name, j) ∈ members) :
    members.filter (·.1 == name) = [(name, j)] := by
  induction members with
  | nil => cases h
  | cons m rest ih =>
      obtain ⟨hfirst, hrest⟩ := List.nodup_cons.1 hnames
      rcases List.mem_cons.1 h with rfl | h
      · have hnone : rest.filter (·.1 == name) = [] := by
          rw [List.filter_eq_nil_iff]
          intro m hm hname
          exact hfirst (List.mem_map.2 ⟨m, hm, beq_iff_eq.1 hname⟩)
        rw [List.filter_cons, if_pos (beq_self_eq_true name), hnone]
      · have hne : ¬ (m.1 == name) = true := by
          intro hname
          rw [beq_iff_eq.1 hname] at hfirst
          exact hfirst (List.mem_map_of_mem h)
        rw [List.filter_cons, if_neg hne, ih hrest h]

/-- A member whose name no other one has is found. -/
theorem unique?_of_mem {name : String} {j : Json} {members : List (String × Json)}
    (hnames : (members.map Prod.fst).Nodup) (h : (name, j) ∈ members) :
    unique? name members = some (some j) := by
  rw [unique?, filter_eq_singleton hnames h]

theorem mapM_eq_some_map {α β : Type} {f : α → Option β} {g : α → β} {l : List α}
    (h : ∀ a ∈ l, f a = some (g a)) : l.mapM f = some (l.map g) := by
  induction l with
  | nil => rfl
  | cons a l ih =>
      obtain ⟨ha, hl⟩ := List.forall_mem_cons.1 h
      rw [List.mapM_cons, ha, ih hl]
      rfl

/-- The fields of an object that has each of them once. -/
theorem fields?_obj {names : List String} {members : List (String × Json)}
    (hnames : members.map Prod.fst = names) (hnodup : names.Nodup) :
    fields? names (obj members) = some (members.map fun m => some m.2) := by
  subst hnames
  rw [fields?, List.mapM_map]
  exact mapM_eq_some_map fun m hm => unique?_of_mem hnodup hm

theorem required?_some {α : Type} (f : Json → Option α) (j : Json) :
    required? f (some j) = f j := by
  rw [required?]

/-! ## Values -/

theorem word32?_word32 (n : UInt32) : (word32 n).word32? = some n := by
  have hlt : (n.toNat : Int) < UInt32.size := Int.ofNat_lt.2 n.toNat_lt_size
  rw [word32, nat, word32?, intIn?, if_pos ⟨Int.natCast_nonneg _, hlt⟩, Option.map_some,
    Int.toNat_natCast, UInt32.ofNat_toNat]

theorem word64?_word64 (n : UInt64) : (word64 n).word64? = some n := by
  have hlt : (n.toNat : Int) < UInt64.size := Int.ofNat_lt.2 n.toNat_lt_size
  rw [word64, nat, word64?, intIn?, if_pos ⟨Int.natCast_nonneg _, hlt⟩, Option.map_some,
    Int.toNat_natCast, UInt64.ofNat_toNat]

theorem int32?_toInt (n : Int32) : (int n.toInt).int32? = some n := by
  have hlow := n.le_toInt
  have hhigh := n.toInt_lt
  rw [int32?, intIn?, if_pos ⟨by omega, by omega⟩, Option.map_some, Int32.ofInt_toInt]

theorem text?_str (s : String) : (str s).text? = some s := by
  rw [text?]

section Parts

variable {α : Type} {f : Json → Option α} {g : α → Json}

theorem list?_map {l : List α} (h : ∀ a ∈ l, f (g a) = some a) :
    list? f (arr (l.map g)) = some l := by
  rw [list?, items?, Option.bind_some, List.mapM_map]
  have hid := mapM_eq_some_map (f := f ∘ g) (g := id) h
  rwa [List.map_id] at hid

/-- A field that may be missing, of values that are not written as `null`. -/
theorem optional?_ofOption {o : Option α} (hnull : ∀ a, g a ≠ null)
    (h : ∀ a ∈ o, f (g a) = some a) : optional? f (some (ofOption g o)) = some o := by
  cases o with
  | none => rfl
  | some a =>
      rw [ofOption, optional?, nullable?, h a rfl]
      · rfl
      · exact hnull a

theorem plain_ofOption (h : ∀ a, (g a).Plain) (o : Option α) : (ofOption g o).Plain := by
  cases o with
  | none => trivial
  | some a => exact h a

theorem plain_arr_map (h : ∀ a, (g a).Plain) (l : List α) : (arr (l.map g)).Plain := by
  refine allPlain_iff.2 fun j hj => ?_
  obtain ⟨a, -, rfl⟩ := List.mem_map.1 hj
  exact h a

end Parts

end Json

namespace Crash

open Json

/-! ## Parts of a state -/

theorem Trust.ofJson?_toJson (t : Trust) : Trust.ofJson? t.toJson = some t := by
  rw [ofJson?, toJson, named?, text?_str, Option.bind_some]
  cases t
  all_goals decide +kernel

theorem ModuleId.ofJson?_toJson {m : ModuleId} (h : m.id.Spellable) :
    ModuleId.ofJson? m.toJson = some m := by
  rw [ofJson?, toJson, named?, text?_str, Option.bind_some, parse?_toText h]

theorem RegisterValue.ofJson?_toJson (v : RegisterValue) :
    RegisterValue.ofJson? v.toJson = some v := by
  cases v with
  | word32 n =>
      have hn := word32?_word32 n
      simp [ofJson?, toJson, choice?, hn]
  | word64 n =>
      have hn := word64?_word64 n
      simp [ofJson?, toJson, choice?, hn]

theorem ExceptionInfo.ofJson?_toJson (e : ExceptionInfo) :
    ExceptionInfo.ofJson? e.toJson = some e := by
  have hfields : e.toJson.fields? fieldNames =
      some [some (.word32 e.threadId), some (.str e.reason), some (.word64 e.address)] :=
    fields?_obj rfl (by decide)
  rw [ofJson?, hfields]
  simp only [required?_some, word32?_word32, word64?_word64, text?_str]
  rfl

theorem SystemInfo.ofJson?_toJson (s : SystemInfo) : SystemInfo.ofJson? s.toJson = some s := by
  have hfields : s.toJson.fields? fieldNames =
      some [some (.str s.osName), some (.str s.osVersion), some (.str s.osBuild),
        some (.str s.cpuFamily), some (.str s.cpuInfo), some (.word32 s.cpuCount)] :=
    fields?_obj rfl (by decide)
  rw [ofJson?, hfields]
  simp only [required?_some, word32?_word32, text?_str]
  rfl

def Module.Spellable (m : Module) : Prop := ∀ id ∈ m.id, id.id.Spellable

theorem Module.ofJson?_toJson {m : Module} (h : m.Spellable) :
    Module.ofJson? m.toJson = some m := by
  have hfields : m.toJson.fields? fieldNames =
      some [some (.ofOption ModuleId.toJson m.id), some (.word64 m.base), some (.word64 m.size),
        some (.str m.codeFile), some (.str m.codeIdentifier), some (.str m.debugFile)] :=
    fields?_obj rfl (by decide)
  have hid : optional? ModuleId.ofJson? (some (.ofOption ModuleId.toJson m.id)) = some m.id :=
    optional?_ofOption (fun _ => nofun) fun id hid => ModuleId.ofJson?_toJson (h id hid)
  rw [ofJson?, hfields]
  simp only [required?_some, word64?_word64, text?_str, hid]
  rfl

theorem registersOfJson?_toJson (m : SortedMap String RegisterValue) :
    registersOfJson? (registersToJson m) = some m := by
  rw [registersToJson, registersOfJson?, List.mapM_map]
  have hread : m.entries.mapM ((fun member : String × Json =>
      (RegisterValue.ofJson? member.2).map (member.1, ·)) ∘ fun e => (e.1, e.2.toJson)) =
      some (m.entries.map id) := by
    refine mapM_eq_some_map fun e _ => ?_
    rw [Function.comp_apply, RegisterValue.ofJson?_toJson]
    rfl
  rw [hread, List.map_id, Option.map_some, SortedMap.ofList_entries]

def Frame.Spellable (f : Frame) : Prop := ∀ m ∈ f.module, m.Spellable

theorem Frame.ofJson?_toJson {f : Frame} (h : f.Spellable) : Frame.ofJson? f.toJson = some f := by
  have hfields : f.toJson.fields? fieldNames =
      some [some (.word64 f.instruction), some (.word64 f.returnAddress), some f.trust.toJson,
        some (.ofOption Module.toJson f.module), some (registersToJson f.registers)] :=
    fields?_obj rfl (by decide)
  have hmodule : optional? Module.ofJson? (some (.ofOption Module.toJson f.module)) =
      some f.module :=
    optional?_ofOption (fun _ => nofun) fun m hm => Module.ofJson?_toJson (h m hm)
  rw [ofJson?, hfields]
  simp only [required?_some, word64?_word64, Trust.ofJson?_toJson, hmodule,
    registersOfJson?_toJson]
  rfl

theorem CallStack.ofJson?_toJson {c : CallStack} (h : ∀ f ∈ c.frames, f.Spellable) :
    CallStack.ofJson? c.toJson = some c := by
  have hfields : c.toJson.fields? fieldNames =
      some [some (.word32 c.threadId), some (.arr (c.frames.map Frame.toJson))] :=
    fields?_obj rfl (by decide)
  have hframes : list? Frame.ofJson? (.arr (c.frames.map Frame.toJson)) = some c.frames :=
    list?_map fun f hf => Frame.ofJson?_toJson (h f hf)
  rw [ofJson?, hfields]
  simp only [required?_some, word32?_word32, hframes]
  rfl

/-! ## States -/

structure State.Spellable (s : State) : Prop where
  frames : ∀ c ∈ s.threads, ∀ f ∈ c.frames, f.Spellable
  modules : ∀ m ∈ s.modules, m.Spellable

/-- A state is read back from its JSON value. -/
theorem State.ofJson?_toJson {s : State} (h : s.Spellable) : State.ofJson? s.toJson = some s := by
  have hfields : s.toJson.fields? fieldNames =
      some [some (.int s.requestingThread.toInt), some (.word64 s.timestamp),
        some (.ofOption ExceptionInfo.toJson s.exception), some (.str s.assertion),
        some s.systemInfo.toJson, some (.arr (s.threads.map CallStack.toJson)),
        some (.arr (s.modules.map Module.toJson))] :=
    fields?_obj rfl (by decide)
  have hexception : optional? ExceptionInfo.ofJson?
      (some (.ofOption ExceptionInfo.toJson s.exception)) = some s.exception :=
    optional?_ofOption (fun _ => nofun) fun e _ => ExceptionInfo.ofJson?_toJson e
  have hthreads : list? CallStack.ofJson? (.arr (s.threads.map CallStack.toJson)) =
      some s.threads :=
    list?_map fun c hc => CallStack.ofJson?_toJson (h.frames c hc)
  have hmodules : list? Module.ofJson? (.arr (s.modules.map Module.toJson)) = some s.modules :=
    list?_map fun m hm => Module.ofJson?_toJson (h.modules m hm)
  rw [ofJson?, hfields]
  simp only [required?_some, int32?_toInt, word64?_word64, hexception, text?_str,
    SystemInfo.ofJson?_toJson, hthreads, hmodules]
  rfl

/-! ## Texts of states -/

theorem RegisterValue.plain_toJson (v : RegisterValue) : v.toJson.Plain := by
  cases v with
  | word32 n => exact ⟨trivial, trivial⟩
  | word64 n => exact ⟨trivial, trivial⟩

theorem plain_registersToJson (m : SortedMap String RegisterValue) :
    (registersToJson m).Plain := by
  refine membersPlain_iff.2 fun member hmember => ?_
  obtain ⟨e, -, rfl⟩ := List.mem_map.1 hmember
  exact e.2.plain_toJson

theorem ExceptionInfo.plain_toJson (e : ExceptionInfo) : e.toJson.Plain :=
  ⟨trivial, trivial, trivial, trivial⟩

theorem SystemInfo.plain_toJson (s : SystemInfo) : s.toJson.Plain :=
  ⟨trivial, trivial, trivial, trivial, trivial, trivial, trivial⟩

theorem ModuleId.plain_toJson (m : ModuleId) : m.toJson.Plain := trivial

theorem Module.plain_toJson (m : Module) : m.toJson.Plain :=
  ⟨plain_ofOption ModuleId.plain_toJson m.id, trivial, trivial, trivial, trivial, trivial, trivial⟩

theorem Frame.plain_toJson (f : Frame) : f.toJson.Plain :=
  ⟨trivial, trivial, trivial, plain_ofOption Module.plain_toJson f.module,
    plain_registersToJson f.registers, trivial⟩

theorem CallStack.plain_toJson (c : CallStack) : c.toJson.Plain :=
  ⟨trivial, plain_arr_map Frame.plain_toJson c.frames, trivial⟩

theorem State.plain_toJson (s : State) : s.toJson.Plain :=
  ⟨trivial, trivial, plain_ofOption ExceptionInfo.plain_toJson s.exception, trivial,
    s.systemInfo.plain_toJson, plain_arr_map CallStack.plain_toJson s.threads,
    plain_arr_map Module.plain_toJson s.modules, trivial⟩

def State.ofText? (text : String) : Option State := (parse? text).bind State.ofJson?

/-- A state is read back from its JSON text. -/
theorem State.ofText?_toText {s : State} (h : s.Spellable) : ofText? s.toJson.toText = some s := by
  rw [ofText?, parse?_toText s.plain_toJson, Option.bind_some, ofJson?_toJson h]

/-! ## States of snapshots -/

/-- The module of a frame is one that was found for an address. -/
theorem Walker.module_of_mem_frames {w : Walker} {t : Thread} {f : Frame} (h : f ∈ w.frames t) :
    ∃ a, f.module = w.modules.find? a := by
  rw [frames] at h
  split at h
  · cases h
  · rename_i first _
    dsimp only at h
    split at h
    · cases h
    · rcases List.mem_cons.1 h with rfl | h
      · exact ⟨first.instruction, rfl⟩
      · cases hprewalked : t.prewalked with
        | none =>
            rw [hprewalked] at h
            obtain ⟨caller, -, rfl⟩ := List.mem_map.1 h
            exact ⟨caller.instruction, rfl⟩
        | some known =>
            rw [hprewalked] at h
            obtain ⟨frame, -, rfl⟩ := List.mem_map.1 h
            exact ⟨frame.instruction, rfl⟩

theorem Snapshot.spellable_of_process {s : Snapshot} {frameInfos : FrameInfoMap}
    {config : WalkerConfig} {state : State} (hids : ∀ m ∈ s.modules, m.Spellable)
    (h : s.process frameInfos config = .ok state) : state.Spellable := by
  rw [process] at h
  obtain ⟨requestingThread, -, h⟩ := bind_eq_ok.1 h
  obtain rfl := Except.ok.inj h
  refine ⟨?_, ?_⟩
  · intro c hc f hf m hm
    obtain ⟨t, -, rfl⟩ := List.mem_map.1 hc
    split at hf
    · rename_i w hw
      -- The module of a frame is one of the snapshot, so its identifier is one of those given.
      obtain ⟨a, ha⟩ := Walker.module_of_mem_frames hf
      rw [ha, (Walker.make?_eq_some hw).2.2.1] at hm
      exact hids m (ModuleMap.contains_of_find? hm).1
    · cases hf
  · intro m hm
    exact hids m ((List.mergeSort_perm s.modules ModuleMap.before).mem_iff.1 hm)

/-- The state of a process, whatever its snapshot, is read back from the JSON text that is written
for it, if all its modules have identifiers that can be spelled, or none. -/
theorem Snapshot.state_reads_back {s : Snapshot} {frameInfos : FrameInfoMap}
    {config : WalkerConfig} {state : State} (hids : ∀ m ∈ s.modules, m.Spellable)
    (h : s.process frameInfos config = .ok state) :
    State.ofText? state.toJson.toText = some state :=
  State.ofText?_toText (spellable_of_process hids h)

def identifiedSnapshot : Snapshot where
  systemInfo := .ofArch .amd64
  threads := [{ id := 7, context := some (.ofList [("rip", 0x1010), ("rsp", 0x8000)]) }]
  modules :=
    [{ id := some ⟨.ofTimestamp 0x3249d99d 0⟩, base := 0x1000, size := 0x1000, codeFile := "app" },
      { id := some ⟨⟨0xdfb8e43af2423d73a453aeb6a777ef75, 10, .uuid⟩⟩, base := 0x4000,
        size := 0x10 }]
  exception := some { threadId := 7, reason := "SIGSEGV\n", address := 0xffffffffffffffff }

theorem Snapshot.state_reads_back_identified : ∃ state,
    (∀ m ∈ identifiedSnapshot.modules, m.Spellable) ∧
    identifiedSnapshot.process .empty {} = .ok state ∧
    State.ofText? state.toJson.toText = some state := by
  have hids : ∀ m ∈ identifiedSnapshot.modules, m.Spellable := by
    intro m hm id hid
    simp only [identifiedSnapshot, List.mem_cons, List.not_mem_nil, or_false] at hm
    rcases hm with rfl | rfl
    · obtain rfl := Option.some.inj hid
      exact .timestamp _ _
    · obtain rfl := Option.some.inj hid
      exact .uuid _ _
  have hprocess : ∃ state, identifiedSnapshot.process .empty {} = .ok state := ⟨_, rfl⟩
  obtain ⟨state, hstate⟩ := hprocess
  exact ⟨state, hids, hstate, state_reads_back hids hstate⟩

end Crash

end Postmortem
