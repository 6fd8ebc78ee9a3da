import Mathlib.Data.List.Nodup
import Mathlib.Logic.Relation
import Postmortem.Proofs.InsertedStrings
import Postmortem.Proofs.SymCache.References

/-!
# Steps of the pools

Whatever is collected, and whether or not it is refused, pools only change by strings, files and
functions that are pooled.  So each of them stays where it is, and stays the only one of its kind.
-/

set_option autoImplicit false

namespace Postmortem.SymCache

open Postmortem.Debug (LineInfo Symbol)

namespace Pools

inductive Step (p : Pools) : Pools → Prop where
  | string {s : String} {offset : UInt32} {strings : StringTable}
    (inserted : p.strings.insert? s = some (offset, strings)) : Step p { p with strings }
  | file (f : FileRecord) : Step p { p with files := (pooled f p.files).2 }
  | function (f : FunctionKey) : Step p { p with functions := (pooled f p.functions).2 }

abbrev Steps : Pools → Pools → Prop := Relation.ReflTransGen Step

variable {p p' p'' : Pools}

structure Extends (p p' : Pools) : Prop where
  strings : p.strings.Extends p'.strings
  files : p.files <+: p'.files
  functions : p.functions <+: p'.functions

theorem Extends.refl (p : Pools) : p.Extends p :=
  ⟨.refl _, List.prefix_refl _, List.prefix_refl _⟩

theorem Extends.trans (h : p.Extends p') (h' : p'.Extends p'') : p.Extends p'' :=
  ⟨h.strings.trans h'.strings, h.files.trans h'.files, h.functions.trans h'.functions⟩

theorem Step.extends (h : p.Step p') : p.Extends p' := by
  cases h with
  | string inserted =>
      exact ⟨StringTable.extends_of_insert? inserted, List.prefix_refl _, List.prefix_refl _⟩
  | file f => exact ⟨.refl _, (pooled_spec f p.files).1, List.prefix_refl _⟩
  | function f => exact ⟨.refl _, List.prefix_refl _, (pooled_spec f p.functions).1⟩

theorem Steps.extends (h : p.Steps p') : p.Extends p' := by
  induction h with
  | refl => exact .refl p
  | tail _ hstep ih => exact ih.trans hstep.extends

structure Distinct (p : Pools) : Prop where
  strings : p.strings.Distinct
  files : p.files.Nodup

theorem distinct_empty : Distinct {} := ⟨StringTable.distinct_empty, .nil⟩

theorem nodup_pooled {α : Type} [BEq α] [LawfulBEq α] {a : α} {pool : List α}
    (h : pool.Nodup) : (pooled a pool).2.Nodup := by
  rw [pooled]
  split
  · exact h
  · rename_i hnone
    have hnew : a ∉ pool := List.idxOf?_eq_none_iff.1 hnone
    refine List.nodup_append.2 ⟨h, List.pairwise_singleton _ _, ?_⟩
    rintro x hx y hy rfl
    rw [List.mem_singleton.1 hy] at hx
    exact hnew hx

theorem Distinct.step (hp : p.Distinct) (h : p.Step p') : p'.Distinct := by
  cases h with
  | string inserted => exact ⟨hp.strings.insert? inserted, hp.files⟩
  | file f => exact ⟨hp.strings, nodup_pooled hp.files⟩
  | function f => exact ⟨hp.strings, hp.files⟩

theorem Distinct.steps (hp : p.Distinct) (h : p.Steps p') : p'.Distinct := by
  induction h with
  | refl => exact hp
  | tail _ hstep ih => exact ih.step hstep

end Pools

namespace Collect

variable {α β : Type}

/-- Whether a computation leads from any pools to others by steps, also if it is refused. -/
def Walks (x : Collect α) : Prop := ∀ p : Pools, p.Steps (x.run.run p).2

theorem walks_pure (a : α) : Walks (pure a) := fun _ => .refl

theorem walks_throw (e : Fault) : Walks (throw e : Collect α) := fun _ => .refl

theorem walks_bind {x : Collect α} {f : α → Collect β} (hx : Walks x) (hf : ∀ a, Walks (f a)) :
    Walks (x >>= f) := by
  intro p
  have hfirst := hx p
  rw [ExceptT.run_bind, StateT.run_bind]
  cases hrun : x.run.run p with
  | mk outcome p' =>
      rw [hrun] at hfirst
      cases outcome with
      | error e => exact hfirst
      | ok a => exact hfirst.trans (hf a p')

/-- The run of a string that is inserted, or is not since the table is full. -/
theorem run_string (s : String) (p : Pools) :
    (string s).run.run p = match p.strings.insert? s with
      | some (offset, strings) => (.ok offset, { p with strings })
      | none => (.error (.tooLarge .string), p) := by
  show (match p.strings.insert? s with
    | some (offset, strings) => do
      set { p with strings }
      return offset
    | none => throw (.tooLarge .string) : Collect UInt32).run.run p = _
  cases p.strings.insert? s <;> rfl

theorem walks_string (s : String) : Walks (string s) := by
  intro p
  rw [run_string]
  split
  · exact .single (.string ‹_›)
  · exact .refl

def fileNumber (f : FileRecord) : Collect UInt32 := do
  let pools ← get
  let (i, files) := pooled f pools.files
  set { pools with files }
  count i .file

theorem file_eq (name directory compDir : String) :
    file name directory compDir = (do
      let compDir ← string compDir
      let directory ← string directory
      let name ← string name
      fileNumber ⟨compDir, directory, name⟩) := rfl

theorem run_fileNumber (f : FileRecord) (p : Pools) :
    (fileNumber f).run.run p =
      (count (pooled f p.files).1 .file, { p with files := (pooled f p.files).2 }) := by
  show ((liftM (count (pooled f p.files).1 .file) : Collect UInt32).run.run
    { p with files := (pooled f p.files).2 }) = _
  cases count (pooled f p.files).1 .file <;> rfl

theorem walks_fileNumber (f : FileRecord) : Walks (fileNumber f) := by
  intro p
  rw [run_fileNumber]
  exact .single (.file f)

theorem walks_file (name directory compDir : String) : Walks (file name directory compDir) := by
  rw [file_eq]
  refine walks_bind (walks_string compDir) fun _ => ?_
  refine walks_bind (walks_string directory) fun _ => ?_
  exact walks_bind (walks_string name) fun _ => walks_fileNumber _

def functionNumber (f : FunctionKey) : Collect UInt32 := do
  let pools ← get
  let (i, functions) := pooled f pools.functions
  set { pools with functions }
  count i .function

theorem function_eq (name compDir : String) (entry : UInt64) (language : Language) :
    function name compDir entry language = (do
      let name ← string name
      let compDir ← string compDir
      functionNumber ⟨name, compDir, entry, language.code⟩) := rfl

theorem run_functionNumber (f : FunctionKey) (p : Pools) :
    (functionNumber f).run.run p =
      (count (pooled f p.functions).1 .function,
        { p with functions := (pooled f p.functions).2 }) := by
  show ((liftM (count (pooled f p.functions).1 .function) : Collect UInt32).run.run
    { p with functions := (pooled f p.functions).2 }) = _
  cases count (pooled f p.functions).1 .function <;> rfl

theorem walks_functionNumber (f : FunctionKey) : Walks (functionNumber f) := by
  intro p
  rw [run_functionNumber]
  exact .single (.function f)

theorem walks_function (name compDir : String) (entry : UInt64) (language : Language) :
    Walks (function name compDir entry language) := by
  rw [function_eq]
  refine walks_bind (walks_string name) fun _ => ?_
  exact walks_bind (walks_string compDir) fun _ => walks_functionNumber _

theorem walks_line (compDir : String) (l : LineInfo) : Walks (line compDir l) := by
  rw [line]
  refine walks_bind (walks_file _ _ _) fun _ => ?_
  split
  · exact walks_pure _
  · exact walks_throw _

theorem walks_lines (compDir : String) (lines : List LineInfo) :
    Walks (lines.mapM (line compDir)) := by
  induction lines with
  | nil =>
      rw [List.mapM_nil]
      exact walks_pure _
  | cons l lines ih =>
      rw [List.mapM_cons]
      refine walks_bind (walks_line compDir l) fun _ => ?_
      exact walks_bind ih fun _ => walks_pure _

mutual

theorem walks_scope (compDir : String) (f : Debug.Function) : Walks (scope compDir f) := by
  obtain ⟨address, size, name, functionDir, lines, inlinees, isInline⟩ := f
  rw [scope]
  refine walks_bind (walks_function _ _ _ _) fun _ => ?_
  refine walks_bind (walks_lines compDir lines) fun _ => ?_
  exact walks_bind (walks_scopes compDir address _ inlinees) fun _ => walks_pure _

theorem walks_scopes (compDir : String) (start stop : UInt64) (l : List Debug.Function) :
    Walks (scopes compDir start stop l) := by
  cases l with
  | nil =>
      rw [scopes]
      exact walks_pure _
  | cons f rest =>
      rw [scopes]
      split
      · refine walks_bind (walks_scope compDir f) fun _ => ?_
        exact walks_bind (walks_scopes compDir start stop rest) fun _ => walks_pure _
      · exact walks_scopes compDir start stop rest

end

end Collect

/-! ## Builders -/

namespace Builder

def step? : Item → Option (Collect OuterScope)
  | .function f =>
    if f.size = 0 then none
    else some do
      let scope ← Collect.scope (Utf8.lossy f.compDir) f
      return ⟨scope, f.name.text, false⟩
  | .symbol s =>
    match s.name with
    | none => none
    | some name =>
      if s.size = 0 then none
      else some do
        let function ← Collect.function name "" s.address .unknown
        return ⟨⟨s.address, addSaturating s.address s.size, function, [], []⟩, name, true⟩

theorem add_eq (b : Builder) (i : Item) : b.add i = ((step? i).map b.collect).getD (.ok (), b) := by
  cases i with
  | function f =>
      rw [add, addFunction, step?]
      split <;> rfl
  | symbol s =>
      rw [add, addSymbol, step?]
      cases s.name with
      | none => rfl
      | some name =>
          dsimp only
          split <;> rfl

theorem walks_step? {i : Item} {step : Collect OuterScope} (h : step? i = some step) :
    step.Walks := by
  cases i with
  | function f =>
      rw [step?] at h
      split at h
      · cases h
      · rw [← Option.some.inj h]
        exact Collect.walks_bind (Collect.walks_scope _ _) fun _ => Collect.walks_pure _
  | symbol s =>
      rw [step?] at h
      split at h
      · cases h
      · split at h
        · cases h
        · rw [← Option.some.inj h]
          exact Collect.walks_bind (Collect.walks_function _ _ _ _) fun _ => Collect.walks_pure _

theorem steps_add (b : Builder) (i : Item) : b.pools.Steps (b.add i).2.pools := by
  rw [add_eq]
  cases hstep : step? i with
  | none => exact .refl
  | some step =>
      have hsteps := walks_step? hstep b.pools
      rw [Option.map_some, Option.getD_some, collect]
      split <;> rename_i hrun <;> rwa [hrun] at hsteps

theorem steps_addEach (b : Builder) (items : List Item) :
    b.pools.Steps (b.addEach items).pools := by
  induction items generalizing b with
  | nil => exact .refl
  | cons i rest ih => exact (b.steps_add i).trans (ih (b.add i).2)

end Builder

end Postmortem.SymCache
