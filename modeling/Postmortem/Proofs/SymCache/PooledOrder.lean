import Postmortem.Proofs.SymCache.PoolSteps

/-!
# The order of pooled values

A builder meets the functions and files of an item in a fixed order: each node of a function tree
before the calls inlined into it, without the calls that lie outside their callers.  Its pools hold
what it has met, each once, in the order of the first meeting.
-/

set_option autoImplicit false

namespace Postmortem

namespace Debug.Function

mutual

/-- The nodes of a tree in pre-order, without the calls that have no code or do not lie inside their
caller, and without all that is inlined into those. -/
def retained : Function → List Function
  | ⟨address, size, name, compDir, lines, inlinees, isInline⟩ =>
    ⟨address, size, name, compDir, lines, inlinees, isInline⟩ ::
      retainedIn address (addSaturating address size) inlinees

def retainedIn (start stop : UInt64) : List Function → List Function
  | [] => []
  | f :: rest =>
    if f.LiesIn start stop then f.retained ++ retainedIn start stop rest
    else retainedIn start stop rest

end

end Debug.Function

/-! ## First occurrences -/

section Occurrences

variable {α β : Type} [BEq α] [LawfulBEq α] [BEq β] [LawfulBEq β] {R : α → β → Prop}

theorem eraseDups_concat_of_mem {l : List α} {a : α} (h : a ∈ l) :
    (l ++ [a]).eraseDups = l.eraseDups := by
  simp [List.eraseDups_append, List.removeAll, h]

theorem eraseDups_concat_of_not_mem {l : List α} {a : α} (h : a ∉ l) :
    (l ++ [a]).eraseDups = l.eraseDups ++ [a] := by
  simp [List.eraseDups_append, List.removeAll, h, List.eraseDups_cons]

/-- If a pool stands for the values of a list, each once, then after one more value it stands for
those of the longer list. -/
theorem forall₂_pooled (hR : Relator.BiUnique R) {pool : List α} {l : List β} {a : α} {b : β}
    (h : List.Forall₂ R pool l.eraseDups) (hab : R a b) :
    List.Forall₂ R (SymCache.pooled a pool).2 (l ++ [b]).eraseDups := by
  rw [SymCache.pooled]
  cases hi : pool.idxOf? a with
  | some i =>
      obtain ⟨hlt, rfl, -⟩ := List.idxOf?_eq_some_iff.1 hi
      obtain ⟨b', hb', hab'⟩ := exists_right h (List.getElem_mem hlt)
      obtain rfl := hR.2 hab hab'
      rw [eraseDups_concat_of_mem (List.mem_eraseDups.1 hb')]
      exact h
  | none =>
      have hnew : b ∉ l := by
        intro hb
        obtain ⟨a', ha', hab'⟩ := exists_left h (List.mem_eraseDups.2 hb)
        obtain rfl := hR.1 hab hab'
        exact List.idxOf?_eq_none_iff.1 hi ha'
      rw [eraseDups_concat_of_not_mem hnew]
      exact List.rel_append h (.cons hab .nil)

end Occurrences

namespace SymCache

open Postmortem.Debug (LineInfo)

/-- What a function is known by: its name, a compilation directory, its first address and its
language. -/
structure SourceFunction where
  name : String
  compDir : String
  entry : UInt64
  language : Language
  deriving DecidableEq, Repr

structure SourceFile where
  compDir : String
  directory : String
  name : String
  deriving DecidableEq, Repr

def SourceFunction.ofNode (compDir : String) (f : Debug.Function) : SourceFunction :=
  ⟨f.name.text, compDir, f.address, f.name.language⟩

def SourceFile.ofLine (compDir : String) (l : LineInfo) : SourceFile :=
  ⟨compDir, l.file.dirText, l.file.nameText⟩

def SourceFile.ofNode (compDir : String) (f : Debug.Function) : List SourceFile :=
  f.lines.map (ofLine compDir)

/-! ## Pools -/

structure KeyOf (t : StringTable) (k : FunctionKey) (f : SourceFunction) : Prop where
  name : t.offset? f.name = some k.name
  compDir : t.offset? f.compDir = some k.compDir
  entry : k.entry = f.entry
  language : k.language = f.language.code

structure RecordOf (t : StringTable) (r : FileRecord) (f : SourceFile) : Prop where
  compDir : t.offset? f.compDir = some r.compDir
  directory : t.offset? f.directory = some r.directory
  name : t.offset? f.name = some r.name

theorem language_of_code {l m : Language} (h : l.code = m.code) : l = m := by
  cases l <;> cases m <;> first | rfl | simp [Language.code] at h

section Strings

variable {t u : StringTable}

theorem KeyOf.mono {k : FunctionKey} {f : SourceFunction} (h : KeyOf t k f) (ht : t.Extends u) :
    KeyOf u k f :=
  ⟨ht.offsets _ _ h.name, ht.offsets _ _ h.compDir, h.entry, h.language⟩

theorem RecordOf.mono {r : FileRecord} {f : SourceFile} (h : RecordOf t r f) (ht : t.Extends u) :
    RecordOf u r f :=
  ⟨ht.offsets _ _ h.compDir, ht.offsets _ _ h.directory, ht.offsets _ _ h.name⟩

/-- In a table that fits 32 bits, each pooled function stands for one function only. -/
theorem biUnique_keyOf (ht : t.Sound) (hfits : t.size < UInt32.size) :
    Relator.BiUnique (KeyOf t) := by
  rw [ht.size_eq] at hfits
  constructor
  · rintro ⟨name, compDir, entry, language⟩ ⟨name', compDir', entry', language'⟩ f h h'
    obtain rfl := Option.some.inj (h.name.symm.trans h'.name)
    obtain rfl := Option.some.inj (h.compDir.symm.trans h'.compDir)
    obtain rfl : entry = entry' := h.entry.trans h'.entry.symm
    obtain rfl : language = language' := h.language.trans h'.language.symm
    rfl
  · rintro k ⟨name, compDir, entry, language⟩ ⟨name', compDir', entry', language'⟩ h h'
    obtain rfl := StringTable.eq_of_offset? ht hfits h.name h'.name
    obtain rfl := StringTable.eq_of_offset? ht hfits h.compDir h'.compDir
    obtain rfl : entry = entry' := h.entry.symm.trans h'.entry
    obtain rfl : language = language' := language_of_code (h.language.symm.trans h'.language)
    rfl

theorem biUnique_recordOf (ht : t.Sound) (hfits : t.size < UInt32.size) :
    Relator.BiUnique (RecordOf t) := by
  rw [ht.size_eq] at hfits
  constructor
  · rintro ⟨compDir, directory, name⟩ ⟨compDir', directory', name'⟩ f h h'
    obtain rfl := Option.some.inj (h.compDir.symm.trans h'.compDir)
    obtain rfl := Option.some.inj (h.directory.symm.trans h'.directory)
    obtain rfl := Option.some.inj (h.name.symm.trans h'.name)
    rfl
  · rintro r ⟨compDir, directory, name⟩ ⟨compDir', directory', name'⟩ h h'
    obtain rfl := StringTable.eq_of_offset? ht hfits h.compDir h'.compDir
    obtain rfl := StringTable.eq_of_offset? ht hfits h.directory h'.directory
    obtain rfl := StringTable.eq_of_offset? ht hfits h.name h'.name
    rfl

end Strings

/-- Whether pools hold some functions and files, each once, in the order of their first
occurrence. -/
structure Pools.Lists (p : Pools) (functions : List SourceFunction) (files : List SourceFile) :
    Prop where
  distinct : p.strings.Distinct
  functions : List.Forall₂ (KeyOf p.strings) p.functions functions.eraseDups
  files : List.Forall₂ (RecordOf p.strings) p.files files.eraseDups

theorem Pools.lists_empty : Lists {} [] [] := ⟨StringTable.distinct_empty, .nil, .nil⟩

namespace Collect

variable {α β : Type} {p p' : Pools} {fs fs' : List SourceFunction} {gs gs' : List SourceFile}

theorem Yields.steps {x : Collect α} {a : α} (h : Yields x p a p') (hx : Walks x) :
    p.Steps p' := by
  have hsteps := hx p
  rwa [show x.run.run p = (.ok a, p') from h] at hsteps

/-- Whether a computation that succeeds pools some functions and files behind those that are there,
as long as all strings fit 32 bits in the end. -/
structure Appends (x : Collect α) (functions : List SourceFunction) (files : List SourceFile) :
    Prop where
  walks : Walks x
  lists : ∀ {p p' : Pools} {a : α} {before : List SourceFunction} {beforeFiles : List SourceFile},
    Yields x p a p' → p'.strings.size < UInt32.size → p.Lists before beforeFiles →
      p'.Lists (before ++ functions) (beforeFiles ++ files)

theorem appends_pure (a : α) : Appends (pure a) [] [] := by
  refine ⟨walks_pure a, ?_⟩
  intro p p' b before beforeFiles h _ hp
  obtain ⟨-, rfl⟩ := yields_pure h
  rwa [List.append_nil, List.append_nil]

theorem appends_throw (e : Fault) : Appends (throw e : Collect α) fs gs :=
  ⟨walks_throw e, fun h => by cases h⟩

theorem appends_bind {x : Collect α} {f : α → Collect β} (hx : Appends x fs gs)
    (hf : ∀ a, Appends (f a) fs' gs') : Appends (x >>= f) (fs ++ fs') (gs ++ gs') := by
  refine ⟨walks_bind hx.walks fun a => (hf a).walks, ?_⟩
  intro p p'' b before beforeFiles h hfits hp
  obtain ⟨a, p', hfirst, hrest⟩ := yields_bind h
  -- Pools only grow: strings that fit in the end fit in between.
  have hle := (hrest.steps (hf a).walks).extends.strings.size_le
  have hp' := hx.lists hfirst (Nat.lt_of_le_of_lt hle hfits) hp
  rw [← List.append_assoc, ← List.append_assoc]
  exact (hf a).lists hrest hfits hp'

/-- What is made of a result at the end pools nothing more. -/
theorem appends_map {x : Collect α} (hx : Appends x fs gs) (f : α → β) :
    Appends (x >>= fun a => pure (f a)) fs gs := by
  have happends := appends_bind hx fun a => appends_pure (f a)
  rwa [List.append_nil, List.append_nil] at happends

/-- A string that is pooled can be found from then on, and leaves functions and files alone. -/
theorem lists_of_string {s : String} {offset : UInt32} (h : Yields (string s) p offset p')
    (hp : p.Lists fs gs) : p'.Lists fs gs ∧ p'.strings.offset? s = some offset := by
  have hrun : (string s).run.run p = (.ok offset, p') := h
  rw [run_string] at hrun
  split at hrun
  · rename_i o strings hinsert
    obtain ⟨ho, rfl⟩ := Prod.mk.inj hrun
    obtain rfl := Except.ok.inj ho
    have hextends := StringTable.extends_of_insert? hinsert
    exact ⟨⟨hp.distinct.insert? hinsert, hp.functions.imp fun _ _ hk => hk.mono hextends,
      hp.files.imp fun _ _ hr => hr.mono hextends⟩, StringTable.offset?_of_insert? hinsert⟩
  · cases hrun

theorem appends_function (name compDir : String) (entry : UInt64) (language : Language) :
    Appends (function name compDir entry language) [⟨name, compDir, entry, language⟩] [] := by
  refine ⟨walks_function name compDir entry language, ?_⟩
  intro p p' i before beforeFiles h hfits hp
  rw [function_eq] at h
  obtain ⟨nameAt, p₁, hname, hrest⟩ := yields_bind h
  obtain ⟨compDirAt, p₂, hcompDir, hnumber⟩ := yields_bind hrest
  obtain ⟨hp₁, hname⟩ := lists_of_string hname hp
  -- The name keeps its offset when the compilation directory is pooled behind it.
  have hlater := (hcompDir.steps (walks_string compDir)).extends.strings
  obtain ⟨hp₂, hcompDir⟩ := lists_of_string hcompDir hp₁
  have hrun : (functionNumber ⟨nameAt, compDirAt, entry, language.code⟩).run.run p₂ =
    (.ok i, p') := hnumber
  rw [run_functionNumber] at hrun
  obtain ⟨-, rfl⟩ := Prod.mk.inj hrun
  rw [List.append_nil]
  refine ⟨hp₂.distinct, ?_, hp₂.files⟩
  exact forall₂_pooled (biUnique_keyOf hp₂.distinct.sound hfits) hp₂.functions
    ⟨hlater.offsets _ _ hname, hcompDir, rfl, rfl⟩

theorem appends_file (name directory compDir : String) :
    Appends (file name directory compDir) [] [⟨compDir, directory, name⟩] := by
  refine ⟨walks_file name directory compDir, ?_⟩
  intro p p' i before beforeFiles h hfits hp
  rw [file_eq] at h
  obtain ⟨compDirAt, p₁, hcompDir, hrest₁⟩ := yields_bind h
  obtain ⟨directoryAt, p₂, hdirectory, hrest₂⟩ := yields_bind hrest₁
  obtain ⟨nameAt, p₃, hname, hnumber⟩ := yields_bind hrest₂
  obtain ⟨hp₁, hcompDir⟩ := lists_of_string hcompDir hp
  have hlater₂ := (hdirectory.steps (walks_string directory)).extends.strings
  obtain ⟨hp₂, hdirectory⟩ := lists_of_string hdirectory hp₁
  have hlater₃ := (hname.steps (walks_string name)).extends.strings
  obtain ⟨hp₃, hname⟩ := lists_of_string hname hp₂
  have hrun : (fileNumber ⟨compDirAt, directoryAt, nameAt⟩).run.run p₃ = (.ok i, p') := hnumber
  rw [run_fileNumber] at hrun
  obtain ⟨-, rfl⟩ := Prod.mk.inj hrun
  rw [List.append_nil]
  refine ⟨hp₃.distinct, hp₃.functions, ?_⟩
  exact forall₂_pooled (biUnique_recordOf hp₃.distinct.sound hfits) hp₃.files
    ⟨hlater₃.offsets _ _ (hlater₂.offsets _ _ hcompDir), hlater₃.offsets _ _ hdirectory, hname⟩

theorem appends_line (compDir : String) (l : LineInfo) :
    Appends (line compDir l) [] [.ofLine compDir l] := by
  have htail (i : UInt32) : Appends (if l.line.toNat < UInt32.size then
      pure ⟨⟨l.address, l.line.toUInt32, i⟩, l.size.map (addSaturating l.address)⟩
      else throw (.tooLarge .line) : Collect SizedRow) [] [] := by
    split
    · exact appends_pure _
    · exact appends_throw _
  rw [line]
  exact appends_bind (appends_file _ _ _) htail

theorem appends_lines (compDir : String) (lines : List LineInfo) :
    Appends (lines.mapM (line compDir)) [] (lines.map (.ofLine compDir)) := by
  induction lines with
  | nil =>
      rw [List.mapM_nil]
      exact appends_pure _
  | cons l lines ih =>
      rw [List.mapM_cons, List.map_cons]
      exact appends_bind (appends_line compDir l) fun _ => appends_map ih _

mutual

/-- The scope of a function pools its nodes and their files in pre-order. -/
theorem appends_scope (compDir : String) (f : Debug.Function) :
    Appends (scope compDir f) (f.retained.map (.ofNode compDir))
      (f.retained.flatMap (SourceFile.ofNode compDir)) := by
  obtain ⟨address, size, name, functionDir, lines, inlinees, isInline⟩ := f
  rw [scope, Debug.Function.retained, List.map_cons, List.flatMap_cons]
  refine appends_bind (appends_function _ _ _ _) fun _ => ?_
  refine appends_bind (appends_lines compDir lines) fun _ => ?_
  exact appends_map (appends_scopes compDir address _ inlinees) _

theorem appends_scopes (compDir : String) (start stop : UInt64) (l : List Debug.Function) :
    Appends (scopes compDir start stop l)
      ((Debug.Function.retainedIn start stop l).map (.ofNode compDir))
      ((Debug.Function.retainedIn start stop l).flatMap (SourceFile.ofNode compDir)) := by
  cases l with
  | nil =>
      rw [scopes]
      exact appends_pure _
  | cons f rest =>
      rw [scopes, Debug.Function.retainedIn]
      by_cases hlies : f.LiesIn start stop
      · rw [if_pos (belongs_iff.2 hlies), if_pos hlies, List.map_append, List.flatMap_append]
        refine appends_bind (appends_scope compDir f) fun _ => ?_
        exact appends_map (appends_scopes compDir start stop rest) _
      · rw [if_neg fun hb => hlies (belongs_iff.1 hb), if_neg hlies]
        exact appends_scopes compDir start stop rest

end

end Collect

/-! ## Items -/

namespace Item

def retained (i : Item) : List Debug.Function := if i.HasCode then i.tree.retained else []

def functions (i : Item) : List SourceFunction :=
  i.retained.map (.ofNode (Utf8.lossy i.tree.compDir))

def files (i : Item) : List SourceFile :=
  i.retained.flatMap (SourceFile.ofNode (Utf8.lossy i.tree.compDir))

end Item

namespace Builder

open Collect (Appends)

theorem appends_step? {i : Item} {step : Collect OuterScope} (h : step? i = some step) :
    Appends step i.functions i.files := by
  cases i with
  | function f =>
      rw [step?] at h
      split at h
      · cases h
      · rename_i hsize
        have hcode : (Item.function f).HasCode := hsize
        rw [Item.functions, Item.files, Item.retained, if_pos hcode, ← Option.some.inj h]
        exact Collect.appends_map (Collect.appends_scope (Utf8.lossy f.compDir) f) _
  | symbol s =>
      rw [step?] at h
      split at h
      · cases h
      · rename_i name hname
        split at h
        · cases h
        · rename_i hsize
          have hcode : (Item.symbol s).HasCode := ⟨by simp [hname], hsize⟩
          have htree : (Item.symbol s).tree.retained = [(Item.symbol s).tree] := by
            simp [Item.tree, Debug.Function.retained, Debug.Function.retainedIn]
          have hnode : SourceFunction.ofNode (Utf8.lossy (Item.symbol s).tree.compDir)
              (Item.symbol s).tree = ⟨name, "", s.address, .unknown⟩ := by
            have hempty : Utf8.lossy [] = "" := by decide +kernel
            simp [SourceFunction.ofNode, Item.tree, hname, hempty]
          rw [Item.functions, Item.files, Item.retained, if_pos hcode, htree, List.map_singleton,
            hnode, ← Option.some.inj h]
          exact Collect.appends_map (Collect.appends_function name "" s.address .unknown) _

theorem exists_step_of_hasCode {i : Item} (h : i.HasCode) : ∃ step, step? i = some step := by
  cases i with
  | function f =>
      rw [step?, if_neg h]
      exact ⟨_, rfl⟩
  | symbol s =>
      obtain ⟨name, hname⟩ := Option.ne_none_iff_exists'.1 h.1
      rw [step?, hname]
      dsimp only
      rw [if_neg h.2]
      exact ⟨_, rfl⟩

/-- An item that is added is pooled behind those before it. -/
theorem lists_add {b b' : Builder} {i : Item} {fs : List SourceFunction} {gs : List SourceFile}
    (hadd : b.add i = (.ok (), b')) (hfits : b'.pools.strings.size < UInt32.size)
    (hb : b.pools.Lists fs gs) : b'.pools.Lists (fs ++ i.functions) (gs ++ i.files) := by
  rw [add_eq] at hadd
  cases hstep : step? i with
  | none =>
      have hcode : ¬ i.HasCode := by
        intro hcode
        obtain ⟨step, hsome⟩ := exists_step_of_hasCode hcode
        rw [hstep] at hsome
        cases hsome
      rw [hstep] at hadd
      rw [Item.functions, Item.files, Item.retained, if_neg hcode, ← (Prod.mk.inj hadd).2]
      simpa using hb
  | some step =>
      rw [hstep, Option.map_some, Option.getD_some, collect] at hadd
      split at hadd
      · rename_i o p' hrun
        obtain rfl := (Prod.mk.inj hadd).2
        exact (appends_step? hstep).lists hrun hfits hb
      · cases hadd

end Builder

end SymCache

end Postmortem
