import Postmortem.Proofs.SymCache.PooledOrder
import Postmortem.Proofs.SymCache.SourcePaths

/-!
# What a cache lists

A written cache lists the functions and files of all that was added, each once, in the order in
which they first occur.  An inlined call is listed in the compilation directory of the function
around it, so a call to code that was compiled in another directory is not listed as it was given.
-/

set_option autoImplicit false

namespace Postmortem.SymCache

/-! ## Lists -/

namespace SourceFunction

def IsListed (load : UInt64) (f : SourceFunction) : Prop :=
  load ≤ f.entry ∧ f.entry.toNat - load.toNat < 2 ^ 32 - 1

instance (load : UInt64) (f : SourceFunction) : Decidable (f.IsListed load) :=
  inferInstanceAs (Decidable (_ ∧ _))

theorem IsListed.within {load : UInt64} {f : SourceFunction} (h : f.IsListed load) :
    Within load f.entry :=
  ⟨UInt64.le_iff_toNat_le.1 h.1, Nat.sub_lt_iff_lt_add' (UInt64.le_iff_toNat_le.1 h.1) |>.1
    (Nat.lt_of_lt_pred h.2)⟩

def listed (load : UInt64) (f : SourceFunction) : Function :=
  ⟨shownName f.name, distance load f.entry, f.language⟩

end SourceFunction

def SourceFile.listed (f : SourceFile) : File :=
  ⟨StringTable.shown f.compDir, StringTable.shown f.directory, f.name⟩

def listedFunctions (load : UInt64) (l : List SourceFunction) : List Function :=
  (l.eraseDups.filter fun f => f.IsListed load).map (·.listed load)

def listedFiles (l : List SourceFile) : List File := l.eraseDups.map SourceFile.listed

namespace Item

/-- The functions of an item, each in its own compilation directory. -/
def ownFunctions (i : Item) : List SourceFunction :=
  i.retained.map fun f => .ofNode (Utf8.lossy f.compDir) f

def ownFiles (i : Item) : List SourceFile :=
  i.retained.flatMap fun f => SourceFile.ofNode (Utf8.lossy f.compDir) f

/-- Whether all nodes of an item that are kept are in its compilation directory. -/
def InOneDir (i : Item) : Prop := ∀ f ∈ i.retained, f.compDir = i.tree.compDir

theorem InOneDir.functions_eq {i : Item} (h : i.InOneDir) : i.functions = i.ownFunctions :=
  List.map_congr_left fun f hf => by rw [h f hf]

theorem InOneDir.files_eq {i : Item} (h : i.InOneDir) : i.files = i.ownFiles := by
  rw [files, ownFiles, List.flatMap, List.flatMap]
  exact congrArg List.flatten (List.map_congr_left fun f hf => by rw [h f hf])

end Item

/-! ## Runs of a builder -/

namespace Builder

def itemsOf (o : Debug.Object) : List Item :=
  o.functions.map .function ++ o.symbolMap.symbols.map .symbol

/-- Whether some functions and symbols, in this order, were added to a builder, on their own or with
an object file, and none was refused. -/
inductive Gathered : Builder → List Item → Prop where
  | empty : Gathered {} []
  | added {b b' : Builder} {items : List Item} {i : Item} :
    Gathered b items → b.add i = (.ok (), b') → Gathered b' (items ++ [i])
  | object {b b' : Builder} {items : List Item} {o : Debug.Object} :
    Gathered b items → b.addObject o = (.ok (), b') → Gathered b' (items ++ itemsOf o)
  | settings {b : Builder} {items : List Item} (arch : Arch) (debugId : DebugId)
    (loadAddress : UInt64) :
    Gathered b items → Gathered { b with arch, debugId, loadAddress } items

theorem addAll_map {α : Type} {addOne : Builder → α → Except Fault Unit × Builder} {f : α → Item}
    (h : ∀ b a, addOne b a = b.add (f a)) (b : Builder) (l : List α) :
    addAll addOne b l = addAll add b (l.map f) := by
  induction l generalizing b with
  | nil => rfl
  | cons a rest ih =>
      rw [List.map_cons, addAll, addAll, h]
      split
      · exact ih _
      · rfl

theorem addAll_append (b : Builder) (first last : List Item) :
    addAll add b (first ++ last) = match addAll add b first with
      | (.ok (), b') => addAll add b' last
      | refused => refused := by
  induction first generalizing b with
  | nil => rfl
  | cons i rest ih =>
      rw [List.cons_append, addAll, addAll]
      split
      · exact ih _
      · rfl

/-- An object file is added as its functions and symbols are, under its own settings. -/
theorem addObject_eq (b : Builder) (o : Debug.Object) :
    b.addObject o =
      addAll add { b with arch := o.arch, debugId := o.debugId, loadAddress := o.loadAddress }
        (itemsOf o) := by
  have hfunction (b : Builder) (f : Debug.Function) : b.addFunction f = b.add (.function f) := rfl
  have hsymbol (b : Builder) (s : Debug.Symbol) : b.addSymbol s = b.add (.symbol s) := rfl
  rw [addObject, itemsOf, addAll_append, addAll_map hfunction]
  generalize addAll add _ (o.functions.map .function) = outcome
  obtain ⟨_ | _, b'⟩ := outcome
  · rfl
  · exact addAll_map hsymbol b' o.symbolMap.symbols

variable {b b' : Builder} {items : List Item}

/-- What stays true when one more item is added stays true when several are. -/
theorem addAll_induct {P : Builder → List Item → Prop} {more : List Item}
    (hadd : ∀ {b b' : Builder} {items : List Item} {i : Item}, P b items →
      b.add i = (.ok (), b') → P b' (items ++ [i]))
    (hb : P b items) (h : addAll add b more = (.ok (), b')) : P b' (items ++ more) := by
  induction more generalizing b items with
  | nil =>
      rw [addAll] at h
      obtain rfl := (Prod.mk.inj h).2
      rwa [List.append_nil]
  | cons i rest ih =>
      rw [addAll] at h
      split at h
      · rename_i hfirst
        have hrest := ih (hadd hb hfirst) h
        rwa [List.append_assoc, List.singleton_append] at hrest
      · cases h

theorem Gathered.addAll {more : List Item} (h : b.Gathered items)
    (hmore : addAll add b more = (.ok (), b')) : b'.Gathered (items ++ more) :=
  addAll_induct (P := Gathered) .added h hmore

/-- What is true of the empty pools and stays true when one more item is added is true of all that
was added, however it was added. -/
theorem Gathered.pools_induct {P : Pools → List Item → Prop} (hempty : P {} [])
    (hadd : ∀ {b b' : Builder} {items : List Item} {i : Item}, P b.pools items →
      b.add i = (.ok (), b') → P b'.pools (items ++ [i]))
    (h : b.Gathered items) : P b.pools items := by
  induction h with
  | empty => exact hempty
  | added _ hfirst ih => exact hadd ih hfirst
  | @object b _ items o _ hobject ih =>
      rw [addObject_eq] at hobject
      let start : Builder :=
        { b with arch := o.arch, debugId := o.debugId, loadAddress := o.loadAddress }
      have hstart : P start.pools items := ih
      exact addAll_induct (P := fun b items => P b.pools items) hadd hstart hobject
  | settings _ _ _ _ ih => exact ih

theorem steps_of_add {i : Item} (h : b.add i = (.ok (), b')) : b.pools.Steps b'.pools := by
  have hsteps := b.steps_add i
  rwa [h] at hsteps

theorem Gathered.distinct (h : b.Gathered items) : b.pools.Distinct := by
  refine h.pools_induct (P := fun p _ => p.Distinct) Pools.distinct_empty ?_
  intro b b' items i hb hadd
  exact hb.steps (steps_of_add hadd)

/-- All that was added is pooled in the order in which it was added. -/
theorem Gathered.lists (h : b.Gathered items) (hfits : b.pools.strings.size < UInt32.size) :
    b.pools.Lists (items.flatMap Item.functions) (items.flatMap Item.files) := by
  refine h.pools_induct (P := fun p items => p.strings.size < UInt32.size →
    p.Lists (items.flatMap Item.functions) (items.flatMap Item.files))
    (fun _ => Pools.lists_empty) ?_ hfits
  intro b b' items i ih hadd hfits
  have hle := (steps_of_add hadd).extends.strings.size_le
  simp only [List.flatMap_append, List.flatMap_singleton]
  exact lists_add hadd hfits (ih (Nat.lt_of_le_of_lt hle hfits))

end Builder

/-! ## Written caches -/

section Stored

variable {s : SymCache} {b : Builder} {fs : List SourceFunction} {gs : List SourceFile}

theorem string?_of_offset? (hs : StoredBy s b) (hb : b.pools.strings.Sound) {t : String}
    {offset : UInt32} (h : b.pools.strings.offset? t = some offset) :
    s.string? offset = StringTable.shown t :=
  string?_of_holds hs (StringTable.holds_of_offset? hb h)

/-- A function within reach is read back as it is listed. -/
theorem functionOf_of_isListed (hs : StoredBy s b) (hb : b.pools.strings.Sound) {k : FunctionKey}
    {f : SourceFunction} (h : KeyOf b.pools.strings k f) (hlisted : f.IsListed b.loadAddress) :
    s.functionOf (b.functionRecord k) = f.listed b.loadAddress ∧
      (f.listed b.loadAddress).entry ≠ absent := by
  have hwithin := hlisted.within
  refine ⟨?_, ?_⟩
  · rw [functionOf, Builder.functionRecord, string?_of_offset? hs hb h.name, h.entry, h.language,
      ofCode_code, offset32?_of_within hwithin, getD_shown_eq_shownName]
    rfl
  · intro habsent
    have hdistance : (distance b.loadAddress f.entry).toNat = absent.toNat :=
      congrArg UInt32.toNat habsent
    rw [hwithin.toNat_distance] at hdistance
    have hlt := hlisted.2
    rw [hdistance] at hlt
    exact absurd hlt (by decide)

/-- A function that is too far away is stored without an entry. -/
theorem entry_of_not_isListed {k : FunctionKey} {f : SourceFunction}
    (h : KeyOf b.pools.strings k f) (hnot : ¬ f.IsListed b.loadAddress) :
    (s.functionOf (b.functionRecord k)).entry = absent := by
  rw [functionOf, Builder.functionRecord, h.entry]
  cases hoffset : offset32? f.entry b.loadAddress with
  | none => rfl
  | some r =>
      -- Of all distances that fit 32 bits, only the one that stands for no entry is not listed.
      obtain ⟨hwithin, rfl⟩ := offset32?_eq_some_iff.1 hoffset
      have hge : ¬ f.entry.toNat - b.loadAddress.toNat < 2 ^ 32 - 1 :=
        fun hlt => hnot ⟨UInt64.le_iff_toNat_le.2 hwithin.1, hlt⟩
      have hlt := (distance b.loadAddress f.entry).toNat_lt
      rw [Option.getD_some, ← UInt32.toNat_inj, hwithin.toNat_distance]
      rw [hwithin.toNat_distance] at hlt
      have habsent : absent.toNat = 2 ^ 32 - 1 := rfl
      omega

theorem allFunctions_eq (hs : StoredBy s b) (hb : b.pools.Lists fs gs) :
    s.allFunctions = listedFunctions b.loadAddress fs := by
  rw [allFunctions, listedFunctions, hs.functions]
  have hpool := hb.functions
  generalize b.pools.functions = pool, fs.eraseDups = pooled at hpool
  induction hpool with
  | nil => rfl
  | @cons k f _ _ hkf _ ih =>
      rw [List.map_cons, List.map_cons, List.filter_cons, List.filter_cons, ih]
      by_cases hlisted : f.IsListed b.loadAddress
      · obtain ⟨hread, hentry⟩ := functionOf_of_isListed hs hb.distinct.sound hkf hlisted
        rw [hread, if_pos (decide_eq_true hentry), if_pos (decide_eq_true hlisted), List.map_cons]
      · have hentry := entry_of_not_isListed (s := s) hkf hlisted
        rw [if_neg (by simp [hentry]), if_neg (by simp [hlisted])]

theorem allFiles_eq (hs : StoredBy s b) (hb : b.pools.Lists fs gs) :
    s.allFiles = listedFiles gs := by
  rw [allFiles, listedFiles, hs.files]
  have hpool := hb.files
  generalize b.pools.files = pool, gs.eraseDups = pooled at hpool
  induction hpool with
  | nil => rfl
  | @cons r f _ _ hrf _ ih =>
      rw [List.map_cons, List.map_cons, ih, SourceFile.listed,
        string?_of_offset? hs hb.distinct.sound hrf.compDir,
        string?_of_offset? hs hb.distinct.sound hrf.directory,
        string?_of_offset? hs hb.distinct.sound hrf.name, StringTable.getD_shown]

end Stored

variable {b : Builder} {items : List Item} {bytes : Bytes}

/-- A cache that is written from all that was gathered lists it. -/
theorem lists_gathered (h : b.Gathered items) (hbytes : b.toBytes = .ok bytes) :
    ∃ s, parse bytes = .ok s ∧
      s.allFunctions = listedFunctions b.loadAddress (items.flatMap Item.functions) ∧
      s.allFiles = listedFiles (items.flatMap Item.files) := by
  obtain ⟨s, hparse, hs⟩ := parse_toBytes hbytes
  have hfits : b.pools.strings.size < UInt32.size := by
    have hlt := hs.strings_fit
    rwa [hs.strings, ← h.distinct.strings.sound.size_eq] at hlt
  exact ⟨s, hparse, allFunctions_eq hs (h.lists hfits), allFiles_eq hs (h.lists hfits)⟩

/-- After any run of additions that succeed, a written cache lists the functions within reach and
the files of all that was added, each once, in the order of their first occurrence.  Those of
inlined calls are taken to be in the compilation directory of the whole item.  If they are, then
this is the list of all functions and files as they were given. -/
theorem lists_in_order_of_occurrence (h : b.Gathered items) (hbytes : b.toBytes = .ok bytes) :
    ∃ s, parse bytes = .ok s ∧
      s.allFunctions = listedFunctions b.loadAddress (items.flatMap Item.functions) ∧
      s.allFiles = listedFiles (items.flatMap Item.files) ∧
      ((∀ i ∈ items, i.InOneDir) →
        s.allFunctions = listedFunctions b.loadAddress (items.flatMap Item.ownFunctions) ∧
        s.allFiles = listedFiles (items.flatMap Item.ownFiles)) := by
  obtain ⟨s, hparse, hfunctions, hfiles⟩ := lists_gathered h hbytes
  refine ⟨s, hparse, hfunctions, hfiles, ?_⟩
  intro hdirs
  have hownFunctions : items.flatMap Item.functions = items.flatMap Item.ownFunctions :=
    List.flatMap_congr fun i hi => (hdirs i hi).functions_eq
  have hownFiles : items.flatMap Item.files = items.flatMap Item.ownFiles :=
    List.flatMap_congr fun i hi => (hdirs i hi).files_eq
  rw [← hownFunctions, ← hownFiles]
  exact ⟨hfunctions, hfiles⟩

theorem lists_in_order_of_occurrence_sample : ∃ (b : Builder) (bytes : Bytes),
    b.Gathered sampleItems ∧ b.toBytes = .ok bytes ∧ ∃ s, parse bytes = .ok s ∧
      s.allFunctions = listedFunctions b.loadAddress (sampleItems.flatMap Item.functions) ∧
      s.allFiles = listedFiles (sampleItems.flatMap Item.files) ∧
      ((∀ i ∈ sampleItems, i.InOneDir) →
        s.allFunctions = listedFunctions b.loadAddress (sampleItems.flatMap Item.ownFunctions) ∧
        s.allFiles = listedFiles (sampleItems.flatMap Item.ownFiles)) := by
  obtain ⟨b, bytes, hadd, hbytes⟩ := sampleItems_written
  have hgathered := (Builder.Gathered.empty.addAll hadd).settings .unknown .nil 0x1000
  exact ⟨_, bytes, hgathered, hbytes, lists_in_order_of_occurrence hgathered hbytes⟩

/-- The file of a call to code that was compiled in another directory than its caller is listed in
the directory of the caller only. -/
theorem inlined_file_listed_in_outer_dir : ∃ (b : Builder) (bytes : Bytes) (s : SymCache),
    b.Gathered [.function caller] ∧ b.toBytes = .ok bytes ∧ parse bytes = .ok s ∧
    s.allFiles.map File.fullPath = ["/build/a/main.c", "/build/a/helper.c"] ∧
    s.allFiles ≠ listedFiles (Item.ownFiles (.function caller)) := by
  obtain ⟨b, bytes, hadd, hbytes⟩ := caller_written
  have hgathered := (Builder.Gathered.empty.addAll hadd).settings .unknown .nil 0
  obtain ⟨s, hparse, -, hfiles⟩ := lists_gathered hgathered hbytes
  have hpaths : s.allFiles.map File.fullPath = ["/build/a/main.c", "/build/a/helper.c"] := by
    rw [hfiles]
    decide +kernel
  refine ⟨_, bytes, s, hgathered, hbytes, hparse, hpaths, ?_⟩
  intro hown
  rw [hown] at hpaths
  exact absurd hpaths (by decide +kernel)

end Postmortem.SymCache
