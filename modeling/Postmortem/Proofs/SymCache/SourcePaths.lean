import Mathlib
import Postmortem.Debug.FunctionBuilder
import Postmortem.Proofs.SymCache.Lookups

/-!
# Source paths of locations

A cache stores every file of a function tree in the compilation directory of the whole tree.  The
path at a location is that of the line record if the tree has one compilation directory only, as
all trees of function builders have.  A call that was inlined from code compiled in another
directory is shown with a path in the wrong one.
-/

set_option autoImplicit false

namespace Postmortem

namespace Debug

namespace Function

mutual

/-- Whether all nodes of a tree are in one compilation directory. -/
def InDir (dir : Bytes) : Function → Prop
  | ⟨_, _, _, compDir, _, inlinees, _⟩ => compDir = dir ∧ AllInDir dir inlinees

def AllInDir (dir : Bytes) : List Function → Prop
  | [] => True
  | f :: rest => f.InDir dir ∧ AllInDir dir rest

end

variable {dir : Bytes}

theorem inDir_iff {f : Function} :
    f.InDir dir ↔ f.compDir = dir ∧ AllInDir dir f.inlinees := by
  cases f
  rfl

theorem allInDir_iff {l : List Function} : AllInDir dir l ↔ ∀ f ∈ l, f.InDir dir := by
  induction l with
  | nil => simp [AllInDir]
  | cons f rest ih => simp [AllInDir, ih]

mutual

theorem InDir.arranged {f : Function} (h : f.InDir dir) : f.arranged.InDir dir := by
  obtain ⟨address, size, name, compDir, lines, inlinees, isInline⟩ := f
  obtain ⟨hdir, hinlinees⟩ := h
  refine ⟨hdir, allInDir_iff.2 ?_⟩
  intro g hg
  exact allInDir_iff.1 (AllInDir.arrangedIn hinlinees) g (List.mem_mergeSort.1 hg)

theorem AllInDir.arrangedIn {l : List Function} {start stop : UInt64} (h : AllInDir dir l) :
    AllInDir dir (arrangedIn start stop l) := by
  cases l with
  | nil => trivial
  | cons f rest =>
      obtain ⟨hf, hrest⟩ := h
      rw [Function.arrangedIn]
      split
      · exact ⟨hf.arranged, AllInDir.arrangedIn hrest⟩
      · exact AllInDir.arrangedIn hrest

end

mutual

theorem InDir.of_mem_chains {f : Function} {outer chain : List Function} (h : f.InDir dir)
    (houter : ∀ g ∈ outer, g.compDir = dir) (hchain : chain ∈ chains outer f) :
    ∀ g ∈ chain, g.compDir = dir := by
  obtain ⟨address, size, name, compDir, lines, inlinees, isInline⟩ := f
  have hall : ∀ g ∈ ⟨address, size, name, compDir, lines, inlinees, isInline⟩ :: outer,
      g.compDir = dir := List.forall_mem_cons.2 ⟨h.1, houter⟩
  rw [chains] at hchain
  rcases List.mem_cons.1 hchain with rfl | hchain
  · exact hall
  · exact AllInDir.of_mem_chainsOf h.2 hall hchain

theorem AllInDir.of_mem_chainsOf {l outer chain : List Function} (h : AllInDir dir l)
    (houter : ∀ g ∈ outer, g.compDir = dir) (hchain : chain ∈ chainsOf outer l) :
    ∀ g ∈ chain, g.compDir = dir := by
  cases l with
  | nil => simp [chainsOf] at hchain
  | cons f rest =>
      rw [chainsOf] at hchain
      rcases List.mem_append.1 hchain with hchain | hchain
      · exact h.1.of_mem_chains houter hchain
      · exact AllInDir.of_mem_chainsOf h.2 houter hchain

end

theorem InDir.addInlinee {f child : Function} (h : f.InDir dir) (hchild : child.InDir dir) :
    (f.addInlinee child).InDir dir := by
  obtain ⟨hdir, hinlinees⟩ := inDir_iff.1 h
  refine inDir_iff.2 ⟨hdir, allInDir_iff.2 ?_⟩
  intro g hg
  rcases List.mem_append.1 hg with hg | hg
  · exact allInDir_iff.1 hinlinees g hg
  · obtain rfl := List.mem_singleton.1 hg
    exact hchild

theorem InDir.addLine {f : Function} {l : LineInfo} (h : f.InDir dir) : (f.addLine l).InDir dir := by
  obtain ⟨hdir, hinlinees⟩ := inDir_iff.1 h
  exact inDir_iff.2 ⟨hdir, hinlinees⟩

end Function

/-! ## Trees of function builders -/

namespace InlineStack

variable {dir : Bytes} {s : InlineStack}

structure InDir (dir : Bytes) (s : InlineStack) : Prop where
  outer : s.outer.InDir dir
  calls : ∀ c ∈ s.calls, c.function.InDir dir

theorem inDir_attach {child outer : Function} {calls : List OpenCall} (hchild : child.InDir dir)
    (houter : outer.InDir dir) (hcalls : ∀ c ∈ calls, c.function.InDir dir) :
    (attach child outer calls).InDir dir := by
  cases calls with
  | nil => exact ⟨houter.addInlinee hchild, nofun⟩
  | cons parent rest =>
      obtain ⟨hparent, hrest⟩ := List.forall_mem_cons.1 hcalls
      exact ⟨houter, List.forall_mem_cons.2 ⟨hparent.addInlinee hchild, hrest⟩⟩

theorem InDir.closeWhile {closes : Nat → OpenCall → Bool} (h : s.InDir dir) :
    (s.closeWhile closes).InDir dir := by
  fun_induction InlineStack.closeWhile closes s with
  | case1 => exact h
  | case2 s c rest hs hcloses ih =>
      have hcalls := h.calls
      rw [hs] at hcalls
      obtain ⟨hc, hrest⟩ := List.forall_mem_cons.1 hcalls
      exact ih (inDir_attach hc h.outer hrest)
  | case3 => exact h

theorem InDir.openCall {c : InlineCall} (h : s.InDir dir) : (s.openCall dir c).InDir dir :=
  ⟨h.outer, List.forall_mem_cons.2 ⟨⟨rfl, trivial⟩, h.calls⟩⟩

theorem inDir_addLineToCalls {l : LineInfo} {calls : List OpenCall}
    (h : ∀ c ∈ calls, c.function.InDir dir) :
    ∀ c ∈ (addLineToCalls l calls).1, c.function.InDir dir := by
  induction calls generalizing l with
  | nil => exact h
  | cons c rest ih =>
      obtain ⟨hc, hrest⟩ := List.forall_mem_cons.1 h
      exact List.forall_mem_cons.2 ⟨hc.addLine, ih hrest⟩

theorem InDir.addLine {l : LineInfo} (h : s.InDir dir) : (s.addLine l).InDir dir :=
  ⟨h.outer.addLine, inDir_addLineToCalls h.calls⟩

end InlineStack

namespace FunctionBuilder

theorem inDir_run {dir : Bytes} {calls : List InlineCall} {lines : List LineInfo}
    {s : InlineStack} (h : s.InDir dir) : (run dir calls lines s).InDir dir := by
  fun_induction run dir calls lines s with
  | case1 => exact h
  | case2 s c calls ih => exact ih h.closeWhile.closeWhile.openCall
  | case3 s l lines ih => exact ih h.closeWhile.addLine
  | case4 s c calls l lines hle ih => exact ih h.closeWhile.closeWhile.openCall
  | case5 s c calls l lines hle ih => exact ih h.closeWhile.addLine

/-- All nodes of a built tree are in the compilation directory of the builder. -/
theorem inDir_finish (b : FunctionBuilder) : b.finish.InDir b.compDir := by
  have hstart : InlineStack.InDir b.compDir
      ⟨⟨b.address, b.size, b.name, b.compDir, [], [], false⟩, []⟩ := ⟨⟨rfl, trivial⟩, nofun⟩
  exact (inDir_run hstart).closeWhile.outer

end FunctionBuilder

end Debug

namespace SymCache

variable {b : Builder} {items : List Item} {load : UInt64} {arch : Arch} {debugId : DebugId}
  {bytes : Bytes}

/-- If all calls in the item that wins are in its compilation directory, each path is relative to the
directory of its own call. -/
theorem Finds.ownPaths {a : UInt64} {locations : List Location} {i : Item}
    {chain : List Debug.Function} (h : Finds load a items locations i chain)
    (hdir : i.tree.InDir i.tree.compDir) :
    List.Forall₂ (fun f l => NamesPath f.compDir a f l) chain locations := by
  have hchain := hdir.arranged.of_mem_chains (by simp) h.innermost.mem
  refine ((List.forall₂_and_left _ _).2 ⟨hchain, h.paths⟩).imp ?_
  intro f l ⟨hf, hpath⟩
  rwa [hf]

def Item.Built : Item → Prop
  | .function f => ∃ b : Debug.FunctionBuilder, f = b.finish
  | .symbol _ => True

theorem Item.Built.inDir {i : Item} (h : i.Built) : i.tree.InDir i.tree.compDir := by
  cases i with
  | function f =>
      obtain ⟨b, rfl⟩ := h
      have hbuilt := b.inDir_finish
      rwa [Item.tree, (Debug.Function.inDir_iff.1 hbuilt).1]
  | symbol s => exact ⟨rfl, trivial⟩

/-- Where builders have made all functions, each path is relative to the compilation directory of its
own call. -/
theorem built_paths_in_own_dir (hbuilt : ∀ i ∈ items, i.Built)
    (hadd : Builder.addAll Builder.add {} items = (.ok (), b))
    (hbytes : { b with arch, debugId, loadAddress := load }.toBytes = .ok bytes) :
    ∃ s, parse bytes = .ok s ∧ ∀ a, s.lookup a ≠ [] → ∃ i ∈ items, ∃ chain,
      Debug.Function.IsInnermost a (i.tree.arranged.chains []) chain ∧
      List.Forall₂ (fun f l => NamesPath f.compDir a f l) chain (s.lookup a) := by
  obtain ⟨s, hparse, hfinds⟩ := written_finds hadd hbytes
  refine ⟨s, hparse, ?_⟩
  intro a hne
  rcases hfinds a with ⟨-, hlookup⟩ | ⟨i, chain, hfound⟩
  · exact absurd hlookup hne
  · have hmem := hfound.winner.mem
    exact ⟨i, hmem, chain, hfound.innermost, hfound.ownPaths (hbuilt i hmem).inDir⟩

/-- At each location, the path is that of the line record relative to the compilation directory of
the item that wins there.  If all calls in that item are in its compilation directory, the path is
relative to the one of the call itself. -/
theorem lookup_resolves_paths (hadd : Builder.addAll Builder.add {} items = (.ok (), b))
    (hbytes : { b with arch, debugId, loadAddress := load }.toBytes = .ok bytes) :
    ∃ s, parse bytes = .ok s ∧ ∀ a, s.lookup a ≠ [] → ∃ i chain,
      IsFirstLeast Item.precedence (Item.Covers load a) items i ∧
      Debug.Function.IsInnermost a (i.tree.arranged.chains []) chain ∧
      List.Forall₂ NamesFunction chain (s.lookup a) ∧
      List.Forall₂ (NamesPath i.tree.compDir a) chain (s.lookup a) ∧
      (i.tree.InDir i.tree.compDir →
        List.Forall₂ (fun f l => NamesPath f.compDir a f l) chain (s.lookup a)) := by
  obtain ⟨s, hparse, hfinds⟩ := written_finds hadd hbytes
  refine ⟨s, hparse, ?_⟩
  intro a hne
  rcases hfinds a with ⟨-, hlookup⟩ | ⟨i, chain, hfound⟩
  · exact absurd hlookup hne
  · exact ⟨i, chain, hfound.winner, hfound.innermost, hfound.names, hfound.paths, hfound.ownPaths⟩

theorem lookup_resolves_paths_sample : ∃ b bytes,
    Builder.addAll Builder.add {} sampleItems = (.ok (), b) ∧
    { b with arch := .unknown, debugId := .nil, loadAddress := 0x1000 }.toBytes = .ok bytes ∧
    ∃ s, parse bytes = .ok s ∧ ∀ a, s.lookup a ≠ [] → ∃ i chain,
      IsFirstLeast Item.precedence (Item.Covers 0x1000 a) sampleItems i ∧
      Debug.Function.IsInnermost a (i.tree.arranged.chains []) chain ∧
      List.Forall₂ NamesFunction chain (s.lookup a) ∧
      List.Forall₂ (NamesPath i.tree.compDir a) chain (s.lookup a) ∧
      (i.tree.InDir i.tree.compDir →
        List.Forall₂ (fun f l => NamesPath f.compDir a f l) chain (s.lookup a)) := by
  obtain ⟨b, bytes, hadd, hbytes⟩ := sampleItems_written
  exact ⟨b, bytes, hadd, hbytes, lookup_resolves_paths hadd hbytes⟩

/-- A line of a call to code that was compiled in another directory than its caller. -/
def helperLine : Debug.LineInfo :=
  { address := 0x1010, size := some 0x10, file := { name := Utf8.encode "helper.c" }, line := 3 }

def helper : Debug.Function :=
  { address := 0x1010, size := 0x10, name := { text := "helper" }
    compDir := Utf8.encode "/build/b", lines := [helperLine], isInline := true }

def caller : Debug.Function :=
  { address := 0x1000, size := 0x100, name := { text := "main" }
    compDir := Utf8.encode "/build/a"
    lines := [{ address := 0x1000, size := some 0x100, file := { name := Utf8.encode "main.c" }
                line := 10 }]
    inlinees := [helper] }

set_option maxRecDepth 20000 in
theorem caller_written : ∃ b bytes,
    Builder.addAll Builder.add {} [.function caller] = (.ok (), b) ∧
    { b with arch := .unknown, debugId := .nil, loadAddress := 0 }.toBytes = .ok bytes := by
  apply exists_written
  · cbv
  · cbv

/-- The innermost call at an address of the helper is the one to it. -/
theorem chain_of_innermost {chain : List Debug.Function}
    (h : Debug.Function.IsInnermost 0x1010 (caller.arranged.chains []) chain) :
    chain = [helper, caller] := by
  have hchains : caller.arranged.chains [] = [[caller], [helper, caller]] := by
    have harranged : caller.arranged = caller := by cbv
    rw [harranged]
    rfl
  rw [Debug.Function.IsInnermost, hchains] at h
  have hreach : Debug.Function.Reaches [helper, caller] 0x1010 :=
    ⟨helper, rfl, by decide, by decide⟩
  -- the longer of two chains that reach an address is taken
  have hlong := longerFirst_isLE.1
    (h.isLE_of_mem (by simp) hreach (longerFirst_isLE.2 (Nat.le_refl _)))
  have hmem := h.mem
  simp only [List.mem_cons, List.not_mem_nil, or_false] at hmem
  rcases hmem with rfl | rfl
  · simp at hlong
  · rfl

/-- The path at a location is relative to the directory of the function around the call, not to that
of the call. -/
theorem inlined_path_in_outer_dir : ∃ b bytes s,
    Builder.addAll Builder.add {} [.function caller] = (.ok (), b) ∧
    { b with arch := .unknown, debugId := .nil, loadAddress := 0 }.toBytes = .ok bytes ∧
    parse bytes = .ok s ∧ ∃ l ∈ s.lookup 0x1010, NamesFunction helper l ∧
      l.file.map File.fullPath = some "/build/a/helper.c" ∧
      ¬ NamesPath helper.compDir 0x1010 helper l := by
  obtain ⟨b, bytes, hadd, hbytes⟩ := caller_written
  obtain ⟨s, hparse, hfinds⟩ := written_finds hadd hbytes
  refine ⟨b, bytes, s, hadd, hbytes, hparse, ?_⟩
  rcases hfinds 0x1010 with ⟨hnone, -⟩ | ⟨i, chain, hfound⟩
  · have hcovers : (Item.function caller).Covers 0 0x1010 :=
      ⟨⟨by decide, by decide⟩, by decide, by decide⟩
    exact absurd hcovers (hnone _ (List.mem_singleton_self _))
  obtain rfl := List.mem_singleton.1 hfound.winner.mem
  obtain rfl := chain_of_innermost hfound.innermost
  obtain ⟨l, rest, hname, -, hlocations⟩ := List.forall₂_cons_left_iff.1 hfound.names
  have hpath := hfound.paths
  rw [hlocations] at hpath
  have hline : helper.lineAt? 0x1010 = some helperLine := by cbv
  have hnot : ¬ helperLine.EndedBy 0x1010 := by
    rintro ⟨n, hn, -, hle⟩
    obtain rfl := Option.some.inj hn
    exact absurd hle (by decide)
  -- the two directories give different texts, so the stored path cannot be the one of the call
  obtain ⟨file, hfile, houter⟩ := (List.forall₂_cons.1 hpath).1 helperLine hline hnot
  have hshown : file.fullPath = "/build/a/helper.c" := by
    rw [houter]
    decide +kernel
  refine ⟨l, ?_, hname, ?_, ?_⟩
  · rw [hlocations]
    exact List.mem_cons_self
  · rw [hfile, Option.map_some, hshown]
  · intro hown
    obtain ⟨file', hfile', hinner⟩ := hown helperLine hline hnot
    obtain rfl := Option.some.inj (hfile.symm.trans hfile')
    rw [hshown] at hinner
    exact absurd hinner (by decide +kernel)

end SymCache

end Postmortem
