import Postmortem.Proofs.RelatedLists
import Postmortem.Proofs.StringOffsets
import Postmortem.Proofs.SymCache.InlineTrees
import Postmortem.Proofs.SymCache.LineReadings
import Postmortem.Proofs.SymCache.TableLayout
import Postmortem.SymCache.Builder

/-!
# What the pools hold

Collecting a function pools its strings, files and functions.  Pools only grow, so what a number
leads to does not change, and in the end each scope has the parts of the function that it was made
from.
-/

set_option autoImplicit false

namespace Postmortem.SymCache

open Postmortem.Debug (LineInfo Symbol)

structure Pools.Grows (p p' : Pools) : Prop where
  strings : p.strings.toBytes <+: p'.strings.toBytes
  files : p.files <+: p'.files
  functions : p.functions <+: p'.functions
  sound : p.strings.Sound → p'.strings.Sound

theorem Pools.Grows.refl (p : Pools) : p.Grows p :=
  ⟨List.prefix_refl _, List.prefix_refl _, List.prefix_refl _, id⟩

theorem Pools.Grows.trans {p p' p'' : Pools} (h : p.Grows p') (h' : p'.Grows p'') :
    p.Grows p'' :=
  ⟨h.strings.trans h'.strings, h.files.trans h'.files, h.functions.trans h'.functions,
    fun hp => h'.sound (h.sound hp)⟩

theorem getElem?_mono {α : Type} {l l' : List α} {i : Nat} {a : α} (h : l <+: l')
    (ha : l[i]? = some a) : l'[i]? = some a := by
  obtain ⟨more, rfl⟩ := h
  obtain ⟨hi, -⟩ := List.getElem?_eq_some_iff.1 ha
  rw [List.getElem?_append_left hi, ha]

/-- A value that is pooled is found under its number, and the pool only grows. -/
theorem pooled_spec {α : Type} [BEq α] [LawfulBEq α] (a : α) (pool : List α) :
    pool <+: (pooled a pool).2 ∧ (pooled a pool).2[(pooled a pool).1]? = some a := by
  rw [pooled]
  cases hi : pool.idxOf? a with
  | none => exact ⟨List.prefix_append _ _, List.getElem?_concat_length⟩
  | some i =>
      obtain ⟨hlt, heq, -⟩ := List.idxOf?_eq_some_iff.1 hi
      refine ⟨List.prefix_refl _, ?_⟩
      dsimp only
      rw [List.getElem?_eq_getElem hlt, ← heq]

def FileAt (p : Pools) (i : UInt32) (name directory compDir : String) : Prop :=
  ∃ f, p.files[i.toNat]? = some f ∧
    StringTable.Holds p.strings.toBytes f.compDir compDir ∧
    StringTable.Holds p.strings.toBytes f.directory directory ∧
    StringTable.Holds p.strings.toBytes f.name name

def FunctionAt (p : Pools) (i : UInt32) (name : Name) (entry : UInt64) : Prop :=
  ∃ f, p.functions[i.toNat]? = some f ∧ StringTable.Holds p.strings.toBytes f.name name.text ∧
    f.entry = entry ∧ f.language = name.language.code

theorem FileAt.mono {p p' : Pools} {i : UInt32} {name directory compDir : String}
    (h : FileAt p i name directory compDir) (hp : p.Grows p') :
    FileAt p' i name directory compDir := by
  obtain ⟨f, hf, hcompDir, hdirectory, hname⟩ := h
  exact ⟨f, getElem?_mono hp.files hf, hcompDir.mono hp.strings, hdirectory.mono hp.strings,
    hname.mono hp.strings⟩

theorem FunctionAt.mono {p p' : Pools} {i : UInt32} {name : Name} {entry : UInt64}
    (h : FunctionAt p i name entry) (hp : p.Grows p') : FunctionAt p' i name entry := by
  obtain ⟨f, hf, hname, hrest⟩ := h
  exact ⟨f, getElem?_mono hp.functions hf, hname.mono hp.strings, hrest⟩

structure RowOf (p : Pools) (compDir : String) (l : LineInfo) (r : SizedRow) : Prop where
  address : r.row.address = l.address
  line : r.row.line.toNat = l.line.toNat
  file : FileAt p r.row.file l.file.nameText l.file.dirText compDir
  stop : r.stop = l.size.map (addSaturating l.address)

variable {compDir : String}

theorem RowOf.mono {p p' : Pools} {l : LineInfo} {r : SizedRow} (h : RowOf p compDir l r)
    (hp : p.Grows p') : RowOf p' compDir l r :=
  { h with file := h.file.mono hp }

structure NodeOf (p : Pools) (compDir : String) (s : Scope) (f : Debug.Function) : Prop where
  start : s.start = f.address
  stop : s.stop = f.stop
  function : FunctionAt p s.function f.name f.address
  lines : ∃ rows, List.Forall₂ (RowOf p compDir) f.lines rows ∧
    s.lines = LineTable.settle f.address f.stop rows

theorem NodeOf.mono {p p' : Pools} {s : Scope} {f : Debug.Function} (h : NodeOf p compDir s f)
    (hp : p.Grows p') : NodeOf p' compDir s f := by
  obtain ⟨rows, hrows, hlines⟩ := h.lines
  exact { h with
    function := h.function.mono hp
    lines := ⟨rows, hrows.imp fun _ _ hr => hr.mono hp, hlines⟩ }

mutual

/-- Whether a tree of scopes is that of a function tree, node by node, with all files in one
compilation directory. -/
def Mirrors (p : Pools) (compDir : String) (s : Scope) : Debug.Function → Prop
  | ⟨address, size, name, functionDir, lines, inlinees, isInline⟩ =>
    NodeOf p compDir s ⟨address, size, name, functionDir, lines, inlinees, isInline⟩ ∧
      MirrorsAll p compDir s.inlinees inlinees

def MirrorsAll (p : Pools) (compDir : String) : List Scope → List Debug.Function → Prop
  | [], [] => True
  | s :: scopes, f :: functions => Mirrors p compDir s f ∧ MirrorsAll p compDir scopes functions
  | _, _ => False

end

theorem mirrorsAll_iff {p : Pools} {scopes : List Scope} {functions : List Debug.Function} :
    MirrorsAll p compDir scopes functions ↔
      List.Forall₂ (Mirrors p compDir) scopes functions := by
  induction functions generalizing scopes with
  | nil =>
      cases scopes with
      | nil => exact ⟨fun _ => .nil, fun _ => trivial⟩
      | cons s scopes => exact ⟨False.elim, nofun⟩
  | cons f functions ih =>
      cases scopes with
      | nil => exact ⟨False.elim, nofun⟩
      | cons s scopes => rw [MirrorsAll, List.forall₂_cons, ih]

mutual

theorem Mirrors.mono {p p' : Pools} {s : Scope} {f : Debug.Function} (h : Mirrors p compDir s f)
    (hp : p.Grows p') : Mirrors p' compDir s f := by
  obtain ⟨address, size, name, functionDir, lines, inlinees, isInline⟩ := f
  exact ⟨h.1.mono hp, MirrorsAll.mono h.2 hp⟩

theorem MirrorsAll.mono {p p' : Pools} {scopes : List Scope} {functions : List Debug.Function}
    (h : MirrorsAll p compDir scopes functions) (hp : p.Grows p') :
    MirrorsAll p' compDir scopes functions := by
  cases functions with
  | nil =>
      cases scopes with
      | nil => trivial
      | cons s scopes => exact h.elim
  | cons f functions =>
      cases scopes with
      | nil => exact h.elim
      | cons s scopes => exact ⟨Mirrors.mono h.1 hp, MirrorsAll.mono h.2 hp⟩

end

mutual

/-- The nodes of mirrored trees are the same, with the same nodes around them. -/
theorem Mirrors.chains {p : Pools} {s : Scope} {f : Debug.Function} {outer : List Scope}
    {outer' : List Debug.Function} (h : Mirrors p compDir s f)
    (houter : List.Forall₂ (NodeOf p compDir) outer outer') :
    List.Forall₂ (List.Forall₂ (NodeOf p compDir)) (s.chains outer) (f.chains outer') := by
  obtain ⟨address, size, name, functionDir, lines, inlinees, isInline⟩ := f
  cases s with
  | mk start stop function rows scopes =>
      rw [Scope.chains, Debug.Function.chains]
      exact .cons (.cons h.1 houter) (MirrorsAll.chainsOf h.2 (.cons h.1 houter))

theorem MirrorsAll.chainsOf {p : Pools} {scopes : List Scope} {functions : List Debug.Function}
    {outer : List Scope} {outer' : List Debug.Function}
    (h : MirrorsAll p compDir scopes functions)
    (houter : List.Forall₂ (NodeOf p compDir) outer outer') :
    List.Forall₂ (List.Forall₂ (NodeOf p compDir)) (Scope.chainsOf outer scopes)
      (Debug.Function.chainsOf outer' functions) := by
  cases functions with
  | nil =>
      cases scopes with
      | nil => exact .nil
      | cons s scopes => exact h.elim
  | cons f functions =>
      cases scopes with
      | nil => exact h.elim
      | cons s scopes =>
          rw [Scope.chainsOf, Debug.Function.chainsOf]
          exact List.rel_append (Mirrors.chains h.1 houter) (MirrorsAll.chainsOf h.2 houter)

end

namespace Collect

/-- Whether a step succeeds with a value and leaves certain pools behind. -/
def Yields {α : Type} (x : Collect α) (p : Pools) (a : α) (p' : Pools) : Prop :=
  x.run.run p = (.ok a, p')

theorem yields_pure {α : Type} {a b : α} {p p' : Pools} (h : Yields (pure a) p b p') :
    a = b ∧ p = p' := by
  rw [Yields] at h
  cases h
  exact ⟨rfl, rfl⟩

theorem yields_bind {α β : Type} {x : Collect α} {f : α → Collect β} {b : β} {p p'' : Pools}
    (h : Yields (x >>= f) p b p'') : ∃ a p', Yields x p a p' ∧ Yields (f a) p' b p'' := by
  rw [Yields, ExceptT.run_bind, StateT.run_bind] at h
  cases hx : x.run.run p with
  | mk outcome p' =>
      rw [hx] at h
      cases outcome with
      | error e => cases h
      | ok a => exact ⟨a, p', hx, h⟩

theorem yields_get {p q p' : Pools} (h : Yields get p q p') : p = q ∧ p = p' := by
  rw [Yields] at h
  cases h
  exact ⟨rfl, rfl⟩

theorem yields_set {p q p' : Pools} {u : PUnit} (h : Yields (set q) p u p') : p' = q := by
  rw [Yields] at h
  cases h
  rfl

theorem yields_count {n : Nat} {what : Quantity} {i : UInt32} {p p' : Pools}
    (h : Yields (count n what) p i p') : i.toNat = n ∧ p = p' := by
  cases hcount : count n what with
  | error e =>
      rw [hcount] at h
      cases h
  | ok m =>
      rw [hcount] at h
      cases h
      exact ⟨count_eq_ok hcount, rfl⟩

theorem string_spec {s : String} {p p' : Pools} {offset : UInt32} (hp : p.strings.Sound)
    (h : Yields (string s) p offset p') :
    p.Grows p' ∧ StringTable.Holds p'.strings.toBytes offset s := by
  rw [string] at h
  obtain ⟨pools, p₁, hget, hrest⟩ := yields_bind h
  obtain ⟨rfl, rfl⟩ := yields_get hget
  split at hrest
  · rename_i hinsert
    obtain ⟨_, p₂, hset, hreturn⟩ := yields_bind hrest
    obtain rfl := yields_set hset
    obtain ⟨rfl, rfl⟩ := yields_pure hreturn
    obtain ⟨hsound, hgrown, hholds⟩ := StringTable.insert?_sound hp hinsert
    exact ⟨⟨hgrown, List.prefix_refl _, List.prefix_refl _, fun _ => hsound⟩, hholds⟩
  · cases hrest

theorem file_spec {name directory compDir : String} {p p' : Pools} {i : UInt32}
    (hp : p.strings.Sound) (h : Yields (file name directory compDir) p i p') :
    p.Grows p' ∧ FileAt p' i name directory compDir := by
  rw [file] at h
  obtain ⟨compDirAt, p₁, hstring, hrest₁⟩ := yields_bind h
  obtain ⟨hgrown₁, hcompDir⟩ := string_spec hp hstring
  obtain ⟨directoryAt, p₂, hstring, hrest₂⟩ := yields_bind hrest₁
  obtain ⟨hgrown₂, hdirectory⟩ := string_spec (hgrown₁.sound hp) hstring
  obtain ⟨nameAt, p₃, hstring, hrest₃⟩ := yields_bind hrest₂
  obtain ⟨hgrown₃, hname⟩ := string_spec (hgrown₂.sound (hgrown₁.sound hp)) hstring
  obtain ⟨pools, p₄, hget, hrest₄⟩ := yields_bind hrest₃
  obtain ⟨rfl, rfl⟩ := yields_get hget
  obtain ⟨_, p₅, hset, hcount⟩ := yields_bind hrest₄
  obtain rfl := yields_set hset
  obtain ⟨hi, rfl⟩ := yields_count hcount
  obtain ⟨hfiles, hfound⟩ := pooled_spec (⟨compDirAt, directoryAt, nameAt⟩ : FileRecord) p₃.files
  have hgrown₅ : p₃.Grows { p₃ with files := (pooled ⟨compDirAt, directoryAt, nameAt⟩ p₃.files).2 } :=
    ⟨List.prefix_refl _, hfiles, List.prefix_refl _, id⟩
  refine ⟨((hgrown₁.trans hgrown₂).trans hgrown₃).trans hgrown₅,
    ⟨compDirAt, directoryAt, nameAt⟩, ?_, (hcompDir.mono hgrown₂.strings).mono hgrown₃.strings,
    hdirectory.mono hgrown₃.strings, hname⟩
  rw [hi]
  exact hfound

theorem function_spec {name compDir : String} {entry : UInt64} {language : Language}
    {p p' : Pools} {i : UInt32} (hp : p.strings.Sound)
    (h : Yields (function name compDir entry language) p i p') :
    p.Grows p' ∧ FunctionAt p' i ⟨name, language⟩ entry := by
  rw [function] at h
  obtain ⟨nameAt, p₁, hstring, hrest₁⟩ := yields_bind h
  obtain ⟨hgrown₁, hname⟩ := string_spec hp hstring
  obtain ⟨compDirAt, p₂, hstring, hrest₂⟩ := yields_bind hrest₁
  obtain ⟨hgrown₂, -⟩ := string_spec (hgrown₁.sound hp) hstring
  obtain ⟨pools, p₃, hget, hrest₃⟩ := yields_bind hrest₂
  obtain ⟨rfl, rfl⟩ := yields_get hget
  obtain ⟨_, p₄, hset, hcount⟩ := yields_bind hrest₃
  obtain rfl := yields_set hset
  obtain ⟨hi, rfl⟩ := yields_count hcount
  obtain ⟨hfunctions, hfound⟩ :=
    pooled_spec (⟨nameAt, compDirAt, entry, language.code⟩ : FunctionKey) p₂.functions
  have hgrown₃ : p₂.Grows { p₂ with
      functions := (pooled ⟨nameAt, compDirAt, entry, language.code⟩ p₂.functions).2 } :=
    ⟨List.prefix_refl _, List.prefix_refl _, hfunctions, id⟩
  refine ⟨(hgrown₁.trans hgrown₂).trans hgrown₃, ⟨nameAt, compDirAt, entry, language.code⟩, ?_,
    hname.mono hgrown₂.strings, rfl, rfl⟩
  rw [hi]
  exact hfound

theorem line_spec {l : LineInfo} {p p' : Pools} {r : SizedRow}
    (hp : p.strings.Sound) (h : Yields (line compDir l) p r p') :
    p.Grows p' ∧ RowOf p' compDir l r := by
  rw [line] at h
  obtain ⟨i, p₁, hfile, hrest⟩ := yields_bind h
  obtain ⟨hgrown, hfileAt⟩ := file_spec hp hfile
  split at hrest
  · rename_i hline
    obtain ⟨rfl, rfl⟩ := yields_pure hrest
    refine ⟨hgrown, rfl, ?_, hfileAt, rfl⟩
    dsimp only
    rw [UInt64.toNat_toUInt32]
    exact Nat.mod_eq_of_lt hline
  · cases hrest

theorem lines_spec {lines : List LineInfo} {p p' : Pools}
    {rows : List SizedRow} (hp : p.strings.Sound) (h : Yields (lines.mapM (line compDir)) p rows p') :
    p.Grows p' ∧ List.Forall₂ (RowOf p' compDir) lines rows := by
  induction lines generalizing p rows with
  | nil =>
      rw [List.mapM_nil] at h
      obtain ⟨rfl, rfl⟩ := yields_pure h
      exact ⟨.refl p, .nil⟩
  | cons l lines ih =>
      rw [List.mapM_cons] at h
      obtain ⟨r, p₁, hline, hrest₁⟩ := yields_bind h
      obtain ⟨rows, p₂, hlines, hrest₂⟩ := yields_bind hrest₁
      obtain ⟨rfl, rfl⟩ := yields_pure hrest₂
      obtain ⟨hgrown₁, hr⟩ := line_spec hp hline
      obtain ⟨hgrown₂, hrows⟩ := ih (hgrown₁.sound hp) hlines
      exact ⟨hgrown₁.trans hgrown₂, .cons (hr.mono hgrown₂) hrows⟩

theorem belongs_iff {start stop : UInt64} {f : Debug.Function} :
    belongs start stop f = true ↔ f.LiesIn start stop := by
  rw [belongs, Bool.and_eq_true, Bool.and_eq_true, decide_eq_true_eq, decide_eq_true_eq,
    decide_eq_true_eq, and_assoc]
  rfl

/-- Sorting scopes by their starts sorts what they mirror by its addresses. -/
theorem mirrorsAll_mergeSort {p : Pools} {scopes : List Scope} {functions : List Debug.Function}
    (h : MirrorsAll p compDir scopes functions) :
    MirrorsAll p compDir (scopes.mergeSort fun a b => a.start ≤ b.start)
      (functions.mergeSort fun f g => f.address ≤ g.address) := by
  have hstart {scope : Scope} {f : Debug.Function} (h : Mirrors p compDir scope f) :
      scope.start = f.address := by
    cases f
    exact h.1.start
  rw [mirrorsAll_iff] at h ⊢
  exact forall₂_mergeSort h fun _ _ _ _ hx hy => by rw [hstart hx, hstart hy]

mutual

/-- The scope of a function mirrors its arranged tree. -/
theorem scope_spec {f : Debug.Function} {p p' : Pools} {s : Scope}
    (hp : p.strings.Sound) (h : Yields (scope compDir f) p s p') :
    p.Grows p' ∧ Mirrors p' compDir s f.arranged := by
  obtain ⟨address, size, name, functionDir, lines, inlinees, isInline⟩ := f
  rw [scope] at h
  obtain ⟨i, p₁, hfunction, hrest₁⟩ := yields_bind h
  obtain ⟨rows, p₂, hlines, hrest₂⟩ := yields_bind hrest₁
  obtain ⟨children, p₃, hscopes, hrest₃⟩ := yields_bind hrest₂
  obtain ⟨rfl, rfl⟩ := yields_pure hrest₃
  obtain ⟨hgrown₁, hi⟩ := function_spec hp hfunction
  obtain ⟨hgrown₂, hrows⟩ := lines_spec (hgrown₁.sound hp) hlines
  obtain ⟨hgrown₃, hchildren⟩ := scopes_spec (hgrown₂.sound (hgrown₁.sound hp)) hscopes
  refine ⟨(hgrown₁.trans hgrown₂).trans hgrown₃, ?_, mirrorsAll_mergeSort hchildren⟩
  exact ⟨rfl, rfl, (hi.mono hgrown₂).mono hgrown₃, rows,
    hrows.imp fun _ _ hr => hr.mono hgrown₃, rfl⟩

theorem scopes_spec {start stop : UInt64} {l : List Debug.Function}
    {p p' : Pools} {scopes : List Scope} (hp : p.strings.Sound)
    (h : Yields (Collect.scopes compDir start stop l) p scopes p') :
    p.Grows p' ∧ MirrorsAll p' compDir scopes (Debug.Function.arrangedIn start stop l) := by
  cases l with
  | nil =>
      rw [Collect.scopes] at h
      obtain ⟨rfl, rfl⟩ := yields_pure h
      exact ⟨.refl p, trivial⟩
  | cons f rest =>
      rw [Collect.scopes] at h
      rw [Debug.Function.arrangedIn]
      by_cases hlies : f.LiesIn start stop
      · rw [if_pos (belongs_iff.2 hlies)] at h
        rw [if_pos hlies]
        obtain ⟨here, p₁, hscope, hrest₁⟩ := yields_bind h
        obtain ⟨others, p₂, hscopes, hrest₂⟩ := yields_bind hrest₁
        obtain ⟨rfl, rfl⟩ := yields_pure hrest₂
        obtain ⟨hgrown₁, hhere⟩ := scope_spec hp hscope
        obtain ⟨hgrown₂, hothers⟩ := scopes_spec (hgrown₁.sound hp) hscopes
        exact ⟨hgrown₁.trans hgrown₂, hhere.mono hgrown₂, hothers⟩
      · rw [if_neg (fun hb => hlies (belongs_iff.1 hb))] at h
        rw [if_neg hlies]
        exact scopes_spec hp h

end

end Collect

end Postmortem.SymCache
