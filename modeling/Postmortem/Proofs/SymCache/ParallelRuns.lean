import Postmortem.Proofs.SymCache.PoolSteps
import Postmortem.Proofs.SymCache.RenumberedLines

/-!
# Runs side by side

The same functions are collected by two builders, of which the first one has pooled more.  Strings,
files and functions have other numbers there, but lead to the same values, and the scopes are the
same apart from these numbers.  What the first builder has room for, the second one has room for,
unless one of them is too large to be written.
-/

set_option autoImplicit false

namespace Postmortem.SymCache

open Postmortem.Debug (LineInfo Symbol)

namespace Pools

variable {p p' q q' : Pools} {i j : UInt32}

structure Covers (p q : Pools) : Prop where
  left : p.Distinct
  right : q.Distinct
  texts : ∀ s ∈ q.strings.texts, s ∈ p.strings.texts

theorem Covers.steps (h : p.Covers q) (hp : p.Steps p') : p'.Covers q := by
  induction hp with
  | refl => exact h
  | tail _ hstep ih =>
      refine ⟨ih.left.step hstep, ih.right, fun s hs => ?_⟩
      cases hstep with
      | string inserted =>
          exact (StringTable.mem_texts_of_insert? inserted).2 (.inl (ih.texts s hs))
      | file f => exact ih.texts s hs
      | function f => exact ih.texts s hs

/-- Whether pools that cover others, or these, are too large to be written. -/
def Crowded (p q : Pools) : Prop :=
  UInt32.size ≤ p.strings.size ∨ UInt32.size ≤ q.files.length ∨ UInt32.size ≤ q.functions.length

theorem Crowded.mono (h : Crowded p q) (hp : p.Extends p') (hq : q.Extends q') :
    Crowded p' q' :=
  h.imp (fun h => Nat.le_trans h hp.strings.size_le)
    (Or.imp (fun h => Nat.le_trans h hq.files.length_le)
      fun h => Nat.le_trans h hq.functions.length_le)

/-! ## Numbers that lead to the same -/

def SameString (p q : Pools) (i j : UInt32) : Prop :=
  ∃ s, p.strings.offset? s = some i ∧ q.strings.offset? s = some j

def SameFile (p q : Pools) (i j : UInt32) : Prop :=
  ∃ f g, p.files[i.toNat]? = some f ∧ q.files[j.toNat]? = some g ∧
    SameString p q f.compDir g.compDir ∧ SameString p q f.directory g.directory ∧
    SameString p q f.name g.name

def SameFunction (p q : Pools) (i j : UInt32) : Prop :=
  ∃ f g, p.functions[i.toNat]? = some f ∧ q.functions[j.toNat]? = some g ∧
    SameString p q f.name g.name ∧ f.entry = g.entry ∧ f.language = g.language

theorem SameString.mono (h : SameString p q i j) (hp : p.Extends p') (hq : q.Extends q') :
    SameString p' q' i j := by
  obtain ⟨s, hi, hj⟩ := h
  exact ⟨s, hp.strings.offsets s i hi, hq.strings.offsets s j hj⟩

theorem SameFile.mono (h : SameFile p q i j) (hp : p.Extends p') (hq : q.Extends q') :
    SameFile p' q' i j := by
  obtain ⟨f, g, hf, hg, hcompDir, hdirectory, hname⟩ := h
  exact ⟨f, g, getElem?_mono hp.files hf, getElem?_mono hq.files hg, hcompDir.mono hp hq,
    hdirectory.mono hp hq, hname.mono hp hq⟩

theorem SameFunction.mono (h : SameFunction p q i j) (hp : p.Extends p') (hq : q.Extends q') :
    SameFunction p' q' i j := by
  obtain ⟨f, g, hf, hg, hname, hrest⟩ := h
  exact ⟨f, g, getElem?_mono hp.functions hf, getElem?_mono hq.functions hg, hname.mono hp hq,
    hrest⟩

end Pools

open Pools (Covers Crowded SameString SameFile SameFunction)

variable {p p' q q' : Pools}

structure SameNode (p q : Pools) (x y : Scope) : Prop where
  start : x.start = y.start
  stop : x.stop = y.stop
  function : SameFunction p q x.function y.function
  lines : ∃ rows rows', List.Forall₂ (SameSized (SameFile p q)) rows rows' ∧
    x.lines = LineTable.settle x.start x.stop rows ∧
    y.lines = LineTable.settle x.start x.stop rows'

theorem SameNode.mono {x y : Scope} (h : SameNode p q x y) (hp : p.Extends p')
    (hq : q.Extends q') : SameNode p' q' x y := by
  obtain ⟨rows, rows', hrows, hx, hy⟩ := h.lines
  exact { h with
    function := h.function.mono hp hq
    lines := ⟨rows, rows', hrows.imp fun _ _ hr => hr.imp fun _ _ hf => hf.mono hp hq, hx, hy⟩ }

inductive SameTree (p q : Pools) : Scope → Scope → Prop where
  | intro {x y : Scope} (node : SameNode p q x y) (pairs : List (Scope × Scope))
      (left : pairs.map Prod.fst = x.inlinees) (right : pairs.map Prod.snd = y.inlinees)
      (inlinees : ∀ e ∈ pairs, SameTree p q e.1 e.2) : SameTree p q x y

theorem SameTree.node {x y : Scope} (h : SameTree p q x y) : SameNode p q x y := by
  cases h
  assumption

theorem SameTree.mono {x y : Scope} (h : SameTree p q x y) (hp : p.Extends p')
    (hq : q.Extends q') : SameTree p' q' x y := by
  induction h with
  | intro node pairs left right _ ih => exact .intro (node.mono hp hq) pairs left right ih

/-- The nodes of both trees are the same, with the same nodes around them. -/
theorem SameTree.chains {x y : Scope} (h : SameTree p q x y) {outer outer' : List Scope}
    (houter : List.Forall₂ (SameNode p q) outer outer') :
    List.Forall₂ (List.Forall₂ (SameNode p q)) (x.chains outer) (y.chains outer') := by
  induction h generalizing outer outer' with
  | @intro x y node pairs left right _ ih =>
      have hinner {pairs : List (Scope × Scope)} {outer outer' : List Scope}
          (houter : List.Forall₂ (SameNode p q) outer outer')
          (ih : ∀ e ∈ pairs, ∀ {outer outer' : List Scope},
            List.Forall₂ (SameNode p q) outer outer' →
            List.Forall₂ (List.Forall₂ (SameNode p q)) (e.1.chains outer) (e.2.chains outer')) :
          List.Forall₂ (List.Forall₂ (SameNode p q))
            (Scope.chainsOf outer (pairs.map Prod.fst))
            (Scope.chainsOf outer' (pairs.map Prod.snd)) := by
        induction pairs with
        | nil => exact .nil
        | cons e rest ihrest =>
            obtain ⟨he, hrest⟩ := List.forall_mem_cons.1 ih
            rw [List.map_cons, List.map_cons, Scope.chainsOf, Scope.chainsOf]
            exact List.rel_append (he houter) (ihrest hrest)
      have hchain := List.Forall₂.cons node houter
      cases x with
      | mk start stop function lines inlinees =>
          cases y with
          | mk start' stop' function' lines' inlinees' =>
              obtain rfl : pairs.map Prod.fst = inlinees := left
              obtain rfl : pairs.map Prod.snd = inlinees' := right
              rw [Scope.chains, Scope.chains]
              exact .cons hchain (hinner hchain ih)

/-! ## Steps side by side -/

namespace Collect

variable {α β γ δ : Type} {good : α → β → Pools → Pools → Prop}

/-- Whether two pairs of pools go on behind two others, of which the first ones still cover the
second ones. -/
structure Goes (p q p' q' : Pools) : Prop where
  left : p.Extends p'
  right : q.Extends q'
  covers : p'.Covers q'

/-- Whether a run that is not refused ends with a value that fits the one of another run, or pools
are crowded. -/
def Ends (p q : Pools) (r : Except Fault α × Pools) (r' : Except Fault β × Pools)
    (good : α → β → Pools → Pools → Prop) : Prop :=
  match r, r' with
  | (.ok a, p'), (.ok b, q') => Goes p q p' q' ∧ good a b p' q'
  | (.ok _, p'), (.error _, q') => Crowded p' q'
  | (.error _, _), _ => True

/-- Whether a computation succeeds wherever another one does on pools that cover its own. -/
def Follows (p q : Pools) (x : Collect α) (y : Collect β) (good : α → β → Pools → Pools → Prop) :
    Prop :=
  Ends p q (x.run.run p) (y.run.run q) good

theorem Goes.refl (h : p.Covers q) : Goes p q p q := ⟨.refl p, .refl q, h⟩

theorem Goes.trans {p'' q'' : Pools} (h : Goes p q p' q') (h' : Goes p' q' p'' q'') :
    Goes p q p'' q'' :=
  ⟨h.left.trans h'.left, h.right.trans h'.right, h'.covers⟩

theorem Ends.trans {r : Except Fault α × Pools} {r' : Except Fault β × Pools}
    (hgoes : Goes p q p' q') (h : Ends p' q' r r' good) : Ends p q r r' good := by
  obtain ⟨outcome, p''⟩ := r
  obtain ⟨outcome', q''⟩ := r'
  cases outcome with
  | error e => trivial
  | ok a =>
      cases outcome' with
      | error e => exact h
      | ok b => exact ⟨hgoes.trans h.1, h.2⟩

theorem follows_pure {a : α} {b : β} (h : p.Covers q) (hab : good a b p q) :
    Follows p q (pure a) (pure b) good :=
  ⟨.refl h, hab⟩

theorem follows_throw {e : Fault} {y : Collect β} : Follows p q (throw e) y good := trivial

theorem follows_bind {x : Collect α} {y : Collect β} {f : α → Collect γ} {g : β → Collect δ}
    {good' : γ → δ → Pools → Pools → Prop} (hx : Follows p q x y good) (walks : ∀ a, Walks (f a))
    (hf : ∀ a b p' q', Goes p q p' q' → good a b p' q' → Follows p' q' (f a) (g b) good') :
    Follows p q (x >>= f) (y >>= g) good' := by
  rw [Follows, ExceptT.run_bind, StateT.run_bind, ExceptT.run_bind, StateT.run_bind]
  rw [Follows] at hx
  cases hrun : x.run.run p with
  | mk outcome p' =>
      cases hrun' : y.run.run q with
      | mk outcome' q' =>
          rw [hrun, hrun'] at hx
          cases outcome with
          | error e => trivial
          | ok a =>
              cases outcome' with
              | error e' =>
                  -- the second run has ended, and the first one can only pool more
                  have hmore := (walks a p').extends
                  show Ends p q ((f a).run.run p') (Except.error e', q') good'
                  cases hrest : (f a).run.run p' with
                  | mk outcome'' p'' =>
                      rw [hrest] at hmore
                      cases outcome'' with
                      | error e => trivial
                      | ok c => exact hx.mono hmore (.refl q')
              | ok b =>
                  obtain ⟨hgoes, hab⟩ := hx
                  exact Ends.trans hgoes (hf a b p' q' hgoes hab)

theorem follows_string (h : p.Covers q) (s : String) :
    Follows p q (string s) (string s) fun i j p' q' => SameString p' q' i j := by
  rw [Follows, run_string, run_string]
  cases hp : p.strings.insert? s with
  | none => trivial
  | some inserted =>
      obtain ⟨offset, strings⟩ := inserted
      have hstep : p.Step { p with strings } := .string hp
      have htexts : ∀ r ∈ q.strings.texts, r ∈ strings.texts :=
        fun r hr => (StringTable.mem_texts_of_insert? hp).2 (.inl (h.texts r hr))
      cases hq : q.strings.insert? s with
      | none =>
          -- the larger table has the string, and all those that leave no room for it in the other
          obtain ⟨hne, hnew, hfull⟩ := StringTable.insert?_eq_none hq
          have hsize := StringTable.size_add_le h.right.strings (h.left.step hstep).strings.sound
            htexts ((StringTable.mem_texts_of_insert? hp).2 (.inr ⟨rfl, hne⟩)) hnew
          have hpos := StringTable.length_encodeText_pos s
          refine .inl (Nat.le_trans ?_ hsize)
          have habsent : absent.toNat + 1 = UInt32.size := rfl
          omega
      | some inserted' =>
          obtain ⟨offset', strings'⟩ := inserted'
          have hstep' : q.Step { q with strings := strings' } := .string hq
          refine ⟨⟨hstep.extends, hstep'.extends, h.left.step hstep, h.right.step hstep', ?_⟩,
            s, StringTable.offset?_of_insert? hp, StringTable.offset?_of_insert? hq⟩
          intro r hr
          rcases (StringTable.mem_texts_of_insert? hq).1 hr with hr | hr
          · exact htexts r hr
          · exact (StringTable.mem_texts_of_insert? hp).2 (.inr hr)

theorem size_le_of_count {n : Nat} {what : Quantity} {e : Fault} (h : count n what = .error e) :
    UInt32.size ≤ n := by
  rw [count] at h
  split at h
  · cases h
  · exact Nat.not_lt.1 ‹_›

theorem follows_fileNumber {f g : FileRecord} (h : p.Covers q)
    (hcompDir : SameString p q f.compDir g.compDir)
    (hdirectory : SameString p q f.directory g.directory) (hname : SameString p q f.name g.name) :
    Follows p q (fileNumber f) (fileNumber g) fun i j p' q' => SameFile p' q' i j := by
  rw [Follows, run_fileNumber, run_fileNumber]
  obtain ⟨-, hfound⟩ := pooled_spec f p.files
  obtain ⟨-, hfound'⟩ := pooled_spec g q.files
  cases hp : count (pooled f p.files).1 .file with
  | error e => trivial
  | ok i =>
      cases hq : count (pooled g q.files).1 .file with
      | error e =>
          have hlt := (List.getElem?_eq_some_iff.1 hfound').1
          exact .inr (.inl (Nat.le_trans (size_le_of_count hq) (Nat.le_of_lt hlt)))
      | ok j =>
          rw [← count_eq_ok hp] at hfound
          rw [← count_eq_ok hq] at hfound'
          exact ⟨⟨(Pools.Step.file f).extends, (Pools.Step.file g).extends,
            h.left.step (.file f), h.right.step (.file g), h.texts⟩,
            f, g, hfound, hfound', hcompDir, hdirectory, hname⟩

theorem follows_file (h : p.Covers q) (name directory compDir : String) :
    Follows p q (file name directory compDir) (file name directory compDir)
      fun i j p' q' => SameFile p' q' i j := by
  rw [file_eq]
  refine follows_bind (follows_string h compDir)
    (fun _ => walks_bind (walks_string _) fun _ => walks_bind (walks_string _) fun _ =>
      walks_fileNumber _) ?_
  intro i₁ j₁ p₁ q₁ hgoes₁ hcompDir
  refine follows_bind (follows_string hgoes₁.covers directory)
    (fun _ => walks_bind (walks_string _) fun _ => walks_fileNumber _) ?_
  intro i₂ j₂ p₂ q₂ hgoes₂ hdirectory
  refine follows_bind (follows_string hgoes₂.covers name) (fun _ => walks_fileNumber _) ?_
  intro i₃ j₃ p₃ q₃ hgoes₃ hname
  have hgoes := hgoes₂.trans hgoes₃
  exact follows_fileNumber hgoes₃.covers (hcompDir.mono hgoes.left hgoes.right)
    (hdirectory.mono hgoes₃.left hgoes₃.right) hname

theorem follows_functionNumber {f g : FunctionKey} (h : p.Covers q)
    (hname : SameString p q f.name g.name) (hentry : f.entry = g.entry)
    (hlanguage : f.language = g.language) :
    Follows p q (functionNumber f) (functionNumber g) fun i j p' q' => SameFunction p' q' i j := by
  rw [Follows, run_functionNumber, run_functionNumber]
  obtain ⟨-, hfound⟩ := pooled_spec f p.functions
  obtain ⟨-, hfound'⟩ := pooled_spec g q.functions
  cases hp : count (pooled f p.functions).1 .function with
  | error e => trivial
  | ok i =>
      cases hq : count (pooled g q.functions).1 .function with
      | error e =>
          have hlt := (List.getElem?_eq_some_iff.1 hfound').1
          exact .inr (.inr (Nat.le_trans (size_le_of_count hq) (Nat.le_of_lt hlt)))
      | ok j =>
          rw [← count_eq_ok hp] at hfound
          rw [← count_eq_ok hq] at hfound'
          exact ⟨⟨(Pools.Step.function f).extends, (Pools.Step.function g).extends,
            h.left.step (.function f), h.right.step (.function g), h.texts⟩,
            f, g, hfound, hfound', hname, hentry, hlanguage⟩

theorem follows_function (h : p.Covers q) (name compDir : String) (entry : UInt64)
    (language : Language) :
    Follows p q (function name compDir entry language) (function name compDir entry language)
      fun i j p' q' => SameFunction p' q' i j := by
  rw [function_eq]
  refine follows_bind (follows_string h name)
    (fun _ => walks_bind (walks_string _) fun _ => walks_functionNumber _) ?_
  intro i₁ j₁ p₁ q₁ hgoes₁ hname
  refine follows_bind (follows_string hgoes₁.covers compDir) (fun _ => walks_functionNumber _) ?_
  intro i₂ j₂ p₂ q₂ hgoes₂ _
  exact follows_functionNumber hgoes₂.covers (hname.mono hgoes₂.left hgoes₂.right) rfl rfl

theorem follows_line (h : p.Covers q) (compDir : String) (l : LineInfo) :
    Follows p q (line compDir l) (line compDir l)
      fun r r' p' q' => SameSized (SameFile p' q') r r' := by
  rw [line]
  have hwalks : ∀ i : UInt32, Walks (if l.line.toNat < UInt32.size then
      return ⟨⟨l.address, l.line.toUInt32, i⟩, l.size.map (addSaturating l.address)⟩
      else throw (.tooLarge .line) : Collect SizedRow) := by
    intro i
    split
    · exact walks_pure _
    · exact walks_throw _
  refine follows_bind (follows_file h _ _ compDir) hwalks ?_
  intro i j p' q' hgoes hfile
  split
  · exact follows_pure hgoes.covers ⟨⟨rfl, rfl, hfile⟩, rfl⟩
  · exact follows_throw

theorem follows_lines (h : p.Covers q) (compDir : String) (lines : List LineInfo) :
    Follows p q (lines.mapM (line compDir)) (lines.mapM (line compDir))
      fun rows rows' p' q' => List.Forall₂ (SameSized (SameFile p' q')) rows rows' := by
  induction lines generalizing p q with
  | nil =>
      rw [List.mapM_nil]
      exact follows_pure h .nil
  | cons l lines ih =>
      rw [List.mapM_cons]
      refine follows_bind (follows_line h compDir l)
        (fun _ => walks_bind (walks_lines compDir lines) fun _ => walks_pure _) ?_
      intro r r' p₁ q₁ hgoes₁ hr
      refine follows_bind (ih hgoes₁.covers) (fun _ => walks_pure _) ?_
      intro rows rows' p₂ q₂ hgoes₂ hrows
      exact follows_pure hgoes₂.covers
        (.cons (hr.imp fun _ _ hf => hf.mono hgoes₂.left hgoes₂.right) hrows)

mutual

theorem follows_scope {p q : Pools} (h : p.Covers q) (compDir : String) (f : Debug.Function) :
    Follows p q (scope compDir f) (scope compDir f) fun x y p' q' => SameTree p' q' x y := by
  obtain ⟨address, size, name, functionDir, lines, inlinees, isInline⟩ := f
  rw [scope]
  refine follows_bind (follows_function h _ _ _ _)
    (fun _ => walks_bind (walks_lines _ _) fun _ => walks_bind (walks_scopes _ _ _ _) fun _ =>
      walks_pure _) ?_
  intro i j p₁ q₁ hgoes₁ hfunction
  refine follows_bind (follows_lines hgoes₁.covers compDir lines)
    (fun _ => walks_bind (walks_scopes _ _ _ _) fun _ => walks_pure _) ?_
  intro rows rows' p₂ q₂ hgoes₂ hrows
  refine follows_bind (follows_scopes hgoes₂.covers compDir address _ inlinees)
    (fun _ => walks_pure _) ?_
  intro children children' p₃ q₃ hgoes₃ hchildren
  have hgoes := hgoes₂.trans hgoes₃
  have hsorted := forall₂_mergeSort (r := fun a b => decide (a.start ≤ b.start))
    (s := fun a b => decide (a.start ≤ b.start)) hchildren
    fun x x' y y' hxy hxy' => by rw [hxy.node.start, hxy'.node.start]
  obtain ⟨pairs, hleft, hright, hpairs⟩ := exists_zip hsorted
  refine follows_pure hgoes₃.covers (.intro ?_ pairs hleft hright hpairs)
  exact ⟨rfl, rfl, hfunction.mono hgoes.left hgoes.right, rows, rows',
    hrows.imp fun _ _ hr => hr.imp fun _ _ hf => hf.mono hgoes₃.left hgoes₃.right, rfl, rfl⟩

theorem follows_scopes {p q : Pools} (h : p.Covers q) (compDir : String) (start stop : UInt64)
    (l : List Debug.Function) :
    Follows p q (scopes compDir start stop l) (scopes compDir start stop l)
      fun xs ys p' q' => List.Forall₂ (SameTree p' q') xs ys := by
  cases l with
  | nil =>
      rw [scopes]
      exact follows_pure h .nil
  | cons f rest =>
      rw [scopes]
      split
      · refine follows_bind (follows_scope h compDir f)
          (fun _ => walks_bind (walks_scopes _ _ _ _) fun _ => walks_pure _) ?_
        intro x y p₁ q₁ hgoes₁ hxy
        refine follows_bind (follows_scopes hgoes₁.covers compDir start stop rest)
          (fun _ => walks_pure _) ?_
        intro xs ys p₂ q₂ hgoes₂ hrest
        exact follows_pure hgoes₂.covers (.cons (hxy.mono hgoes₂.left hgoes₂.right) hrest)
      · exact follows_scopes h compDir start stop rest

end

end Collect

/-! ## Builders side by side -/

structure SameOuter (p q : Pools) (o o' : OuterScope) : Prop where
  tree : SameTree p q o.scope o'.scope
  name : o.name = o'.name
  fromSymbol : o.fromSymbol = o'.fromSymbol

theorem SameOuter.mono {o o' : OuterScope} (h : SameOuter p q o o') (hp : p.Extends p')
    (hq : q.Extends q') : SameOuter p' q' o o' :=
  { h with tree := h.tree.mono hp hq }

namespace Builder

/-- Whether a builder holds the same scopes as another one, which has pooled no more. -/
structure Parallels (b c : Builder) : Prop where
  covers : b.pools.Covers c.pools
  loadAddress : b.loadAddress = c.loadAddress
  outer : List.Forall₂ (SameOuter b.pools c.pools) b.outer c.outer

theorem follows_step? (h : p.Covers q) {i : Item} {step : Collect OuterScope}
    (hstep : step? i = some step) :
    Collect.Follows p q step step fun o o' p' q' => SameOuter p' q' o o' := by
  cases i with
  | function f =>
      rw [step?] at hstep
      split at hstep
      · cases hstep
      · rw [← Option.some.inj hstep]
        refine Collect.follows_bind (Collect.follows_scope h _ f) (fun _ => Collect.walks_pure _) ?_
        intro x y p' q' hgoes hxy
        exact Collect.follows_pure hgoes.covers ⟨hxy, rfl, rfl⟩
  | symbol s =>
      rw [step?] at hstep
      split at hstep
      · cases hstep
      · split at hstep
        · cases hstep
        · rw [← Option.some.inj hstep]
          refine Collect.follows_bind (Collect.follows_function h _ _ _ _)
            (fun _ => Collect.walks_pure _) ?_
          intro x y p' q' hgoes hxy
          refine Collect.follows_pure hgoes.covers ⟨.intro ?_ [] rfl rfl (by simp), rfl, rfl⟩
          have hempty (start stop : UInt64) : [] = LineTable.settle start stop [] := by
            simp [LineTable.settle, LineTable.firstPerAddress, LineTable.settleFrom]
          exact ⟨rfl, rfl, hxy, [], [], .nil, hempty _ _, hempty _ _⟩

variable {b b' c c' : Builder} {i : Item} {e : Fault}

/-- Where both builders have room for an item, they stay the same. -/
theorem Parallels.add (h : b.Parallels c) (hb : b.add i = (.ok (), b')) :
    (∃ c', c.add i = (.ok (), c') ∧ b'.Parallels c') ∨
      ∃ e c', c.add i = (.error e, c') ∧ Crowded b'.pools c'.pools := by
  rw [add_eq] at hb ⊢
  cases hstep : step? i with
  | none =>
      rw [hstep] at hb
      rw [← (Prod.mk.inj hb).2]
      exact .inl ⟨c, rfl, h⟩
  | some step =>
      have hfollows := follows_step? h.covers hstep
      rw [hstep] at hb
      rw [Option.map_some, Option.getD_some, collect] at hb ⊢
      unfold Collect.Follows Collect.Ends at hfollows
      split at hfollows
      · rename_i o p' o' q' hrun hrun'
        rw [hrun] at hb
        rw [hrun', ← (Prod.mk.inj hb).2]
        obtain ⟨hgoes, ho⟩ := hfollows
        refine .inl ⟨_, rfl, hgoes.covers, h.loadAddress, List.rel_append ?_ (.cons ho .nil)⟩
        exact h.outer.imp fun _ _ hsame => hsame.mono hgoes.left hgoes.right
      · rename_i o p' e q' hrun hrun'
        rw [hrun] at hb
        rw [hrun', ← (Prod.mk.inj hb).2]
        exact .inr ⟨e, _, rfl, hfollows⟩
      · rename_i e p' hrun
        rw [hrun] at hb
        cases hb

/-- What a refused item leaves behind does not matter. -/
theorem Parallels.refused (h : b.Parallels c) (hb : b.add i = (.error e, b')) :
    b'.Parallels c := by
  have hsteps := b.steps_add i
  rw [hb] at hsteps
  obtain ⟨pools, rfl⟩ := add_refused hb
  exact ⟨h.covers.steps hsteps, h.loadAddress,
    h.outer.imp fun _ _ hsame => hsame.mono hsteps.extends (.refl _)⟩

def taken (b : Builder) : List Item → List Item
  | [] => []
  | i :: rest =>
    match b.add i with
    | (.ok (), b') => i :: b'.taken rest
    | (.error _, b') => b'.taken rest

/-- Adding the items that another builder has taken leads to the same scopes, unless one of the
builders has become too large to be written. -/
theorem Parallels.addEach (h : b.Parallels c) (items : List Item) :
    (addAll Builder.add c (b.taken items) = (.ok (), c.addEach (b.taken items)) ∧
      (b.addEach items).Parallels (c.addEach (b.taken items))) ∨
      Crowded (b.addEach items).pools (c.addEach (b.taken items)).pools := by
  induction items generalizing b c with
  | nil => exact .inl ⟨rfl, h⟩
  | cons i rest ih =>
      have hcons (b : Builder) (i : Item) (items : List Item) :
          b.addEach (i :: items) = (b.add i).2.addEach items := rfl
      cases hb : b.add i with
      | mk outcome b' =>
          rw [hcons, taken, hb]
          cases outcome with
          | error e => exact ih (h.refused hb)
          | ok =>
              dsimp only
              rw [hcons, addAll]
              rcases h.add hb with ⟨c', hc, hsame⟩ | ⟨e, c', hc, hcrowded⟩
              · rw [hc]
                exact ih hsame
              · rw [hc]
                exact .inr (hcrowded.mono (b'.steps_addEach rest).extends
                  (c'.steps_addEach (b'.taken rest)).extends)

end Builder

end Postmortem.SymCache
