import Postmortem.Proofs.SymCache.Items

/-!
# What references lead to

All that a builder keeps refers to what is there: files and functions to strings, and scopes to
functions and files.  A step that is refused in the middle leaves pooled values behind, which refer
to what is there as well, so this holds after any sequence of additions.
-/

set_option autoImplicit false

namespace Postmortem.SymCache

open Postmortem.Debug (LineInfo Symbol)

namespace Pools

def HasString (p : Pools) (offset : UInt32) : Prop :=
  ∃ s, StringTable.Holds p.strings.toBytes offset s

def HasFile (p : Pools) (file : UInt32) : Prop := file = absent ∨ file.toNat < p.files.length

structure Whole (p : Pools) : Prop where
  strings : p.strings.Sound
  files : ∀ f ∈ p.files, p.HasString f.compDir ∧ p.HasString f.directory ∧ p.HasString f.name
  functions : ∀ f ∈ p.functions, p.HasString f.name ∧ p.HasString f.compDir

variable {p p' : Pools}

theorem HasString.mono {offset : UInt32} (h : p.HasString offset) (hp : p.Grows p') :
    p'.HasString offset := by
  obtain ⟨s, hs⟩ := h
  exact ⟨s, hs.mono hp.strings⟩

theorem HasFile.mono {file : UInt32} (h : p.HasFile file) (hp : p.Grows p') : p'.HasFile file :=
  h.imp_right fun hlt => Nat.lt_of_lt_of_le hlt hp.files.length_le

theorem whole_empty : Whole {} := ⟨StringTable.sound_empty, by simp, by simp⟩

theorem Whole.withStrings (h : p.Whole) {strings : StringTable} (hstrings : strings.Sound)
    (hgrown : p.strings.toBytes <+: strings.toBytes) :
    p.Grows { p with strings } ∧ Whole { p with strings } := by
  have hgrows : p.Grows { p with strings } :=
    ⟨hgrown, List.prefix_refl _, List.prefix_refl _, fun _ => hstrings⟩
  refine ⟨hgrows, hstrings, ?_, ?_⟩
  · intro f hf
    obtain ⟨hcompDir, hdirectory, hname⟩ := h.files f hf
    exact ⟨hcompDir.mono hgrows, hdirectory.mono hgrows, hname.mono hgrows⟩
  · intro f hf
    obtain ⟨hname, hcompDir⟩ := h.functions f hf
    exact ⟨hname.mono hgrows, hcompDir.mono hgrows⟩

theorem mem_pooled {α : Type} [BEq α] {a x : α} {pool : List α} (h : x ∈ (pooled a pool).2) :
    x ∈ pool ∨ x = a := by
  rw [pooled] at h
  split at h
  · exact .inl h
  · exact (List.mem_append.1 h).imp_right List.mem_singleton.1

theorem Whole.withFile (h : p.Whole) {f : FileRecord}
    (hf : p.HasString f.compDir ∧ p.HasString f.directory ∧ p.HasString f.name) :
    p.Grows { p with files := (pooled f p.files).2 } ∧
      Whole { p with files := (pooled f p.files).2 } := by
  refine ⟨⟨List.prefix_refl _, (pooled_spec f p.files).1, List.prefix_refl _, id⟩, h.strings, ?_,
    h.functions⟩
  intro g hg
  rcases mem_pooled hg with hg | rfl
  · exact h.files g hg
  · exact hf

theorem Whole.withFunction (h : p.Whole) {f : FunctionKey}
    (hf : p.HasString f.name ∧ p.HasString f.compDir) :
    p.Grows { p with functions := (pooled f p.functions).2 } ∧
      Whole { p with functions := (pooled f p.functions).2 } := by
  refine ⟨⟨List.prefix_refl _, List.prefix_refl _, (pooled_spec f p.functions).1, id⟩, h.strings,
    h.files, ?_⟩
  intro g hg
  rcases mem_pooled hg with hg | rfl
  · exact h.functions g hg
  · exact hf

end Pools

inductive Scope.Whole (p : Pools) : Scope → Prop where
  | intro {s : Scope} (function : s.function.toNat < p.functions.length)
      (files : ∀ r ∈ s.lines, p.HasFile r.file) (lines : LineTable.Increasing s.lines)
      (inlinees : ∀ x ∈ s.inlinees, Whole p x) : Whole p s

namespace Scope.Whole

variable {p p' : Pools} {s : Scope}

theorem function_lt (h : s.Whole p) : s.function.toNat < p.functions.length := by
  cases h
  assumption

theorem files (h : s.Whole p) : ∀ r ∈ s.lines, p.HasFile r.file := by
  cases h
  assumption

theorem lines (h : s.Whole p) : LineTable.Increasing s.lines := by
  cases h
  assumption

theorem inlinees (h : s.Whole p) : ∀ x ∈ s.inlinees, x.Whole p := by
  cases h
  assumption

theorem mono (h : s.Whole p) (hp : p.Grows p') : s.Whole p' := by
  induction h with
  | intro function files lines _ ih =>
      exact .intro (Nat.lt_of_lt_of_le function hp.functions.length_le)
        (fun r hr => (files r hr).mono hp) lines ih

end Scope.Whole

mutual

theorem Scope.Whole.of_mem_chains {p : Pools} {s x : Scope} {outer chain : List Scope}
    (h : s.Whole p) (hchain : chain ∈ chains outer s) (hx : x ∈ chain) :
    x ∈ outer ∨ x.Whole p := by
  obtain ⟨start, stop, function, lines, inlinees⟩ := s
  have hcons : x ∈ (⟨start, stop, function, lines, inlinees⟩ : Scope) :: outer →
      x ∈ outer ∨ x.Whole p := by
    intro hx
    rcases List.mem_cons.1 hx with rfl | hx
    · exact .inr h
    · exact .inl hx
  rw [chains] at hchain
  rcases List.mem_cons.1 hchain with rfl | hchain
  · exact hcons hx
  · rcases of_mem_chainsOf h.inlinees hchain hx with hx | hx
    · exact hcons hx
    · exact .inr hx

theorem Scope.Whole.of_mem_chainsOf {p : Pools} {l : List Scope} {x : Scope}
    {outer chain : List Scope} (h : ∀ s ∈ l, s.Whole p) (hchain : chain ∈ chainsOf outer l)
    (hx : x ∈ chain) : x ∈ outer ∨ x.Whole p := by
  cases l with
  | nil => simp [chainsOf] at hchain
  | cons s rest =>
      obtain ⟨hs, hrest⟩ := List.forall_mem_cons.1 h
      rw [chainsOf] at hchain
      rcases List.mem_append.1 hchain with hchain | hchain
      · exact hs.of_mem_chains hchain hx
      · exact of_mem_chainsOf hrest hchain hx

end

namespace LineTable

theorem file_settleFrom {stop : UInt64} {last : Option LineRow} {rows : List SizedRow}
    {x : LineRow} (h : x ∈ settleFrom stop last rows) :
    x.file = absent ∨ ∃ r ∈ rows, x.file = r.row.file := by
  induction rows generalizing last with
  | nil => simp [settleFrom] at h
  | cons r rest ih =>
      rw [settleFrom_cons] at h
      rcases List.mem_append.1 h with h | h
      · rcases List.mem_append.1 h with h | h
        · exact .inr ⟨r, List.mem_cons_self .., by rw [mem_keptOf h]⟩
        · obtain ⟨stop, -, -, -, rfl⟩ := gap?_eq_some (Option.mem_toList.1 h)
          exact .inl rfl
      · refine (ih h).imp_right ?_
        rintro ⟨s, hs, hfile⟩
        exact ⟨s, List.mem_cons_of_mem _ hs, hfile⟩

theorem file_settle {start stop : UInt64} {rows : List SizedRow} {x : LineRow}
    (h : x ∈ settle start stop rows) : x.file = absent ∨ ∃ r ∈ rows, x.file = r.row.file := by
  refine (file_settleFrom h).imp_right ?_
  rintro ⟨r, hr, hfile⟩
  rw [firstPerAddress_eq (sorted_mergeSort _ _)] at hr
  have hr := List.mem_mergeSort.1 ((firsts_sublist _ _).subset hr)
  exact ⟨r, (List.mem_filter.1 hr).1, hfile⟩

/-- Clipping takes files over from the table. -/
theorem file_clip {start stop : UInt64} {rows : List LineRow} {x : LineRow}
    (h : x ∈ clip start stop rows) : ∃ r ∈ rows, x.file = r.file := by
  have hinside {x : LineRow}
      (hx : x ∈ (rows.dropWhile (·.address ≤ start)).takeWhile (·.address < stop)) :
      ∃ r ∈ rows, x.file = r.file :=
    ⟨x, ((List.takeWhile_sublist _).trans (List.dropWhile_sublist _)).subset hx, rfl⟩
  rw [clip] at h
  split at h
  · rename_i r hr
    rcases List.mem_cons.1 h with rfl | h
    · exact ⟨r, (List.takeWhile_sublist _).subset (List.mem_of_getLast? hr), rfl⟩
    · exact hinside h
  · exact hinside h

end LineTable

/-! ## Steps -/

namespace Collect

variable {α β : Type} {p : Pools}

/-- Whether a step that is begun with certain pools keeps them whole, however it ends, and gives a
good value unless it is refused. -/
def Keeps (p : Pools) (x : Collect α) (good : α → Pools → Prop) : Prop :=
  match x.run.run p with
  | (.ok a, p') => p.Grows p' ∧ p'.Whole ∧ good a p'
  | (.error _, p') => p.Grows p' ∧ p'.Whole

variable {good : α → Pools → Prop}

theorem keeps_pure {a : α} (hp : p.Whole) (ha : good a p) : Keeps p (pure a) good :=
  ⟨.refl p, hp, ha⟩

theorem keeps_throw {e : Fault} (hp : p.Whole) : Keeps p (throw e) good := ⟨.refl p, hp⟩

theorem keeps_bind {x : Collect α} {f : α → Collect β} {good' : β → Pools → Prop}
    (hx : Keeps p x good)
    (hf : ∀ a p', p.Grows p' → p'.Whole → good a p' → Keeps p' (f a) good') :
    Keeps p (x >>= f) good' := by
  rw [Keeps, ExceptT.run_bind, StateT.run_bind]
  rw [Keeps] at hx
  cases hrun : x.run.run p with
  | mk outcome p' =>
      rw [hrun] at hx
      cases outcome with
      | error e => exact hx
      | ok a =>
          -- what the first step has pooled stays if the second one is refused
          obtain ⟨hgrown, hp', ha⟩ := hx
          have hrest := hf a p' hgrown hp' ha
          rw [Keeps] at hrest
          show match (f a).run.run p' with
            | (.ok b, p'') => p.Grows p'' ∧ p''.Whole ∧ good' b p''
            | (.error _, p'') => p.Grows p'' ∧ p''.Whole
          cases hrun' : (f a).run.run p' with
          | mk outcome' p'' =>
              rw [hrun'] at hrest
              cases outcome' with
              | error e => exact ⟨hgrown.trans hrest.1, hrest.2⟩
              | ok b => exact ⟨hgrown.trans hrest.1, hrest.2⟩

theorem keeps_get {f : Pools → Collect α} (h : Keeps p (f p) good) : Keeps p (get >>= f) good := h

theorem keeps_set {q : Pools} (hgrown : p.Grows q) (hq : q.Whole) :
    Keeps p (set q) fun _ p' => p' = q :=
  ⟨hgrown, hq, rfl⟩

theorem keeps_count {n : Nat} {what : Quantity} (hp : p.Whole) {good : UInt32 → Pools → Prop}
    (hn : ∀ i : UInt32, i.toNat = n → good i p) : Keeps p (count n what) good := by
  cases hcount : count n what with
  | error e => exact ⟨.refl p, hp⟩
  | ok i => exact ⟨.refl p, hp, hn i (count_eq_ok hcount)⟩

theorem keeps_string (hp : p.Whole) (s : String) :
    Keeps p (string s) fun offset p' => p'.HasString offset := by
  rw [string]
  refine keeps_get ?_
  cases hinsert : p.strings.insert? s with
  | none => exact keeps_throw hp
  | some inserted =>
      obtain ⟨offset, strings⟩ := inserted
      obtain ⟨hsound, hgrown, hholds⟩ := StringTable.insert?_sound hp.strings hinsert
      obtain ⟨hgrows, hwhole⟩ := hp.withStrings hsound hgrown
      refine keeps_bind (keeps_set hgrows hwhole) ?_
      rintro _ p' - hp' rfl
      exact keeps_pure hp' ⟨s, hholds⟩

theorem keeps_file (hp : p.Whole) (name directory compDir : String) :
    Keeps p (file name directory compDir) fun i p' => i.toNat < p'.files.length := by
  rw [file]
  refine keeps_bind (keeps_string hp compDir) ?_
  intro compDirAt p₁ _ hp₁ hcompDir
  refine keeps_bind (keeps_string hp₁ directory) ?_
  intro directoryAt p₂ hgrown₂ hp₂ hdirectory
  refine keeps_bind (keeps_string hp₂ name) ?_
  intro nameAt p₃ hgrown₃ hp₃ hname
  refine keeps_get ?_
  obtain ⟨hgrown, hwhole⟩ := hp₃.withFile (f := ⟨compDirAt, directoryAt, nameAt⟩)
    ⟨(hcompDir.mono hgrown₂).mono hgrown₃, hdirectory.mono hgrown₃, hname⟩
  refine keeps_bind (keeps_set hgrown hwhole) ?_
  rintro _ p₄ - hp₄ rfl
  refine keeps_count hp₄ fun i hi => ?_
  rw [hi]
  exact (List.getElem?_eq_some_iff.1 (pooled_spec _ p₃.files).2).1

theorem keeps_function (hp : p.Whole) (name compDir : String) (entry : UInt64)
    (language : Language) :
    Keeps p (function name compDir entry language) fun i p' => i.toNat < p'.functions.length := by
  rw [function]
  refine keeps_bind (keeps_string hp name) ?_
  intro nameAt p₁ _ hp₁ hname
  refine keeps_bind (keeps_string hp₁ compDir) ?_
  intro compDirAt p₂ hgrown₂ hp₂ hcompDir
  refine keeps_get ?_
  obtain ⟨hgrown, hwhole⟩ := hp₂.withFunction (f := ⟨nameAt, compDirAt, entry, language.code⟩)
    ⟨hname.mono hgrown₂, hcompDir⟩
  refine keeps_bind (keeps_set hgrown hwhole) ?_
  rintro _ p₃ - hp₃ rfl
  refine keeps_count hp₃ fun i hi => ?_
  rw [hi]
  exact (List.getElem?_eq_some_iff.1 (pooled_spec _ p₂.functions).2).1

theorem keeps_line (hp : p.Whole) (compDir : String) (l : LineInfo) :
    Keeps p (line compDir l) fun r p' => p'.HasFile r.row.file := by
  rw [line]
  refine keeps_bind (keeps_file hp ..) ?_
  intro file p' _ hp' hfile
  split
  · exact keeps_pure hp' (.inr hfile)
  · exact keeps_throw hp'

theorem keeps_lines (hp : p.Whole) (compDir : String) (lines : List LineInfo) :
    Keeps p (lines.mapM (line compDir)) fun rows p' => ∀ r ∈ rows, p'.HasFile r.row.file := by
  induction lines generalizing p with
  | nil =>
      rw [List.mapM_nil]
      exact keeps_pure hp (by simp)
  | cons l lines ih =>
      rw [List.mapM_cons]
      refine keeps_bind (keeps_line hp compDir l) ?_
      intro r p₁ _ hp₁ hr
      refine keeps_bind (ih hp₁) ?_
      intro rows p₂ hgrown₂ hp₂ hrows
      exact keeps_pure hp₂ (List.forall_mem_cons.2 ⟨hr.mono hgrown₂, hrows⟩)

mutual

theorem keeps_scope {p : Pools} (hp : p.Whole) (compDir : String) (f : Debug.Function) :
    Keeps p (scope compDir f) fun s p' => s.Whole p' := by
  obtain ⟨address, size, name, functionDir, lines, inlinees, isInline⟩ := f
  rw [scope]
  refine keeps_bind (keeps_function hp ..) ?_
  intro i p₁ _ hp₁ hi
  refine keeps_bind (keeps_lines hp₁ compDir lines) ?_
  intro rows p₂ hgrown₂ hp₂ hrows
  refine keeps_bind (keeps_scopes hp₂ compDir address (addSaturating address size) inlinees) ?_
  intro children p₃ hgrown₃ hp₃ hchildren
  refine keeps_pure hp₃ (.intro ?_ ?_ (LineTable.increasing_settle _ _ _) ?_)
  · exact Nat.lt_of_lt_of_le hi (hgrown₂.trans hgrown₃).functions.length_le
  · intro r hr
    rcases LineTable.file_settle hr with habsent | ⟨row, hrow, hfile⟩
    · exact .inl habsent
    · rw [hfile]
      exact (hrows row hrow).mono hgrown₃
  · intro x hx
    exact hchildren x (List.mem_mergeSort.1 hx)

theorem keeps_scopes {p : Pools} (hp : p.Whole) (compDir : String) (start stop : UInt64)
    (l : List Debug.Function) :
    Keeps p (scopes compDir start stop l) fun scopes p' => ∀ s ∈ scopes, s.Whole p' := by
  cases l with
  | nil =>
      rw [scopes]
      exact keeps_pure hp (by simp)
  | cons f rest =>
      rw [scopes]
      split
      · refine keeps_bind (keeps_scope hp compDir f) ?_
        intro here p₁ _ hp₁ hhere
        refine keeps_bind (keeps_scopes hp₁ compDir start stop rest) ?_
        intro others p₂ hgrown₂ hp₂ hothers
        exact keeps_pure hp₂ (List.forall_mem_cons.2 ⟨hhere.mono hgrown₂, hothers⟩)
      · exact keeps_scopes hp compDir start stop rest

end

end Collect

/-! ## Builders -/

namespace Builder

structure Whole (b : Builder) : Prop where
  pools : b.pools.Whole
  scopes : ∀ o ∈ b.outer, o.scope.Whole b.pools

theorem whole_empty : Whole {} := ⟨Pools.whole_empty, by simp⟩

structure GoesOn (b b' : Builder) : Prop where
  grown : b.pools.Grows b'.pools
  whole : b'.Whole

theorem Whole.goesOn {b : Builder} (h : b.Whole) : GoesOn b b := ⟨.refl _, h⟩

theorem Whole.collect {b : Builder} (h : b.Whole) {step : Collect OuterScope}
    (hstep : Collect.Keeps b.pools step fun o p' => o.scope.Whole p') :
    GoesOn b (b.collect step).2 := by
  rw [Builder.collect]
  rw [Collect.Keeps] at hstep
  split at hstep
  · rename_i o p' hrun
    obtain ⟨hgrown, hp', ho⟩ := hstep
    rw [hrun]
    refine ⟨hgrown, hp', ?_⟩
    intro x hx
    rcases List.mem_append.1 hx with hx | hx
    · exact (h.scopes x hx).mono hgrown
    · rw [List.mem_singleton.1 hx]
      exact ho
  · rename_i e p' hrun
    obtain ⟨hgrown, hp'⟩ := hstep
    rw [hrun]
    exact ⟨hgrown, hp', fun x hx => (h.scopes x hx).mono hgrown⟩

theorem Whole.addFunction {b : Builder} (h : b.Whole) (f : Debug.Function) :
    GoesOn b (b.addFunction f).2 := by
  rw [Builder.addFunction]
  split
  · exact h.goesOn
  · refine h.collect (Collect.keeps_bind (Collect.keeps_scope h.pools ..) ?_)
    intro s p' _ hp' hs
    exact Collect.keeps_pure hp' hs

theorem Whole.addSymbol {b : Builder} (h : b.Whole) (s : Symbol) :
    GoesOn b (b.addSymbol s).2 := by
  rw [Builder.addSymbol]
  split
  · exact h.goesOn
  · split
    · exact h.goesOn
    · refine h.collect (Collect.keeps_bind (Collect.keeps_function h.pools ..) ?_)
      intro i p' _ hp' hi
      exact Collect.keeps_pure hp' (.intro hi (by simp) .nil (by simp))

/-- Whether an addition succeeds or is refused, what is collected stays whole. -/
theorem Whole.add {b : Builder} (h : b.Whole) (i : Item) : GoesOn b (b.add i).2 := by
  cases i with
  | function f => exact h.addFunction f
  | symbol s => exact h.addSymbol s

def addEach (b : Builder) (items : List Item) : Builder :=
  items.foldl (fun b i => (b.add i).2) b

theorem Whole.addEach {b : Builder} (h : b.Whole) (items : List Item) :
    (b.addEach items).Whole := by
  induction items generalizing b with
  | nil => exact h
  | cons i rest ih => exact ih (h.add i).whole

theorem addAll_keeps {α : Type} {P : Builder → Prop}
    {add : Builder → α → Except Fault Unit × Builder} (hadd : ∀ b, P b → ∀ a, P (add b a).2)
    {b : Builder} (h : P b) (items : List α) : P (b.addAll add items).2 := by
  induction items generalizing b with
  | nil => exact h
  | cons a rest ih =>
      have hfirst := hadd b h a
      rw [Builder.addAll]
      split
      · rename_i b' hok
        rw [hok] at hfirst
        exact ih hfirst
      · rename_i e b' herror
        rw [herror] at hfirst
        exact hfirst

theorem Whole.addObject {b : Builder} (h : b.Whole) (o : Debug.Object) :
    (b.addObject o).2.Whole := by
  have hfunctions := addAll_keeps (P := Whole) (fun _ hb f => (hb.addFunction f).whole)
    (b := { b with arch := o.arch, debugId := o.debugId, loadAddress := o.loadAddress })
    ⟨h.pools, h.scopes⟩ o.functions
  rw [Builder.addObject]
  split
  · rename_i b' hok
    rw [hok] at hfunctions
    exact addAll_keeps (P := Whole) (fun _ hb s => (hb.addSymbol s).whole) hfunctions _
  · exact hfunctions

/-- Whether some additions and settings, any of which may have been refused, lead to a builder. -/
inductive Reached : Builder → Prop where
  | empty : Reached {}
  | function {b : Builder} (f : Debug.Function) : Reached b → Reached (b.addFunction f).2
  | symbol {b : Builder} (s : Symbol) : Reached b → Reached (b.addSymbol s).2
  | object {b : Builder} (o : Debug.Object) : Reached b → Reached (b.addObject o).2
  | settings {b : Builder} (arch : Arch) (debugId : DebugId) (loadAddress : UInt64) :
    Reached b → Reached { b with arch, debugId, loadAddress }

theorem Reached.whole {b : Builder} (h : b.Reached) : b.Whole := by
  induction h with
  | empty => exact whole_empty
  | function f _ ih => exact (ih.addFunction f).whole
  | symbol s _ ih => exact (ih.addSymbol s).whole
  | object o _ ih => exact ih.addObject o
  | settings _ _ _ _ ih => exact ⟨ih.pools, ih.scopes⟩

theorem Reached.add {b : Builder} (h : b.Reached) (i : Item) : (b.add i).2.Reached := by
  cases i with
  | function f => exact h.function f
  | symbol s => exact h.symbol s

theorem Reached.addEach {b : Builder} (h : b.Reached) (items : List Item) :
    (b.addEach items).Reached := by
  induction items generalizing b with
  | nil => exact h
  | cons i rest ih => exact ih (h.add i)

theorem mem_outer_of_range {b : Builder} {x : Claim OuterScope} (hx : x ∈ b.ranges) :
    x.value ∈ b.outer := by
  have hdivides := b.divides_ranges
  have hfirst : x.Covers x.start := ⟨UInt64.le_refl _, hdivides.disjoint.nonempty x hx⟩
  have hmem := List.mem_of_find?_eq_some ((owner_of_range hx).2.2 x.start hfirst)
  obtain ⟨o, ho, hclaim⟩ := List.mem_map.1 (List.mem_mergeSort.1 hmem)
  obtain rfl : o = x.value := congrArg Claim.value hclaim
  exact (List.mem_filter.1 ho).1

end Builder

end Postmortem.SymCache
