import Mathlib
import Postmortem.Proofs.SymCache.StoredCache
import Postmortem.Proofs.SymCache.TableLookup

/-!
# What lookups find

A cache that is written from functions and symbols, and read back, finds for each address the item
that wins there: the calls inlined at the address, innermost first, and the line of each of them.
-/

set_option autoImplicit false

namespace Postmortem

namespace Debug

def LineInfo.EndedBy (l : LineInfo) (a : UInt64) : Prop :=
  ∃ n ∈ l.size, n ≠ 0 ∧ addSaturating l.address n ≤ a

/-- The line record in effect at an address: of those inside the function, the last one that does
not start above the address, where of several at one place the first counts. -/
def Function.lineAt? (f : Function) (a : UInt64) : Option LineInfo :=
  inEffect? LineInfo.address f.address f.stop a f.lines

end Debug

namespace SymCache

def shownName (name : String) : String := if name.isEmpty then "?" else name

theorem getD_shown_eq_shownName (name : String) :
    (StringTable.shown name).getD "?" = shownName name := by
  rw [StringTable.shown, shownName]
  split <;> rfl

/-- Whether a location names a function. -/
structure NamesFunction (f : Debug.Function) (l : Location) : Prop where
  name : l.function.name = shownName f.name.text
  language : l.function.language = f.name.language
  symbolAddress : l.symbolAddress = .ok f.address

/-- Whether a location gives the line of an address in a function. -/
structure NamesLine (a : UInt64) (f : Debug.Function) (l : Location) : Prop where
  unknown : (∀ r ∈ f.lineAt? a, r.EndedBy a) → l.line = 0 ∧ l.file = none
  known : ∀ r ∈ f.lineAt? a, ¬ r.EndedBy a → l.line.toNat = r.line.toNat ∧
    ∃ file ∈ l.file, file.name = r.file.nameText ∧
      file.directory = StringTable.shown r.file.dirText
  lineAddress : ∃ b, l.lineAddress = .ok b ∧ b ≤ a

/-- Whether a location gives the file of an address in a function by its path relative to a
compilation directory. -/
def NamesPath (compDir : Bytes) (a : UInt64) (f : Debug.Function) (l : Location) : Prop :=
  ∀ r ∈ f.lineAt? a, ¬ r.EndedBy a →
    ∃ file ∈ l.file, file.fullPath = (⟨compDir, r.file⟩ : Debug.FileEntry).absolutePath

theorem ofCode_code (l : Language) : Language.ofCode l.code = l := by
  cases l <;> rfl

variable {s : SymCache} {b : Builder} {a : UInt64}

theorem function?_of_functionAt (hstored : StoredBy s b) {i : UInt32} {name : Name}
    {entry : UInt64} (h : FunctionAt b.pools i name entry) (hentry : Within b.loadAddress entry) :
    s.function? i = some ⟨shownName name.text, distance b.loadAddress entry, name.language⟩ := by
  obtain ⟨f, hf, hname, rfl, hlanguage⟩ := h
  have hget : s.functions[i.toNat]? = some (b.functionRecord f) := by
    rw [hstored.functions, List.getElem?_map, hf]
    rfl
  rw [function?, hget, Option.map_some, functionOf, Builder.functionRecord]
  dsimp only
  rw [string?_of_holds hstored hname, getD_shown_eq_shownName, hlanguage, ofCode_code,
    offset32?_of_within hentry]
  rfl

theorem file?_of_fileAt (hstored : StoredBy s b) {i : UInt32} {name directory compDir : String}
    (h : FileAt b.pools i name directory compDir) :
    s.file? i = some ⟨StringTable.shown compDir, StringTable.shown directory, name⟩ := by
  obtain ⟨f, hf, hcompDir, hdirectory, hname⟩ := h
  rw [file?, hstored.files, hf, Option.map_some, string?_of_holds hstored hcompDir,
    string?_of_holds hstored hdirectory, string?_of_holds hstored hname, StringTable.getD_shown]

theorem file?_absent (hstored : StoredBy s b) : s.file? absent = none := by
  have hnone : s.files[absent.toNat]? = none :=
    List.getElem?_eq_none (Nat.le_of_lt_succ hstored.files_fit)
  rw [file?, hnone]
  rfl

theorem namesFunction_of_reads (hstored : StoredBy s b) {scope : Scope} {f : Debug.Function}
    {l : Location} {stop : UInt64} {compDir : String} (hnode : NodeOf b.pools compDir scope f)
    (hreads : Reads s a scope l) (hf : Within b.loadAddress f.address)
    (hstop : Within b.loadAddress stop) (hlt : f.address < stop) : NamesFunction f l := by
  have hfunction := hreads.function
  rw [function?_of_functionAt hstored hnode.function hf, Option.getD_some] at hfunction
  have hentry : l.function.entry = distance b.loadAddress f.address := by
    rw [hfunction]
  have hne : l.function.entry ≠ absent := by
    rw [hentry]
    exact ne_max_of_lt ((distance_lt_iff hf hstop).2 hlt)
  refine ⟨by rw [hfunction], by rw [hfunction], ?_⟩
  rw [hreads.symbolAddress hne, hentry, absolute_distance hstored.loadAddress hf]

variable {compDir : String}

theorem endedBy_iff {p : Pools} {l : Debug.LineInfo} {r : SizedRow} (h : RowOf p compDir l r)
    {stop : UInt64} (hstop : l.address < stop) : r.EndedBy a ↔ l.EndedBy a := by
  -- the end of a record is behind its start unless its size is zero
  have hbehind {n : UInt64} : l.address < addSaturating l.address n ↔ n ≠ 0 :=
    lt_addSaturating_iff hstop
  rw [SizedRow.EndedBy, Debug.LineInfo.EndedBy, h.stop, h.address]
  cases l.size with
  | none => simp
  | some n => simp [hbehind]

/-- A location has the line and the file of the record in effect, unless that has ended. -/
theorem lineAt_of_reads (hstored : StoredBy s b) {scope : Scope} {f : Debug.Function}
    {l : Location} (hnode : NodeOf b.pools compDir scope f) (hreads : Reads s a scope l)
    (ha : a < f.stop) :
    ((∀ r ∈ f.lineAt? a, r.EndedBy a) → l.line = 0 ∧ l.file = none) ∧
      ∀ r ∈ f.lineAt? a, ¬ r.EndedBy a → l.line.toNat = r.line.toNat ∧
        l.file = some ⟨StringTable.shown compDir, StringTable.shown r.file.dirText,
          r.file.nameText⟩ := by
  obtain ⟨rows, hrows, hlines⟩ := hnode.lines
  obtain ⟨z, hz₁, rfl, hz⟩ := exists_zip hrows
  have hline := hreads.line
  have hfile := hreads.file
  have hsized : inEffect? (fun r : SizedRow => r.row.address) f.address f.stop a (z.map Prod.snd) =
      (inEffect? (fun x => x.1.address) f.address f.stop a z).map Prod.snd :=
    inEffect?_map _ _ _ fun x hx => (hz x hx).address
  rw [hlines, LineTable.reading_settle _ ha, hsized] at hline hfile
  have hlineAt : f.lineAt? a =
      (inEffect? (fun x => x.1.address) f.address f.stop a z).map Prod.fst := by
    rw [Debug.Function.lineAt?, ← hz₁, inEffect?_map _ _ _ (fun _ _ => rfl)]
  cases hfound : inEffect? (fun x : Debug.LineInfo × SizedRow => x.1.address) f.address f.stop a z
    with
  | none =>
      rw [hfound] at hline hfile hlineAt
      rw [hlineAt]
      refine ⟨fun _ => ⟨hline, ?_⟩, nofun⟩
      rw [hfile]
      exact file?_absent hstored
  | some x =>
      rw [hfound] at hline hfile hlineAt
      obtain ⟨hx, -, hstop, -⟩ := inEffect?_spec hfound
      have hrow := hz x hx
      have hended := endedBy_iff (a := a) hrow hstop
      rw [Option.map_some, Option.map_some, Option.getD_some, LineTable.sizedReading] at hline hfile
      refine ⟨?_, ?_⟩
      · intro hunknown
        have hx := hended.2 (hunknown x.1 (by rw [hlineAt]; rfl))
        rw [if_pos hx] at hline hfile
        refine ⟨hline, ?_⟩
        rw [hfile]
        exact file?_absent hstored
      · intro r hr hnot
        obtain rfl : x.1 = r := by
          rw [hlineAt] at hr
          exact Option.some.inj hr
        rw [if_neg (fun h => hnot (hended.1 h))] at hline hfile
        refine ⟨by rw [hline]; exact hrow.line, ?_⟩
        rw [hfile]
        exact file?_of_fileAt hstored hrow.file

theorem namesLine_of_reads (hstored : StoredBy s b) {scope : Scope} {f : Debug.Function}
    {l : Location} (hnode : NodeOf b.pools compDir scope f) (hreads : Reads s a scope l)
    (ha : a < f.stop) : NamesLine a f l := by
  obtain ⟨hunknown, hknown⟩ := lineAt_of_reads hstored hnode hreads ha
  refine ⟨hunknown, ?_, hreads.lineAddress⟩
  intro r hr hnot
  obtain ⟨hline, hfile⟩ := hknown r hr hnot
  exact ⟨hline, _, hfile, rfl, rfl⟩

theorem namesPath_of_reads (hstored : StoredBy s b) {scope : Scope} {f : Debug.Function}
    {l : Location} {dir : Bytes} (hnode : NodeOf b.pools (Utf8.lossy dir) scope f)
    (hreads : Reads s a scope l) (ha : a < f.stop) : NamesPath dir a f l := by
  intro r hr hnot
  refine ⟨_, ((lineAt_of_reads hstored hnode hreads ha).2 r hr hnot).2, ?_⟩
  rw [File.fullPath, StringTable.getD_shown, StringTable.getD_shown]
  rfl

/-! ## Winners and chains -/

variable {items : List Item}

/-- What the locations of an address say: they are those of a chain of calls in the tree of the item
that wins there, each with its line, and with depths that count down to zero. -/
structure Finds (load a : UInt64) (items : List Item) (locations : List Location) (i : Item)
    (chain : List Debug.Function) : Prop where
  winner : IsFirstLeast Item.precedence (Item.Covers load a) items i
  innermost : Debug.Function.IsInnermost a (i.tree.arranged.chains []) chain
  covers : ∀ f ∈ chain, f.Covers a
  names : List.Forall₂ NamesFunction chain locations
  lines : List.Forall₂ (NamesLine a) chain locations
  paths : List.Forall₂ (NamesPath i.tree.compDir a) chain locations
  depths : locations.map (·.depth.toNat) = (List.range chain.length).reverse

theorem increasing_of_nodeOf {p : Pools} {scope : Scope} {f : Debug.Function}
    (h : NodeOf p compDir scope f) : LineTable.Increasing scope.lines := by
  obtain ⟨rows, -, hlines⟩ := h.lines
  rw [hlines]
  exact LineTable.increasing_settle _ _ _

theorem increasing_of_outerOf {p : Pools} {o : OuterScope} {i : Item} (h : OuterOf p o i) :
    ∀ chain ∈ Scope.chains [] o.scope, ∀ scope ∈ chain, LineTable.Increasing scope.lines := by
  intro chain hchain scope hscope
  obtain ⟨functions, -, hnodes⟩ := exists_right (h.mirrors.chains .nil) hchain
  obtain ⟨f, -, hnode⟩ := exists_right hnodes hscope
  exact increasing_of_nodeOf hnode

theorem covers_iff_of_nodeOf {p : Pools} {scope : Scope} {f : Debug.Function}
    (h : NodeOf p compDir scope f) : scope.Covers a ↔ f.Covers a := by
  rw [Scope.Covers, Debug.Function.Covers, h.start, h.stop]

theorem allCover_iff {p : Pools} {scopes : List Scope} {functions : List Debug.Function}
    (h : List.Forall₂ (NodeOf p compDir) scopes functions) :
    AllCover a scopes ↔ ∀ f ∈ functions, f.Covers a := by
  constructor
  · intro hall f hf
    obtain ⟨scope, hscope, hnode⟩ := exists_left h hf
    exact (covers_iff_of_nodeOf hnode).1 (hall scope hscope)
  · intro hall scope hscope
    obtain ⟨f, hf, hnode⟩ := exists_right h hscope
    exact (covers_iff_of_nodeOf hnode).2 (hall f hf)

/-- In the tree of an item, a chain covers an address if its first node does. -/
theorem reaches_iff {i : Item} {chain : List Debug.Function}
    (hchain : chain ∈ i.tree.arranged.chains []) :
    (∀ f ∈ chain, f.Covers a) ↔ Debug.Function.Reaches chain a := by
  constructor
  · intro hall
    obtain ⟨up, rfl⟩ := Debug.Function.suffix_of_mem_chains hchain
    cases up with
    | nil => exact ⟨_, rfl, hall _ (by simp)⟩
    | cons f up => exact ⟨f, rfl, hall f (by simp)⟩
  · exact Debug.Function.covers_of_mem_chains (Debug.Function.nested_arranged _) (by simp) hchain

/-- The longest chain of scopes that covers an address is one of calls, in the tree of the item. -/
theorem calls_of_scopes {p : Pools} {o : OuterScope} {i : Item} {scopes : List Scope}
    (h : OuterOf p o i)
    (hlongest : IsFirstLeast longerFirst (AllCover a) (Scope.chains [] o.scope) scopes) :
    ∃ chain, List.Forall₂ (NodeOf p (Utf8.lossy i.tree.compDir)) scopes chain ∧
      IsFirstLeast longerFirst (fun chain => ∀ f ∈ chain, f.Covers a)
        (i.tree.arranged.chains []) chain := by
  refine hlongest.replace (h.mirrors.chains .nil) ?_ (fun _ _ hc => allCover_iff hc)
  intro c d c' d' hc hd
  rw [longerFirst, longerFirst, hc.length_eq, hd.length_eq]

theorem address_le_of_mem {i : Item} {chain : List Debug.Function} {f : Debug.Function}
    (hchain : chain ∈ i.tree.arranged.chains []) (hf : f ∈ chain) :
    i.tree.address ≤ f.address := by
  have hle := Debug.Function.address_le_of_mem_chains (Debug.Function.nested_arranged _) hchain hf
  rw [Debug.Function.arranged_address] at hle
  exact hle.resolve_left (by simp)

/-- A lookup finds nothing if no item covers the address, and the item that wins otherwise. -/
theorem lookup_finds (hstored : StoredBy s b)
    (houter : List.Forall₂ (OuterOf b.pools) b.outer (items.filter fun i => i.HasCode))
    (a : UInt64) :
    ((∀ i ∈ items, ¬ i.Covers b.loadAddress a) ∧ s.lookup a = []) ∨
      ∃ i chain, Finds b.loadAddress a items (s.lookup a) i chain := by
  have hdivides := b.divides_ranges
  have hinside : ∀ x ∈ b.ranges, x.value.scope.start ≤ x.start ∧ x.stop ≤ x.value.scope.stop :=
    fun x hx => ⟨(Builder.owner_of_range hx).1, (Builder.owner_of_range hx).2.1⟩
  have hranges := Tables.ofRanges_spec hinside hstored.tables
  have hrows : ∀ x ∈ b.ranges, ∀ chain ∈ Scope.chains [] x.value.scope, ∀ scope ∈ chain,
      LineTable.Increasing scope.lines := by
    intro x hx
    have hfirst : x.Covers x.start := ⟨UInt64.le_refl _, hdivides.disjoint.nonempty x hx⟩
    obtain ⟨i, houterOf, -⟩ := Builder.outer_of_range houter hx hfirst
    exact increasing_of_outerOf houterOf
  rcases lookup_cases hstored.loadAddress hstored.inlinees_fit hranges hdivides.disjoint hinside
    hrows a with ⟨hnone, hlookup⟩ | ⟨x, hx, hcov, -, hstop, scopes, hlongest, hreads, hdepths⟩
  · refine .inl ⟨Builder.no_owner houter ?_, hlookup⟩
    cases hfound : RangeClaims.owner? (b.claims.served priority) a with
    | none => rfl
    | some c =>
        obtain ⟨x, hx, hcov⟩ := hdivides.covers a c hfound
        exact absurd hcov (hnone x hx)
  · obtain ⟨i, houterOf, hwinner⟩ := Builder.outer_of_range houter hx hcov
    obtain ⟨chain, hnodes, hlongest⟩ := calls_of_scopes houterOf hlongest
    have hcovers := hlongest.holds
    have hbelow : ∀ f ∈ chain, f.address < x.stop :=
      fun f hf => UInt64.lt_of_le_of_lt (hcovers f hf).1 hcov.2
    have hwithin : ∀ f ∈ chain, Within b.loadAddress f.address := by
      intro f hf
      have hload := UInt64.le_trans hwinner.holds.1.2 (address_le_of_mem hlongest.mem hf)
      exact ⟨UInt64.le_iff_toNat_le.1 hload,
        Nat.lt_trans (UInt64.lt_iff_toNat_lt.1 (hbelow f hf)) hstop.2⟩
    refine .inr ⟨i, chain, hwinner, hlongest.congr fun c hc => reaches_iff hc, hcovers, ?_, ?_, ?_,
      ?_⟩
    · apply forall₂_join hnodes hreads
      intro scope f hf l hnode hl
      exact namesFunction_of_reads hstored hnode hl (hwithin f hf) hstop (hbelow f hf)
    · apply forall₂_join hnodes hreads
      intro scope f hf l hnode hl
      exact namesLine_of_reads hstored hnode hl (hcovers f hf).2
    · apply forall₂_join hnodes hreads
      intro scope f hf l hnode hl
      exact namesPath_of_reads hstored hnode hl (hcovers f hf).2
    · rw [hdepths, hnodes.length_eq]

/-! ## Written caches -/

variable {load : UInt64} {arch : Arch} {debugId : DebugId} {bytes : Bytes}

/-- The bytes written for some items are accepted, and looking up an address in them finds nothing
if no item covers it, and otherwise the item that wins. -/
theorem written_finds (hadd : Builder.addAll Builder.add {} items = (.ok (), b))
    (hbytes : { b with arch, debugId, loadAddress := load }.toBytes = .ok bytes) :
    ∃ s, parse bytes = .ok s ∧ ∀ a,
      ((∀ i ∈ items, ¬ i.Covers load a) ∧ s.lookup a = []) ∨
        ∃ i chain, Finds load a items (s.lookup a) i chain := by
  obtain ⟨s, hparse, hstored⟩ := parse_toBytes hbytes
  obtain ⟨new, hnew, houter⟩ := (Builder.addAll_spec StringTable.sound_empty hadd).outer
  rw [show ({} : Builder).outer = [] from rfl, List.nil_append] at hnew
  rw [← hnew] at houter
  exact ⟨s, hparse, lookup_finds hstored houter⟩

theorem Finds.ne_nil {locations : List Location} {i : Item} {chain : List Debug.Function}
    (h : Finds load a items locations i chain) : locations ≠ [] := by
  rintro rfl
  obtain rfl := List.forall₂_nil_right_iff.1 h.names
  obtain ⟨up, hup⟩ := Debug.Function.suffix_of_mem_chains h.innermost.mem
  exact absurd hup (by simp)

/-- The last location is that of the winner itself. -/
theorem Finds.last {locations : List Location} {i : Item} {chain : List Debug.Function}
    (h : Finds load a items locations i chain) {l : Location} (hl : l ∈ locations.getLast?) :
    l.depth = 0 ∧ NamesFunction i.tree l := by
  obtain ⟨up, rfl⟩ := Debug.Function.suffix_of_mem_chains h.innermost.mem
  obtain ⟨inner, last, rfl, -, hlast⟩ := forall₂_split h.names
  cases hlast with
  | @cons _ outer _ _ hnames hnil =>
      cases hnil
      obtain rfl : outer = l := by simpa using hl
      have hdepths := h.depths
      rw [List.map_append, List.length_append, List.length_singleton, List.range_succ_eq_map,
        List.reverse_cons] at hdepths
      have hzero := (List.append_inj' hdepths rfl).2
      refine ⟨?_, ?_⟩
      · apply UInt32.toNat_inj.1
        simpa using hzero
      · have hname := hnames.name
        have hlanguage := hnames.language
        have haddress := hnames.symbolAddress
        rw [Debug.Function.arranged_name] at hname hlanguage
        rw [Debug.Function.arranged_address] at haddress
        exact ⟨hname, hlanguage, haddress⟩

/-- A written cache is accepted, and a lookup in it finds nothing exactly where no item covers the
address.  Elsewhere its last location is not inlined and names the item that wins there. -/
theorem lookup_names_winner (hadd : Builder.addAll Builder.add {} items = (.ok (), b))
    (hbytes : { b with arch, debugId, loadAddress := load }.toBytes = .ok bytes) :
    ∃ s, parse bytes = .ok s ∧ ∀ a,
      (s.lookup a = [] ↔ ∀ i ∈ items, ¬ i.Covers load a) ∧
      ∀ l ∈ (s.lookup a).getLast?, l.depth = 0 ∧ ∃ i,
        IsFirstLeast Item.precedence (Item.Covers load a) items i ∧ NamesFunction i.tree l := by
  obtain ⟨s, hparse, hfinds⟩ := written_finds hadd hbytes
  refine ⟨s, hparse, ?_⟩
  intro a
  rcases hfinds a with ⟨hnone, hlookup⟩ | ⟨i, chain, hfound⟩
  · rw [hlookup]
    exact ⟨⟨fun _ => hnone, fun _ => rfl⟩, nofun⟩
  · refine ⟨⟨?_, ?_⟩, ?_⟩
    · intro hnil
      exact absurd hnil hfound.ne_nil
    · intro hnone
      exact absurd hfound.winner.holds (hnone i hfound.winner.mem)
    · intro l hl
      exact ⟨(hfound.last hl).1, i, hfound.winner, (hfound.last hl).2⟩

/-- A function with an inlined call that has a line of its own, and a symbol on top of both. -/
def sampleItems : List Item :=
  [.symbol { name := some "start", address := 0x1000, size := 0x20 },
    .function
      { address := 0x1000, size := 0x100, name := { text := "main", language := .c }
        lines := [{ address := 0x1000, line := 7 }]
        inlinees :=
          [{ address := 0x1010, size := 0x10, name := { text := "helper", language := .c }
             lines := [{ address := 0x1010, size := some 8, line := 3 }] }] }]

/-- Items are written if no step of adding them, and of laying out what they add, fails. -/
theorem exists_written (hadd : (Builder.addAll Builder.add {} items).1 = .ok ())
    (hok : { (Builder.addAll Builder.add {} items).2 with
      arch, debugId, loadAddress := load }.toBytes.toOption.isSome = true) :
    ∃ b bytes, Builder.addAll Builder.add {} items = (.ok (), b) ∧
      { b with arch, debugId, loadAddress := load }.toBytes = .ok bytes := by
  obtain ⟨bytes, hbytes⟩ := exists_ok_of_isSome hok
  exact ⟨_, bytes, Prod.ext hadd rfl, hbytes⟩

set_option maxRecDepth 20000 in
theorem sampleItems_written : ∃ b bytes, Builder.addAll Builder.add {} sampleItems = (.ok (), b) ∧
    { b with arch := .unknown, debugId := .nil, loadAddress := 0x1000 }.toBytes = .ok bytes := by
  apply exists_written
  · cbv
  · cbv

theorem lookup_names_winner_sample : ∃ b bytes,
    Builder.addAll Builder.add {} sampleItems = (.ok (), b) ∧
    { b with arch := .unknown, debugId := .nil, loadAddress := 0x1000 }.toBytes = .ok bytes ∧
    ∃ s, parse bytes = .ok s ∧ ∀ a,
      (s.lookup a = [] ↔ ∀ i ∈ sampleItems, ¬ i.Covers 0x1000 a) ∧
      ∀ l ∈ (s.lookup a).getLast?, l.depth = 0 ∧ ∃ i,
        IsFirstLeast Item.precedence (Item.Covers 0x1000 a) sampleItems i ∧
          NamesFunction i.tree l := by
  obtain ⟨b, bytes, hadd, hbytes⟩ := sampleItems_written
  exact ⟨b, bytes, hadd, hbytes, lookup_names_winner hadd hbytes⟩

/-- The locations of an address are those of the innermost call that covers it in the tree of the
winner, and of the calls around it, with depths that count down to zero. -/
theorem lookup_walks_tree (hadd : Builder.addAll Builder.add {} items = (.ok (), b))
    (hbytes : { b with arch, debugId, loadAddress := load }.toBytes = .ok bytes) :
    ∃ s, parse bytes = .ok s ∧ ∀ a, s.lookup a ≠ [] → ∃ i chain,
      IsFirstLeast Item.precedence (Item.Covers load a) items i ∧
      Debug.Function.IsInnermost a (i.tree.arranged.chains []) chain ∧
      (∀ f ∈ chain, f.Covers a) ∧ List.Forall₂ NamesFunction chain (s.lookup a) ∧
      (s.lookup a).map (·.depth.toNat) = (List.range chain.length).reverse := by
  obtain ⟨s, hparse, hfinds⟩ := written_finds hadd hbytes
  refine ⟨s, hparse, ?_⟩
  intro a hne
  rcases hfinds a with ⟨-, hlookup⟩ | ⟨i, chain, hfound⟩
  · exact absurd hlookup hne
  · exact ⟨i, chain, hfound.winner, hfound.innermost, hfound.covers, hfound.names, hfound.depths⟩

theorem lookup_walks_tree_sample : ∃ b bytes,
    Builder.addAll Builder.add {} sampleItems = (.ok (), b) ∧
    { b with arch := .unknown, debugId := .nil, loadAddress := 0x1000 }.toBytes = .ok bytes ∧
    ∃ s, parse bytes = .ok s ∧ ∀ a, s.lookup a ≠ [] → ∃ i chain,
      IsFirstLeast Item.precedence (Item.Covers 0x1000 a) sampleItems i ∧
      Debug.Function.IsInnermost a (i.tree.arranged.chains []) chain ∧
      (∀ f ∈ chain, f.Covers a) ∧ List.Forall₂ NamesFunction chain (s.lookup a) ∧
      (s.lookup a).map (·.depth.toNat) = (List.range chain.length).reverse := by
  obtain ⟨b, bytes, hadd, hbytes⟩ := sampleItems_written
  exact ⟨b, bytes, hadd, hbytes, lookup_walks_tree hadd hbytes⟩

/-- Each location gives the line that the line records of its call say, and that line does not
start above the address. -/
theorem lookup_reads_lines (hadd : Builder.addAll Builder.add {} items = (.ok (), b))
    (hbytes : { b with arch, debugId, loadAddress := load }.toBytes = .ok bytes) :
    ∃ s, parse bytes = .ok s ∧ ∀ a, s.lookup a ≠ [] → ∃ i chain,
      IsFirstLeast Item.precedence (Item.Covers load a) items i ∧
      Debug.Function.IsInnermost a (i.tree.arranged.chains []) chain ∧
      List.Forall₂ (NamesLine a) chain (s.lookup a) := by
  obtain ⟨s, hparse, hfinds⟩ := written_finds hadd hbytes
  refine ⟨s, hparse, ?_⟩
  intro a hne
  rcases hfinds a with ⟨-, hlookup⟩ | ⟨i, chain, hfound⟩
  · exact absurd hlookup hne
  · exact ⟨i, chain, hfound.winner, hfound.innermost, hfound.lines⟩

theorem lookup_reads_lines_sample : ∃ b bytes,
    Builder.addAll Builder.add {} sampleItems = (.ok (), b) ∧
    { b with arch := .unknown, debugId := .nil, loadAddress := 0x1000 }.toBytes = .ok bytes ∧
    ∃ s, parse bytes = .ok s ∧ ∀ a, s.lookup a ≠ [] → ∃ i chain,
      IsFirstLeast Item.precedence (Item.Covers 0x1000 a) sampleItems i ∧
      Debug.Function.IsInnermost a (i.tree.arranged.chains []) chain ∧
      List.Forall₂ (NamesLine a) chain (s.lookup a) := by
  obtain ⟨b, bytes, hadd, hbytes⟩ := sampleItems_written
  exact ⟨b, bytes, hadd, hbytes, lookup_reads_lines hadd hbytes⟩

end SymCache

end Postmortem
