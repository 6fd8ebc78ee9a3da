import Postmortem.Proofs.CfiCache.StoredPrograms
import Postmortem.Proofs.RangeRecords

/-!
# Unwind caches as they are stored

The bytes of a cache are accepted, and each entry in them is decoded to its range, its source and
its fragment of a program.
-/

set_option autoImplicit false

namespace Postmortem

theorem Debug.UnwindSource.ofRank?_rank (source : UnwindSource) :
    ofRank? source.rank = some source := by
  cases source
  all_goals rfl

namespace CfiCache

instance : LawfulWordRecord EntryRecord := ⟨fun _ => rfl, fun _ => rfl⟩

/-! ## Adding entries -/

/-- Whether a record is that of a range: its program, if it can be read, is in all later programs
and strings. -/
structure EntryOf (load : UInt64) (programs : Bytes) (t : StringTable)
    (c : Claim ConvertedTable) (e : EntryRecord) : Prop where
  placed : Placed load c e.start e.stop
  source : e.source = c.value.source.rank
  program : c.value.program.Sound → ∀ s : CfiCache, programs <+: s.programs →
    StringsOf t s.strings →
    s.readProgram? c.start e.program = some (c.value.program.clip c.start c.stop)

theorem EntryOf.mono {load : UInt64} {programs programs' : Bytes} {t t' : StringTable}
    {c : Claim ConvertedTable} {e : EntryRecord} (h : EntryOf load programs t c e)
    (hprograms : programs <+: programs') (ht : t.toBytes <+: t'.toBytes) :
    EntryOf load programs' t' c e :=
  { h with
    program := fun hsound s hs hstrings =>
      h.program hsound s (hprograms.trans hs) (hstrings.mono ht) }

theorem relative_eq_ok {load a : UInt64} {r : UInt32} (h : relative load a = .ok r) :
    Within load a ∧ r = distance load a :=
  offset32?_eq_some_iff.1 (orFault_eq_ok.1 h)

theorem Sections.push_spec {load : UInt64} {s s' : Sections} {c : Claim ConvertedTable}
    (hs : s.strings.Sound) (h : s.push load c = .ok s') :
    s'.strings.Sound ∧ s.programs <+: s'.programs ∧
      s.strings.toBytes <+: s'.strings.toBytes ∧
      ∃ e, s'.entries = s.entries ++ [e] ∧ EntryOf load s'.programs s'.strings c e := by
  rw [push] at h
  split at h
  · cases h
  · rename_i hlength
    obtain ⟨⟨bytes, strings⟩, hprogram, h⟩ := bind_eq_ok.1 h
    obtain ⟨start, hstart, h⟩ := bind_eq_ok.1 h
    obtain ⟨stop, hstop, h⟩ := bind_eq_ok.1 h
    cases h
    obtain ⟨hsound, hgrown, hread⟩ := encodeProgram_spec hs hprogram
    obtain ⟨hinStart, rfl⟩ := relative_eq_ok hstart
    obtain ⟨hinStop, rfl⟩ := relative_eq_ok hstop
    have hoffset : (UInt32.ofNat s.programs.length).toNat = s.programs.length := by
      rw [UInt32.toNat_ofNat']
      exact Nat.mod_eq_of_lt (Nat.not_le.1 hlength)
    refine ⟨hsound, List.prefix_append _ _, hgrown, _, rfl, ⟨hinStart, hinStop, rfl, rfl⟩, rfl, ?_⟩
    intro hc cache hprograms hstrings
    obtain ⟨more, hmore⟩ := hprograms
    apply hread (storable_clip hc _ _) cache hstrings
    · rw [hoffset, ← hmore]
      simp only [List.length_append]
      omega
    · rw [hoffset, ← hmore, List.append_assoc, List.drop_left]
      exact List.prefix_append _ _

theorem pushAll_spec {load : UInt64} {claims : List (Claim ConvertedTable)} {s s' : Sections}
    {before : List (Claim ConvertedTable)} (hs : s.strings.Sound)
    (hbefore : List.Forall₂ (EntryOf load s.programs s.strings) before s.entries)
    (h : claims.foldlM (Sections.push load) s = .ok s') :
    List.Forall₂ (EntryOf load s'.programs s'.strings) (before ++ claims) s'.entries := by
  induction claims generalizing s before with
  | nil =>
      cases h
      rwa [List.append_nil]
  | cons c claims ih =>
      rw [List.foldlM_cons] at h
      obtain ⟨s₁, hpush, h⟩ := bind_eq_ok.1 h
      obtain ⟨hsound, hprograms, hstrings, e, hentries, he⟩ := Sections.push_spec hs hpush
      rw [List.append_cons]
      refine ih hsound ?_ h
      rw [hentries]
      exact List.rel_append (hbefore.imp fun _ _ hb => hb.mono hprograms hstrings)
        (.cons he .nil)

/-! ## Reading the bytes -/

theorem Header.length_toBytes (h : Header) : h.toBytes.length = 40 := by
  rw [toBytes]
  simp only [List.length_append, Bytes.length_ofWord64, Bytes.length_flatMap_ofWord32,
    List.length_cons, List.length_nil, List.length_replicate]

theorem Header.read?_append (h : Header) (rest : Bytes) :
    read? ⟨0, h.toBytes ++ rest⟩ = some (h, ⟨40, rest⟩) := by
  rw [read?, toBytes]
  simp only [List.flatMap_cons, List.flatMap_nil, List.append_assoc, List.nil_append]
  refine Option.bind_eq_some_iff.2 ⟨_, Cursor.word32?_append _ _ _, ?_⟩
  refine Option.bind_eq_some_iff.2 ⟨_, Cursor.word32?_append _ _ _, ?_⟩
  refine Option.bind_eq_some_iff.2 ⟨_, Cursor.word32?_append _ _ _, ?_⟩
  refine Option.bind_eq_some_iff.2 ⟨_, Cursor.word32?_append _ _ _, ?_⟩
  refine Option.bind_eq_some_iff.2 ⟨_, Cursor.word32?_append _ _ _, ?_⟩
  refine Option.bind_eq_some_iff.2 ⟨_, Cursor.word32?_append _ _ _, ?_⟩
  refine Option.bind_eq_some_iff.2 ⟨_, Cursor.word64?_append _ _ _, ?_⟩
  refine Option.bind_eq_some_iff.2 ⟨_, Cursor.take?_append _ _ List.length_replicate, ?_⟩
  rfl

theorem count_eq_ok {n : Nat} {m : UInt32} (h : count n = .ok m) : m.toNat = n := by
  rw [count] at h
  split at h
  · rename_i hn
    rw [← Except.ok.inj h, UInt32.toNat_ofNat']
    exact Nat.mod_eq_of_lt hn
  · cases h

/-- The header and the sections behind it are read one after the other. -/
theorem parse_sections (header : Header) (entries : List EntryRecord) (programs strings : Bytes)
    (hmagic : header.magic = magic) (hversion : header.version = formatVersion)
    (hentries : header.entries.toNat = entries.length)
    (hprograms : header.programBytes.toNat = programs.length)
    (hstrings : header.stringBytes.toNat = strings.length) :
    let bytes := Bytes.joinSections
      [header.toBytes, WordRecord.encodeTable entries, programs, strings]
    parse bytes = .ok ⟨bytes, header, entries, programs, strings⟩ := by
  have hcheck : checkHeader header = .ok () := by
    rw [checkHeader, hmagic, if_neg (by decide), if_neg (not_not.2 rfl),
      if_neg (not_not.2 hversion)]
  dsimp only
  rw [Bytes.joinSections_cons, header.length_toBytes, parse]
  refine bind_eq_ok.2 ⟨_, congrArg (orFault _) (header.read?_append _), ?_⟩
  refine bind_eq_ok.2 ⟨_, hcheck, ?_⟩
  refine bind_eq_ok.2 ⟨_, congrArg (orFault _) (Cursor.align?_sectionsAt _ _ _), ?_⟩
  dsimp only
  rw [hentries]
  refine bind_eq_ok.2 ⟨_, congrArg (orFault _) (WordRecord.table?_append _ _ _), ?_⟩
  refine bind_eq_ok.2 ⟨_, congrArg (orFault _) (Cursor.align?_sectionsAt _ _ _), ?_⟩
  dsimp only
  rw [hprograms]
  refine bind_eq_ok.2 ⟨_, congrArg (orFault _) (Cursor.take?_append _ _ rfl), ?_⟩
  refine bind_eq_ok.2 ⟨_, congrArg (orFault _) (Cursor.align?_sectionsAt _ _ _), ?_⟩
  dsimp only
  rw [hstrings, Bytes.sectionsAt, List.append_nil, if_neg (Nat.lt_irrefl _)]
  rfl

structure Stores (s : CfiCache) (c : Claim ConvertedTable) (e : EntryRecord) : Prop where
  placed : Placed s.loadAddress c e.start e.stop
  decode : c.value.program.Sound → s.decode? e =
    some ⟨c.start, c.stop, c.value.source, c.value.program.clip c.start c.stop⟩

theorem EntryOf.stores {s : CfiCache} {t : StringTable} {c : Claim ConvertedTable}
    {e : EntryRecord} (h : EntryOf s.loadAddress s.programs t c e)
    (hstrings : StringsOf t s.strings) : Stores s c e := by
  refine ⟨h.placed, ?_⟩
  intro hsound
  have hstart : addSaturating s.loadAddress e.start.toUInt64 = c.start := by
    rw [h.placed.start_eq, addSaturating_distance h.placed.within_start]
  have hstop : addSaturating s.loadAddress e.stop.toUInt64 = c.stop := by
    rw [h.placed.stop_eq, addSaturating_distance h.placed.within_stop]
  have hprogram := h.program hsound s (List.prefix_refl _) hstrings
  rw [decode?, hstart, hstop]
  refine Option.bind_eq_some_iff.2 ⟨_, hprogram, ?_⟩
  refine Option.bind_eq_some_iff.2 ⟨c.value.source, ?_, rfl⟩
  rw [h.source, Debug.UnwindSource.ofRank?_rank]

/-- The bytes of a cache are accepted, and the records in them are those of all ranges. -/
theorem parse_written {o : Debug.Object} {bytes : Bytes} (h : ofObject o = .ok bytes) :
    ∃ tables s, convertAll o = .ok tables ∧ parse bytes = .ok s ∧
      List.Forall₂ (Stores s) (ranges tables) s.entries := by
  obtain ⟨tables, htables, h⟩ := bind_eq_ok.1 h
  obtain ⟨sections, hsections, h⟩ := bind_eq_ok.1 h
  obtain ⟨entries, hentries, h⟩ := bind_eq_ok.1 h
  obtain ⟨programBytes, hprogramBytes, h⟩ := bind_eq_ok.1 h
  obtain ⟨stringBytes, hstringBytes, h⟩ := bind_eq_ok.1 h
  rw [← Except.ok.inj h]
  have hall : List.Forall₂ (EntryOf o.loadAddress sections.programs sections.strings)
      ([] ++ ranges tables) sections.entries :=
    pushAll_spec StringTable.sound_empty .nil hsections
  have hfits : sections.strings.toBytes.length < UInt32.size :=
    count_eq_ok hstringBytes ▸ stringBytes.toNat_lt
  have hparse := parse_sections
    { arch := o.arch.code, entries, programBytes, stringBytes, loadAddress := o.loadAddress }
    sections.entries sections.programs sections.strings.toBytes rfl rfl (count_eq_ok hentries)
    (count_eq_ok hprogramBytes) (count_eq_ok hstringBytes)
  refine ⟨tables, _, htables, hparse, ?_⟩
  exact hall.imp fun c e he => EntryOf.stores he ⟨List.prefix_refl _, hfits⟩

structure Serves (s : CfiCache) (c : Claim ConvertedTable) (e : EntryRecord) : Prop where
  placed : Placed s.loadAddress c e.start e.stop
  decode : s.decode? e =
    some ⟨c.start, c.stop, c.value.source, c.value.program.clip c.start c.stop⟩

/-- If all programs can be read, the entries in the bytes of a cache are those of all ranges. -/
theorem parse_ofObject {o : Debug.Object} {bytes : Bytes} (h : ofObject o = .ok bytes)
    (hsound : ∀ tables, convertAll o = .ok tables →
      ∀ c ∈ ranges tables, c.value.program.Sound) :
    ∃ tables s, convertAll o = .ok tables ∧ parse bytes = .ok s ∧
      List.Forall₂ (Serves s) (ranges tables) s.entries := by
  obtain ⟨tables, s, htables, hparse, hstores⟩ := parse_written h
  refine ⟨tables, s, htables, hparse, ?_⟩
  have hserves := (List.forall₂_and_left _ _).2 ⟨hsound tables htables, hstores⟩
  exact hserves.imp fun c e he => ⟨he.2.placed, he.2.decode he.1⟩

end CfiCache

end Postmortem
