import Postmortem.Proofs.Outcomes
import Postmortem.Proofs.StoredTables
import Postmortem.Proofs.SymCache.Items

/-!
# Symbol caches as they are stored

The bytes of a cache are read back as the tables that were written.
-/

set_option autoImplicit false

namespace Postmortem

theorem DebugId.length_toBytes (id : DebugId) : id.toBytes.length = 32 := by
  rw [toBytes, Endian.encode]
  simp only [List.length_append, List.length_reverse, Bytes.length_ofNatLE,
    Bytes.length_ofWord32, List.length_replicate, List.length_singleton]

namespace SymCache

instance : LawfulWordRecord FileRecord := ⟨fun _ => rfl, fun _ => rfl⟩

instance : LawfulWordRecord FunctionRecord := ⟨fun _ => rfl, fun _ => rfl⟩

instance : LawfulWordRecord RangeRecord := ⟨fun _ => rfl, fun _ => rfl⟩

instance : LawfulWordRecord InlineeRecord := ⟨fun _ => rfl, fun _ => rfl⟩

instance : LawfulWordRecord LineBlock := ⟨fun _ => rfl, fun _ => rfl⟩

theorem Header.length_toBytes (h : Header) : h.toBytes.length = 96 := by
  rw [toBytes]
  simp only [List.length_append, Bytes.length_ofWord32, Bytes.length_ofWord64,
    DebugId.length_toBytes, Bytes.length_flatMap_ofWord32, List.length_cons, List.length_nil,
    List.length_replicate]

/-- A header is read back, up to the form of its identifier. -/
theorem Header.read?_append (h : Header) (rest : Bytes) :
    read? ⟨0, h.toBytes ++ rest⟩ =
      some ({ h with debugId := .ofBytes h.debugId.toBytes }, ⟨96, rest⟩) := by
  rw [read?, toBytes]
  simp only [List.flatMap_cons, List.flatMap_nil, List.append_assoc, List.nil_append]
  refine Option.bind_eq_some_iff.2 ⟨_, Cursor.word32?_append _ _ _, ?_⟩
  refine Option.bind_eq_some_iff.2 ⟨_, Cursor.word32?_append _ _ _, ?_⟩
  refine Option.bind_eq_some_iff.2 ⟨_, Cursor.take?_append _ _ h.debugId.length_toBytes, ?_⟩
  refine Option.bind_eq_some_iff.2 ⟨_, Cursor.word32?_append _ _ _, ?_⟩
  refine Option.bind_eq_some_iff.2 ⟨_, Cursor.word32?_append _ _ _, ?_⟩
  refine Option.bind_eq_some_iff.2 ⟨_, Cursor.word32?_append _ _ _, ?_⟩
  refine Option.bind_eq_some_iff.2 ⟨_, Cursor.word32?_append _ _ _, ?_⟩
  refine Option.bind_eq_some_iff.2 ⟨_, Cursor.word32?_append _ _ _, ?_⟩
  refine Option.bind_eq_some_iff.2 ⟨_, Cursor.word32?_append _ _ _, ?_⟩
  refine Option.bind_eq_some_iff.2 ⟨_, Cursor.word32?_append _ _ _, ?_⟩
  refine Option.bind_eq_some_iff.2 ⟨_, Cursor.word32?_append _ _ _, ?_⟩
  refine Option.bind_eq_some_iff.2 ⟨_, Cursor.word64?_append _ _ _, ?_⟩
  refine Option.bind_eq_some_iff.2 ⟨_, Cursor.take?_append _ _ List.length_replicate, ?_⟩
  rfl

theorem section?_sectionsAt {α : Type} [WordRecord α] [LawfulWordRecord α] {fault : Fault}
    {n : UInt32} {records : List α} (hn : n.toNat = records.length) (position : Nat)
    (rest : List Bytes) :
    (section? α fault n
        ⟨position, Bytes.sectionsAt position (WordRecord.encodeTable records :: rest)⟩) =
      .ok (records, ⟨position + Cursor.padding position + (WordRecord.encodeTable records).length,
        Bytes.sectionsAt
          (position + Cursor.padding position + (WordRecord.encodeTable records).length) rest⟩) := by
  rw [section?, Cursor.align?_sectionsAt, hn]
  exact congrArg (orFault fault) (WordRecord.table?_append _ records _)

structure StoredBy (s : SymCache) (b : Builder) : Prop where
  tables : Tables.ofRanges b.loadAddress b.ranges = .ok s.tables
  loadAddress : s.loadAddress = b.loadAddress
  files : s.files = b.pools.files
  functions : s.functions = b.pools.functions.map b.functionRecord
  strings : s.strings = b.pools.strings.toBytes
  files_fit : s.files.length < UInt32.size
  inlinees_fit : s.inlinees.length < UInt32.size
  strings_fit : s.strings.length < UInt32.size

theorem lt_of_count {n : Nat} {what : Quantity} {m : UInt32} (h : count n what = .ok m) :
    n < UInt32.size :=
  count_eq_ok h ▸ m.toNat_lt

/-- The header and the sections behind it are read one after the other. -/
theorem parse_sections (header : Header) (files : List FileRecord)
    (functions : List FunctionRecord) (t : Tables) (strings : Bytes)
    (hmagic : header.magic = magic) (hversion : header.version = formatVersion)
    (hfiles : header.counts.files.toNat = files.length)
    (hfunctions : header.counts.functions.toNat = functions.length)
    (hranges : header.counts.ranges.toNat = t.ranges.length)
    (hinlinees : header.counts.inlinees.toNat = t.inlinees.length)
    (hlineBlocks : header.counts.lineBlocks.toNat = t.lineBlocks.length)
    (hlineBytes : header.counts.lineBytes.toNat = t.lineProgram.length)
    (hstringBytes : header.counts.stringBytes.toNat = strings.length) :
    parse (Bytes.joinSections
        [header.toBytes, WordRecord.encodeTable files, WordRecord.encodeTable functions,
          WordRecord.encodeTable t.ranges, WordRecord.encodeTable t.inlinees,
          WordRecord.encodeTable t.lineBlocks, t.lineProgram, strings]) =
      .ok ⟨{ header with debugId := .ofBytes header.debugId.toBytes }, files, functions, t.ranges,
        t.inlinees, t.lineBlocks, t.lineProgram, strings⟩ := by
  have hcheck : checkHeader { header with debugId := .ofBytes header.debugId.toBytes } =
      .ok () := by
    rw [checkHeader, hmagic, if_neg (by decide), if_neg (not_not.2 rfl),
      if_neg (not_not.2 hversion)]
  rw [Bytes.joinSections_cons, header.length_toBytes, parse]
  refine bind_eq_ok.2 ⟨_, congrArg (orFault _) (header.read?_append _), ?_⟩
  refine bind_eq_ok.2 ⟨_, hcheck, ?_⟩
  refine bind_eq_ok.2 ⟨_, section?_sectionsAt hfiles _ _, ?_⟩
  refine bind_eq_ok.2 ⟨_, section?_sectionsAt hfunctions _ _, ?_⟩
  refine bind_eq_ok.2 ⟨_, section?_sectionsAt hranges _ _, ?_⟩
  refine bind_eq_ok.2 ⟨_, section?_sectionsAt hinlinees _ _, ?_⟩
  refine bind_eq_ok.2 ⟨_, section?_sectionsAt hlineBlocks _ _, ?_⟩
  refine bind_eq_ok.2 ⟨_, congrArg (orFault _) (Cursor.align?_sectionsAt _ _ _), ?_⟩
  dsimp only
  rw [hlineBytes]
  refine bind_eq_ok.2 ⟨_, congrArg (orFault _) (Cursor.take?_append _ _ rfl), ?_⟩
  refine bind_eq_ok.2 ⟨_, congrArg (orFault _) (Cursor.align?_sectionsAt _ _ _), ?_⟩
  dsimp only
  rw [hstringBytes, Bytes.sectionsAt, List.append_nil, if_neg (Nat.lt_irrefl _)]
  rfl

/-- The bytes of a cache are accepted, all tables are read back, and the strings are as long as the
header says. -/
theorem parse_written {b : Builder} {bytes : Bytes} (h : b.toBytes = .ok bytes) :
    ∃ s, parse bytes = .ok s ∧ StoredBy s b ∧
      s.header.counts.stringBytes.toNat = s.strings.length := by
  rw [Builder.toBytes] at h
  obtain ⟨t, ht, h⟩ := bind_eq_ok.1 h
  obtain ⟨files, hfiles, h⟩ := bind_eq_ok.1 h
  obtain ⟨functions, hfunctions, h⟩ := bind_eq_ok.1 h
  obtain ⟨ranges, hranges, h⟩ := bind_eq_ok.1 h
  obtain ⟨inlinees, hinlinees, h⟩ := bind_eq_ok.1 h
  obtain ⟨lineBlocks, hlineBlocks, h⟩ := bind_eq_ok.1 h
  obtain ⟨lineBytes, hlineBytes, h⟩ := bind_eq_ok.1 h
  obtain ⟨stringBytes, hstringBytes, h⟩ := bind_eq_ok.1 h
  rw [← Except.ok.inj h]
  refine ⟨_, parse_sections _ _ _ t _ rfl rfl (count_eq_ok hfiles) (count_eq_ok hfunctions)
    (count_eq_ok hranges) (count_eq_ok hinlinees) (count_eq_ok hlineBlocks)
    (count_eq_ok hlineBytes) (count_eq_ok hstringBytes), ?_, count_eq_ok hstringBytes⟩
  exact ⟨ht, rfl, rfl, rfl, rfl, lt_of_count hfiles, lt_of_count hinlinees,
    lt_of_count hstringBytes⟩

theorem parse_toBytes {b : Builder} {bytes : Bytes} (h : b.toBytes = .ok bytes) :
    ∃ s, parse bytes = .ok s ∧ StoredBy s b := by
  obtain ⟨s, hparse, hstored, -⟩ := parse_written h
  exact ⟨s, hparse, hstored⟩

theorem string?_of_holds {s : SymCache} {b : Builder} (hstored : StoredBy s b) {offset : UInt32}
    {t : String} (h : StringTable.Holds b.pools.strings.toBytes offset t) :
    s.string? offset = StringTable.shown t := by
  have hfits := hstored.strings_fit
  rw [hstored.strings] at hfits
  rw [string?, hstored.strings]
  exact StringTable.read?_of_holds h hfits

end SymCache

end Postmortem
