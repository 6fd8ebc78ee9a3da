import Postmortem.Proofs.CfiCache.RuleLookups
import Postmortem.Proofs.LongerInputs

/-!
# Spare bytes behind an unwind cache

Whatever follows the bytes of an unwind cache becomes part of its strings.  The programs of a written
cache refer to none of it, whether they can be read or not, so its lookups give the same answers;
and since the header says how long the strings are, a written cache that is cut short is refused.
-/

set_option autoImplicit false

namespace Postmortem

/-- A number that does not fit 64 bits is refused. -/
theorem Leb128.readNat_ofNat_eq_none (left : Nat) {n : Nat} (rest : Bytes) (h : 2 * 128 ^ left ≤ n) :
    (readNat left (ofNat n ++ rest)).1 = none := by
  induction left generalizing n with
  | zero =>
      have hn : 2 ≤ n := by simpa using h
      rw [ofNat]
      split
      · have hb : ¬ UInt8.ofNat n ≤ 1 := by
          rw [UInt8.le_iff_toNat_le, toNat_ofNat_of_lt (by omega)]
          exact Nat.not_le.2 hn
        rw [List.singleton_append, readNat, if_neg hb]
      · have hb : ¬ UInt8.ofNat (n % 128 + 128) ≤ 1 := by
          rw [UInt8.le_iff_toNat_le, toNat_ofNat_of_lt (by omega)]
          exact Nat.not_le.2 (show 1 < n % 128 + 128 by omega)
        rw [List.cons_append, readNat, if_neg hb]
  | succ left ih =>
      rw [Nat.pow_succ] at h
      have hpos : 0 < 128 ^ left := Nat.pow_pos (by omega)
      have hlarge : ¬ n < 128 := by omega
      have hb : ¬ UInt8.ofNat (n % 128 + 128) < 128 := by
        rw [ofNat_lt_128_iff (by omega)]
        omega
      have hhigh := ih (n := n / 128) (by omega)
      rw [ofNat, if_neg hlarge, List.cons_append, readNat, if_neg hb]
      dsimp only
      rw [hhigh, Option.map_none]

namespace CfiCache

open StringTable (Holds)

variable {s : CfiCache} {b : Bytes}

def extend (s : CfiCache) (x : Bytes) : CfiCache :=
  { s with bytes := s.bytes ++ x, strings := s.strings ++ x }

/-! ## Reading -/

theorem Header.read?_extend {c c' : Cursor} {h : Header} (hread : read? c = some (h, c'))
    (x : Bytes) : read? (c.extend x) = some (h, c'.extend x) := by
  obtain ⟨⟨magic, c₁⟩, hmagic, hread⟩ := Option.bind_eq_some_iff.1 hread
  obtain ⟨⟨version, c₂⟩, hversion, hread⟩ := Option.bind_eq_some_iff.1 hread
  obtain ⟨⟨arch, c₃⟩, harch, hread⟩ := Option.bind_eq_some_iff.1 hread
  obtain ⟨⟨entries, c₄⟩, hentries, hread⟩ := Option.bind_eq_some_iff.1 hread
  obtain ⟨⟨programBytes, c₅⟩, hprogramBytes, hread⟩ := Option.bind_eq_some_iff.1 hread
  obtain ⟨⟨stringBytes, c₆⟩, hstringBytes, hread⟩ := Option.bind_eq_some_iff.1 hread
  obtain ⟨⟨loadAddress, c₇⟩, hloadAddress, hread⟩ := Option.bind_eq_some_iff.1 hread
  obtain ⟨⟨unused, c₈⟩, hunused, hread⟩ := Option.bind_eq_some_iff.1 hread
  cases hread
  refine Option.bind_eq_some_iff.2 ⟨_, Cursor.word32?_extend hmagic x, ?_⟩
  refine Option.bind_eq_some_iff.2 ⟨_, Cursor.word32?_extend hversion x, ?_⟩
  refine Option.bind_eq_some_iff.2 ⟨_, Cursor.word32?_extend harch x, ?_⟩
  refine Option.bind_eq_some_iff.2 ⟨_, Cursor.word32?_extend hentries x, ?_⟩
  refine Option.bind_eq_some_iff.2 ⟨_, Cursor.word32?_extend hprogramBytes x, ?_⟩
  refine Option.bind_eq_some_iff.2 ⟨_, Cursor.word32?_extend hstringBytes x, ?_⟩
  refine Option.bind_eq_some_iff.2 ⟨_, Cursor.word64?_extend hloadAddress x, ?_⟩
  exact Option.bind_eq_some_iff.2 ⟨_, Cursor.take?_extend hunused x, rfl⟩

/-- Accepted bytes are accepted with whatever follows them, which goes to the strings; and there are
as many strings as the header says, or more. -/
theorem parse_append (h : parse b = .ok s) (x : Bytes) :
    parse (b ++ x) = .ok (s.extend x) ∧ s.header.stringBytes.toNat ≤ s.strings.length := by
  obtain ⟨⟨header, c₁⟩, hheader, h⟩ := bind_eq_ok.1 h
  obtain ⟨_, hcheck, h⟩ := bind_eq_ok.1 h
  obtain ⟨c₂, halignEntries, h⟩ := bind_eq_ok.1 h
  obtain ⟨⟨entries, c₃⟩, hentries, h⟩ := bind_eq_ok.1 h
  obtain ⟨c₄, halignPrograms, h⟩ := bind_eq_ok.1 h
  obtain ⟨⟨programs, c₅⟩, hprograms, h⟩ := bind_eq_ok.1 h
  obtain ⟨c₆, halignStrings, h⟩ := bind_eq_ok.1 h
  split at h
  · cases h
  rename_i hfits
  cases h
  refine ⟨?_, Nat.not_lt.1 hfits⟩
  refine bind_eq_ok.2 ⟨_, orFault_eq_ok.2 (Header.read?_extend (orFault_eq_ok.1 hheader) x), ?_⟩
  refine bind_eq_ok.2 ⟨_, hcheck, ?_⟩
  refine bind_eq_ok.2
    ⟨_, orFault_eq_ok.2 (Cursor.align?_extend (orFault_eq_ok.1 halignEntries) x), ?_⟩
  refine bind_eq_ok.2
    ⟨_, orFault_eq_ok.2 (WordRecord.table?_extend (orFault_eq_ok.1 hentries) x), ?_⟩
  refine bind_eq_ok.2
    ⟨_, orFault_eq_ok.2 (Cursor.align?_extend (orFault_eq_ok.1 halignPrograms) x), ?_⟩
  refine bind_eq_ok.2
    ⟨_, orFault_eq_ok.2 (Cursor.take?_extend (orFault_eq_ok.1 hprograms) x), ?_⟩
  refine bind_eq_ok.2
    ⟨_, orFault_eq_ok.2 (Cursor.align?_extend (orFault_eq_ok.1 halignStrings) x), ?_⟩
  have hmore : ¬ (c₆.extend x).rest.length < header.stringBytes.toNat := by
    rw [Cursor.extend, List.length_append]
    omega
  rw [if_neg hmore]
  rfl

/-! ## Programs -/

/-- The text that is read at a written offset does not depend on what follows the strings. -/
theorem readText?_insertText {t t' : StringTable} {text : String} {offset : UInt32}
    (ht : t.Sound) (h : insertText t text = .ok (offset, t')) {strings : Bytes}
    (hstrings : StringsOf t' strings) (x rest : Bytes) :
    readText? (strings ++ x) (Leb128.ofNat offset.toNat ++ rest) =
      readText? strings (Leb128.ofNat offset.toNat ++ rest) ∧
    ∀ p, readText? strings (Leb128.ofNat offset.toNat ++ rest) = some p → p.2 = rest := by
  obtain ⟨-, -, hholds⟩ := StringTable.insert?_sound ht (orFault_eq_ok.1 h)
  have hread := StringTable.read?_of_holds (hholds.mono hstrings.grown) hstrings.fits
  have hmore : StringTable.read? (strings ++ x) offset = StringTable.read? strings offset := by
    rw [hread]
    rw [StringTable.shown] at hread ⊢
    split at hread
    · rename_i hempty
      rw [Holds, if_pos hempty] at hholds
      rw [hholds, if_pos hempty]
      rfl
    · rename_i hne
      rw [if_neg hne]
      exact StringTable.read?_append hread x
  rw [readText?, readText?, Leb128.read32_ofNat]
  refine ⟨congrArg (fun o : Option String => o.bind fun text => some (text, rest)) hmore, ?_⟩
  intro p hp
  obtain ⟨_, -, hp⟩ := Option.bind_eq_some_iff.1 hp
  obtain ⟨_, -, hp⟩ := Option.bind_eq_some_iff.1 hp
  cases hp
  rfl

theorem readDeltas?_encodeDeltas {deltas : List (UInt64 × String)} {previous : UInt64}
    {t t' : StringTable} {bytes : Bytes} (ht : t.Sound)
    (h : encodeDeltas previous t deltas = .ok (bytes, t')) {strings : Bytes}
    (hstrings : StringsOf t' strings) (x rest : Bytes) (start : UInt64) :
    readDeltas? (strings ++ x) deltas.length start (bytes ++ rest) =
      readDeltas? strings deltas.length start (bytes ++ rest) := by
  induction deltas generalizing previous t bytes start with
  | nil => rfl
  | cons d deltas ih =>
      obtain ⟨a, text⟩ := d
      obtain ⟨⟨offset, t₁⟩, hinsert, h⟩ := bind_eq_ok.1 h
      obtain ⟨⟨others, t₂⟩, hothers, h⟩ := bind_eq_ok.1 h
      cases h
      have hsound := (insertText_spec ht hinsert).1
      have hgrown := (encodeDeltas_spec hsound hothers).2.1
      obtain ⟨hmore, hrest⟩ :=
        readText?_insertText ht hinsert (hstrings.mono hgrown) x (others ++ rest)
      rw [List.length_cons, readDeltas?, readDeltas?, List.append_assoc, List.append_assoc,
        Leb128.read_encode]
      dsimp only [Option.bind_eq_bind, Option.bind_some]
      refine Option.bind_congr fun next _ => ?_
      rw [hmore]
      refine Option.bind_congr fun p hp => ?_
      rw [hrest p hp, ih hsound hothers next]

/-- Whether the program of a record is the same whatever follows the strings. -/
def Settled (programs : Bytes) (t : StringTable) (e : EntryRecord) : Prop :=
  ∀ s : CfiCache, programs <+: s.programs → StringsOf t s.strings → ∀ x start,
    (s.extend x).readProgram? start e.program = s.readProgram? start e.program

theorem Settled.mono {programs programs' : Bytes} {t t' : StringTable} {e : EntryRecord}
    (h : Settled programs t e) (hprograms : programs <+: programs')
    (ht : t.toBytes <+: t'.toBytes) : Settled programs' t' e :=
  fun s hs hstrings => h s (hprograms.trans hs) (hstrings.mono ht)

/-- A written program is the same whatever follows the strings, also if it cannot be read. -/
theorem readProgram?_extend {first start : UInt64} {p : Program} {t t' : StringTable}
    {bytes : Bytes} (ht : t.Sound) (h : encodeProgram first t p = .ok (bytes, t'))
    (hstrings : StringsOf t' s.strings) {offset : UInt32}
    (hbytes : bytes <+: s.programs.drop offset.toNat) (x : Bytes) :
    (s.extend x).readProgram? start offset = s.readProgram? start offset := by
  obtain ⟨⟨init, t₁⟩, hinsert, h⟩ := bind_eq_ok.1 h
  obtain ⟨⟨deltas, t₂⟩, hdeltas, h⟩ := bind_eq_ok.1 h
  cases h
  have hsound := (insertText_spec ht hinsert).1
  have hgrown := (encodeDeltas_spec hsound hdeltas).2.1
  obtain ⟨rest, hrest⟩ := hbytes
  obtain ⟨hmore, hleft⟩ := readText?_insertText ht hinsert (hstrings.mono hgrown) x
    (Leb128.ofNat p.deltas.length ++ (deltas ++ rest))
  have hprograms : (s.extend x).programs = s.programs := rfl
  have hextended : (s.extend x).strings = s.strings ++ x := rfl
  rw [readProgram?, readProgram?, hprograms, hextended]
  by_cases hout : s.programs.length < offset.toNat
  · rw [if_pos hout, if_pos hout]
    rfl
  rw [if_neg hout, if_neg hout, ← hrest, List.append_assoc, List.append_assoc, hmore]
  refine Option.bind_congr fun q hq => ?_
  dsimp only
  rw [hleft q hq]
  by_cases hfits : p.deltas.length < UInt64.size
  · have hcount : (UInt64.ofNat p.deltas.length).toNat = p.deltas.length := by
      rw [UInt64.toNat_ofNat']
      exact Nat.mod_eq_of_lt hfits
    rw [Leb128.read_ofNat _ _ hfits]
    dsimp only [Option.bind_eq_bind, Option.bind_some]
    rw [hcount, readDeltas?_encodeDeltas hsound hdeltas hstrings x rest start]
  · have hnone := Leb128.readNat_ofNat_eq_none 9 (n := p.deltas.length)
      (deltas ++ rest) (by simpa [UInt64.size] using hfits)
    rw [Leb128.read]
    dsimp only
    rw [hnone]
    rfl

theorem settled_of_push {load : UInt64} {sections sections' : Sections} {c : Claim ConvertedTable}
    (hs : sections.strings.Sound)
    (hbefore : ∀ e ∈ sections.entries, Settled sections.programs sections.strings e)
    (h : sections.push load c = .ok sections') :
    ∀ e ∈ sections'.entries, Settled sections'.programs sections'.strings e := by
  obtain ⟨-, hprograms, hstrings, -⟩ := Sections.push_spec hs h
  rw [Sections.push] at h
  split at h
  · cases h
  rename_i hlength
  obtain ⟨⟨bytes, strings⟩, hprogram, h⟩ := bind_eq_ok.1 h
  obtain ⟨start, -, h⟩ := bind_eq_ok.1 h
  obtain ⟨stop, -, h⟩ := bind_eq_ok.1 h
  cases h
  have hoffset : (UInt32.ofNat sections.programs.length).toNat = sections.programs.length := by
    rw [UInt32.toNat_ofNat']
    exact Nat.mod_eq_of_lt (Nat.not_le.1 hlength)
  intro e he
  rcases List.mem_append.1 he with he | he
  · exact (hbefore e he).mono hprograms hstrings
  · obtain rfl := List.mem_singleton.1 he
    rintro s ⟨more, hmore⟩ hs' x first
    refine readProgram?_extend hs hprogram hs' ?_ x
    rw [hoffset, ← hmore, List.append_assoc, List.drop_left]
    exact List.prefix_append _ _

theorem settled_of_pushAll {load : UInt64} {claims : List (Claim ConvertedTable)}
    {sections sections' : Sections} (hs : sections.strings.Sound)
    (hbefore : ∀ e ∈ sections.entries, Settled sections.programs sections.strings e)
    (h : claims.foldlM (Sections.push load) sections = .ok sections') :
    ∀ e ∈ sections'.entries, Settled sections'.programs sections'.strings e := by
  induction claims generalizing sections with
  | nil =>
      cases h
      exact hbefore
  | cons c claims ih =>
      rw [List.foldlM_cons] at h
      obtain ⟨sections₁, hpush, h⟩ := bind_eq_ok.1 h
      exact ih (Sections.push_spec hs hpush).1 (settled_of_push hs hbefore hpush) h

/-! ## Lookups -/

structure Answer where
  entry : Option Entry
  program : Option String
  rules : (w : Postfix.Width) → Option (List (Postfix.Rule w))

def answer (s : CfiCache) (a : UInt64) : Answer :=
  { entry := s.entry? a, program := s.programAt? a, rules := fun w => s.lookup? w a }

theorem answer_congr {s' : CfiCache} (h : entry? s' = entry? s) : s'.answer = s.answer := by
  have hprogram : s'.programAt? = s.programAt? := by
    funext a
    rw [programAt?, programAt?, h]
  funext a
  simp only [answer, h, hprogram, lookup?]

theorem decode?_extend {x : Bytes} {e : EntryRecord}
    (h : (s.extend x).readProgram? (addSaturating s.loadAddress e.start.toUInt64) e.program =
      s.readProgram? (addSaturating s.loadAddress e.start.toUInt64) e.program) :
    (s.extend x).decode? e = s.decode? e := by
  have hload : (s.extend x).loadAddress = s.loadAddress := rfl
  rw [decode?, decode?, hload, h]

def found (entries : List EntryRecord) (a : UInt32) : Option EntryRecord :=
  match Bisect.partitionPoint entries.length fun i => (entries[i]?.map (·.start)).getD 0 ≤ a with
  | 0 => none
  | i + 1 => entries[i]?.filter fun e => a < e.stop

theorem mem_of_found {entries : List EntryRecord} {a : UInt32} {e : EntryRecord}
    (h : found entries a = some e) : e ∈ entries := by
  unfold found at h
  split at h
  · cases h
  · exact List.mem_of_getElem? (Option.filter_eq_some_iff.1 h).1

theorem entry?_eq_found (s : CfiCache) (a : UInt64) :
    s.entry? a = (offset32? a s.loadAddress).bind fun a => (found s.entries a).bind s.decode? := by
  unfold entry? found
  cases offset32? a s.loadAddress with
  | none => rfl
  | some a =>
      dsimp only [Option.bind_some]
      generalize Bisect.partitionPoint s.entries.length _ = n
      cases n <;> rfl

theorem entry?_extend {x : Bytes} (h : ∀ e ∈ s.entries, (s.extend x).decode? e = s.decode? e) :
    entry? (s.extend x) = entry? s := by
  funext a
  rw [entry?_eq_found, entry?_eq_found]
  refine Option.bind_congr fun a _ => Option.bind_congr fun e he => ?_
  exact h e (mem_of_found he)

/-- The bytes of a cache are accepted, the strings are as long as the header says, and each entry is
the same whatever follows them. -/
theorem parse_settled {o : Debug.Object} (h : ofObject o = .ok b) :
    ∃ s, parse b = .ok s ∧ s.header.stringBytes.toNat = s.strings.length ∧
      ∀ x, ∀ e ∈ s.entries, (s.extend x).decode? e = s.decode? e := by
  obtain ⟨tables, htables, h⟩ := bind_eq_ok.1 h
  obtain ⟨sections, hsections, h⟩ := bind_eq_ok.1 h
  obtain ⟨entries, hentries, h⟩ := bind_eq_ok.1 h
  obtain ⟨programBytes, hprogramBytes, h⟩ := bind_eq_ok.1 h
  obtain ⟨stringBytes, hstringBytes, h⟩ := bind_eq_ok.1 h
  rw [← Except.ok.inj h]
  have hfits : sections.strings.toBytes.length < UInt32.size :=
    count_eq_ok hstringBytes ▸ stringBytes.toNat_lt
  have hparse := parse_sections
    { arch := o.arch.code, entries, programBytes, stringBytes, loadAddress := o.loadAddress }
    sections.entries sections.programs sections.strings.toBytes rfl rfl (count_eq_ok hentries)
    (count_eq_ok hprogramBytes) (count_eq_ok hstringBytes)
  refine ⟨_, hparse, count_eq_ok hstringBytes, ?_⟩
  intro x e he
  have hsettled := settled_of_pushAll StringTable.sound_empty (by simp) hsections e he
  exact decode?_extend (hsettled _ (List.prefix_refl _) ⟨List.prefix_refl _, hfits⟩ x _)

/-- A cache that is written from unwind tables ends where it says, and is looked up in the same way
whatever follows it. -/
theorem delimited_of_written {o : Debug.Object} (h : ofObject o = .ok b) :
    Delimited parse answer b := by
  obtain ⟨s, hparse, hfull, hdecode⟩ := parse_settled h
  refine ⟨⟨s, hparse⟩, ?_, ?_⟩
  · intro p hp hne
    refine refused_of_strict_prefix
      (fun s => s.strings.length - s.header.stringBytes.toNat) ?_ hparse ?_ hp hne
    · intro p s hs x
      obtain ⟨hmore, hle⟩ := parse_append hs x
      refine ⟨_, hmore, ?_⟩
      dsimp only [extend]
      rw [List.length_append]
      omega
    · omega
  · intro s' hs' x
    obtain rfl : s' = s := Except.ok.inj (hs'.symm.trans hparse)
    exact ⟨_, (parse_append hparse x).1, answer_congr (entry?_extend (hdecode x))⟩

end CfiCache

end Postmortem
