import Postmortem.Proofs.CfiCache.SpareBytes
import Postmortem.Proofs.SymCache.Lookups
import Postmortem.Proofs.SymCache.WrittenLayout

/-!
# Spare bytes behind a symbol cache

Whatever follows the bytes of a symbol cache becomes part of its strings.  No string reference of a
written cache leads there, so its lookups give the same answers; and since the header says how long
the strings are, a written cache that is cut short is refused.  The same holds of unwind caches.
-/

set_option autoImplicit false

namespace Postmortem

namespace SymCache

variable {s : SymCache} {b : Bytes}

def extend (s : SymCache) (x : Bytes) : SymCache := { s with strings := s.strings ++ x }

/-! ## Reading -/

theorem Header.read?_extend {c c' : Cursor} {h : Header} (hread : read? c = some (h, c'))
    (x : Bytes) : read? (c.extend x) = some (h, c'.extend x) := by
  obtain ⟨⟨magic, c₁⟩, hmagic, hread⟩ := Option.bind_eq_some_iff.1 hread
  obtain ⟨⟨version, c₂⟩, hversion, hread⟩ := Option.bind_eq_some_iff.1 hread
  obtain ⟨⟨id, c₃⟩, hid, hread⟩ := Option.bind_eq_some_iff.1 hread
  obtain ⟨⟨arch, c₄⟩, harch, hread⟩ := Option.bind_eq_some_iff.1 hread
  obtain ⟨⟨files, c₅⟩, hfiles, hread⟩ := Option.bind_eq_some_iff.1 hread
  obtain ⟨⟨functions, c₆⟩, hfunctions, hread⟩ := Option.bind_eq_some_iff.1 hread
  obtain ⟨⟨ranges, c₇⟩, hranges, hread⟩ := Option.bind_eq_some_iff.1 hread
  obtain ⟨⟨inlinees, c₈⟩, hinlinees, hread⟩ := Option.bind_eq_some_iff.1 hread
  obtain ⟨⟨lineBlocks, c₉⟩, hlineBlocks, hread⟩ := Option.bind_eq_some_iff.1 hread
  obtain ⟨⟨lineBytes, c₁₀⟩, hlineBytes, hread⟩ := Option.bind_eq_some_iff.1 hread
  obtain ⟨⟨stringBytes, c₁₁⟩, hstringBytes, hread⟩ := Option.bind_eq_some_iff.1 hread
  obtain ⟨⟨loadAddress, c₁₂⟩, hloadAddress, hread⟩ := Option.bind_eq_some_iff.1 hread
  obtain ⟨⟨unused, c₁₃⟩, hunused, hread⟩ := Option.bind_eq_some_iff.1 hread
  cases hread
  refine Option.bind_eq_some_iff.2 ⟨_, Cursor.word32?_extend hmagic x, ?_⟩
  refine Option.bind_eq_some_iff.2 ⟨_, Cursor.word32?_extend hversion x, ?_⟩
  refine Option.bind_eq_some_iff.2 ⟨_, Cursor.take?_extend hid x, ?_⟩
  refine Option.bind_eq_some_iff.2 ⟨_, Cursor.word32?_extend harch x, ?_⟩
  refine Option.bind_eq_some_iff.2 ⟨_, Cursor.word32?_extend hfiles x, ?_⟩
  refine Option.bind_eq_some_iff.2 ⟨_, Cursor.word32?_extend hfunctions x, ?_⟩
  refine Option.bind_eq_some_iff.2 ⟨_, Cursor.word32?_extend hranges x, ?_⟩
  refine Option.bind_eq_some_iff.2 ⟨_, Cursor.word32?_extend hinlinees x, ?_⟩
  refine Option.bind_eq_some_iff.2 ⟨_, Cursor.word32?_extend hlineBlocks x, ?_⟩
  refine Option.bind_eq_some_iff.2 ⟨_, Cursor.word32?_extend hlineBytes x, ?_⟩
  refine Option.bind_eq_some_iff.2 ⟨_, Cursor.word32?_extend hstringBytes x, ?_⟩
  refine Option.bind_eq_some_iff.2 ⟨_, Cursor.word64?_extend hloadAddress x, ?_⟩
  exact Option.bind_eq_some_iff.2 ⟨_, Cursor.take?_extend hunused x, rfl⟩

theorem section?_extend {α : Type} [WordRecord α] {fault : Fault} {n : UInt32} {c c' : Cursor}
    {records : List α} (h : section? α fault n c = .ok (records, c')) (x : Bytes) :
    (section? α fault n (c.extend x)) = .ok (records, c'.extend x) := by
  obtain ⟨c₁, halign, h⟩ := bind_eq_ok.1 h
  refine bind_eq_ok.2 ⟨_, orFault_eq_ok.2 (Cursor.align?_extend (orFault_eq_ok.1 halign) x), ?_⟩
  exact orFault_eq_ok.2 (WordRecord.table?_extend (orFault_eq_ok.1 h) x)

/-- Accepted bytes are accepted with whatever follows them, which goes to the strings; and there are
as many strings as the header says, or more. -/
theorem parse_append (h : parse b = .ok s) (x : Bytes) :
    parse (b ++ x) = .ok (s.extend x) ∧
      s.header.counts.stringBytes.toNat ≤ s.strings.length := by
  obtain ⟨⟨header, c₁⟩, hheader, h⟩ := bind_eq_ok.1 h
  obtain ⟨_, hcheck, h⟩ := bind_eq_ok.1 h
  obtain ⟨⟨files, c₂⟩, hfiles, h⟩ := bind_eq_ok.1 h
  obtain ⟨⟨functions, c₃⟩, hfunctions, h⟩ := bind_eq_ok.1 h
  obtain ⟨⟨ranges, c₄⟩, hranges, h⟩ := bind_eq_ok.1 h
  obtain ⟨⟨inlinees, c₅⟩, hinlinees, h⟩ := bind_eq_ok.1 h
  obtain ⟨⟨lineBlocks, c₆⟩, hlineBlocks, h⟩ := bind_eq_ok.1 h
  obtain ⟨c₇, halignLines, h⟩ := bind_eq_ok.1 h
  obtain ⟨⟨lineProgram, c₈⟩, hlineProgram, h⟩ := bind_eq_ok.1 h
  obtain ⟨c₉, halignStrings, h⟩ := bind_eq_ok.1 h
  dsimp only at h
  split at h
  · cases h
  rename_i hfits
  cases h
  refine ⟨?_, Nat.not_lt.1 hfits⟩
  refine bind_eq_ok.2 ⟨_, orFault_eq_ok.2 (Header.read?_extend (orFault_eq_ok.1 hheader) x), ?_⟩
  refine bind_eq_ok.2 ⟨_, hcheck, ?_⟩
  refine bind_eq_ok.2 ⟨_, section?_extend hfiles x, ?_⟩
  refine bind_eq_ok.2 ⟨_, section?_extend hfunctions x, ?_⟩
  refine bind_eq_ok.2 ⟨_, section?_extend hranges x, ?_⟩
  refine bind_eq_ok.2 ⟨_, section?_extend hinlinees x, ?_⟩
  refine bind_eq_ok.2 ⟨_, section?_extend hlineBlocks x, ?_⟩
  refine bind_eq_ok.2
    ⟨_, orFault_eq_ok.2 (Cursor.align?_extend (orFault_eq_ok.1 halignLines) x), ?_⟩
  refine bind_eq_ok.2
    ⟨_, orFault_eq_ok.2 (Cursor.take?_extend (orFault_eq_ok.1 hlineProgram) x), ?_⟩
  refine bind_eq_ok.2
    ⟨_, orFault_eq_ok.2 (Cursor.align?_extend (orFault_eq_ok.1 halignStrings) x), ?_⟩
  have hmore : ¬ (c₉.extend x).rest.length < header.counts.stringBytes.toNat := by
    rw [Cursor.extend, List.length_append]
    omega
  dsimp only
  rw [if_neg hmore]
  rfl

/-! ## Lookups -/

theorem string?_extend {offset : UInt32} (h : s.HasString offset) (x : Bytes) :
    (s.extend x).string? offset = s.string? offset := by
  rcases h with rfl | ⟨t, ht⟩
  · rfl
  · rw [ht]
    exact StringTable.read?_append ht x

theorem function?_extend (hs : s.LaidOut) (x : Bytes) (i : UInt32) :
    (s.extend x).function? i = s.function? i := by
  rw [function?, function?]
  refine Option.map_congr fun f hf => ?_
  have hname := (hs.function_strings f (List.mem_of_getElem? hf)).1
  rw [functionOf, functionOf, string?_extend hname]

theorem file?_extend (hs : s.LaidOut) (x : Bytes) (i : UInt32) :
    (s.extend x).file? i = s.file? i := by
  rw [file?, file?]
  refine Option.map_congr fun f hf => ?_
  obtain ⟨hcompDir, hdirectory, hname⟩ := hs.file_strings f (List.mem_of_getElem? hf)
  rw [string?_extend hcompDir, string?_extend hdirectory, string?_extend hname]

theorem locate_extend (hs : s.LaidOut) (x : Bytes) :
    (s.extend x).locate = s.locate := by
  funext a function depth start firstBlock blockCount
  rw [locate, locate, function?_extend hs, file?_extend hs]
  rfl

theorem inlinees_extend (s : SymCache) (x : Bytes) : (s.extend x).inlinees = s.inlinees := rfl

theorem climb_extend (hs : s.LaidOut) (x : Bytes) (a : UInt32) (i : Nat) (n : InlineeRecord) :
    (s.extend x).climb a i n = s.climb a i n := by
  induction i using Nat.strongRecOn generalizing n with
  | ind i ih =>
      rw [climb, climb, locate_extend hs]
      split
      · rename_i hlt
        rw [inlinees_extend]
        cases s.inlinees[n.parent.toNat]? with
        | none => rfl
        | some p => exact congrArg _ (ih _ hlt p)
      · rfl

theorem lookup_extend (hs : s.LaidOut) (x : Bytes) : (s.extend x).lookup = s.lookup := by
  have hlocations (r : RangeRecord) (a : UInt32) :
      (s.extend x).locationsIn r a = s.locationsIn r a := by
    rw [locationsIn, locationsIn, locate_extend hs, inlinees_extend]
    cases innermost a r.firstInlinee.toNat none
        (part s.inlinees r.firstInlinee.toNat r.inlineeCount.toNat) with
    | none => rfl
    | some best => exact congrArg (· ++ _) (climb_extend hs x a best.1 best.2)
  funext a
  have hrelative : (s.extend x).relative? a = s.relative? a := rfl
  have hrange (a : UInt32) : (s.extend x).range? a = s.range? a := rfl
  rw [lookup, lookup, hrelative]
  cases s.relative? a with
  | none => rfl
  | some a =>
      dsimp only
      rw [hrange]
      cases s.range? a with
      | none => rfl
      | some r => exact hlocations r a

/-- A cache that is written from a builder ends where it says, and is looked up in the same way
whatever follows it. -/
theorem delimited_of_written {builder : Builder} (hbuilder : builder.Reached)
    (h : builder.toBytes = .ok b) : Delimited parse lookup b := by
  obtain ⟨s, hparse, hstored, hfull⟩ := parse_written h
  have hlaid := laidOut_of_storedBy hstored hbuilder.whole
  refine ⟨⟨s, hparse⟩, ?_, ?_⟩
  · intro p hp hne
    refine refused_of_strict_prefix
      (fun s => s.strings.length - s.header.counts.stringBytes.toNat) ?_ hparse ?_ hp hne
    · intro p s hs x
      obtain ⟨hmore, hle⟩ := parse_append hs x
      refine ⟨_, hmore, ?_⟩
      dsimp only [extend]
      rw [List.length_append]
      omega
    · omega
  · intro s' hs' x
    obtain rfl : s' = s := Except.ok.inj (hs'.symm.trans hparse)
    exact ⟨_, (parse_append hparse x).1, lookup_extend hlaid x⟩

end SymCache

/-- Whatever a builder has been through, and whatever object file it is about, the bytes of a symbol
cache and of an unwind cache are accepted; what is cut off them is missed; and lookups do not depend
on what follows them. -/
theorem written_caches_delimited {builder : SymCache.Builder} {o : Debug.Object}
    {symbols unwind : Bytes} (hbuilder : builder.Reached)
    (hsymbols : builder.toBytes = .ok symbols) (hunwind : CfiCache.ofObject o = .ok unwind) :
    Delimited SymCache.parse SymCache.lookup symbols ∧
      Delimited CfiCache.parse CfiCache.answer unwind :=
  ⟨SymCache.delimited_of_written hbuilder hsymbols, CfiCache.delimited_of_written hunwind⟩

theorem written_caches_delimited_sample : ∃ builder symbols unwind,
    SymCache.Builder.Reached builder ∧ builder.toBytes = .ok symbols ∧
    CfiCache.ofObject CfiCache.sampleObject = .ok unwind ∧
    Delimited SymCache.parse SymCache.lookup symbols ∧
      Delimited CfiCache.parse CfiCache.answer unwind := by
  obtain ⟨b, symbols, hadd, hsymbols⟩ := SymCache.sampleItems_written
  obtain ⟨unwind, hunwind⟩ := CfiCache.sampleObject_written
  have hreached : (SymCache.Builder.addAll SymCache.Builder.add {} SymCache.sampleItems).2.Reached :=
    SymCache.Builder.addAll_keeps (P := SymCache.Builder.Reached) (fun _ h i => h.add i) .empty _
  rw [hadd] at hreached
  have hset := hreached.settings .unknown .nil 0x1000
  exact ⟨_, symbols, unwind, hset, hsymbols, hunwind,
    written_caches_delimited hset hsymbols hunwind⟩

end Postmortem
