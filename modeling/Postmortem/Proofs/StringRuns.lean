import Mathlib
import Postmortem.Proofs.InsertedStrings
import Postmortem.Proofs.RelatedLists

/-!
# Strings inserted one after the other

Every offset that was handed out reads back as its string, whatever was inserted later and whatever
stands behind the table.  Two strings share an offset only if they are one string.
-/

set_option autoImplicit false

namespace Postmortem.StringTable

def insertEach? : StringTable → List String → Option (List UInt32 × StringTable)
  | t, [] => some ([], t)
  | t, s :: rest => do
    let (offset, t) ← t.insert? s
    let (offsets, t) ← insertEach? t rest
    return (offset :: offsets, t)

variable {t t' : StringTable} {texts : List String} {offsets : List UInt32}

theorem insertEach?_cons_eq_some {s : String}
    (h : t.insertEach? (s :: texts) = some (offsets, t')) :
    ∃ offset middle later, t.insert? s = some (offset, middle) ∧
      middle.insertEach? texts = some (later, t') ∧ offsets = offset :: later := by
  rw [insertEach?] at h
  obtain ⟨⟨offset, middle⟩, hfirst, h⟩ := Option.bind_eq_some_iff.1 h
  obtain ⟨⟨later, last⟩, hrest, h⟩ := Option.bind_eq_some_iff.1 h
  cases h
  exact ⟨offset, middle, later, hfirst, hrest, rfl⟩

/-- What a run of insertions leaves behind: a table that goes on from the first one and has each of
the strings at its offset. -/
structure Ran (t t' : StringTable) (texts : List String) (offsets : List UInt32) : Prop where
  distinct : t'.Distinct
  extends_first : t.Extends t'
  grown : t.toBytes <+: t'.toBytes
  inserted : List.Forall₂ (fun s offset => t'.offset? s = some offset) texts offsets

theorem ran_of_insertEach? (h : t.insertEach? texts = some (offsets, t')) (ht : t.Distinct) :
    Ran t t' texts offsets := by
  induction texts generalizing t offsets with
  | nil =>
      cases h
      exact ⟨ht, .refl _, List.prefix_refl _, .nil⟩
  | cons s texts ih =>
      obtain ⟨offset, middle, later, hfirst, hrest, rfl⟩ := insertEach?_cons_eq_some h
      have hran := ih hrest (ht.insert? hfirst)
      have hgrown := (insert?_sound ht.sound hfirst).2.1
      -- the first string keeps its offset while the others are inserted
      have hkept := hran.extends_first.offsets s offset (offset?_of_insert? hfirst)
      exact ⟨hran.distinct, (extends_of_insert? hfirst).trans hran.extends_first,
        hgrown.trans hran.grown, .cons hkept hran.inserted⟩

theorem insertEach?_append {early late : List String}
    (h : t.insertEach? (early ++ late) = some (offsets, t')) :
    ∃ first last middle, t.insertEach? early = some (first, middle) ∧
      middle.insertEach? late = some (last, t') ∧ offsets = first ++ last := by
  induction early generalizing t offsets with
  | nil => exact ⟨[], offsets, t, rfl, h, rfl⟩
  | cons s early ih =>
      obtain ⟨offset, next, later, hfirst, hrest, rfl⟩ := insertEach?_cons_eq_some h
      obtain ⟨first, last, middle, hearly, hlate, rfl⟩ := ih hrest
      refine ⟨offset :: first, last, middle, ?_, hlate, rfl⟩
      rw [insertEach?, hfirst]
      simp only [Option.bind_eq_bind, Option.bind_some, hearly]
      rfl

/-! ## Reading the offsets -/

theorem offset?_eq_absent_iff {s : String} {offset : UInt32} (ht : t.Sound)
    (h : t.offset? s = some offset) : offset = absent ↔ s = "" := by
  have hholds := holds_of_offset? ht h
  rw [Holds] at hholds
  by_cases hs : s.isEmpty = true
  · rw [if_pos hs] at hholds
    exact iff_of_true hholds (String.isEmpty_iff.1 hs)
  · rw [if_neg hs] at hholds
    exact iff_of_false hholds.1 (mt String.isEmpty_iff.2 hs)

/-- What stands behind a table does not change what its offsets read. -/
theorem read?_of_offset? {s : String} {offset : UInt32} (ht : t.Sound)
    (h : t.offset? s = some offset) (hs : s.utf8ByteSize < UInt64.size) (more : Bytes) :
    read? (t.toBytes ++ more) offset = shown s :=
  read?_of_holds_of_lt ((holds_of_offset? ht h).mono (List.prefix_append _ _)) hs

/-- If strings were inserted one after the other into an empty table, the offset of each reads back
as the string from the bytes of the last table and whatever follows them.  Only the empty string has
the absent offset, and reads as no string.  Two offsets are equal exactly if their strings are.
After any number of insertions, what the offsets so far read is what they read in the end. -/
theorem inserted_strings_read_back (h : empty.insertEach? texts = some (offsets, t))
    (hsizes : ∀ s ∈ texts, s.utf8ByteSize < UInt64.size) :
    List.Forall₂ (fun s offset => (offset = absent ↔ s = "") ∧
      ∀ more, read? (t.toBytes ++ more) offset = if s = "" then none else some s) texts offsets ∧
    (∀ p ∈ texts.zip offsets, ∀ q ∈ texts.zip offsets, p.2 = q.2 ↔ p.1 = q.1) ∧
    ∀ early late, texts = early ++ late →
      ∃ first last middle, empty.insertEach? early = some (first, middle) ∧
        offsets = first ++ last ∧ middle.toBytes <+: t.toBytes ∧
        ∀ offset ∈ first, ∀ more more',
          read? (middle.toBytes ++ more) offset = read? (t.toBytes ++ more') offset := by
  have hran := ran_of_insertEach? h distinct_empty
  obtain ⟨hlength, hzip⟩ := List.forall₂_iff_zip.1 hran.inserted
  have hread {s : String} {offset : UInt32} (hp : (s, offset) ∈ texts.zip offsets) (more : Bytes) :
      read? (t.toBytes ++ more) offset = shown s :=
    read?_of_offset? hran.distinct.sound (hzip hp) (hsizes s (List.of_mem_zip hp).1) more
  refine ⟨List.forall₂_iff_zip.2 ⟨hlength, fun {s offset} hp => ⟨?_, fun more => ?_⟩⟩, ?_, ?_⟩
  · exact offset?_eq_absent_iff hran.distinct.sound (hzip hp)
  · rw [hread hp more, shown]
    simp only [String.isEmpty_iff]
  · rintro ⟨s, offset⟩ hp ⟨r, offset'⟩ hq
    constructor
    · rintro rfl
      exact shown_injective ((hread hp []).symm.trans (hread hq []))
    · rintro rfl
      exact Option.some.inj ((hzip hp).symm.trans (hzip hq))
  · rintro early late rfl
    obtain ⟨first, last, middle, hearly, hlate, rfl⟩ := insertEach?_append h
    have hfirst := ran_of_insertEach? hearly distinct_empty
    have hrest := ran_of_insertEach? hlate hfirst.distinct
    refine ⟨first, last, middle, hearly, rfl, hrest.grown, fun offset hoffset more more' => ?_⟩
    obtain ⟨s, hs, hnow⟩ := exists_left hfirst.inserted hoffset
    have hsize := hsizes s (List.mem_append_left _ hs)
    rw [read?_of_offset? hfirst.distinct.sound hnow hsize more,
      read?_of_offset? hran.distinct.sound (hrest.extends_first.offsets s offset hnow) hsize more']

def sampleTexts : List String :=
  ["main", "größe", "", "größe", "main.c", ""]

theorem inserted_strings_read_back_sample :
    ∃ t, empty.insertEach? sampleTexts = some ([0, 5, absent, 5, 13, absent], t) ∧
      ∀ more, read? (t.toBytes ++ more) 5 = some "größe" := by
  have hrun : (empty.insertEach? sampleTexts).map Prod.fst =
      some [0, 5, absent, 5, 13, absent] := by cbv
  have hsizes : ∀ s ∈ sampleTexts, s.utf8ByteSize < UInt64.size := by decide +kernel
  obtain ⟨⟨offsets, t⟩, ht, rfl⟩ := Option.map_eq_some_iff.1 hrun
  obtain ⟨hread, -, -⟩ := inserted_strings_read_back ht hsizes
  obtain ⟨-, hread⟩ := List.forall₂_cons.1 hread
  obtain ⟨⟨-, hread⟩, -⟩ := List.forall₂_cons.1 hread
  exact ⟨t, ht, hread⟩

end Postmortem.StringTable
