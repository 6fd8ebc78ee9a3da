/-!
# Patterns of text

Patterns with groups, matched from the start of a text.  A pattern can often be read in several
ways: a repetition may take more or fewer characters, and an option may be left out.  The ways are
tried in order, the longest repetition first and an option before its absence, and the first one
that leads to the end of the text gives the groups.
-/

set_option autoImplicit false

namespace Postmortem.Text

inductive Pattern where
  | text (t : List Char)
  /-- One character with a property. -/
  | one (p : Char → Bool)
  /-- As many characters with a property as possible, or fewer. -/
  | many (p : Char → Bool)
  | optional (t : List Char)
  | group (q : Pattern)
  | seq (q r : Pattern)

structure Reading where
  taken : List Char
  groups : List (List Char)
  rest : List Char

namespace Pattern

def oneOrMore (p : Char → Bool) : Pattern := seq (one p) (many p)

def fronts (p : Char → Bool) : List Char → List (List Char × List Char)
  | [] => [([], [])]
  | c :: cs =>
    (if p c then (fronts p cs).map fun (front, rest) => (c :: front, rest) else []) ++
      [([], c :: cs)]

def readings : Pattern → List Char → List Reading
  | text t, cs => if t.isPrefixOf cs then [⟨t, [], cs.drop t.length⟩] else []
  | one _, [] => []
  | one p, c :: cs => if p c then [⟨[c], [], cs⟩] else []
  | many p, cs => (fronts p cs).map fun (front, rest) => ⟨front, [], rest⟩
  | optional t, cs =>
    (if t.isPrefixOf cs then [⟨t, [], cs.drop t.length⟩] else []) ++ [⟨[], [], cs⟩]
  | group q, cs => (q.readings cs).map fun x => ⟨x.taken, x.taken :: x.groups, x.rest⟩
  | seq q r, cs => (q.readings cs).flatMap fun x =>
    (r.readings x.rest).map fun y => ⟨x.taken ++ y.taken, x.groups ++ y.groups, y.rest⟩

def captures? (q : Pattern) (cs : List Char) : Option (List (List Char)) :=
  ((q.readings cs).find? (·.rest.isEmpty)).map (·.groups)

inductive Matches : Pattern → List Char → List (List Char) → Prop where
  | text {t : List Char} : Matches (text t) t []
  | one {p : Char → Bool} {c : Char} (h : p c = true) : Matches (one p) [c] []
  | many {p : Char → Bool} {cs : List Char} (h : ∀ c ∈ cs, p c = true) : Matches (many p) cs []
  | present {t : List Char} : Matches (optional t) t []
  | absent {t : List Char} : Matches (optional t) [] []
  | group {q : Pattern} {cs : List Char} {gs : List (List Char)} (h : Matches q cs gs) :
      Matches (group q) cs (cs :: gs)
  | seq {q r : Pattern} {cs ds : List Char} {gs hs : List (List Char)} (hq : Matches q cs gs)
      (hr : Matches r ds hs) : Matches (seq q r) (cs ++ ds) (gs ++ hs)

/-! ## All ways to read a pattern -/

theorem mem_fronts_iff {p : Char → Bool} {cs front rest : List Char} :
    (front, rest) ∈ fronts p cs ↔ (∀ c ∈ front, p c = true) ∧ cs = front ++ rest := by
  induction cs generalizing front with
  | nil =>
      rw [fronts, List.mem_singleton, Prod.mk.injEq]
      constructor
      · rintro ⟨rfl, rfl⟩
        exact ⟨by simp, rfl⟩
      · rintro ⟨-, hnil⟩
        exact List.append_eq_nil_iff.1 hnil.symm
  | cons c cs ih =>
      rw [fronts, List.mem_append, List.mem_singleton]
      constructor
      · rintro (h | h)
        · split at h
          · rename_i hc
            obtain ⟨⟨tail, rest'⟩, htail, heq⟩ := List.mem_map.1 h
            cases heq
            obtain ⟨hall, rfl⟩ := ih.1 htail
            exact ⟨List.forall_mem_cons.2 ⟨hc, hall⟩, rfl⟩
          · cases h
        · cases h
          exact ⟨by simp, rfl⟩
      · rintro ⟨hall, hcs⟩
        cases front with
        | nil => exact .inr (congrArg (Prod.mk []) hcs.symm)
        | cons d tail =>
            cases hcs
            obtain ⟨hc, hall⟩ := List.forall_mem_cons.1 hall
            rw [if_pos hc]
            exact .inl (List.mem_map.2 ⟨(tail, rest), ih.2 ⟨hall, rfl⟩, rfl⟩)

theorem mem_textReadings_iff {t cs taken rest : List Char} {groups : List (List Char)} :
    ⟨taken, groups, rest⟩ ∈
        (if t.isPrefixOf cs then [⟨t, [], cs.drop t.length⟩] else [] : List Reading) ↔
      (taken = t ∧ groups = []) ∧ cs = taken ++ rest := by
  constructor
  · intro h
    split at h
    · rename_i hprefix
      obtain ⟨more, rfl⟩ := List.isPrefixOf_iff_prefix.1 hprefix
      rw [List.mem_singleton, List.drop_left] at h
      cases h
      exact ⟨⟨rfl, rfl⟩, rfl⟩
    · cases h
  · rintro ⟨⟨rfl, rfl⟩, rfl⟩
    rw [if_pos (List.isPrefixOf_iff_prefix.2 (List.prefix_append _ _)), List.drop_left]
    exact List.mem_singleton_self _

/-- The ways that are tried are those in which the pattern is read as a front of the text. -/
theorem mem_readings_iff {q : Pattern} {cs taken rest : List Char} {groups : List (List Char)} :
    ⟨taken, groups, rest⟩ ∈ q.readings cs ↔ q.Matches taken groups ∧ cs = taken ++ rest := by
  induction q generalizing cs taken groups rest with
  | text t =>
      rw [readings, mem_textReadings_iff]
      refine and_congr_left' ⟨?_, ?_⟩
      · rintro ⟨rfl, rfl⟩
        exact .text
      · rintro ⟨⟩
        exact ⟨rfl, rfl⟩
  | one p =>
      constructor
      · intro h
        cases cs with
        | nil => cases h
        | cons c cs =>
            rw [readings] at h
            split at h
            · rename_i hc
              cases List.mem_singleton.1 h
              exact ⟨.one hc, rfl⟩
            · cases h
      · rintro ⟨h, rfl⟩
        cases h with
        | one hc =>
            rw [List.singleton_append, readings, if_pos hc]
            exact List.mem_singleton_self _
  | many p =>
      constructor
      · intro h
        obtain ⟨⟨front, rest'⟩, hfront, heq⟩ := List.mem_map.1 h
        cases heq
        obtain ⟨hall, rfl⟩ := mem_fronts_iff.1 hfront
        exact ⟨.many hall, rfl⟩
      · rintro ⟨h, rfl⟩
        cases h with
        | many hall =>
            exact List.mem_map.2 ⟨(taken, rest), mem_fronts_iff.2 ⟨hall, rfl⟩, rfl⟩
  | optional t =>
      rw [readings, List.mem_append, mem_textReadings_iff]
      constructor
      · rintro (⟨⟨rfl, rfl⟩, rfl⟩ | h)
        · exact ⟨.present, rfl⟩
        · cases List.mem_singleton.1 h
          exact ⟨.absent, rfl⟩
      · rintro ⟨h, rfl⟩
        cases h with
        | present => exact .inl ⟨⟨rfl, rfl⟩, rfl⟩
        | absent => exact .inr (List.mem_singleton_self _)
  | group q ih =>
      constructor
      · intro h
        obtain ⟨⟨taken', groups', rest'⟩, hx, heq⟩ := List.mem_map.1 h
        cases heq
        obtain ⟨hq, rfl⟩ := ih.1 hx
        exact ⟨.group hq, rfl⟩
      · rintro ⟨h, rfl⟩
        cases h with
        | group hq => exact List.mem_map.2 ⟨_, ih.2 ⟨hq, rfl⟩, rfl⟩
  | seq q r ihq ihr =>
      constructor
      · intro h
        obtain ⟨⟨taken₁, groups₁, rest₁⟩, hx, h⟩ := List.mem_flatMap.1 h
        obtain ⟨⟨taken₂, groups₂, rest₂⟩, hy, heq⟩ := List.mem_map.1 h
        cases heq
        obtain ⟨hq, rfl⟩ := ihq.1 hx
        obtain ⟨hr, rfl⟩ := ihr.1 hy
        exact ⟨.seq hq hr, (List.append_assoc ..).symm⟩
      · rintro ⟨h, rfl⟩
        cases h with
        | seq hq hr =>
            refine List.mem_flatMap.2 ⟨_, ihq.2 ⟨hq, List.append_assoc ..⟩, ?_⟩
            exact List.mem_map.2 ⟨_, ihr.2 ⟨hr, rfl⟩, rfl⟩

theorem matches_seq_iff {q r : Pattern} {cs : List Char} {gs : List (List Char)} :
    (seq q r).Matches cs gs ↔ ∃ front rest first others, q.Matches front first ∧
      r.Matches rest others ∧ front ++ rest = cs ∧ first ++ others = gs := by
  constructor
  · intro h
    cases h with
    | seq hq hr => exact ⟨_, _, _, _, hq, hr, rfl, rfl⟩
  · rintro ⟨front, rest, first, others, hq, hr, rfl, rfl⟩
    exact .seq hq hr

theorem matches_oneOrMore_iff {p : Char → Bool} {cs : List Char} {gs : List (List Char)} :
    (oneOrMore p).Matches cs gs ↔ (cs ≠ [] ∧ ∀ c ∈ cs, p c = true) ∧ gs = [] := by
  constructor
  · intro h
    cases h with
    | seq hfirst hmany =>
        cases hfirst with
        | one hc =>
            cases hmany with
            | many hall => exact ⟨⟨by simp, List.forall_mem_cons.2 ⟨hc, hall⟩⟩, rfl⟩
  · rintro ⟨⟨hne, hall⟩, rfl⟩
    obtain ⟨c, cs, rfl⟩ := List.exists_cons_of_ne_nil hne
    obtain ⟨hc, hall⟩ := List.forall_mem_cons.1 hall
    exact .seq (.one hc) (.many hall)

theorem matches_of_captures? {q : Pattern} {cs : List Char} {gs : List (List Char)}
    (h : q.captures? cs = some gs) : q.Matches cs gs := by
  obtain ⟨⟨taken, groups, rest⟩, hx, rfl⟩ := Option.map_eq_some_iff.1 h
  obtain ⟨hq, rfl⟩ := mem_readings_iff.1 (List.mem_of_find?_eq_some hx)
  have hrest : rest.isEmpty = true :=
    List.find?_some (p := fun x : Reading => x.rest.isEmpty) hx
  rwa [List.isEmpty_iff.1 hrest, List.append_nil]

/-- A pattern that can be read as the whole text has groups. -/
theorem exists_captures?_of_matches {q : Pattern} {cs : List Char} {gs : List (List Char)}
    (h : q.Matches cs gs) : ∃ hs, q.captures? cs = some hs := by
  have hmem : (⟨cs, gs, []⟩ : Reading) ∈ q.readings cs :=
    mem_readings_iff.2 ⟨h, (List.append_nil cs).symm⟩
  cases hfind : (q.readings cs).find? (·.rest.isEmpty) with
  | none => exact absurd rfl (List.find?_eq_none.1 hfind _ hmem)
  | some x => exact ⟨x.groups, by rw [captures?, hfind, Option.map_some]⟩

end Pattern

end Postmortem.Text
