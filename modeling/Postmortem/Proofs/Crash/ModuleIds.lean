import Postmortem.Crash.Walker
import Postmortem.Proofs.Blanks
import Postmortem.Proofs.DebugIds
import Postmortem.Proofs.SortedMaps

/-!
# Spellings of module identifiers

An identifier is read back from the text that is written for it, and from each text that differs
from it in the case of letters and in the blanks around it.  So a cache that was registered under
one spelling is found under all others.
-/

set_option autoImplicit false

namespace Postmortem.Crash

open Text (isBlank trimBlanks)

namespace ModuleId

/-- Whether two texts are the same but for the case of ASCII letters and the blanks around them. -/
def SpelledAlike (s t : String) : Prop :=
  (trimBlanks s.toList).map Char.toLower = (trimBlanks t.toList).map Char.toLower

instance (s t : String) : Decidable (SpelledAlike s t) := inferInstanceAs (Decidable (_ = _))

theorem parse?_eq (s : String) : parse? s =
    ((DebugId.readChars? .compactOnly (trimBlanks s.toList)).or
      (DebugId.readChars? .either (trimBlanks s.toList))).map ModuleId.mk := by
  rw [parse?, DebugId.parseCompact?, DebugId.parse?, String.toList_ofList]

theorem parse?_of_spelledAlike {s t : String} (h : SpelledAlike s t) : parse? s = parse? t := by
  have hread (r : DebugId.Reading) : DebugId.readChars? r (trimBlanks s.toList) =
      DebugId.readChars? r (trimBlanks t.toList) := by
    rw [← DebugId.readChars?_map_toLower, h, DebugId.readChars?_map_toLower]
  rw [parse?_eq, parse?_eq, hread, hread]

theorem trimBlanks_map_toLower (cs : List Char) :
    trimBlanks (cs.map Char.toLower) = (trimBlanks cs).map Char.toLower := by
  have hblank : isBlank ∘ Char.toLower = isBlank := funext Text.isBlank_toLower
  simp only [trimBlanks, List.dropWhile_map, hblank, ← List.map_reverse]

theorem spelledAlike_of_case {s t : String}
    (h : s.toList.map Char.toLower = t.toList.map Char.toLower) : SpelledAlike s t := by
  rw [SpelledAlike, ← trimBlanks_map_toLower, h, trimBlanks_map_toLower]

theorem spelledAlike_of_blanks {before after : List Char} (hbefore : ∀ c ∈ before, isBlank c = true)
    (hafter : ∀ c ∈ after, isBlank c = true) (s : String) :
    SpelledAlike (String.ofList (before ++ s.toList ++ after)) s := by
  rw [SpelledAlike, String.toList_ofList, Text.trimBlanks_surrounded hbefore hafter]

/-- An identifier is read back from its text. -/
theorem parse?_toText {m : ModuleId} (h : m.id.Spellable) : parse? m.toText = some m := by
  have hsolid : ∀ c ∈ m.id.compact, isBlank c = false :=
    fun c hc => Text.isBlank_of_isHexDigit (DebugId.isHex_compact m.id c hc)
  rw [parse?_eq, toText, DebugId.toCompactText, String.toList_ofList,
    Text.trimBlanks_of_solid hsolid, DebugId.readChars?_compact h]
  rfl

theorem spellable_of_parse? {s : String} {m : ModuleId} (h : parse? s = some m) :
    m.id.Spellable := by
  rw [parse?_eq] at h
  obtain ⟨id, hid, rfl⟩ := Option.map_eq_some_iff.1 h
  rcases Option.or_eq_some_iff.1 hid with hid | ⟨-, hid⟩
  · exact DebugId.spellable_of_readChars? hid
  · exact DebugId.spellable_of_readChars? hid

/-- The hyphenated spelling is read as the identifier, unless it is too short. -/
theorem parse?_hyphenated {m : ModuleId} (h : m.id.Spellable) :
    parse? m.id.toText = if m.id.TooShort then none else some m := by
  have hsolid : ∀ c ∈ m.id.hyphenated, isBlank c = false := by
    intro c hc
    rcases DebugId.isHexDigit_or_hyphen hc with hdigit | rfl
    · exact Text.isBlank_of_isHexDigit hdigit
    · decide
  rw [parse?_eq, DebugId.toText, String.toList_ofList, Text.trimBlanks_of_solid hsolid,
    DebugId.readChars?_hyphenated_compactOnly h, DebugId.readChars?_hyphenated h, Option.none_or]
  split
  · rfl
  · rfl

end ModuleId

namespace FrameInfoMap

/-- Whether a map was filled by registering caches one after the other, each for the identifier that
is read from a text. -/
inductive FilledBy : FrameInfoMap → List (String × CfiCache) → Prop where
  | empty : FilledBy .empty []
  | register {m : FrameInfoMap} {calls : List (String × CfiCache)} {s : String} {id : ModuleId}
    (c : CfiCache) : FilledBy m calls → ModuleId.parse? s = some id →
      FilledBy (m.register id c).2 (calls ++ [(s, c)])

def registeredLast? (id : ModuleId) (calls : List (String × CfiCache)) : Option CfiCache :=
  (calls.reverse.find? fun call => ModuleId.parse? call.1 = some id).map Prod.snd

variable {m : FrameInfoMap} {calls : List (String × CfiCache)}

theorem find?_of_filledBy (h : m.FilledBy calls) (id : ModuleId) :
    m.find? id = registeredLast? id calls := by
  induction h with
  | empty => rfl
  | @register m calls s other c _ hs ih =>
      rw [register, registeredLast?, List.reverse_concat, List.find?_cons, hs]
      -- The call that was added last is the first one that is looked at.
      by_cases hid : other = id
      · subst hid
        simp
      · have hne : decide (some other = some id) = false := by simpa using hid
        rw [hne, SortedMap.find?_insert_of_ne m (Ne.symm hid), ih, registeredLast?]

end FrameInfoMap

/-- An identifier is read back from its text, a text is read the same whatever the case of its
letters and whatever blanks are around it, and a map of caches gives for each spelling of an
identifier the cache that was registered last for it. -/
theorem ids_survive_respelling :
    (∀ m : ModuleId, m.id.Spellable → ModuleId.parse? m.toText = some m) ∧
    (∀ s t : String, s.toList.map Char.toLower = t.toList.map Char.toLower →
      ModuleId.parse? s = ModuleId.parse? t) ∧
    (∀ (s : String) (before after : List Char), (∀ c ∈ before, isBlank c = true) →
      (∀ c ∈ after, isBlank c = true) →
      ModuleId.parse? (String.ofList (before ++ s.toList ++ after)) = ModuleId.parse? s) ∧
    ∀ (m : FrameInfoMap) (calls : List (String × CfiCache)), m.FilledBy calls →
      ∀ (s t : String) (id : ModuleId), ModuleId.parse? s = some id →
        ModuleId.SpelledAlike s t → ∃ other, ModuleId.parse? t = some other ∧
          m.find? other = FrameInfoMap.registeredLast? id calls := by
  refine ⟨fun m h => ModuleId.parse?_toText h, ?_, ?_, ?_⟩
  · intro s t h
    exact ModuleId.parse?_of_spelledAlike (ModuleId.spelledAlike_of_case h)
  · intro s before after hbefore hafter
    exact ModuleId.parse?_of_spelledAlike (ModuleId.spelledAlike_of_blanks hbefore hafter s)
  · intro m calls hm s t id hs halike
    refine ⟨id, ?_, FrameInfoMap.find?_of_filledBy hm id⟩
    rw [← ModuleId.parse?_of_spelledAlike halike, hs]

def sampleCache (strings : Bytes) : CfiCache := ⟨[], default, [], [], strings⟩

def sampleId : ModuleId := ⟨.ofTimestamp 0x3249d99d 12⟩

theorem ids_survive_respelling_sample :
    ModuleId.parse? sampleId.toText = some sampleId ∧
    ModuleId.parse? "3249d99dc" = ModuleId.parse? "3249D99DC" ∧
    ModuleId.parse? (String.ofList ([' '] ++ "3249d99dc".toList ++ ['\t'])) =
      ModuleId.parse? "3249d99dc" ∧
    ∃ m : FrameInfoMap,
      m.FilledBy [("3249d99dc", sampleCache []), ("3249D99D-c", sampleCache [1])] ∧
      ∃ other, ModuleId.parse? " 3249D99Dc" = some other ∧
        m.find? other = some (sampleCache [1]) := by
  obtain ⟨htext, hcase, hblanks, hfind⟩ := ids_survive_respelling
  have hfirst : ModuleId.parse? "3249d99dc" = some sampleId := by decide +kernel
  have hsecond : ModuleId.parse? "3249D99D-c" = some sampleId := by decide +kernel
  have hfilled := (FrameInfoMap.FilledBy.empty.register (sampleCache []) hfirst).register
    (sampleCache [1]) hsecond
  have halike : ModuleId.SpelledAlike "3249d99dc" " 3249D99Dc" := by decide +kernel
  obtain ⟨other, hother, hlast⟩ := hfind _ _ hfilled _ _ _ hfirst halike
  refine ⟨htext sampleId (.timestamp _ _), hcase _ _ (by decide +kernel),
    hblanks _ [' '] ['\t'] (List.forall_mem_singleton.2 rfl) (List.forall_mem_singleton.2 rfl), _,
    hfilled, other, hother, ?_⟩
  rw [hlast]
  decide +kernel

end Postmortem.Crash
