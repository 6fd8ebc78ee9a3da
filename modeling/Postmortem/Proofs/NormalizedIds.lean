import Postmortem.Proofs.Crash.ModuleIds
import Postmortem.Proofs.Outcomes
import Postmortem.Session.Calls

/-!
# Normalized identifiers

The normalized spelling of a debug identifier is its hyphenated one.  For a timestamp without
appendix that is the timestamp alone, which is not accepted as an identifier any more.
-/

set_option autoImplicit false

namespace Postmortem.Session

open Crash (ModuleId)

theorem normalizeDebugId_eq (s : String) : normalizeDebugId (some s) =
    orFault .invalidDebugId ((ModuleId.parse? s).map fun m => m.id.toText) := by
  rw [normalizeDebugId]
  generalize ModuleId.parse? = parse
  cases hs : parse s with
  | none => simp [require, orFault, hs, bind, Except.bind]
  | some m => simp [require, orFault, hs, bind, Except.bind, pure, Except.pure]

/-- A normalized identifier is accepted, normalized to itself, and read as the identifier that was
given, exactly if it is not a timestamp without appendix.  Such a one is refused. -/
theorem normalized_id_reads_back {s t : String} (h : normalizeDebugId (some s) = .ok t) :
    ∃ m, ModuleId.parse? s = some m ∧ t = m.id.toText ∧
      (¬ m.id.TooShort → ModuleId.parse? t = some m ∧ normalizeDebugId (some t) = .ok t) ∧
      (m.id.TooShort → ModuleId.parse? t = none ∧
        normalizeDebugId (some t) = .error .invalidDebugId) := by
  rw [normalizeDebugId_eq, orFault_eq_ok] at h
  obtain ⟨m, hs, rfl⟩ := Option.map_eq_some_iff.1 h
  have hread := ModuleId.parse?_hyphenated (ModuleId.spellable_of_parse? hs)
  refine ⟨m, hs, rfl, ?_, ?_⟩
  · intro hlong
    rw [if_neg hlong] at hread
    rw [normalizeDebugId_eq, hread]
    exact ⟨rfl, rfl⟩
  · intro hshort
    rw [if_pos hshort] at hread
    rw [normalizeDebugId_eq, hread]
    exact ⟨rfl, rfl⟩

theorem normalized_id_reads_back_uuid :
    normalizeDebugId (some "DFB8E43AF2423D73A453AEB6A777EF75a") =
      .ok "dfb8e43a-f242-3d73-a453-aeb6a777ef75-a" ∧
    ∃ m, ModuleId.parse? "DFB8E43AF2423D73A453AEB6A777EF75a" = some m ∧
      "dfb8e43a-f242-3d73-a453-aeb6a777ef75-a" = m.id.toText ∧
      (¬ m.id.TooShort → ModuleId.parse? "dfb8e43a-f242-3d73-a453-aeb6a777ef75-a" = some m ∧
        normalizeDebugId (some "dfb8e43a-f242-3d73-a453-aeb6a777ef75-a") =
          .ok "dfb8e43a-f242-3d73-a453-aeb6a777ef75-a") ∧
      (m.id.TooShort → ModuleId.parse? "dfb8e43a-f242-3d73-a453-aeb6a777ef75-a" = none ∧
        normalizeDebugId (some "dfb8e43a-f242-3d73-a453-aeb6a777ef75-a") =
          .error .invalidDebugId) := by
  have hnormal : normalizeDebugId (some "DFB8E43AF2423D73A453AEB6A777EF75a") =
      .ok "dfb8e43a-f242-3d73-a453-aeb6a777ef75-a" := by
    rw [normalizeDebugId_eq]
    decide +kernel
  exact ⟨hnormal, normalized_id_reads_back hnormal⟩

/-- The text that is returned for a timestamp without appendix is not accepted again. -/
theorem normalized_timestamp_refused :
    normalizeDebugId (some "3249d99d0") = .ok "3249D99D" ∧
    normalizeDebugId (some "3249D99D") = .error .invalidDebugId ∧
    (ModuleId.parse? "3249d99d0").isSome = true ∧ ModuleId.parse? "3249D99D" = none := by
  rw [normalizeDebugId_eq, normalizeDebugId_eq]
  refine ⟨?_, ?_, ?_, ?_⟩
  all_goals decide +kernel

end Postmortem.Session
