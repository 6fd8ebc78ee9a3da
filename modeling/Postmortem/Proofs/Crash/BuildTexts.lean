import Mathlib.Data.List.TakeWhile
import Postmortem.Crash.SystemInfo
import Postmortem.Proofs.Patterns

/-!
# Build texts of Linux kernels

The version and the build are cut out of a build text at three of its spaces, the first and the last
ones that can be meant.  A pattern says the same: although its parts could divide a text in many
ways, only one way leads to the end, since neither the version nor the name of the machine holds a
space.
-/

set_option autoImplicit false

namespace Postmortem.Crash

open Text (isWordChar Pattern)

structure LinuxBuild where
  version : List Char
  build : List Char
  machine : List Char
  hasVendor : Bool
  version_ne_nil : version ≠ []
  version_solid : ∀ c ∈ version, c ≠ ' '
  build_line : ∀ c ∈ build, c ≠ '\n'
  machine_ne_nil : machine ≠ []
  machine_word : ∀ c ∈ machine, isWordChar c = true

namespace LinuxBuild

def vendor (b : LinuxBuild) : List Char := if b.hasVendor then " GNU/Linux".toList else []

def text (b : LinuxBuild) : List Char :=
  "Linux ".toList ++ (b.version ++ ([' '] ++ (b.build ++ ([' '] ++ (b.machine ++ b.vendor)))))

/-- The pattern `^Linux ([^ ]+) (.*) \w+(?: GNU/Linux)?$`. -/
def pattern : Pattern :=
  .seq (.text "Linux ".toList) <| .seq (.group (.oneOrMore (· ≠ ' '))) <| .seq (.text [' ']) <|
    .seq (.group (.many (· ≠ '\n'))) <| .seq (.text [' ']) <|
      .seq (.oneOrMore isWordChar) (.optional " GNU/Linux".toList)

/-! ## Texts that match -/

theorem matches_text (b : LinuxBuild) : pattern.Matches b.text [b.version, b.build] := by
  have hversion : (Pattern.oneOrMore (· ≠ ' ')).Matches b.version [] :=
    Pattern.matches_oneOrMore_iff.2
      ⟨⟨b.version_ne_nil, fun c hc => decide_eq_true (b.version_solid c hc)⟩, rfl⟩
  have hbuild : (Pattern.many (· ≠ '\n')).Matches b.build [] :=
    .many fun c hc => decide_eq_true (b.build_line c hc)
  have hmachine : (Pattern.oneOrMore isWordChar).Matches b.machine [] :=
    Pattern.matches_oneOrMore_iff.2 ⟨⟨b.machine_ne_nil, b.machine_word⟩, rfl⟩
  have hvendor : (Pattern.optional " GNU/Linux".toList).Matches b.vendor [] := by
    rw [vendor]
    split
    · exact .present
    · exact .absent
  exact .seq .text <| .seq (.group hversion) <| .seq .text <| .seq (.group hbuild) <|
    .seq .text <| .seq hmachine hvendor

theorem exists_of_matches {cs : List Char} {gs : List (List Char)} (h : pattern.Matches cs gs) :
    ∃ b : LinuxBuild, b.text = cs ∧ gs = [b.version, b.build] := by
  obtain ⟨_, _, _, _, hname, h₁, rfl, rfl⟩ := Pattern.matches_seq_iff.1 h
  obtain ⟨version, _, _, _, hversion, h₂, rfl, rfl⟩ := Pattern.matches_seq_iff.1 h₁
  obtain ⟨_, _, _, _, hspace, h₃, rfl, rfl⟩ := Pattern.matches_seq_iff.1 h₂
  obtain ⟨build, _, _, _, hbuild, h₄, rfl, rfl⟩ := Pattern.matches_seq_iff.1 h₃
  obtain ⟨_, _, _, _, hspace', h₅, rfl, rfl⟩ := Pattern.matches_seq_iff.1 h₄
  obtain ⟨machine, vendor, _, _, hmachine, hvendor, rfl, rfl⟩ := Pattern.matches_seq_iff.1 h₅
  cases hname
  cases hspace
  cases hspace'
  cases hversion with
  | group hversion =>
    cases hbuild with
    | group hbuild =>
      cases hbuild with
      | many hbuild =>
        obtain ⟨⟨hversionNe, hnoSpace⟩, rfl⟩ := Pattern.matches_oneOrMore_iff.1 hversion
        obtain ⟨⟨hmachineNe, hword⟩, rfl⟩ := Pattern.matches_oneOrMore_iff.1 hmachine
        have hsolid : ∀ c ∈ version, c ≠ ' ' := fun c hc => of_decide_eq_true (hnoSpace c hc)
        have hline : ∀ c ∈ build, c ≠ '\n' := fun c hc => of_decide_eq_true (hbuild c hc)
        cases hvendor with
        | present =>
            exact ⟨⟨version, build, machine, true, hversionNe, hsolid, hline, hmachineNe,
              hword⟩, rfl, rfl⟩
        | absent =>
            exact ⟨⟨version, build, machine, false, hversionNe, hsolid, hline, hmachineNe,
              hword⟩, rfl, rfl⟩

end LinuxBuild

namespace SystemInfo

/-! ## Cutting a text at its spaces -/

theorem after?_eq_some_iff {front text rest : List Char} :
    after? front text = some rest ↔ text = front ++ rest := by
  induction front generalizing text with
  | nil => rw [after?, Option.some.injEq, List.nil_append]
  | cons c front ih =>
      cases text with
      | nil => simp [after?]
      | cons d text =>
          rw [after?, List.cons_append, List.cons.injEq]
          split
          · rename_i heq
            rw [ih, and_iff_right heq.symm]
          · rename_i hne
            exact iff_of_false nofun fun h => hne h.1.symm

theorem ne_space_of_mem_takeWhile {cs : List Char} {c : Char} (h : c ∈ cs.takeWhile (· ≠ ' ')) :
    c ≠ ' ' := by
  simpa using List.mem_takeWhile_imp h

theorem splitLastSpace?_eq_some_iff {cs front word : List Char} :
    splitLastSpace? cs = some (front, word) ↔ cs = front ++ ' ' :: word ∧ ∀ c ∈ word, c ≠ ' ' := by
  rw [splitLastSpace?]
  constructor
  · intro h
    split at h
    · cases h
    · rename_i c before hdrop
      cases h
      have hc : c = ' ' := by
        have hhead := List.head?_dropWhile_not (· ≠ ' ') cs.reverse
        rw [hdrop] at hhead
        simpa using hhead
      have hsplit := List.takeWhile_append_dropWhile (p := (· ≠ ' ')) (l := cs.reverse)
      rw [hdrop, hc] at hsplit
      have hback := congrArg List.reverse hsplit
      rw [List.reverse_append, List.reverse_cons, List.reverse_reverse, List.append_assoc,
        List.singleton_append] at hback
      exact ⟨hback.symm, fun d hd => ne_space_of_mem_takeWhile (List.mem_reverse.1 hd)⟩
  · rintro ⟨rfl, hword⟩
    have hall : ∀ c ∈ word.reverse, decide (c ≠ ' ') = true :=
      fun c hc => decide_eq_true (hword c (List.mem_reverse.1 hc))
    have hreverse : (front ++ ' ' :: word).reverse = word.reverse ++ ' ' :: front.reverse := by simp
    rw [hreverse, List.dropWhile_append_of_pos hall, List.takeWhile_append_of_pos hall]
    simp

theorem ne_space_of_isWordChar {c : Char} (h : isWordChar c = true) : c ≠ ' ' := by
  rintro rfl
  have hspace : isWordChar ' ' = false := by decide +kernel
  rw [hspace] at h
  cases h

theorem beforeWord?_eq_some_iff {cs front : List Char} :
    beforeWord? cs = some front ↔
      ∃ word, cs = front ++ ' ' :: word ∧ word ≠ [] ∧ ∀ c ∈ word, isWordChar c = true := by
  constructor
  · intro h
    obtain ⟨⟨front', word⟩, hsplit, h⟩ := Option.bind_eq_some_iff.1 h
    obtain ⟨hcs, -⟩ := splitLastSpace?_eq_some_iff.1 hsplit
    dsimp only at h
    split at h
    · rename_i hword
      rw [Bool.and_eq_true, Bool.not_eq_true', List.isEmpty_eq_false_iff, List.all_eq_true] at hword
      cases h
      exact ⟨word, hcs, hword.1, hword.2⟩
    · cases h
  · rintro ⟨word, hcs, hne, hword⟩
    have hsplit : splitLastSpace? cs = some (front, word) :=
      splitLastSpace?_eq_some_iff.2 ⟨hcs, fun c hc => ne_space_of_isWordChar (hword c hc)⟩
    refine Option.bind_eq_some_iff.2 ⟨_, hsplit, if_pos ?_⟩
    rw [Bool.and_eq_true, Bool.not_eq_true', List.isEmpty_eq_false_iff, List.all_eq_true]
    exact ⟨hne, hword⟩

/-- Either nothing is dropped, or what is dropped stood at the end. -/
theorem dropVendor_cases (cs : List Char) :
    dropVendor cs = cs ∨ cs = dropVendor cs ++ " GNU/Linux".toList := by
  rw [dropVendor]
  split
  · rename_i front last hsplit
    obtain ⟨rfl, -⟩ := splitLastSpace?_eq_some_iff.1 hsplit
    split
    · rename_i hlast
      exact .inr (by rw [hlast]; rfl)
    · exact .inl rfl
  · exact .inl rfl

theorem dropVendor_vendor (cs : List Char) : dropVendor (cs ++ " GNU/Linux".toList) = cs := by
  have hsplit : splitLastSpace? (cs ++ " GNU/Linux".toList) = some (cs, "GNU/Linux".toList) :=
    splitLastSpace?_eq_some_iff.2 ⟨rfl, by simp⟩
  rw [dropVendor, hsplit]
  exact if_pos rfl

/-- The name of a machine is a word, and the vendor is none. -/
theorem dropVendor_word {front word : List Char} (h : ∀ c ∈ word, isWordChar c = true) :
    dropVendor (front ++ ' ' :: word) = front ++ ' ' :: word := by
  have hsplit : splitLastSpace? (front ++ ' ' :: word) = some (front, word) :=
    splitLastSpace?_eq_some_iff.2 ⟨rfl, fun c hc => ne_space_of_isWordChar (h c hc)⟩
  rw [dropVendor, hsplit]
  refine if_neg ?_
  rintro rfl
  have hslash : isWordChar '/' = false := by decide +kernel
  rw [h '/' (by decide)] at hslash
  cases hslash

/-! ## The version and the build -/

theorem linuxParts?_text (b : LinuxBuild) : linuxParts? b.text = some (b.version, b.build) := by
  have hversion : ∀ c ∈ b.version, decide (c ≠ ' ') = true :=
    fun c hc => decide_eq_true (b.version_solid c hc)
  let rest := b.build ++ ' ' :: (b.machine ++ b.vendor)
  have hname : after? "Linux ".toList b.text = some (b.version ++ ' ' :: rest) :=
    after?_eq_some_iff.2 rfl
  have htake : (b.version ++ ' ' :: rest).takeWhile (· ≠ ' ') = b.version := by
    rw [List.takeWhile_append_of_pos hversion]
    simp
  have hdrop : (b.version ++ ' ' :: rest).dropWhile (· ≠ ' ') = ' ' :: rest := by
    rw [List.dropWhile_append_of_pos hversion]
    simp
  have hspace : after? [' '] (' ' :: rest) = some rest := after?_eq_some_iff.2 rfl
  have hvendor : dropVendor rest = b.build ++ ' ' :: b.machine := by
    cases hhas : b.hasVendor with
    | true =>
        have hrest : rest = (b.build ++ ' ' :: b.machine) ++ " GNU/Linux".toList := by
          simp [rest, LinuxBuild.vendor, hhas]
        rw [hrest, dropVendor_vendor]
    | false =>
        have hrest : rest = b.build ++ ' ' :: b.machine := by
          simp [rest, LinuxBuild.vendor, hhas]
        rw [hrest, dropVendor_word b.machine_word]
  have hbuild : beforeWord? (dropVendor rest) = some b.build := by
    rw [hvendor]
    exact beforeWord?_eq_some_iff.2 ⟨b.machine, rfl, b.machine_ne_nil, b.machine_word⟩
  have hkept : ¬ (b.version.isEmpty || b.build.contains '\n') = true := by
    have hne := b.version_ne_nil
    have hline := b.build_line
    simp only [Bool.or_eq_true, List.isEmpty_iff, List.contains_iff_mem, not_or]
    exact ⟨hne, fun hmem => hline _ hmem rfl⟩
  rw [linuxParts?, hname]
  simp only [Option.bind_eq_bind, Option.bind_some, htake, hdrop, hspace, hbuild, if_neg hkept]

theorem exists_of_linuxParts? {cs version build : List Char}
    (h : linuxParts? cs = some (version, build)) :
    ∃ b : LinuxBuild, b.text = cs ∧ b.version = version ∧ b.build = build := by
  obtain ⟨text, hname, h⟩ := Option.bind_eq_some_iff.1 h
  obtain ⟨rest, hspace, h⟩ := Option.bind_eq_some_iff.1 h
  obtain ⟨build', hbuild, h⟩ := Option.bind_eq_some_iff.1 h
  obtain ⟨machine, hmachine, hmachineNe, hword⟩ := beforeWord?_eq_some_iff.1 hbuild
  rw [after?_eq_some_iff] at hname hspace
  have hsolid : ∀ c ∈ text.takeWhile (· ≠ ' '), c ≠ ' ' := fun c hc =>
    ne_space_of_mem_takeWhile hc
  have htext := List.takeWhile_append_dropWhile (p := (· ≠ ' ')) (l := text)
  rw [hspace] at htext
  split at h
  · cases h
  · rename_i hkept
    rw [Option.some.injEq, Prod.mk.injEq] at h
    obtain ⟨hversion, rfl⟩ := h
    rw [hversion] at hkept hsolid htext
    simp only [Bool.or_eq_true, List.isEmpty_iff, List.contains_iff_mem, not_or] at hkept
    have hline : ∀ c ∈ build', c ≠ '\n' := fun c hc heq => hkept.2 (heq ▸ hc)
    rcases dropVendor_cases rest with hrest | hrest
    · refine ⟨⟨version, build', machine, false, hkept.1, hsolid, hline, hmachineNe, hword⟩, ?_,
        rfl, rfl⟩
      rw [hname, ← htext, ← hrest, hmachine]
      simp [LinuxBuild.text, LinuxBuild.vendor]
    · refine ⟨⟨version, build', machine, true, hkept.1, hsolid, hline, hmachineNe, hword⟩, ?_,
        rfl, rfl⟩
      rw [hname, ← htext, hrest, hmachine]
      simp [LinuxBuild.text, LinuxBuild.vendor]

/-- The pattern finds the version and the build wherever they are cut out of the text, and nothing
in other texts. -/
theorem captures?_pattern (cs : List Char) :
    LinuxBuild.pattern.captures? cs =
      (linuxParts? cs).map fun (version, build) => [version, build] := by
  cases hparts : linuxParts? cs with
  | none =>
      cases hcaptures : LinuxBuild.pattern.captures? cs with
      | none => rfl
      | some gs =>
          have hmatches := Pattern.matches_of_captures? hcaptures
          obtain ⟨b, rfl, -⟩ := LinuxBuild.exists_of_matches hmatches
          rw [linuxParts?_text] at hparts
          cases hparts
  | some parts =>
      obtain ⟨version, build⟩ := parts
      obtain ⟨b, rfl, rfl, rfl⟩ := exists_of_linuxParts? hparts
      obtain ⟨gs, hcaptures⟩ := Pattern.exists_captures?_of_matches b.matches_text
      -- whichever way was found, its parts are those that are cut out of the text
      have hmatches := Pattern.matches_of_captures? hcaptures
      obtain ⟨b', htext, hgs⟩ := LinuxBuild.exists_of_matches hmatches
      have hsame := linuxParts?_text b'
      rw [htext, hparts, Option.some.injEq, Prod.mk.injEq] at hsame
      rw [hcaptures, hgs, ← hsame.1, ← hsame.2]
      rfl

theorem osParts_of_unknown {s : SystemInfo} (h : s.osVersion = "" ∨ s.osVersion = "0.0.0") :
    s.osParts = match linuxParts? s.osBuild.toList with
      | some (version, build) => (String.ofList version, String.ofList build)
      | none => ("0.0.0", s.osBuild) := by
  have hversion : (if s.osVersion.isEmpty then "0.0.0" else s.osVersion) = "0.0.0" := by
    rcases h with h | h
    · rw [h]
      rfl
    · rw [h]
      exact ite_self _
  rw [osParts, hversion]
  exact if_pos rfl

theorem osParts_of_known {s : SystemInfo} (h : s.osVersion ≠ "") (h' : s.osVersion ≠ "0.0.0") :
    s.osParts = (s.osVersion, s.osBuild) := by
  have hversion : (if s.osVersion.isEmpty then "0.0.0" else s.osVersion) = s.osVersion :=
    if_neg (by rwa [String.isEmpty_iff])
  rw [osParts, hversion]
  exact if_neg h'

/-- Where no version is known, it and the build are what the pattern finds, and these are the
version and build that a build text was made of.  A known version is left as it is. -/
theorem version_of_linux_build (s : SystemInfo) :
    (s.osVersion = "" ∨ s.osVersion = "0.0.0" →
      (∀ version build machine vendor : String, version ≠ "" → (∀ c ∈ version.toList, c ≠ ' ') →
        (∀ c ∈ build.toList, c ≠ '\n') → machine ≠ "" →
        (∀ c ∈ machine.toList, isWordChar c = true) → vendor = "" ∨ vendor = " GNU/Linux" →
        s.osBuild = "Linux " ++ version ++ " " ++ build ++ " " ++ machine ++ vendor →
        s.osParts = (version, build)) ∧
      s.osParts = match LinuxBuild.pattern.captures? s.osBuild.toList with
        | some [version, build] => (String.ofList version, String.ofList build)
        | _ => ("0.0.0", s.osBuild)) ∧
    (s.osVersion ≠ "" → s.osVersion ≠ "0.0.0" → s.osParts = (s.osVersion, s.osBuild)) := by
  refine ⟨fun hunknown => ⟨?_, ?_⟩, osParts_of_known⟩
  · intro version build machine vendor hversion hsolid hline hmachine hword hvendor hbuild
    let b : LinuxBuild := ⟨version.toList, build.toList, machine.toList, vendor != "",
      by simpa using hversion, hsolid, hline, by simpa using hmachine, hword⟩
    have htext : s.osBuild.toList = b.text := by
      rw [hbuild]
      rcases hvendor with rfl | rfl
      · simp [b, LinuxBuild.text, LinuxBuild.vendor]
      · simp [b, LinuxBuild.text, LinuxBuild.vendor]
    rw [osParts_of_unknown hunknown, htext, linuxParts?_text]
    simp only [b, String.ofList_toList]
  · rw [osParts_of_unknown hunknown, captures?_pattern]
    cases linuxParts? s.osBuild.toList with
    | none => rfl
    | some parts => rfl

def sampleSystem : SystemInfo :=
  { osVersion := "0.0.0", osBuild := "Linux 5.10.0 #1 SMP x86_64 GNU/Linux aarch64 GNU/Linux" }

theorem version_of_linux_build_sample :
    sampleSystem.osVersion = "0.0.0" ∧ (∀ c ∈ "#1 SMP x86_64 GNU/Linux".toList, c ≠ '\n') ∧
      (∀ c ∈ "aarch64".toList, isWordChar c = true) ∧
      sampleSystem.osBuild = "Linux " ++ "5.10.0" ++ " " ++ "#1 SMP x86_64 GNU/Linux" ++ " " ++
        "aarch64" ++ " GNU/Linux" ∧
      sampleSystem.osParts = ("5.10.0", "#1 SMP x86_64 GNU/Linux") ∧
      ({ osVersion := "10.0.19041", osBuild := "Linux 1 2 3" } : SystemInfo).osParts =
        ("10.0.19041", "Linux 1 2 3") := by
  have hsolid : ∀ c ∈ "5.10.0".toList, c ≠ ' ' := by simp
  have hline : ∀ c ∈ "#1 SMP x86_64 GNU/Linux".toList, c ≠ '\n' := by simp
  have hword : ∀ c ∈ "aarch64".toList, isWordChar c = true := by
    rw [← List.all_eq_true]
    decide +kernel
  have hbuild : sampleSystem.osBuild = "Linux " ++ "5.10.0" ++ " " ++ "#1 SMP x86_64 GNU/Linux" ++
      " " ++ "aarch64" ++ " GNU/Linux" := by decide
  refine ⟨rfl, hline, hword, hbuild, ?_, ?_⟩
  · exact ((version_of_linux_build sampleSystem).1 (.inr rfl)).1 _ _ _ _ (by decide) hsolid
      hline (by decide) hword (.inr rfl) hbuild
  · exact (version_of_linux_build _).2 (by decide) (by decide)

end SystemInfo

end Postmortem.Crash
