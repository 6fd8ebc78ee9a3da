import Mathlib.Data.List.TakeWhile
import Postmortem.Text.Blank

/-!
# Words between blanks

Splitting a text at blanks gives back the words it was put together from, whatever blanks stand
between them.  Trimming gives the same for a text with any blanks around it.
-/

set_option autoImplicit false

namespace Postmortem.Text

structure IsWord (t : List Char) : Prop where
  ne_nil : t ≠ []
  solid : ∀ c ∈ t, isBlank c = false

def AtBlank (cs : List Char) : Prop := ∀ c ∈ cs.head?, isBlank c = true

theorem atBlank_nil : AtBlank [] := by simp [AtBlank]

theorem atBlank_space (cs : List Char) : AtBlank (' ' :: cs) := by
  intro c hc
  have hc : ' ' = c := by simpa using hc
  subst hc
  decide

theorem takeWhile_append_of_head {p : Char → Bool} {rest : List Char}
    (hrest : ∀ c ∈ rest.head?, p c = false) (t : List Char) :
    (t ++ rest).takeWhile p = t.takeWhile p := by
  induction t with
  | nil =>
      cases rest with
      | nil => rfl
      | cons c rest =>
          have hc := hrest c rfl
          simp [hc]
  | cons c t ih =>
      rw [List.cons_append, List.takeWhile_cons, List.takeWhile_cons, ih]

theorem dropWhile_append_of_head {p : Char → Bool} {rest : List Char}
    (hrest : ∀ c ∈ rest.head?, p c = false) (t : List Char) :
    (t ++ rest).dropWhile p = t.dropWhile p ++ rest := by
  induction t with
  | nil =>
      cases rest with
      | nil => rfl
      | cons c rest =>
          have hc := hrest c rfl
          simp [hc]
  | cons c t ih =>
      rw [List.cons_append, List.dropWhile_cons, List.dropWhile_cons, ih]
      split
      · rfl
      · rfl

theorem splitBlanks_blank {c : Char} (h : isBlank c = true) (rest : List Char) :
    splitBlanks (c :: rest) = splitBlanks rest := by
  rw [splitBlanks, if_pos h]

theorem splitBlanks_blanks {space : List Char} (h : ∀ c ∈ space, isBlank c = true)
    (rest : List Char) : splitBlanks (space ++ rest) = splitBlanks rest := by
  induction space with
  | nil => rfl
  | cons c space ih =>
      rw [List.cons_append, splitBlanks_blank (h c (List.mem_cons_self ..))]
      exact ih fun d hd => h d (List.mem_cons_of_mem _ hd)

theorem splitBlanks_of_blanks {space : List Char} (h : ∀ c ∈ space, isBlank c = true) :
    splitBlanks space = [] := by
  have hnil : splitBlanks [] = [] := by rw [splitBlanks]
  have hsplit := splitBlanks_blanks h []
  rwa [List.append_nil, hnil] at hsplit

theorem isBlank_of_splitBlanks {cs : List Char} (h : splitBlanks cs = []) :
    ∀ c ∈ cs, isBlank c = true := by
  fun_induction splitBlanks cs with
  | case1 => simp
  | case2 c rest hc ih =>
      intro d hd
      rcases List.mem_cons.1 hd with rfl | hd
      · exact hc
      · exact ih h d hd
  | case3 c rest hc ih => cases h

theorem splitBlanks_word {t rest : List Char} (ht : IsWord t) (hrest : AtBlank rest) :
    splitBlanks (t ++ rest) = t :: splitBlanks rest := by
  obtain ⟨hne, hsolid⟩ := ht
  have hhead : ∀ c ∈ rest.head?, (!isBlank c) = false := by
    intro c hc
    simp [hrest c hc]
  cases t with
  | nil => exact absurd rfl hne
  | cons c t =>
      have hc : isBlank c = false := hsolid c (List.mem_cons_self ..)
      have ht : ∀ d ∈ t, (!isBlank d) = true := by
        intro d hd
        simp [hsolid d (List.mem_cons_of_mem _ hd)]
      have htake : t.takeWhile (!isBlank ·) = t := List.takeWhile_eq_self_iff.2 ht
      have hdrop : t.dropWhile (!isBlank ·) = [] := List.dropWhile_eq_nil_iff.2 ht
      rw [List.cons_append, splitBlanks, if_neg (by simp [hc]), takeWhile_append_of_head hhead,
        dropWhile_append_of_head hhead, htake, hdrop, List.nil_append]

/-- What stands in front of a word, without a blank between them, becomes a part of it. -/
theorem splitBlanks_joined {front cs t : List Char} {words : List (List Char)}
    (hfront : ∀ c ∈ front, isBlank c = false) (hcs : ¬ AtBlank cs)
    (h : splitBlanks cs = t :: words) : splitBlanks (front ++ cs) = (front ++ t) :: words := by
  cases cs with
  | nil => exact absurd atBlank_nil hcs
  | cons c cs =>
      have hc : isBlank c = false := by
        rw [← Bool.not_eq_true]
        intro hblank
        refine hcs fun d hd => ?_
        rw [← Option.some.inj hd]
        exact hblank
      have hrest : AtBlank (cs.dropWhile (!isBlank ·)) := by
        intro d hd
        have hnot := List.head?_dropWhile_not (!isBlank ·) cs
        rw [Option.mem_def.1 hd] at hnot
        simpa using hnot
      rw [splitBlanks, if_neg (by simp [hc])] at h
      obtain ⟨rfl, rfl⟩ := List.cons.inj h
      have hword : IsWord (front ++ c :: cs.takeWhile (!isBlank ·)) := by
        refine ⟨by simp, ?_⟩
        intro d hd
        rcases List.mem_append.1 hd with hd | hd
        · exact hfront d hd
        · rcases List.mem_cons.1 hd with rfl | hd
          · exact hc
          · simpa using List.mem_takeWhile_imp hd
      rw [← splitBlanks_word hword hrest, List.append_assoc, List.cons_append,
        List.takeWhile_append_dropWhile]

/-- The words that a text was joined from. -/
theorem splitBlanks_intercalate {words : List (List Char)} (h : ∀ t ∈ words, IsWord t)
    {rest : List Char} (hrest : AtBlank rest) :
    splitBlanks (List.intercalate [' '] words ++ rest) = words ++ splitBlanks rest := by
  induction words with
  | nil => rfl
  | cons t words ih =>
      have ht := h t (List.mem_cons_self ..)
      have hwords := ih fun u hu => h u (List.mem_cons_of_mem _ hu)
      cases words with
      | nil => simpa using splitBlanks_word ht hrest
      | cons u words =>
          rw [List.intercalate_cons_cons, List.append_assoc, List.append_assoc,
            List.singleton_append, splitBlanks_word ht (atBlank_space _),
            splitBlanks_blank (by decide), hwords]
          rfl

theorem intercalate_append {sep : List Char} {words more : List (List Char)} (hwords : words ≠ [])
    (hmore : more ≠ []) : List.intercalate sep (words ++ more) =
      List.intercalate sep words ++ sep ++ List.intercalate sep more := by
  induction words with
  | nil => exact absurd rfl hwords
  | cons t words ih =>
      cases words with
      | nil => simp [List.intercalate_cons_of_ne_nil hmore]
      | cons u words =>
          rw [List.cons_append, List.intercalate_cons_of_ne_nil (by simp),
            ih (List.cons_ne_nil _ _), List.intercalate_cons_of_ne_nil (List.cons_ne_nil _ _)]
          simp

/-- Runs of words that are joined, and then joined with each other, are all words joined. -/
theorem intercalate_flatMap {α : Type} {sep : List Char} {f : α → List (List Char)} {runs : List α}
    (h : ∀ r ∈ runs, f r ≠ []) :
    List.intercalate sep (runs.map fun r => List.intercalate sep (f r)) =
      List.intercalate sep (runs.flatMap f) := by
  induction runs with
  | nil => rfl
  | cons r runs ih =>
      have hruns := ih fun q hq => h q (List.mem_cons_of_mem _ hq)
      cases runs with
      | nil => simp
      | cons q runs =>
          have hmore : (q :: runs).flatMap f ≠ [] := by simp [h q]
          have hjoined := @intercalate_append sep _ _ (h r (List.mem_cons_self ..)) hmore
          rw [List.map_cons, List.intercalate_cons_of_ne_nil (by simp), hruns, ← hjoined]
          rfl

theorem isWord_of_mem_splitBlanks {t cs : List Char} (h : t ∈ splitBlanks cs) : IsWord t := by
  fun_induction splitBlanks cs with
  | case1 => simp at h
  | case2 c rest hc ih => exact ih h
  | case3 c rest hc ih =>
      rcases List.mem_cons.1 h with rfl | h
      · refine ⟨List.cons_ne_nil _ _, ?_⟩
        intro d hd
        rcases List.mem_cons.1 hd with rfl | hd
        · simpa using hc
        · simpa using List.mem_takeWhile_imp hd
      · exact ih h

/-! ## Trimming -/

theorem dropWhile_blanks {space : List Char} (h : ∀ c ∈ space, isBlank c = true)
    (rest : List Char) : (space ++ rest).dropWhile isBlank = rest.dropWhile isBlank := by
  rw [List.dropWhile_append, List.dropWhile_eq_nil_iff.2 h]
  rfl

theorem trimBlanks_of_solid {cs : List Char} (h : ∀ c ∈ cs, isBlank c = false) :
    trimBlanks cs = cs := by
  have hkeep {ds : List Char} (hds : ∀ c ∈ ds, isBlank c = false) :
      ds.dropWhile isBlank = ds := by
    cases ds with
    | nil => rfl
    | cons d ds => rw [List.dropWhile_cons_of_neg (by simp [hds d])]
  rw [trimBlanks, hkeep h, hkeep fun c hc => h c (List.mem_reverse.1 hc), List.reverse_reverse]

/-- Blanks around a text are trimmed away. -/
theorem trimBlanks_surrounded {before after : List Char} (hbefore : ∀ c ∈ before, isBlank c = true)
    (hafter : ∀ c ∈ after, isBlank c = true) (cs : List Char) :
    trimBlanks (before ++ cs ++ after) = trimBlanks cs := by
  have hback : ∀ c ∈ after.reverse, isBlank c = true := fun c hc => hafter c (List.mem_reverse.1 hc)
  rw [trimBlanks, trimBlanks, List.append_assoc, dropWhile_blanks hbefore, List.dropWhile_append]
  split
  · rename_i hempty
    rw [List.isEmpty_iff.1 hempty, List.dropWhile_eq_nil_iff.2 hafter]
  · rw [List.reverse_append, dropWhile_blanks hback]

end Postmortem.Text
