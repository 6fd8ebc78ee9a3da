import Postmortem.SortedMap

/-!
# Lookups in sorted maps

A key that was changed has its new value, and all others have the value that they had.  A map is
known by its lookups.
-/

set_option autoImplicit false

namespace Postmortem.SortedMap

variable {κ α β : Type} [Ord κ]

theorem lookup_map (f : α → β) (key : κ) (entries : List (κ × α)) :
    lookup key (entries.map fun e => (e.1, f e.2)) = (lookup key entries).map f := by
  induction entries with
  | nil => rfl
  | cons e rest ih =>
      simp only [List.map_cons, lookup]
      split
      · rfl
      · rfl
      · exact ih

@[simp]
theorem find?_mapValues (f : α → β) (m : SortedMap κ α) (key : κ) :
    (m.mapValues f).find? key = (m.find? key).map f :=
  lookup_map f key m.entries

variable [Std.LawfulEqOrd κ]

theorem mem_of_lookup {key : κ} {value : α} {entries : List (κ × α)}
    (h : lookup key entries = some value) : (key, value) ∈ entries := by
  induction entries with
  | nil => cases h
  | cons e rest ih =>
      simp only [lookup] at h
      split at h
      · cases h
      · rename_i heq
        cases h
        rw [Std.LawfulEqCmp.eq_of_compare heq]
        exact List.mem_cons_self ..
      · exact List.mem_cons_of_mem _ (ih h)

theorem mem_of_find? {m : SortedMap κ α} {key : κ} {value : α} (h : m.find? key = some value) :
    (key, value) ∈ m.entries :=
  mem_of_lookup h

theorem nodup_entries (m : SortedMap κ α) : m.entries.Nodup := by
  refine m.increasing.imp ?_
  rintro a _ hlt rfl
  simp at hlt

theorem lookup_put_self (key : κ) (value : α) (entries : List (κ × α)) :
    lookup key (put key value entries) = some value := by
  induction entries with
  | nil => simp [put, lookup]
  | cons e rest ih =>
      simp only [put]
      split
      · simp [lookup]
      · simp [lookup]
      · rename_i hgt
        simp [lookup, hgt, ih]

variable [Std.TransOrd κ]

theorem lookup_of_mem {key : κ} {value : α} {entries : List (κ × α)} (h : Increasing entries)
    (hmem : (key, value) ∈ entries) : lookup key entries = some value := by
  induction entries with
  | nil => cases hmem
  | cons e rest ih =>
      obtain ⟨hlt, hrest⟩ := List.pairwise_cons.1 h
      rcases List.mem_cons.1 hmem with rfl | hmem
      · simp [lookup]
      · have hgt : compare key e.1 = .gt := Std.OrientedCmp.gt_of_lt (hlt _ hmem)
        simp [lookup, hgt, ih hrest hmem]

theorem find?_eq_some_iff {m : SortedMap κ α} {key : κ} {value : α} :
    m.find? key = some value ↔ (key, value) ∈ m.entries :=
  ⟨mem_of_find?, lookup_of_mem m.increasing⟩

theorem mem_keys_iff {m : SortedMap κ α} {key : κ} :
    key ∈ m.keys ↔ ∃ value, m.find? key = some value := by
  simp only [keys, List.mem_map, find?_eq_some_iff]
  exact ⟨fun ⟨e, he, hkey⟩ => ⟨e.2, hkey ▸ he⟩, fun ⟨value, h⟩ => ⟨_, h, rfl⟩⟩

theorem eq_of_find? {a b : SortedMap κ α} (h : ∀ key, a.find? key = b.find? key) : a = b := by
  have hmem : ∀ e, e ∈ a.entries ↔ e ∈ b.entries := by
    intro e
    rw [← find?_eq_some_iff, ← find?_eq_some_iff, h]
  have hperm : a.entries.Perm b.entries :=
    (List.perm_ext_iff_of_nodup (nodup_entries a) (nodup_entries b)).2 hmem
  have hentries : a.entries = b.entries := by
    refine hperm.eq_of_pairwise ?_ a.increasing b.increasing
    intro x y _ _ hxy hyx
    rw [Std.OrientedCmp.gt_of_lt hxy] at hyx
    cases hyx
  cases a
  cases b
  cases hentries
  rfl

theorem lookup_put_of_ne {key other : κ} (hne : other ≠ key) (value : α)
    (entries : List (κ × α)) : lookup other (put key value entries) = lookup other entries := by
  have hcmp : compare other key ≠ .eq := fun h => hne (Std.LawfulEqCmp.eq_of_compare h)
  induction entries with
  | nil =>
      simp only [put, lookup]
      split
      · rfl
      · exact absurd ‹_› hcmp
      · rfl
  | cons e rest ih =>
      obtain ⟨k, a⟩ := e
      simp only [put]
      split
      · -- a key below the new one is below all that follow it too
        rename_i hlt
        cases hother : compare other key with
        | lt =>
            have hk : compare other k = .lt := Std.TransCmp.lt_trans hother hlt
            simp [lookup, hother, hk]
        | eq => exact absurd hother hcmp
        | gt => simp [lookup, hother]
      · rename_i heq
        have hk := Std.LawfulEqCmp.eq_of_compare heq
        subst hk
        cases hother : compare other key with
        | lt => simp [lookup, hother]
        | eq => exact absurd hother hcmp
        | gt => simp [lookup, hother]
      · simp only [lookup]
        split
        · rfl
        · rfl
        · exact ih

@[simp]
theorem find?_insert_self (m : SortedMap κ α) (key : κ) (value : α) :
    (m.insert key value).find? key = some value :=
  lookup_put_self key value m.entries

theorem find?_insert_of_ne (m : SortedMap κ α) {key other : κ} (hne : other ≠ key) (value : α) :
    (m.insert key value).find? other = m.find? other :=
  lookup_put_of_ne hne value m.entries

/-- Behind a list of changes a key has a value that one of them gave it, or the one that it had if
no change is about it. -/
theorem find?_foldl_insert {γ : Type} (key : κ) (f : γ → κ) (g : γ → α) (changes : List γ)
    (m : SortedMap κ α) :
    (∃ c ∈ changes, f c = key ∧
      (changes.foldl (fun m c => m.insert (f c) (g c)) m).find? key = some (g c)) ∨
    (∀ c ∈ changes, f c ≠ key) ∧
      (changes.foldl (fun m c => m.insert (f c) (g c)) m).find? key = m.find? key := by
  induction changes generalizing m with
  | nil => exact .inr ⟨by simp, rfl⟩
  | cons c rest ih =>
      rcases ih (m.insert (f c) (g c)) with ⟨d, hd, hkey, hfind⟩ | ⟨hrest, hfind⟩
      · exact .inl ⟨d, List.mem_cons_of_mem _ hd, hkey, hfind⟩
      · rw [List.foldl_cons]
        by_cases hkey : f c = key
        · refine .inl ⟨c, List.mem_cons_self .., hkey, ?_⟩
          rw [hfind, hkey, find?_insert_self]
        · refine .inr ⟨List.forall_mem_cons.2 ⟨hkey, hrest⟩, ?_⟩
          rw [hfind, find?_insert_of_ne _ (Ne.symm hkey)]

theorem find?_ofList (key : κ) (entries : List (κ × α)) :
    (∃ value, (key, value) ∈ entries ∧ (ofList entries).find? key = some value) ∨
    (∀ e ∈ entries, e.1 ≠ key) ∧ (ofList entries).find? key = none := by
  rcases find?_foldl_insert key Prod.fst Prod.snd entries empty with
    ⟨e, he, hkey, hfind⟩ | ⟨hne, hfind⟩
  · exact .inl ⟨e.2, hkey ▸ he, hfind⟩
  · exact .inr ⟨hne, hfind⟩

/-- A map is made again of its entries. -/
theorem ofList_entries (m : SortedMap κ α) : ofList m.entries = m := by
  refine eq_of_find? fun key => ?_
  rcases find?_ofList key m.entries with ⟨value, hmem, hfind⟩ | ⟨hne, hfind⟩
  · rw [hfind, find?_eq_some_iff.2 hmem]
  · cases hkey : m.find? key with
    | none => exact hfind
    | some value => exact absurd rfl (hne _ (mem_of_find? hkey))

end Postmortem.SortedMap
