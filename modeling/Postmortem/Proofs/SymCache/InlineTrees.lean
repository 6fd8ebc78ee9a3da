import Postmortem.Debug.Function
import Postmortem.Proofs.LeastMembers

/-!
# Trees of inlined calls

A function tree without the calls that lie outside their callers, its nodes with the calls around
them, and the innermost node at an address.  In such a tree a node covers an address only if all
nodes around it do.
-/

set_option autoImplicit false

namespace Postmortem.Debug.Function

def Covers (f : Function) (a : UInt64) : Prop := f.address ≤ a ∧ a < f.stop

instance (f : Function) (a : UInt64) : Decidable (f.Covers a) :=
  inferInstanceAs (Decidable (_ ∧ _))

def LiesIn (start stop : UInt64) (f : Function) : Prop :=
  f.size ≠ 0 ∧ start ≤ f.address ∧ f.stop ≤ stop

instance (start stop : UInt64) (f : Function) : Decidable (f.LiesIn start stop) :=
  inferInstanceAs (Decidable (_ ∧ _))

mutual

/-- The tree without the calls that have no code or do not lie inside their caller, and with the
calls of each node in the order of their addresses. -/
def arranged : Function → Function
  | ⟨address, size, name, compDir, lines, inlinees, isInline⟩ =>
    ⟨address, size, name, compDir, lines,
      (arrangedIn address (addSaturating address size) inlinees).mergeSort
        fun f g => f.address ≤ g.address,
      isInline⟩

def arrangedIn (start stop : UInt64) : List Function → List Function
  | [] => []
  | f :: rest =>
    if f.LiesIn start stop then f.arranged :: arrangedIn start stop rest
    else arrangedIn start stop rest

end

mutual

/-- The nodes of a tree in pre-order, each followed by the nodes around it. -/
def chains (outer : List Function) : Function → List (List Function)
  | ⟨address, size, name, compDir, lines, inlinees, isInline⟩ =>
    let chain := ⟨address, size, name, compDir, lines, inlinees, isInline⟩ :: outer
    chain :: chainsOf chain inlinees

def chainsOf (outer : List Function) : List Function → List (List Function)
  | [] => []
  | f :: rest => chains outer f ++ chainsOf outer rest

end

def Reaches (chain : List Function) (a : UInt64) : Prop := ∃ f ∈ chain.head?, f.Covers a

/-- Whether a chain starts at the deepest node that covers an address, and at the first of several
such nodes that are equally deep. -/
def IsInnermost (a : UInt64) (all : List (List Function)) (chain : List Function) : Prop :=
  IsFirstLeast longerFirst (Reaches · a) all chain

/-! ## Nesting -/

mutual

def Nested : Function → Prop
  | ⟨address, size, _, _, _, inlinees, _⟩ => NestedIn address (addSaturating address size) inlinees

def NestedIn (start stop : UInt64) : List Function → Prop
  | [] => True
  | f :: rest => (f.LiesIn start stop ∧ f.Nested) ∧ NestedIn start stop rest

end

theorem nestedIn_iff {start stop : UInt64} {l : List Function} :
    NestedIn start stop l ↔ ∀ f ∈ l, f.LiesIn start stop ∧ f.Nested := by
  induction l with
  | nil => simp [NestedIn]
  | cons f rest ih => simp [NestedIn, ih]

theorem arranged_address (f : Function) : f.arranged.address = f.address := by
  cases f
  rfl

theorem arranged_stop (f : Function) : f.arranged.stop = f.stop := by
  cases f
  rfl

theorem arranged_name (f : Function) : f.arranged.name = f.name := by
  cases f
  rfl

theorem arranged_liesIn {f : Function} {start stop : UInt64} :
    f.arranged.LiesIn start stop ↔ f.LiesIn start stop := by
  cases f
  rfl

mutual

theorem nested_arranged (f : Function) : f.arranged.Nested := by
  obtain ⟨address, size, name, compDir, lines, inlinees, isInline⟩ := f
  rw [arranged, Nested, nestedIn_iff]
  intro g hg
  exact nestedIn_iff.1 (nestedIn_arrangedIn address _ inlinees) g (List.mem_mergeSort.1 hg)

theorem nestedIn_arrangedIn (start stop : UInt64) (l : List Function) :
    NestedIn start stop (arrangedIn start stop l) := by
  cases l with
  | nil => trivial
  | cons f rest =>
      rw [arrangedIn]
      split
      · exact ⟨⟨arranged_liesIn.2 ‹_›, nested_arranged f⟩, nestedIn_arrangedIn start stop rest⟩
      · exact nestedIn_arrangedIn start stop rest

end

mutual

/-- If a node covers an address, so do the nodes around it. -/
theorem covers_of_mem_chains {f : Function} {outer chain : List Function} {a : UInt64}
    (hf : f.Nested) (houter : f.Covers a → ∀ g ∈ outer, g.Covers a)
    (hchain : chain ∈ chains outer f) (hreach : Reaches chain a) : ∀ g ∈ chain, g.Covers a := by
  obtain ⟨address, size, name, compDir, lines, inlinees, isInline⟩ := f
  rw [chains] at hchain
  rcases List.mem_cons.1 hchain with rfl | hchain
  · obtain ⟨g, hg, hcov⟩ := hreach
    simp only [List.head?_cons, Option.mem_def, Option.some.injEq] at hg
    subst hg
    intro g hg
    rcases List.mem_cons.1 hg with rfl | hg
    · exact hcov
    · exact houter hcov g hg
  · refine covers_of_mem_chainsOf hf ?_ hchain hreach
    intro low high g hg
    rcases List.mem_cons.1 hg with rfl | hg
    · exact ⟨low, high⟩
    · exact houter ⟨low, high⟩ g hg

theorem covers_of_mem_chainsOf {l outer : List Function} {chain : List Function}
    {start stop a : UInt64} (hl : NestedIn start stop l)
    (houter : start ≤ a → a < stop → ∀ g ∈ outer, g.Covers a)
    (hchain : chain ∈ chainsOf outer l) (hreach : Reaches chain a) :
    ∀ g ∈ chain, g.Covers a := by
  cases l with
  | nil => simp [chainsOf] at hchain
  | cons f rest =>
      obtain ⟨⟨⟨-, hlow, hhigh⟩, hf⟩, hrest⟩ := hl
      rw [chainsOf] at hchain
      rcases List.mem_append.1 hchain with hchain | hchain
      · refine covers_of_mem_chains hf ?_ hchain hreach
        intro hcov
        exact houter (UInt64.le_trans hlow hcov.1) (UInt64.lt_of_lt_of_le hcov.2 hhigh)
      · exact covers_of_mem_chainsOf hrest houter hchain hreach

end

mutual

theorem address_le_of_mem_chains {f g : Function} {outer chain : List Function} (hf : f.Nested)
    (hchain : chain ∈ chains outer f) (hg : g ∈ chain) : g ∈ outer ∨ f.address ≤ g.address := by
  obtain ⟨address, size, name, compDir, lines, inlinees, isInline⟩ := f
  rw [chains] at hchain
  rcases List.mem_cons.1 hchain with rfl | hchain
  · rcases List.mem_cons.1 hg with rfl | hg
    · exact .inr (UInt64.le_refl _)
    · exact .inl hg
  · rcases address_le_of_mem_chainsOf hf hchain hg with hg | hle
    · rcases List.mem_cons.1 hg with rfl | hg
      · exact .inr (UInt64.le_refl _)
      · exact .inl hg
    · exact .inr hle

theorem address_le_of_mem_chainsOf {l outer : List Function} {chain : List Function}
    {g : Function} {start stop : UInt64} (hl : NestedIn start stop l)
    (hchain : chain ∈ chainsOf outer l) (hg : g ∈ chain) : g ∈ outer ∨ start ≤ g.address := by
  cases l with
  | nil => simp [chainsOf] at hchain
  | cons f rest =>
      obtain ⟨⟨⟨-, hlow, -⟩, hf⟩, hrest⟩ := hl
      rw [chainsOf] at hchain
      rcases List.mem_append.1 hchain with hchain | hchain
      · rcases address_le_of_mem_chains hf hchain hg with hg | hle
        · exact .inl hg
        · exact .inr (UInt64.le_trans hlow hle)
      · exact address_le_of_mem_chainsOf hrest hchain hg

end

mutual

/-- Every chain ends with the outermost node. -/
theorem suffix_of_mem_chains {f : Function} {outer chain : List Function}
    (h : chain ∈ chains outer f) : (f :: outer) <:+ chain := by
  obtain ⟨address, size, name, compDir, lines, inlinees, isInline⟩ := f
  rw [chains] at h
  rcases List.mem_cons.1 h with rfl | h
  · exact List.suffix_refl _
  · exact suffix_of_mem_chainsOf h

theorem suffix_of_mem_chainsOf {l outer chain : List Function} (h : chain ∈ chainsOf outer l) :
    outer <:+ chain := by
  cases l with
  | nil => simp [chainsOf] at h
  | cons f rest =>
      rw [chainsOf] at h
      rcases List.mem_append.1 h with h | h
      · exact (List.suffix_cons f outer).trans (suffix_of_mem_chains h)
      · exact suffix_of_mem_chainsOf h

end

end Postmortem.Debug.Function
