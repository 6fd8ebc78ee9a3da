import Mathlib.Data.List.Permutation
import Postmortem.Debug.Symbol
import Postmortem.Proofs.Distances
import Postmortem.Proofs.Floors
import Postmortem.Proofs.RecordsInEffect

/-!
# Maps of symbols

A map keeps the first symbol at each address, and makes those without size reach up to the next
one.  Bisection finds the last symbol that does not start above an address.  Whether that symbol
covers the address is decided by its end, which may lie outside the address space.
-/

set_option autoImplicit false

namespace Postmortem.Debug

variable {s next : Symbol} {l symbols : List Symbol} {a : UInt64}

namespace Symbol

@[simp] theorem upTo_address : (s.upTo next).address = s.address := by
  rw [upTo]
  split <;> rfl

@[simp] theorem upTo_name : (s.upTo next).name = s.name := by
  rw [upTo]
  split <;> rfl

theorem upTo_of_size_ne_zero (h : s.size ≠ 0) : s.upTo next = s := if_neg h

theorem upTo_of_address_eq (h : s.address = next.address) : s.upTo next = s := by
  by_cases hsize : s.size = 0
  · rw [upTo, if_pos hsize, ← h, UInt64.sub_self, ← hsize]
  · exact upTo_of_size_ne_zero hsize

/-- A symbol without size ends where the next one starts. -/
theorem end_upTo (hsize : s.size = 0) (hle : s.address ≤ next.address) :
    s.address.toNat + (s.upTo next).size.toNat = next.address.toNat := by
  have hle' := UInt64.le_iff_toNat_le.1 hle
  rw [upTo, if_pos hsize, toNat_sub_of_le hle']
  exact Nat.add_sub_of_le hle'

theorem covers_eq_ok (hle : s.address ≤ a)
    (hfits : s.address.toNat + s.size.toNat < UInt64.size) :
    s.covers a = .ok (decide (s.size = 0 ∨ a - s.address < s.size)) := by
  rw [covers, if_neg (UInt64.not_lt.2 hle)]
  by_cases hsize : s.size = 0
  · rw [if_pos hsize, decide_eq_true (.inl hsize)]
  · have hle' := UInt64.le_iff_toNat_le.1 hle
    have hend : a < s.address + s.size ↔ a - s.address < s.size := by
      rw [UInt64.lt_iff_toNat_lt, UInt64.lt_iff_toNat_lt, UInt64.toNat_add,
        Nat.mod_eq_of_lt hfits, toNat_sub_of_le hle']
      omega
    rw [if_neg hsize, addOrAbort, if_pos hfits, Except.map, Except.ok.injEq, decide_eq_decide,
      or_iff_right hsize]
    exact hend

/-- A symbol that ends outside the address space covers all addresses from its start, but its end is
no address that they could be compared with. -/
theorem covers_eq_overflow (hle : s.address ≤ a)
    (hout : ¬ s.address.toNat + s.size.toNat < UInt64.size) :
    a - s.address < s.size ∧ s.covers a = .error .overflow := by
  have hle' := UInt64.le_iff_toNat_le.1 hle
  have hlast := a.toNat_lt
  have hstart := s.address.toNat_lt
  constructor
  · rw [UInt64.lt_iff_toNat_lt, toNat_sub_of_le hle']
    rw [UInt64.size] at hout
    omega
  · have hsize : s.size ≠ 0 := by
      rintro hzero
      rw [hzero] at hout
      exact hout hstart
    rw [covers, if_neg (UInt64.not_lt.2 hle), if_neg hsize, addOrAbort, if_neg hout]
    rfl

end Symbol

namespace SymbolMap

/-! ## The symbols of a map -/

/-- The symbols of a list, of which each that has no size reaches up to the next one. -/
def filled : List Symbol → List Symbol
  | [] => []
  | [s] => [s]
  | s :: next :: rest => s.upTo next :: filled (next :: rest)

theorem getElem?_filled (l : List Symbol) (i : Nat) :
    (filled l)[i]? = l[i]?.map fun s => l[i + 1]?.elim s s.upTo := by
  induction l using filled.induct generalizing i with
  | case1 => rfl
  | case2 s => cases i <;> rfl
  | case3 s next rest ih =>
      cases i with
      | zero => rfl
      | succ i => exact ih i

theorem map_address_filled (l : List Symbol) :
    (filled l).map Symbol.address = l.map Symbol.address := by
  induction l using filled.induct with
  | case1 => rfl
  | case2 s => rfl
  | case3 s next rest ih => rw [filled, List.map_cons, ih, Symbol.upTo_address, ← List.map_cons]

theorem settleFrom_eq {rest : List Symbol}
    (sorted : (s :: rest).Pairwise fun x y => x.address ≤ y.address) :
    settleFrom s rest = filled (firsts Symbol.address (s :: rest)) := by
  induction rest generalizing s with
  | nil => rfl
  | cons next rest ih =>
      obtain ⟨hs, hrest⟩ := List.pairwise_cons.1 sorted
      rw [settleFrom]
      by_cases heq : s.address = next.address
      · have hskip : (s :: rest).Pairwise fun x y => x.address ≤ y.address :=
          sorted.sublist (.cons_cons s (.cons next (.refl rest)))
        rw [if_pos heq, Symbol.upTo_of_address_eq heq, ih hskip, firsts_cons_cons_of_eq heq]
      · have habove : ∀ y ∈ next :: rest, y.address ≠ s.address := by
          intro y hy hys
          have hle : next.address ≤ y.address := by
            rcases List.mem_cons.1 hy with rfl | hy
            · exact UInt64.le_refl _
            · exact (List.pairwise_cons.1 hrest).1 y hy
          exact heq (UInt64.le_antisymm (hs next (List.mem_cons_self ..)) (hys ▸ hle))
        rw [if_neg heq, ih hrest, firsts_cons_of_ne habove]
        rfl

/-- In order, settling keeps the first symbol at each address. -/
theorem settle_eq (sorted : l.Pairwise fun x y => x.address ≤ y.address) :
    settle l = filled (firsts Symbol.address l) := by
  cases l with
  | nil => rfl
  | cons s rest => exact settleFrom_eq sorted

/-- Whether a function brings symbols in the order of their addresses. -/
def SortsByAddress (sort : List Symbol → List Symbol) : Prop :=
  ∀ l, (sort l).Perm l ∧ (sort l).Pairwise fun x y => x.address ≤ y.address

theorem sortsByAddress_byAddress : SortsByAddress byAddress :=
  fun l => ⟨List.mergeSort_perm l _, sorted_mergeSort Symbol.address l⟩

variable {sort : List Symbol → List Symbol}

theorem increasing_ofListBy (h : SortsByAddress sort) (symbols : List Symbol) :
    (ofListBy sort symbols).symbols.Pairwise fun x y => x.address < y.address := by
  have hfirsts := increasing_firsts (h symbols).2
  rw [ofListBy, settle_eq (h symbols).2, ← List.pairwise_map, map_address_filled,
    List.pairwise_map]
  exact hfirsts

theorem exists_symbol_iff (h : SortsByAddress sort) (symbols : List Symbol) (a : UInt64) :
    (∃ s ∈ (ofListBy sort symbols).symbols, s.address = a) ↔ ∃ o ∈ symbols, o.address = a := by
  rw [ofListBy, settle_eq (h symbols).2, ← List.mem_map, map_address_filled, List.mem_map]
  constructor
  · rintro ⟨o, ho, rfl⟩
    exact ⟨o, (h symbols).1.subset ((firsts_sublist _ _).subset ho), rfl⟩
  · rintro ⟨o, ho, rfl⟩
    exact exists_mem_firsts ((h symbols).1.symm.subset ho)

/-- Each symbol of a map is one of the given ones, with the size it had, or up to the next one. -/
theorem symbol_of_map (h : SortsByAddress sort) {i : Nat}
    (hi : (ofListBy sort symbols).symbols[i]? = some s) :
    ∃ o ∈ symbols, o.address = s.address ∧ o.name = s.name ∧ (o.size ≠ 0 → s.size = o.size) ∧
      (o.size = 0 →
        (i + 1 = (ofListBy sort symbols).symbols.length ∧ s.size = 0) ∨
        ∃ next, (ofListBy sort symbols).symbols[i + 1]? = some next ∧
          s.address.toNat + s.size.toNat = next.address.toNat) := by
  have hincreasing := increasing_firsts (h symbols).2
  have hmem {o : Symbol} (ho : o ∈ firsts Symbol.address (sort symbols)) : o ∈ symbols :=
    (h symbols).1.subset ((firsts_sublist _ _).subset ho)
  have hlength : (filled (firsts Symbol.address (sort symbols))).length =
      (firsts Symbol.address (sort symbols)).length := by
    simpa using congrArg List.length (map_address_filled (firsts Symbol.address (sort symbols)))
  rw [ofListBy, settle_eq (h symbols).2, hlength]
  rw [ofListBy, settle_eq (h symbols).2] at hi
  generalize firsts Symbol.address (sort symbols) = kept at hincreasing hmem hi ⊢
  rw [getElem?_filled] at hi ⊢
  obtain ⟨o, ho, rfl⟩ := Option.map_eq_some_iff.1 hi
  refine ⟨o, hmem (List.mem_of_getElem? ho), ?_⟩
  cases hnext : kept[i + 1]? with
  | none =>
      have hlast : i + 1 = kept.length := by
        have hlt := (List.getElem?_eq_some_iff.1 ho).1
        have hge := List.getElem?_eq_none_iff.1 hnext
        omega
      exact ⟨rfl, rfl, fun _ => rfl, fun hsize => .inl ⟨hlast, hsize⟩⟩
  | some p =>
      have hlt : o.address < p.address := by
        obtain ⟨ho', hoi⟩ := List.getElem?_eq_some_iff.1 ho
        obtain ⟨hp', hpi⟩ := List.getElem?_eq_some_iff.1 hnext
        have := List.pairwise_iff_getElem.1 hincreasing i (i + 1) ho' hp' (Nat.lt_succ_self i)
        rwa [hoi, hpi] at this
      refine ⟨Symbol.upTo_address.symm, Symbol.upTo_name.symm,
        fun hsize => congrArg Symbol.size (Symbol.upTo_of_size_ne_zero hsize),
        fun hsize => .inr ⟨_, rfl, ?_⟩⟩
      have hend := Symbol.end_upTo hsize (UInt64.le_of_lt hlt)
      cases hafter : kept[i + 1 + 1]? with
      | none => simpa using hend
      | some q => simpa using hend

/-! ## Lookups -/

variable {m : SymbolMap}

theorem lookupExact?_eq_some_iff
    (increasing : m.symbols.Pairwise fun x y => x.address < y.address) :
    m.lookupExact? a = some s ↔ s ∈ m.symbols ∧ s.address = a := by
  obtain ⟨before, after, hsplit, hbefore, hafter⟩ := Bisect.exists_split increasing a
  have hcompares : Bisect.Compares Symbol.address (before ++ after) a (m.order a) := by
    rw [← hsplit]
    exact Bisect.compares_byKey m.symbols a
  rw [hsplit] at increasing
  rw [lookupExact?, hsplit]
  rcases hcompares.search increasing hbefore hafter with
    ⟨front, x, rfl, hx, hsearch⟩ | ⟨hbelow, hsearch⟩
  · have hget : (front ++ [x] ++ after)[front.length]? = some x := by simp
    have hmem : x ∈ front ++ [x] ++ after := by simp
    simp only [hsearch, hget, Option.some.injEq]
    constructor
    · rintro rfl
      exact ⟨hmem, hx⟩
    · rintro ⟨hs, hsa⟩
      exact Bisect.eq_of_key_eq increasing hmem hs (hx.trans hsa.symm)
  · simp only [hsearch]
    refine iff_of_false nofun ?_
    rintro ⟨hs, rfl⟩
    rcases List.mem_append.1 hs with hs | hs
    · exact UInt64.lt_irrefl _ (hbelow s hs)
    · exact UInt64.lt_irrefl _ (hafter s hs)

/-- Bisection finds the last symbol that does not start above an address. -/
theorem floor?_cases (increasing : m.symbols.Pairwise fun x y => x.address < y.address)
    (a : UInt64) :
    (m.floor? a = none ∧ ∀ s ∈ m.symbols, a < s.address) ∨
      ∃ s ∈ m.symbols, m.floor? a = some s ∧ s.address ≤ a ∧
        ∀ t ∈ m.symbols, t.address ≤ a → t.address ≤ s.address := by
  have horder : m.order a = Bisect.byKey Symbol.address m.symbols a := rfl
  rw [floor?, horder]
  rcases Bisect.byKey_cases Symbol.address m.symbols a with
    habove | ⟨before, s, after, hsplit, hs, hafter⟩
  · rw [Bisect.floor?_byKey_eq_none habove]
    exact .inl ⟨rfl, habove⟩
  · rw [hsplit] at increasing ⊢
    rw [Bisect.floor?_byKey increasing hs hafter]
    refine .inr ⟨s, by simp, by simp, hs, fun t ht hta => ?_⟩
    rcases List.mem_append.1 ht with ht | ht
    · exact UInt64.le_of_lt ((List.pairwise_append.1 increasing).2.2 t ht s (List.mem_cons_self ..))
    · rcases List.mem_cons.1 ht with rfl | ht
      · exact UInt64.le_refl _
      · exact absurd hta (UInt64.not_le.2 (hafter t ht))

/-- A map has one symbol at each address at which there is a given one, and nothing else.  Each is
one of the given symbols, except that one without size reaches exactly up to the next symbol of the
map, if there is one.  Exact lookups find the symbols of the map, and so find one exactly where one
was given. -/
theorem map_of_symbols (h : SortsByAddress sort) (symbols : List Symbol) :
    ((ofListBy sort symbols).symbols.Pairwise fun x y => x.address < y.address) ∧
      (∀ a, (∃ s ∈ (ofListBy sort symbols).symbols, s.address = a) ↔
        ∃ o ∈ symbols, o.address = a) ∧
      (∀ i s, (ofListBy sort symbols).symbols[i]? = some s →
        ∃ o ∈ symbols, o.address = s.address ∧ o.name = s.name ∧
          (o.size ≠ 0 → s.size = o.size) ∧
          (o.size = 0 →
            (i + 1 = (ofListBy sort symbols).symbols.length ∧ s.size = 0) ∨
            ∃ next, (ofListBy sort symbols).symbols[i + 1]? = some next ∧
              s.address.toNat + s.size.toNat = next.address.toNat)) ∧
      (∀ a s, (ofListBy sort symbols).lookupExact? a = some s ↔
        s ∈ (ofListBy sort symbols).symbols ∧ s.address = a) ∧
      ∀ a, ((ofListBy sort symbols).lookupExact? a).isSome ↔ ∃ o ∈ symbols, o.address = a := by
  have hincreasing := increasing_ofListBy h symbols
  have hexact (a : UInt64) (s : Symbol) := lookupExact?_eq_some_iff (a := a) (s := s) hincreasing
  refine ⟨hincreasing, exists_symbol_iff h symbols, fun i s => symbol_of_map h, hexact, fun a => ?_⟩
  rw [← exists_symbol_iff h, Option.isSome_iff_exists]
  exact exists_congr fun s => hexact a s

/-- Symbols in no order, two of which are at one address. -/
def sampleSymbols : List Symbol :=
  [⟨some "a", 0x4400, 0⟩, ⟨some "b", 0x4200, 0⟩, ⟨some "b'", 0x4200, 0x10⟩, ⟨some "c", 0x4000, 0⟩]

theorem map_of_symbols_sample :
    (ofList sampleSymbols).symbols =
        [⟨some "c", 0x4000, 0x200⟩, ⟨some "b", 0x4200, 0x200⟩, ⟨some "a", 0x4400, 0⟩] ∧
      (ofList sampleSymbols).lookupExact? 0x4200 = some ⟨some "b", 0x4200, 0x200⟩ ∧
      (ofList sampleSymbols).lookupExact? 0x4201 = none := by
  have hsymbols : (ofList sampleSymbols).symbols =
      [⟨some "c", 0x4000, 0x200⟩, ⟨some "b", 0x4200, 0x200⟩, ⟨some "a", 0x4400, 0⟩] := by
    cbv
  obtain ⟨-, -, -, hexact, hsome⟩ := map_of_symbols sortsByAddress_byAddress sampleSymbols
  refine ⟨hsymbols, (hexact 0x4200 _).2 ⟨?_, rfl⟩, ?_⟩
  · rw [← ofList, hsymbols]
    decide
  · rw [← Option.not_isSome_iff_eq_none, ofList, hsome 0x4201]
    decide

/-- A lookup looks at the last symbol that does not start above the address.  If that symbol ends
inside the address space, it is found exactly if it has no size or the address is less than its size
above its start.  If it ends outside, it covers the address, but computing its end overflows. -/
theorem lookup_of_last_symbol (h : SortsByAddress sort) (symbols : List Symbol) (a : UInt64) :
    ((∀ s ∈ (ofListBy sort symbols).symbols, a < s.address) ∧
        (ofListBy sort symbols).lookup a = .ok none) ∨
      ∃ s ∈ (ofListBy sort symbols).symbols, s.address ≤ a ∧
        (∀ t ∈ (ofListBy sort symbols).symbols, t.address ≤ a → t.address ≤ s.address) ∧
        (s.address.toNat + s.size.toNat < UInt64.size →
          (ofListBy sort symbols).lookup a =
            .ok (if s.size = 0 ∨ a - s.address < s.size then some s else none)) ∧
        (¬ s.address.toNat + s.size.toNat < UInt64.size →
          a - s.address < s.size ∧ (ofListBy sort symbols).lookup a = .error .overflow) := by
  rcases floor?_cases (increasing_ofListBy h symbols) a with
    ⟨hfloor, habove⟩ | ⟨s, hs, hfloor, hle, hlast⟩
  · refine .inl ⟨habove, ?_⟩
    rw [lookup, hfloor]
  · refine .inr ⟨s, hs, hle, hlast, fun hfits => ?_, fun hout => ?_⟩
    · simp only [lookup, hfloor, Symbol.covers_eq_ok hle hfits, Except.map, decide_eq_true_eq]
    · obtain ⟨hcovers, habort⟩ := Symbol.covers_eq_overflow hle hout
      refine ⟨hcovers, ?_⟩
      simp only [lookup, hfloor, habort, Except.map]

theorem lookup_of_last_symbol_sample :
    (ofList sampleSymbols).lookup 0x4210 = .ok (some ⟨some "b", 0x4200, 0x200⟩) := by
  have hsymbols : (ofListBy byAddress sampleSymbols).symbols =
      [⟨some "c", 0x4000, 0x200⟩, ⟨some "b", 0x4200, 0x200⟩, ⟨some "a", 0x4400, 0⟩] := by
    cbv
  rcases lookup_of_last_symbol sortsByAddress_byAddress sampleSymbols 0x4210 with
    ⟨habove, -⟩ | ⟨s, hs, hle, hlast, hfits, -⟩
  · rw [hsymbols] at habove
    exact absurd habove (by decide)
  · rw [hsymbols] at hs hlast
    have hb := hlast ⟨some "b", 0x4200, 0x200⟩ (by decide) (by decide)
    simp only [List.mem_cons, List.not_mem_nil, or_false] at hs
    rcases hs with rfl | rfl | rfl
    · exact absurd hb (by decide)
    · rw [ofList, hfits (by decide)]
      decide
    · exact absurd hle (by decide)

/-- A symbol in the last bytes of the address space, and an address inside it. -/
theorem tail_is_not_found :
    (ofList [⟨some "tail", 0xffffffffffffff00, 0x100⟩]).symbols =
        [⟨some "tail", 0xffffffffffffff00, 0x100⟩] ∧
      (0xffffffffffffff00 : UInt64) ≤ 0xffffffffffffff80 ∧
      (0xffffffffffffff80 : UInt64) - 0xffffffffffffff00 < 0x100 ∧
      (ofList [⟨some "tail", 0xffffffffffffff00, 0x100⟩]).lookup 0xffffffffffffff80 =
        .error .overflow := by
  refine ⟨?_, by decide, by decide, ?_⟩
  · cbv
  · cbv

end SymbolMap

end Postmortem.Debug
