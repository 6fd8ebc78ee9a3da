import Postmortem.FaultClass
import Postmortem.StringTable

/-!
# Longer inputs

What is read from some bytes is also read if more bytes follow: cursors, variable-length integers
and string tables only ever look at what they consume.  A format whose readers behave so, and which
uses up all that is written, cannot be cut short and does not mind what is appended.
-/

set_option autoImplicit false

namespace Postmortem

theorem Bytes.splitAt?_append_right {n : Nat} {b head rest : Bytes}
    (h : splitAt? n b = some (head, rest)) (x : Bytes) :
    splitAt? n (b ++ x) = some (head, rest ++ x) := by
  simp only [splitAt?] at h ⊢
  split at h
  · rename_i hlen
    cases h
    have hle : n ≤ b.length := by
      rw [List.length_take] at hlen
      omega
    rw [List.take_append_of_le_length hle, List.drop_append_of_le_length hle, if_pos hlen]
  · cases h

/-! ## Cursors -/

namespace Cursor

variable {c c' : Cursor}

def extend (c : Cursor) (x : Bytes) : Cursor := ⟨c.position, c.rest ++ x⟩

theorem take?_extend {n : Nat} {b : Bytes} (h : c.take? n = some (b, c')) (x : Bytes) :
    (c.extend x).take? n = some (b, c'.extend x) := by
  obtain ⟨⟨head, rest⟩, hsplit, heq⟩ := Option.map_eq_some_iff.1 h
  cases heq
  rw [take?, extend, Bytes.splitAt?_append_right hsplit x]
  rfl

theorem align?_extend (h : c.align? = some c') (x : Bytes) :
    (c.extend x).align? = some (c'.extend x) := by
  obtain ⟨⟨b, c₁⟩, htake, heq⟩ := Option.map_eq_some_iff.1 h
  cases heq
  exact Option.map_eq_some_iff.2 ⟨_, take?_extend htake x, rfl⟩

theorem word32?_extend {w : UInt32} (h : c.word32? = some (w, c')) (x : Bytes) :
    (c.extend x).word32? = some (w, c'.extend x) := by
  obtain ⟨⟨b, c₁⟩, htake, heq⟩ := Option.map_eq_some_iff.1 h
  cases heq
  exact Option.map_eq_some_iff.2 ⟨_, take?_extend htake x, rfl⟩

theorem word64?_extend {w : UInt64} (h : c.word64? = some (w, c')) (x : Bytes) :
    (c.extend x).word64? = some (w, c'.extend x) := by
  obtain ⟨⟨b, c₁⟩, htake, heq⟩ := Option.map_eq_some_iff.1 h
  cases heq
  exact Option.map_eq_some_iff.2 ⟨_, take?_extend htake x, rfl⟩

theorem words32?_extend {n : Nat} {ws : List UInt32} (h : c.words32? n = some (ws, c'))
    (x : Bytes) : (c.extend x).words32? n = some (ws, c'.extend x) := by
  induction n generalizing c ws with
  | zero =>
      cases h
      rfl
  | succ n ih =>
      obtain ⟨⟨w, c₁⟩, hword, h⟩ := Option.bind_eq_some_iff.1 h
      obtain ⟨⟨rest, c₂⟩, hrest, h⟩ := Option.bind_eq_some_iff.1 h
      cases h
      refine Option.bind_eq_some_iff.2 ⟨_, word32?_extend hword x, ?_⟩
      exact Option.bind_eq_some_iff.2 ⟨_, ih hrest, rfl⟩

end Cursor

theorem WordRecord.table?_extend {α : Type} [WordRecord α] {n : Nat} {c c' : Cursor}
    {records : List α} (h : table? α n c = some (records, c')) (x : Bytes) :
    table? α n (c.extend x) = some (records, c'.extend x) := by
  induction n generalizing c records with
  | zero =>
      cases h
      rfl
  | succ n ih =>
      obtain ⟨⟨ws, c₁⟩, hwords, h⟩ := Option.bind_eq_some_iff.1 h
      obtain ⟨r, hr, h⟩ := Option.bind_eq_some_iff.1 h
      obtain ⟨⟨rest, c₂⟩, hrest, h⟩ := Option.bind_eq_some_iff.1 h
      cases h
      refine Option.bind_eq_some_iff.2 ⟨_, Cursor.words32?_extend hwords x, ?_⟩
      refine Option.bind_eq_some_iff.2 ⟨r, hr, ?_⟩
      exact Option.bind_eq_some_iff.2 ⟨_, ih hrest, rfl⟩

/-! ## Strings -/

theorem Leb128.readNat_append {left n : Nat} {b rest : Bytes}
    (h : readNat left b = (some n, rest)) (x : Bytes) :
    readNat left (b ++ x) = (some n, rest ++ x) := by
  induction left generalizing b n with
  | zero =>
      cases b with
      | nil => cases h
      | cons head tail =>
          rw [readNat] at h
          rw [List.cons_append, readNat]
          split at h
          · rename_i hbit
            cases h
            rw [if_pos hbit]
          · cases h
  | succ left ih =>
      cases b with
      | nil => cases h
      | cons head tail =>
          rw [readNat] at h
          rw [List.cons_append, readNat]
          split at h
          · rename_i hlast
            cases h
            rw [if_pos hlast]
          · rename_i hmore
            rw [if_neg hmore]
            cases hhigh : readNat left tail with
            | mk value rest' =>
                rw [hhigh] at h
                obtain ⟨hvalue, rfl⟩ := Prod.mk.inj h
                obtain ⟨high, rfl, hn⟩ := Option.map_eq_some_iff.1 hvalue
                rw [ih hhigh, ← hn]
                rfl

theorem StringTable.read?_append {b : Bytes} {offset : UInt32} {s : String}
    (h : read? b offset = some s) (x : Bytes) : read? (b ++ x) offset = some s := by
  rw [read?] at h ⊢
  split at h
  · cases h
  · rename_i hpresent
    rw [if_neg hpresent]
    split at h
    · rename_i hle
      rw [if_pos (by rw [List.length_append]; omega), List.drop_append_of_le_length hle]
      rw [Leb128.read] at h ⊢
      cases hlength : Leb128.readNat 9 (b.drop offset.toNat) with
      | mk length rest =>
          rw [hlength] at h
          cases length with
          | none => cases h
          | some n =>
              rw [Leb128.readNat_append hlength x]
              obtain ⟨⟨text, rest'⟩, hsplit, htext⟩ := Option.bind_eq_some_iff.1 h
              exact Option.bind_eq_some_iff.2 ⟨_, Bytes.splitAt?_append_right hsplit x, htext⟩
    · cases h

/-! ## Formats -/

section Formats

variable {Cache Fault Answers : Type} {parse : Bytes → Except Fault Cache}
  {answers : Cache → Answers} {b : Bytes} {s : Cache}

/-- Whether some bytes are accepted, but no part of them that ends earlier is, and are still accepted
with whatever follows them, with the same answers. -/
structure Delimited (parse : Bytes → Except Fault Cache) (answers : Cache → Answers) (b : Bytes) :
    Prop where
  accepted : ∃ s, parse b = .ok s
  truncated : ∀ p, p <+: b → p ≠ b → ∃ fault, parse p = .error fault
  extended : ∀ s, parse b = .ok s → ∀ x, ∃ s', parse (b ++ x) = .ok s' ∧ answers s' = answers s

/-- Bytes that leave nothing spare cannot be cut short, if whatever follows accepted bytes is
spare. -/
theorem refused_of_strict_prefix (spare : Cache → Nat)
    (hspare : ∀ {p s}, parse p = .ok s → ∀ x, ∃ s', parse (p ++ x) = .ok s' ∧
      spare s' = spare s + x.length)
    (hb : parse b = .ok s) (hfull : spare s = 0) {p : Bytes} (hp : p <+: b) (hne : p ≠ b) :
    ∃ fault, parse p = .error fault := by
  obtain ⟨x, rfl⟩ := hp
  cases hparse : parse p with
  | error fault => exact ⟨fault, rfl⟩
  | ok s₀ =>
      obtain ⟨s', hs', hsum⟩ := hspare hparse x
      obtain rfl : s' = s := Except.ok.inj (hs'.symm.trans hb)
      have hx : x.length ≠ 0 := by
        intro hzero
        rw [List.length_eq_zero_iff.1 hzero, List.append_nil] at hne
        exact hne rfl
      omega

end Formats

end Postmortem
