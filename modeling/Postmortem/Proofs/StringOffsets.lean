import Postmortem.StringTable
import Postmortem.Proofs.VarInts

/-!
# Offsets of strings

An offset that a string table hands out reads back as the string, in the table itself and in every
later one, since a table only grows at its end.  The empty string reads as no string.
-/

set_option autoImplicit false

namespace Postmortem

theorem Utf8.decode?_encode (s : String) : decode? (encode s) = some s := by
  have hbytes : (⟨(encode s).toArray⟩ : ByteArray) = s.toByteArray := rfl
  rw [decode?, hbytes, String.fromUTF8?, dif_pos s.isValidUTF8]
  rfl

namespace StringTable

/-- What is read for a string: the empty one reads as none. -/
def shown (s : String) : Option String := if s.isEmpty then none else some s

theorem getD_shown (s : String) : (shown s).getD "" = s := by
  rw [shown]
  split
  · exact (String.isEmpty_iff.1 ‹_›).symm
  · rfl

def Holds (b : Bytes) (offset : UInt32) (s : String) : Prop :=
  if s.isEmpty then offset = absent else offset ≠ absent ∧ encodeText s <+: b.drop offset.toNat

theorem Holds.mono {b b' : Bytes} {offset : UInt32} {s : String} (h : Holds b offset s)
    (hb : b <+: b') : Holds b' offset s := by
  rw [Holds] at h ⊢
  split
  · rwa [if_pos ‹_›] at h
  · rw [if_neg ‹_›] at h
    obtain ⟨more, rfl⟩ := hb
    rw [List.drop_append]
    exact ⟨h.1, h.2.trans (List.prefix_append _ _)⟩

theorem encodeText_ne_nil (s : String) : encodeText s ≠ [] := by
  simp [encodeText, Leb128.ofNat_ne_nil]

theorem Holds.offset_le {b : Bytes} {offset : UInt32} {s : String} (h : Holds b offset s)
    (hs : s.isEmpty = false) : offset.toNat ≤ b.length := by
  rw [Holds, if_neg (by simp [hs])] at h
  rcases Nat.le_total offset.toNat b.length with hle | hge
  · exact hle
  · rw [List.drop_eq_nil_of_le hge] at h
    exact absurd (List.prefix_nil.1 h.2) (encodeText_ne_nil s)

/-- A string reads back wherever it is held, as long as its size is a number of 64 bits. -/
theorem read?_of_holds_of_lt {b : Bytes} {offset : UInt32} {s : String} (h : Holds b offset s)
    (hlen : (Utf8.encode s).length < UInt64.size) : read? b offset = shown s := by
  rw [shown]
  by_cases hs : s.isEmpty = true
  · rw [Holds, if_pos hs] at h
    rw [if_pos hs, read?, if_pos h]
  · have hle := h.offset_le (by simpa using hs)
    rw [Holds, if_neg hs] at h
    obtain ⟨habsent, rest, hrest⟩ := h
    have hnat : (UInt64.ofNat (Utf8.encode s).length).toNat = (Utf8.encode s).length := by
      rw [UInt64.toNat_ofNat']
      exact Nat.mod_eq_of_lt hlen
    rw [if_neg hs, read?, if_neg habsent, if_pos hle, ← hrest, encodeText, List.append_assoc,
      Leb128.read_ofNat _ _ hlen]
    simp only [hnat, Bytes.splitAt?, List.take_left, List.drop_left, if_pos, Option.bind_some]
    exact Utf8.decode?_encode s

theorem read?_of_holds {b : Bytes} {offset : UInt32} {s : String} (h : Holds b offset s)
    (hb : b.length < UInt32.size) : read? b offset = shown s := by
  apply read?_of_holds_of_lt h
  by_cases hs : s.isEmpty = true
  · rw [String.isEmpty_iff.1 hs]
    decide
  · rw [Holds, if_neg hs] at h
    have hle := h.2.length_le
    simp only [encodeText, List.length_append, List.length_drop] at hle
    simp only [UInt32.size, UInt64.size] at hb ⊢
    omega

/-! ## Tables under construction -/

structure Sound (t : StringTable) : Prop where
  size_eq : t.size = t.toBytes.length
  holds : ∀ e ∈ t.entries, Holds t.toBytes e.2 e.1

theorem sound_empty : Sound empty := ⟨rfl, by simp [empty]⟩

theorem toBytes_cons (s : String) (offset : UInt32) (entries : List (String × UInt32))
    (size : Nat) :
    toBytes ⟨(s, offset) :: entries, size⟩ = toBytes ⟨entries, size⟩ ++ encodeText s := by
  simp [toBytes]

theorem mem_of_lookup {s : String} {offset : UInt32} {entries : List (String × UInt32)}
    (h : entries.lookup s = some offset) : (s, offset) ∈ entries := by
  induction entries with
  | nil => simp at h
  | cons e rest ih =>
      obtain ⟨k, o⟩ := e
      rw [List.lookup_cons] at h
      split at h
      · rename_i hk
        simp only [Option.some.injEq] at h
        have : s = k := by simpa using hk
        simp [this, h]
      · exact List.mem_cons_of_mem _ (ih h)

/-- A string behind all others. -/
theorem Sound.push {t : StringTable} {s : String} (ht : t.Sound) (hs : ¬ s.isEmpty = true)
    (hsize : t.size < absent.toNat) :
    let t' : StringTable :=
      ⟨(s, UInt32.ofNat t.size) :: t.entries, t.size + (encodeText s).length⟩
    t'.Sound ∧ t.toBytes <+: t'.toBytes ∧ Holds t'.toBytes (UInt32.ofNat t.size) s := by
  intro t'
  have hnat : (UInt32.ofNat t.size).toNat = t.size := by
    rw [UInt32.toNat_ofNat']
    exact Nat.mod_eq_of_lt (Nat.lt_trans hsize absent.toNat_lt)
  have hne : UInt32.ofNat t.size ≠ absent := by
    intro heq
    rw [heq] at hnat
    exact absurd hnat (Nat.ne_of_gt hsize)
  have hbytes : t'.toBytes = t.toBytes ++ encodeText s := toBytes_cons ..
  have hgrow : t.toBytes <+: t'.toBytes := hbytes ▸ List.prefix_append _ _
  have hnew : Holds t'.toBytes (UInt32.ofNat t.size) s := by
    rw [Holds, if_neg hs, hnat, hbytes, ht.size_eq, List.drop_left]
    exact ⟨ht.size_eq ▸ hne, List.prefix_refl _⟩
  refine ⟨⟨?_, ?_⟩, hgrow, hnew⟩
  · rw [hbytes, List.length_append, ← ht.size_eq]
  · intro e he
    rcases List.mem_cons.1 he with rfl | he
    · exact hnew
    · exact (ht.holds e he).mono hgrow

/-- One more string: the table stays sound, its bytes go on, and the string is at its offset. -/
theorem insert?_sound {t t' : StringTable} {s : String} {offset : UInt32} (ht : t.Sound)
    (h : t.insert? s = some (offset, t')) :
    t'.Sound ∧ t.toBytes <+: t'.toBytes ∧ Holds t'.toBytes offset s := by
  rw [insert?] at h
  split at h
  · rename_i hs
    cases h
    exact ⟨ht, List.prefix_refl _, by rw [Holds, if_pos hs]⟩
  · rename_i hs
    split at h
    · rename_i o hlookup
      cases h
      exact ⟨ht, List.prefix_refl _, ht.holds _ (mem_of_lookup hlookup)⟩
    · split at h
      · rename_i hsize
        cases h
        exact ht.push hs hsize
      · cases h

end StringTable

end Postmortem
