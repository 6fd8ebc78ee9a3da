import Postmortem.DebugId
import Postmortem.Proofs.HexNumerals

/-!
# Spellings of debug identifiers

Each spelling of an identifier is read back as the identifier, in either case of its letters.  Only
the hyphenated spelling of a timestamp without appendix is refused: it is too short to be told from
other texts.
-/

set_option autoImplicit false

namespace Postmortem.DebugId

open Text (IsHex digits padZeros readHex? readHex32?)

/-- The identifiers that have a spelling: UUIDs and timestamps, each with an appendix. -/
inductive Spellable : DebugId → Prop where
  | uuid (uuid : BitVec 128) (appendix : UInt32) : Spellable ⟨uuid, appendix, .uuid⟩
  | timestamp (timestamp appendix : UInt32) : Spellable (ofTimestamp timestamp appendix)

theorem timestamp_ofTimestamp (timestamp appendix : UInt32) :
    (ofTimestamp timestamp appendix).timestamp = timestamp.toNat := by
  have hlt := timestamp.toNat_lt
  rw [DebugId.timestamp, ofTimestamp, BitVec.toNat_ofNat, Nat.mod_eq_of_lt,
    Nat.shiftLeft_shiftRight]
  rw [Nat.shiftLeft_eq]
  omega

/-! ## The parts of a reader -/

def hasTimestampLength (isHyphenated : Bool) (n : Nat) : Bool :=
  if isHyphenated then 10 ≤ n && n ≤ 17 else 9 ≤ n && n ≤ 16

def readTimestampForm? (isHyphenated : Bool) (cs : List Char) : Option DebugId :=
  (readHex32? (cs.take 8)).bind fun timestamp =>
    (readHex32? (cs.drop (if isHyphenated then 9 else 8))).bind fun appendix =>
      some (ofTimestamp timestamp appendix)

def appendixText? (isHyphenated : Bool) (cs : List Char) : Option (List Char) :=
  match cs with
  | '-' :: tail => if isHyphenated then some tail else none
  | tail => if isHyphenated then none else some tail

def readUuidForm? (r : Reading) (isHyphenated : Bool) (cs : List Char) : Option DebugId :=
  let width := if isHyphenated then 36 else 32
  (readUuid? isHyphenated (cs.take width)).bind fun uuid =>
    if cs.length = width && !r.needsAppendix then some ⟨uuid, 0, .uuid⟩
    else (appendixText? isHyphenated (cs.drop width)).bind fun tail =>
      (readHex32? (if r.cutsTail then tail.take 8 else tail)).bind fun appendix =>
        some ⟨uuid, appendix, .uuid⟩

/-- A text is told by the character behind the first eight to be hyphenated, and by its length to be
a timestamp. -/
theorem readChars?_eq (r : Reading) (cs : List Char) : readChars? r cs =
    let isHyphenated := cs[8]? == some '-'
    if cs.any (·.toNat ≥ 128) || (isHyphenated && !r.hyphens) then none
    else if hasTimestampLength isHyphenated cs.length then readTimestampForm? isHyphenated cs
    else readUuidForm? r isHyphenated cs := by
  rw [readChars?]
  generalize (cs[8]? == some '-') = isHyphenated
  refine ite_congr rfl (fun _ => rfl) fun _ => ?_
  refine ite_congr rfl (fun _ => rfl) fun _ => ?_
  refine congrArg (Option.bind _) (funext fun uuid => ?_)
  refine ite_congr rfl (fun _ => rfl) fun _ => ?_
  dsimp only
  split
  · rename_i hcs
    rw [hcs, appendixText?]
    cases isHyphenated <;> rfl
  · rename_i hcs
    rw [appendixText?]
    · cases isHyphenated <;> rfl
    · exact hcs

/-! ## Letters of either case -/

theorem hyphenate_map {f : Char → Char} (hf : f '-' = '-') (ds : List Char) :
    hyphenate (ds.map f) = (hyphenate ds).map f := by
  simp only [hyphenate, List.map_append, List.map_cons, List.map_take, List.map_drop, hf]

theorem length_hyphenate {ds : List Char} (h : ds.length = 32) : (hyphenate ds).length = 36 := by
  simp only [hyphenate, List.length_append, List.length_cons, List.length_take, List.length_drop]
  omega

theorem filter_hyphenate {ds : List Char} (h : '-' ∉ ds) :
    (hyphenate ds).filter (· != '-') = ds := by
  have hkeep {cs : List Char} (hcs : ∀ c ∈ cs, c ∈ ds) : cs.filter (· != '-') = cs := by
    rw [List.filter_eq_self]
    intro c hc
    simp only [bne_iff_ne]
    rintro rfl
    exact h (hcs _ hc)
  have hjoin (i : Nat) : (ds.drop i).take 4 ++ ds.drop (i + 4) = ds.drop i := by
    rw [← List.drop_drop, List.take_append_drop]
  simp only [hyphenate, List.filter_append, List.filter_cons, bne_self_eq_false, Bool.false_eq_true,
    if_false, hkeep fun _ => List.mem_of_mem_take, hkeep fun _ => List.mem_of_mem_drop,
    hkeep fun _ hc => List.mem_of_mem_drop (List.mem_of_mem_take hc), List.append_assoc]
  rw [hjoin 16, hjoin 12, hjoin 8, List.take_append_drop]

/-- Two texts are the same if their digits are, and they have their hyphens at the same places. -/
theorem eq_of_filter_eq {cs ds : List Char} (hlower : cs.map Char.toLower = ds.map Char.toLower)
    (hdigits : cs.filter (· != '-') = ds.filter (· != '-')) : cs = ds := by
  induction cs generalizing ds with
  | nil => exact (List.map_eq_nil_iff.1 hlower.symm).symm
  | cons c cs ih =>
      obtain ⟨d, ds, rfl, hd, hds⟩ := List.map_eq_cons_iff.1 hlower.symm
      have hiff : c = '-' ↔ d = '-' := by
        rw [← Text.toLower_eq_iff (.inr rfl) c, ← Text.toLower_eq_iff (.inr rfl) d, hd]
      by_cases hc : c = '-'
      · obtain rfl := hc
        obtain rfl := hiff.1 rfl
        rw [ih hds.symm hdigits]
      · have hd' : d ≠ '-' := mt hiff.2 hc
        rw [List.filter_cons_of_pos (by simpa using hc),
          List.filter_cons_of_pos (by simpa using hd')] at hdigits
        obtain ⟨rfl, hrest⟩ := List.cons.inj hdigits
        rw [ih hds.symm hrest]

theorem not_mem_filter_hyphen (cs : List Char) : '-' ∉ cs.filter (· != '-') := by simp

theorem filter_map_toLower (cs : List Char) :
    (cs.map Char.toLower).filter (· != '-') = (cs.filter (· != '-')).map Char.toLower := by
  rw [List.filter_map]
  congr 2
  funext c
  rw [Function.comp_apply, Bool.eq_iff_iff, bne_iff_ne, bne_iff_ne, Ne,
    Text.toLower_eq_iff (.inr rfl)]

theorem readUuid?_map_toLower (isHyphenated : Bool) (cs : List Char) :
    readUuid? isHyphenated (cs.map Char.toLower) = readUuid? isHyphenated cs := by
  have hlower : '-'.toLower = '-' := by decide
  -- The hyphens stand at their places in either case: lowering is injective once the digits agree.
  have hplaces : (hyphenate ((cs.filter (· != '-')).map Char.toLower) == cs.map Char.toLower) =
      (hyphenate (cs.filter (· != '-')) == cs) := by
    rw [hyphenate_map hlower, Bool.eq_iff_iff, beq_iff_eq, beq_iff_eq]
    refine ⟨fun h => eq_of_filter_eq h ?_, congrArg _⟩
    exact filter_hyphenate (not_mem_filter_hyphen cs)
  cases isHyphenated with
  | false => simp [readUuid?, Text.readHex?_map_toLower]
  | true =>
      simp only [readUuid?, if_true, filter_map_toLower, hplaces, List.length_map,
        Text.readHex?_map_toLower]

theorem readTimestampForm?_map_toLower (isHyphenated : Bool) (cs : List Char) :
    readTimestampForm? isHyphenated (cs.map Char.toLower) =
      readTimestampForm? isHyphenated cs := by
  rw [readTimestampForm?, readTimestampForm?, ← List.map_take, ← List.map_drop,
    Text.readHex32?_map_toLower, Text.readHex32?_map_toLower]

theorem appendixText?_of_head (isHyphenated : Bool) {cs : List Char} (h : cs.head? ≠ some '-') :
    appendixText? isHyphenated cs = if isHyphenated then none else some cs := by
  unfold appendixText?
  split
  · exact absurd rfl h
  · rfl

theorem appendixText?_map_toLower (isHyphenated : Bool) (cs : List Char) :
    appendixText? isHyphenated (cs.map Char.toLower) =
      (appendixText? isHyphenated cs).map (·.map Char.toLower) := by
  by_cases hhyphen : cs.head? = some '-'
  · obtain ⟨cs, rfl⟩ := List.head?_eq_some_iff.1 hhyphen
    rw [List.map_cons, (Text.toLower_eq_iff (.inr rfl) '-').2 rfl, appendixText?, appendixText?]
    cases isHyphenated <;> rfl
  · have hlower : (cs.map Char.toLower).head? ≠ some '-' := by
      rwa [List.head?_map, Ne, Text.map_toLower_eq_some_iff (.inr rfl)]
    rw [appendixText?_of_head _ hhyphen, appendixText?_of_head _ hlower]
    cases isHyphenated <;> rfl

theorem readUuidForm?_map_toLower (r : Reading) (isHyphenated : Bool) (cs : List Char) :
    readUuidForm? r isHyphenated (cs.map Char.toLower) = readUuidForm? r isHyphenated cs := by
  have hcut (tail : List Char) : readHex32? (if r.cutsTail then (tail.take 8).map Char.toLower
      else tail.map Char.toLower) = readHex32? (if r.cutsTail then tail.take 8 else tail) := by
    split
    · exact Text.readHex32?_map_toLower _
    · exact Text.readHex32?_map_toLower _
  simp only [readUuidForm?, ← List.map_take, ← List.map_drop, List.length_map,
    readUuid?_map_toLower, appendixText?_map_toLower, Option.bind_map, Function.comp_def, hcut]

/-- The case of letters does not matter. -/
theorem readChars?_map_toLower (r : Reading) (cs : List Char) :
    readChars? r (cs.map Char.toLower) = readChars? r cs := by
  have hbeyond : (cs.map Char.toLower).any (·.toNat ≥ 128) = cs.any (·.toNat ≥ 128) := by
    rw [List.any_map]
    congr 1
    funext c
    exact decide_eq_decide.2 (Text.le_toNat_toLower c)
  have hhyphen : ((cs.map Char.toLower)[8]? == some '-') = (cs[8]? == some '-') := by
    rw [Bool.eq_iff_iff, beq_iff_eq, beq_iff_eq, List.getElem?_map,
      Text.map_toLower_eq_some_iff (.inr rfl)]
  simp only [readChars?_eq, hbeyond, hhyphen, List.length_map, readTimestampForm?_map_toLower,
    readUuidForm?_map_toLower]

/-! ## Spellings that are read -/

section Spellings

variable {r : Reading} {front tail cs : List Char}

theorem any_ascii (h : ∀ c ∈ cs, c.toNat < 128) : cs.any (·.toNat ≥ 128) = false := by
  rw [List.any_eq_false]
  intro c hc
  simpa using h c hc

/-- A text of digits is read as the compact spelling. -/
theorem readChars?_of_isHex (h : IsHex cs) : readChars? r cs =
    if hasTimestampLength false cs.length then readTimestampForm? false cs
    else readUuidForm? r false cs := by
  have hhyphen : (cs[8]? == some '-') = false := by
    rw [beq_eq_false_iff_ne]
    intro hminus
    exact (Text.ne_sign_of_isHexDigit (h '-' (List.mem_of_getElem? hminus))).2 rfl
  rw [readChars?_eq, hhyphen, any_ascii h.ascii]
  rfl

/-- A text with a hyphen behind eight characters is read as the hyphenated spelling. -/
theorem readChars?_of_hyphen (hfront : front.length = 8)
    (h : ∀ c ∈ front ++ '-' :: tail, c.toNat < 128) :
    readChars? r (front ++ '-' :: tail) =
      if r.hyphens then
        if hasTimestampLength true (front ++ '-' :: tail).length then
          readTimestampForm? true (front ++ '-' :: tail)
        else readUuidForm? r true (front ++ '-' :: tail)
      else none := by
  have hhyphen : ((front ++ '-' :: tail)[8]? == some '-') = true := by
    rw [List.getElem?_append_right (Nat.le_of_eq hfront), hfront]
    rfl
  rw [readChars?_eq, hhyphen, any_ascii h]
  cases r.hyphens <;> rfl

/-- The case of the letters in front does not matter. -/
theorem readChars?_map_toUpper_append :
    readChars? r (front.map Char.toUpper ++ tail) = readChars? r (front ++ tail) := by
  rw [← readChars?_map_toLower r (front ++ tail), ← readChars?_map_toLower, List.map_append,
    List.map_append, Text.map_toLower_map_toUpper]

end Spellings

variable (r : Reading) (uuid : BitVec 128) (timestamp appendix : UInt32)

/-- How many digits an appendix has. -/
theorem length_appendix :
    0 < (digits 16 appendix.toNat).length ∧ (digits 16 appendix.toNat).length ≤ 8 :=
  ⟨Nat.length_toDigits_pos, Text.length_hexDigits_le (by decide) appendix.toNat_lt⟩

theorem length_uuidDigits (id : DebugId) : id.uuidDigits.length = 32 :=
  Text.length_padZeros (by decide) id.uuid.isLt

theorem isHex_uuidDigits (id : DebugId) : IsHex id.uuidDigits := Text.isHex_padZeros _ _

theorem readUuid?_uuidDigits (id : DebugId) : readUuid? false id.uuidDigits = some id.uuid := by
  have hread : readHex? id.uuidDigits = some id.uuid.toNat := Text.readHex?_padZeros _ _
  simp [readUuid?, length_uuidDigits, hread]

theorem readUuid?_hyphenate (id : DebugId) :
    readUuid? true (hyphenate id.uuidDigits) = some id.uuid := by
  have hminus : '-' ∉ id.uuidDigits := fun hmem =>
    (Text.ne_sign_of_isHexDigit (isHex_uuidDigits id '-' hmem)).2 rfl
  have hread : readHex? id.uuidDigits = some id.uuid.toNat := Text.readHex?_padZeros _ _
  simp [readUuid?, filter_hyphenate hminus, length_uuidDigits, hread]

theorem readHex32?_appendix (cuts : Bool) :
    readHex32? (if cuts then (digits 16 appendix.toNat).take 8 else digits 16 appendix.toNat) =
      some appendix := by
  rw [List.take_of_length_le (length_appendix appendix).2, ite_self, Text.readHex32?_digits]

theorem readUuidForm?_compact (id : DebugId) :
    readUuidForm? r false (id.uuidDigits ++ digits 16 appendix.toNat) =
      some ⟨id.uuid, appendix, .uuid⟩ := by
  have hlong : (id.uuidDigits ++ digits 16 appendix.toNat).length ≠ 32 := by
    have hpos := (length_appendix appendix).1
    rw [List.length_append, length_uuidDigits]
    omega
  have htext : appendixText? false (digits 16 appendix.toNat) = some (digits 16 appendix.toNat) :=
    appendixText?_of_head _ ((Text.isHex_digits _).head?_ne (.inr rfl))
  simp only [readUuidForm?, Bool.false_eq_true, if_false, List.take_left' (length_uuidDigits id),
    List.drop_left' (length_uuidDigits id), readUuid?_uuidDigits, hlong, htext, decide_false,
    Bool.false_and, Option.bind_some, readHex32?_appendix]

theorem readUuidForm?_hyphenate_append (id : DebugId) :
    readUuidForm? r true (hyphenate id.uuidDigits ++ '-' :: digits 16 appendix.toNat) =
      some ⟨id.uuid, appendix, .uuid⟩ := by
  have hwidth := length_hyphenate (length_uuidDigits id)
  have hlong : (hyphenate id.uuidDigits ++ '-' :: digits 16 appendix.toNat).length ≠ 36 := by
    rw [List.length_append, hwidth, List.length_cons]
    omega
  have htext : appendixText? true ('-' :: digits 16 appendix.toNat) =
      some (digits 16 appendix.toNat) := rfl
  simp only [readUuidForm?, if_true, List.take_left' hwidth, List.drop_left' hwidth,
    readUuid?_hyphenate, hlong, htext, decide_false, Bool.false_and, Bool.false_eq_true, if_false,
    Option.bind_some, readHex32?_appendix]

theorem readUuidForm?_hyphenate (id : DebugId) (hr : r.needsAppendix = false) :
    readUuidForm? r true (hyphenate id.uuidDigits) = some ⟨id.uuid, 0, .uuid⟩ := by
  have hwidth := length_hyphenate (length_uuidDigits id)
  simp only [readUuidForm?, if_true, List.take_of_length_le (Nat.le_of_eq hwidth),
    readUuid?_hyphenate, hwidth, hr, decide_true, Bool.not_false, Bool.and_self, Option.bind_some]

theorem readTimestampForm?_eq {isHyphenated : Bool} {front tail : List Char}
    (hfront : front.length = 8) :
    readTimestampForm? isHyphenated (front ++ tail) =
      (readHex32? front).bind fun timestamp =>
        (readHex32? (tail.drop (if isHyphenated then 1 else 0))).bind fun appendix =>
          some (ofTimestamp timestamp appendix) := by
  have hdrop (n : Nat) : (front ++ tail).drop (8 + n) = tail.drop n := by
    rw [← List.drop_drop, List.drop_left' hfront]
  rw [readTimestampForm?, List.take_left' hfront]
  cases isHyphenated with
  | false => simp only [Bool.false_eq_true, if_false, hdrop 0]
  | true => simp only [if_true, hdrop 1]

theorem readChars?_compact_uuid :
    readChars? r (compact ⟨uuid, appendix, .uuid⟩) = some ⟨uuid, appendix, .uuid⟩ := by
  let id : DebugId := ⟨uuid, appendix, .uuid⟩
  have hhex : IsHex (id.uuidDigits ++ digits 16 appendix.toNat) :=
    (isHex_uuidDigits id).append (Text.isHex_digits _)
  have hlong : hasTimestampLength false (id.uuidDigits ++ digits 16 appendix.toNat).length =
      false := by
    rw [List.length_append, length_uuidDigits, hasTimestampLength]
    simp
    omega
  rw [compact]
  dsimp only
  rw [readChars?_map_toUpper_append, readChars?_of_isHex hhex, hlong]
  exact readUuidForm?_compact r appendix id

theorem isHex_timestampDigits (id : DebugId) : IsHex id.timestampDigits :=
  (Text.isHex_padZeros _ _).map_toUpper

theorem length_timestampDigits :
    (ofTimestamp timestamp appendix).timestampDigits.length = 8 := by
  rw [timestampDigits, timestamp_ofTimestamp, List.length_map]
  exact Text.length_padZeros (by decide) timestamp.toNat_lt

theorem readHex32?_timestampDigits :
    readHex32? (ofTimestamp timestamp appendix).timestampDigits = some timestamp := by
  rw [timestampDigits, timestamp_ofTimestamp, Text.readHex32?_map_toUpper,
    Text.readHex32?_padZeros]

theorem readChars?_compact_timestamp :
    readChars? r (compact (ofTimestamp timestamp appendix)) =
      some (ofTimestamp timestamp appendix) := by
  have hform : (ofTimestamp timestamp appendix).form = .pdb20 := rfl
  have happendix : (ofTimestamp timestamp appendix).appendix = appendix := rfl
  have hwidth := length_timestampDigits timestamp appendix
  have hhex := (isHex_timestampDigits (ofTimestamp timestamp appendix)).append
    (Text.isHex_digits appendix.toNat)
  have hshort : hasTimestampLength false ((ofTimestamp timestamp appendix).timestampDigits ++
      digits 16 appendix.toNat).length = true := by
    have hlength := length_appendix appendix
    rw [List.length_append, hwidth, hasTimestampLength]
    simp
    omega
  rw [compact, hform, happendix]
  dsimp only
  rw [readChars?_of_isHex hhex, hshort, if_pos rfl, readTimestampForm?_eq hwidth,
    readHex32?_timestampDigits]
  simp only [Option.bind_some, Bool.false_eq_true, if_false, List.drop_zero,
    Text.readHex32?_digits]

/-- The compact spelling is read as the identifier by all readers. -/
theorem readChars?_compact {id : DebugId} (h : id.Spellable) (r : Reading) :
    readChars? r id.compact = some id := by
  cases h with
  | uuid uuid appendix => exact readChars?_compact_uuid r uuid appendix
  | timestamp timestamp appendix => exact readChars?_compact_timestamp r timestamp appendix

/-! ## The hyphenated spelling -/

/-- Whether the hyphenated spelling of an identifier is too short to be read: that of a timestamp
without appendix is. -/
def TooShort (id : DebugId) : Prop := id.form = .pdb20 ∧ id.appendix = 0

instance (id : DebugId) : Decidable id.TooShort := inferInstanceAs (Decidable (_ ∧ _))

theorem mem_hyphenate {ds : List Char} {c : Char} (h : c ∈ hyphenate ds) : c ∈ ds ∨ c = '-' := by
  simp only [hyphenate, List.mem_append, List.mem_cons] at h
  rcases h with (((h | h | h) | h | h) | h | h) | h | h
  · exact .inl (List.mem_of_mem_take h)
  · exact .inr h
  · exact .inl (List.mem_of_mem_drop (List.mem_of_mem_take h))
  · exact .inr h
  · exact .inl (List.mem_of_mem_drop (List.mem_of_mem_take h))
  · exact .inr h
  · exact .inl (List.mem_of_mem_drop (List.mem_of_mem_take h))
  · exact .inr h
  · exact .inl (List.mem_of_mem_drop h)

theorem isHex_compact (id : DebugId) : IsHex id.compact := by
  rw [compact]
  refine Text.IsHex.append ?_ (Text.isHex_digits _)
  split
  · exact isHex_timestampDigits id
  · exact (isHex_uuidDigits id).map_toUpper

theorem isHexDigit_or_hyphen {id : DebugId} {c : Char} (h : c ∈ id.hyphenated) :
    Text.isHexDigit c = true ∨ c = '-' := by
  rw [hyphenated] at h
  rcases List.mem_append.1 h with h | h
  · split at h
    · exact .inl (isHex_timestampDigits id c h)
    · exact (mem_hyphenate h).imp_left (isHex_uuidDigits id c)
  · split at h
    · cases h
    · exact (List.mem_cons.1 h).symm.imp_left (Text.isHex_digits _ c)

theorem hyphenated_ascii (id : DebugId) : ∀ c ∈ id.hyphenated, c.toNat < 128 := by
  intro c hc
  rcases isHexDigit_or_hyphen hc with hdigit | rfl
  · exact Text.toNat_lt_of_isHexDigit hdigit
  · decide

theorem hyphenate_eq_append {ds : List Char} (h : ds.length = 32) :
    ∃ front tail, hyphenate ds = front ++ '-' :: tail ∧ front.length = 8 := by
  refine ⟨ds.take 8, (ds.drop 8).take 4 ++ '-' :: (ds.drop 12).take 4 ++
    '-' :: (ds.drop 16).take 4 ++ '-' :: ds.drop 20, ?_, ?_⟩
  · simp [hyphenate]
  · rw [List.length_take, h]
    rfl

/-- A hyphen stands behind the first eight characters, unless the spelling is too short. -/
theorem exists_hyphen {id : DebugId} (h : id.Spellable) (hlong : ¬ id.TooShort) :
    ∃ front tail, id.hyphenated = front ++ '-' :: tail ∧ front.length = 8 := by
  cases h with
  | uuid uuid appendix =>
      obtain ⟨front, tail, hdigits, hfront⟩ :=
        hyphenate_eq_append (length_uuidDigits ⟨uuid, appendix, .uuid⟩)
      rw [hyphenated, hdigits, List.append_assoc, List.cons_append]
      exact ⟨front, _, rfl, hfront⟩
  | timestamp timestamp appendix =>
      have hne : (ofTimestamp timestamp appendix).appendix ≠ 0 := fun h => hlong ⟨rfl, h⟩
      rw [hyphenated, if_neg hne]
      exact ⟨_, _, rfl, length_timestampDigits timestamp appendix⟩

theorem hyphenated_of_tooShort {id : DebugId} (h : id.TooShort) :
    id.hyphenated = id.timestampDigits := by
  rw [hyphenated, h.1, if_pos h.2, List.append_nil]

/-- A spelling that is too short is refused by all readers. -/
theorem readChars?_of_tooShort {id : DebugId} (h : id.Spellable) (hshort : id.TooShort)
    (r : Reading) : readChars? r id.hyphenated = none := by
  cases h with
  | uuid uuid appendix => cases hshort.1
  | timestamp timestamp appendix =>
      have hwidth := length_timestampDigits timestamp appendix
      rw [hyphenated_of_tooShort hshort, readChars?_of_isHex (isHex_timestampDigits _), hwidth]
      simp [hasTimestampLength, readUuidForm?, readUuid?, hwidth]

/-- A reader of compact spellings refuses the hyphenated one. -/
theorem readChars?_hyphenated_compactOnly {id : DebugId} (h : id.Spellable) :
    readChars? .compactOnly id.hyphenated = none := by
  by_cases hshort : id.TooShort
  · exact readChars?_of_tooShort h hshort _
  · obtain ⟨front, tail, heq, hfront⟩ := exists_hyphen h hshort
    have hascii := hyphenated_ascii id
    rw [heq] at hascii ⊢
    rw [readChars?_of_hyphen hfront hascii]
    rfl

/-- A hyphenated text as long as a UUID is read as one. -/
theorem readChars?_either_of_hyphen {cs front tail : List Char} (hcs : cs = front ++ '-' :: tail)
    (hfront : front.length = 8) (hascii : ∀ c ∈ cs, c.toNat < 128) (hlong : 36 ≤ cs.length) :
    readChars? .either cs = readUuidForm? .either true cs := by
  have hnot : hasTimestampLength true cs.length = false := by
    rw [hasTimestampLength]
    simp
    omega
  subst hcs
  rw [readChars?_of_hyphen hfront hascii, hnot]
  rfl

theorem readChars?_hyphenated_uuid :
    readChars? .either (hyphenated ⟨uuid, appendix, .uuid⟩) = some ⟨uuid, appendix, .uuid⟩ := by
  let id : DebugId := ⟨uuid, appendix, .uuid⟩
  have hspellable : id.Spellable := .uuid uuid appendix
  have hlong : ¬ id.TooShort := fun hshort => by cases hshort.1
  obtain ⟨front, tail, heq, hfront⟩ := exists_hyphen hspellable hlong
  have hwidth := length_hyphenate (length_uuidDigits id)
  have hlength : 36 ≤ id.hyphenated.length := by
    rw [hyphenated, List.length_append]
    dsimp only [id]
    rw [hwidth]
    exact Nat.le_add_right _ _
  rw [readChars?_either_of_hyphen heq hfront (hyphenated_ascii id) hlength, hyphenated]
  by_cases hzero : appendix = 0
  · rw [if_pos hzero, List.append_nil, hzero]
    exact readUuidForm?_hyphenate .either id rfl
  · rw [if_neg hzero]
    exact readUuidForm?_hyphenate_append .either appendix id

theorem readChars?_hyphenated_timestamp (hne : appendix ≠ 0) :
    readChars? .either (hyphenated (ofTimestamp timestamp appendix)) =
      some (ofTimestamp timestamp appendix) := by
  have hform : (ofTimestamp timestamp appendix).form = .pdb20 := rfl
  have happendix : (ofTimestamp timestamp appendix).appendix = appendix := rfl
  have hwidth := length_timestampDigits timestamp appendix
  have hascii := hyphenated_ascii (ofTimestamp timestamp appendix)
  rw [hyphenated, hform, happendix, if_neg hne] at hascii ⊢
  have hlength : hasTimestampLength true ((ofTimestamp timestamp appendix).timestampDigits ++
      '-' :: digits 16 appendix.toNat).length = true := by
    have hdigits := length_appendix appendix
    rw [List.length_append, hwidth, List.length_cons, hasTimestampLength]
    simp
    omega
  rw [readChars?_of_hyphen hwidth hascii, hlength, readTimestampForm?_eq hwidth,
    readHex32?_timestampDigits]
  simp [Reading.either, Text.readHex32?_digits]

/-- A reader of both spellings reads the hyphenated one exactly if it is not too short. -/
theorem readChars?_hyphenated {id : DebugId} (h : id.Spellable) :
    readChars? .either id.hyphenated = if id.TooShort then none else some id := by
  by_cases hshort : id.TooShort
  · rw [if_pos hshort, readChars?_of_tooShort h hshort]
  · rw [if_neg hshort]
    cases h with
    | uuid uuid appendix => exact readChars?_hyphenated_uuid uuid appendix
    | timestamp timestamp appendix =>
        exact readChars?_hyphenated_timestamp timestamp appendix fun h => hshort ⟨rfl, h⟩

/-! ## What is read -/

theorem spellable_of_readUuidForm? {r : Reading} {isHyphenated : Bool} {cs : List Char}
    {id : DebugId} (h : readUuidForm? r isHyphenated cs = some id) : id.Spellable := by
  rw [readUuidForm?] at h
  generalize (if isHyphenated then 36 else 32) = width at h
  obtain ⟨uuid, -, h⟩ := Option.bind_eq_some_iff.1 h
  split at h
  · obtain rfl := Option.some.inj h
    exact .uuid uuid 0
  · obtain ⟨tail, -, h⟩ := Option.bind_eq_some_iff.1 h
    obtain ⟨appendix, -, h⟩ := Option.bind_eq_some_iff.1 h
    obtain rfl := Option.some.inj h
    exact .uuid uuid appendix

/-- What is read has a spelling. -/
theorem spellable_of_readChars? {r : Reading} {cs : List Char} {id : DebugId}
    (h : readChars? r cs = some id) : id.Spellable := by
  rw [readChars?_eq] at h
  dsimp only at h
  split at h
  · cases h
  · split at h
    · obtain ⟨timestamp, -, h⟩ := Option.bind_eq_some_iff.1 h
      obtain ⟨appendix, -, h⟩ := Option.bind_eq_some_iff.1 h
      obtain rfl := Option.some.inj h
      exact .timestamp timestamp appendix
    · exact spellable_of_readUuidForm? h

end Postmortem.DebugId
