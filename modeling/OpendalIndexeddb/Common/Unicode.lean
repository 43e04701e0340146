import Mathlib.Logic.Function.Basic
import OpendalIndexeddb.Common.Lexicographic
/-!
# The two string orders of Unicode

A string is its list of scalar values. `utf8` and `utf16` are its two
encodings; comparing strings by the bytes of the first is comparing them
by code point, comparing them by the units of the second is not: the
surrogate pairs of the supplementary planes sort below U+E000–U+FFFF.
`utf16Rank` orders the scalar values as their UTF-16 units are ordered,
so that the code-unit order of strings is again the lexicographic order
of lists, over another order of the letters (`utf16_lt_iff`,
`utf8_lt_iff`). `fromUtf8_bump` says what incrementing the last byte of
an encoding gives.
-/

namespace OpendalIndexeddb

/-- A string of Unicode scalar values. -/
abbrev Str := List Char

/-- The UTF-8 bytes of a string. -/
def utf8 (s : Str) : List UInt8 := s.flatMap String.utf8EncodeChar

/-- `String::from_utf8(bytes).ok()`: the string the bytes encode, when
they are well-formed UTF-8. -/
def fromUtf8 (bytes : List UInt8) : Option Str :=
  bytes.toByteArray.utf8Decode?.map Array.toList

/-- The UTF-16 code units of a scalar value. -/
def utf16Char (c : Char) : List ℕ :=
  if c.toNat < 0x10000 then [c.toNat]
  else [0xD800 + (c.toNat - 0x10000) / 0x400, 0xDC00 + (c.toNat - 0x10000) % 0x400]

/-- The UTF-16 code units of a string. -/
def utf16 (s : Str) : List ℕ := s.flatMap utf16Char

/-- A scalar value's place in the code-unit order: the supplementary
planes are moved to where their high surrogates are, below U+E000. -/
def utf16Rank (c : Char) : ℕ :=
  if c.toNat < 0xE000 then c.toNat
  else if c.toNat < 0x10000 then c.toNat + 0x100000
  else c.toNat - 0x10000 + 0xD800

/-- A string's place in the code-unit order. -/
def unitRank (s : Str) : List ℕ := s.map utf16Rank

/-- A string's place in the code-point order. -/
def pointRank (s : Str) : List ℕ := s.map Char.toNat

/-- `<` of Rust's `str`: by UTF-8 bytes, which is by code point. -/
abbrev strLt (s t : Str) : Prop := pointRank s < pointRank t

/-- `<=` of Rust's `str`. -/
abbrev strLe (s t : Str) : Prop := pointRank s ≤ pointRank t

variable {c d : Char} {s t p : Str}

/-- A scalar value is no surrogate and at most U+10FFFF. -/
theorem toNat_valid (c : Char) :
    c.toNat < 0xD800 ∨ (0xDFFF < c.toNat ∧ c.toNat < 0x110000) := c.valid

theorem charToNat_injective : Function.Injective Char.toNat := fun _ _ h => Char.toNat_inj.1 h

/-! ## The code-unit order -/

theorem utf16Rank_injective : Function.Injective utf16Rank := by
  intro c d h
  have hc := toNat_valid c
  have hd := toNat_valid d
  apply Char.toNat_inj.1
  simp only [utf16Rank] at h
  split_ifs at h <;> omega

/-- Where two scalar values differ, the units after them do not matter. -/
theorem utf16Char_append_lt_iff (hne : c ≠ d) (u v : List ℕ) :
    utf16Char c ++ u < utf16Char d ++ v ↔ utf16Rank c < utf16Rank d := by
  have hc := toNat_valid c
  have hd := toNat_valid d
  have hne' : c.toNat ≠ d.toNat := fun h => hne (Char.toNat_inj.1 h)
  simp only [utf16Char, utf16Rank]
  split_ifs <;> simp only [List.cons_append, List.nil_append, List.cons_lt_cons_iff] <;> omega

theorem utf16Char_ne_nil (c : Char) : utf16Char c ≠ [] := by
  simp only [utf16Char]
  split_ifs <;> simp

theorem orderedCode_utf16Char : Lexicographic.OrderedCode utf16Char utf16Rank where
  rank_injective := utf16Rank_injective
  code_ne_nil := utf16Char_ne_nil
  append_lt_append_iff := utf16Char_append_lt_iff

/-- **The code-unit order is lexicographic over `utf16Rank`.** -/
theorem utf16_lt_iff : utf16 s < utf16 t ↔ unitRank s < unitRank t :=
  orderedCode_utf16Char.flatMap_lt_iff

theorem utf16_le_iff : utf16 s ≤ utf16 t ↔ unitRank s ≤ unitRank t := by
  rw [← not_lt, ← not_lt, utf16_lt_iff]

theorem unitRank_injective : Function.Injective unitRank :=
  List.map_injective_iff.2 utf16Rank_injective

theorem pointRank_injective : Function.Injective pointRank :=
  List.map_injective_iff.2 charToNat_injective

/-- The UTF-16 encoding loses nothing. -/
theorem utf16_injective : Function.Injective utf16 := orderedCode_utf16Char.flatMap_injective

/-- **The two orders agree off the supplementary planes.** -/
theorem unitRank_lt_iff_of_bmp (hs : ∀ c ∈ s, c.toNat < 0x10000)
    (ht : ∀ c ∈ t, c.toNat < 0x10000) : unitRank s < unitRank t ↔ pointRank s < pointRank t := by
  induction s generalizing t with
  | nil => cases t <;> simp [unitRank, pointRank]
  | cons c s ih =>
    cases t with
    | nil => simp [unitRank, pointRank]
    | cons d t =>
      have hc := hs c (by simp)
      have hd := ht d (by simp)
      have ih' := ih (t := t) (fun x hx => hs x (by simp [hx])) (fun x hx => ht x (by simp [hx]))
      have hvc := toNat_valid c
      have hvd := toNat_valid d
      simp only [unitRank, pointRank, List.map_cons, List.cons_lt_cons_iff] at ih' ⊢
      rw [ih']
      have hlt : utf16Rank c < utf16Rank d ↔ c.toNat < d.toNat := by
        simp only [utf16Rank]; split_ifs <;> omega
      have heq : utf16Rank c = utf16Rank d ↔ c.toNat = d.toNat := by
        rw [utf16Rank_injective.eq_iff, Char.toNat_inj]
      rw [hlt, heq]

/-! ## UTF-8 -/

@[simp] theorem utf8_nil : utf8 [] = [] := rfl

@[simp] theorem utf8_cons : utf8 (c :: s) = String.utf8EncodeChar c ++ utf8 s := rfl

@[simp] theorem utf8_append : utf8 (s ++ t) = utf8 s ++ utf8 t := by simp [utf8]

/-- Decoding inverts encoding, and accepts nothing else. -/
theorem fromUtf8_eq_some_iff {bytes : List UInt8} : fromUtf8 bytes = some s ↔ utf8 s = bytes := by
  constructor
  · intro h
    obtain ⟨a, ha, rfl⟩ := Option.map_eq_some_iff.1 h
    have hget : bytes.toByteArray.utf8Decode?.get (by simp [ha]) = a := by simp [ha]
    have henc := ByteArray.utf8Encode_get_utf8Decode? (b := bytes.toByteArray) (h := by simp [ha])
    rw [hget] at henc
    exact List.toByteArray_inj.1 henc
  · rintro rfl
    have h : (utf8 s).toByteArray.utf8Decode? = some s.toArray := List.utf8Decode?_utf8Encode
    simp [fromUtf8, h]

theorem fromUtf8_eq_none_iff {bytes : List UInt8} :
    fromUtf8 bytes = none ↔ ∀ s, utf8 s ≠ bytes := by
  rw [Option.eq_none_iff_forall_ne_some]
  exact forall_congr' fun s => not_congr fromUtf8_eq_some_iff

/-- Bytes that continue an encoding encode a continuation of it. -/
theorem exists_append_of_utf8_eq {w : List UInt8} (h : utf8 s = utf8 p ++ w) :
    ∃ m, s = p ++ m ∧ utf8 m = w := by
  have hp : p <+: s := by
    refine List.isPrefix_of_utf8Encode_append_eq_utf8Encode w.toByteArray ?_
    have := congrArg List.toByteArray h
    simpa [utf8, List.utf8Encode] using this.symm
  obtain ⟨m, rfl⟩ := hp
  exact ⟨m, rfl, by simpa using h⟩

/-- The bytes of a scalar value as numbers. -/
theorem toNat_utf8EncodeChar (c : Char) : (String.utf8EncodeChar c).map UInt8.toNat =
    if c.toNat ≤ 0x7F then [c.toNat]
    else if c.toNat ≤ 0x7FF then [c.toNat / 64 + 0xC0, c.toNat % 64 + 0x80]
    else if c.toNat ≤ 0xFFFF then
      [c.toNat / 4096 + 0xE0, c.toNat / 64 % 64 + 0x80, c.toNat % 64 + 0x80]
    else [c.toNat / 262144 + 0xF0, c.toNat / 4096 % 64 + 0x80, c.toNat / 64 % 64 + 0x80,
      c.toNat % 64 + 0x80] := by
  have hc := toNat_valid c
  simp only [String.utf8EncodeChar, Char.toNat_val]
  split_ifs <;> simp [UInt8.toNat_ofNat'] <;> omega

/-! ## The byte order -/

theorem map_toNat_lt_iff {u v : List UInt8} :
    u.map UInt8.toNat < v.map UInt8.toNat ↔ u < v := by
  induction u generalizing v with
  | nil => cases v <;> simp
  | cons a u ih =>
    cases v with
    | nil => simp
    | cons b v => simp [List.cons_lt_cons_iff, ih, UInt8.lt_iff_toNat_lt, UInt8.toNat_inj]

/-- Where two scalar values differ, the bytes after them do not matter:
the longer encodings begin with the higher bytes, and within a length
the bytes are the digits of the scalar value. -/
theorem utf8EncodeChar_append_lt_iff (hne : c ≠ d) (u v : List UInt8) :
    String.utf8EncodeChar c ++ u < String.utf8EncodeChar d ++ v ↔ c.toNat < d.toNat := by
  have hc := toNat_valid c
  have hd := toNat_valid d
  have hne' : c.toNat ≠ d.toNat := fun h => hne (Char.toNat_inj.1 h)
  rw [← map_toNat_lt_iff, List.map_append, List.map_append, toNat_utf8EncodeChar,
    toNat_utf8EncodeChar]
  split_ifs <;> simp only [List.cons_append, List.nil_append, List.cons_lt_cons_iff] <;> omega

theorem orderedCode_utf8EncodeChar :
    Lexicographic.OrderedCode String.utf8EncodeChar Char.toNat where
  rank_injective := charToNat_injective
  code_ne_nil := fun _ => String.utf8EncodeChar_ne_nil
  append_lt_append_iff := utf8EncodeChar_append_lt_iff

/-- **The byte order is by code point.** -/
theorem utf8_lt_iff : utf8 s < utf8 t ↔ pointRank s < pointRank t :=
  orderedCode_utf8EncodeChar.flatMap_lt_iff

theorem utf8_le_iff : utf8 s ≤ utf8 t ↔ pointRank s ≤ pointRank t := by
  rw [← List.not_lt, ← not_lt, utf8_lt_iff]

/-! ## Incrementing the last byte -/

/-- The scalar value whose encoding is that of `c` with its last byte
incremented: the next one, unless that byte is `0x7F` or `0xBF`. -/
def nextScalar (c : Char) : Option Char :=
  if c.toNat = 0x7F ∨ (0x7F < c.toNat ∧ c.toNat % 64 = 63) then none
  else some (Char.ofNat (c.toNat + 1))

theorem toNat_of_nextScalar (h : nextScalar c = some d) : d.toNat = c.toNat + 1 := by
  have hc := toNat_valid c
  simp only [nextScalar] at h
  split_ifs at h with hcond
  obtain rfl := Option.some_inj.1 h
  have hv : (c.toNat + 1).isValidChar := by
    simp only [Nat.isValidChar]; omega
  rw [Char.ofNat, dif_pos hv]
  rfl

/-- **The next scalar value is next in the code-unit order too.** The
steps at U+D7FF and U+FFFF are among those `nextScalar` refuses. -/
theorem utf16Rank_of_nextScalar (h : nextScalar c = some d) :
    utf16Rank d = utf16Rank c + 1 := by
  have hd := toNat_of_nextScalar h
  have hc := toNat_valid c
  have hvd := toNat_valid d
  simp only [nextScalar] at h
  split_ifs at h with hcond
  simp only [utf16Rank, hd]
  split_ifs <;> omega

/-- The bytes of `c` up to the last. -/
def leadBytes (c : Char) : List UInt8 := (String.utf8EncodeChar c).dropLast

/-- The last byte of `c`. -/
def lastByte (c : Char) : UInt8 :=
  if c.toNat ≤ 0x7F then UInt8.ofNat c.toNat else UInt8.ofNat (c.toNat % 64 + 0x80)

theorem utf8EncodeChar_eq (c : Char) : String.utf8EncodeChar c = leadBytes c ++ [lastByte c] := by
  simp only [leadBytes, lastByte, String.utf8EncodeChar, Char.toNat_val]
  split_ifs <;> simp

theorem lastByte_ne (c : Char) : lastByte c ≠ 255 := by
  intro h
  have h' := congrArg UInt8.toNat h
  simp only [lastByte] at h'
  split_ifs at h' <;> simp [UInt8.toNat_ofNat'] at h' <;> omega

/-- The last byte is `0x7F` or `0xBF` where there is no next scalar
value, and nowhere else. -/
theorem nextScalar_eq_none_iff : nextScalar c = none ↔ lastByte c = 0x7F ∨ lastByte c = 0xBF := by
  have hc := toNat_valid c
  have hcond : nextScalar c = none ↔ c.toNat = 0x7F ∨ (0x7F < c.toNat ∧ c.toNat % 64 = 63) := by
    simp [nextScalar, or_iff_not_imp_left]
  rw [hcond, ← UInt8.toNat_inj, ← UInt8.toNat_inj]
  simp only [lastByte]
  split_ifs <;> simp [UInt8.toNat_ofNat'] <;> omega

/-- The last byte of a string's encoding is that of its last letter. -/
theorem getLast?_utf8_concat (p : Str) (c : Char) :
    (utf8 (p ++ [c])).getLast? = some (lastByte c) := by
  rw [utf8_append, utf8_cons, utf8_nil, List.append_nil, utf8EncodeChar_eq, ← List.append_assoc,
    List.getLast?_concat]

theorem toNat_lastByte_succ (c : Char) : (lastByte c + 1).toNat =
    if c.toNat ≤ 0x7F then c.toNat + 1 else c.toNat % 64 + 0x81 := by
  simp only [lastByte]
  split_ifs <;> simp [UInt8.toNat_ofNat', UInt8.toNat_add] <;> omega

theorem toNat_leadBytes (c : Char) : (leadBytes c).map UInt8.toNat =
    if c.toNat ≤ 0x7F then []
    else if c.toNat ≤ 0x7FF then [c.toNat / 64 + 0xC0]
    else if c.toNat ≤ 0xFFFF then [c.toNat / 4096 + 0xE0, c.toNat / 64 % 64 + 0x80]
    else [c.toNat / 262144 + 0xF0, c.toNat / 4096 % 64 + 0x80, c.toNat / 64 % 64 + 0x80] := by
  rw [leadBytes, List.map_dropLast, toNat_utf8EncodeChar]
  split_ifs <;> rfl

/-- Where the last byte can be incremented, the result is the encoding
of the next scalar value. -/
theorem utf8EncodeChar_of_nextScalar (h : nextScalar c = some d) :
    String.utf8EncodeChar d = leadBytes c ++ [lastByte c + 1] := by
  have hd := toNat_of_nextScalar h
  have hc := toNat_valid c
  simp only [nextScalar] at h
  split_ifs at h with hcond
  apply List.map_injective_iff.2 (fun _ _ hab => UInt8.toNat_inj.1 hab)
  rw [toNat_utf8EncodeChar, List.map_append, toNat_leadBytes, List.map_singleton,
    toNat_lastByte_succ, hd]
  split_ifs <;> simp <;> omega

/-- **Where it cannot, the result is no UTF-8**: a lone continuation
byte after `0x7F`, a byte `0xC0` in a continuation's place after
`0xBF`. -/
theorem utf8_ne_of_nextScalar (h : nextScalar c = none) (m : Str) :
    utf8 m ≠ leadBytes c ++ [lastByte c + 1] := by
  intro hm
  have hc := toNat_valid c
  have hcond : c.toNat = 0x7F ∨ (0x7F < c.toNat ∧ c.toNat % 64 = 63) := by
    by_contra hn
    simp [nextScalar, hn] at h
  cases m with
  | nil => simp at hm
  | cons d m =>
    have hd := toNat_valid d
    have hmap := congrArg (List.map UInt8.toNat) hm
    rw [utf8_cons, List.map_append, List.map_append, toNat_utf8EncodeChar, toNat_leadBytes,
      List.map_singleton, toNat_lastByte_succ] at hmap
    split_ifs at hmap <;> simp at hmap <;> omega

/-- **Incrementing the last byte of an encoding.** -/
theorem fromUtf8_bump (p : Str) (c : Char) :
    fromUtf8 (utf8 p ++ leadBytes c ++ [lastByte c + 1]) = (nextScalar c).map (p ++ [·]) := by
  cases h : nextScalar c with
  | some d =>
    rw [Option.map_some, fromUtf8_eq_some_iff, utf8_append, utf8_cons, utf8_nil,
      List.append_nil, utf8EncodeChar_of_nextScalar h, List.append_assoc]
  | none =>
    rw [Option.map_none, fromUtf8_eq_none_iff]
    intro s hs
    rw [List.append_assoc] at hs
    obtain ⟨m, -, hm⟩ := exists_append_of_utf8_eq hs
    exact utf8_ne_of_nextScalar h m hm

end OpendalIndexeddb
