import OpendalIndexeddb.Common.Lexicographic
import OpendalIndexeddb.Model.Connection
/-!
# The range of a prefix is exact

`prefix_upper_bound` increments the last byte of the UTF-8 encoding and
keeps the result when it is a string. The end it finds is the end in
both orders, that of the store and that of Rust strings, so that a range
up to it holds the keys under the prefix and no others.
-/

namespace OpendalIndexeddb

variable {p q k u : Str} {c d : Char}

/-! ## Prefixes in either order -/

theorem unitRank_prefix_iff : unitRank p <+: unitRank k ↔ p <+: k :=
  List.prefix_map_iff_of_injective utf16Rank_injective

theorem pointRank_prefix_iff : pointRank p <+: pointRank k ↔ p <+: k :=
  List.prefix_map_iff_of_injective charToNat_injective

theorem unitRank_le_of_isPrefix (h : p <+: k) : unitRank p ≤ unitRank k :=
  Lexicographic.le_of_isPrefix (unitRank_prefix_iff.2 h)

theorem pointRank_le_of_isPrefix (h : p <+: k) : pointRank p ≤ pointRank k :=
  Lexicographic.le_of_isPrefix (pointRank_prefix_iff.2 h)

/-! ## The end of the range -/

@[simp] theorem prefixUpperBound_nil : prefixUpperBound [] = none := rfl

/-- **Only the last scalar value is looked at**: its last byte is never
`0xFF`, so the loop stops there. -/
theorem prefixUpperBound_snoc (p : Str) (c : Char) :
    prefixUpperBound (p ++ [c]) = (nextScalar c).map (p ++ [·]) := by
  have hrev : (utf8 (p ++ [c])).reverse = lastByte c :: (utf8 p ++ leadBytes c).reverse := by
    simp [utf8EncodeChar_eq]
  rw [prefixUpperBound, hrev, upperBoundOfReversed, if_pos (lastByte_ne c),
    List.reverse_cons, List.reverse_reverse, fromUtf8_bump]

/-- What an end looks like, where there is one. -/
theorem prefixUpperBound_eq_some (h : prefixUpperBound p = some u) :
    ∃ q c d, p = q ++ [c] ∧ u = q ++ [d] ∧ nextScalar c = some d := by
  rcases List.eq_nil_or_concat' p with rfl | ⟨q, c, rfl⟩
  · simp at h
  · rw [prefixUpperBound_snoc] at h
    obtain ⟨d, hd, rfl⟩ := Option.map_eq_some_iff.1 h
    exact ⟨q, c, d, rfl, rfl, hd⟩

/-- There is no end for the empty prefix and where the last byte cannot
be incremented. -/
theorem prefixUpperBound_eq_none_iff : prefixUpperBound p = none ↔
    p = [] ∨ (utf8 p).getLast? = some 0x7F ∨ (utf8 p).getLast? = some 0xBF := by
  rcases List.eq_nil_or_concat' p with rfl | ⟨q, c, rfl⟩
  · simp
  · rw [prefixUpperBound_snoc, Option.map_eq_none_iff, nextScalar_eq_none_iff,
      getLast?_utf8_concat]
    simp

/-- An end is the prefix with its last byte incremented. -/
theorem exists_bytes_of_prefixUpperBound (h : prefixUpperBound p = some u) :
    ∃ bytes b, utf8 p = bytes ++ [b] ∧ fromUtf8 (bytes ++ [b + 1]) = some u := by
  obtain ⟨q, c, d, rfl, rfl, hd⟩ := prefixUpperBound_eq_some h
  refine ⟨utf8 q ++ leadBytes c, lastByte c, ?_, ?_⟩
  · simp [utf8EncodeChar_eq]
  · rw [fromUtf8_bump, hd, Option.map_some]

/-- A directory path has an end: `/` becomes `0`. -/
theorem prefixUpperBound_of_slash (h : p.getLast? = some '/') :
    prefixUpperBound p = some (p.dropLast ++ ['0']) := by
  obtain ⟨q, rfl⟩ := List.getLast?_eq_some_iff.1 h
  rw [prefixUpperBound_snoc, List.dropLast_concat]
  rfl

/-- **The range in the store's order.** -/
theorem prefix_iff_unitRank (h : prefixUpperBound p = some u) :
    p <+: k ↔ unitRank p ≤ unitRank k ∧ unitRank k < unitRank u := by
  obtain ⟨q, c, d, rfl, rfl, hd⟩ := prefixUpperBound_eq_some h
  exact Lexicographic.isPrefix_iff_of_succ utf16Rank_injective (utf16Rank_of_nextScalar hd)

/-- **The range in the order of Rust strings.** -/
theorem prefix_iff_pointRank (h : prefixUpperBound p = some u) :
    p <+: k ↔ pointRank p ≤ pointRank k ∧ pointRank k < pointRank u := by
  obtain ⟨q, c, d, rfl, rfl, hd⟩ := prefixUpperBound_eq_some h
  exact Lexicographic.isPrefix_iff_of_succ charToNat_injective (toNat_of_nextScalar hd)

/-- **`prefix_upper_bound` is an exact range end in both orders.** It
gives up on the empty prefix and on a last byte `0x7F` or `0xBF` alone;
what it returns otherwise is a string, and the strings from the prefix
up to it are those that begin with the prefix, by UTF-16 code units as
the store compares them and by UTF-8 bytes as Rust does. -/
theorem prefixUpperBound_exact (p : Str) :
    (prefixUpperBound p = none ↔
      p = [] ∨ (utf8 p).getLast? = some 0x7F ∨ (utf8 p).getLast? = some 0xBF) ∧
    ∀ u, prefixUpperBound p = some u →
      (∃ bytes b, utf8 p = bytes ++ [b] ∧ fromUtf8 (bytes ++ [b + 1]) = some u) ∧
      ∀ s : Str,
        ((utf16 p ≤ utf16 s ∧ utf16 s < utf16 u) ↔ p <+: s) ∧
        ((utf8 p ≤ utf8 s ∧ utf8 s < utf8 u) ↔ p <+: s) := by
  refine ⟨prefixUpperBound_eq_none_iff, fun u h => ⟨exists_bytes_of_prefixUpperBound h, ?_⟩⟩
  intro s
  constructor
  · rw [utf16_le_iff, utf16_lt_iff]
    exact (prefix_iff_unitRank h).symm
  · rw [utf8_le_iff, utf8_lt_iff]
    exact (prefix_iff_pointRank h).symm

/-- The end of a prefix's range is above everything under the prefix. -/
theorem unitRank_lt_upperBound (h : prefixUpperBound p = some u) (hk : p <+: k) :
    unitRank k < unitRank u := ((prefix_iff_unitRank h).1 hk).2

theorem pointRank_lt_upperBound (h : prefixUpperBound p = some u) (hk : p <+: k) :
    pointRank k < pointRank u := ((prefix_iff_pointRank h).1 hk).2

/-- A deletion range holds the keys under its prefix. -/
theorem textRange_contains_iff (h : prefixUpperBound p = some u) (key : Key) :
    (textRange p u).contains key = true ↔ ∃ k, key = .text k ∧ p <+: k := by
  simp only [textRange, KeyRange.contains, Bound.below, Bound.above, Bool.and_eq_true,
    decide_eq_true_eq]
  cases key with
  | below n => simp [not_le.2 (Key.below_lt_text n p)]
  | text k => simp [prefix_iff_unitRank h]
  | above n => simp [not_lt.2 (le_of_lt (Key.text_lt_above u n))]

/-! ## What a recursive delete removes -/

/-- The keys a recursive delete of a prefix removes: those under it, and
all where it is empty. -/
def underPrefix (p : Str) (key : Key) : Prop :=
  p = [] ∨ ∃ k, key = .text k ∧ p <+: k

/-- The prefixes recursive deletes are made of. -/
def DirPrefix (p : Str) : Prop := p = [] ∨ p.getLast? = some '/'

theorem dirPrefix_recursiveDeleteTarget (path : Str) :
    DirPrefix (recursiveDeleteTarget path).keyPrefix := by
  rw [recursiveDeleteTarget]
  split_ifs with h1 h2
  · exact Or.inl rfl
  · exact Or.inr h2
  · exact Or.inr (by simp)

/-- **`delete_prefix` removes what is under the prefix from both stores,
and nothing else.** -/
theorem get_deletePrefix {s : Stores} (hp : DirPrefix p) (key : Key) :
    (underPrefix p key → (deletePrefix s p).store.get key = none ∧
      (deletePrefix s p).metaStore.get key = none) ∧
    (¬ underPrefix p key → (deletePrefix s p).store.get key = s.store.get key ∧
      (deletePrefix s p).metaStore.get key = s.metaStore.get key) := by
  rw [deletePrefix]
  by_cases hnil : p = []
  · rw [if_pos hnil]
    exact ⟨fun _ => ⟨rfl, rfl⟩, fun h => absurd (Or.inl hnil) h⟩
  · rw [if_neg hnil]
    have hup := prefixUpperBound_of_slash (hp.resolve_left hnil)
    simp only [hup, OrderedStore.get_deleteRange]
    have hiff : underPrefix p key ↔ (textRange p (p.dropLast ++ ['0'])).contains key = true := by
      rw [textRange_contains_iff hup, underPrefix, or_iff_right hnil]
    constructor
    · intro h
      simp [hiff.1 h]
    · intro h
      simp [mt hiff.2 h]

end OpendalIndexeddb
