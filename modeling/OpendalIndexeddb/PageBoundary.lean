import OpendalIndexeddb.Listing
import OpendalIndexeddb.Model.Reference
/-!
# Completeness across pages

A page resumes behind its last key by a comparison of Rust strings, in a
store that is in UTF-16 order. Where the two orders disagree about the
last key of a page and a later key, the later key is lost; where they
agree about each such pair, the listing is complete.
-/

namespace OpendalIndexeddb

open IndexeddbCore

variable (O : Opendal) (P : Platform)

/-- A lister without a resume point. -/
def fullLister (root keyPrefix : Str) (pageSize : ℕ) : IndexeddbLister :=
  .new ⟨root, keyPrefix, none, none, pageSize⟩

/-- What it yields: the keys under the prefix that survive paging. -/
theorem drains_fullLister (s : Stores) (root keyPrefix : Str) {n : ℕ} (hn : 0 < n) :
    Drains (IndexeddbLister.next O P s) (fullLister root keyPrefix n)
      ((paged pointRank n (keysUnder s keyPrefix)).map (keyEntry O P s root)) := by
  have hreach : (fullLister root keyPrefix n).request.SkipReached := by
    intro skip hskip
    cases hskip
  have h := IndexeddbLister.drains_pages (O := O) (P := P) (s := s) hn hreach rfl rfl
  have hkeys := pageKeys_eq_keysUnder s keyPrefix n
  change pageKeys s.store (fullLister root keyPrefix n).request = _ at hkeys
  rwa [hkeys] at h

/-- The lister yields all keys where paging keeps them all. -/
theorem drains_keysUnder_iff (s : Stores) (root keyPrefix : Str) {n : ℕ} (hn : 0 < n) :
    Drains (IndexeddbLister.next O P s) (fullLister root keyPrefix n)
        ((keysUnder s keyPrefix).map (keyEntry O P s root)) ↔
      paged pointRank n (keysUnder s keyPrefix) = keysUnder s keyPrefix := by
  have hdrain := drains_fullLister O P s root keyPrefix hn
  constructor
  · intro h
    have hlen := congrArg List.length (h.unique hdrain)
    rw [List.length_map, List.length_map] at hlen
    exact (paged_sublist n _).eq_of_length hlen.symm
  · intro h
    rwa [h] at hdrain

/-- **A listing is complete exactly where every key is above the last key
of the page before its own in the order of Rust strings.** -/
theorem lister_complete_iff (s : Stores) (root keyPrefix : Str) (n : ℕ) (hn : 0 < n) :
    Drains (IndexeddbLister.next O P s) (fullLister root keyPrefix n)
        ((keysUnder s keyPrefix).map (keyEntry O P s root)) ↔
      ∀ i a b, n ≤ i → (keysUnder s keyPrefix)[i / n * n - 1]? = some a →
        (keysUnder s keyPrefix)[i]? = some b → strLt a b :=
  (drains_keysUnder_iff O P s root keyPrefix hn).trans (paged_eq_self_iff hn)

/-! ## A key that is lost -/

/-- U+10000, which the store has below U+E000, and Rust above it. -/
def astralKey : Str := [Char.ofNat 0x10000]

def privateKey : Str := [Char.ofNat 0xE000]

/-- A store with those two keys. -/
def straddlingStores : Stores where
  store := (OrderedStore.empty.put (KeyAndValue.toValue ⟨privateKey, []⟩)).put
    (KeyAndValue.toValue ⟨astralKey, []⟩)
  metaStore := .empty

theorem keysUnder_straddlingStores : keysUnder straddlingStores [] = [astralKey, privateKey] := by
  decide

/-- The key behind the first page is not above its last key. -/
theorem paged_straddlingStores :
    paged pointRank 1 (keysUnder straddlingStores []) ≠ keysUnder straddlingStores [] := by
  rw [ne_eq, paged_eq_self_iff Nat.one_pos, keysUnder_straddlingStores]
  intro h
  exact absurd (h 1 astralKey privateKey le_rfl rfl rfl) (by decide)

/-- A page at a time, the store's second key is not listed. -/
theorem lister_loses_key :
    ¬ Drains (IndexeddbLister.next referenceOpendal referencePlatform straddlingStores)
      (fullLister ['/'] [] 1) ((keysUnder straddlingStores []).map
        (keyEntry referenceOpendal referencePlatform straddlingStores ['/'])) := by
  intro h
  exact paged_straddlingStores ((drains_keysUnder_iff _ _ _ _ _ Nat.one_pos).1 h)

/-- On one page both are. -/
theorem lister_lists_both :
    Drains (IndexeddbLister.next referenceOpendal referencePlatform straddlingStores)
      (fullLister ['/'] [] 2) ((keysUnder straddlingStores []).map
        (keyEntry referenceOpendal referencePlatform straddlingStores ['/'])) := by
  refine (lister_complete_iff _ _ _ _ _ 2 (by decide)).2 ?_
  intro i a b hi _ hb
  rw [keysUnder_straddlingStores, List.getElem?_eq_none hi] at hb
  cases hb

end OpendalIndexeddb
