import OpendalIndexeddb.Atomicity
import OpendalIndexeddb.Coherence
import OpendalIndexeddb.Deletion
/-!
# Deleting a prefix by cursor

A prefix without a range end is deleted record by record, with a cursor
over the data store that goes on while its records disappear. What that
removes, for any prefix and any stores, and when it is what a deletion of
the range removes.
-/

namespace OpendalIndexeddb

open Program

variable {p : Str} {s t : Stores} {key key' : Key}

/-! ## The keys a cursor deletes -/

/-- The keys that begin with a prefix. -/
def HasPrefix (p : Str) (key : Key) : Prop := ∃ k, key = .text k ∧ p <+: k

/-- A string behind one that left the prefix does not begin with it. -/
theorem not_hasPrefix_of_lt {k : Str} (hp : Key.text p ≤ .text k) (hk : ¬ p <+: k)
    (hlt : Key.text k < key) : ¬ HasPrefix p key := by
  rintro ⟨l, rfl, hl⟩
  refine hk (unitRank_prefix_iff.1 ?_)
  exact Lexicographic.isPrefix_of_between List.prefix_rfl (unitRank_prefix_iff.2 hl)
    (Key.text_le_text.1 hp) (le_of_lt (Key.text_lt_text.1 hlt))

/-- **The cursor deletes the keys before it that begin with the prefix.**
Where it stops, it is past all of them. -/
theorem erased_deleteVisited {keys : List Key} (hsorted : keys.Pairwise (· < ·))
    (hstart : ∀ key ∈ keys, Key.text p ≤ key) (s : Stores) :
    Erased (fun key => key ∈ keys ∧ HasPrefix p key) s (deleteVisited p keys s) := by
  induction keys generalizing s with
  | nil => exact fun key => ⟨fun h => absurd h.1 List.not_mem_nil, fun _ => ⟨rfl, rfl⟩⟩
  | cons key keys ih =>
    obtain ⟨hlt, hsorted⟩ := List.pairwise_cons.1 hsorted
    have hrest := ih hsorted fun key' h => hstart key' (List.mem_cons_of_mem _ h)
    rw [deleteVisited]
    cases hkey : key.asString with
    | none =>
      refine (hrest s).congr fun key' => ?_
      rw [List.mem_cons]
      refine ⟨fun h => ⟨Or.inr h.1, h.2⟩, fun h => ⟨h.1.resolve_left ?_, h.2⟩⟩
      rintro rfl
      obtain ⟨k, rfl, -⟩ := h.2
      cases hkey
    | some k =>
      obtain rfl := Key.asString_eq_some_iff.1 hkey
      dsimp only
      split_ifs with hk
      · refine ((erased_deleteKey s k).trans (hrest _)).congr fun key' => ?_
        rw [List.mem_cons, or_and_right]
        refine or_congr_left ⟨fun h => ⟨h, k, h, hk⟩, And.left⟩
      · refine fun key' => ⟨fun h => absurd h.2 ?_, fun _ => ⟨rfl, rfl⟩⟩
        rcases List.mem_cons.1 h.1 with rfl | hmem
        · rintro ⟨l, hl, hpl⟩
          cases hl
          exact hk hpl
        · exact not_hasPrefix_of_lt (hstart _ List.mem_cons_self) hk (hlt _ hmem)

theorem erased_deletePrefixByCursor (p : Str) (s : Stores) :
    Erased (fun key => s.store.contains key = true ∧ HasPrefix p key) s
      (deletePrefixByCursor s p) := by
  have hstart : ∀ key ∈ s.store.keys.filter
      (KeyRange.mk (.included (.text p)) .unbounded).contains, Key.text p ≤ key := by
    intro key hkey
    have hrange := (List.mem_filter.1 hkey).2
    simpa [KeyRange.contains, Bound.below, Bound.above] using hrange
  refine (erased_deleteVisited (s.store.keys_sorted.filter _) hstart s).congr fun key => ?_
  rw [List.mem_filter, OrderedStore.mem_keys_iff]
  refine ⟨fun h => ⟨h.1.1, h.2⟩, fun h => ⟨⟨h.1, ?_⟩, h.2⟩⟩
  obtain ⟨k, rfl, hk⟩ := h.2
  simpa [KeyRange.contains, Bound.below, Bound.above] using unitRank_le_of_isPrefix hk

/-! ## The two ways to delete a prefix -/

/-- Under the prefix, no sidecar is without its record. -/
def NoOrphanUnder (s : Stores) (p : Str) : Prop :=
  ∀ key, HasPrefix p key → s.metaStore.contains key = true → s.store.contains key = true

theorem erased_deleteRange {u : Str} (h : prefixUpperBound p = some u) (s : Stores) :
    Erased (HasPrefix p) s (deletePrefix s p) := by
  have hne : p ≠ [] := by
    rintro rfl
    cases h
  intro key
  rw [deletePrefix, if_neg hne, h]
  simp only [OrderedStore.get_deleteRange]
  refine ⟨fun hkey => ?_, fun hkey => ?_⟩
  · have hin := (textRange_contains_iff h key).2 hkey
    simp [hin]
  · have hout := mt (textRange_contains_iff h key).1 hkey
    simp [hout]

/-- **The cursor does what the range does** exactly where no sidecar under
the prefix is without its record. -/
theorem deletePrefixByCursor_eq_iff {u : Str} (h : prefixUpperBound p = some u) (s : Stores) :
    deletePrefixByCursor s p = deletePrefix s p ↔ NoOrphanUnder s p := by
  have hrange := erased_deleteRange h s
  have hcursor := erased_deletePrefixByCursor p s
  constructor
  · intro heq key hkey hmeta
    by_contra hdata
    have hkept := ((hcursor key).2 fun hc => hdata hc.1).2
    rw [heq, ((hrange key).1 hkey).2] at hkept
    rw [OrderedStore.contains, ← hkept] at hmeta
    cases hmeta
  · intro hnone
    refine Erased.unique (fun key => ⟨fun hkey => ?_, fun hkey => ?_⟩) hrange
    · by_cases hdata : s.store.contains key = true
      · exact (hcursor key).1 ⟨hdata, hkey⟩
      · have hmeta := mt (hnone key hkey) hdata
        obtain ⟨hd, hm⟩ := (hcursor key).2 fun hc => hdata hc.1
        exact ⟨hd.trans (Option.not_isSome_iff_eq_none.1 hdata),
          hm.trans (Option.not_isSome_iff_eq_none.1 hmeta)⟩
    · exact (hcursor key).2 fun hc => hkey hc.2

/-- **Deleting a prefix by cursor removes what begins with it.** Whatever
the prefix and the stores, the requests of `delete_prefix_by_cursor` come
to an end, and take away the records whose keys begin with the prefix,
with their sidecars, and nothing else. Where the prefix has a range end,
deleting the range does the same exactly if no sidecar there is without
its record, as after any run of operations. -/
theorem cursor_deletes_prefix (O : Opendal) (P : Platform) (p : Str) (s : Stores) :
    (∃ s', Computes txnSemantics (Requests.deletePrefixByCursor p) s (.ok ((), s')) ∧
      ∀ key,
        (s.store.contains key = true ∧ HasPrefix p key →
          s'.store.get key = none ∧ s'.metaStore.get key = none) ∧
        (¬ (s.store.contains key = true ∧ HasPrefix p key) →
          s'.store.get key = s.store.get key ∧ s'.metaStore.get key = s.metaStore.get key)) ∧
    (∀ u, prefixUpperBound p = some u →
      (deletePrefixByCursor s p = deletePrefix s p ↔ NoOrphanUnder s p)) ∧
    ∀ ops : List Op, NoOrphanUnder (run (Op.step O P) .empty ops).2 p := by
  refine ⟨⟨_, Requests.computes_deletePrefixByCursor p s, erased_deletePrefixByCursor p s⟩,
    fun u h => deletePrefixByCursor_eq_iff h s, fun ops key _ hmeta => ?_⟩
  have hcoherent := ((Represents.empty P).run (O := O) ops).coherent
  exact (hcoherent.keys key).trans hmeta

end OpendalIndexeddb
