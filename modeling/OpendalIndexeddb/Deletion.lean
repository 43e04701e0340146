import OpendalIndexeddb.View
/-!
# What a batch of deletes removes

A recursive request becomes a range of keys and a key of its own, ranges
go first and keys last, in both stores. What is gone afterwards is what
some request matches, whatever the order of the requests.
-/

namespace OpendalIndexeddb

open IndexeddbCore

variable {s t t' : Stores} {q : Key → Prop} {key : Key}

/-- **The keys a request of a batch matches**, as a `(path, recursive)`
pair: the path itself; recursively, what is in the directory as well. A
path with a `/` at the end is a directory only, and the empty one holds
everything. -/
inductive Matched : Str × Bool → Key → Prop
  | path (path : Str) : Matched (path, false) (.text path)
  | everything (key : Key) : Matched ([], true) key
  | inDir {path k : Str} : path.getLast? = some '/' → path <+: k → Matched (path, true) (.text k)
  | self {path : Str} : path ≠ [] → path.getLast? ≠ some '/' → Matched (path, true) (.text path)
  | below {path k : Str} : path ≠ [] → path.getLast? ≠ some '/' → path ++ ['/'] <+: k →
      Matched (path, true) (.text k)

/-- The range and the exact key of a request are the keys it matches. -/
theorem removedBy_iff_matched (request : Str × Bool) :
    RemovedBy request key ↔ Matched request key := by
  obtain ⟨path, isRecursive⟩ := request
  cases isRecursive with
  | false =>
    simp only [RemovedBy, Bool.false_eq_true, if_false]
    constructor
    · rintro rfl
      exact .path path
    · rintro ⟨⟩
      rfl
  | true =>
    simp only [RemovedBy, if_true, recursiveDeleteTarget]
    by_cases hnil : path = []
    · subst hnil
      exact iff_of_true (Or.inr (Or.inl rfl)) (.everything key)
    · by_cases hslash : path.getLast? = some '/'
      · simp only [hnil, hslash, if_false, if_true, underPrefix, Option.not_mem_none, false_and,
          exists_false, false_or]
        constructor
        · rintro ⟨k, rfl, hk⟩
          exact .inDir hslash hk
        · intro h
          cases h with
          | everything => exact absurd rfl hnil
          | inDir _ hk => exact ⟨_, rfl, hk⟩
          | self _ hnot => exact absurd hslash hnot
          | below _ hnot => exact absurd hslash hnot
      · simp only [hnil, hslash, if_false, Option.mem_def, Option.some_inj, underPrefix]
        constructor
        · rintro (⟨k, rfl, rfl⟩ | hempty | ⟨k, rfl, hk⟩)
          · exact .self hnil hslash
          · exact absurd hempty (by simp)
          · exact .below hnil hslash hk
        · intro h
          cases h with
          | everything => exact absurd rfl hnil
          | inDir hyes => exact absurd hyes hslash
          | self => exact Or.inl ⟨path, rfl, rfl⟩
          | below _ _ hk => exact Or.inr (Or.inr ⟨_, rfl, hk⟩)

/-! ## Erasing a set of keys -/

/-- What is left is determined by what is erased. -/
theorem Erased.unique (h : Erased q s t) (h' : Erased q s t') : t = t' := by
  have hget : ∀ key, t.store.get key = t'.store.get key ∧
      t.metaStore.get key = t'.metaStore.get key := by
    intro key
    by_cases hq : q key
    · obtain ⟨hd, hm⟩ := (h key).1 hq
      obtain ⟨hd', hm'⟩ := (h' key).1 hq
      exact ⟨hd.trans hd'.symm, hm.trans hm'.symm⟩
    · obtain ⟨hd, hm⟩ := (h key).2 hq
      obtain ⟨hd', hm'⟩ := (h' key).2 hq
      exact ⟨hd.trans hd'.symm, hm.trans hm'.symm⟩
  exact Stores.ext (OrderedStore.ext_get fun key => (hget key).1)
    (OrderedStore.ext_get fun key => (hget key).2)

/-- What is erased cannot be erased again. -/
theorem Erased.again (h : Erased q s t) (h' : Erased q t t') : t' = t :=
  ((h.trans h').congr fun _ => or_self_iff).unique h

/-- **A batch removes the union of what its requests match**, from both
stores, and nothing else. So only that union counts: not the order of the
requests, nor that they repeat or overlap, nor a second run. -/
theorem deleteMany_removes_union (batch : List (Str × Bool)) (s : Stores) :
    (∀ key,
      ((∃ request ∈ batch, Matched request key) →
        (deleteMany batch s).store.get key = none ∧
          (deleteMany batch s).metaStore.get key = none) ∧
      ((∀ request ∈ batch, ¬ Matched request key) →
        (deleteMany batch s).store.get key = s.store.get key ∧
          (deleteMany batch s).metaStore.get key = s.metaStore.get key)) ∧
    (∀ batch' : List (Str × Bool),
      (∀ key, (∃ request ∈ batch', Matched request key) ↔ ∃ request ∈ batch, Matched request key) →
        deleteMany batch' s = deleteMany batch s) ∧
    (∀ batch' : List (Str × Bool), (∀ request, request ∈ batch' ↔ request ∈ batch) →
      deleteMany batch' s = deleteMany batch s) ∧
    deleteMany batch (deleteMany batch s) = deleteMany batch s := by
  have herased (batch : List (Str × Bool)) (s : Stores) :
      Erased (fun key => ∃ request ∈ batch, Matched request key) s (deleteMany batch s) :=
    (erased_deleteMany batch s).congr fun key =>
      exists_congr fun request => and_congr_right fun _ => removedBy_iff_matched request
  have hunion : ∀ batch' : List (Str × Bool),
      (∀ key, (∃ request ∈ batch', Matched request key) ↔ ∃ request ∈ batch, Matched request key) →
        deleteMany batch' s = deleteMany batch s :=
    fun batch' h => ((herased batch' s).congr h).unique (herased batch s)
  refine ⟨fun key => ⟨(herased batch s key).1, fun hnone => (herased batch s key).2 ?_⟩, hunion,
    fun batch' h => hunion batch' fun key => ?_, (herased batch s).again (herased batch _)⟩
  · rintro ⟨request, hrequest, hmatched⟩
    exact hnone request hrequest hmatched
  · exact exists_congr fun request => and_congr_left fun _ => h request

end OpendalIndexeddb
