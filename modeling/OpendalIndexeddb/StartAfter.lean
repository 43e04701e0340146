import OpendalIndexeddb.Hierarchy
import OpendalIndexeddb.Model.Reference
/-!
# Where a listing resumes

A folded listing that resumes at `S` should show the entries above `S`.
It does where `S` is below the listed path and the two string orders
agree; it shows nothing where `S` is the listed directory or one above
it, since the scan then skips everything under `S`.
-/

namespace OpendalIndexeddb

open IndexeddbCore IndexeddbBackend

variable {O : Opendal} {P : Platform} {s : Stores} {root : Root} {path startAfter p S k : Str}

/-- The listing with a resume point is what the listing without one shows
above it, in the order of the store. -/
def StartAfterMeans (O : Opendal) (P : Platform) (s : Stores) (root : Root)
    (path startAfter : Str) : Prop :=
  ∀ build, ∃ full es,
    Listing O P build s root path ⟨none, none, false⟩ full ∧
    Listing O P build s root path ⟨none, some startAfter, false⟩ es ∧
    es = full.filter fun e => decide (unitRank (O.buildAbsPath root.text startAfter) <
      unitRank (root.text.tail ++ e.path))

/-- A resume point that is the listed directory or one above it. -/
def Swallows (S p : Str) : Prop := S.getLast? = some '/' ∧ S <+: p

/-- The keys whose name is above the resume point. -/
def keysAfter (s : Stores) (p S : Str) : List Str :=
  (keysUnder s p).filter fun k => decide (unitRank S < unitRank (nameOf false p k))

/-- **The order a resume point needs**: outside the listed path, both
string orders place it on the same side; below it, every key that the
store has above it is above it, and no page boundary loses a key. -/
def ResumesInOrder (s : Stores) (p S : Str) : Prop :=
  (¬ p <+: S ∧ (strLt S p ↔ unitRank S < unitRank p)) ∨
  (p <+: S ∧ (∀ k ∈ keysUnder s p, unitRank S < unitRank k → strLt S k) ∧
    PageOrdered pointRank 1024 (keysUnder s p) ∧ PageOrdered pointRank 1024 (keysAfter s p S))

/-! ## The two listings by their keys -/

/-- The entries of an unlimited folded listing that reads these keys. -/
def foldedEntries (O : Opendal) (P : Platform) (s : Stores) (root : Root) (path : Str)
    (ks : List Str) : List Entry :=
  (namedKeys false (root.text.tail ++ listBase path) (paged pointRank 1024 ks)).map
    (nameEntry O P s root path false)

theorem listing_iff_folded (hpath : RelativePath path) (hkeys : NormalKeys s) (build : Build)
    (startAfter : Option Str) {es : List Entry} :
    Listing O P build s root path ⟨none, startAfter, false⟩ es ↔
      es = foldedEntries O P s root path (listKeys O s root path ⟨none, startAfter, false⟩) := by
  have hsub := paged_sublist (f := pointRank) 1024
    (listKeys O s root path ⟨none, startAfter, false⟩)
  have hshown : ∀ k ∈ paged pointRank 1024 (listKeys O s root path ⟨none, startAfter, false⟩),
      Shown root path k := by
    intro k hk
    exact shown_of_mem_keysUnder hkeys (buildAbsPath_eq O root hpath ▸
      (listKeys_sublist O s root path _).subset (hsub.subset hk))
  have hnodup := (listKeys_nodup O s root path ⟨none, startAfter, false⟩).sublist hsub
  have hentries := entriesOf_eq (O := O) (P := P) (s := s) false hshown hnodup
  rw [listing_iff]
  constructor
  · rintro ⟨n, hn, rfl⟩
    cases hn
    exact hentries
  · rintro rfl
    exact ⟨1024, rfl, hentries.symm⟩

/-- The folded entries above a resume point. -/
theorem filter_foldedEntries (hkeys : NormalKeys s) (S : Str) :
    (foldedEntries O P s root path (keysUnder s (root.text.tail ++ listBase path))).filter
        (fun e => decide (unitRank S < unitRank (root.text.tail ++ e.path))) =
      (namedKeys false (root.text.tail ++ listBase path)
        ((paged pointRank 1024 (keysUnder s (root.text.tail ++ listBase path))).filter fun k =>
          decide (unitRank S < unitRank (nameOf false (root.text.tail ++ listBase path) k)))).map
        (nameEntry O P s root path false) := by
  rw [foldedEntries, List.filter_map,
    ← filter_namedKeys false _ _ fun name => decide (unitRank S < unitRank name)]
  congr 1
  refine List.filter_congr ?_
  intro k hk
  have hmem := (paged_sublist 1024 _).subset ((firstsFrom_sublist _ [] _).subset hk)
  simp only [Function.comp_apply, path_nameEntry (shown_of_mem_keysUnder hkeys hmem)]

theorem foldedEntries_eq_nil_iff (O : Opendal) (P : Platform) (s : Stores) (root : Root)
    (path : Str) {ks : List Str} : foldedEntries O P s root path ks = [] ↔ ks = [] := by
  rw [foldedEntries, List.map_eq_nil_iff, namedKeys, firstsFrom_eq_nil_iff,
    paged_eq_nil_iff (by decide)]

/-- The property in terms of keys. -/
theorem startAfterMeans_iff (hpath : RelativePath path) (hkeys : NormalKeys s) :
    StartAfterMeans O P s root path startAfter ↔
      foldedEntries O P s root path (listKeys O s root path ⟨none, some startAfter, false⟩) =
        (foldedEntries O P s root path (keysUnder s (root.text.tail ++ listBase path))).filter
          fun e => decide (unitRank (O.buildAbsPath root.text startAfter) <
            unitRank (root.text.tail ++ e.path)) := by
  have hnone : listKeys O s root path ⟨none, none, false⟩ =
      keysUnder s (root.text.tail ++ listBase path) := by
    rw [listKeys_none, buildAbsPath_eq O root hpath]
  constructor
  · intro h
    obtain ⟨full, es, hfull, hes, heq⟩ := h .release
    rw [listing_iff_folded hpath hkeys] at hfull hes
    rw [← hes, heq, hfull, hnone]
  · intro h build
    refine ⟨_, _, (listing_iff_folded hpath hkeys build none).2 rfl,
      (listing_iff_folded hpath hkeys build (some startAfter)).2 rfl, ?_⟩
    rw [hnone]
    exact h

/-! ## Outside the listed path -/

/-- A resume point outside the listed path is on one side of all names. -/
theorem filter_of_lt {ks : List Str} (hks : ∀ k ∈ ks, p <+: k) (h : unitRank S < unitRank p) :
    ks.filter (fun k => decide (unitRank S < unitRank (nameOf false p k))) = ks :=
  List.filter_eq_self.2 fun k hk => decide_eq_true
    (lt_of_lt_of_le h (unitRank_le_of_isPrefix (isPrefix_nameOf false (hks k hk))))

theorem filter_of_not_lt {ks : List Str} (hks : ∀ k ∈ ks, p <+: k) (hS : ¬ p <+: S)
    (h : ¬ unitRank S < unitRank p) :
    ks.filter (fun k => decide (unitRank S < unitRank (nameOf false p k))) = [] := by
  refine List.filter_eq_nil_iff.2 ?_
  intro k hk hlt
  have hpS : unitRank p < unitRank S :=
    lt_of_le_of_ne (not_lt.1 h) fun heq => hS (unitRank_injective heq ▸ List.prefix_rfl)
  have hname := Lexicographic.lt_of_isPrefix_of_lt
    (unitRank_prefix_iff.2 (isPrefix_nameOf false (hks k hk))) hpS (mt unitRank_prefix_iff.1 hS)
  exact lt_asymm hname (of_decide_eq_true hlt)

/-- The keys of `ks` a folded listing of `p` reads behind `S`. -/
def keysBehind (p S : Str) (ks : List Str) : List Str :=
  ks.filter fun k => decide (strLt S k ∧ (strLt p S → unitRank S < unitRank k) ∧
    (S.getLast? = some '/' → ¬ S <+: k))

theorem listKeys_eq_keysBehind (hpath : RelativePath path) :
    listKeys O s root path ⟨none, some startAfter, false⟩ =
      keysBehind (root.text.tail ++ listBase path) (O.buildAbsPath root.text startAfter)
        (keysUnder s (root.text.tail ++ listBase path)) := by
  rw [listKeys_eq_filter, buildAbsPath_eq O root hpath, keysBehind]
  refine List.filter_congr ?_
  intro k _
  rw [Bool.eq_iff_iff, behind_iff, decide_eq_true_iff, buildAbsPath_eq O root hpath]
  simp only [Option.some.injEq, forall_eq', true_implies]

/-- **What is read behind a point outside the listed path**: everything
from below, nothing from above, in the order of Rust strings. -/
theorem keysBehind_outside {ks : List Str} (hks : ∀ k ∈ ks, p <+: k) (hout : ¬ p <+: S)
    (hswallow : ¬ Swallows S p) : keysBehind p S ks = if strLt S p then ks else [] := by
  split_ifs with hlt
  · refine List.filter_eq_self.2 fun k hk => decide_eq_true ⟨?_, ?_, fun hslash hSk => ?_⟩
    · exact lt_of_lt_of_le hlt (pointRank_le_of_isPrefix (hks k hk))
    · exact fun h => absurd h (lt_asymm hlt)
    · -- a directory over a listed key is over the path, or below it
      rcases List.prefix_or_prefix_of_prefix hSk (hks k hk) with h | h
      · exact hswallow ⟨hslash, h⟩
      · exact hout h
  · refine List.filter_eq_nil_iff.2 ?_
    intro k hk hbehind
    have hpS : strLt p S := lt_of_le_of_ne (not_lt.1 hlt)
      fun heq => hout (pointRank_injective heq ▸ List.prefix_rfl)
    have hkS := Lexicographic.lt_of_isPrefix_of_lt (pointRank_prefix_iff.2 (hks k hk)) hpS
      (mt pointRank_prefix_iff.1 hout)
    exact lt_asymm hkS (of_decide_eq_true hbehind).1

/-- **A resume point at the listed directory or above it is taken for a
directory to skip**, and everything is under it. -/
theorem keysBehind_swallowed {ks : List Str} (hks : ∀ k ∈ ks, p <+: k) (h : Swallows S p) :
    keysBehind p S ks = [] :=
  List.filter_eq_nil_iff.2 fun k hk hbehind =>
    (of_decide_eq_true hbehind).2.2 h.1 (h.2.trans (hks k hk))

/-- Yet every name is above such a point. -/
theorem filter_swallowed {ks : List Str} (hks : ∀ k ∈ ks, k ∈ keysUnder s p)
    (h : Swallows S p) :
    ks.filter (fun k => decide (unitRank S < unitRank (nameOf false p k))) = ks := by
  refine List.filter_eq_self.2 fun k hk => decide_eq_true ?_
  have hpre := isPrefix_of_mem_keysUnder (hks k hk)
  have hle := unitRank_le_of_isPrefix (h.2.trans (isPrefix_nameOf false hpre))
  refine lt_of_le_of_ne hle ?_
  intro heq
  -- the point would be the listed path, and the key its marker
  have hname := unitRank_injective heq
  have hSp : S = p := h.2.eq_of_length_le (hname ▸ (isPrefix_nameOf false hpre).length_le)
  have hkp := eq_of_nameOf_eq false hpre (hname.symm.trans hSp)
  have hmark := (List.mem_filter.1 (hks k hk)).2
  have hslash := h.1
  rw [hSp] at hslash
  simp [hkp, hslash] at hmark

/-! ## Below the listed path -/

/-- **What is read behind a point below the listed path** is what has a
name above it. -/
theorem keysBehind_inside {ks : List Str} (hks : ∀ k ∈ ks, p <+: k) (hin : p <+: S)
    (hswallow : ¬ Swallows S p) (hchild : childOf p S = S)
    (horder : ∀ k ∈ ks, unitRank S < unitRank k → strLt S k) : keysBehind p S ks =
      ks.filter fun k => decide (unitRank S < unitRank (nameOf false p k)) := by
  refine List.filter_congr ?_
  intro k hk
  have hiff := lt_nameOf_iff (S := S) false (hks k hk) (fun _ _ => hchild)
    fun _ hslash _ => ⟨hin, fun heq => hswallow ⟨hslash, heq ▸ List.prefix_rfl⟩⟩
  rw [Bool.eq_iff_iff, decide_eq_true_iff, decide_eq_true_iff, hiff]
  simp only [true_implies]
  constructor
  · rintro ⟨hlt, hunit, hskip⟩
    refine ⟨?_, hskip⟩
    -- the store's order is checked only above the listed path
    by_cases hpS : p = S
    · refine lt_of_le_of_ne (unitRank_le_of_isPrefix (hpS ▸ hks k hk)) ?_
      intro heq
      rw [unitRank_injective heq] at hlt
      exact lt_irrefl _ hlt
    · exact hunit (lt_of_le_of_ne (pointRank_le_of_isPrefix hin)
        fun heq => hpS (pointRank_injective heq))
  · rintro ⟨hlt, hskip⟩
    exact ⟨horder k hk hlt, fun _ => hlt, hskip⟩

/-! ## The meaning of a resume point -/

/-- The entries of the keys read behind `S` are the folded entries above
`S`. -/
def EntriesAgree (O : Opendal) (P : Platform) (s : Stores) (root : Root) (path S : Str) : Prop :=
  let p := root.text.tail ++ listBase path
  foldedEntries O P s root path (keysBehind p S (keysUnder s p)) =
    (namedKeys false p ((paged pointRank 1024 (keysUnder s p)).filter fun k =>
      decide (unitRank S < unitRank (nameOf false p k)))).map (nameEntry O P s root path false)

/-- **Where the orders agree, so do the entries.** -/
theorem EntriesAgree.of_order (hp : p = root.text.tail ++ listBase path)
    (hchild : p <+: S → childOf p S = S)
    (h : keysUnder s p = [] ∨ (¬ Swallows S p ∧ ResumesInOrder s p S)) :
    EntriesAgree O P s root path S := by
  have hks : ∀ k ∈ keysUnder s p, p <+: k := fun _ => isPrefix_of_mem_keysUnder
  have hpaged : ∀ k ∈ paged pointRank 1024 (keysUnder s p), p <+: k := by
    intro k hk
    exact hks k ((paged_sublist 1024 _).subset hk)
  simp only [EntriesAgree, ← hp]
  rcases h with hnil | ⟨hswallow, ⟨hout, hagree⟩ | ⟨hin, horder, hfull, hafter⟩⟩
  · rw [hnil]
    simp [keysBehind, foldedEntries, paged_of_lt, namedKeys, firstsFrom]
  · rw [keysBehind_outside hks hout hswallow]
    by_cases hlt : strLt S p
    · rw [if_pos hlt, filter_of_lt hpaged (hagree.1 hlt), foldedEntries, ← hp]
    · rw [if_neg hlt, filter_of_not_lt hpaged hout (mt hagree.2 hlt)]
      simp [foldedEntries, paged_of_lt, namedKeys, firstsFrom]
  · -- no page boundary loses a key, so both sides are the names above `S`
    rw [keysBehind_inside hks hin hswallow (hchild hin) horder,
      (paged_eq_self_iff (by decide)).2 hfull]
    show foldedEntries O P s root path (keysAfter s p S) =
      (namedKeys false p (keysAfter s p S)).map _
    rw [foldedEntries, (paged_eq_self_iff (by decide)).2 hafter, hp]

/-- **Where the entries agree, nothing is swallowed**, and a point outside
the listed path is on one side of it in both orders. -/
theorem EntriesAgree.order (hp : p = root.text.tail ++ listBase path)
    (h : EntriesAgree O P s root path S) (hnil : keysUnder s p ≠ []) :
    ¬ Swallows S p ∧ (¬ p <+: S → (strLt S p ↔ unitRank S < unitRank p)) := by
  have hks : ∀ k ∈ keysUnder s p, p <+: k := fun _ => isPrefix_of_mem_keysUnder
  have hpaged : ∀ k ∈ paged pointRank 1024 (keysUnder s p), k ∈ keysUnder s p := by
    intro k hk
    exact (paged_sublist 1024 _).subset hk
  have hpne : paged pointRank 1024 (keysUnder s p) ≠ [] := mt (paged_eq_nil_iff (by decide)).1 hnil
  -- both sides list nothing or neither does
  have hboth : keysBehind p S (keysUnder s p) = [] ↔
      (paged pointRank 1024 (keysUnder s p)).filter
        (fun k => decide (unitRank S < unitRank (nameOf false p k))) = [] := by
    simp only [EntriesAgree, ← hp] at h
    rw [← foldedEntries_eq_nil_iff O P s root path, h, List.map_eq_nil_iff]
    exact firstsFrom_eq_nil_iff
  have hswallow : ¬ Swallows S p := by
    intro hswallow
    have hall := hboth.1 (keysBehind_swallowed hks hswallow)
    rw [filter_swallowed hpaged hswallow] at hall
    exact hpne hall
  refine ⟨hswallow, fun hout => ⟨fun hlt => ?_, fun hunit => ?_⟩⟩
  · by_contra hunit
    have hnone := hboth.2 (filter_of_not_lt (fun k hk => hks k (hpaged k hk)) hout hunit)
    rw [keysBehind_outside hks hout hswallow, if_pos hlt] at hnone
    exact hnil hnone
  · by_contra hlt
    have hnone := keysBehind_outside hks hout hswallow
    rw [if_neg hlt] at hnone
    have hall := hboth.1 hnone
    rw [filter_of_lt (fun k hk => hks k (hpaged k hk)) hunit] at hall
    exact hpne hall

/-- **When a resume point means what it should.** It is enough that
nothing is listed, or that the resume point is not the listed directory
or one above it and the orders agree. The first two conditions are
necessary, and outside the listed path all are. -/
theorem startAfterMeans_of_order (O : Opendal) (P : Platform) (s : Stores) (root : Root)
    (path startAfter : Str) (hpath : RelativePath path) (hkeys : NormalKeys s)
    (hchild : O.buildAbsPath root.text path <+: O.buildAbsPath root.text startAfter →
      childOf (O.buildAbsPath root.text path) (O.buildAbsPath root.text startAfter) =
        O.buildAbsPath root.text startAfter) :
    let p := O.buildAbsPath root.text path
    let S := O.buildAbsPath root.text startAfter
    (keysUnder s p = [] ∨ (¬ Swallows S p ∧ ResumesInOrder s p S) →
      StartAfterMeans O P s root path startAfter) ∧
    (StartAfterMeans O P s root path startAfter →
      keysUnder s p = [] ∨ (¬ Swallows S p ∧
        (¬ p <+: S → (strLt S p ↔ unitRank S < unitRank p)))) := by
  intro p S
  have hp : p = root.text.tail ++ listBase path := buildAbsPath_eq O root hpath
  have hmeans : StartAfterMeans O P s root path startAfter ↔ EntriesAgree O P s root path S := by
    rw [startAfterMeans_iff hpath hkeys, filter_foldedEntries hkeys, listKeys_eq_keysBehind hpath,
      EntriesAgree]
  rw [hmeans]
  constructor
  · intro h
    exact EntriesAgree.of_order hp hchild h
  · intro h
    by_cases hnil : keysUnder s p = []
    · exact Or.inl hnil
    · exact Or.inr (h.order hp hnil)

/-! ## Resuming from the listed directory -/

/-- A store with one file in a directory. -/
def nestedStores : Stores where
  store := OrderedStore.empty.put (KeyAndValue.toValue ⟨"a/b".toList, []⟩)
  metaStore := .empty

theorem keysUnder_nestedStores : keysUnder nestedStores "a/".toList = ["a/b".toList] := by
  decide

/-- Listing `a/` from `a/` on shows nothing, and `a/b` is above `a/`. -/
theorem start_after_self_empties : ¬ StartAfterMeans referenceOpendal referencePlatform nestedStores
    .slash "a/".toList "a/".toList := by
  have hkeys : NormalKeys nestedStores := by unfold NormalKeys Normal; decide
  have hpath : RelativePath "a/".toList := Or.inr (by decide)
  rw [startAfterMeans_iff hpath hkeys, filter_foldedEntries hkeys, listKeys_eq_keysBehind hpath]
  intro h
  have hnone : keysBehind "a/".toList "a/".toList (keysUnder nestedStores "a/".toList) = [] := by
    decide
  have hfull : paged pointRank 1024 (keysUnder nestedStores "a/".toList) = ["a/b".toList] := by
    rw [keysUnder_nestedStores, paged_of_lt (by decide)]
  change foldedEntries _ _ _ _ _ (keysBehind "a/".toList "a/".toList
    (keysUnder nestedStores "a/".toList)) = (namedKeys false "a/".toList
      ((paged pointRank 1024 (keysUnder nestedStores "a/".toList)).filter _)).map _ at h
  rw [hnone, hfull, (foldedEntries_eq_nil_iff _ _ _ _ _).2 rfl] at h
  exact absurd (congrArg List.length h) (by decide)

/-- A store with two files in a directory. -/
def directoryStores : Stores where
  store := (OrderedStore.empty.put (KeyAndValue.toValue ⟨"a/b".toList, []⟩)).put
    (KeyAndValue.toValue ⟨"a/c".toList, []⟩)
  metaStore := .empty

/-- From `a` on the listing of `a/` shows a file; from one of two files on,
it shows the other. -/
theorem start_after_above_lists :
    StartAfterMeans referenceOpendal referencePlatform nestedStores .slash "a/".toList
        "a".toList ∧
      StartAfterMeans referenceOpendal referencePlatform directoryStores .slash "a/".toList
        "a/b".toList := by
  constructor
  · exact (startAfterMeans_of_order _ _ _ _ _ _ (Or.inr (by decide))
      (by unfold NormalKeys Normal; decide) (by decide)).1
      (Or.inr ⟨by unfold Swallows; decide, Or.inl (by decide)⟩)
  · have hunder : keysUnder directoryStores "a/".toList = ["a/b".toList, "a/c".toList] := by
      decide
    have hafter : keysAfter directoryStores "a/".toList "a/b".toList = ["a/c".toList] := by
      decide
    refine (startAfterMeans_of_order _ _ _ _ _ _ (Or.inr (by decide))
      (by unfold NormalKeys Normal; decide) (by decide)).1 (Or.inr ⟨by unfold Swallows; decide,
        Or.inr ⟨by decide, ?_, ?_, ?_⟩⟩)
    · change ∀ k ∈ keysUnder directoryStores "a/".toList,
        unitRank "a/b".toList < unitRank k → strLt "a/b".toList k
      rw [hunder]
      decide
    · change PageOrdered pointRank 1024 (keysUnder directoryStores "a/".toList)
      rw [hunder, ← paged_eq_self_iff (by decide), paged_of_lt (by decide)]
    · change PageOrdered pointRank 1024 (keysAfter directoryStores "a/".toList "a/b".toList)
      rw [hafter, ← paged_eq_self_iff (by decide), paged_of_lt (by decide)]

end OpendalIndexeddb
