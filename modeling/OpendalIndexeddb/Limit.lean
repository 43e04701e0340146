import OpendalIndexeddb.Hierarchy
import OpendalIndexeddb.Model.Reference
/-!
# Limits

A limit cuts the entries, and sets the page size on the way: four keys
for each entry asked for, in 32 bits. Below 2^30 nothing overflows, and
the entries are those of the listing without a limit unless a page
boundary that is read before they are complete falls where the two string
orders disagree.
-/

namespace OpendalIndexeddb

open IndexeddbCore IndexeddbBackend

variable {O : Opendal} {P : Platform} {s : Stores} {root : Root} {path : Str}
variable {startAfter : Option Str} {recursive : Bool} {limit : UInt32}

/-- Both builds return the listing with the limit, and it is the listing
without one, cut. -/
def LimitTruncates (O : Opendal) (P : Platform) (s : Stores) (root : Root) (path : Str)
    (startAfter : Option Str) (recursive : Bool) (limit : UInt32) : Prop :=
  ∀ build, ∃ full es,
    Listing O P build s root path ⟨none, startAfter, recursive⟩ full ∧
    Listing O P build s root path ⟨some limit, startAfter, recursive⟩ es ∧
    es = full.take (min limit.toNat full.length)

/-- Below 2^30 the page size does not overflow. -/
theorem listPageSize_of_lt (build : Build) (h : limit.toNat < 2 ^ 30) :
    listPageSize build (some limit) = some (min (max limit.toNat 1 * 4) defaultPageSize) := by
  have hmul : usizeMul build (max limit.toNat 1) 4 = some (max limit.toNat 1 * 4) :=
    if_pos (by omega)
  rw [listPageSize, hmul, Option.map_some]

/-- From there on, a debug build panics. -/
theorem listPageSize_debug (h : 2 ^ 30 ≤ limit.toNat) :
    listPageSize .debug (some limit) = none := by
  have hmul : usizeMul .debug (max limit.toNat 1) 4 = none := if_neg (by omega)
  rw [listPageSize, hmul, Option.map_none]

/-- A release build wraps the page size, to zero where the limit is a
multiple of 2^30. -/
theorem listPageSize_release (h : 2 ^ 30 ≤ limit.toNat) (hdvd : 2 ^ 30 ∣ limit.toNat) :
    listPageSize .release (some limit) = some 0 := by
  obtain ⟨k, hk⟩ := hdvd
  have hmax : max limit.toNat 1 * 4 = 2 ^ 32 * k := by omega
  have hmul : usizeMul .release (max limit.toNat 1) 4 = some (2 ^ 32 * k % 2 ^ 32) := by
    rw [← hmax]
    exact if_neg (by omega)
  rw [listPageSize, hmul, Nat.mul_mod_right]
  rfl

/-- A page size of zero ends the listing before it starts. -/
theorem listing_release_wrapped (h : 2 ^ 30 ≤ limit.toNat) (hdvd : 2 ^ 30 ∣ limit.toNat) :
    Listing O P .release s root path ⟨some limit, startAfter, true⟩ [] := by
  refine listing_iff.2 ⟨0, listPageSize_release h hdvd, ?_⟩
  simp [pagesOf, entriesOf, O.hierarchy_recursive, cutAt]

/-! ## Below 2^30 -/

/-- The entries of a listing with pages of `n` keys, before the cut. -/
def entriesInPages (O : Opendal) (P : Platform) (s : Stores) (root : Root) (path : Str)
    (startAfter : Option Str) (recursive : Bool) (n : ℕ) : List Entry :=
  entriesOf O P s root path recursive
    (pagesOf n (listKeys O s root path ⟨none, startAfter, recursive⟩))

/-- Where both page sizes find the same first entries, the limit only
cuts. -/
theorem limitTruncates_of_take (h : limit.toNat < 2 ^ 30)
    (htake : (entriesInPages O P s root path startAfter recursive
        (min (max limit.toNat 1 * 4) defaultPageSize)).take limit.toNat =
      (entriesInPages O P s root path startAfter recursive defaultPageSize).take limit.toNat) :
    LimitTruncates O P s root path startAfter recursive limit := by
  intro build
  refine ⟨_, _, listing_iff.2 ⟨_, rfl, rfl⟩, listing_iff.2 ⟨_, listPageSize_of_lt build h, rfl⟩, ?_⟩
  rw [← List.take_eq_take_min]
  exact htake

/-- A page holds at least as many keys as there are entries to return. -/
theorem take_entriesInPages_recursive {n : ℕ} (hn : 0 < n) (h : limit.toNat ≤ n) :
    (entriesInPages O P s root path startAfter true n).take limit.toNat =
      ((listKeys O s root path ⟨none, startAfter, true⟩).take limit.toNat).map
        (keyEntry O P s root.text) := by
  -- nothing is folded, so the first page has them all
  rw [entriesInPages, entriesOf, O.hierarchy_recursive, pagesOf, if_neg (by omega),
    ← List.map_take, take_paged h]

/-! ### The keys before the limit -/

/-- The path a key is listed under, relative to the root. -/
def listedPath (O : Opendal) (root : Root) (k : Str) : Str :=
  let path := O.buildRelPath root.text k
  if path = [] then ['/'] else path

/-- The keys of a folded listing, one for each name. -/
def namedFirst (O : Opendal) (root : Root) (path : Str) (ks : List Str) : List Str :=
  firstsFrom (fun k => childOf (listBase path) (listedPath O root k)) [] ks

/-- Whether the first `m` keys of a folded listing complete it: they have
as many names as entries are asked for, or they are all. -/
def CompletesListing (O : Opendal) (root : Root) (path : Str) (limit : UInt32)
    (ks : List Str) (m : ℕ) : Prop :=
  ks.length ≤ m ∨ RelativePath path ∧ limit.toNat ≤ (namedFirst O root path (ks.take m)).length

/-- Whether the keys that complete a folded listing are above the last key
of the page before their own, in the pages that a limit gives and in those
without one. -/
def LimitOrdered (O : Opendal) (root : Root) (path : Str) (limit : UInt32) (ks : List Str) : Prop :=
  ∃ m, CompletesListing O root path limit ks m ∧
    PageOrdered pointRank (4 * limit.toNat) (ks.take m) ∧ PageOrdered pointRank 1024 (ks.take m)

theorem path_foldEntry (foldMetadata : Metadata → Metadata) (base : Str) (e : Entry) :
    (foldEntry foldMetadata base e).path = childOf base e.path := by
  rw [foldEntry]
  split_ifs with h
  · exact h.symm
  · rfl

theorem head?_listBase (hpath : RelativePath path) : (listBase path).head? ≠ some '/' := by
  rw [listBase]
  split_ifs with hroot
  · simp
  · exact hpath.resolve_left hroot

/-- Every key of a listing is listed below its path. -/
theorem isPrefix_listedPath {k : Str} (hpath : RelativePath path)
    (hk : O.buildAbsPath root.text path <+: k) : listBase path <+: listedPath O root k := by
  by_cases hbase : listBase path = []
  · rw [hbase]
    exact List.nil_prefix
  · obtain ⟨m, rfl⟩ := hk
    have hhead : (listBase path ++ m).head? ≠ some '/' := by
      rw [List.head?_append_of_ne_nil _ hbase]
      exact head?_listBase hpath
    rw [buildAbsPath_eq O root hpath, List.append_assoc, listedPath, O.rel_path root _ hhead,
      if_neg (List.append_ne_nil_of_left_ne_nil hbase m)]
    exact List.prefix_append _ m

/-- A folded listing shows the first key of each name. -/
theorem entriesOf_namedFirst (hpath : RelativePath path) {ks : List Str}
    (hks : ∀ k ∈ ks, O.buildAbsPath root.text path <+: k) :
    entriesOf O P s root path false ks = (namedFirst O root path ks).map fun k =>
      foldEntry O.foldMetadata (listBase path) (keyEntry O P s root.text k) := by
  have hbase : ∀ e ∈ ks.map (keyEntry O P s root.text), listBase path <+: e.path := by
    intro e he
    obtain ⟨k, hk, rfl⟩ := List.mem_map.1 he
    exact isPrefix_listedPath hpath (hks k hk)
  rw [entriesOf, O.hierarchy_fold path _ hbase, List.map_map, firstsFrom_map]
  simp only [Function.comp_def, path_foldEntry]
  rfl

/-- **A listing whose first names are read in full returns their
entries**, whatever is lost behind them. -/
theorem take_entriesOf {ks ks' : List Str} (hpath : RelativePath path)
    (hks : ∀ k ∈ ks, O.buildAbsPath root.text path <+: k) (hbegins : ks' <+: ks)
    (hnames : limit.toNat ≤ (namedFirst O root path ks').length) :
    (entriesOf O P s root path false ks).take limit.toNat =
      (entriesOf O P s root path false ks').take limit.toNat := by
  rw [entriesOf_namedFirst hpath hks,
    entriesOf_namedFirst hpath fun k hk => hks k (hbegins.subset hk), ← List.map_take,
    ← List.map_take]
  obtain ⟨t, ht⟩ : namedFirst O root path ks' <+: namedFirst O root path ks :=
    firstsFrom_prefix hbegins
  rw [← ht, List.take_append_of_le_length hnames]

/-- In pages that are in order, the keys that complete a listing give its
first entries. -/
theorem take_entriesInPages_of_ordered {n m : ℕ} (hn : 0 < n)
    (hcomplete : CompletesListing O root path limit
      (listKeys O s root path ⟨none, startAfter, false⟩) m)
    (hord : PageOrdered pointRank n
      ((listKeys O s root path ⟨none, startAfter, false⟩).take m)) :
    (entriesInPages O P s root path startAfter false n).take limit.toNat =
      (entriesOf O P s root path false
        ((listKeys O s root path ⟨none, startAfter, false⟩).take m)).take limit.toNat := by
  rw [entriesInPages, pagesOf, if_neg (by omega)]
  rcases hcomplete with hall | ⟨hpath, hnames⟩
  · rw [List.take_of_length_le hall] at hord ⊢
    rw [(paged_eq_self_iff hn).2 hord]
  · refine take_entriesOf hpath (fun k hk => ?_)
      ((prefix_paged_iff hn (List.take_prefix m _)).2 hord) hnames
    exact isPrefix_of_mem_keysUnder
      ((listKeys_sublist O s root path _).subset ((paged_sublist n _).subset hk))

/-- Where they are not, one of the two listings loses a key before it is
complete. -/
theorem exists_lost_of_not_limitOrdered {ks : List Str} (hnodup : ks.Nodup)
    (hpos : 0 < limit.toNat) (h : ¬ LimitOrdered O root path limit ks) :
    ∃ i k, ks[i]? = some k ∧ ¬ CompletesListing O root path limit ks i ∧
      (k ∉ paged pointRank (4 * limit.toNat) ks ∨ k ∉ paged pointRank 1024 ks) := by
  classical
  -- the least number of keys that completes the listing
  have hex : ∃ m, CompletesListing O root path limit ks m := ⟨ks.length, .inl le_rfl⟩
  have hbefore : ∀ i, i < Nat.find hex → ¬ CompletesListing O root path limit ks i :=
    fun i hi => Nat.find_min hex hi
  by_cases hshort : PageOrdered pointRank (4 * limit.toNat) (ks.take (Nat.find hex))
  · have hfull : ¬ PageOrdered pointRank 1024 (ks.take (Nat.find hex)) :=
      fun hfull => h ⟨_, Nat.find_spec hex, hshort, hfull⟩
    obtain ⟨i, k, hi, hk, hlost⟩ := exists_notMem_paged (by decide) hnodup hfull
    exact ⟨i, k, hk, hbefore i hi, .inr hlost⟩
  · obtain ⟨i, k, hi, hk, hlost⟩ := exists_notMem_paged (by omega) hnodup hshort
    exact ⟨i, k, hk, hbefore i hi, .inl hlost⟩

/-- **Where a limit only truncates**: below 2^30, in a recursive listing,
with a page of the default size or with none, and where no page boundary
that is read before the listing is complete loses a key. Both builds fail
from 2^30 on, and in what is left out below it one of the two listings
loses a key before it is complete. -/
theorem limitTruncates_of_lt (O : Opendal) (P : Platform) (s : Stores) (root : Root) (path : Str)
    (startAfter : Option Str) (recursive : Bool) (limit : UInt32) :
    (limit.toNat < 2 ^ 30 ∧
        (recursive = true ∨ limit.toNat = 0 ∨ 256 ≤ limit.toNat ∨
          LimitOrdered O root path limit
            (listKeys O s root path ⟨none, startAfter, recursive⟩)) →
      LimitTruncates O P s root path startAfter recursive limit) ∧
    (LimitTruncates O P s root path startAfter recursive limit → limit.toNat < 2 ^ 30) ∧
    (limit.toNat < 2 ^ 30 →
      ¬ (recursive = true ∨ limit.toNat = 0 ∨ 256 ≤ limit.toNat ∨
          LimitOrdered O root path limit
            (listKeys O s root path ⟨none, startAfter, recursive⟩)) →
        ∃ i k, (listKeys O s root path ⟨none, startAfter, recursive⟩)[i]? = some k ∧
          ¬ CompletesListing O root path limit
            (listKeys O s root path ⟨none, startAfter, recursive⟩) i ∧
          (k ∉ pagesOf (4 * limit.toNat)
              (listKeys O s root path ⟨none, startAfter, recursive⟩) ∨
            k ∉ pagesOf 1024 (listKeys O s root path ⟨none, startAfter, recursive⟩))) := by
  refine ⟨?_, ?_, ?_⟩
  · rintro ⟨hlt, hcase⟩
    refine limitTruncates_of_take hlt ?_
    -- from 256 on both listings have pages of 1024 keys
    rcases Nat.lt_or_ge limit.toNat 256 with hsmall | hlarge
    · by_cases hzero : limit.toNat = 0
      · rw [hzero, List.take_zero, List.take_zero]
      · have hsize : min (max limit.toNat 1 * 4) defaultPageSize = 4 * limit.toNat := by
          unfold defaultPageSize
          omega
        cases recursive with
        | true =>
          rw [hsize, take_entriesInPages_recursive (by omega) (by omega),
            take_entriesInPages_recursive (by decide) (by unfold defaultPageSize; omega)]
        | false =>
          rcases hcase with hrec | hzero' | hlarge | ⟨m, hcomplete, hshort, hfull⟩
          · cases hrec
          · exact absurd hzero' hzero
          · omega
          · rw [hsize, take_entriesInPages_of_ordered (by omega) hcomplete hshort]
            exact (take_entriesInPages_of_ordered (by decide) hcomplete hfull).symm
    · have hsize : min (max limit.toNat 1 * 4) defaultPageSize = defaultPageSize := by
        unfold defaultPageSize
        omega
      rw [hsize]
  · intro h
    by_contra hge
    obtain ⟨-, es, -, hes, -⟩ := h .debug
    obtain ⟨n, hn, -⟩ := listing_iff.1 hes
    rw [listPageSize_debug (by omega)] at hn
    cases hn
  · intro _ hcase
    simp only [not_or] at hcase
    obtain ⟨-, hzero, -, hord⟩ := hcase
    rw [pagesOf, pagesOf, if_neg (by omega), if_neg (by decide)]
    exact exists_lost_of_not_limitOrdered (listKeys_nodup O s root path _) (by omega) hord

/-! ## A limit that overflows -/

/-- A store with one file. -/
def oneFileStores : Stores where
  store := OrderedStore.empty.put (KeyAndValue.toValue ⟨"a".toList, []⟩)
  metaStore := .empty

theorem listKeys_oneFileStores :
    listKeys referenceOpendal oneFileStores .slash ['/'] ⟨none, none, true⟩ = ["a".toList] := by
  decide

/-- A release build lists the file without a limit, and nothing with a
limit of 2^30. -/
theorem limit_wraps : ¬ LimitTruncates referenceOpendal referencePlatform oneFileStores .slash ['/']
    none true (.ofNat (2 ^ 30)) := by
  intro h
  obtain ⟨full, es, hfull, hes, heq⟩ := h .release
  have hnil : es = [] := hes.unique (listing_release_wrapped (by decide) (by decide))
  have hlen : full.length = 1 := by
    obtain ⟨n, hn, rfl⟩ := listing_iff.1 hfull
    cases hn
    rw [cutAt, entriesOf, referenceOpendal.hierarchy_recursive, pagesOf, if_neg (by decide),
      listKeys_oneFileStores, paged_of_lt (by decide)]
    rfl
  have hmin : min (UInt32.ofNat (2 ^ 30)).toNat full.length = full.length := by
    rw [hlen]
    decide
  rw [hnil, hmin, List.take_length] at heq
  rw [← heq] at hlen
  cases hlen

/-- A store whose fifth key stands behind the fourth, and below it in the
order of Rust strings. -/
def fiveFilesStores : Stores where
  store := (["a".toList, "b".toList, "c".toList, [Char.ofNat 0x10000], [Char.ofNat 0xE000]].map
    fun k => KeyAndValue.toValue ⟨k, []⟩).foldl OrderedStore.put .empty
  metaStore := .empty

/-- A limit of one is in order there, as the page of four keys that loses
the fifth is not left. -/
theorem limit_one_truncates :
    LimitTruncates referenceOpendal referencePlatform fiveFilesStores .slash ['/'] none false 1 ∧
      ¬ PageOrdered pointRank 4
        (listKeys referenceOpendal fiveFilesStores .slash ['/'] ⟨none, none, false⟩) := by
  have hkeys : listKeys referenceOpendal fiveFilesStores .slash ['/'] ⟨none, none, false⟩ =
      ["a".toList, "b".toList, "c".toList, [Char.ofNat 0x10000], [Char.ofNat 0xE000]] := by
    decide
  constructor
  · refine (limitTruncates_of_lt _ _ _ _ _ _ _ _).1
      ⟨by decide, .inr (.inr (.inr ⟨1, .inr ⟨.inl rfl, ?_⟩, ?_⟩))⟩
    · rw [hkeys]
      decide
    · rw [hkeys]
      exact ⟨pageOrdered_of_pairwise (by decide) (List.pairwise_singleton _ _),
        pageOrdered_of_pairwise (by decide) (List.pairwise_singleton _ _)⟩
  · rw [hkeys]
    intro h
    exact absurd (h 4 _ _ le_rfl rfl rfl) (by decide)

end OpendalIndexeddb
