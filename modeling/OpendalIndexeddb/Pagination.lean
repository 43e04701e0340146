import OpendalIndexeddb.Hierarchy
import OpendalIndexeddb.Limit
/-!
# Client-driven pagination

A client lists with a limit, then again from the last entry it received,
until an empty page comes back. Over normalized keys off the
supplementary planes it receives the whole listing, each entry once: the
last entry of a page is a name, and resuming behind a name is resuming
behind its keys.
-/

namespace OpendalIndexeddb

open IndexeddbCore IndexeddbBackend

/-- What a client receives that lists with a limit from a resume point,
and on from the last entry of each page until one is empty. -/
inductive ClientPages (O : Opendal) (P : Platform) (build : Build) (s : Stores) (root : Root)
    (path : Str) (recursive : Bool) (limit : UInt32) : Option Str → List Entry → Prop
  | stop {startAfter : Option Str} :
      Listing O P build s root path ⟨some limit, startAfter, recursive⟩ [] →
      ClientPages O P build s root path recursive limit startAfter []
  | more {startAfter : Option Str} {es rest : List Entry} {last : Entry} :
      Listing O P build s root path ⟨some limit, startAfter, recursive⟩ es →
      es.getLast? = some last →
      ClientPages O P build s root path recursive limit (some last.path) rest →
      ClientPages O P build s root path recursive limit startAfter (es ++ rest)

/-- Whether the string keys of the store are off the supplementary
planes. -/
def BmpKeys (s : Stores) : Prop := ∀ k ∈ textKeys s.store, ∀ c ∈ k, c.toNat < 0x10000

variable {O : Opendal} {P : Platform} {s : Stores} {root : Root} {path : Str}
variable {recursive : Bool} {build : Build} {limit : UInt32} {k : Str}

/-- There the two orders agree, and pages lose nothing. -/
theorem pageOrdered_of_bmp (hbmp : BmpKeys s) {ks : List Str} {n : ℕ} (hn : 0 < n)
    (hks : List.Sublist ks (textKeys s.store)) : PageOrdered pointRank n ks := by
  refine pageOrdered_of_pairwise hn ?_
  refine ((textKeys_sorted s.store).sublist hks).imp_of_mem fun {a b} ha hb hab => ?_
  exact (unitRank_lt_iff_of_bmp (hbmp a (hks.subset ha)) (hbmp b (hks.subset hb))).1 hab

/-- **A listing over such keys shows every name.** -/
theorem listing_iff_named (hpath : RelativePath path) (hkeys : NormalKeys s) (hbmp : BmpKeys s)
    {args : OpList} {n : ℕ} (hn : 0 < n) (hsize : listPageSize build args.limit = some n)
    {es : List Entry} : Listing O P build s root path args es ↔
      es = cutAt args.limit ((namedKeys args.recursive (root.text.tail ++ listBase path)
        (listKeys O s root path args)).map (nameEntry O P s root path args.recursive)) := by
  have hsub := listKeys_sublist O s root path args
  have hpaged : pagesOf n (listKeys O s root path args) = listKeys O s root path args := by
    rw [pagesOf, if_neg (by omega), paged_eq_self_iff hn]
    exact pageOrdered_of_bmp hbmp hn (hsub.trans List.filter_sublist)
  have hshown : ∀ k ∈ listKeys O s root path args, Shown root path k := by
    intro k hk
    exact shown_of_mem_keysUnder hkeys (buildAbsPath_eq O root hpath ▸ hsub.subset hk)
  have hnodup := listKeys_nodup O s root path args
  rw [listing_iff]
  constructor
  · rintro ⟨n', hn', rfl⟩
    rw [hsize, Option.some_inj] at hn'
    subst hn'
    rw [hpaged, entriesOf_eq args.recursive hshown hnodup]
    rfl
  · rintro rfl
    refine ⟨n, hsize, ?_⟩
    rw [hpaged, entriesOf_eq args.recursive hshown hnodup]
    rfl

/-- A name is off the supplementary planes as its key is. -/
theorem bmp_nameOf (recursive : Bool) {p : Str} (hk : ∀ c ∈ k, c.toNat < 0x10000) (hpre : p <+: k) :
    ∀ c ∈ nameOf recursive p k, c.toNat < 0x10000 := by
  intro c hc
  exact hk c ((nameOf_isPrefix recursive hpre).subset hc)

/-- **Resuming from an entry of the listing leaves the names above it.** -/
theorem listKeys_resume (hpath : RelativePath path) (hkeys : NormalKeys s) (hbmp : BmpKeys s)
    (limit : Option UInt32) (hk : k ∈ keysUnder s (root.text.tail ++ listBase path)) :
    listKeys O s root path ⟨limit, some (nameEntry O P s root path recursive k).path, recursive⟩ =
      (keysUnder s (root.text.tail ++ listBase path)).filter fun x =>
        decide (unitRank (nameOf recursive (root.text.tail ++ listBase path) k) <
          unitRank (nameOf recursive (root.text.tail ++ listBase path) x)) := by
  have hshown := shown_of_mem_keysUnder hkeys hk
  have hpre := isPrefix_of_mem_keysUnder hk
  have habs : O.buildAbsPath root.text (nameEntry O P s root path recursive k).path =
      nameOf recursive (root.text.tail ++ listBase path) k := by
    rw [O.abs_path _ _ (head?_path_nameEntry hshown), path_nameEntry hshown]
  rw [listKeys_eq_filter, buildAbsPath_eq O root hpath]
  generalize hp : root.text.tail ++ listBase path = p at hpre habs hk ⊢
  refine List.filter_congr ?_
  intro x hx
  have hpx := isPrefix_of_mem_keysUnder hx
  have hbmp' : ∀ y ∈ keysUnder s p, ∀ c ∈ y, c.toNat < 0x10000 := by
    intro y hy
    exact hbmp y (List.mem_filter.1 hy).1
  have horder := unitRank_lt_iff_of_bmp (bmp_nameOf recursive (hbmp' k hk) hpre) (hbmp' x hx)
  have hiff := lt_nameOf_iff (S := nameOf recursive p k) recursive hpx ?_ ?_
  · rw [Bool.eq_iff_iff, behind_iff, decide_eq_true_iff, hiff]
    simp only [Option.some.injEq, forall_eq', habs]
    constructor
    · rintro ⟨hlt, -, hskip⟩
      exact ⟨horder.2 hlt, hskip⟩
    · rintro ⟨hlt, hskip⟩
      exact ⟨horder.1 hlt, fun _ => hlt, hskip⟩
  · rintro rfl -
    exact childOf_childOf hpre
  · rintro rfl hslash -
    refine ⟨isPrefix_childOf hpre, ?_⟩
    intro heq
    -- a name at the listed path is the marker, which is not listed
    have hkp : k = p := eq_of_nameOf_eq false hpre heq
    have hmark := (List.mem_filter.1 hk).2
    rw [heq] at hslash
    simp [hkp, hslash] at hmark

/-! ## The client's run -/

/-- The entries of the whole listing, by their keys. -/
def fullKeys (s : Stores) (root : Root) (path : Str) (recursive : Bool) : List Str :=
  namedKeys recursive (root.text.tail ++ listBase path)
    (keysUnder s (root.text.tail ++ listBase path))

/-- **Where a client is**: it has the entries of the keys before `rest`,
and resumes from the last of them. -/
def Resumes (O : Opendal) (P : Platform) (s : Stores) (root : Root) (path : Str)
    (recursive : Bool) (startAfter : Option Str) (rest : List Str) : Prop :=
  (startAfter = none ∧ fullKeys s root path recursive = rest) ∨
  ∃ before k, fullKeys s root path recursive = before ++ k :: rest ∧
    startAfter = some (nameEntry O P s root path recursive k).path

/-- The page a client receives: the next entries. -/
theorem listing_of_resumes (hpath : RelativePath path) (hkeys : NormalKeys s) (hbmp : BmpKeys s)
    (hlimit : limit.toNat < 2 ^ 30) {startAfter : Option Str} {rest : List Str} {es : List Entry}
    (h : Resumes O P s root path recursive startAfter rest) :
    Listing O P build s root path ⟨some limit, startAfter, recursive⟩ es ↔
      es = (rest.take limit.toNat).map (nameEntry O P s root path recursive) := by
  have hsize := listPageSize_of_lt build hlimit
  have hpos : 0 < min (max limit.toNat 1 * 4) defaultPageSize := by
    unfold defaultPageSize
    omega
  have hnames : namedKeys recursive (root.text.tail ++ listBase path)
      (listKeys O s root path ⟨some limit, startAfter, recursive⟩) = rest := by
    rcases h with ⟨rfl, hfull⟩ | ⟨before, k, hfull, rfl⟩
    · rw [listKeys_none, buildAbsPath_eq O root hpath]
      exact hfull
    · have hmem : k ∈ keysUnder s (root.text.tail ++ listBase path) :=
        (firstsFrom_sublist _ [] _).subset
          (show k ∈ fullKeys s root path recursive from hfull ▸ by simp)
      rw [listKeys_resume hpath hkeys hbmp (some limit) hmem]
      have hsorted := namedKeys_sorted recursive (root.text.tail ++ listBase path)
        (fun _ => isPrefix_of_mem_keysUnder) (keysUnder_sorted s _)
      change (fullKeys s root path recursive).Pairwise _ at hsorted
      rw [hfull] at hsorted
      -- the names are in strict order, so those above the last one are the rest
      rw [← filter_eq_of_sorted hsorted fun x => decide_eq_true_iff, ← hfull]
      exact (filter_namedKeys recursive _ _ fun name => decide (unitRank (nameOf recursive
        (root.text.tail ++ listBase path) k) < unitRank name)).symm
  rw [listing_iff_named hpath hkeys hbmp hpos hsize, hnames, cutAt, List.map_take]

/-- Behind a page that is not empty the client is at the page's last
entry. -/
theorem Resumes.next {startAfter : Option Str} {rest : List Str} {n : ℕ} (hn : 1 ≤ n)
    (hne : rest ≠ []) (h : Resumes O P s root path recursive startAfter rest) :
    ∃ last, ((rest.take n).map (nameEntry O P s root path recursive)).getLast? = some last ∧
      Resumes O P s root path recursive (some last.path) (rest.drop n) := by
  have htake : rest.take n ≠ [] := by
    rw [ne_eq, List.take_eq_nil_iff]
    rintro (h0 | h0)
    · omega
    · exact hne h0
  obtain ⟨before', k', hpage⟩ := (List.eq_nil_or_concat' (rest.take n)).resolve_left htake
  have hrest : rest = before' ++ k' :: rest.drop n := by
    conv_lhs => rw [← List.take_append_drop n rest, hpage, List.append_assoc,
      List.singleton_append]
  refine ⟨nameEntry O P s root path recursive k', by simp [hpage], Or.inr ?_⟩
  rcases h with ⟨-, hfull⟩ | ⟨before, k, hfull, -⟩
  · exact ⟨before', k', hfull.trans hrest, rfl⟩
  · refine ⟨before ++ k :: before', k', ?_, rfl⟩
    rw [hfull, List.append_assoc, List.cons_append, ← hrest]

/-- **A client receives what it has left to receive.** -/
theorem clientPages_of_resumes (build : Build) (hpath : RelativePath path) (hkeys : NormalKeys s)
    (hbmp : BmpKeys s) (hone : 1 ≤ limit.toNat) (hlimit : limit.toNat < 2 ^ 30)
    {startAfter : Option Str} {rest : List Str}
    (h : Resumes O P s root path recursive startAfter rest) :
    ClientPages O P build s root path recursive limit startAfter
      (rest.map (nameEntry O P s root path recursive)) := by
  -- each page that is not empty leaves fewer entries to receive
  induction hlen : rest.length using Nat.strong_induction_on generalizing startAfter rest with
  | _ n ih =>
    subst hlen
    have hpage : Listing O P build s root path ⟨some limit, startAfter, recursive⟩
        ((rest.take limit.toNat).map (nameEntry O P s root path recursive)) :=
      (listing_of_resumes hpath hkeys hbmp hlimit h).2 rfl
    by_cases hne : rest = []
    · subst hne
      rw [List.take_nil] at hpage
      exact .stop hpage
    · obtain ⟨last, hlast, hnext⟩ := h.next hone hne
      have hpos := List.length_pos_iff.2 hne
      have hrest := ih _ (by rw [List.length_drop]; omega) hnext rfl
      have hmore := ClientPages.more hpage hlast hrest
      rwa [← List.map_append, List.take_append_drop] at hmore

/-- It receives nothing else. -/
theorem eq_of_clientPages {build : Build} (hpath : RelativePath path) (hkeys : NormalKeys s)
    (hbmp : BmpKeys s) (hone : 1 ≤ limit.toNat) (hlimit : limit.toNat < 2 ^ 30)
    {startAfter : Option Str} {rest : List Str} {total : List Entry}
    (hpages : ClientPages O P build s root path recursive limit startAfter total)
    (h : Resumes O P s root path recursive startAfter rest) :
    total = rest.map (nameEntry O P s root path recursive) := by
  induction hpages generalizing rest with
  | stop hpage =>
    have hnil := (listing_of_resumes hpath hkeys hbmp hlimit h).1 hpage
    -- an empty page with a limit of one at least: nothing is left
    have htake := List.map_eq_nil_iff.1 hnil.symm
    rcases List.take_eq_nil_iff.1 htake with h0 | h0
    · omega
    · rw [h0, List.map_nil]
  | more hpage hlast _ ih =>
    have hes := (listing_of_resumes hpath hkeys hbmp hlimit h).1 hpage
    have hne : rest ≠ [] := by
      rintro rfl
      rw [List.take_nil, List.map_nil] at hes
      rw [hes] at hlast
      cases hlast
    obtain ⟨last', hlast', hnext⟩ := h.next hone hne
    rw [hes, hlast', Option.some_inj] at hlast
    subst hlast
    rw [hes, ih hnext, ← List.map_append, List.take_append_drop]

/-- **Client-driven pagination yields the listing.** Over normalized keys
off the supplementary planes a client that resumes from the last entry
it received gets the entries of the unlimited listing, whatever its
limit; no path occurs twice, and every key is shown. -/
theorem client_pages_eq_listing (O : Opendal) (P : Platform) (build : Build) (s : Stores)
    (root : Root) (path : Str) (recursive : Bool) (limit : UInt32) (hpath : RelativePath path)
    (hkeys : NormalKeys s) (hbmp : BmpKeys s) (hone : 1 ≤ limit.toNat)
    (hlimit : limit.toNat < 2 ^ 30) :
    ∃ full, Listing O P build s root path ⟨none, none, recursive⟩ full ∧
      (∀ total, ClientPages O P build s root path recursive limit none total ↔ total = full) ∧
      (full.map Entry.path).Nodup ∧
      ∀ k ∈ keysUnder s (O.buildAbsPath root.text path), ∃ e ∈ full,
        root.text.tail ++ e.path = nameOf recursive (O.buildAbsPath root.text path) k := by
  have hstart : Resumes O P s root path recursive none (fullKeys s root path recursive) :=
    Or.inl ⟨rfl, rfl⟩
  have hshown : ∀ k ∈ fullKeys s root path recursive, Shown root path k := by
    intro k hk
    exact shown_of_mem_keysUnder hkeys ((firstsFrom_sublist _ [] _).subset hk)
  refine ⟨(fullKeys s root path recursive).map (nameEntry O P s root path recursive), ?_,
    fun total => ⟨fun h => eq_of_clientPages hpath hkeys hbmp hone hlimit h hstart, ?_⟩, ?_, ?_⟩
  · have hpos : 0 < defaultPageSize := by decide
    rw [listing_iff_named hpath hkeys hbmp hpos rfl, listKeys_none, buildAbsPath_eq O root hpath]
    rfl
  · rintro rfl
    exact clientPages_of_resumes build hpath hkeys hbmp hone hlimit hstart
  · have hsorted := namedKeys_sorted recursive (root.text.tail ++ listBase path)
      (fun _ => isPrefix_of_mem_keysUnder) (keysUnder_sorted s _)
    rw [List.Nodup, List.pairwise_map, List.pairwise_map]
    refine hsorted.imp_of_mem fun {a b} ha hb hab heq => ?_
    have hname := congrArg (root.text.tail ++ ·) heq
    simp only [path_nameEntry (hshown a ha), path_nameEntry (hshown b hb)] at hname
    rw [hname] at hab
    exact lt_irrefl _ hab
  · intro k hk
    rw [buildAbsPath_eq O root hpath] at hk ⊢
    obtain ⟨k', hk', hname⟩ := exists_namedKeys recursive hk
    exact ⟨_, List.mem_map_of_mem hk', (path_nameEntry (hshown k' hk')).trans hname⟩

/-! ## A directory between its siblings -/

/-- A store with the keys `sub`, `sub-x`, `sub/a`, `sub/b` and `sub0`. -/
def siblingStores : Stores where
  store := ["sub", "sub-x", "sub/a", "sub/b", "sub0"].foldl
    (fun store k => store.put (KeyAndValue.toValue ⟨k.toList, []⟩)) .empty
  metaStore := .empty

theorem bmpKeys_siblingStores : BmpKeys siblingStores := by
  have hall : ((textKeys siblingStores.store).all fun k => k.all fun c => c.toNat < 0x10000) := by
    decide
  simpa [BmpKeys] using hall

theorem client_pages_siblings :
    ∃ full, Listing referenceOpendal referencePlatform .release siblingStores .slash ['/']
        ⟨none, none, false⟩ full ∧
      (∀ total, ClientPages referenceOpendal referencePlatform .release siblingStores .slash ['/']
        false 1 none total ↔ total = full) ∧
      (full.map Entry.path).Nodup ∧
      ∀ k ∈ keysUnder siblingStores (referenceOpendal.buildAbsPath Root.slash.text ['/']),
        ∃ e ∈ full, Root.slash.text.tail ++ e.path =
          nameOf false (referenceOpendal.buildAbsPath Root.slash.text ['/']) k :=
  client_pages_eq_listing _ _ _ _ _ _ _ _ (Or.inl rfl)
    (by unfold NormalKeys Normal; decide) bmpKeys_siblingStores (by decide) (by decide)

end OpendalIndexeddb
