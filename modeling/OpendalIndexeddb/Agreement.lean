import OpendalIndexeddb.Conditions
import OpendalIndexeddb.Hierarchy
/-!
# One answer about a file

`stat`, `read` and a page scan each join the two stores by branches of
their own, and a scan of many keys reads their sidecars with one cursor.
For a file they come to the same: the same outcome under the same
conditions, and the same metadata whoever asks, on whatever page.
-/

namespace OpendalIndexeddb

open IndexeddbCore

variable {O : Opendal} {P : Platform} {s : Stores} {root : Root} {path k : Str}

/-! ## Files -/

/-- A path to a file, as OpenDAL passes it on. -/
structure FilePath (path : Str) : Prop where
  ne_nil : path ≠ []
  head : path.head? ≠ some '/'
  last : path.getLast? ≠ some '/'

theorem FilePath.buildAbsPath_eq (O : Opendal) (root : Root) (h : FilePath path) :
    O.buildAbsPath root.text path = root.text.tail ++ path := O.abs_path root path h.head

/-- A file is not the root. -/
theorem FilePath.ne_root (O : Opendal) (root : Root) (h : FilePath path) :
    O.buildAbsPath root.text path ≠ O.buildAbsPath root.text [] := by
  rw [h.buildAbsPath_eq, O.abs_path root [] (by simp), List.append_nil]
  simpa using h.ne_nil

/-- The key of a file does not end in `/` either. -/
theorem FilePath.getLast?_key (O : Opendal) (root : Root) (h : FilePath path) :
    (O.buildAbsPath root.text path).getLast? ≠ some '/' := by
  rw [h.buildAbsPath_eq, List.getLast?_append_of_ne_nil _ h.ne_nil]
  exact h.last

/-! ## `stat` and `read` -/

/-- A `stat` and a `read` come to the same: nothing there, a failed
condition, or the same metadata. -/
inductive SameOutcome : Except Error Metadata → Except Error (Metadata × Bytes) → Prop
  | notFound {err err' : Error} : err.kind = .notFound → err'.kind = .notFound →
      SameOutcome (.error err) (.error err')
  | conditionNotMatch {err err' : Error} : err.kind = .conditionNotMatch →
      err'.kind = .conditionNotMatch → SameOutcome (.error err) (.error err')
  | found (md : Metadata) (bytes : Bytes) : SameOutcome (.ok md) (.ok (md, bytes))

theorem kind_of_checkModified {info : EntryInfo} {since till : Option Timestamp} {err : Error}
    (h : checkModified P info since till = .error err) : err.kind = .conditionNotMatch := by
  rw [checkModified] at h
  cases hlast : lastModified P info with
  | none =>
    rw [hlast] at h
    cases h
  | some last =>
    rw [hlast] at h
    simp only at h
    split_ifs at h <;> cases h <;> rfl

theorem kind_of_checkEtag {info : EntryInfo} {ifMatch ifNoneMatch : Option Str} {err : Error}
    (h : checkEtag info ifMatch ifNoneMatch = .error err) : err.kind = .conditionNotMatch := by
  rw [checkEtag] at h
  split_ifs at h <;> cases h <;> rfl

/-- **`stat` and `read` decide alike**, with existence before the
conditions. The conditions of a read are checked before its record is
fetched or after; both look at the entry of the view. -/
theorem stat_read_same (hroot : O.buildAbsPath root.text path ≠ O.buildAbsPath root.text [])
    (hbytes : HoldsBytes s (O.buildAbsPath root.text path)) (ifMatch ifNoneMatch : Option Str)
    (since till : Option Timestamp) (range : ReadRange) :
    SameOutcome (IndexeddbBackend.stat O P root path ⟨ifMatch, ifNoneMatch, since, till⟩ s)
      (IndexeddbBackend.read O P root path ⟨ifMatch, ifNoneMatch, since, till, range⟩ s) := by
  simp only [IndexeddbBackend.stat, if_neg hroot, stat_eq_view, IndexeddbBackend.read,
    read_eq_view]
  cases hview : s.view (O.buildAbsPath root.text path) with
  | none => exact .notFound rfl rfl
  | some e =>
    obtain ⟨v, hv, rfl⟩ := Option.map_eq_some_iff.1 hview
    obtain ⟨bytes, hvalue⟩ := hbytes v hv
    simp only [Option.map_some, readView, checkRead]
    cases hmodified : checkModified P (viewInfo P (v, readMeta s.metaStore
        (O.buildAbsPath root.text path))) since till with
    | error err =>
      have hkind := kind_of_checkModified hmodified
      exact .conditionNotMatch hkind hkind
    | ok =>
      cases hetag : checkEtag (viewInfo P (v, readMeta s.metaStore
          (O.buildAbsPath root.text path))) ifMatch ifNoneMatch with
      | error err =>
        have hkind := kind_of_checkEtag hetag
        exact .conditionNotMatch hkind hkind
      | ok =>
        simp only [readValue_of_bytes hvalue]
        exact .found _ _

/-! ## Scans -/

/-- A scan lists a file with the entry `stat` finds. -/
theorem stat_of_mem_page {req : ScanPageRequest} {page : ScanPage} {info : EntryInfo}
    (h : scanPage P req s = some page) (hk : k.getLast? ≠ some '/')
    (hmem : (k, info) ∈ page.entries) : stat P k s = some info := by
  obtain ⟨st, done, hfound, rfl⟩ := page_entries h
  obtain ⟨k', hk', heq⟩ := List.mem_map.1 hmem
  cases heq
  have hpresent := contains_of_mem_scanKeys hfound hk'
  rw [← view_isSome] at hpresent
  obtain ⟨e, hview⟩ := Option.isSome_iff_exists.1 hpresent
  rw [stat_eq_view, hview, listedInfo, if_neg fun hmarker => hk hmarker.2]
  rfl

/-- **What a page covers**: the keys its request selects, up to the last
of a page that is not the last one. -/
def Covers (req : ScanPageRequest) (page : ScanPage) (k : Str) : Prop :=
  req.selects k = true ∧ (page.done = false →
    ∃ last, page.nextStartAfter = some last ∧ unitRank k ≤ unitRank last)

/-- A page holds every key of the store that it covers. -/
theorem mem_page_of_covers {req : ScanPageRequest} {page : ScanPage} (hlimit : 0 < req.limit)
    (hreach : req.SkipReached) (h : scanPage P req s = some page) (hcovers : Covers req page k)
    (hpresent : s.store.contains (.text k) = true) :
    (k, entryInfoForKey P s k none) ∈ page.entries := by
  obtain ⟨hentries, hdone, -, hresume⟩ := scanPage_spec hlimit hreach h
  have hmem : k ∈ pageKeys s.store req :=
    List.mem_filter.2 ⟨mem_textKeys_iff.2 hpresent, hcovers.1⟩
  rw [hentries]
  refine List.mem_map_of_mem ?_
  cases hd : page.done with
  | true =>
    rw [hd, eq_comm, decide_eq_true_iff] at hdone
    rwa [List.take_of_length_le (le_of_lt hdone)]
  | false =>
    -- the keys up to the last of the page are on the page
    obtain ⟨last, hlast, hle⟩ := hcovers.2 hd
    rw [hresume hd] at hlast
    have hsplit := List.take_append_drop req.limit (pageKeys s.store req)
    rw [← hsplit] at hmem
    refine (List.mem_append.1 hmem).resolve_right fun hdrop => ?_
    have hsorted := pageKeys_sorted s.store req
    rw [← hsplit] at hsorted
    have hlt := (List.pairwise_append.1 hsorted).2.2 last (List.mem_of_getLast? hlast) k hdrop
    exact absurd hle (not_le.2 hlt)

/-- **`stat`, `read` and a scan agree on a file.** -/
theorem stat_read_scan_agree (O : Opendal) (P : Platform) (s : Stores) (root : Root)
    (hpath : FilePath path) (hbytes : HoldsBytes s (O.buildAbsPath root.text path)) :
    (∀ ifMatch ifNoneMatch since till range,
      SameOutcome (IndexeddbBackend.stat O P root path ⟨ifMatch, ifNoneMatch, since, till⟩ s)
        (IndexeddbBackend.read O P root path ⟨ifMatch, ifNoneMatch, since, till, range⟩ s)) ∧
    ∀ req page, scanPage P req s = some page →
      (∀ info, (O.buildAbsPath root.text path, info) ∈ page.entries →
        info = entryInfoForKey P s (O.buildAbsPath root.text path) none ∧
        plainStat O P root path s = .ok (entryMetadata P path info)) ∧
      (0 < req.limit → req.SkipReached → Covers req page (O.buildAbsPath root.text path) →
        ((∃ info, (O.buildAbsPath root.text path, info) ∈ page.entries) ↔
          ∃ md, plainStat O P root path s = .ok md)) := by
  have hroot := hpath.ne_root O root
  refine ⟨fun ifMatch ifNoneMatch since till range =>
    stat_read_same hroot hbytes ifMatch ifNoneMatch since till range, fun req page hpage => ?_⟩
  have hlisted : ∀ info, (O.buildAbsPath root.text path, info) ∈ page.entries →
      info = entryInfoForKey P s (O.buildAbsPath root.text path) none ∧
        plainStat O P root path s = .ok (entryMetadata P path info) := by
    intro info hinfo
    have hstat := stat_of_mem_page hpage (hpath.getLast?_key O root) hinfo
    rw [stat_eq_view] at hstat
    obtain ⟨e, hview, rfl⟩ := Option.map_eq_some_iff.1 hstat
    have hpresent : s.store.contains (.text (O.buildAbsPath root.text path)) = true := by
      rw [← view_isSome, hview]
      rfl
    rw [entryInfoForKey_eq_view hpresent, hview, plainStat_eq hroot, hview, listedInfo,
      if_neg fun hmarker => hpath.getLast?_key O root hmarker.2]
    exact ⟨rfl, rfl⟩
  refine ⟨hlisted, fun hlimit hreach hcovers => ⟨?_, ?_⟩⟩
  · rintro ⟨info, hinfo⟩
    exact ⟨_, (hlisted info hinfo).2⟩
  · rintro ⟨md, hmd⟩
    refine ⟨_, mem_page_of_covers hlimit hreach hpage hcovers ?_⟩
    rw [← view_isSome]
    -- `stat` finds nothing where there is no record
    cases hview : s.view (O.buildAbsPath root.text path) with
    | none => simp [plainStat_eq hroot, hview] at hmd
    | some e => rfl

/-- A file without a sidecar: `stat` and `read` fail the same condition,
and a scan of the store lists it with what `stat` finds. -/
theorem stat_read_scan_agree_legacy :
    SameOutcome
      (IndexeddbBackend.stat referenceOpendal referencePlatform .slash ['a']
        ⟨none, some ['*'], none, none⟩ legacyStores)
      (IndexeddbBackend.read referenceOpendal referencePlatform .slash ['a']
        ⟨none, some ['*'], none, none, ⟨0, none⟩⟩ legacyStores) ∧
    ∀ page, scanPage referencePlatform ⟨[], none, none, 2⟩ legacyStores = some page →
      ∀ info, (['a'], info) ∈ page.entries →
        plainStat referenceOpendal referencePlatform .slash ['a'] legacyStores =
          .ok (entryMetadata referencePlatform ['a'] info) := by
  have hbytes : HoldsBytes legacyStores ['a'] := fun v hv => ⟨[0], by
    rw [← Option.some_inj.1 hv]
    rfl⟩
  have hpath : FilePath ['a'] := ⟨by decide, by decide, by decide⟩
  have hagree := stat_read_scan_agree referenceOpendal referencePlatform legacyStores .slash hpath
    hbytes
  exact ⟨hagree.1 _ _ _ _ _, fun page hpage info hinfo => ((hagree.2 _ page hpage).1 info hinfo).2⟩

/-! ## The join of a page with its sidecars -/

/-- **A page's metadata are the lookups of its keys.** The keys are found
in the data store alone. Whatever they are, one cursor over the range of
their sidecars gives each the entry it gets when it is looked up on its
own: so a key has one entry, on a page of any size, among whichever keys. -/
theorem page_eq_lookups (P : Platform) (s : Stores) :
    (∀ keys, joinMetas P s keys (prefetchMetas s.metaStore keys) =
      keys.map fun k => (k, entryInfoForKey P s k none)) ∧
    (∀ req page, scanPage P req s = some page → ∃ st done,
      scanKeys s.store req = some (st, done) ∧
        page.entries = st.keys.map fun k => (k, entryInfoForKey P s k none)) ∧
    ∀ req req' page page', scanPage P req s = some page → scanPage P req' s = some page' →
      ∀ k info info', (k, info) ∈ page.entries → (k, info') ∈ page'.entries → info = info' := by
  have hpage : ∀ req page, scanPage P req s = some page → ∃ st done,
      scanKeys s.store req = some (st, done) ∧
        page.entries = st.keys.map fun k => (k, entryInfoForKey P s k none) := by
    intro req page h
    obtain ⟨st, done, hfound, rfl⟩ := page_entries h
    refine ⟨st, done, hfound, List.map_congr_left ?_⟩
    intro k hk
    rw [entryInfoForKey_eq_view (contains_of_mem_scanKeys hfound hk)]
  have hentry : ∀ req page, scanPage P req s = some page → ∀ k info, (k, info) ∈ page.entries →
      info = entryInfoForKey P s k none := by
    intro req page h k info hinfo
    obtain ⟨st, -, -, hentries⟩ := hpage req page h
    rw [hentries] at hinfo
    obtain ⟨k', -, heq⟩ := List.mem_map.1 hinfo
    cases heq
    rfl
  refine ⟨fun keys => joinMetas_eq fun kr hkr => readMeta_of_mem_prefetchMetas hkr, hpage, ?_⟩
  intro req req' page page' h h' k info info' hinfo hinfo'
  rw [hentry req page h k info hinfo, hentry req' page' h' k info' hinfo']

end OpendalIndexeddb
