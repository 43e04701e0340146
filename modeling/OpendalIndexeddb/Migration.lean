import OpendalIndexeddb.Bisimulation
import OpendalIndexeddb.Model.Reference
/-!
# Legacy records behave as migrated ones

A record from before the meta store has no sidecar, a later one may have
a sidecar without an ETag. Each operation makes up for what is missing on
its own. They are compared here with the same operations over stores
where every sidecar was completed beforehand. The two agree but for one
place: a listing does not look at the record of a legacy directory
marker, and leaves its ETag out.
-/

namespace OpendalIndexeddb

open IndexeddbCore

variable {O : Opendal} {P : Platform} {s t s' t' : Stores} {k path : Str} {bytes : Bytes}

/-! ## Completed sidecars -/

/-- A sidecar and its completion, over a record of these bytes. -/
inductive Completes (P : Platform) (k : Str) (bytes : Bytes) :
    Option MetaRecord → Option MetaRecord → Prop
  /-- A sidecar with an ETag is complete. -/
  | full {r : MetaRecord} : r.e.isSome = true → Completes P k bytes (some r) (some r)
  /-- A sidecar without one has the right length. -/
  | etag {r : MetaRecord} : r.e = none → r.l = Number.ofNat bytes.length →
      bytes.length < 2 ^ 53 →
      Completes P k bytes (some r) (some { r with e := some (etagFromBytes P bytes) })
  /-- There is no sidecar, or none that can be decoded. -/
  | missing : bytes.length < 2 ^ 53 → Completes P k bytes none
      (some ⟨k, Number.ofNat bytes.length, none, some (etagFromBytes P bytes), none, none⟩)

/-- The second state is the first with its sidecars completed. All records
hold bytes. -/
structure Migrated (P : Platform) (s t : Stores) : Prop where
  store : t.store = s.store
  record : ∀ k v, s.store.get (.text k) = some v → ∃ bytes, v.v = .uint8Array bytes ∧
    Completes P k bytes (readMeta s.metaStore k) (readMeta t.metaStore k)
  /-- Sidecars without a record are left as they are, and so are those
  under keys that are no strings. -/
  other : ∀ key, (∀ k, key = .text k → s.store.contains key = false) →
    t.metaStore.get key = s.metaStore.get key

/-! ## Entries that cannot be told apart -/

/-- The same to everything that is made of an entry; missing content
metadata is the same as empty ones. -/
structure SameEntry (i j : EntryInfo) : Prop where
  size : i.entryMeta.size = j.entryMeta.size
  lastModifiedMs : i.entryMeta.lastModifiedMs = j.entryMeta.lastModifiedMs
  etag : i.entryMeta.etag = j.entryMeta.etag
  contentType : i.entryMeta.content.bind (·.contentType) = j.entryMeta.content.bind (·.contentType)
  userMetadata : i.entryMeta.content.bind (·.userMetadata) =
    j.entryMeta.content.bind (·.userMetadata)

namespace SameEntry

variable {i j : EntryInfo}

theorem refl (i : EntryInfo) : SameEntry i i := ⟨rfl, rfl, rfl, rfl, rfl⟩

theorem lastModified_eq (h : SameEntry i j) : lastModified P i = lastModified P j := by
  rw [lastModified, lastModified, h.lastModifiedMs]

theorem entryMetadata_eq (h : SameEntry i j) (path : Str) :
    entryMetadata P path i = entryMetadata P path j := by
  rw [entryMetadata_eq_fields, entryMetadata_eq_fields, h.size, h.lastModified_eq, h.etag,
    h.contentType, h.userMetadata]

theorem checkEtag_eq (h : SameEntry i j) (ifMatch ifNoneMatch : Option Str) :
    checkEtag i ifMatch ifNoneMatch = checkEtag j ifMatch ifNoneMatch := by
  rw [checkEtag, checkEtag, h.etag]

theorem checkModified_eq (h : SameEntry i j) (since till : Option Timestamp) :
    checkModified P i since till = checkModified P j since till := by
  rw [checkModified, checkModified, h.lastModified_eq]

end SameEntry

/-! ## Views of legacy and completed records -/

section Views

variable {v : DataRecord} {a b : Option MetaRecord}

theorem Completes.sameEntry (h : Completes P k bytes a b) (hv : v.v = .uint8Array bytes) :
    SameEntry (viewInfo P (v, a)) (viewInfo P (v, b)) := by
  cases h with
  | full => exact SameEntry.refl _
  | etag he hl =>
    constructor <;> simp [viewInfo, entryMetaWithEtagFallback, EntryMeta.ofRecord,
      MetaContent.ofRecord, he, valueEtag, hv]
  | missing hlen =>
    have hsize := Number.asU64_ofNat (n := bytes.length) (by omega)
    constructor <;> simp [viewInfo, entryMetaWithEtagFallback, EntryMeta.ofRecord,
      MetaContent.ofRecord, EntryMeta.fromSize, EntryMeta.withEtag, EntryMeta.default, valueEtag,
      valueByteLength, hv, hsize]

theorem Completes.viewEtag_eq (h : Completes P k bytes a b) (hv : v.v = .uint8Array bytes) :
    viewEtag P (some (v, a)) = viewEtag P (some (v, b)) := (h.sameEntry hv).etag

theorem Completes.sourceSize_eq (h : Completes P k bytes a b) (hv : v.v = .uint8Array bytes)
    (src : Str) : sourceSize a v src = sourceSize b v src := by
  cases h <;> simp [sourceSize, recordValueAsUint8Array, *]

theorem Completes.modified_eq (h : Completes P k bytes a b) : a.bind (·.m) = b.bind (·.m) := by
  cases h <;> rfl

theorem Completes.carriedContent_eq (h : Completes P k bytes a b) (hv : v.v = .uint8Array bytes) :
    carriedContent P (v, a) = carriedContent P (v, b) := by
  rw [carriedContent, carriedContent, h.viewEtag_eq hv]
  cases h with
  | full | etag => rfl
  | missing => simp [viewEtag, etag_viewInfo, contentWithEtag, MetaContent.ofRecord,
      MetaContent.default]

end Views

/-! ## What keeps states related -/

namespace Migrated

/-- Related states see related things of a path. -/
theorem view_cases (h : Migrated P s t) (path : Str) :
    (s.view path = none ∧ t.view path = none) ∨
    ∃ v bytes a b, s.view path = some (v, a) ∧ t.view path = some (v, b) ∧
      v.v = .uint8Array bytes ∧ Completes P path bytes a b := by
  simp only [Stores.view, h.store]
  cases hv : s.store.get (.text path) with
  | none => exact Or.inl ⟨rfl, rfl⟩
  | some v =>
    obtain ⟨bytes, hbytes, hc⟩ := h.record path v hv
    exact Or.inr ⟨v, bytes, _, _, rfl, rfl, hbytes, hc⟩

theorem view_isSome_eq (h : Migrated P s t) (path : Str) :
    (s.view path).isSome = (t.view path).isSome := by
  simp only [view_isSome, h.store]

theorem viewEtag_eq (h : Migrated P s t) (path : Str) :
    viewEtag P (s.view path) = viewEtag P (t.view path) := by
  rcases h.view_cases path with ⟨hs, ht⟩ | ⟨v, bytes, a, b, hs, ht, hv, hc⟩ <;> rw [hs, ht]
  exact hc.viewEtag_eq hv

/-- An entry written to both, with its ETag, is complete in both. -/
theorem putEntry (h : Migrated P s t) {v : DataRecord} {r : MetaRecord} (hk : v.k = .text r.k)
    (hv : v.v = .uint8Array bytes) (he : r.e.isSome = true) :
    Migrated P (s.putEntry v r) (t.putEntry v r) where
  store := congrArg (·.put v) h.store
  record k w hw := by
    by_cases heq : k = r.k
    · have hread : readMeta (s.putEntry v r).metaStore k = some r ∧
          readMeta (t.putEntry v r).metaStore k = some r := by
        simp [Stores.putEntry, readMeta, MetaValue.k, MetaValue.decode, heq]
      have hwv : v = w := by simpa [Stores.putEntry, hk, heq] using hw
      rw [hread.1, hread.2]
      -- the new sidecar is the same on both sides, with its ETag
      exact ⟨bytes, hwv ▸ hv, .full he⟩
    · have hw' : s.store.get (.text k) = some w := by simpa [Stores.putEntry, hk, heq] using hw
      simpa [Stores.putEntry, readMeta, MetaValue.k, heq] using h.record k w hw'
  other key hkey := by
    have hne : key ≠ .text r.k := by
      intro heq
      simpa [Stores.putEntry, OrderedStore.contains, hk, heq] using hkey r.k heq
    have hother := h.other key fun k hk' => by
      simpa [Stores.putEntry, OrderedStore.contains, hk, hne] using hkey k hk'
    simpa [Stores.putEntry, MetaValue.k, hne] using hother

/-- The same keys erased from both leave related states. -/
theorem erased (h : Migrated P s t) {q : Key → Prop} (hs : Erased q s s') (ht : Erased q t t') :
    Migrated P s' t' where
  store := by
    refine OrderedStore.ext_get ?_
    intro key
    by_cases hq : q key
    · rw [((hs key).1 hq).1, ((ht key).1 hq).1]
    · rw [((hs key).2 hq).1, ((ht key).2 hq).1, h.store]
  record k v hv := by
    by_cases hq : q (.text k)
    · rw [((hs _).1 hq).1] at hv
      cases hv
    · rw [((hs _).2 hq).1] at hv
      rw [readMeta, readMeta, ((hs _).2 hq).2, ((ht _).2 hq).2]
      exact h.record k v hv
  other key hkey := by
    by_cases hq : q key
    · rw [((hs key).1 hq).2, ((ht key).1 hq).2]
    · rw [((hs key).2 hq).2, ((ht key).2 hq).2]
      refine h.other key ?_
      intro k hk
      have hgone := hkey k hk
      rwa [OrderedStore.contains, ((hs key).2 hq).1] at hgone

/-! ## The operations -/

theorem stat_eq (h : Migrated P s t) (root : Root) (path : Str) (args : OpStat) :
    IndexeddbBackend.stat O P root path args s = IndexeddbBackend.stat O P root path args t := by
  simp only [IndexeddbBackend.stat, stat_eq_view]
  rcases h.view_cases (O.buildAbsPath root.text path) with
    ⟨hs, ht⟩ | ⟨v, bytes, a, b, hs, ht, hv, hc⟩ <;> rw [hs, ht]
  have hsame := hc.sameEntry hv
  simp only [Option.map_some, hsame.checkModified_eq, hsame.checkEtag_eq, hsame.entryMetadata_eq]

theorem read_eq (h : Migrated P s t) (root : Root) (path : Str) (args : ReadArgs) :
    IndexeddbBackend.read O P root path args s = IndexeddbBackend.read O P root path args t := by
  simp only [IndexeddbBackend.read, read_eq_view]
  rcases h.view_cases (O.buildAbsPath root.text path) with
    ⟨hs, ht⟩ | ⟨v, bytes, a, b, hs, ht, hv, hc⟩ <;> rw [hs, ht]
  have hsame := hc.sameEntry hv
  simp only [readView, checkRead, hsame.checkModified_eq, hsame.checkEtag_eq]
  cases checkModified P (viewInfo P (v, b)) args.ifModifiedSince args.ifUnmodifiedSince with
  | error err => rfl
  | ok =>
    cases checkEtag (viewInfo P (v, b)) args.ifMatch args.ifNoneMatch with
    | error err => rfl
    | ok =>
      simp only [readValue_of_bytes hv, hsame.size, hsame.entryMetadata_eq]

theorem setPlan_eq (h : Migrated P s t) (path : Str) (value : Bytes) (args : WriteArgs) :
    setPlan P path value args (s.view path) = setPlan P path value args (t.view path) := by
  rcases h.view_cases path with ⟨hs, ht⟩ | ⟨v, bytes, a, b, hs, ht, hv, hc⟩ <;> rw [hs, ht]
  have hetag := hc.viewEtag_eq hv
  simp only [setPlan, Option.isSome_some, hetag, Option.bind_some]
  cases args.append with
  | false => rfl
  | true =>
    simp only [if_true, recordBytes, recordValueAsUint8Array, hv]
    split_ifs
    · rfl
    · rfl
    · rfl
    -- the ETag of the sidecar is the one thing a write does not carry over
    · cases hc <;> cases args.content <;> rfl

/-- A record carried along with its ETag is complete in both. -/
theorem carried (h : Migrated P s t) {v : DataRecord} {a b : Option MetaRecord}
    (hv : v.v = .uint8Array bytes) (hc : Completes P path bytes a b) (dst : Str) (size : Number)
    (modifiedMs : Option Number) :
    Migrated P (s.carried P (v, a) dst size modifiedMs)
      (t.carried P (v, b) dst size modifiedMs) := by
  have hetag : (((carriedContent P (v, b)).getD .default).etag).isSome = true := by
    rw [etag_carriedContent]
    simp [viewEtag, etag_viewInfo, valueEtag, hv]
  rw [Stores.carried, Stores.carried, hc.carriedContent_eq hv]
  exact h.putEntry rfl hv hetag

/-- **Every write makes up for what is missing**, and leaves no less. -/
theorem bisimulation (P : Platform) : Bisimulation P (Migrated P) where
  set now path value args s t h := by
    rw [set_eq_view, set_eq_view, h.setPlan_eq]
    cases hplan : setPlan P path value args (t.view path) with
    | error err => exact ⟨rfl, h⟩
    | ok written =>
      have hetag : written.2.etag.isSome = true := by
        rw [etag_of_setPlan hplan]
        rfl
      exact ⟨rfl, h.putEntry rfl rfl hetag⟩
  copy now src dst ifNotExists ifMatch s t h := by
    by_cases hsame : src = dst
    · rw [copy, copy, if_pos hsame, if_pos hsame]
      exact ⟨rfl, h⟩
    · rw [copy_eq_view hsame, copy_eq_view hsame]
      rcases h.view_cases src with ⟨hs, ht⟩ | ⟨v, bytes, a, b, hs, ht, hv, hc⟩ <;> rw [hs, ht]
      · exact ⟨rfl, h⟩
      · simp only [copyPlan, h.view_isSome_eq, h.viewEtag_eq, hc.sourceSize_eq hv]
        split_ifs
        · exact ⟨rfl, h⟩
        · exact ⟨rfl, h⟩
        · cases sourceSize b v src with
          | error err => exact ⟨rfl, h⟩
          | ok size =>
            refine ⟨?_, h.carried hv hc dst size (some now)⟩
            simp only [copiedInfo, hc.viewEtag_eq hv, hc.carriedContent_eq hv]
  rename src dst s t h := by
    by_cases hsame : src = dst
    · rw [rename, rename, if_pos hsame, if_pos hsame]
      exact ⟨rfl, h⟩
    · rw [rename_eq_view hsame, rename_eq_view hsame]
      rcases h.view_cases src with ⟨hs, ht⟩ | ⟨v, bytes, a, b, hs, ht, hv, hc⟩ <;> rw [hs, ht]
      · exact ⟨rfl, h⟩
      · simp only [renamePlan, hc.sourceSize_eq hv]
        cases sourceSize b v src with
        | error err => exact ⟨rfl, h⟩
        | ok size =>
          -- the record is under both keys before the source is deleted
          have hput := h.carried hv hc dst size (b.bind (·.m))
          refine ⟨rfl, ?_⟩
          simp only [hc.modified_eq]
          exact hput.erased (erased_deleteKey _ src) (erased_deleteKey _ src)
  erased h hs ht := h.erased hs ht

end Migrated

/-! ## Where they differ -/

/-- A key ending in `/` whose record has no sidecar that can be decoded. -/
def LegacyMarker (s : Stores) (k : Str) : Prop :=
  k.getLast? = some '/' ∧ s.store.contains (.text k) = true ∧ readMeta s.metaStore k = none

instance : Decidable (LegacyMarker s k) := inferInstanceAs (Decidable (_ ∧ _ ∧ _))

/-- The scan finds a key, which takes the data store alone. -/
def Finds (store : OrderedStore Key DataRecord DataRecord.k) (req : ScanPageRequest) (k : Str) :
    Prop := ∃ found ∈ scanKeys store req, k ∈ found.1.keys

/-- For the requests a listing makes, these are the first keys it has left. -/
theorem finds_iff {req : ScanPageRequest} (hlimit : 0 < req.limit) (hreach : req.SkipReached) :
    Finds s.store req k ↔ k ∈ (pageKeys s.store req).take req.limit := by
  obtain ⟨page, hpage⟩ := Option.isSome_iff_exists.1 (scanPage_isSome referencePlatform req s)
  have hentries := (scanPage_spec hlimit hreach hpage).1
  rw [scanPage_eq_view] at hpage
  obtain ⟨found, hfound, rfl⟩ := Option.map_eq_some_iff.1 hpage
  have hkeys := congrArg (List.map Prod.fst) hentries
  simp only [pageOf, List.map_map, Function.comp_def, List.map_id'] at hkeys
  rw [Finds, ← hkeys, hfound]
  simp

/-- The page that is asked for, if any, has no legacy directory marker. -/
def NoMarkerListed (s : Stores) : Op → Prop
  | .scanPage _ req => ∀ k, LegacyMarker s k → ¬ Finds s.store req k
  | _ => True

/-- **A key is listed alike, unless it is a legacy marker.** -/
theorem Migrated.listedInfo_eq_iff (h : Migrated P s t) (hk : s.store.contains (.text k) = true)
    (path : Str) : entryMetadata P path (listedInfo P k (s.view k)) =
      entryMetadata P path (listedInfo P k (t.view k)) ↔ ¬ LegacyMarker s k := by
  rcases h.view_cases k with ⟨hs, -⟩ | ⟨v, bytes, a, b, hs, ht, hv, hc⟩
  · rw [← view_isSome, hs] at hk
    cases hk
  have ha : readMeta s.metaStore k = a := by
    obtain ⟨w, -, hw⟩ := Option.map_eq_some_iff.1 hs
    exact (Prod.mk.inj hw).2
  rw [LegacyMarker, ha, hs, ht, and_iff_right hk]
  have hsame := hc.sameEntry hv
  have hb : b ≠ none := by cases hc <;> simp
  simp only [listedInfo, hb, false_and, if_false]
  by_cases hmarker : a = none ∧ k.getLast? = some '/'
  · rw [if_pos hmarker]
    -- without a sidecar the marker's ETag is missing, with one it is there
    refine iff_of_false (fun heq => ?_) (not_not.2 hmarker.symm)
    have hetag := congrArg Metadata.etag heq
    rw [entryMetadata_eq_fields, entryMetadata_eq_fields, ← hsame.etag,
      etag_viewInfo] at hetag
    simp [EntryMeta.default, valueEtag, hv] at hetag
  · rw [if_neg hmarker]
    exact iff_of_true (hsame.entryMetadata_eq path) fun hm => hmarker hm.symm

/-- **A page is the same exactly when it lists no legacy marker.** -/
theorem Migrated.scanPage_eq_iff (h : Migrated P s t) (root : Root) (req : ScanPageRequest) :
    ((Op.scanPage root req).step O P s).1 = ((Op.scanPage root req).step O P t).1 ↔
      NoMarkerListed s (.scanPage root req) := by
  have hstore : t.store = s.store := h.store
  obtain ⟨page, hpage⟩ := Option.isSome_iff_exists.1 (scanPage_isSome P req s)
  rw [scanPage_eq_view] at hpage
  obtain ⟨found, hfound, -⟩ := Option.map_eq_some_iff.1 hpage
  simp only [Op.step, scanPage_eq_view, hstore, hfound, Option.map_some, ScanPage.outcome, pageOf,
    List.map_map, Outcome.page.injEq, and_true, NoMarkerListed, Finds, Option.mem_def,
    Option.some_inj, exists_eq_left']
  rw [List.map_inj_left]
  constructor
  · intro heq k hmarker hk
    have hentry := heq k hk
    simp only [Function.comp_apply, listedEntry, Entry.mk.injEq, true_and] at hentry
    exact (h.listedInfo_eq_iff (contains_of_mem_scanKeys hfound hk) _).1 hentry hmarker
  · intro hno k hk
    simp only [Function.comp_apply, listedEntry, Entry.mk.injEq, true_and]
    exact (h.listedInfo_eq_iff (contains_of_mem_scanKeys hfound hk) _).2 fun hm => hno k hm hk

theorem Migrated.step_eq_iff (h : Migrated P s t) (op : Op) :
    (op.step O P s).1 = (op.step O P t).1 ↔ NoMarkerListed s op := by
  cases op with
  | mutate m => exact iff_of_true ((bisimulation P).mutation O m s t h).1 trivial
  | stat root path args =>
    exact iff_of_true (congrArg Outcome.metadata (h.stat_eq root path args)) trivial
  | read root path args =>
    exact iff_of_true (congrArg Outcome.content (h.read_eq root path args)) trivial
  | scanPage root req => exact h.scanPage_eq_iff root req

theorem Migrated.step_migrated (h : Migrated P s t) (op : Op) :
    Migrated P (op.step O P s).2 (op.step O P t).2 := by
  cases op with
  | mutate m => exact ((bisimulation P).mutation O m s t h).2
  | stat | read => exact h
  | scanPage root req =>
    simp only [Op.step]
    cases scanPage P req s <;> cases scanPage P req t <;> exact h

/-- **Legacy records behave as migrated ones**, in every run, exactly as
long as no page of the run lists a legacy directory marker. The states
stay related in any case. -/
theorem migrated_agree_iff (O : Opendal) (h : Migrated P s t) (ops : List Op) :
    ((run (Op.step O P) s ops).1 = (run (Op.step O P) t ops).1 ∧
      Migrated P (run (Op.step O P) s ops).2 (run (Op.step O P) t ops).2) ↔
    Along (Op.step O P) NoMarkerListed s ops := by
  have hnext (s t : Stores) (op : Op) (h : Migrated P s t) := h.step_migrated (O := O) op
  rw [and_iff_left (run_related hnext h ops)]
  exact run_outputs_eq_iff (fun _ _ op h => h.step_eq_iff op) hnext h ops

/-! ## One legacy record -/

/-- One record without a sidecar. -/
def legacyStore (k : Str) (bytes : Bytes) : Stores :=
  ⟨OrderedStore.empty.put (KeyAndValue.toValue ⟨k, bytes⟩), .empty⟩

/-- The record with its sidecar completed. -/
def completedStore (P : Platform) (k : Str) (bytes : Bytes) : Stores :=
  ⟨OrderedStore.empty.put (KeyAndValue.toValue ⟨k, bytes⟩), OrderedStore.empty.put
    (.sidecar ⟨k, Number.ofNat bytes.length, none, some (etagFromBytes P bytes), none, none⟩)⟩

theorem migrated_legacyStore (k : Str) (bytes : Bytes) (h : bytes.length < 2 ^ 53) :
    Migrated P (legacyStore k bytes) (completedStore P k bytes) where
  store := rfl
  record l v hv := by
    simp only [legacyStore, OrderedStore.get_put, KeyAndValue.toValue, OrderedStore.get_empty,
      Option.ite_none_right_eq_some, Key.text.injEq, Option.some_inj] at hv
    obtain ⟨rfl, rfl⟩ := hv
    refine ⟨bytes, rfl, ?_⟩
    simpa [legacyStore, completedStore, readMeta, MetaValue.k, MetaValue.decode] using .missing h
  other key hkey := by
    have hne : key ≠ .text k := by
      intro heq
      simpa [legacyStore, KeyAndValue.toValue, OrderedStore.contains, heq] using hkey k heq
    simp [legacyStore, completedStore, MetaValue.k, hne]

/-- Reads all of the store. -/
def scanAll : Op := .scanPage .slash ⟨[], none, none, 1⟩

/-- A file without a sidecar is listed and statted as with one. -/
theorem migrated_agree_file :
    let ops := [scanAll, Op.stat .slash ['a'] ⟨none, none, none, none⟩]
    (run (Op.step referenceOpendal referencePlatform) (legacyStore ['a'] [0]) ops).1 =
      (run (Op.step referenceOpendal referencePlatform)
        (completedStore referencePlatform ['a'] [0]) ops).1 := by
  have hmigrated : Migrated referencePlatform (legacyStore ['a'] [0])
      (completedStore referencePlatform ['a'] [0]) := migrated_legacyStore _ _ (by decide)
  intro ops
  refine ((migrated_agree_iff referenceOpendal hmigrated ops).2 ⟨fun k hmarker _ => ?_, trivial,
    trivial⟩).1
  have hk : k = ['a'] := by
    simpa [legacyStore, KeyAndValue.toValue, OrderedStore.contains] using hmarker.2.1
  exact absurd hmarker.1 (hk ▸ by decide)

/-- A legacy directory marker is listed without the ETag it has. -/
theorem migrated_marker_differs : ¬ ∀ (s t : Stores) (ops : List Op),
    Migrated referencePlatform s t →
      (run (Op.step referenceOpendal referencePlatform) s ops).1 =
        (run (Op.step referenceOpendal referencePlatform) t ops).1 ∧
      Migrated referencePlatform (run (Op.step referenceOpendal referencePlatform) s ops).2
        (run (Op.step referenceOpendal referencePlatform) t ops).2 := by
  intro h
  have hmigrated : Migrated referencePlatform (legacyStore ['d', '/'] [])
      (completedStore referencePlatform ['d', '/'] []) := migrated_legacyStore _ _ (by decide)
  have hpage := (List.cons.inj (h _ _ [scanAll] hmigrated).1).1
  exact (hmigrated.scanPage_eq_iff .slash _).1 hpage ['d', '/'] (by decide)
    ⟨_, rfl, by decide⟩

end OpendalIndexeddb
