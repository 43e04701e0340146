import OpendalIndexeddb.Model.Operation
import OpendalIndexeddb.ScanOrder
/-!
# What an operation sees of a path

Two stores hold a path, and each operation joins them in its own way.
All of them see the same: the record, and the sidecar of a record that is
there. Here every operation is restated as a function of that view, and
the views it leaves are computed; what does not show in a view does not
count.
-/

namespace OpendalIndexeddb

open IndexeddbCore

variable {P : Platform} {s t : Stores} {path src dst k : Str} {now : Number}

/-- What is seen of a path: its record, with the sidecar it has. -/
abbrev View := Option (DataRecord × Option MetaRecord)

def Stores.view (s : Stores) (path : Str) : View :=
  (s.store.get (.text path)).map fun value => (value, readMeta s.metaStore path)

theorem view_of_get {v : DataRecord} (h : s.store.get (.text path) = some v) :
    s.view path = some (v, readMeta s.metaStore path) := by
  simp [Stores.view, h]

/-- The entry of a view: the sidecar's, or measured from the record. -/
def viewInfo (P : Platform) (e : DataRecord × Option MetaRecord) : EntryInfo :=
  match e.2 with
  | some r => ⟨entryMetaWithEtagFallback r (valueEtag P e.1)⟩
  | none => ⟨(EntryMeta.fromSize (valueByteLength e.1)).withEtag (valueEtag P e.1)⟩

/-- The ETag of a view. -/
def viewEtag (P : Platform) (view : View) : Option Str :=
  view.bind fun e => (viewInfo P e).entryMeta.etag

theorem view_isSome : (s.view path).isSome = s.store.contains (.text path) := by
  simp [Stores.view, OrderedStore.contains]

/-- A sidecar with an ETag needs no fallback. -/
theorem entryMetaWithEtagFallback_of_isSome {r : MetaRecord} (h : r.e.isSome = true)
    (etag : Option Str) : entryMetaWithEtagFallback r etag = .ofRecord r := by
  have hnone : ¬ (EntryMeta.ofRecord r).etag.isNone = true := by
    simpa [EntryMeta.ofRecord, Option.isSome_iff_ne_none] using h
  simp only [entryMetaWithEtagFallback, if_neg hnone]

theorem viewInfo_of_isSome {r : MetaRecord} (h : r.e.isSome = true) (v : DataRecord) :
    viewInfo P (v, some r) = ⟨.ofRecord r⟩ :=
  congrArg EntryInfo.mk (entryMetaWithEtagFallback_of_isSome h _)

/-- The ETag of a view is the sidecar's, or that of the bytes. -/
theorem etag_viewInfo (v : DataRecord) (r : Option MetaRecord) :
    (viewInfo P (v, r)).entryMeta.etag = (r.bind (·.e)).or (valueEtag P v) := by
  cases r with
  | none => rfl
  | some r =>
    cases he : r.e <;>
      simp [viewInfo, entryMetaWithEtagFallback, EntryMeta.ofRecord, he]

/-- What a view's entry takes from its sidecar, where it has one. -/
theorem fields_viewInfo (e : DataRecord × Option MetaRecord) :
    (viewInfo P e).entryMeta.size =
        (match e.2 with
          | some r => some r.l.asU64
          | none => valueByteLength e.1) ∧
      (viewInfo P e).entryMeta.lastModifiedMs = e.2.bind (·.m) ∧
      (viewInfo P e).entryMeta.content.bind (·.contentType) = e.2.bind (·.ct) ∧
      (viewInfo P e).entryMeta.content.bind (·.userMetadata) = e.2.bind (·.um) := by
  obtain ⟨v, r⟩ := e
  cases r with
  | none => exact ⟨rfl, rfl, rfl, rfl⟩
  | some r =>
    cases he : r.e <;>
      simp [viewInfo, entryMetaWithEtagFallback, EntryMeta.ofRecord, MetaContent.ofRecord, he]

/-- An entry's metadata, field by field. -/
theorem entryMetadata_eq_fields (P : Platform) (path : Str) (i : EntryInfo) :
    entryMetadata P path i =
      { mode := P.fromPath path
        contentLength := if P.fromPath path = .file then i.entryMeta.size else none
        lastModified := lastModified P i
        etag := i.entryMeta.etag
        contentType := i.entryMeta.content.bind (·.contentType)
        userMetadata := i.entryMeta.content.bind (·.userMetadata) } := by
  rw [entryMetadata]
  cases hc : i.entryMeta.content with
  | none => rfl
  | some content =>
    obtain ⟨etag, contentType, userMetadata⟩ := content
    cases contentType <;> cases userMetadata <;> rfl

/-! ## Reading -/

/-- **`stat` returns the view's entry.** An orphan sidecar is not seen. -/
theorem stat_eq_view (P : Platform) (path : Str) (s : Stores) :
    stat P path s = (s.view path).map (viewInfo P) := by
  have hread : (s.metaStore.get (.text path)).bind MetaValue.decode =
      readMeta s.metaStore path := rfl
  rw [stat, hread, Stores.view]
  cases hr : readMeta s.metaStore path with
  | none => cases s.store.get (.text path) <;> rfl
  | some r =>
    cases hv : s.store.get (.text path) with
    | none => cases he : r.e <;> simp [OrderedStore.contains, hv, he]
    | some value =>
      cases he : r.e with
      | none => simp [he, viewInfo]
      | some etag =>
        simp [OrderedStore.contains, hv, he, viewInfo,
          entryMetaWithEtagFallback_of_isSome (show r.e.isSome = true by simp [he])]

/-- Without conditions nothing is checked. -/
theorem checkRead_of_no_conditions {args : ReadArgs} (h : args.hasConditions = false)
    (path : Str) (info : EntryInfo) : checkRead P args path info = .ok () := by
  simp only [ReadArgs.hasConditions, Bool.or_eq_false_iff, Option.isSome_eq_false_iff,
    Option.isNone_iff_eq_none] at h
  obtain ⟨⟨⟨h1, h2⟩, h3⟩, h4⟩ := h
  have hmod : checkModified P info none none = .ok () := by
    rw [checkModified]
    cases lastModified P info <;> rfl
  simp only [checkRead, h1, h2, h3, h4, hmod]
  rfl

/-- A value that is bytes is cut by the length its entry has, or by its
own. -/
theorem readValue_of_bytes {v : DataRecord} {bytes : Bytes} (hv : v.v = .uint8Array bytes)
    (args : ReadArgs) (path : Str) (info : EntryInfo) :
    readValue args path info v =
      let range := clampReadRange args.range (info.entryMeta.size.getD bytes.length)
      .ok (some (info, (bytes.take range.2).drop range.1)) := by
  have hsize : (info.entryMeta.size.or (valueByteLength v)).getD 0 =
      info.entryMeta.size.getD bytes.length := by
    simp only [valueByteLength, hv]
    cases info.entryMeta.size <;> rfl
  simp only [readValue, recordBytesRange, recordValueAsUint8Array, hv, hsize]

/-- What a read makes of a view. -/
def readView (P : Platform) (path : Str) (args : ReadArgs) (view : View) :
    Except Error (Option (EntryInfo × Bytes)) :=
  match view with
  | none => .ok none
  | some e =>
    match checkRead P args path (viewInfo P e) with
    | .error err => .error err
    | .ok () => readValue args path (viewInfo P e) e.1

/-- **`read` checks and returns the view's entry.** -/
theorem read_eq_view (P : Platform) (path : Str) (args : ReadArgs) (s : Stores) :
    read P path args s = readView P path args (s.view path) := by
  simp only [IndexeddbCore.read, Stores.view]
  cases hr : readMeta s.metaStore path with
  | none => cases s.store.get (.text path) <;> rfl
  | some r =>
    cases he : r.e with
    | none =>
      cases s.store.get (.text path) with
      | none => simp [he, readView]
      | some value =>
        simp only [he, Option.isSome_none, Bool.false_eq_true, if_false]
        rfl
    | some etag =>
      have hsome : r.e.isSome = true := by simp [he]
      cases hv : s.store.get (.text path) with
      | some value =>
        simp only [he, Option.isSome_some, if_true, OrderedStore.contains, hv, Bool.not_true,
          Bool.and_false, Bool.false_eq_true, if_false, Option.map_some]
        rw [← viewInfo_of_isSome (P := P) hsome value]
        rfl
      | none =>
        -- the record is looked for before the conditions, or only to be fetched
        cases hc : args.hasConditions with
        | true => simp [he, OrderedStore.contains, hv, readView]
        | false =>
          simp [he, OrderedStore.contains, hv, readView, checkRead_of_no_conditions hc]

/-! ## Listing -/

/-- The entry a key is listed with: that of its view, unless it ends in
`/` and has no sidecar. -/
def listedInfo (P : Platform) (k : Str) (view : View) : EntryInfo :=
  match view with
  | none => ⟨.default⟩
  | some e => if e.2 = none ∧ k.getLast? = some '/' then ⟨.default⟩ else viewInfo P e

theorem entryInfoForKey_eq_view (h : s.store.contains (.text k) = true) :
    entryInfoForKey P s k none = listedInfo P k (s.view k) := by
  obtain ⟨v, hv⟩ := Option.isSome_iff_exists.1 h
  rw [view_of_get hv]
  cases hr : readMeta s.metaStore k with
  | none => simp [entryInfoForKey, listedInfo, hr, hv, viewInfo]
  | some r =>
    cases he : r.e with
    | none => simp [entryInfoForKey, listedInfo, hr, hv, he, viewInfo]
    | some etag =>
      have hinfo := entryMetaWithEtagFallback_of_isSome (show r.e.isSome = true by simp [he])
      simp [entryInfoForKey, listedInfo, hr, he, viewInfo, hinfo]

/-- The part of a page scan that looks for keys, which reads the data
store alone. -/
def scanKeys (store : OrderedStore Key DataRecord DataRecord.k) (req : ScanPageRequest) :
    Option (ScanState × Bool) :=
  let upper := prefixUpperBound req.keyPrefix
  if req.limit = 0 then some (req.start, true)
  else if upper.any (fun upper => strLe upper req.start.lower) then some (req.start, true)
  else scanLoop store req upper (store.items.length + 1) req.start

/-- **What a scan finds**: keys of the store it is left with at its start,
in their order. A page that is not the last is full, and resumes at its
last key. -/
theorem scanKeys_takes {store : OrderedStore Key DataRecord DataRecord.k} {req : ScanPageRequest}
    {st : ScanState} {done : Bool} (h : scanKeys store req = some (st, done)) :
    st.keys.Sublist (req.start.rest store (prefixUpperBound req.keyPrefix)) ∧
      (∀ k ∈ st.keys, req.lists k = true) ∧
      (done = false → st.keys.length = req.limit ∧ st.nextStartAfter = st.keys.getLast?) := by
  simp only [scanKeys] at h
  split_ifs at h with h0 h1
  · cases h
    exact ⟨List.nil_sublist _, fun _ hk => absurd hk List.not_mem_nil, by simp⟩
  · cases h
    exact ⟨List.nil_sublist _, fun _ hk => absurd hk List.not_mem_nil, by simp⟩
  · obtain ⟨⟨taken, htakes⟩, hfull⟩ :=
      scanLoop_takes (by simpa using Nat.pos_of_ne_zero h0) h
    rw [show st.keys = taken by simpa using htakes.keys] at hfull ⊢
    exact ⟨htakes.sublist, htakes.listed, hfull⟩

/-- The keys of a page are in the data store. -/
theorem contains_of_mem_scanKeys {req : ScanPageRequest} {st : ScanState} {done : Bool}
    (h : scanKeys s.store req = some (st, done)) (hk : k ∈ st.keys) :
    s.store.contains (.text k) = true := by
  have hmem := (scanKeys_takes h).1.subset hk
  exact mem_textKeys_iff.1 (List.mem_of_mem_filter hmem)

/-- The page made of the keys a scan found. -/
def pageOf (P : Platform) (req : ScanPageRequest) (s : Stores) (found : ScanState × Bool) :
    ScanPage where
  entries := found.1.keys.map fun k => (k, listedInfo P k (s.view k))
  nextStartAfter := found.1.nextStartAfter
  skipPrefix := req.skipPrefix
  done := found.2

/-- **A page scan looks for keys in the data store, and lists each with
its view.** -/
theorem scanPage_eq_view (P : Platform) (req : ScanPageRequest) (s : Stores) :
    scanPage P req s = (scanKeys s.store req).map (pageOf P req s) := by
  cases hfound : scanKeys s.store req with
  | none =>
    simp only [scanKeys] at hfound
    split_ifs at hfound with h0 h1
    simp only [scanPage, if_neg h0, if_neg h1, hfound, Option.map_none]
  | some found =>
    obtain ⟨st, done⟩ := found
    have hentries : joinMetas P s st.keys (prefetchMetas s.metaStore st.keys) =
        st.keys.map fun k => (k, listedInfo P k (s.view k)) := by
      rw [joinMetas_eq fun kr hkr => readMeta_of_mem_prefetchMetas hkr]
      refine List.map_congr_left ?_
      intro k hk
      rw [entryInfoForKey_eq_view (contains_of_mem_scanKeys hfound hk)]
    simp only [scanKeys] at hfound
    split_ifs at hfound with h0 h1
    · cases hfound
      simp only [scanPage, if_pos h0]
      rfl
    · cases hfound
      simp only [scanPage, if_neg h0, if_pos h1]
      rfl
    · simp only [scanPage, if_neg h0, if_neg h1, hfound, hentries]
      rfl

/-- Views decide what a page lists its keys with. -/
theorem pageOf_eq_of_view (h : ∀ k, s.view k = t.view k) (req : ScanPageRequest) :
    pageOf P req s = pageOf P req t := by
  funext found
  simp only [pageOf, h]

/-- The keys of a page, and the entry each is listed with. -/
theorem page_entries {req : ScanPageRequest} {page : ScanPage}
    (h : scanPage P req s = some page) : ∃ st done, scanKeys s.store req = some (st, done) ∧
      page = pageOf P req s (st, done) := by
  rw [scanPage_eq_view] at h
  obtain ⟨⟨st, done⟩, hfound, rfl⟩ := Option.map_eq_some_iff.1 h
  exact ⟨st, done, hfound, rfl⟩

/-- The keys of a page. -/
def IndexeddbCore.ScanPage.keys (page : ScanPage) : List Str := page.entries.map Prod.fst

/-- **What any page is**: keys that its scan was left with at its start, in
the store's order, and all there is room for where it is not the last. -/
theorem scanPage_takes {req : ScanPageRequest} {page : ScanPage}
    (h : scanPage P req s = some page) :
    page.keys.Sublist (req.start.rest s.store (prefixUpperBound req.keyPrefix)) ∧
      (∀ k ∈ page.keys, req.lists k = true) ∧ page.skipPrefix = req.skipPrefix ∧
      (page.done = false → page.keys.length = req.limit ∧
        page.nextStartAfter = page.keys.getLast?) := by
  obtain ⟨st, done, hfound, rfl⟩ := page_entries h
  obtain ⟨hsub, hlists, hfull⟩ := scanKeys_takes hfound
  have hkeys : (pageOf P req s (st, done)).keys = st.keys := by
    simp only [ScanPage.keys, pageOf, List.map_map]
    exact List.map_id _
  rw [hkeys]
  exact ⟨hsub, hlists, rfl, hfull⟩

/-- The keys of a page are strictly increasing in the store's order. -/
theorem keys_sorted_of_page {req : ScanPageRequest} {page : ScanPage}
    (h : scanPage P req s = some page) :
    page.keys.Pairwise fun a b => unitRank a < unitRank b :=
  keysBetween_sorted.sublist (scanPage_takes h).1

/-! ## Writing -/

/-- Stores a record with its sidecar. -/
def Stores.putEntry (s : Stores) (v : DataRecord) (r : MetaRecord) : Stores :=
  ⟨s.store.put v, s.metaStore.put (.sidecar r)⟩

theorem get_putEntry_self {v : DataRecord} {r : MetaRecord} (h : v.k = .text r.k) :
    (s.putEntry v r).store.get (.text r.k) = some v ∧
      (s.putEntry v r).metaStore.get (.text r.k) = some (.sidecar r) := by
  simp [Stores.putEntry, MetaValue.k, h]

theorem get_putEntry_of_ne {v : DataRecord} {r : MetaRecord} (h : v.k = .text r.k) {key : Key}
    (hkey : key ≠ .text r.k) :
    (s.putEntry v r).store.get key = s.store.get key ∧
      (s.putEntry v r).metaStore.get key = s.metaStore.get key := by
  simp [Stores.putEntry, MetaValue.k, h, hkey]

theorem view_putEntry {v : DataRecord} {r : MetaRecord} (h : v.k = .text r.k) :
    (s.putEntry v r).view k = if k = r.k then some (v, some r) else s.view k := by
  by_cases hk : k = r.k
  · simp [Stores.view, Stores.putEntry, readMeta, MetaValue.k, MetaValue.decode, h, hk]
  · simp [Stores.view, Stores.putEntry, readMeta, MetaValue.k, h, hk]

/-- What a write decides on from the view of its path: the bytes to store
and their content metadata, or the error. -/
def setPlan (P : Platform) (path : Str) (incoming : Bytes) (args : WriteArgs) (view : View) :
    Except Error (Bytes × MetaContent) :=
  if args.ifNotExists && view.isSome then
    .error ((Error.new .conditionNotMatch "path already exists").withContext "path" path)
  else if args.ifMatch.any (fun want => !etagMatches want view.isSome (viewEtag P view)) then
    .error ((Error.new .conditionNotMatch "the entry's etag does not match if_match").withContext
      "path" path)
  else if args.ifNoneMatch.any (fun want => etagMatches want view.isSome (viewEtag P view)) then
    .error ((Error.new .conditionNotMatch "the entry's etag matches if_none_match").withContext
      "path" path)
  else
    let kept := if args.append then
        match view with
        | some e => recordBytes e.1 path
        | none => .ok []
      else .ok []
    match kept with
    | .error err => .error err
    | .ok kept =>
      let carried := if args.append then
          (((view.bind (·.2)).map MetaContent.ofRecord).getD .default) else .default
      let merged := match args.content with
        | some request => carried.merge request
        | none => carried
      .ok (kept ++ incoming, { merged with etag := some (etagFromBytes P (kept ++ incoming)) })

/-- The entry a write reports. -/
def writtenInfo (now : Number) (bytes : Bytes) (content : MetaContent) : EntryInfo :=
  ⟨{ size := some (Number.ofNat bytes.length).asU64
     lastModifiedMs := some now
     etag := content.etag
     content := some content }⟩

/-- The stores a write leaves. -/
def Stores.written (s : Stores) (now : Number) (path : Str) (bytes : Bytes)
    (content : MetaContent) : Stores :=
  s.putEntry (KeyAndValue.toValue ⟨path, bytes⟩)
    (.new path (Number.ofNat bytes.length) (some now) (some content))

/-- An unconditional overwrite decides without a look. -/
theorem setPlan_overwrite {incoming : Bytes} {args : WriteArgs} (view : View)
    (happend : args.append = false) (hexists : args.ifNotExists = false)
    (hmatch : args.ifMatch = none) (hnone : args.ifNoneMatch = none) :
    setPlan P path incoming args view = setPlan P path incoming args none := by
  simp [setPlan, happend, hexists, hmatch, hnone]

/-- A write stores the ETag of its bytes. -/
theorem etag_of_setPlan {incoming bytes : Bytes} {args : WriteArgs} {view : View}
    {content : MetaContent} (h : setPlan P path incoming args view = .ok (bytes, content)) :
    content.etag = some (etagFromBytes P bytes) := by
  simp only [setPlan] at h
  split_ifs at h
  · split at h
    · cases h
    · cases h
      rfl
  · cases h
    rfl

/-- **A write acts on the view of its path.** -/
theorem setTxn_eq_view (P : Platform) (now : Number) (path : Str) (incoming : Bytes)
    (args : WriteArgs) (s : Stores) : setTxn P now path incoming args s =
      match setPlan P path incoming args (s.view path) with
      | .error err => .error err
      | .ok (bytes, content) =>
        .ok (writtenInfo now bytes content, s.written now path bytes content) := by
  -- an unconditional overwrite does not fetch the record, and decides the same
  obtain ⟨data, hdata⟩ : ∃ data, data = if !args.append && !args.ifNotExists &&
      args.ifMatch.isNone && args.ifNoneMatch.isNone then none else s.store.get (.text path) :=
    ⟨_, rfl⟩
  have hplan : setPlan P path incoming args (s.view path) =
      setPlan P path incoming args (data.map fun v => (v, readMeta s.metaStore path)) := by
    rw [hdata]
    split_ifs with h
    · simp only [Bool.and_eq_true, Bool.not_eq_true', Option.isNone_iff_eq_none] at h
      exact setPlan_overwrite _ h.1.1.1 h.1.1.2 h.1.2 h.2
    · rfl
  rw [hplan]
  simp only [setTxn, ← hdata, setPlan]
  cases data with
  | none =>
    simp only [Option.isSome_none, Bool.and_false, Bool.false_eq_true, if_false, viewEtag,
      Option.map_none, Option.bind_none, Option.or_none]
    cases args.append <;> simp only [Bool.false_eq_true, if_false, if_true] <;> split_ifs <;> rfl
  | some v =>
    simp only [Option.isSome_some, if_true, viewEtag, Option.map_some, Option.bind_some,
      etag_viewInfo]
    cases args.append with
    | false =>
      simp only [Bool.false_eq_true, if_false]
      split_ifs <;> rfl
    | true =>
      simp only [if_true]
      split_ifs
      · rfl
      · rfl
      · rfl
      · cases recordBytes v path <;> cases readMeta s.metaStore path <;> rfl

/-- **A write leaves the written stores, or those before it.** -/
theorem set_eq_view (P : Platform) (now : Number) (path : Str) (incoming : Bytes)
    (args : WriteArgs) (s : Stores) : IndexeddbCore.set P now path incoming args s =
      match setPlan P path incoming args (s.view path) with
      | .error err => (.error err, s)
      | .ok (bytes, content) =>
        (.ok (writtenInfo now bytes content), s.written now path bytes content) := by
  rw [IndexeddbCore.set, runTransaction, setTxn_eq_view]
  cases setPlan P path incoming args (s.view path) <;> rfl

/-! ## Copying and moving -/

theorem sourceEtag_eq_viewEtag (e : DataRecord × Option MetaRecord) :
    sourceEtag P e.2 e.1 = viewEtag P (some e) := (etag_viewInfo e.1 e.2).symm

theorem targetEtag_eq_view (P : Platform) (s : Stores) (dst : Str) :
    targetEtag P s dst = viewEtag P (s.view dst) := by
  rw [targetEtag, Stores.view, OrderedStore.contains]
  cases s.store.get (.text dst) with
  | none => rfl
  | some v =>
    simp only [Option.isSome_some, if_true, Option.map_some, viewEtag, Option.bind_some,
      etag_viewInfo]
    cases readMeta s.metaStore dst with
    | none => rfl
    | some r => cases he : r.e <;> simp [he]

/-- The content metadata that goes along with a record. -/
def carriedContent (P : Platform) (e : DataRecord × Option MetaRecord) : Option MetaContent :=
  contentWithEtag (e.2.map MetaContent.ofRecord) (viewEtag P (some e))

/-- A record that goes along keeps its ETag. -/
theorem etag_carriedContent (e : DataRecord × Option MetaRecord) :
    ((carriedContent P e).getD .default).etag = viewEtag P (some e) := by
  rw [carriedContent]
  cases e.2 <;> cases viewEtag P (some e) <;> rfl

/-- What a copy decides on from the views of its two paths: the record to
copy and its size, or the error. -/
def copyPlan (P : Platform) (src dst : Str) (ifNotExists : Bool) (ifMatch : Option Str)
    (source target : View) : Except Error ((DataRecord × Option MetaRecord) × Number) :=
  match source with
  | none => .error (notFoundFrom src)
  | some e =>
    if ifNotExists && target.isSome then
      .error ((Error.new .conditionNotMatch "path already exists").withContext "to" dst)
    else if ifMatch.any (fun want => !etagMatches want target.isSome (viewEtag P target)) then
      .error ((Error.new .conditionNotMatch
        "the destination entry's etag does not match if_match").withContext "to" dst)
    else
      match sourceSize e.2 e.1 src with
      | .error err => .error err
      | .ok size => .ok (e, size)

/-- A record that is copied holds bytes, and so has an ETag. -/
theorem viewEtag_of_copyPlan {ifNotExists : Bool} {ifMatch : Option Str} {source target : View}
    {copied : (DataRecord × Option MetaRecord) × Number}
    (h : copyPlan P src dst ifNotExists ifMatch source target = .ok copied) :
    (viewEtag P (some copied.1)).isSome = true := by
  cases source with
  | none => cases h
  | some e =>
    simp only [copyPlan] at h
    split_ifs at h
    cases hv : e.1.v with
    | other =>
      simp only [sourceSize, recordValueAsUint8Array, hv] at h
      cases h
    | uint8Array bytes =>
      simp only [sourceSize, recordValueAsUint8Array, hv] at h
      cases h
      simp [viewEtag, etag_viewInfo e.1 e.2, valueEtag, hv]

/-- The entry a copy reports. -/
def copiedInfo (P : Platform) (now : Number) (e : DataRecord × Option MetaRecord)
    (size : Number) : EntryInfo :=
  ⟨{ size := some size.asU64
     lastModifiedMs := some now
     etag := viewEtag P (some e)
     content := carriedContent P e }⟩

/-- The stores with a record put under another key as well. -/
def Stores.carried (P : Platform) (s : Stores) (e : DataRecord × Option MetaRecord) (dst : Str)
    (size : Number) (modifiedMs : Option Number) : Stores :=
  s.putEntry (setRecordKey e.1 dst) (.new dst size modifiedMs (carriedContent P e))

/-- **A copy acts on the views of its two paths.** -/
theorem copyTxn_eq_view (P : Platform) (now : Number) (src dst : Str) (ifNotExists : Bool)
    (ifMatch : Option Str) (s : Stores) : copyTxn P now src dst ifNotExists ifMatch s =
      match copyPlan P src dst ifNotExists ifMatch (s.view src) (s.view dst) with
      | .error err => .error err
      | .ok (e, size) =>
        .ok (entryMetadata P dst (copiedInfo P now e size), s.carried P e dst size (some now)) := by
  have hcontent (r : Option MetaRecord) :
      (EntryMeta.ofOption r).content = r.map MetaContent.ofRecord := by
    cases r <;> rfl
  cases hv : s.store.get (.text src) with
  | none => simp only [copyTxn, Stores.view, hv, Option.map_none, copyPlan]
  | some v =>
    have hsrc := view_of_get hv
    simp only [copyTxn, hv, hsrc, copyPlan, targetEtag_eq_view, ← view_isSome]
    split_ifs
    · rfl
    · rfl
    · cases sourceSize (readMeta s.metaStore src) v src with
      | error err => rfl
      | ok size =>
        simp only [EntryMeta.withEtag, EntryMeta.withLastModifiedMs, EntryMeta.withSize, hcontent,
          sourceEtag_eq_viewEtag (v, readMeta s.metaStore src)]
        rfl

/-- **A copy leaves the stores with the copy, or those before it.** -/
theorem copy_eq_view {src dst : Str} (h : src ≠ dst) (P : Platform) (now : Number)
    (ifNotExists : Bool) (ifMatch : Option Str) (s : Stores) :
    IndexeddbCore.copy P now src dst ifNotExists ifMatch s =
      match copyPlan P src dst ifNotExists ifMatch (s.view src) (s.view dst) with
      | .error err => (.error err, s)
      | .ok (e, size) =>
        (.ok (entryMetadata P dst (copiedInfo P now e size)),
          s.carried P e dst size (some now)) := by
  rw [IndexeddbCore.copy, if_neg h, runTransaction, copyTxn_eq_view]
  cases copyPlan P src dst ifNotExists ifMatch (s.view src) (s.view dst) <;> rfl

/-- What a move decides on. -/
def renamePlan (src : Str) (source : View) :
    Except Error ((DataRecord × Option MetaRecord) × Number) :=
  match source with
  | none => .error (notFoundFrom src)
  | some e =>
    match sourceSize e.2 e.1 src with
    | .error err => .error err
    | .ok size => .ok (e, size)

/-- **A move acts on the view of its source.** -/
theorem renameTxn_eq_view (P : Platform) (src dst : Str) (s : Stores) :
    renameTxn P src dst s =
      match renamePlan src (s.view src) with
      | .error err => .error err
      | .ok (e, size) => .ok ((), deleteKey (s.carried P e dst size (e.2.bind (·.m))) src) := by
  cases hv : s.store.get (.text src) with
  | none => simp only [renameTxn, Stores.view, hv, Option.map_none, renamePlan]
  | some v =>
    simp only [renameTxn, Stores.view, hv, Option.map_some, renamePlan]
    cases sourceSize (readMeta s.metaStore src) v src with
    | error err => rfl
    | ok size =>
      simp only [sourceEtag_eq_viewEtag (v, readMeta s.metaStore src)]
      rfl

/-- **A move leaves the moved stores, or those before it.** -/
theorem rename_eq_view {src dst : Str} (h : src ≠ dst) (P : Platform) (s : Stores) :
    IndexeddbCore.rename P src dst s =
      match renamePlan src (s.view src) with
      | .error err => (.error err, s)
      | .ok (e, size) =>
        (.ok (), deleteKey (s.carried P e dst size (e.2.bind (·.m))) src) := by
  rw [IndexeddbCore.rename, if_neg h, runTransaction, renameTxn_eq_view]
  cases renamePlan src (s.view src) <;> rfl

theorem view_carried {e : DataRecord × Option MetaRecord} {size : Number}
    {modifiedMs : Option Number} : (s.carried P e dst size modifiedMs).view k =
      if k = dst then
        some (setRecordKey e.1 dst, some (.new dst size modifiedMs (carriedContent P e)))
      else s.view k := view_putEntry rfl

theorem view_written {bytes : Bytes} {content : MetaContent} :
    (s.written now path bytes content).view k =
      if k = path then some (KeyAndValue.toValue ⟨path, bytes⟩,
        some (.new path (Number.ofNat bytes.length) (some now) (some content)))
      else s.view k := view_putEntry rfl

/-! ## Deleting -/

/-- One state is another without the keys of a set. -/
def Erased (q : Key → Prop) (s s' : Stores) : Prop :=
  ∀ key, (q key → s'.store.get key = none ∧ s'.metaStore.get key = none) ∧
    (¬ q key → s'.store.get key = s.store.get key ∧ s'.metaStore.get key = s.metaStore.get key)

theorem Erased.trans {q r : Key → Prop} {s₁ s₂ s₃ : Stores} (h : Erased q s₁ s₂)
    (h' : Erased r s₂ s₃) : Erased (fun key => q key ∨ r key) s₁ s₃ := by
  intro key
  by_cases hr : r key
  · exact ⟨fun _ => (h' key).1 hr, fun hn => absurd (Or.inr hr) hn⟩
  · obtain ⟨hd, hm⟩ := (h' key).2 hr
    rw [hd, hm]
    exact ⟨fun hq => (h key).1 (hq.resolve_right hr), fun hn => (h key).2 fun hq => hn (Or.inl hq)⟩

theorem Erased.congr {q r : Key → Prop} {s s' : Stores} (h : Erased q s s')
    (hqr : ∀ key, q key ↔ r key) : Erased r s s' := by
  intro key
  rw [← hqr key]
  exact h key

theorem erased_deleteKey (s : Stores) (k : Str) : Erased (· = .text k) s (deleteKey s k) := by
  intro key
  by_cases hk : key = .text k <;> simp [deleteKey, hk]

theorem erased_deletePrefix (s : Stores) {p : Str} (hp : DirPrefix p) :
    Erased (underPrefix p) s (deletePrefix s p) := fun key => get_deletePrefix hp key

theorem erased_foldl_deleteKey (ks : List Str) (s : Stores) :
    Erased (fun key => ∃ k ∈ ks, key = .text k) s (ks.foldl deleteKey s) := by
  induction ks generalizing s with
  | nil => exact fun key => ⟨fun ⟨_, h, _⟩ => absurd h List.not_mem_nil, fun _ => ⟨rfl, rfl⟩⟩
  | cons k ks ih =>
    refine ((erased_deleteKey s k).trans (ih _)).congr ?_
    intro key
    simp

/-- The keys one request of a batch removes. -/
def RemovedBy (request : Str × Bool) (key : Key) : Prop :=
  if request.2 then
    (∃ k ∈ (recursiveDeleteTarget request.1).exactKey, key = .text k) ∨
      underPrefix (recursiveDeleteTarget request.1).keyPrefix key
  else key = .text request.1

/-- The keys a batch removes. -/
def Removed (batch : List (Str × Bool)) (key : Key) : Prop :=
  ∃ request ∈ batch, RemovedBy request key

theorem removed_cons {request : Str × Bool} {batch : List (Str × Bool)} {key : Key} :
    Removed (request :: batch) key ↔ RemovedBy request key ∨ Removed batch key :=
  List.exists_mem_cons_iff _ _ _

/-- The loop over a batch and the one over the exact keys it leaves. -/
theorem erased_deleteBatch (batch : List (Str × Bool)) (exactKeys : List Str) (s : Stores) :
    Erased (fun key => Removed batch key ∨ ∃ k ∈ exactKeys, key = .text k) s
      ((deleteBatch batch exactKeys s).1.foldl deleteKey (deleteBatch batch exactKeys s).2) := by
  induction batch generalizing exactKeys s with
  | nil =>
    refine (erased_foldl_deleteKey exactKeys s).congr ?_
    intro key
    simp [Removed]
  | cons request batch ih =>
    obtain ⟨path, isRecursive⟩ := request
    cases isRecursive with
    | false =>
      refine (ih (exactKeys ++ [path]) s).congr ?_
      intro key
      simp only [removed_cons, RemovedBy, Bool.false_eq_true, if_false, List.mem_append,
        List.mem_singleton, or_and_right, exists_or, exists_eq_left]
      rw [or_comm (b := key = _), ← or_assoc, or_comm (a := Removed batch key)]
    | true =>
      refine ((erased_deletePrefix s (dirPrefix_recursiveDeleteTarget path)).trans
        (ih (exactKeys ++ (recursiveDeleteTarget path).exactKey.toList) _)).congr fun key => ?_
      simp only [removed_cons, RemovedBy, if_true, List.mem_append, Option.mem_toList,
        Option.mem_def, or_and_right, exists_or]
      -- the range goes at once and the exact key at the end
      simp only [or_comm, or_left_comm]

/-- **A batch removes its keys from both stores, and nothing else.** -/
theorem erased_deleteMany (batch : List (Str × Bool)) (s : Stores) :
    Erased (Removed batch) s (deleteMany batch s) := by
  rw [deleteMany]
  split_ifs with h
  · subst h
    exact fun key => ⟨fun ⟨_, h, _⟩ => absurd h List.not_mem_nil, fun _ => ⟨rfl, rfl⟩⟩
  · refine (erased_deleteBatch batch [] s).congr ?_
    intro key
    simp

end OpendalIndexeddb
