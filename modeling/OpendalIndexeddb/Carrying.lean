import OpendalIndexeddb.Model.Reference
import OpendalIndexeddb.View
/-!
# What a copy and a move carry over

The two rebuild a sidecar in different ways, from whatever the source has
of one. What is found under the destination is in both cases what was
found under the source, but for the time of a copy; nothing of what the
destination was shows.
-/

namespace OpendalIndexeddb

open IndexeddbCore

variable {P : Platform} {s t : Stores} {src dst k path : Str} {now : Number}
variable {e : DataRecord × Option MetaRecord} {bytes : Bytes}

/-- The length a record is carried with: the sidecar's, or as measured. -/
def carriedSize (e : DataRecord × Option MetaRecord) (bytes : Bytes) : Number :=
  match e.2 with
  | some r => r.l
  | none => Number.ofNat bytes.length

/-- The sidecar a record is carried with. -/
def carriedSidecar (P : Platform) (e : DataRecord × Option MetaRecord) (bytes : Bytes) (dst : Str)
    (modifiedMs : Option Number) : MetaRecord :=
  .new dst (carriedSize e bytes) modifiedMs (carriedContent P e)

theorem sourceSize_eq (hbytes : e.1.v = .uint8Array bytes) (src : Str) :
    sourceSize e.2 e.1 src = .ok (carriedSize e bytes) := by
  cases hr : e.2 <;> simp [sourceSize, recordValueAsUint8Array, hbytes, carriedSize, hr]

/-- A record of bytes has an ETag. -/
theorem viewEtag_of_bytes (hbytes : e.1.v = .uint8Array bytes) :
    (viewEtag P (some e)).isSome = true := by
  simp [viewEtag, etag_viewInfo e.1 e.2, valueEtag, hbytes]

/-- The carried sidecar has the ETag of the source. -/
theorem etag_carriedSidecar (P : Platform) (e : DataRecord × Option MetaRecord) (bytes : Bytes)
    (dst : Str) (modifiedMs : Option Number) :
    (carriedSidecar P e bytes dst modifiedMs).e = viewEtag P (some e) :=
  etag_carriedContent e

/-- The entry a carried record is found with. -/
theorem viewInfo_carried (hbytes : e.1.v = .uint8Array bytes) (v : DataRecord) (dst : Str)
    (modifiedMs : Option Number) :
    viewInfo P (v, some (carriedSidecar P e bytes dst modifiedMs)) =
      ⟨.ofRecord (carriedSidecar P e bytes dst modifiedMs)⟩ := by
  refine viewInfo_of_isSome ?_ v
  rw [etag_carriedSidecar]
  exact viewEtag_of_bytes hbytes

/-- The carried sidecar has the content metadata of the source. -/
theorem content_carriedSidecar (P : Platform) (e : DataRecord × Option MetaRecord) (bytes : Bytes)
    (dst : Str) (modifiedMs : Option Number) :
    (carriedSidecar P e bytes dst modifiedMs).ct = e.2.bind (·.ct) ∧
      (carriedSidecar P e bytes dst modifiedMs).um = e.2.bind (·.um) := by
  simp only [carriedSidecar, MetaRecord.new, carriedContent]
  cases e.2 with
  | none => cases viewEtag P (some e) <;> exact ⟨rfl, rfl⟩
  | some r => exact ⟨rfl, rfl⟩

/-- The carried length is the one the source was found with. -/
theorem size_carried (hbytes : e.1.v = .uint8Array bytes) (hlen : bytes.length < 2 ^ 32) :
    some (carriedSize e bytes).asU64 = (viewInfo P e).entryMeta.size := by
  rw [(fields_viewInfo e).1, carriedSize]
  cases e.2 with
  | some r => rfl
  | none =>
    simp only [valueByteLength, hbytes]
    rw [Number.asU64_ofNat (lt_trans hlen (by norm_num))]

/-- The entry a copy reports is its sidecar's. -/
theorem copiedInfo_eq (hbytes : e.1.v = .uint8Array bytes) (dst : Str) (now : Number) :
    copiedInfo P now e (carriedSize e bytes) =
      ⟨.ofRecord (carriedSidecar P e bytes dst (some now))⟩ := by
  obtain ⟨etag, hetag⟩ := Option.isSome_iff_exists.1 (viewEtag_of_bytes (P := P) hbytes)
  have hcontent : ∃ content, carriedContent P e = some content ∧ content.etag = some etag := by
    rw [carriedContent, hetag]
    cases e.2 <;> exact ⟨_, rfl, rfl⟩
  obtain ⟨content, hcontent, hcetag⟩ := hcontent
  simp only [copiedInfo, carriedSidecar, hcontent, hetag, EntryMeta.ofRecord, MetaRecord.new,
    MetaContent.ofRecord, Option.getD_some, ← hcetag]

/-- **The metadata are carried**, under any path, but for the time. -/
theorem entryMetadata_carried (hbytes : e.1.v = .uint8Array bytes) (hlen : bytes.length < 2 ^ 32)
    (dst : Str) (modifiedMs : Option Number) (path : Str) :
    entryMetadata P path ⟨.ofRecord (carriedSidecar P e bytes dst modifiedMs)⟩ =
      { entryMetadata P path (viewInfo P e) with
        lastModified := modifiedMs.bind fun ms => P.fromMillisecond ms.asI64 } := by
  obtain ⟨hct, hum⟩ := content_carriedSidecar P e bytes dst modifiedMs
  obtain ⟨-, -, hct', hum'⟩ := fields_viewInfo (P := P) e
  have hetag : (viewInfo P e).entryMeta.etag = (carriedSidecar P e bytes dst modifiedMs).e :=
    (etag_carriedSidecar P e bytes dst modifiedMs).symm
  rw [entryMetadata_eq_fields, entryMetadata_eq_fields, ← size_carried hbytes hlen, hct', hum',
    hetag, ← hct, ← hum]
  rfl

/-! ## The two operations -/

/-- A read without conditions. -/
def plainRead (range : ReadRange) : ReadArgs := ⟨none, none, none, none, range⟩

/-- A read without conditions returns what the view holds. -/
theorem read_plainRead (P : Platform) (path : Str) (range : ReadRange) (s : Stores) :
    read P path (plainRead range) s =
      match s.view path with
      | none => .ok none
      | some e => readValue (plainRead range) path (viewInfo P e) e.1 := by
  rw [read_eq_view]
  cases s.view path with
  | none => rfl
  | some e =>
    simp only [readView, checkRead_of_no_conditions (show (plainRead range).hasConditions = false
      from rfl)]

/-- **What was under `src` in `s` is under `dst` in `t`**: the record `v`
of `bytes`, with a sidecar and the time `modifiedMs`. Neither has anything
of what was under `dst`. -/
structure Carried (P : Platform) (s t : Stores) (src dst : Str) (v : DataRecord) (bytes : Bytes)
    (modifiedMs : Option Number) : Prop where
  record : t.store.get (.text dst) = some ⟨.text dst, .uint8Array bytes⟩
  sidecar : t.metaStore.get (.text dst) = some (.sidecar
    (carriedSidecar P (v, readMeta s.metaStore src) bytes dst modifiedMs))
  etag : (carriedSidecar P (v, readMeta s.metaStore src) bytes dst modifiedMs).e ≠ none
  metadata : ∃ before after, stat P src s = some before ∧ stat P dst t = some after ∧
    ∀ path, entryMetadata P path after =
      { entryMetadata P path before with
        lastModified := modifiedMs.bind fun ms => P.fromMillisecond ms.asI64 }
  content : ∀ range, ∃ before after part,
    read P src (plainRead range) s = .ok (some (before, part)) ∧
      read P dst (plainRead range) t = .ok (some (after, part))

section Operations

variable {v : DataRecord} (hsrc : s.store.get (.text src) = some v)
  (hbytes : v.v = .uint8Array bytes) (hlen : bytes.length < 2 ^ 32)
include hsrc hbytes hlen

/-- A record put under its new key, with its sidecar, is carried. -/
theorem Carried.of_get {modifiedMs : Option Number}
    (hstore : t.store.get (.text dst) = some (setRecordKey v dst))
    (hmeta : t.metaStore.get (.text dst) = some (.sidecar
      (carriedSidecar P (v, readMeta s.metaStore src) bytes dst modifiedMs))) :
    Carried P s t src dst v bytes modifiedMs := by
  have hview := view_of_get hsrc
  have hview' : t.view dst = some (setRecordKey v dst,
      some (carriedSidecar P (v, readMeta s.metaStore src) bytes dst modifiedMs)) := by
    simp [Stores.view, readMeta, hstore, hmeta, MetaValue.decode]
  have hinfo := viewInfo_carried (P := P) (e := (v, readMeta s.metaStore src)) hbytes
    (setRecordKey v dst) dst modifiedMs
  refine ⟨?_, hmeta, ?_, ⟨viewInfo P (v, readMeta s.metaStore src),
    ⟨.ofRecord (carriedSidecar P (v, readMeta s.metaStore src) bytes dst modifiedMs)⟩,
    ?_, ?_, fun path => ?_⟩, fun range => ?_⟩
  · rw [hstore, setRecordKey, hbytes]
  · rw [etag_carriedSidecar]
    exact Option.isSome_iff_ne_none.1 (viewEtag_of_bytes hbytes)
  · rw [stat_eq_view, hview, Option.map_some]
  · rw [stat_eq_view, hview', Option.map_some, hinfo]
  · exact entryMetadata_carried hbytes hlen dst modifiedMs path
  · -- the same bytes, cut by the same length
    have hsize := size_carried (P := P) (e := (v, readMeta s.metaStore src)) hbytes hlen
    rw [read_plainRead, read_plainRead, hview, hview']
    have hbytes' : (setRecordKey v dst).v = .uint8Array bytes := hbytes
    simp only [hinfo, readValue_of_bytes hbytes, readValue_of_bytes hbytes', ← hsize]
    exact ⟨_, _, _, rfl, rfl⟩

/-- **A move carries everything**, and nothing stays behind. -/
theorem rename_carries (hne : src ≠ dst) :
    ∃ t, IndexeddbCore.rename P src dst s = (.ok (), t) ∧
      Carried P s t src dst v bytes ((readMeta s.metaStore src).bind (·.m)) ∧
      (∃ before after, stat P src s = some before ∧ stat P dst t = some after ∧
        ∀ path, entryMetadata P path after = entryMetadata P path before) ∧
      t.store.get (.text src) = none ∧ t.metaStore.get (.text src) = none ∧
      ∀ key, key ≠ .text src → key ≠ .text dst →
        t.store.get key = s.store.get key ∧ t.metaStore.get key = s.metaStore.get key := by
  have hview := view_of_get hsrc
  have hsize := sourceSize_eq (e := (v, readMeta s.metaStore src)) hbytes src
  have hrename := rename_eq_view hne P s
  simp only [hview, renamePlan, hsize] at hrename
  have hne' : dst ≠ src := hne.symm
  have hcarried : Carried P s (deleteKey (s.carried P (v, readMeta s.metaStore src) dst
      (carriedSize (v, readMeta s.metaStore src) bytes) ((readMeta s.metaStore src).bind (·.m)))
      src) src dst v bytes ((readMeta s.metaStore src).bind (·.m)) := by
    refine Carried.of_get hsrc hbytes hlen ?_ ?_
    · simp [deleteKey, Stores.carried, Stores.putEntry, setRecordKey, hne']
    · simp [deleteKey, Stores.carried, Stores.putEntry, MetaValue.k, MetaRecord.new, hne',
        carriedSidecar]
  refine ⟨_, hrename, hcarried, ?_, by simp [deleteKey], by simp [deleteKey],
    fun key hks hkd => ?_⟩
  · -- the time it was found with is the one it is carried with
    obtain ⟨before, after, hbefore, hafter, hmetadata⟩ := hcarried.metadata
    refine ⟨before, after, hbefore, hafter, fun path => ?_⟩
    rw [stat_eq_view, hview, Option.map_some, Option.some_inj] at hbefore
    have htime := (fields_viewInfo (P := P) (v, readMeta s.metaStore src)).2.1
    rw [hmetadata path, ← htime, hbefore, entryMetadata_eq_fields]
    rfl
  · simp [deleteKey, Stores.carried, Stores.putEntry, setRecordKey, MetaValue.k, MetaRecord.new,
      hks, hkd]

/-- **A copy carries everything but the time**, which is now, and changes
only its destination. -/
theorem copy_carries (hne : src ≠ dst) (now : Number) (ifNotExists : Bool) (ifMatch : Option Str)
    (hnew : ifNotExists = true → s.store.contains (.text dst) = false)
    (hmatch : ∀ want ∈ ifMatch,
      etagMatches want (s.store.contains (.text dst)) (targetEtag P s dst) = true) :
    ∃ t after, IndexeddbCore.copy P now src dst ifNotExists ifMatch s =
        (.ok (entryMetadata P dst after), t) ∧
      Carried P s t src dst v bytes (some now) ∧ stat P dst t = some after ∧
      ∀ key, key ≠ .text dst →
        t.store.get key = s.store.get key ∧ t.metaStore.get key = s.metaStore.get key := by
  have hview := view_of_get hsrc
  have hsize := sourceSize_eq (e := (v, readMeta s.metaStore src)) hbytes src
  have hcopy := copy_eq_view hne P now ifNotExists ifMatch s
  rw [targetEtag_eq_view] at hmatch
  have hnot : ¬ (ifNotExists && (s.view dst).isSome) = true := by
    rw [view_isSome, Bool.and_eq_true]
    rintro ⟨hask, hthere⟩
    rw [hnew hask] at hthere
    exact absurd hthere Bool.false_ne_true
  have hmatched : ¬ ifMatch.any
      (fun want => !etagMatches want (s.view dst).isSome (viewEtag P (s.view dst))) = true := by
    rw [Option.any_eq_true]
    rintro ⟨want, hwant, hnomatch⟩
    rw [view_isSome, hmatch want hwant] at hnomatch
    exact absurd hnomatch Bool.false_ne_true
  simp only [hview, copyPlan, if_neg hnot, if_neg hmatched, hsize] at hcopy
  have hcarried : Carried P s (s.carried P (v, readMeta s.metaStore src) dst
      (carriedSize (v, readMeta s.metaStore src) bytes) (some now)) src dst v bytes (some now) := by
    refine Carried.of_get hsrc hbytes hlen ?_ ?_
    · simp [Stores.carried, Stores.putEntry, setRecordKey]
    · simp [Stores.carried, Stores.putEntry, MetaValue.k, MetaRecord.new, carriedSidecar]
  have hview' : (s.carried P (v, readMeta s.metaStore src) dst
      (carriedSize (v, readMeta s.metaStore src) bytes) (some now)).view dst = some
        (setRecordKey v dst,
          some (carriedSidecar P (v, readMeta s.metaStore src) bytes dst (some now))) := by
    rw [view_carried, if_pos rfl]
    rfl
  refine ⟨_, _, hcopy, hcarried, ?_, fun key hkey => ?_⟩
  · rw [stat_eq_view, hview', Option.map_some, viewInfo_carried hbytes, copiedInfo_eq hbytes dst]
  · simp [Stores.carried, Stores.putEntry, setRecordKey, MetaValue.k, MetaRecord.new, hkey]

/-- **Copies and moves carry everything**, from a source with a complete
sidecar, one without an ETag, one that does not decode or none, onto any
destination. The length of a record of bytes is a `u32`. -/
theorem copy_rename_carry (P : Platform) (hne : src ≠ dst) :
    (∃ t, IndexeddbCore.rename P src dst s = (.ok (), t) ∧
      Carried P s t src dst v bytes ((readMeta s.metaStore src).bind (·.m)) ∧
      (∃ before after, stat P src s = some before ∧ stat P dst t = some after ∧
        ∀ path, entryMetadata P path after = entryMetadata P path before) ∧
      t.store.get (.text src) = none ∧ t.metaStore.get (.text src) = none ∧
      ∀ key, key ≠ .text src → key ≠ .text dst →
        t.store.get key = s.store.get key ∧ t.metaStore.get key = s.metaStore.get key) ∧
    ∀ now ifNotExists ifMatch, (ifNotExists = true → s.store.contains (.text dst) = false) →
      (∀ want ∈ ifMatch,
        etagMatches want (s.store.contains (.text dst)) (targetEtag P s dst) = true) →
      ∃ t after, IndexeddbCore.copy P now src dst ifNotExists ifMatch s =
          (.ok (entryMetadata P dst after), t) ∧
        Carried P s t src dst v bytes (some now) ∧ stat P dst t = some after ∧
        ∀ key, key ≠ .text dst →
          t.store.get key = s.store.get key ∧ t.metaStore.get key = s.metaStore.get key :=
  ⟨rename_carries hsrc hbytes hlen hne, fun now ifNotExists ifMatch hnew hmatch =>
    copy_carries hsrc hbytes hlen hne now ifNotExists ifMatch hnew hmatch⟩

end Operations

/-- The byte 0 under `a` without a sidecar, and an orphan under `b`. -/
def carryStores : Stores :=
  ⟨OrderedStore.empty.put (KeyAndValue.toValue ⟨['a'], [0]⟩),
    OrderedStore.empty.put (.sidecar ⟨['b'], .ofNat 3, none, some ['x'], none, none⟩)⟩

/-- A record without a sidecar is moved onto an orphan, which goes. -/
theorem copy_rename_carry_orphan :
    ∃ t, IndexeddbCore.rename referencePlatform ['a'] ['b'] carryStores = (.ok (), t) ∧
      Carried referencePlatform carryStores t ['a'] ['b'] (KeyAndValue.toValue ⟨['a'], [0]⟩) [0]
        none ∧ t.store.get (.text ['a']) = none := by
  have hsrc : carryStores.store.get (.text ['a']) = some (KeyAndValue.toValue ⟨['a'], [0]⟩) := rfl
  have hne : ['a'] ≠ ['b'] := by decide
  obtain ⟨⟨t, hrename, hcarried, -, hgone, -⟩, -⟩ := copy_rename_carry hsrc
    (rfl : _ = RecordValue.uint8Array [0]) (by decide) referencePlatform hne
  exact ⟨t, hrename, hcarried, hgone⟩

end OpendalIndexeddb
