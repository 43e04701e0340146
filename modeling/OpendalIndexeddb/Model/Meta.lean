import OpendalIndexeddb.Model.Store
/-!
# Sidecars, entries and conditions

`backend/meta.rs`: what an entry's metadata is, how it is read from a
sidecar or measured from the record, and how conditions are evaluated
against it.
-/

namespace OpendalIndexeddb

/-! ## Errors -/

/-- The `opendal::ErrorKind`s the backend raises. -/
inductive ErrorKind where
  | unexpected
  | notFound
  | conditionNotMatch
  | isSameFile
deriving DecidableEq

/-- An `opendal::Error`. -/
structure Error where
  kind : ErrorKind
  message : String
  context : List (String × Str)
deriving DecidableEq

def Error.new (kind : ErrorKind) (message : String) : Error := ⟨kind, message, []⟩

def Error.withContext (err : Error) (name : String) (value : Str) : Error :=
  { err with context := err.context ++ [(name, value)] }

/-! ## What the crate takes from others -/

/-- An instant, in nanoseconds since the Unix epoch. -/
abbrev Timestamp := ℤ

/-- `opendal::EntryMode`. -/
inductive EntryMode where
  | file
  | dir
deriving DecidableEq

/-- **The functions of other crates**, about which nothing is assumed:
a result that needs a property of one of them says so. -/
structure Platform where
  /-- `blake3::hash(bytes).to_hex()`. -/
  blake3Hex : Bytes → Str
  /-- `Timestamp::from_millisecond(ms).ok()`. -/
  fromMillisecond : ℤ → Option Timestamp
  /-- `EntryMode::from_path`. -/
  fromPath : Str → EntryMode

variable (P : Platform)

/-! ## Content metadata and entries -/

/-- What a sidecar keeps besides length and time. -/
structure MetaContent where
  etag : Option Str
  contentType : Option Str
  userMetadata : Option UserMetadata
deriving DecidableEq

def MetaContent.default : MetaContent := ⟨none, none, none⟩

/-- `MetaContent::from(&MetaRecord)`. -/
def MetaContent.ofRecord (r : MetaRecord) : MetaContent := ⟨r.e, r.ct, r.um⟩

/-- Takes over each field a request supplies. -/
def MetaContent.merge (self value : MetaContent) : MetaContent :=
  { self with
    contentType := if value.contentType.isSome then value.contentType else self.contentType
    userMetadata := if value.userMetadata.isSome then value.userMetadata else self.userMetadata }

/-- `MetaRecord::new`. -/
def MetaRecord.new (k : Str) (l : Number) (m : Option Number) (content : Option MetaContent) :
    MetaRecord :=
  let content := content.getD .default
  { k, l, m, e := content.etag, ct := content.contentType, um := content.userMetadata }

structure EntryMeta where
  size : Option ℕ
  lastModifiedMs : Option Number
  etag : Option Str
  content : Option MetaContent
deriving DecidableEq

namespace EntryMeta

def default : EntryMeta := ⟨none, none, none, none⟩

def fromSize (size : Option ℕ) : EntryMeta := { default with size }

def withSize (self : EntryMeta) (size : Option ℕ) : EntryMeta := { self with size }

def withLastModifiedMs (self : EntryMeta) (ms : Option Number) : EntryMeta :=
  { self with lastModifiedMs := ms }

def withEtag (self : EntryMeta) (etag : Option Str) : EntryMeta := { self with etag }

/-- `EntryMeta::from(MetaRecord)`. -/
def ofRecord (r : MetaRecord) : EntryMeta :=
  { size := some r.l.asU64, lastModifiedMs := r.m, etag := r.e, content := some (.ofRecord r) }

/-- `EntryMeta::from(Option<MetaRecord>)`. -/
def ofOption : Option MetaRecord → EntryMeta
  | some r => ofRecord r
  | none => default

end EntryMeta

/-- A sidecar's entry, with an ETag computed elsewhere where the sidecar
has none. -/
def entryMetaWithEtagFallback (r : MetaRecord) (etag : Option Str) : EntryMeta :=
  let entry := EntryMeta.ofRecord r
  if entry.etag.isNone then
    { entry with etag, content := entry.content.map fun content => { content with etag } }
  else entry

structure EntryInfo where
  entryMeta : EntryMeta
deriving DecidableEq

/-! ## Reading records -/

/-- Rewrites the `k` field, so that the record goes under another key. -/
def setRecordKey (record : DataRecord) (key : Str) : DataRecord := { record with k := .text key }

/-- The sidecar under a key, when there is one that deserializes. -/
def readMeta (metaStore : OrderedStore Key MetaValue MetaValue.k) (key : Str) :
    Option MetaRecord :=
  (metaStore.get (.text key)).bind MetaValue.decode

def recordValueAsUint8Array (record : DataRecord) (path : Str) : Except Error Bytes :=
  match record.v with
  | .uint8Array bytes => .ok bytes
  | .other => .error <|
      (Error.new .unexpected "indexeddb record value is not a byte array").withContext "path" path

def recordBytes (record : DataRecord) (path : Str) : Except Error Bytes :=
  recordValueAsUint8Array record path

/-- The byte range a read asks for. -/
structure ReadRange where
  offset : ℕ
  size : Option ℕ
deriving DecidableEq

/-- The range within a value of `total` bytes, cast to the 32-bit
`usize`. -/
def clampReadRange (range : ReadRange) (total : ℕ) : ℕ × ℕ :=
  let start := min range.offset total
  let stop := match range.size with
    | some size => min (min (range.offset + size) (2 ^ 64 - 1)) total
    | none => total
  (start % 2 ^ 32, stop % 2 ^ 32)

/-- `arr.subarray(start, end).to_vec()`. -/
def recordBytesRange (record : DataRecord) (path : Str) (range : ReadRange) (total : ℕ) :
    Except Error Bytes :=
  match recordValueAsUint8Array record path with
  | .ok arr =>
    let (start, stop) := clampReadRange range total
    .ok ((arr.take stop).drop start)
  | .error err => .error err

/-- The content length of a source record: the value must be bytes, the
sidecar's length counts where there is one. -/
def sourceSize (sidecar : Option MetaRecord) (value : DataRecord) (path : Str) :
    Except Error Number :=
  match recordValueAsUint8Array value path with
  | .ok arr => .ok (match sidecar with
    | some r => r.l
    | none => Number.ofNat arr.length)
  | .error err => .error err

def valueByteLength (record : DataRecord) : Option ℕ :=
  match record.v with
  | .uint8Array bytes => some bytes.length
  | .other => none

/-- The quoted ETag of a content. -/
def etagFromBytes (bytes : Bytes) : Str := '"' :: P.blake3Hex bytes ++ ['"']

def valueEtag (record : DataRecord) : Option Str :=
  match record.v with
  | .uint8Array bytes => some (etagFromBytes P bytes)
  | .other => none

/-- The entry of a listed key. A key that ends in `/` and has no sidecar
gets the default entry without a look at its record. -/
def entryInfoForKey (s : Stores) (key : Str) (prefetched : Option MetaRecord) : EntryInfo :=
  match prefetched.or (readMeta s.metaStore key) with
  | some r =>
    let etag := if r.e.isNone then (s.store.get (.text key)).bind (valueEtag P) else none
    ⟨entryMetaWithEtagFallback r etag⟩
  | none =>
    if key.getLast? = some '/' then ⟨.default⟩
    else match s.store.get (.text key) with
      | some value => ⟨(EntryMeta.fromSize (valueByteLength value)).withEtag (valueEtag P value)⟩
      | none => ⟨.default⟩

def putMeta (metaStore : OrderedStore Key MetaValue MetaValue.k) (key : Str) (length : Number)
    (modifiedMs : Option Number) (content : Option MetaContent) :
    OrderedStore Key MetaValue MetaValue.k :=
  metaStore.put (.sidecar (.new key length modifiedMs content))

/-! ## Metadata -/

/-- `opendal::Metadata`, as far as the backend sets it. -/
structure Metadata where
  mode : EntryMode
  contentLength : Option ℕ
  lastModified : Option Timestamp
  etag : Option Str
  contentType : Option Str
  userMetadata : Option UserMetadata
deriving DecidableEq

def Metadata.new (mode : EntryMode) : Metadata := ⟨mode, none, none, none, none, none⟩

/-- The last modified time, when the entry has one that is an instant. -/
def lastModified (info : EntryInfo) : Option Timestamp :=
  info.entryMeta.lastModifiedMs.bind fun ms => P.fromMillisecond ms.asI64

def applyContentMetadata (md : Metadata) (content : MetaContent) : Metadata :=
  { md with
    contentType := if content.contentType.isSome then content.contentType else md.contentType
    userMetadata := if content.userMetadata.isSome then content.userMetadata
      else md.userMetadata }

def entryMetadata (path : Str) (info : EntryInfo) : Metadata :=
  let mode := P.fromPath path
  let md := { Metadata.new mode with
    contentLength := if mode = .file then info.entryMeta.size else none
    lastModified := lastModified P info
    etag := info.entryMeta.etag }
  match info.entryMeta.content with
  | some content => applyContentMetadata md content
  | none => md

/-! ## Conditions -/

/-- `if_match` and `if_none_match` against the ETag of an entry that
exists. -/
def checkEtag (info : EntryInfo) (ifMatch ifNoneMatch : Option Str) : Except Error Unit :=
  if ifMatch.any (fun want => !(want = ['*'] || info.entryMeta.etag = some want)) then
    .error (.new .conditionNotMatch "the entry's etag does not match if_match")
  else if ifNoneMatch.any (fun want => want = ['*'] || info.entryMeta.etag = some want) then
    .error (.new .conditionNotMatch "the entry's etag matches if_none_match")
  else .ok ()

/-- `if_modified_since` and `if_unmodified_since`; an unknown time passes
both. -/
def checkModified (info : EntryInfo) (ifModifiedSince ifUnmodifiedSince : Option Timestamp) :
    Except Error Unit :=
  match lastModified P info with
  | some last =>
    if ifModifiedSince.any (fun since => last ≤ since) then
      .error (.new .conditionNotMatch "the entry has not been modified since the given time")
    else if ifUnmodifiedSince.any (fun till => till < last) then
      .error (.new .conditionNotMatch "the entry has been modified since the given time")
    else .ok ()
  | none => .ok ()

/-! ## Requests -/

structure WriteArgs where
  append : Bool
  ifNotExists : Bool
  ifMatch : Option Str
  ifNoneMatch : Option Str
  content : Option MetaContent
deriving DecidableEq

structure ReadArgs where
  ifMatch : Option Str
  ifNoneMatch : Option Str
  ifModifiedSince : Option Timestamp
  ifUnmodifiedSince : Option Timestamp
  range : ReadRange
deriving DecidableEq

def ReadArgs.hasConditions (args : ReadArgs) : Bool :=
  args.ifMatch.isSome || args.ifNoneMatch.isSome || args.ifModifiedSince.isSome ||
    args.ifUnmodifiedSince.isSome

end OpendalIndexeddb
