import OpendalIndexeddb.Model.Connection
/-!
# The operations on the stores

`backend/core.rs` without the page scan: each operation is the body of
one IndexedDB transaction, and `runTransaction` is what the transaction
makes of it.
-/

namespace OpendalIndexeddb

/-- The body of a transaction: what it returns and the stores it leaves,
or an error. -/
abbrev Txn (α : Type) := Stores → Except Error (α × Stores)

/-- A transaction whose body returns an error is aborted and leaves the
stores as they were. -/
def runTransaction {α : Type} (body : Txn α) (s : Stores) : Except Error α × Stores :=
  match body s with
  | .ok (value, s') => (.ok value, s')
  | .error err => (.error err, s)

namespace IndexeddbCore

variable (P : Platform)

/-! ## Reading -/

/-- The conditions of a read, with the path they are reported under. -/
def checkRead (args : ReadArgs) (path : Str) (info : EntryInfo) : Except Error Unit :=
  match checkModified P info args.ifModifiedSince args.ifUnmodifiedSince with
  | .error err => .error (err.withContext "path" path)
  | .ok () =>
    match checkEtag info args.ifMatch args.ifNoneMatch with
    | .error err => .error (err.withContext "path" path)
    | .ok () => .ok ()

/-- The bytes of a read, once its conditions hold. -/
def readValue (args : ReadArgs) (path : Str) (info : EntryInfo) (value : DataRecord) :
    Except Error (Option (EntryInfo × Bytes)) :=
  let totalSize := (info.entryMeta.size.or (valueByteLength value)).getD 0
  match recordBytesRange value path args.range totalSize with
  | .ok bytes => .ok (some (info, bytes))
  | .error err => .error err

def read (path : Str) (args : ReadArgs) (s : Stores) :
    Except Error (Option (EntryInfo × Bytes)) :=
  let fromValue (sidecar : Option MetaRecord) :=
    match s.store.get (.text path) with
    | none => .ok none
    | some value =>
      let info : EntryInfo := match sidecar with
        | some r => ⟨entryMetaWithEtagFallback r (valueEtag P value)⟩
        | none => ⟨(EntryMeta.fromSize (valueByteLength value)).withEtag (valueEtag P value)⟩
      match checkRead P args path info with
      | .error err => .error err
      | .ok () => readValue args path info value
  match readMeta s.metaStore path with
  | some r =>
    if r.e.isSome then
      let info : EntryInfo := ⟨.ofRecord r⟩
      -- without conditions, that there is no record shows when it is fetched
      if args.hasConditions && !s.store.contains (.text path) then .ok none
      else match checkRead P args path info with
        | .error err => .error err
        | .ok () =>
          match s.store.get (.text path) with
          | none => .ok none
          | some value => readValue args path info value
    else fromValue (some r)
  | none => fromValue none

def stat (path : Str) (s : Stores) : Option EntryInfo :=
  match (s.metaStore.get (.text path)).bind MetaValue.decode with
  | some r =>
    -- a sidecar without a record is an orphan, and counts for nothing
    if r.e.isSome && s.store.contains (.text path) then some ⟨.ofRecord r⟩
    else if r.e.isNone then
      match s.store.get (.text path) with
      | some value => some ⟨entryMetaWithEtagFallback r (valueEtag P value)⟩
      | none => none
    else none
  | none =>
    match s.store.get (.text path) with
    | some value => some ⟨(EntryMeta.fromSize (valueByteLength value)).withEtag (valueEtag P value)⟩
    | none => none

/-! ## Writing -/

/-- The match rule of the write conditions: `*` asks for existence, any
other value for that ETag. -/
def etagMatches (want : Str) (present : Bool) (etag : Option Str) : Bool :=
  (want = ['*'] && present) || etag = some want

/-- The transaction of a write. An unconditional overwrite does not read
the record it replaces. -/
def setTxn (now : Number) (path : Str) (incoming : Bytes) (args : WriteArgs) : Txn EntryInfo :=
  fun s =>
  let unconditionalOverwrite :=
    !args.append && !args.ifNotExists && args.ifMatch.isNone && args.ifNoneMatch.isNone
  let existingData := if unconditionalOverwrite then none else s.store.get (.text path)
  let present := existingData.isSome
  let existingMeta := if present then readMeta s.metaStore path else none
  let existingEtag := (existingMeta.bind (·.e)).or (existingData.bind (valueEtag P))
  if args.ifNotExists && present then
    .error ((Error.new .conditionNotMatch "path already exists").withContext "path" path)
  else if args.ifMatch.any (fun want => !etagMatches want present existingEtag) then
    .error ((Error.new .conditionNotMatch "the entry's etag does not match if_match").withContext
      "path" path)
  else if args.ifNoneMatch.any (fun want => etagMatches want present existingEtag) then
    .error ((Error.new .conditionNotMatch "the entry's etag matches if_none_match").withContext
      "path" path)
  else
    let kept := if args.append then
        match existingData with
        | some value => recordBytes value path
        | none => .ok []
      else .ok []
    match kept with
    | .error err => .error err
    | .ok kept =>
      let bytes := kept ++ incoming
      let etag := etagFromBytes P bytes
      let length := Number.ofNat bytes.length
      let modifiedMs := some now
      let kv : KeyAndValue := { k := path, v := bytes }
      -- an append keeps the content metadata but for what the request supplies
      let carried := match args.append, existingMeta with
        | true, some r => MetaContent.ofRecord r
        | _, _ => .default
      let merged := match args.content with
        | some request => carried.merge request
        | none => carried
      let content := { merged with etag := some etag }
      let info : EntryInfo := ⟨{
        size := some length.asU64
        lastModifiedMs := modifiedMs
        etag := content.etag
        content := some content }⟩
      .ok (info, ⟨s.store.put kv.toValue,
        s.metaStore.put (.sidecar (.new path length modifiedMs (some content)))⟩)

def set (now : Number) (path : Str) (value : Bytes) (args : WriteArgs) (s : Stores) :
    Except Error EntryInfo × Stores :=
  runTransaction (setTxn P now path value args) s

/-! ## Deleting -/

/-- The loop over a batch: ranges are removed at once, exact keys are
collected for afterwards. -/
def deleteBatch : List (Str × Bool) → List Str → Stores → List Str × Stores
  | [], exactKeys, s => (exactKeys, s)
  | (path, isRecursive) :: batch, exactKeys, s =>
    if !isRecursive then deleteBatch batch (exactKeys ++ [path]) s
    else
      let target := recursiveDeleteTarget path
      -- a path without a `/` at the end is a key of its own besides
      deleteBatch batch (exactKeys ++ target.exactKey.toList) (deletePrefix s target.keyPrefix)

def deleteMany (batch : List (Str × Bool)) (s : Stores) : Stores :=
  if batch = [] then s
  else
    let (exactKeys, s) := deleteBatch batch [] s
    exactKeys.foldl deleteKey s

def delete (path : Str) (s : Stores) : Stores := deleteMany [(path, false)] s

def deleteRecursive (path : Str) (s : Stores) : Stores := deleteMany [(path, true)] s

/-! ## Copying and moving -/

def notFoundFrom (src : Str) : Error :=
  (Error.new .notFound "indexeddb doesn't have this path").withContext "from" src

/-- A sidecar's ETag, or that of the value where it has none. -/
def sourceEtag (sourceMeta : Option MetaRecord) (value : DataRecord) : Option Str :=
  (sourceMeta.bind (·.e)).or (valueEtag P value)

/-- The ETag of a copy's destination, for `if_match`. -/
def targetEtag (s : Stores) (dst : Str) : Option Str :=
  if s.store.contains (.text dst) then
    match readMeta s.metaStore dst with
    | some r =>
      match r.e with
      | some etag => some etag
      | none => (s.store.get (.text dst)).bind (valueEtag P)
    | none => (s.store.get (.text dst)).bind (valueEtag P)
  else none

/-- The content metadata of a copy or a move: the source's, with the ETag
of the bytes. -/
def contentWithEtag (content : Option MetaContent) (etag : Option Str) : Option MetaContent :=
  match content with
  | some content => some { content with etag }
  | none =>
    match etag with
    | some etag => some { MetaContent.default with etag := some etag }
    | none => none

def copyTxn (now : Number) (src dst : Str) (ifNotExists : Bool) (ifMatch : Option Str) :
    Txn Metadata := fun s =>
  match s.store.get (.text src) with
  | none => .error (notFoundFrom src)
  | some value =>
    let targetExists := s.store.contains (.text dst)
    if ifNotExists && targetExists then
      .error ((Error.new .conditionNotMatch "path already exists").withContext "to" dst)
    else if ifMatch.any (fun want => !etagMatches want targetExists (targetEtag P s dst)) then
      .error ((Error.new .conditionNotMatch
        "the destination entry's etag does not match if_match").withContext "to" dst)
    else
      let sourceMeta := readMeta s.metaStore src
      match sourceSize sourceMeta value src with
      | .error err => .error err
      | .ok size =>
        let etag := sourceEtag P sourceMeta value
        let entry := (((EntryMeta.ofOption sourceMeta).withSize
          (some size.asU64)).withLastModifiedMs (some now)).withEtag etag
        let entry := { entry with content := contentWithEtag entry.content etag }
        .ok (entryMetadata P dst ⟨entry⟩, ⟨s.store.put (setRecordKey value dst),
          putMeta s.metaStore dst size (some now) entry.content⟩)

def copy (now : Number) (src dst : Str) (ifNotExists : Bool) (ifMatch : Option Str) (s : Stores) :
    Except Error Metadata × Stores :=
  if src = dst then
    (.error (((Error.new .isSameFile "copy from and to paths are the same").withContext
      "from" src).withContext "to" dst), s)
  else runTransaction (copyTxn P now src dst ifNotExists ifMatch) s

def renameTxn (src dst : Str) : Txn Unit := fun s =>
  match s.store.get (.text src) with
  | none => .error (notFoundFrom src)
  | some value =>
    let sourceMeta := readMeta s.metaStore src
    match sourceSize sourceMeta value src with
    | .error err => .error err
    | .ok size =>
      let modifiedMs := sourceMeta.bind (·.m)
      let content := contentWithEtag (sourceMeta.map MetaContent.ofRecord)
        (sourceEtag P sourceMeta value)
      .ok ((), ⟨(s.store.put (setRecordKey value dst)).delete (.text src),
        (putMeta s.metaStore dst size modifiedMs content).delete (.text src)⟩)

def rename (src dst : Str) (s : Stores) : Except Error Unit × Stores :=
  if src = dst then
    (.error (((Error.new .isSameFile "rename from and to paths are the same").withContext
      "from" src).withContext "to" dst), s)
  else runTransaction (renameTxn P src dst) s

end IndexeddbCore

end OpendalIndexeddb
