import OpendalIndexeddb.Common.Cursor
import OpendalIndexeddb.Common.Program
import OpendalIndexeddb.Model.Operation
/-!
# The requests of a transaction

The bodies of the transactions of `backend/core.rs`, request by request:
each `.await` on an object store is one request, and what the
transactions of others do may come between two of them.
-/

namespace OpendalIndexeddb

/-! ## Requests -/

/-- A request of an object store. A cursor is where it stands: opening it
and advancing it both ask for the first record of the range behind that
place. -/
inductive StoreRequest (ν : Type) where
  | get (key : Str)
  | contains (key : Str)
  | put (value : ν)
  | delete (key : Str)
  | clear
  | deleteRange (range : KeyRange Key)
  | getAllKeysIn (range : KeyRange Key) (limit : ℕ)
  | cursor (range : KeyRange Key) (past : Option Key)

/-- What a request is answered with. -/
@[reducible] def StoreRequest.Answer {ν : Type} : StoreRequest ν → Type
  | .get _ => Option ν
  | .contains _ => Bool
  | .put _ => Unit
  | .delete _ => Unit
  | .clear => Unit
  | .deleteRange _ => Unit
  | .getAllKeysIn _ _ => List Key
  | .cursor _ _ => Option ν

/-- A request that writes, which a transaction opened for reading is
refused. -/
def StoreRequest.writes {ν : Type} : StoreRequest ν → Bool
  | .get _ => false
  | .contains _ => false
  | .put _ => true
  | .delete _ => true
  | .clear => true
  | .deleteRange _ => true
  | .getAllKeysIn _ _ => false
  | .cursor _ _ => false

namespace OrderedStore

variable {ν : Type} {key : ν → Key}

def handle (s : OrderedStore Key ν key) :
    (r : StoreRequest ν) → r.Answer × OrderedStore Key ν key
  | .get k => (s.get (.text k), s)
  | .contains k => (s.contains (.text k), s)
  | .put value => ((), s.put value)
  | .delete k => ((), s.delete (.text k))
  | .clear => ((), .empty)
  | .deleteRange range => ((), s.deleteRange range)
  | .getAllKeysIn range limit => (s.getAllKeysIn range limit, s)
  | .cursor range past => (s.firstPast range past, s)

/-- A request that does not write leaves the store as it was. -/
theorem handle_of_not_writes (s : OrderedStore Key ν key) {r : StoreRequest ν}
    (h : r.writes = false) : (s.handle r).2 = s := by
  cases r with
  | put | delete | clear | deleteRange => simp [StoreRequest.writes] at h
  | get | contains | getAllKeysIn | cursor => rfl

end OrderedStore

/-- A request of one of the two stores of an operator. -/
inductive TxnRequest where
  | store (r : StoreRequest DataRecord)
  | metaStore (r : StoreRequest MetaValue)

def TxnRequest.writes : TxnRequest → Bool
  | .store r => r.writes
  | .metaStore r => r.writes

@[reducible] def TxnRequest.Answer : TxnRequest → Type
  | .store r => r.Answer
  | .metaStore r => r.Answer

/-- The loops of the transactions, at the head of an iteration. -/
inductive TxnLoop where
  /-- The `'scan` loop of `scan_page`. -/
  | scan (req : IndexeddbCore.ScanPageRequest) (upper : Option Str) (st : IndexeddbCore.ScanState)
  /-- The cursor loop of `scan_page`, with the sidecars read so far. -/
  | prefetch (range : KeyRange Key) (value : Option MetaValue) (metas : List (Str × MetaRecord))
  /-- The cursor loop of `delete_prefix_by_cursor`. -/
  | deletePrefix (keyPrefix : Str) (range : KeyRange Key) (value : Option DataRecord)

@[reducible] def TxnLoop.Result : TxnLoop → Type
  | .scan _ _ _ => IndexeddbCore.ScanState × Bool
  | .prefetch _ _ _ => List (Str × MetaRecord)
  | .deletePrefix _ _ _ => Unit

abbrev txnInterface : Interface := ⟨TxnRequest, TxnRequest.Answer, TxnLoop, TxnLoop.Result⟩

/-- The body of a transaction, request by request. -/
abbrev TxnProgram (α : Type) := Program txnInterface Error α

def Stores.handle (s : Stores) : (r : TxnRequest) → r.Answer × Stores
  | .store r => ((s.store.handle r).1, { s with store := (s.store.handle r).2 })
  | .metaStore r => ((s.metaStore.handle r).1, { s with metaStore := (s.metaStore.handle r).2 })

namespace Requests

/-- A request of the data store. -/
def store (r : StoreRequest DataRecord) : TxnProgram r.Answer :=
  Program.ask (I := txnInterface) (.store r)

/-- A request of the meta store. -/
def metaStore (r : StoreRequest MetaValue) : TxnProgram r.Answer :=
  Program.ask (I := txnInterface) (.metaStore r)

def loop (l : TxnLoop) : TxnProgram l.Result := Program.loop (I := txnInterface) l

/-- A result of code that makes no request. -/
def ofExcept {α : Type} : Except Error α → TxnProgram α
  | .ok a => .done a
  | .error err => .fail err

variable (P : Platform)

/-! ## `backend/meta.rs` -/

def readMeta (key : Str) : TxnProgram (Option MetaRecord) := do
  let value : Option MetaValue ← metaStore (.get key)
  return value.bind MetaValue.decode

def putMeta (key : Str) (length : Number) (modifiedMs : Option Number)
    (content : Option MetaContent) : TxnProgram Unit :=
  metaStore (.put (.sidecar (.new key length modifiedMs content)))

/-- The sidecar of a listed key, where it was not prefetched. -/
def readMetaUnless (prefetchedMeta : Option MetaRecord) (key : Str) :
    TxnProgram (Option MetaRecord) :=
  match prefetchedMeta with
  | some r => return some r
  | none => readMeta key

def entryInfoForKey (key : Str) (prefetchedMeta : Option MetaRecord) : TxnProgram EntryInfo := do
  let sidecar ← readMetaUnless prefetchedMeta key
  match sidecar with
  | some r =>
    let etag ← (if r.e.isNone then do
        let value : Option DataRecord ← store (.get key)
        return value.bind (valueEtag P)
      else return none : TxnProgram (Option Str))
    return ⟨entryMetaWithEtagFallback r etag⟩
  | none =>
    if key.getLast? = some '/' then return ⟨.default⟩
    else
      let value : Option DataRecord ← store (.get key)
      match value with
      | some value =>
        return ⟨(EntryMeta.fromSize (valueByteLength value)).withEtag (valueEtag P value)⟩
      | none => return ⟨.default⟩

/-! ## `backend/connection.rs` -/

/-- `delete_prefix_by_cursor`, which opens a cursor and deletes as the
cursor goes. -/
def deletePrefixByCursor (keyPrefix : Str) : TxnProgram Unit := do
  let range : KeyRange Key := ⟨.included (.text keyPrefix), .unbounded⟩
  let value : Option DataRecord ← store (.cursor range none)
  loop (.deletePrefix keyPrefix range value)

def deletePrefix (keyPrefix : Str) : TxnProgram Unit :=
  if keyPrefix = [] then do
    store .clear
    metaStore .clear
  else match prefixUpperBound keyPrefix with
    | some upper => do
      store (.deleteRange (textRange keyPrefix upper))
      metaStore (.deleteRange (textRange keyPrefix upper))
    | none => deletePrefixByCursor keyPrefix

/-! ## `backend/core.rs` -/

/-- The part of `read` that starts with the value. -/
def readRecord (path : Str) (args : ReadArgs) (sidecar : Option MetaRecord) :
    TxnProgram (Option (EntryInfo × Bytes)) := do
  let value : Option DataRecord ← store (.get path)
  match value with
  | none => return none
  | some value =>
    let info : EntryInfo := match sidecar with
      | some r => ⟨entryMetaWithEtagFallback r (valueEtag P value)⟩
      | none => ⟨(EntryMeta.fromSize (valueByteLength value)).withEtag (valueEtag P value)⟩
    ofExcept (IndexeddbCore.checkRead P args path info)
    ofExcept (IndexeddbCore.readValue args path info value)

def read (path : Str) (args : ReadArgs) : TxnProgram (Option (EntryInfo × Bytes)) := do
  let sidecar ← readMeta path
  match sidecar.filter (·.e.isSome) with
  | some r =>
    let info : EntryInfo := ⟨.ofRecord r⟩
    -- `has_conditions &&` asks for the record only where there are conditions
    let present ← (if args.hasConditions then store (.contains path)
      else pure true : TxnProgram Bool)
    if !present then return none
    else
      ofExcept (IndexeddbCore.checkRead P args path info)
      let value : Option DataRecord ← store (.get path)
      match value with
      | none => return none
      | some value => ofExcept (IndexeddbCore.readValue args path info value)
  | none => readRecord P path args sidecar

def set (now : Number) (path : Str) (incoming : Bytes) (args : WriteArgs) :
    TxnProgram EntryInfo := do
  let unconditionalOverwrite :=
    !args.append && !args.ifNotExists && args.ifMatch.isNone && args.ifNoneMatch.isNone
  let existingData ← (if unconditionalOverwrite then pure none
    else store (.get path) : TxnProgram (Option DataRecord))
  let present := existingData.isSome
  let existingMeta ← (if present then readMeta path
    else pure none : TxnProgram (Option MetaRecord))
  let existingEtag := (existingMeta.bind (·.e)).or (existingData.bind (valueEtag P))
  if args.ifNotExists && present then
    .fail ((Error.new .conditionNotMatch "path already exists").withContext "path" path)
  else if args.ifMatch.any (fun want => !IndexeddbCore.etagMatches want present existingEtag) then
    .fail ((Error.new .conditionNotMatch "the entry's etag does not match if_match").withContext
      "path" path)
  else if args.ifNoneMatch.any
      (fun want => IndexeddbCore.etagMatches want present existingEtag) then
    .fail ((Error.new .conditionNotMatch "the entry's etag matches if_none_match").withContext
      "path" path)
  else
    let kept ← ofExcept <| if args.append then
        match existingData with
        | some value => recordBytes value path
        | none => .ok []
      else .ok []
    let bytes := kept ++ incoming
    let etag := etagFromBytes P bytes
    let length := Number.ofNat bytes.length
    let modifiedMs := some now
    let kv : KeyAndValue := { k := path, v := bytes }
    let carried := match args.append, existingMeta with
      | true, some r => MetaContent.ofRecord r
      | _, _ => .default
    let merged := match args.content with
      | some request => carried.merge request
      | none => carried
    let content := { merged with etag := some etag }
    let info : EntryInfo := ⟨{
      size := some length.asU64
      lastModifiedMs := modifiedMs
      etag := content.etag
      content := some content }⟩
    store (.put kv.toValue)
    metaStore (.put (.sidecar (.new path length modifiedMs (some content))))
    return info

/-- The loop over the batch of `delete_many`. It is over a list that is
there from the start, and no loop of requests. -/
def deleteBatch : List (Str × Bool) → List Str → TxnProgram (List Str)
  | [], exactKeys => .done exactKeys
  | (path, isRecursive) :: batch, exactKeys =>
    if !isRecursive then deleteBatch batch (exactKeys ++ [path])
    else do
      let target := recursiveDeleteTarget path
      deletePrefix target.keyPrefix
      deleteBatch batch (exactKeys ++ target.exactKey.toList)

/-- The loop over the exact keys of `delete_many`. -/
def deleteKeys : List Str → TxnProgram Unit
  | [] => .done ()
  | key :: exactKeys => do
    store (.delete key)
    metaStore (.delete key)
    deleteKeys exactKeys

def deleteMany (batch : List (Str × Bool)) : TxnProgram Unit := do
  let exactKeys ← deleteBatch batch []
  deleteKeys exactKeys

def stat (path : Str) : TxnProgram (Option EntryInfo) := do
  let sidecar ← readMeta path
  match sidecar with
  | some r =>
    -- a sidecar has an ETag or none, so that one of the two tests asks
    if r.e.isSome then
      let present : Bool ← store (.contains path)
      if present then return some ⟨.ofRecord r⟩ else return none
    else
      let value : Option DataRecord ← store (.get path)
      match value with
      | some value => return some ⟨entryMetaWithEtagFallback r (valueEtag P value)⟩
      | none => return none
  | none =>
    let value : Option DataRecord ← store (.get path)
    match value with
    | some value =>
      return some ⟨(EntryMeta.fromSize (valueByteLength value)).withEtag (valueEtag P value)⟩
    | none => return none

/-! ### The page scan -/

def getAllStringKeysIn (lower : Str) (lowerOpen : Bool) (upper : Option Str) (limit : ℕ) :
    TxnProgram (List Str × ℕ) := do
  let keys : List Key ←
    store (.getAllKeysIn (IndexeddbCore.scanRange lower lowerOpen upper) limit)
  return (keys.filterMap Key.asString, keys.length)

/-- The cursor over the sidecars of a page. -/
def prefetchMetas (keys : List Str) : TxnProgram (List (Str × MetaRecord)) :=
  if IndexeddbCore.metaJoinMinSize ≤ keys.length then
    match keys.head?, keys.getLast? with
    | some firstKey, some lastKey => do
      let range : KeyRange Key := ⟨.included (.text firstKey), .included (.text lastKey)⟩
      let value : Option MetaValue ← metaStore (.cursor range none)
      loop (.prefetch range value [])
    | _, _ => return []
  else return []

/-- The loop over the keys of a page. -/
def joinMetas : List Str → List (Str × MetaRecord) → TxnProgram (List (Str × EntryInfo))
  | [], _ => .done []
  | key :: keys, metas => do
    let info ← entryInfoForKey P key (metas.lookup key)
    let entries ← joinMetas keys (metas.filter fun kr => kr.1 ≠ key)
    return (key, info) :: entries

/-- `scan_page`, from where it opens its transaction. -/
def scanPage (req : IndexeddbCore.ScanPageRequest) : TxnProgram IndexeddbCore.ScanPage := do
  let (st, done) : IndexeddbCore.ScanState × Bool ←
    loop (.scan req (prefixUpperBound req.keyPrefix) req.start)
  let metas ← prefetchMetas st.keys
  let entries ← joinMetas P st.keys metas
  return ⟨entries, st.nextStartAfter, req.skipPrefix, done⟩

/-! ### Copying and moving -/

/-- The ETag of the destination of a copy, for `if_match`. -/
def targetEtag (dst : Str) (targetExists : Bool) : TxnProgram (Option Str) :=
  if targetExists then do
    let sidecar ← readMeta dst
    match sidecar.bind (·.e) with
    | some etag => return some etag
    | none =>
      let value : Option DataRecord ← store (.get dst)
      return value.bind (valueEtag P)
  else return none

/-- Whether a copy may replace its destination. The ETag there is looked up
for `if_match` alone. -/
def targetMatches (ifMatch : Option Str) (dst : Str) (targetExists : Bool) : TxnProgram Bool :=
  match ifMatch with
  | some want => do
    let etag ← targetEtag P dst targetExists
    return IndexeddbCore.etagMatches want targetExists etag
  | none => return true

def copy (now : Number) (src dst : Str) (ifNotExists : Bool) (ifMatch : Option Str) :
    TxnProgram Metadata := do
  let value : Option DataRecord ← store (.get src)
  match value with
  | none => .fail (IndexeddbCore.notFoundFrom src)
  | some value =>
    let targetExists : Bool ← store (.contains dst)
    if ifNotExists && targetExists then
      .fail ((Error.new .conditionNotMatch "path already exists").withContext "to" dst)
    else
      let matched ← targetMatches P ifMatch dst targetExists
      if !matched then
        .fail ((Error.new .conditionNotMatch
          "the destination entry's etag does not match if_match").withContext "to" dst)
      else
        let sourceMeta ← readMeta src
        let size ← ofExcept (sourceSize sourceMeta value src)
        let etag := IndexeddbCore.sourceEtag P sourceMeta value
        store (.put (setRecordKey value dst))
        let entry := (((EntryMeta.ofOption sourceMeta).withSize
          (some size.asU64)).withLastModifiedMs (some now)).withEtag etag
        let entry := { entry with content := IndexeddbCore.contentWithEtag entry.content etag }
        putMeta dst size (some now) entry.content
        return entryMetadata P dst ⟨entry⟩

def rename (src dst : Str) : TxnProgram Unit := do
  let value : Option DataRecord ← store (.get src)
  match value with
  | none => .fail (IndexeddbCore.notFoundFrom src)
  | some value =>
    let sourceMeta ← readMeta src
    let size ← ofExcept (sourceSize sourceMeta value src)
    let modifiedMs := sourceMeta.bind (·.m)
    let content := IndexeddbCore.contentWithEtag (sourceMeta.map MetaContent.ofRecord)
      (IndexeddbCore.sourceEtag P sourceMeta value)
    store (.put (setRecordKey value dst))
    store (.delete src)
    putMeta dst size modifiedMs content
    metaStore (.delete src)

/-! ## The loops -/

/-- An iteration of the `'scan` loop. -/
def scanBody (req : IndexeddbCore.ScanPageRequest) (upper : Option Str)
    (st : IndexeddbCore.ScanState) : TxnProgram (IndexeddbCore.ScanState × Bool) :=
  if upper.any (fun upper => strLe upper st.lower) then return (st, true)
  else do
    let remaining := req.limit - st.keys.length
    let (fetched, fetchedLen) ← getAllStringKeysIn st.lower st.lowerOpen upper remaining
    if fetchedLen = 0 then return (st, true)
    else if fetched = [] then return (st, true)
    else match IndexeddbCore.scanFetched req fetched st with
      | .breakScan st done => return (st, done)
      | .continueScan st => loop (.scan req upper st)
      | .exhausted st =>
        if fetchedLen < remaining then return (st, true) else loop (.scan req upper st)

/-- An iteration of the cursor loop over the sidecars of a page. The
`HashMap` is filled in key order, so that no key is in it yet. -/
def prefetchBody (range : KeyRange Key) (value : Option MetaValue)
    (metas : List (Str × MetaRecord)) : TxnProgram (List (Str × MetaRecord)) :=
  match value with
  | none => return metas
  | some value => do
    let metas := match value.k.asString, value.decode with
      | some key, some r => metas ++ [(key, r)]
      | _, _ => metas
    let next : Option MetaValue ← metaStore (.cursor range (some value.k))
    loop (.prefetch range next metas)

/-- An iteration of the cursor loop of `delete_prefix_by_cursor`. -/
def deletePrefixBody (keyPrefix : Str) (range : KeyRange Key) (value : Option DataRecord) :
    TxnProgram Unit :=
  match value with
  | none => return ()
  | some value =>
    match value.k.asString with
    | some key =>
      if !(keyPrefix <+: key : Bool) then return ()
      else do
        store (.delete key)
        metaStore (.delete key)
        let next : Option DataRecord ← store (.cursor range (some value.k))
        loop (.deletePrefix keyPrefix range next)
    | none => do
      let next : Option DataRecord ← store (.cursor range (some value.k))
      loop (.deletePrefix keyPrefix range next)

def body : (l : TxnLoop) → TxnProgram l.Result
  | .scan req upper st => scanBody req upper st
  | .prefetch range value metas => prefetchBody range value metas
  | .deletePrefix keyPrefix range value => deletePrefixBody keyPrefix range value

end Requests

/-- Requests on the two stores of an operator. -/
def txnSemantics : Semantics txnInterface Error Stores := ⟨fun r s => s.handle r, Requests.body⟩

/-! ## Operations -/

section Operations

variable (O : Opendal) (P : Platform)

/-- An operation, request by request. One that opens no transaction makes
none. -/
def Mutation.program : Mutation → TxnProgram Outcome
  | .set now path value args => do
    let info ← Requests.set P now path value args
    return .metadata (.ok (entryMetadata P path info))
  | .createDir now root path =>
    if O.buildAbsPath root.text path ≠ O.buildAbsPath root.text [] then do
      let _ ← Requests.set P now (O.buildAbsPath root.text path) [] .overwrite
      return .unit (.ok ())
    else return .unit (.ok ())
  | .copy now src dst ifNotExists ifMatch =>
    if src = dst then
      .fail (((Error.new .isSameFile "copy from and to paths are the same").withContext
        "from" src).withContext "to" dst)
    else do
      let md ← Requests.copy P now src dst ifNotExists ifMatch
      return .metadata (.ok md)
  | .rename src dst =>
    if src = dst then
      .fail (((Error.new .isSameFile "rename from and to paths are the same").withContext
        "from" src).withContext "to" dst)
    else do
      Requests.rename P src dst
      return .unit (.ok ())
  | .delete path => do
    Requests.deleteMany [(path, false)]
    return .unit (.ok ())
  | .deleteRecursive path => do
    Requests.deleteMany [(path, true)]
    return .unit (.ok ())
  | .deleteMany batch => do
    Requests.deleteMany batch
    return .unit (.ok ())

def Op.program : Op → TxnProgram Outcome
  | .mutate m => m.program O P
  | .stat root path args =>
    let p := O.buildAbsPath root.text path
    if p = O.buildAbsPath root.text [] then return .metadata (.ok (.new .dir))
    else do
      let info ← Requests.stat P p
      return .metadata <| match info with
        | some info =>
          match checkModified P info args.ifModifiedSince args.ifUnmodifiedSince with
          | .error err => .error (err.withContext "path" path)
          | .ok () =>
            match checkEtag info args.ifMatch args.ifNoneMatch with
            | .error err => .error (err.withContext "path" path)
            | .ok () => .ok (entryMetadata P path info)
        | none => .error (IndexeddbBackend.notFound path)
  | .read root path args => do
    let entry ← Requests.read P (O.buildAbsPath root.text path) args
    return .content <| match entry with
      | some (info, bytes) => .ok (entryMetadata P path info, bytes)
      | none => .error (IndexeddbBackend.notFound path)
  | .scanPage root req =>
    -- a page without entries or without a range opens no transaction
    if req.limit = 0 ∨ (prefixUpperBound req.keyPrefix).any (fun upper =>
        strLe upper req.start.lower) then
      return IndexeddbCore.ScanPage.outcome O P root ⟨[], req.startAfter, req.skipPrefix, true⟩
    else do
      let page ← Requests.scanPage P req
      return page.outcome O P root

/-- `readwrite` of `run_transaction`. -/
def Op.readwrite : Op → Bool
  | .mutate _ => true
  | .stat _ _ _ => false
  | .read _ _ _ => false
  | .scanPage _ _ => false

/-- An error raised by the body of a transaction, as the operation
returns it. A page scan raises none. -/
def Op.failed : Op → Error → Outcome
  | .mutate (.set _ _ _ _), err => .metadata (.error err)
  | .mutate (.createDir _ _ _), err => .unit (.error err)
  | .mutate (.copy _ _ _ _ _), err => .metadata (.error err)
  | .mutate (.rename _ _), err => .unit (.error err)
  | .mutate (.delete _), err => .unit (.error err)
  | .mutate (.deleteRecursive _), err => .unit (.error err)
  | .mutate (.deleteMany _), err => .unit (.error err)
  | .stat _ _ _, err => .metadata (.error err)
  | .read _ _ _, err => .content (.error err)
  | .scanPage _ _, _ => .stuck

/-- What an operation returns, and the stores it leaves: the stores before
it where its transaction was rolled back. -/
def Op.settle (s : Stores) (op : Op) : Except Error (Outcome × Stores) → Outcome × Stores
  | .ok (outcome, s') => (outcome, s')
  | .error err => (op.failed err, s)

end Operations

end OpendalIndexeddb
