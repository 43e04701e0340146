import OpendalIndexeddb.Model.Core
/-!
# The page scan

`get_all_string_keys_in` and `scan_page` of `backend/core.rs`. The store
returns keys by UTF-16 code units; every comparison the scan makes
itself is one of Rust strings.
-/

namespace OpendalIndexeddb

namespace IndexeddbCore

def metaJoinMinSize : ℕ := 32

/-- The range of string keys above `lower` and below `upper`. -/
def scanRange (lower : Str) (lowerOpen : Bool) (upper : Option Str) : KeyRange Key where
  lower := if lowerOpen then .excluded (.text lower) else .included (.text lower)
  upper := match upper with
    | some upper => .excluded (.text upper)
    | none => .unbounded

/-- The string keys among the first `limit` keys of a range, and how many
keys of any type were fetched. -/
def getAllStringKeysIn (store : OrderedStore Key DataRecord DataRecord.k) (lower : Str)
    (lowerOpen : Bool) (upper : Option Str) (limit : ℕ) : List Str × ℕ :=
  let keys := store.getAllKeysIn (scanRange lower lowerOpen upper) limit
  (keys.filterMap Key.asString, keys.length)

structure ScanPageRequest where
  keyPrefix : Str
  startAfter : Option Str
  skipPrefix : Option Str
  limit : ℕ
deriving DecidableEq

structure ScanPage where
  entries : List (Str × EntryInfo)
  nextStartAfter : Option Str
  skipPrefix : Option Str
  done : Bool
deriving DecidableEq

/-- The variables of the `'scan` loop. -/
structure ScanState where
  keys : List Str
  nextStartAfter : Option Str
  lower : Str
  lowerOpen : Bool
deriving DecidableEq

/-- Moves the lower bound onto a key without listing it. -/
def ScanState.pass (st : ScanState) (key : Str) : ScanState :=
  { st with nextStartAfter := some key, lower := key, lowerOpen := true }

/-- Moves the lower bound onto a key and lists it. -/
def ScanState.take (st : ScanState) (key : Str) : ScanState :=
  { keys := st.keys ++ [key], nextStartAfter := some key, lower := key, lowerOpen := true }

/-- Moves the lower bound past a skipped prefix, to `lower`. -/
def ScanState.jump (st : ScanState) (key lower : Str) : ScanState :=
  { st with nextStartAfter := some key, lower, lowerOpen := false }

/-- How the loop over the fetched keys ends. -/
inductive ScanFlow where
  /-- `break 'scan`, with the value of `done`. -/
  | breakScan (st : ScanState) (done : Bool)
  /-- `continue 'scan`. -/
  | continueScan (st : ScanState)
  /-- Every fetched key was looked at. -/
  | exhausted (st : ScanState)

/-- The test that a key is at or before the resume point. -/
def ScanPageRequest.resumed (req : ScanPageRequest) (key : Str) : Bool :=
  req.startAfter.any fun startAfter => strLe key startAfter

/-- The test that a key is the marker of the listed directory. -/
def ScanPageRequest.isMarker (req : ScanPageRequest) (key : Str) : Bool :=
  key = req.keyPrefix && req.keyPrefix.getLast? = some '/'

/-- The loop over the fetched keys. -/
def scanFetched (req : ScanPageRequest) : List Str → ScanState → ScanFlow
  | [], st => .exhausted st
  | key :: fetched, st =>
    if !(req.keyPrefix <+: key : Bool) then .breakScan st true
    else if req.resumed key then scanFetched req fetched (st.pass key)
    else if req.isMarker key then scanFetched req fetched (st.pass key)
    else match req.skipPrefix.filter (· <+: key) with
      | some skipPrefix =>
        match prefixUpperBound skipPrefix with
        | some nextLower =>
          if strLt st.lower nextLower then .continueScan (st.jump key nextLower)
          else .breakScan { st with nextStartAfter := some key } true
        | none => .breakScan { st with nextStartAfter := some key } true
      | none =>
        let st := st.take key
        -- a full page may have more behind it
        if req.limit ≤ st.keys.length then .breakScan st false
        else scanFetched req fetched st

/-- The `'scan` loop, for at most `fuel` iterations. -/
def scanLoop (store : OrderedStore Key DataRecord DataRecord.k) (req : ScanPageRequest)
    (upper : Option Str) : ℕ → ScanState → Option (ScanState × Bool)
  | 0, _ => none
  | fuel + 1, st =>
    if upper.any (fun upper => strLe upper st.lower) then some (st, true)
    else
      let remaining := req.limit - st.keys.length
      let (fetched, fetchedLen) := getAllStringKeysIn store st.lower st.lowerOpen upper remaining
      if fetchedLen = 0 then some (st, true)
      else if fetched = [] then some (st, true)
      else match scanFetched req fetched st with
        | .breakScan st done => some (st, done)
        | .continueScan st => scanLoop store req upper fuel st
        | .exhausted st =>
          -- fewer keys than asked for are the last of the range
          if fetchedLen < remaining then some (st, true) else scanLoop store req upper fuel st

/-- The sidecars of a page, read with one cursor where the page is long
enough. -/
def prefetchMetas (metaStore : OrderedStore Key MetaValue MetaValue.k) (keys : List Str) :
    List (Str × MetaRecord) :=
  if metaJoinMinSize ≤ keys.length then
    match keys.head?, keys.getLast? with
    | some firstKey, some lastKey =>
      (metaStore.cursor ⟨.included (.text firstKey), .included (.text lastKey)⟩).filterMap
        fun value => match value.k.asString, value.decode with
          | some key, some r => some (key, r)
          | _, _ => none
    | _, _ => []
  else []

/-- The entries of a page, each taking its sidecar out of the prefetched
ones. -/
def joinMetas (P : Platform) (s : Stores) :
    List Str → List (Str × MetaRecord) → List (Str × EntryInfo)
  | [], _ => []
  | key :: keys, metas =>
    (key, entryInfoForKey P s key (metas.lookup key)) ::
      joinMetas P s keys (metas.filter fun kr => kr.1 ≠ key)

/-- Where the scan of a request starts. -/
def ScanPageRequest.start (req : ScanPageRequest) : ScanState where
  keys := []
  nextStartAfter := req.startAfter
  lower := match req.startAfter with
    | some startAfter => if strLt req.keyPrefix startAfter then startAfter else req.keyPrefix
    | none => req.keyPrefix
  lowerOpen := req.startAfter.any fun startAfter => strLe req.keyPrefix startAfter

/-- One page of a listing. The fuel is one more than the store has
records; `none` would mean that it ran out, which it does not
(`scanPage_isSome`). -/
def scanPage (P : Platform) (req : ScanPageRequest) (s : Stores) : Option ScanPage :=
  if req.limit = 0 then some ⟨[], req.startAfter, req.skipPrefix, true⟩
  else
    let upper := prefixUpperBound req.keyPrefix
    if upper.any (fun upper => strLe upper req.start.lower) then
      some ⟨[], req.startAfter, req.skipPrefix, true⟩
    else
      match scanLoop s.store req upper (s.store.items.length + 1) req.start with
      | some (st, done) =>
        some ⟨joinMetas P s st.keys (prefetchMetas s.metaStore st.keys), st.nextStartAfter,
          req.skipPrefix, done⟩
      | none => none

end IndexeddbCore

end OpendalIndexeddb
