import OpendalIndexeddb.Model.Io
/-!
# The backend

`backend/access.rs`: the operations as OpenDAL calls them, with paths
relative to the root, and the listing they make of the listers.
-/

namespace OpendalIndexeddb

/-! ## Requests -/

structure OpStat where
  ifMatch : Option Str
  ifNoneMatch : Option Str
  ifModifiedSince : Option Timestamp
  ifUnmodifiedSince : Option Timestamp
deriving DecidableEq

structure OpList where
  limit : Option UInt32
  startAfter : Option Str
  recursive : Bool
deriving DecidableEq

/-- An unconditional overwrite without content metadata. -/
def WriteArgs.overwrite : WriteArgs := ⟨false, false, none, none, none⟩

namespace IndexeddbBackend

variable (O : Opendal) (P : Platform)

def notFound (path : Str) : Error :=
  (Error.new .notFound "indexeddb doesn't have this path").withContext "path" path

/-- `create_dir`, which has nothing to do for the root. -/
def createDir (now : Number) (root : Root) (path : Str) (s : Stores) :
    Except Error Unit × Stores :=
  let p := O.buildAbsPath root.text path
  if p ≠ O.buildAbsPath root.text [] then
    let (outcome, s) := IndexeddbCore.set P now p [] .overwrite s
    (outcome.map fun _ => (), s)
  else (.ok (), s)

/-- `stat`. The root always exists, and meets every condition. -/
def stat (root : Root) (path : Str) (args : OpStat) (s : Stores) : Except Error Metadata :=
  let p := O.buildAbsPath root.text path
  if p = O.buildAbsPath root.text [] then .ok (.new .dir)
  else match IndexeddbCore.stat P p s with
    | some info =>
      match checkModified P info args.ifModifiedSince args.ifUnmodifiedSince with
      | .error err => .error (err.withContext "path" path)
      | .ok () =>
        match checkEtag info args.ifMatch args.ifNoneMatch with
        | .error err => .error (err.withContext "path" path)
        | .ok () => .ok (entryMetadata P path info)
    | none => .error (notFound path)

def read (root : Root) (path : Str) (args : ReadArgs) (s : Stores) :
    Except Error (Metadata × Bytes) :=
  match IndexeddbCore.read P (O.buildAbsPath root.text path) args s with
  | .error err => .error err
  | .ok (some (info, bytes)) => .ok (entryMetadata P path info, bytes)
  | .ok none => .error (notFound path)

/-- `IndexeddbWriter::close`: the write, and the metadata it reports. -/
def write (now : Number) (path : Str) (value : Bytes) (args : WriteArgs) (s : Stores) :
    Except Error Metadata × Stores :=
  let (outcome, s) := IndexeddbCore.set P now path value args s
  (outcome.map (entryMetadata P path), s)

/-- The request `list` makes of the lister; `none` is a panic. A
`start_after` that names a directory is a prefix to skip when the listing
is folded. -/
def listRequest (build : Build) (root : Root) (path : Str) (args : OpList) :
    Option IndexeddbListRequest :=
  let keyPrefix := O.buildAbsPath root.text path
  let startAfter := args.startAfter.map (O.buildAbsPath root.text)
  let skipFoldedDir :=
    if !args.recursive then startAfter.filter fun p => p.getLast? = some '/' else none
  (listPageSize build args.limit).map fun pageSize =>
    { root := root.text, keyPrefix, startAfter, skipPrefix := skipFoldedDir, pageSize }

/-- **A listing**: what calling `next` on the lister `list` returns
yields until it reports the end, over stores that do not change. -/
def Listing (build : Build) (s : Stores) (root : Root) (path : Str) (args : OpList)
    (es : List Entry) : Prop :=
  ∃ req raw, listRequest O build root path args = some req ∧
    Drains (IndexeddbLister.next O P s) (.new req) raw ∧
    Drains (IndexeddbLimitLister.next yieldNext)
      (.new (O.hierarchy path args.recursive raw) args.limit) es

end IndexeddbBackend

end OpendalIndexeddb
