import OpendalIndexeddb.Common.FiniteMap
import OpendalIndexeddb.Model.Operation
/-!
# The store as a map of objects

What the crate is for: a finite map from paths to objects, each with its
bytes, its content metadata and the time it was last modified. The
operations are stated here without records, sidecars or key ranges; the
stores are compared with it in `Refinement`.
-/

namespace OpendalIndexeddb

/-- What is kept under a path. -/
structure Object where
  bytes : Bytes
  contentType : Option Str
  userMetadata : Option UserMetadata
  mtime : Number
deriving DecidableEq

/-- The objects, by path. -/
abbrev Objects := FiniteMap Str Object

variable (O : Opendal) (P : Platform)

/-- The ETag of an object is that of its bytes. -/
def Object.etag (o : Object) : Str := etagFromBytes P o.bytes

/-! ## Conditions -/

/-- `*` asks for an object, another value for one with that ETag. -/
def Object.Meets (want : Str) (o : Option Object) : Prop :=
  ∃ x ∈ o, want = ['*'] ∨ want = x.etag P

/-- What a write asks of the object it replaces. -/
structure WriteArgs.Meets (args : WriteArgs) (o : Option Object) : Prop where
  ifNotExists : args.ifNotExists = true → o = none
  ifMatch : ∀ want ∈ args.ifMatch, Object.Meets P want o
  ifNoneMatch : ∀ want ∈ args.ifNoneMatch, ¬ Object.Meets P want o

/-! ## The objects operations make -/

/-- The object a write replaces an old one by: the request's bytes and
content metadata, or, appending, those added to the old object's. -/
def writeObject (now : Number) (value : Bytes) (args : WriteArgs) (old : Option Object) : Object :=
  let contentType := args.content.bind (·.contentType)
  let userMetadata := args.content.bind (·.userMetadata)
  match args.append, old with
  | true, some o =>
    { bytes := o.bytes ++ value
      contentType := contentType.or o.contentType
      userMetadata := userMetadata.or o.userMetadata
      mtime := now }
  | _, _ => { bytes := value, contentType, userMetadata, mtime := now }

@[simp] theorem mtime_writeObject (now : Number) (value : Bytes) (args : WriteArgs)
    (old : Option Object) : (writeObject now value args old).mtime = now := by
  unfold writeObject
  cases args.append <;> cases old <;> rfl

theorem bytes_writeObject (now : Number) (value : Bytes) (args : WriteArgs) (old : Option Object) :
    (writeObject now value args old).bytes =
      if args.append then (old.map Object.bytes).getD [] ++ value else value := by
  unfold writeObject
  cases args.append <;> cases old <;> rfl

/-- The paths a recursive delete of `path` reaches: itself and everything
in it as a directory. The empty path reaches everything. -/
def Below (path k : Str) : Prop :=
  path = [] ∨ k = path ∨ (if path.getLast? = some '/' then path else path ++ ['/']) <+: k

/-! ## Steps -/

open Classical in
/-- **The objects an operation leaves**, or `none` where it is refused. -/
noncomputable def Mutation.objectStep (m : Objects) : Mutation → Option Objects
  | .set now path value args =>
    if args.Meets P (m.get path) then some (m.set path (writeObject now value args (m.get path)))
    else none
  | .createDir now root path =>
    if O.buildAbsPath root.text path = O.buildAbsPath root.text [] then some m
    else some (m.set (O.buildAbsPath root.text path) ⟨[], none, none, now⟩)
  | .copy now src dst ifNotExists ifMatch =>
    match m.get src with
    | some o =>
      if src ≠ dst ∧ (ifNotExists = true → m.get dst = none) ∧
          (∀ want ∈ ifMatch, Object.Meets P want (m.get dst)) then
        some (m.set dst { o with mtime := now })
      else none
    | none => none
  | .rename src dst =>
    match m.get src with
    | some o => if src ≠ dst then some ((m.set dst o).remove src) else none
    | none => none
  | .delete path => some (m.remove path)
  | .deleteRecursive path => some (m.removeWhere (Below path))
  | .deleteMany batch =>
    some (m.removeWhere fun k => ∃ r ∈ batch, if r.2 then Below r.1 k else k = r.1)

/-- The objects after an operation: as they were where it is refused, or
where it only reads. -/
noncomputable def Op.objects (m : Objects) : Op → Objects
  | .mutate mutation => (mutation.objectStep O P m).getD m
  | _ => m

/-! ## What is observed -/

/-- The entry of an object. -/
def Object.info (o : Object) : EntryInfo :=
  ⟨{ size := some o.bytes.length
     lastModifiedMs := some o.mtime
     etag := some (o.etag P)
     content := some ⟨some (o.etag P), o.contentType, o.userMetadata⟩ }⟩

/-- The bytes of a range. -/
def ReadRange.slice (range : ReadRange) (bytes : Bytes) : Bytes :=
  match range.size with
  | some size => (bytes.drop range.offset).take size
  | none => bytes.drop range.offset

/-- What a read makes of an object. -/
def Object.read (path : Str) (args : ReadArgs) (o : Object) :
    Except Error (Option (EntryInfo × Bytes)) :=
  match IndexeddbCore.checkRead P args path (o.info P) with
  | .ok () => .ok (some (o.info P, args.range.slice o.bytes))
  | .error err => .error err

end OpendalIndexeddb
