import OpendalIndexeddb.Model.Io
/-!
# The builder

`config.rs` and `backend/builder.rs`: a backend has a database, a store
for the data and one for the sidecars, whose names no data store can
have.
-/

namespace OpendalIndexeddb

structure IndexeddbConfig where
  dbName : Option Str
  objectStoreName : Option Str
  root : Option Str
deriving DecidableEq

/-- An `opendal::Error` of kind `ConfigInvalid`. -/
structure ConfigInvalid where
  message : String
  context : List (String × Str)
deriving DecidableEq

def metaStorePrefix : Str := "__opendal_indexeddb_meta__".toList

def metaStoreNameFor (objectStoreName : Str) : Str := metaStorePrefix ++ objectStoreName

/-- An `IndexeddbCore`, as the builder makes it. -/
structure IndexeddbCore where
  dbName : Str
  objectStoreName : Str
  metaStoreName : Str
  metaStoreName_eq : metaStoreName = metaStoreNameFor objectStoreName
  not_reserved : ¬ metaStorePrefix <+: objectStoreName
deriving DecidableEq

/-- `stores_exist_in`. -/
def IndexeddbCore.storesExistIn (core : IndexeddbCore) (names : List Str) : Bool :=
  names.contains core.objectStoreName && names.contains core.metaStoreName

/-- `build`, with OpenDAL's `normalize_root`. -/
def IndexeddbBuilder.build (normalizeRoot : Str → Root) (config : IndexeddbConfig) :
    Except ConfigInvalid (IndexeddbCore × Root) :=
  match config.dbName with
  | some [] => .error ⟨"indexeddb db_name must not be empty", [("db_name", [])]⟩
  | dbName =>
    let dbName := dbName.getD "opendal".toList
    match config.objectStoreName with
    | some [] =>
      .error ⟨"indexeddb object_store_name must not be empty", [("object_store_name", [])]⟩
    | objectStoreName =>
      let objectStoreName := objectStoreName.getD "main".toList
      if h : metaStorePrefix <+: objectStoreName then
        .error ⟨"indexeddb object_store_name must not start with reserved prefix " ++
          "`__opendal_indexeddb_meta__`", [("object_store_name", objectStoreName)]⟩
      else
        .ok (⟨dbName, objectStoreName, metaStoreNameFor objectStoreName, rfl, h⟩,
          normalizeRoot (config.root.getD ['/']))

namespace IndexeddbCore

variable {core core' : IndexeddbCore}

/-- **No store of data is a store of sidecars.** -/
theorem objectStoreName_ne_metaStoreName (core core' : IndexeddbCore) :
    core.objectStoreName ≠ core'.metaStoreName := by
  intro h
  refine core.not_reserved ?_
  rw [h, core'.metaStoreName_eq]
  exact List.prefix_append _ _

/-- Different stores of data have different stores of sidecars. -/
theorem metaStoreName_inj :
    core.metaStoreName = core'.metaStoreName ↔ core.objectStoreName = core'.objectStoreName := by
  rw [core.metaStoreName_eq, core'.metaStoreName_eq, metaStoreNameFor, metaStoreNameFor,
    List.append_cancel_left_eq]

end IndexeddbCore

end OpendalIndexeddb
