import OpendalIndexeddb.Model.Builder
/-!
# The object stores of a database

All operators on one database share its object stores, which are told
apart by name alone. An operator's two stores are those of its names.
-/

namespace OpendalIndexeddb

/-- An object store with its values, as one of the two uses the crate has
for a store left them. -/
inductive ObjectStore where
  | records (store : OrderedStore Key DataRecord DataRecord.k)
  | sidecars (store : OrderedStore Key MetaValue MetaValue.k)

/-- A store as a store of data: a sidecar has no field `v`. -/
def ObjectStore.asRecords : ObjectStore → OrderedStore Key DataRecord DataRecord.k
  | .records store => store
  | .sidecars store => store.map (fun value => ⟨value.k, .other⟩) fun _ => rfl

/-- A store as a store of sidecars: a data record does not deserialize as
one. -/
def ObjectStore.asSidecars : ObjectStore → OrderedStore Key MetaValue MetaValue.k
  | .records store => store.map (fun value => .malformed value.k) fun _ => rfl
  | .sidecars store => store

/-- The stores of a database, by their names. One that is not there yet is
empty, as an operator's upgrade will create it. -/
abbrev ObjectStores := Str → ObjectStore

namespace IndexeddbCore

/-- The stores of an operator. -/
def stores (core : IndexeddbCore) (db : ObjectStores) : Stores :=
  ⟨(db core.objectStoreName).asRecords, (db core.metaStoreName).asSidecars⟩

/-- The database after a transaction of an operator. What the transaction
only read is as it was. -/
def commit (core : IndexeddbCore) (db : ObjectStores) (s : Stores) : ObjectStores :=
  Function.update (Function.update db core.objectStoreName (.records s.store))
    core.metaStoreName (.sidecars s.metaStore)

variable {core core' : IndexeddbCore} {db : ObjectStores} {s : Stores}

/-- Operators with the same store of data see the same stores. -/
theorem stores_congr (h : core.objectStoreName = core'.objectStoreName) (db : ObjectStores) :
    core.stores db = core'.stores db := by
  rw [stores, stores, h, metaStoreName_inj.2 h]

/-- A transaction leaves an operator the stores it leaves. -/
@[simp] theorem stores_commit : core.stores (core.commit db s) = s := by
  simp [stores, commit, Function.update_of_ne (objectStoreName_ne_metaStoreName core core),
    ObjectStore.asRecords, ObjectStore.asSidecars]

/-- **A transaction leaves the stores of other names alone**, a store of
data being neither another operator's store of data nor anyone's store of
sidecars. -/
theorem stores_commit_of_ne (h : core.objectStoreName ≠ core'.objectStoreName) :
    core.stores (core'.commit db s) = core.stores db := by
  have hmeta : core.metaStoreName ≠ core'.metaStoreName := fun heq => h (metaStoreName_inj.1 heq)
  simp [stores, commit, h, hmeta, objectStoreName_ne_metaStoreName core core',
    (objectStoreName_ne_metaStoreName core' core).symm]

end IndexeddbCore

end OpendalIndexeddb
