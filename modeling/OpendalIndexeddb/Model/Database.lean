import OpendalIndexeddb.Atomicity
import OpendalIndexeddb.Common.Serializable
import OpendalIndexeddb.Model.ObjectStores
import OpendalIndexeddb.Model.Requests
import OpendalIndexeddb.Model.Transaction
/-!
# The transactions of a database

The operators of one database, any number of them, with the same names of
stores or with others. Each call is a transaction on the two stores of its
operator, and is attempted again where `run_transaction` does that.
-/

namespace OpendalIndexeddb

/-! ## Requests -/

/-- A request on the stores an operator names. -/
def IndexeddbCore.handle (core : IndexeddbCore) :
    (r : TxnRequest) → ObjectStores → r.Answer × ObjectStores
  | .store r, db =>
    let (answer, store) := (db core.objectStoreName).asRecords.handle r
    (answer, if r.writes then Function.update db core.objectStoreName (.records store) else db)
  | .metaStore r, db =>
    let (answer, metaStore) := (db core.metaStoreName).asSidecars.handle r
    (answer, if r.writes then Function.update db core.metaStoreName (.sidecars metaStore) else db)

/-- The names a transaction is opened with. -/
def IndexeddbCore.scope (core : IndexeddbCore) : Set Str :=
  {core.objectStoreName, core.metaStoreName}

/-! ## Faults -/

/-- How an attempt ends without a result. -/
abbrev Fault := {connection : Connection // connection ≠ .ran}

/-- Whether `run_transaction` makes another attempt, having made
`attempts` before this one. -/
def Fault.again (fault : Fault) (attempts : ℕ) : Bool :=
  match fault.1 with
  | .unavailable _ => false
  | .evicted => attempts + 1 < 2
  | .failed err _ => attempts = 0 && isStaleConnectionError err
  | .ran => false

/-- The loop of `run_transaction` goes on exactly then. -/
theorem Fault.again_iff (fault : Fault) (dbName : Str) (attempts : ℕ)
    (body : Stores → Outcome × Stores) (s : Stores) :
    fault.again attempts = true ↔
      (runTransactionAttempt dbName attempts fault.1 body s).1 = none := by
  obtain ⟨connection, h⟩ := fault
  cases connection with
  | ran => exact absurd rfl h
  | unavailable err => simp [Fault.again, runTransactionAttempt]
  | evicted =>
    simp only [Fault.again, runTransactionAttempt, decide_eq_true_eq]
    split_ifs <;> simp_all
  | failed err text =>
    simp only [Fault.again, runTransactionAttempt]
    split_ifs <;> simp_all

/-! ## Transactions -/

namespace IndexeddbCore

variable {core core' : IndexeddbCore} {db db' : ObjectStores} {r : TxnRequest} {n : Str}

/-- The stores of an operator, as requests on the database leave them. -/
theorem stores_handle (core : IndexeddbCore) (r : TxnRequest) (db : ObjectStores) :
    (core.handle r db).1 = ((core.stores db).handle r).1 ∧
      core.stores (core.handle r db).2 = ((core.stores db).handle r).2 := by
  have hne := objectStoreName_ne_metaStoreName core core
  cases r with
  | store r =>
    refine ⟨rfl, ?_⟩
    rcases hw : r.writes with _ | _
    · simp [handle, hw, stores, Stores.handle, OrderedStore.handle_of_not_writes _ hw]
    · simp [handle, hw, stores, Stores.handle, Function.update_of_ne hne.symm,
        ObjectStore.asRecords]
  | metaStore r =>
    refine ⟨rfl, ?_⟩
    rcases hw : r.writes with _ | _
    · simp [handle, hw, stores, Stores.handle, OrderedStore.handle_of_not_writes _ hw]
    · simp [handle, hw, stores, Stores.handle, Function.update_of_ne hne, ObjectStore.asSidecars]

theorem handle_of_reads (h : r.writes = false) : (core.handle r db).2 = db := by
  cases r with
  | store r => exact if_neg (by simpa [TxnRequest.writes] using h)
  | metaStore r => exact if_neg (by simpa [TxnRequest.writes] using h)

theorem handle_frame (hn : n ∉ core.scope) : (core.handle r db).2 n = db n := by
  obtain ⟨hdata, hmeta⟩ : n ≠ core.objectStoreName ∧ n ≠ core.metaStoreName := by
    simpa [scope] using hn
  cases r with
  | store r =>
    simp only [handle]
    split_ifs
    · exact Function.update_of_ne hdata ..
    · rfl
  | metaStore r =>
    simp only [handle]
    split_ifs
    · exact Function.update_of_ne hmeta ..
    · rfl

theorem handle_congr (h : Set.EqOn db db' core.scope) :
    (core.handle r db).1 = (core.handle r db').1 ∧
      Set.EqOn (core.handle r db).2 (core.handle r db').2 core.scope := by
  have hdata : db core.objectStoreName = db' core.objectStoreName := h (Set.mem_insert _ _)
  have hmeta : db core.metaStoreName = db' core.metaStoreName :=
    h (Set.mem_insert_of_mem _ rfl)
  cases r with
  | store r =>
    simp only [handle, hdata]
    refine ⟨trivial, fun n hn => ?_⟩
    split_ifs
    · by_cases hname : n = core.objectStoreName
      · subst hname
        rw [Function.update_self, Function.update_self]
      · rw [Function.update_of_ne hname, Function.update_of_ne hname, h hn]
    · exact h hn
  | metaStore r =>
    simp only [handle, hmeta]
    refine ⟨trivial, fun n hn => ?_⟩
    split_ifs
    · by_cases hname : n = core.metaStoreName
      · subst hname
        rw [Function.update_self, Function.update_self]
      · rw [Function.update_of_ne hname, Function.update_of_ne hname, h hn]
    · exact h hn

end IndexeddbCore

/-- A call of an operator on the database. Each attempt at it reads the
clock. -/
structure DbCall (dbName : Str) where
  core : IndexeddbCore
  same_database : core.dbName = dbName
  op : Number → Op

/-- An operation of an operator, as one attempt at it. -/
structure DbTxn where
  core : IndexeddbCore
  op : Op

/-- **The transactions of the operators of a database.** -/
def databaseTransactions (O : Opendal) (P : Platform) (dbName : Str) :
    Transactions Str ObjectStore (DbCall dbName) DbTxn Fault Error Outcome txnInterface where
  attempt call := {t | ∃ now, t = ⟨call.core, call.op now⟩}
  again := Fault.again
  scope t := t.core.scope
  readwrite t := t.op.readwrite
  program t := t.op.program O P
  semantics t := ⟨t.core.handle, Requests.body⟩
  reads r := TxnRequest.writes r = false
  readLoops := TxnLoop.reads
  alike _ _ _ _ := IndexeddbCore.handle_congr
  frame _ _ _ _ := IndexeddbCore.handle_frame
  handle_reads _ _ _ := IndexeddbCore.handle_of_reads
  body_reads _ _ := Requests.reads_body
  program_reads _ := Op.program_reads

end OpendalIndexeddb
