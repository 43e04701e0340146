import OpendalIndexeddb.Model.Operation
/-!
# Attempts at a transaction

`run_transaction` of `backend/core.rs`: a call makes two attempts at
most, and the second only where the first found no usable connection.
Other calls may run between the two.
-/

namespace OpendalIndexeddb

/-- `indexed_db::Error<opendal::Error>`, as far as it is told apart. -/
inductive TxnError where
  /-- An error raised by the body. -/
  | user (err : Error)
  | databaseIsClosed
  | doesNotExist
  | objectStoreWasRemoved
  | other
deriving DecidableEq

def isStaleConnectionError : TxnError → Bool
  | .databaseIsClosed => true
  | .doesNotExist => true
  | .objectStoreWasRemoved => true
  | _ => false

/-- `parse_txn_error`, given what `err.to_string()` says. -/
def parseTxnError (text : String) : TxnError → Error
  | .user err => err
  | _ => .new .unexpected text

/-- What the connection lets an attempt do. -/
inductive Connection where
  /-- `ensure_cached_client` fails. -/
  | unavailable (err : Error)
  /-- The client was evicted before a transaction could be taken from it. -/
  | evicted
  /-- The transaction ends with an error, having committed nothing. -/
  | failed (err : TxnError) (text : String)
  /-- The body runs, and its result is committed or aborted. -/
  | ran

/-- What a call returns: what its body did, or why it did not run. -/
inductive Reply where
  | done (outcome : Outcome)
  | failed (err : Error)

/-- One iteration of the loop of `run_transaction`: the reply, or `none`
where the loop goes on, and the stores. -/
def runTransactionAttempt (dbName : Str) (attempt : ℕ) (connection : Connection)
    (body : Stores → Outcome × Stores) (s : Stores) : Option Reply × Stores :=
  match connection with
  | .unavailable err => (some (.failed err), s)
  | .evicted =>
    if attempt + 1 < 2 then (none, s)
    else (some (.failed ((Error.new .unexpected
      "failed to run indexeddb transaction after refreshing cached connection").withContext
        "db_name" dbName)), s)
  | .failed err text =>
    if attempt = 0 && isStaleConnectionError err then (none, s)
    else (some (.failed (parseTxnError text err)), s)
  | .ran => (some (.done (body s).1), (body s).2)

/-- **An attempt runs the body, or leaves the stores as they were.** -/
theorem runTransactionAttempt_cases (dbName : Str) (attempt : ℕ) (connection : Connection)
    (body : Stores → Outcome × Stores) (s : Stores) :
    runTransactionAttempt dbName attempt connection body s =
        (some (.done (body s).1), (body s).2) ∨
      (runTransactionAttempt dbName attempt connection body s).2 = s ∧
        ∀ outcome, (runTransactionAttempt dbName attempt connection body s).1 ≠
          some (.done outcome) := by
  cases connection with
  | ran => exact Or.inl rfl
  | unavailable err => exact Or.inr ⟨rfl, by simp [runTransactionAttempt]⟩
  | evicted =>
    right
    rw [runTransactionAttempt]
    split_ifs <;> exact ⟨rfl, by simp⟩
  | failed err text =>
    right
    rw [runTransactionAttempt]
    split_ifs <;> exact ⟨rfl, by simp⟩

end OpendalIndexeddb
