import OpendalIndexeddb.Model.Cache
import OpendalIndexeddb.Model.Opening
/-!
# Tasks of one realm

`run_transaction` and `ensure_cached_client` of `backend/core.rs`, as any
number of tasks run them over one cache. A task runs undisturbed from one
await to the next.
-/

namespace OpendalIndexeddb

/-- Where a task stands in `run_transaction`, in one of its attempts. -/
inductive TaskPoint where
  /-- Outside of `run_transaction`. -/
  | idle
  /-- Before the first look at the cache in `ensure_cached_client`. -/
  | ensuring (attempt : ℕ)
  /-- Awaits the upgrade lock. -/
  | locking (attempt : ℕ)
  /-- Has the lock, before the second look. -/
  | locked (attempt : ℕ)
  /-- Before the eviction under the lock. -/
  | evicting (attempt : ℕ)
  /-- In `open_client`, until its connection is cached. -/
  | opening (attempt : ℕ) (point : OpenPoint)
  /-- `ensure_cached_client` has returned `Ok`. -/
  | ensured (attempt : ℕ)
  /-- `cached_transaction` has returned `None`. -/
  | retrying (attempt : ℕ)
  /-- Awaits its transaction. -/
  | running (attempt : ℕ)

/-- Where `open_client` awaits a request. -/
def OpenPoint.awaits : OpenPoint → Bool
  | .checking | .latest _ | .opening _ _ => true
  | .entered | .returned _ => false

/-- Where a task may let others run. -/
def TaskPoint.awaits : TaskPoint → Bool
  | .idle | .locking _ | .running _ => true
  | .opening _ point => point.awaits
  | .ensuring _ | .locked _ | .evicting _ | .ensured _ | .retrying _ => false

/-- The tasks of a realm. -/
structure Operators where
  realm : Realm
  points : ℕ → TaskPoint
  /-- `UPGRADE_LOCKS`: which task has the lock of a database. -/
  holder : Str → Option ℕ
  /-- The task that runs, and since when. -/
  segment : Option (ℕ × Millis)

namespace Operators

variable (w : Operators)

def start (now : Millis) : Operators := ⟨.start now, fun _ => .idle, fun _ => none, none⟩

def goTo (i : ℕ) (point : TaskPoint) : Operators :=
  { w with points := Function.update w.points i point }

def setRealm (realm : Realm) : Operators := { w with realm }

def setHolder (dbName : Str) (holder : Option ℕ) : Operators :=
  { w with holder := Function.update w.holder dbName holder }

/-- What a segment of `open_client` does to the cache: its closes are of
connections that were never cached. -/
def applyEffects (core : IndexeddbCore) (realm : Realm) (effects : List OpenEffect) : Realm :=
  effects.foldl (fun realm effect =>
    match effect with
    | .evict => realm.evictCachedConnection core.dbName
    | .close _ => realm) realm

/-- **One move of the task that runs**, an operator's with this core. -/
inductive Advance (core : IndexeddbCore) (i : ℕ) (w : Operators) : Operators → Prop
  | enter (h : w.points i = .idle) : Advance core i w (w.goTo i (.ensuring 0))
  | found {attempt : ℕ} (h : w.points i = .ensuring attempt)
      (hfound : (w.realm.cachedClientHasStores core).1 = true) :
      Advance core i w ((w.setRealm (w.realm.cachedClientHasStores core).2).goTo i
        (.ensured attempt))
  | missing {attempt : ℕ} (h : w.points i = .ensuring attempt)
      (hmissing : (w.realm.cachedClientHasStores core).1 = false) :
      Advance core i w ((w.setRealm (w.realm.cachedClientHasStores core).2).goTo i
        (.locking attempt))
  | lock {attempt : ℕ} (h : w.points i = .locking attempt)
      (hfree : w.holder core.dbName = none) :
      Advance core i w ((w.setHolder core.dbName (some i)).goTo i (.locked attempt))
  | foundLocked {attempt : ℕ} (h : w.points i = .locked attempt)
      (hfound : (w.realm.cachedClientHasStores core).1 = true) :
      Advance core i w (((w.setRealm (w.realm.cachedClientHasStores core).2).setHolder
        core.dbName none).goTo i (.ensured attempt))
  | missingLocked {attempt : ℕ} (h : w.points i = .locked attempt)
      (hmissing : (w.realm.cachedClientHasStores core).1 = false) :
      Advance core i w ((w.setRealm (w.realm.cachedClientHasStores core).2).goTo i
        (.evicting attempt))
  | evict {attempt : ℕ} (h : w.points i = .evicting attempt) :
      Advance core i w ((w.setRealm (w.realm.evictCachedConnection core.dbName)).goTo i
        (.opening attempt .entered))
  | enterOpen {attempt : ℕ} (noFactory : Option String)
      (h : w.points i = .opening attempt .entered) :
      Advance core i w (w.goTo i (.opening attempt (IndexeddbCore.enterOpen noFactory)))
  /-- `open_client` goes on with an answer, whatever it is. -/
  | resumeOpen {attempt : ℕ} {point point' : OpenPoint} {answer : OpenAnswer}
      {effects : List OpenEffect} (h : w.points i = .opening attempt point)
      (hresume : core.resumeOpen point answer = some (point', effects)) :
      Advance core i w ((w.setRealm (applyEffects core w.realm effects)).goTo i
        (.opening attempt point'))
  | cache {attempt : ℕ} {db : Database}
      (h : w.points i = .opening attempt (.returned (.ok db))) :
      Advance core i w (((w.setRealm (w.realm.cacheConnection core.dbName
        db.objectStoreNames)).setHolder core.dbName none).goTo i (.ensured attempt))
  | openFailed {attempt : ℕ} {failure : OpenFailure}
      (h : w.points i = .opening attempt (.returned (.error failure))) :
      Advance core i w ((w.setHolder core.dbName none).goTo i .idle)
  | transaction {attempt : ℕ} (h : w.points i = .ensured attempt)
      (hsome : (w.realm.cachedTransaction core).1 = true) :
      Advance core i w ((w.setRealm (w.realm.cachedTransaction core).2).goTo i (.running attempt))
  | noTransaction {attempt : ℕ} (h : w.points i = .ensured attempt)
      (hnone : (w.realm.cachedTransaction core).1 = false) :
      Advance core i w ((w.setRealm (w.realm.cachedTransaction core).2).goTo i
        (.retrying attempt))
  | retry {attempt : ℕ} (h : w.points i = .retrying attempt) :
      Advance core i w ((w.setRealm (w.realm.evictCachedConnection core.dbName)).goTo i
        (if attempt + 1 < 2 then .ensuring (attempt + 1) else .idle))
  /-- The transaction ends, and `run_transaction` returns. -/
  | finish {attempt : ℕ} (h : w.points i = .running attempt) :
      Advance core i w (w.goTo i .idle)
  /-- It ends with the error of a stale connection, in the first attempt. -/
  | stale (h : w.points i = .running 0) :
      Advance core i w ((w.setRealm (w.realm.evictCachedConnection core.dbName)).goTo i
        (.ensuring 1))

/-- **What happens among the tasks**, each an operator's. While one runs
the clock goes on, for 500 milliseconds at most, and nothing else happens
until it awaits something. -/
inductive Step (cores : ℕ → IndexeddbCore) : Operators → Operators → Prop
  | tick {w : Operators} {now : Millis} (hnow : w.realm.now ≤ now)
      (hsegment : ∀ i since, w.segment = some (i, since) → now ≤ since + 500) :
      Step cores w (w.setRealm { w.realm with now })
  | background {w : Operators} {realm : Realm} (hidle : w.segment = none)
      (h : Realm.Background w.realm realm) : Step cores w (w.setRealm realm)
  | resume {w : Operators} (i : ℕ) (hidle : w.segment = none) :
      Step cores w { w with segment := some (i, w.realm.now) }
  | advance {w w' : Operators} {i : ℕ} {since : Millis} (hruns : w.segment = some (i, since))
      (h : Advance (cores i) i w w') : Step cores w w'
  | suspend {w : Operators} {i : ℕ} {since : Millis} (hruns : w.segment = some (i, since))
      (hawaits : (w.points i).awaits = true) : Step cores w { w with segment := none }
  /-- A task is dropped where it awaits something, with its lock if it has
  that. -/
  | cancel {w : Operators} (i : ℕ) (hidle : w.segment = none) :
      Step cores w ((w.setHolder (cores i).dbName
        (if w.holder (cores i).dbName = some i then none else w.holder (cores i).dbName)).goTo i
          .idle)

/-- The states a realm comes to. -/
inductive Reachable (cores : ℕ → IndexeddbCore) : Operators → Prop
  | start (now : Millis) : Reachable cores (start now)
  | step {w w' : Operators} : Reachable cores w → Step cores w w' → Reachable cores w'

end Operators

end OpendalIndexeddb
