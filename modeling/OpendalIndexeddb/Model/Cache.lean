import Mathlib.Algebra.Order.Floor.Semiring
import Mathlib.Data.Rat.Floor
import OpendalIndexeddb.Model.Builder
/-!
# The connection cache

The cache of `backend/connection.rs` with its cleanup tasks, and the uses
of it in `backend/core.rs`. One realm has one cache; what runs in between
two awaits reads and writes it undisturbed.
-/

namespace OpendalIndexeddb

/-- A clock reading of `Date::now()`, or a span, in milliseconds. -/
abbrev Millis := ℚ

def connectionCacheTtlMs : Millis := 500

/-- A cached connection. A `Database` is moved into the cache, so the calls
of `cache_connection` number the connections. -/
structure CachedConnection where
  db : ℕ
  objectStoreNames : List Str
  lastUsedMs : Millis
  generation : ℕ
deriving DecidableEq

/-- Where a cleanup task stands in its loop. -/
inductive CleanupPoint where
  /-- Before the head of the loop. -/
  | delay
  /-- Before the look at the cache, which a timer may hold up. -/
  | check
deriving DecidableEq

/-- A live cleanup task, which goes on at `due` or later. -/
structure Cleanup where
  dbName : Str
  generation : ℕ
  point : CleanupPoint
  due : Millis
deriving DecidableEq

/-- What the thread-locals of a realm hold, the clock, the cleanup tasks
that have not ended, and what has been done to connections. -/
structure Realm where
  now : Millis
  /-- `CONNECTION_CACHE`. -/
  cache : Str → Option CachedConnection
  /-- `CONNECTION_CACHE_GENERATION`. -/
  generation : ℕ
  cleanups : List Cleanup
  /-- The database of each connection ever cached, in order. -/
  cached : List Str
  /-- The connections that were closed, as often as they were. -/
  closed : List ℕ

namespace Realm

variable (r : Realm)

/-- A realm at a time, in which nothing was cached. -/
def start (now : Millis) : Realm := ⟨now, fun _ => none, 0, [], [], []⟩

/-- Sets or removes the entry of a database. -/
def setEntry (dbName : Str) (entry : Option CachedConnection) : Realm :=
  { r with cache := Function.update r.cache dbName entry }

/-- Closes a connection. -/
def close (db : ℕ) : Realm := { r with closed := r.closed ++ [db] }

/-- `evict_cached_connection`. -/
def evictCachedConnection (dbName : Str) : Realm :=
  match r.cache dbName with
  | some cached => (r.setEntry dbName none).close cached.db
  | none => r

/-- `cached_connection_expired`. -/
def cachedConnectionExpired (cached : CachedConnection) : Bool :=
  connectionCacheTtlMs < r.now - cached.lastUsedMs

/-- `next_connection_generation`, on the `u64` counter. -/
def nextConnectionGeneration : ℕ := (r.generation + 1) % 2 ^ 64

/-- `cache_connection`: the new entry, the close of the one it replaces,
and the new cleanup task. -/
def cacheConnection (dbName : Str) (objectStoreNames : List Str) : Realm :=
  let generation := r.nextConnectionGeneration
  let old := r.cache dbName
  { r with
    cache := Function.update r.cache dbName
      (some ⟨r.cached.length, objectStoreNames, r.now, generation⟩)
    generation
    cleanups := r.cleanups ++ [⟨dbName, generation, .delay, r.now⟩]
    cached := r.cached ++ [dbName]
    closed := r.closed ++ (old.map CachedConnection.db).toList }

/-- Refreshes an entry. -/
def touch (dbName : Str) (cached : CachedConnection) : Realm :=
  r.setEntry dbName (some { cached with lastUsedMs := r.now })

/-- `cached_client_has_stores`. -/
def cachedClientHasStores (core : IndexeddbCore) : Bool × Realm :=
  match r.cache core.dbName with
  | none => (false, r)
  | some cached =>
    if r.cachedConnectionExpired cached then (false, r.evictCachedConnection core.dbName)
    else (core.storesExistIn cached.objectStoreNames, r.touch core.dbName cached)

/-- `cached_transaction`, which says whether there is one. -/
def cachedTransaction (core : IndexeddbCore) : Bool × Realm :=
  match r.cache core.dbName with
  | none => (false, r)
  | some cached =>
    if r.cachedConnectionExpired cached then (false, r.evictCachedConnection core.dbName)
    else if !core.storesExistIn cached.objectStoreNames then (false, r)
    else (true, r.touch core.dbName cached)

/-- `cached_connection_cleanup_delay_ms`. -/
def cachedConnectionCleanupDelayMs (dbName : Str) (generation : ℕ) : Option ℕ :=
  match r.cache dbName with
  | none => none
  | some cached =>
    if cached.generation ≠ generation then none
    else if r.cachedConnectionExpired cached then some 0
    else
      let deadlineMs := cached.lastUsedMs + connectionCacheTtlMs
      some (min (max ⌈deadlineMs - r.now⌉ 1).toNat (2 ^ 32 - 1))

/-- A cleanup task goes on: what becomes of it, unless it ends, and of the
realm. -/
def runCleanup (task : Cleanup) : Option Cleanup × Realm :=
  match task.point with
  | .delay =>
    match r.cachedConnectionCleanupDelayMs task.dbName task.generation with
    | none => (none, r)
    | some sleepMs =>
      if 0 < sleepMs then (some { task with point := .check, due := r.now + sleepMs }, r)
      else (some { task with point := .check }, r)
  | .check =>
    match r.cache task.dbName with
    | none => (none, r)
    | some cached =>
      if cached.generation ≠ task.generation then (none, r)
      else if r.cachedConnectionExpired cached then (none, r.evictCachedConnection task.dbName)
      else (some { task with point := .delay }, r)

/-- What happens to the cache from elsewhere: a cleanup task that is due
goes on, or an entry is evicted. -/
inductive Background : Realm → Realm → Prop
  | cleanup {r : Realm} {task : Cleanup} {before after : List Cleanup} :
      r.cleanups = before ++ task :: after → task.due ≤ r.now →
      Background r { (r.runCleanup task).2 with
        cleanups := before ++ (r.runCleanup task).1.toList ++ after }
  | evict {r : Realm} (dbName : Str) : Background r (r.evictCachedConnection dbName)

/-- **What happens in a realm**: the clock ticks, the cache is used or
filled, or something happens to it from elsewhere. -/
inductive Step : Realm → Realm → Prop
  | tick {r : Realm} {now : Millis} : r.now ≤ now → Step r { r with now }
  | cache {r : Realm} (dbName : Str) (objectStoreNames : List Str) :
      Step r (r.cacheConnection dbName objectStoreNames)
  | hasStores {r : Realm} (core : IndexeddbCore) : Step r (r.cachedClientHasStores core).2
  | transaction {r : Realm} (core : IndexeddbCore) : Step r (r.cachedTransaction core).2
  | background {r r' : Realm} : Background r r' → Step r r'

/-- The states of a realm in which nothing was cached to begin with. -/
inductive Reachable : Realm → Prop
  | start (now : Millis) : Reachable (start now)
  | step {r r' : Realm} : Reachable r → Step r r' → Reachable r'

end Realm

end OpendalIndexeddb
