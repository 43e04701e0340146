import Mathlib.Logic.Relation
import OpendalIndexeddb.Model.Cache
/-!
# The life of a cached connection

Whatever runs in a realm, a connection that was cached is the entry of its
database, or was closed once. An entry has one cleanup task, told from
those of earlier entries by its generation, and the task wakes in time.
-/

namespace OpendalIndexeddb

namespace Realm

variable {r r' : Realm} {dbName : Str} {entry : Option CachedConnection}
variable {cached : CachedConnection} {core : IndexeddbCore}

/-! ## The operations -/

theorem expired_iff : r.cachedConnectionExpired cached = true ↔ 500 < r.now - cached.lastUsedMs :=
  decide_eq_true_iff

@[simp] theorem cache_setEntry_self : (r.setEntry dbName entry).cache dbName = entry := by
  simp [setEntry]

theorem cache_setEntry_of_ne {d : Str} (h : d ≠ dbName) :
    (r.setEntry dbName entry).cache d = r.cache d := by
  simp [setEntry, h]

/-- An entry set in a cache is the one set, or was there. -/
theorem of_cache_setEntry {d : Str} (h : (r.setEntry dbName entry).cache d = some cached) :
    d = dbName ∧ entry = some cached ∨ d ≠ dbName ∧ r.cache d = some cached := by
  by_cases hd : d = dbName
  · subst hd
    rw [cache_setEntry_self] at h
    exact Or.inl ⟨rfl, h⟩
  · rw [cache_setEntry_of_ne hd] at h
    exact Or.inr ⟨hd, h⟩

theorem evict_of_some (h : r.cache dbName = some cached) :
    r.evictCachedConnection dbName = (r.setEntry dbName none).close cached.db := by
  rw [evictCachedConnection, h]

theorem evict_of_none (h : r.cache dbName = none) : r.evictCachedConnection dbName = r := by
  rw [evictCachedConnection, h]

/-- **After an eviction there is no entry**, and the others are untouched. -/
theorem cache_evict_self : (r.evictCachedConnection dbName).cache dbName = none := by
  rcases h : r.cache dbName with _ | cached
  · rw [evict_of_none h, h]
  · rw [evict_of_some h]
    exact cache_setEntry_self

theorem cache_evict_of_ne {d : Str} (h : d ≠ dbName) :
    (r.evictCachedConnection dbName).cache d = r.cache d := by
  rcases hentry : r.cache dbName with _ | cached
  · rw [evict_of_none hentry]
  · rw [evict_of_some hentry]
    exact cache_setEntry_of_ne h

/-- What an eviction leaves alone. -/
theorem evict_same (r : Realm) (dbName : Str) :
    (r.evictCachedConnection dbName).now = r.now ∧
      (r.evictCachedConnection dbName).generation = r.generation ∧
      (r.evictCachedConnection dbName).cleanups = r.cleanups ∧
      (r.evictCachedConnection dbName).cached = r.cached := by
  rcases h : r.cache dbName with _ | cached
  · rw [evict_of_none h]
    exact ⟨rfl, rfl, rfl, rfl⟩
  · rw [evict_of_some h]
    exact ⟨rfl, rfl, rfl, rfl⟩

/-- The new entry of a database that has none, with its cleanup task. -/
def addEntry (r : Realm) (dbName : Str) (objectStoreNames : List Str) : Realm :=
  { r.setEntry dbName
      (some ⟨r.cached.length, objectStoreNames, r.now, r.nextConnectionGeneration⟩) with
    generation := r.nextConnectionGeneration
    cleanups := r.cleanups ++ [⟨dbName, r.nextConnectionGeneration, .delay, r.now⟩]
    cached := r.cached ++ [dbName] }

/-- **Caching a connection evicts the one before it.** -/
theorem cacheConnection_eq (r : Realm) (dbName : Str) (objectStoreNames : List Str) :
    r.cacheConnection dbName objectStoreNames =
      (r.evictCachedConnection dbName).addEntry dbName objectStoreNames := by
  rcases h : r.cache dbName with _ | cached
  · rw [evict_of_none h]
    simp [cacheConnection, addEntry, setEntry, h]
  · rw [evict_of_some h]
    simp [cacheConnection, addEntry, setEntry, close, nextConnectionGeneration, h]

/-- **What a use of the cache does**: nothing, or it evicts the entry that
has expired, or refreshes it. -/
inductive Used (r : Realm) (dbName : Str) : Realm → Prop
  | missed : Used r dbName r
  | expired {cached : CachedConnection} (h : r.cache dbName = some cached)
      (hexpired : r.cachedConnectionExpired cached = true) :
      Used r dbName (r.evictCachedConnection dbName)
  | refreshed {cached : CachedConnection} (h : r.cache dbName = some cached)
      (hexpired : r.cachedConnectionExpired cached = false) :
      Used r dbName (r.touch dbName cached)

theorem used_hasStores (r : Realm) (core : IndexeddbCore) :
    Used r core.dbName (r.cachedClientHasStores core).2 := by
  unfold cachedClientHasStores
  rcases h : r.cache core.dbName with _ | cached
  · exact .missed
  · simp only
    split_ifs with hexpired
    · exact .expired h hexpired
    · exact .refreshed h (by simpa using hexpired)

theorem used_transaction (r : Realm) (core : IndexeddbCore) :
    Used r core.dbName (r.cachedTransaction core).2 := by
  unfold cachedTransaction
  rcases h : r.cache core.dbName with _ | cached
  · exact .missed
  · simp only
    split_ifs with hexpired
    · exact .expired h hexpired
    · exact .missed
    · exact .refreshed h (by simpa using hexpired)

/-- **What a cleanup task does**: it ends where the entry of its
generation is gone, evicts it where it has expired, or goes on. Then it
wakes before the entry is 501 milliseconds old, unless the time it was
due at stands. -/
inductive Cleaned (r : Realm) (task : Cleanup) : Option Cleanup × Realm → Prop
  | ended (h : ∀ cached, r.cache task.dbName = some cached →
      cached.generation ≠ task.generation) : Cleaned r task (none, r)
  | reaped {cached : CachedConnection} (h : r.cache task.dbName = some cached)
      (hgen : cached.generation = task.generation)
      (hexpired : r.cachedConnectionExpired cached = true) :
      Cleaned r task (none, r.evictCachedConnection task.dbName)
  | goesOn {cached : CachedConnection} {task' : Cleanup} (h : r.cache task.dbName = some cached)
      (hgen : cached.generation = task.generation)
      (hsame : task'.dbName = task.dbName ∧ task'.generation = task.generation)
      (hdue : task'.due = task.due ∨ task'.due ≤ cached.lastUsedMs + 501) :
      Cleaned r task (some task', r)

/-- The deadline of an entry that has not expired, rounded up. -/
theorem wake_le {now lastUsedMs : Millis} (h : ¬ 500 < now - lastUsedMs) :
    now + ((min (max ⌈lastUsedMs + connectionCacheTtlMs - now⌉ 1).toNat (2 ^ 32 - 1) : ℕ) :
      Millis) ≤ lastUsedMs + 501 := by
  unfold connectionCacheTtlMs
  have hmin := min_le_left (max ⌈lastUsedMs + 500 - now⌉ 1).toNat (2 ^ 32 - 1)
  have hcast : ((max ⌈lastUsedMs + 500 - now⌉ 1).toNat : ℤ) = max ⌈lastUsedMs + 500 - now⌉ 1 :=
    Int.toNat_of_nonneg (le_trans zero_le_one (le_max_right _ _))
  have hround : ((max ⌈lastUsedMs + 500 - now⌉ 1 : ℤ) : ℚ) ≤ lastUsedMs + 501 - now := by
    rw [Int.cast_max, max_le_iff]
    constructor
    · linarith [Int.ceil_lt_add_one (lastUsedMs + 500 - now)]
    · rw [Int.cast_one]
      linarith
  have hle : ((min (max ⌈lastUsedMs + 500 - now⌉ 1).toNat (2 ^ 32 - 1) : ℕ) : ℚ) ≤
      ((max ⌈lastUsedMs + 500 - now⌉ 1 : ℤ) : ℚ) := by
    rw [← hcast, Int.cast_natCast]
    exact_mod_cast hmin
  linarith

/-- The delay of a task whose entry is there: until the deadline, or none
once the entry has expired. -/
theorem delay_eq {generation : ℕ} (h : r.cache dbName = some cached)
    (hgen : cached.generation = generation) : ∃ sleepMs,
      r.cachedConnectionCleanupDelayMs dbName generation = some sleepMs ∧
      (0 < sleepMs → r.now + sleepMs ≤ cached.lastUsedMs + 501) := by
  unfold cachedConnectionCleanupDelayMs
  rw [h]
  simp only [ne_eq, hgen, not_true_eq_false, if_false]
  by_cases hexpired : r.cachedConnectionExpired cached = true
  · rw [if_pos hexpired]
    exact ⟨0, rfl, fun hpos => absurd hpos (lt_irrefl 0)⟩
  · rw [if_neg hexpired]
    exact ⟨_, rfl, fun _ => wake_le (mt expired_iff.2 hexpired)⟩

theorem cleaned (r : Realm) (task : Cleanup) : Cleaned r task (r.runCleanup task) := by
  by_cases hentry : ∃ cached, r.cache task.dbName = some cached ∧
      cached.generation = task.generation
  · obtain ⟨cached, hentry, hgen⟩ := hentry
    rcases hpoint : task.point with _ | _
    · obtain ⟨sleepMs, hdelay, hdue⟩ := delay_eq hentry hgen
      simp only [runCleanup, hpoint, hdelay]
      split_ifs with hpos
      · exact .goesOn hentry hgen ⟨rfl, rfl⟩ (Or.inr (hdue hpos))
      · exact .goesOn hentry hgen ⟨rfl, rfl⟩ (Or.inl rfl)
    · simp only [runCleanup, hpoint, hentry, ne_eq, hgen, not_true_eq_false, if_false]
      split_ifs with hexpired
      · exact .reaped hentry hgen hexpired
      · exact .goesOn hentry hgen ⟨rfl, rfl⟩ (Or.inl rfl)
  · -- the entry of the task's generation is gone
    have hended : ∀ cached, r.cache task.dbName = some cached →
        cached.generation ≠ task.generation := fun cached h hgen => hentry ⟨cached, h, hgen⟩
    have hrun : r.runCleanup task = (none, r) := by
      rcases hcache : r.cache task.dbName with _ | cached <;>
        rcases hpoint : task.point with _ | _ <;>
        simp only [runCleanup, cachedConnectionCleanupDelayMs, hpoint, hcache]
      all_goals simp only [ne_eq, hended cached hcache, not_false_eq_true, if_true]
    rw [hrun]
    exact .ended hended

/-- **A task whose entry has expired reaps it**, at once where it looks at
the cache, and otherwise without sleeping first. -/
theorem runCleanup_of_expired {task : Cleanup} (h : r.cache task.dbName = some cached)
    (hgen : cached.generation = task.generation)
    (hexpired : r.cachedConnectionExpired cached = true) :
    (task.point = .delay → r.runCleanup task = (some { task with point := .check }, r)) ∧
      (task.point = .check →
        r.runCleanup task = (none, r.evictCachedConnection task.dbName)) := by
  constructor <;> intro hpoint <;>
    simp [runCleanup, cachedConnectionCleanupDelayMs, hpoint, h, hgen, hexpired]

/-- **Otherwise it goes on**: to sleep, or to work out for how long. -/
theorem runCleanup_of_not_expired {task : Cleanup} (h : r.cache task.dbName = some cached)
    (hgen : cached.generation = task.generation)
    (hexpired : r.cachedConnectionExpired cached = false) :
    ∃ task', r.runCleanup task = (some task', r) ∧ task'.dbName = task.dbName ∧
      task'.generation = task.generation ∧ task'.point ≠ task.point ∧
      (task'.point = .check → r.now < task'.due) := by
  rcases hpoint : task.point with _ | _
  · -- the delay is at least a millisecond
    have hdelay : 0 < (min (max ⌈cached.lastUsedMs + connectionCacheTtlMs - r.now⌉ 1).toNat
        (2 ^ 32 - 1)) := by omega
    refine ⟨{ task with
      point := .check
      due := r.now + (min (max ⌈cached.lastUsedMs + connectionCacheTtlMs - r.now⌉ 1).toNat
        (2 ^ 32 - 1) : ℕ) }, ?_, rfl, rfl, nofun, fun _ => ?_⟩
    · simp only [runCleanup, cachedConnectionCleanupDelayMs, hpoint, h, hgen, hexpired, ne_eq,
        not_true_eq_false, if_false, Bool.false_eq_true, if_pos hdelay]
    · exact lt_add_of_pos_right _ (Nat.cast_pos.2 hdelay)
  · refine ⟨{ task with point := .delay }, ?_, rfl, rfl, nofun, nofun⟩
    simp [runCleanup, hpoint, h, hgen, hexpired]

/-! ## Connections -/

/-- **Every connection that was cached is an open entry, or was closed
once.** -/
structure Ledger (r : Realm) : Prop where
  entry : ∀ dbName cached, r.cache dbName = some cached →
    r.cached[cached.db]? = some dbName ∧ cached.db ∉ r.closed
  gone : ∀ n dbName, r.cached[n]? = some dbName →
    (∃ cached, r.cache dbName = some cached ∧ cached.db = n) ∨ r.closed.count n = 1
  closed : ∀ n ∈ r.closed, n < r.cached.length

namespace Ledger

theorem start (now : Millis) : Ledger (start now) where
  entry _ _ h := nomatch h
  gone _ _ h := nomatch h
  closed _ h := nomatch h

/-- What does not touch the cache or a connection keeps the ledger. -/
theorem congr (h : Ledger r) (hcache : r'.cache = r.cache) (hcached : r'.cached = r.cached)
    (hclosed : r'.closed = r.closed) : Ledger r' := by
  obtain ⟨now, cache, generation, cleanups, cached, closed⟩ := r'
  subst hcache hcached hclosed
  exact ⟨h.entry, h.gone, h.closed⟩

theorem evict (h : Ledger r) (dbName : Str) : Ledger (r.evictCachedConnection dbName) := by
  rcases hentry : r.cache dbName with _ | cached
  · rw [evict_of_none hentry]
    exact h
  · rw [evict_of_some hentry]
    obtain ⟨hdb, hopen⟩ := h.entry dbName cached hentry
    refine ⟨fun d cached' hd => ?_, fun n d hn => ?_, fun n hn => ?_⟩
    · obtain ⟨-, hnone⟩ | ⟨hne, hd⟩ := of_cache_setEntry hd
      · cases hnone
      · obtain ⟨hdb', hopen'⟩ := h.entry d cached' hd
        refine ⟨hdb', fun hmem => ?_⟩
        rcases List.mem_append.1 hmem with hmem | hmem
        · exact hopen' hmem
        · -- another database's connection
          rw [List.mem_singleton.1 hmem, hdb, Option.some_inj] at hdb'
          exact hne hdb'.symm
    · show _ ∨ (r.closed ++ [cached.db]).count n = 1
      rw [List.count_append]
      rcases h.gone n d hn with ⟨cached', hd, hdb'⟩ | hcount
      · by_cases heq : d = dbName
        · subst heq
          rw [hentry, Option.some_inj] at hd
          subst hd hdb'
          right
          rw [List.count_eq_zero_of_not_mem hopen, List.count_singleton_self]
        · exact Or.inl ⟨cached', (cache_setEntry_of_ne heq).trans hd, hdb'⟩
      · right
        have hne : cached.db ≠ n := by
          rintro rfl
          rw [List.count_eq_zero_of_not_mem hopen] at hcount
          omega
        rw [hcount, List.count_singleton, if_neg (by simpa using hne)]
    · rcases List.mem_append.1 hn with hn | hn
      · exact h.closed n hn
      · rw [List.mem_singleton.1 hn]
        exact (List.getElem?_eq_some_iff.1 hdb).1

theorem touch (h : Ledger r) (hentry : r.cache dbName = some cached) :
    Ledger (r.touch dbName cached) := by
  refine ⟨fun d cached' hd => ?_, fun n d hn => ?_, h.closed⟩
  · obtain ⟨rfl, hsome⟩ | ⟨-, hd⟩ := of_cache_setEntry hd
    · rw [Option.some_inj] at hsome
      subst hsome
      exact h.entry d cached hentry
    · exact h.entry d cached' hd
  · refine (h.gone n d hn).imp_left fun ⟨cached', hd, hdb⟩ => ?_
    by_cases heq : d = dbName
    · subst heq
      rw [hentry, Option.some_inj] at hd
      subst hd
      exact ⟨_, cache_setEntry_self, hdb⟩
    · exact ⟨cached', (cache_setEntry_of_ne heq).trans hd, hdb⟩

theorem addEntry (h : Ledger r) (hnone : r.cache dbName = none) (objectStoreNames : List Str) :
    Ledger (r.addEntry dbName objectStoreNames) := by
  have hfresh : r.cached.length ∉ r.closed := fun hmem => lt_irrefl _ (h.closed _ hmem)
  refine ⟨fun d cached' hd => ?_, fun n d hn => ?_, fun n hn => ?_⟩
  · obtain ⟨rfl, hsome⟩ | ⟨-, hd⟩ := of_cache_setEntry hd
    · rw [Option.some_inj] at hsome
      subst hsome
      exact ⟨by simp [Realm.addEntry], hfresh⟩
    · obtain ⟨hdb, hopen⟩ := h.entry d cached' hd
      exact ⟨List.getElem?_append_left (List.getElem?_eq_some_iff.1 hdb).1 ▸ hdb, hopen⟩
  · by_cases hlt : n < r.cached.length
    · refine (h.gone n d ((List.getElem?_append_left hlt).symm.trans hn)).imp_left ?_
      rintro ⟨cached', hd, hdb⟩
      have hne : d ≠ dbName := by
        rintro rfl
        rw [hnone] at hd
        cases hd
      exact ⟨cached', (cache_setEntry_of_ne hne).trans hd, hdb⟩
    · -- the connection just cached
      have hn' : n = r.cached.length := by
        have hle := (List.getElem?_eq_some_iff.1 hn).1
        simp only [Realm.addEntry, List.length_append, List.length_singleton] at hle
        omega
      subst hn'
      have hd : dbName = d := by simpa [Realm.addEntry] using hn
      subst hd
      exact Or.inl ⟨_, cache_setEntry_self, rfl⟩
  · have hlt := h.closed n hn
    simp only [Realm.addEntry, List.length_append, List.length_singleton]
    omega

theorem cacheConnection (h : Ledger r) (dbName : Str) (objectStoreNames : List Str) :
    Ledger (r.cacheConnection dbName objectStoreNames) := by
  rw [cacheConnection_eq]
  exact (h.evict dbName).addEntry cache_evict_self objectStoreNames

theorem used (h : Ledger r) (hused : Used r dbName r') : Ledger r' := by
  cases hused with
  | missed => exact h
  | expired => exact h.evict dbName
  | refreshed hentry => exact h.touch hentry

theorem cleaned (h : Ledger r) {task : Cleanup} {result : Option Cleanup × Realm}
    (hcleaned : Cleaned r task result) : Ledger result.2 := by
  cases hcleaned with
  | ended | goesOn => exact h
  | reaped => exact h.evict _

theorem background (h : Ledger r) (hstep : Background r r') : Ledger r' := by
  cases hstep with
  | cleanup => exact (h.cleaned (Realm.cleaned r _)).congr rfl rfl rfl
  | evict dbName => exact h.evict dbName

/-- **Every step keeps the ledger.** -/
theorem step (h : Ledger r) (hstep : Step r r') : Ledger r' := by
  cases hstep with
  | tick => exact h.congr rfl rfl rfl
  | cache dbName objectStoreNames => exact h.cacheConnection dbName objectStoreNames
  | hasStores core => exact h.used (used_hasStores r core)
  | transaction core => exact h.used (used_transaction r core)
  | background hstep => exact h.background hstep

end Ledger

/-! ## Cleanup tasks -/

/-- **Every entry has its own cleanup task, which is due in time.**
Generations are the numbers of the connections, as long as the counter
has not wrapped. -/
structure Reapers (r : Realm) : Prop where
  generation : r.generation = r.cached.length
  entry : ∀ dbName cached, r.cache dbName = some cached → cached.lastUsedMs ≤ r.now
  issued : ∀ task ∈ r.cleanups, task.generation ≤ r.generation
  nodup : (r.cleanups.map Cleanup.generation).Nodup
  reaper : ∀ dbName cached, r.cache dbName = some cached → ∃ task ∈ r.cleanups,
    task.dbName = dbName ∧ task.generation = cached.generation ∧
    task.due ≤ cached.lastUsedMs + 501

namespace Reapers

theorem start (now : Millis) : Reapers (start now) where
  generation := rfl
  entry _ _ h := nomatch h
  issued _ h := nomatch h
  nodup := List.nodup_nil
  reaper _ _ h := nomatch h

theorem tick {now : Millis} (h : Reapers r) (hnow : r.now ≤ now) :
    Reapers { r with now } where
  generation := h.generation
  entry dbName cached hd := le_trans (h.entry dbName cached hd) hnow
  issued := h.issued
  nodup := h.nodup
  reaper := h.reaper

/-- Fewer entries need fewer tasks. -/
theorem evict (h : Reapers r) (dbName : Str) : Reapers (r.evictCachedConnection dbName) := by
  obtain ⟨hnow, hgeneration, hcleanups, hcached⟩ := evict_same r dbName
  have hentry : ∀ d cached, (r.evictCachedConnection dbName).cache d = some cached →
      r.cache d = some cached := by
    intro d cached hd
    by_cases hne : d = dbName
    · rw [hne, cache_evict_self] at hd
      cases hd
    · rwa [cache_evict_of_ne hne] at hd
  refine ⟨?_, fun d cached hd => ?_, ?_, ?_, fun d cached hd => ?_⟩
  · rw [hgeneration, hcached]
    exact h.generation
  · rw [hnow]
    exact h.entry d cached (hentry d cached hd)
  · rw [hcleanups, hgeneration]
    exact h.issued
  · rw [hcleanups]
    exact h.nodup
  · rw [hcleanups]
    exact h.reaper d cached (hentry d cached hd)

/-- An entry that is used has more time. -/
theorem touch (h : Reapers r) (hentry : r.cache dbName = some cached) :
    Reapers (r.touch dbName cached) := by
  refine ⟨h.generation, fun d cached' hd => ?_, h.issued, h.nodup, fun d cached' hd => ?_⟩
  · obtain ⟨rfl, hsome⟩ | ⟨-, hd⟩ := of_cache_setEntry hd
    · rw [Option.some_inj] at hsome
      subst hsome
      exact le_rfl
    · exact h.entry d cached' hd
  · obtain ⟨rfl, hsome⟩ | ⟨-, hd⟩ := of_cache_setEntry hd
    · rw [Option.some_inj] at hsome
      subst hsome
      obtain ⟨task, hmem, hdb, hgen, hdue⟩ := h.reaper d cached hentry
      have hlast := h.entry d cached hentry
      exact ⟨task, hmem, hdb, hgen, le_trans hdue (by linarith)⟩
    · exact h.reaper d cached' hd

/-- A new entry comes with its task. -/
theorem addEntry (h : Reapers r) (dbName : Str) (objectStoreNames : List Str)
    (hlt : r.cached.length + 1 < 2 ^ 64) : Reapers (r.addEntry dbName objectStoreNames) := by
  have hnext : r.nextConnectionGeneration = r.generation + 1 := by
    rw [nextConnectionGeneration, h.generation, Nat.mod_eq_of_lt hlt]
  refine ⟨?_, fun d cached' hd => ?_, ?_, ?_, fun d cached' hd => ?_⟩
  · simp [Realm.addEntry, hnext, h.generation]
  · obtain ⟨rfl, hsome⟩ | ⟨-, hd⟩ := of_cache_setEntry hd
    · rw [Option.some_inj] at hsome
      subst hsome
      exact le_rfl
    · exact h.entry d cached' hd
  · intro task hmem
    rcases List.mem_append.1 hmem with hmem | hmem
    · have hle := h.issued task hmem
      show task.generation ≤ r.nextConnectionGeneration
      omega
    · rw [List.mem_singleton.1 hmem]
      exact le_rfl
  · -- the new generation was not issued before
    simp only [Realm.addEntry, List.map_append, List.map_singleton, List.nodup_append_comm,
      List.singleton_append, List.nodup_cons]
    refine ⟨fun hmem => ?_, h.nodup⟩
    obtain ⟨task, htask, hgen⟩ := List.mem_map.1 hmem
    have hle := h.issued task htask
    omega
  · obtain ⟨rfl, hsome⟩ | ⟨-, hd⟩ := of_cache_setEntry hd
    · rw [Option.some_inj] at hsome
      subst hsome
      refine ⟨_, List.mem_append_right _ (List.mem_singleton_self _), rfl, rfl, ?_⟩
      show r.now ≤ r.now + 501
      linarith
    · obtain ⟨task, hmem, hrest⟩ := h.reaper d cached' hd
      exact ⟨task, List.mem_append_left _ hmem, hrest⟩

theorem used (h : Reapers r) (hused : Used r dbName r') : Reapers r' := by
  cases hused with
  | missed => exact h
  | expired => exact h.evict dbName
  | refreshed hentry => exact h.touch hentry

/-- A task may be replaced by one of its generation that is due no later,
and dropped where no entry needs it. -/
theorem replace (h : Reapers r) {task : Cleanup} {before after : List Cleanup}
    (htasks : r.cleanups = before ++ task :: after) (task' : Option Cleanup)
    (hsame : ∀ t ∈ task', t.dbName = task.dbName ∧ t.generation = task.generation)
    (hkeep : ∀ cached, r.cache task.dbName = some cached → cached.generation = task.generation →
      ∃ t ∈ task', t.due = task.due ∨ t.due ≤ cached.lastUsedMs + 501) :
    Reapers { r with cleanups := before ++ task'.toList ++ after } := by
  refine ⟨h.generation, h.entry, fun t ht => ?_, ?_, fun d cached hd => ?_⟩
  · rcases List.mem_append.1 ht with ht | ht
    · rcases List.mem_append.1 ht with ht | ht
      · exact h.issued t (htasks ▸ List.mem_append_left _ ht)
      · rw [(hsame t (Option.mem_toList.1 ht)).2]
        exact h.issued task (htasks ▸ List.mem_append_right _ List.mem_cons_self)
    · exact h.issued t (htasks ▸ List.mem_append_right _ (List.mem_cons_of_mem _ ht))
  · -- no generation is added
    have hnodup := h.nodup
    rw [htasks, List.map_append, List.map_cons] at hnodup
    refine hnodup.sublist ?_
    rw [List.map_append, List.map_append, List.append_assoc]
    refine (List.Sublist.refl _).append ?_
    rcases task' with _ | t
    · exact (List.Sublist.refl _).cons _
    · rw [← (hsame t rfl).2]
      exact List.Sublist.refl _
  · obtain ⟨t, ht, hdb, hgen, hdue⟩ := h.reaper d cached hd
    rw [htasks] at ht
    rcases List.mem_append.1 ht with ht | ht
    · exact ⟨t, List.mem_append_left _ (List.mem_append_left _ ht), hdb, hgen, hdue⟩
    · rcases List.mem_cons.1 ht with rfl | ht
      · -- the entry's own task is the one replaced
        subst hdb
        obtain ⟨t', ht', hdue'⟩ := hkeep cached hd hgen.symm
        obtain ⟨hdb', hgen'⟩ := hsame t' ht'
        refine ⟨t', List.mem_append_left _ (List.mem_append_right _ (Option.mem_toList.2 ht')),
          hdb', hgen'.trans hgen, ?_⟩
        rcases hdue' with heq | hle
        · rw [heq]
          exact hdue
        · exact hle
      · exact ⟨t, List.mem_append_right _ ht, hdb, hgen, hdue⟩

/-- A task that goes on, or ends, leaves every entry with one. -/
theorem cleanup (h : Reapers r) {task : Cleanup} {before after : List Cleanup}
    (htasks : r.cleanups = before ++ task :: after) {result : Option Cleanup × Realm}
    (hcleaned : Cleaned r task result) :
    Reapers { result.2 with cleanups := before ++ result.1.toList ++ after } := by
  cases hcleaned with
  | ended hended =>
    exact h.replace htasks none (by simp) fun cached hd hgen => absurd hgen (hended cached hd)
  | reaped =>
    refine (h.evict task.dbName).replace ((evict_same r _).2.2.1.trans htasks) none (by simp) ?_
    intro cached hd
    rw [cache_evict_self] at hd
    cases hd
  | goesOn hentry hgen hsame hdue =>
    refine h.replace htasks (some _) (fun t ht => ?_) fun cached hd _ => ?_
    · rw [Option.mem_some_iff] at ht
      exact ht ▸ hsame
    · rw [hentry, Option.some_inj] at hd
      exact ⟨_, rfl, hd ▸ hdue⟩

/-- No other task has the name and the generation of a task. -/
theorem filter_eq (h : Reapers r) {task : Cleanup} {generation : ℕ} (hmem : task ∈ r.cleanups)
    (hdb : task.dbName = dbName) (hgen : task.generation = generation) :
    r.cleanups.filter (fun t => t.dbName = dbName ∧ t.generation = generation) = [task] := by
  set own := r.cleanups.filter fun t => decide (t.dbName = dbName ∧ t.generation = generation)
  have hown : ∀ t ∈ own, t = task := by
    intro t ht
    obtain ⟨hin, hsame⟩ := List.mem_filter.1 ht
    refine List.inj_on_of_nodup_map h.nodup hin hmem ?_
    rw [hgen]
    exact (of_decide_eq_true hsame).2
  have htask : task ∈ own := List.mem_filter.2 ⟨hmem, decide_eq_true ⟨hdb, hgen⟩⟩
  have hlen : own.length ≤ 1 := by
    have hnodup : own.Nodup := h.nodup.of_map.filter _
    rw [List.eq_replicate_of_mem hown] at hnodup
    exact List.nodup_replicate.1 hnodup
  have hpos := List.length_pos_of_mem htask
  rw [List.eq_replicate_of_mem hown, show own.length = 1 by omega]
  rfl

/-- **Every step keeps a task for every entry**, until the counter wraps. -/
theorem step (h : Reapers r) (hstep : Step r r') (hlt : r'.cached.length < 2 ^ 64) :
    Reapers r' := by
  cases hstep with
  | tick hnow => exact h.tick hnow
  | cache dbName objectStoreNames =>
    rw [cacheConnection_eq] at hlt ⊢
    exact (h.evict dbName).addEntry dbName objectStoreNames (by
      simpa [Realm.addEntry] using hlt)
  | hasStores core => exact h.used (used_hasStores r core)
  | transaction core => exact h.used (used_transaction r core)
  | background hstep =>
    cases hstep with
    | cleanup htasks => exact h.cleanup htasks (cleaned r _)
    | evict dbName => exact h.evict dbName

end Reapers

/-- Connections are only added. -/
theorem Step.cached_length_le (h : Step r r') : r.cached.length ≤ r'.cached.length := by
  have hused : ∀ {dbName r'}, Used r dbName r' → r'.cached = r.cached := by
    intro dbName r' hused
    cases hused with
    | missed | refreshed => rfl
    | expired => exact (evict_same r dbName).2.2.2
  cases h with
  | tick => exact le_rfl
  | cache => simp [cacheConnection]
  | hasStores core => rw [hused (used_hasStores r core)]
  | transaction core => rw [hused (used_transaction r core)]
  | background hstep =>
    cases hstep with
    | evict dbName => rw [(evict_same r dbName).2.2.2]
    | @cleanup task =>
      have hcleaned := cleaned r task
      generalize r.runCleanup task = result at hcleaned ⊢
      cases hcleaned with
      | ended | goesOn => exact le_rfl
      | reaped =>
        show r.cached.length ≤ (r.evictCachedConnection task.dbName).cached.length
        rw [(evict_same r task.dbName).2.2.2]

theorem Reachable.ledger (h : Reachable r) : Ledger r := by
  induction h with
  | start now => exact .start now
  | step _ hstep ih => exact ih.step hstep

theorem Reachable.reapers (h : Reachable r) (hlt : r.cached.length < 2 ^ 64) : Reapers r := by
  induction h with
  | start now => exact .start now
  | step _ hstep ih => exact (ih (lt_of_le_of_lt hstep.cached_length_le hlt)).step hstep hlt

/-- **No cached connection is leaked, closed in use, or left without a
reaper.** Every connection that was cached is the open entry of its
database, or it is out of the cache and was closed once. Every entry has
one live cleanup task of its generation, due 501 milliseconds after its
last use at the latest. A cleanup task removes an entry of its generation
alone, idle for more than 500 milliseconds. -/
theorem cache_sound (h : Reachable r) (hlt : r.cached.length < 2 ^ 64) :
    (∀ n dbName, r.cached[n]? = some dbName →
      (n ∉ r.closed ∧ ∃ cached, r.cache dbName = some cached ∧ cached.db = n) ∨
      (r.closed.count n = 1 ∧ ∀ d cached, r.cache d = some cached → cached.db ≠ n)) ∧
    (∀ dbName cached, r.cache dbName = some cached → ∃ task,
      r.cleanups.filter (fun t => t.dbName = dbName ∧ t.generation = cached.generation) = [task] ∧
      task.due ≤ cached.lastUsedMs + 501) ∧
    ∀ task ∈ r.cleanups, ∀ dbName, (r.runCleanup task).2.cache dbName ≠ r.cache dbName →
      dbName = task.dbName ∧ ∃ cached, r.cache dbName = some cached ∧
        cached.generation = task.generation ∧ 500 < r.now - cached.lastUsedMs := by
  have hledger := h.ledger
  have hreapers := h.reapers hlt
  refine ⟨fun n dbName hn => ?_, fun dbName cached hd => ?_, fun task _ dbName hne => ?_⟩
  · rcases hledger.gone n dbName hn with ⟨cached, hd, hdb⟩ | hcount
    · exact Or.inl ⟨hdb ▸ (hledger.entry dbName cached hd).2, cached, hd, hdb⟩
    · refine Or.inr ⟨hcount, fun d cached hd hdb => ?_⟩
      have hopen := (hledger.entry d cached hd).2
      rw [hdb] at hopen
      rw [List.count_eq_zero_of_not_mem hopen] at hcount
      omega
  · obtain ⟨task, hmem, hdb, hgen, hdue⟩ := hreapers.reaper dbName cached hd
    exact ⟨task, hreapers.filter_eq hmem hdb hgen, hdue⟩
  · have hcleaned := cleaned r task
    generalize r.runCleanup task = result at hcleaned hne
    cases hcleaned with
    | ended | goesOn => exact absurd rfl hne
    | @reaped cached hentry hgen hexpired =>
      have heq : dbName = task.dbName := by
        by_contra hd
        exact hne (cache_evict_of_ne hd)
      subst heq
      exact ⟨rfl, cached, hentry, hgen, expired_iff.1 hexpired⟩

/-- **An entry that is left alone is reaped**: from 501 milliseconds after
its last use on, its cleanup task is due, and evicts it when it next looks
at the cache. -/
theorem Reapers.reaps (h : Reapers r) (hentry : r.cache dbName = some cached)
    (hidle : cached.lastUsedMs + 501 ≤ r.now) : ∃ r', Relation.ReflTransGen Background r r' ∧
      r'.now = r.now ∧ r'.cache dbName = none ∧ cached.db ∈ r'.closed := by
  obtain ⟨task, hmem, rfl, hgen, hdue⟩ := h.reaper dbName cached hentry
  have hexpired : ∀ r' : Realm, r'.now = r.now → r'.cachedConnectionExpired cached = true := by
    intro r' hnow
    rw [expired_iff, hnow]
    linarith
  -- the last look, from wherever the task stands before it
  have hlook : ∀ (r' : Realm) (task' : Cleanup), r'.now = r.now → r'.cache = r.cache →
      task'.dbName = task.dbName → task'.generation = task.generation → task'.due = task.due →
      task' ∈ r'.cleanups → task'.point = .check → ∃ r'', Background r' r'' ∧
        r''.now = r.now ∧ r''.cache task.dbName = none ∧ cached.db ∈ r''.closed := by
    intro r' task' hnow hcache hdb hgen' hdue' hmem' hpoint
    obtain ⟨before, after, hsplit⟩ := List.append_of_mem hmem'
    have hentry' : r'.cache task'.dbName = some cached := by rw [hcache, hdb, hentry]
    have hrun :=
      (runCleanup_of_expired hentry' (hgen.symm.trans hgen'.symm) (hexpired r' hnow)).2 hpoint
    refine ⟨_, .cleanup hsplit (by rw [hdue', hnow]; linarith), ?_, ?_, ?_⟩
    · rw [hrun]
      exact (evict_same r' _).1.trans hnow
    · rw [hrun, ← hdb]
      exact cache_evict_self
    · rw [hrun, evict_of_some hentry']
      exact List.mem_append_right _ (List.mem_singleton_self _)
  rcases hpoint : task.point with _ | _
  · obtain ⟨before, after, hsplit⟩ := List.append_of_mem hmem
    have hrun := (runCleanup_of_expired hentry hgen.symm (hexpired r rfl)).1 hpoint
    have hstep : Background r
        { r with cleanups := before ++ [{ task with point := .check }] ++ after } := by
      have hgoes := Background.cleanup hsplit (by linarith : task.due ≤ r.now)
      rwa [hrun] at hgoes
    obtain ⟨r', hlast, hrest⟩ := hlook
      { r with cleanups := before ++ [{ task with point := .check }] ++ after }
      { task with point := .check } rfl rfl rfl rfl rfl (by simp) rfl
    exact ⟨r', (Relation.ReflTransGen.single hstep).tail hlast, hrest⟩
  · obtain ⟨r', hstep, hrest⟩ := hlook r task rfl rfl rfl rfl rfl hmem hpoint
    exact ⟨r', .single hstep, hrest⟩

/-- A realm in which a connection was cached, and then another one of the
same database. -/
def replacedRealm : Realm :=
  ((start 0).cacheConnection "opendal".toList []).cacheConnection "opendal".toList []

theorem replacedRealm_reachable : Reachable replacedRealm :=
  ((Reachable.start 0).step (.cache _ [])).step (.cache _ [])

/-- The first of the two was closed once, and has no entry. -/
theorem cache_sound_replaced : replacedRealm.closed.count 0 = 1 ∧
    ∀ d cached, replacedRealm.cache d = some cached → cached.db ≠ 0 := by
  have hlt : replacedRealm.cached.length < 2 ^ 64 := by
    simp [replacedRealm, cacheConnection, start]
  rcases (cache_sound replacedRealm_reachable hlt).1 0 "opendal".toList rfl with
    ⟨hopen, -⟩ | hclosed
  · exact absurd (List.mem_singleton_self 0) hopen
  · exact hclosed

end Realm

end OpendalIndexeddb
