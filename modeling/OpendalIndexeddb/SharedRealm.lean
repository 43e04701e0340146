import OpendalIndexeddb.ConnectionCache
import OpendalIndexeddb.Model.Tasks
import OpendalIndexeddb.Upgrades
/-!
# Operators that share a realm

Operators with different stores replace each other's connection. Who fills
the cache has the upgrade lock from before the eviction, so nobody else
does until then; who finds a connection uses it before anybody else runs.
-/

namespace OpendalIndexeddb

open IndexeddbCore

namespace Operators

variable {cores : ℕ → IndexeddbCore} {core : IndexeddbCore} {w w' : Operators} {i j : ℕ}
variable {point : TaskPoint} {realm : Realm}

@[simp] theorem holder_setHolder_self {dbName : Str} {holder : Option ℕ} :
    (w.setHolder dbName holder).holder dbName = holder := by
  simp [setHolder]

/-- A lock that is left is not had. -/
theorem holder_setHolder_none {dbName : Str} :
    (w.setHolder dbName none).holder dbName ≠ some i := by
  simp

/-! ## What a task relies on -/

/-- **What holds of a task where it stands.** One that fills the cache has
the lock, and there is no entry meanwhile; one that is sure of its
connection has been running since it was used last. -/
def Sound (core : IndexeddbCore) (w : Operators) (i : ℕ) : Prop :=
  match w.points i with
  | .idle | .locking _ | .running _ => w.holder core.dbName ≠ some i
  | .ensuring _ => w.holder core.dbName ≠ some i ∧ ∃ since, w.segment = some (i, since)
  | .locked _ | .evicting _ => w.holder core.dbName = some i ∧ ∃ since, w.segment = some (i, since)
  | .opening _ point => w.holder core.dbName = some i ∧ w.realm.cache core.dbName = none ∧
      ((∃ since, w.segment = some (i, since)) ∨ point.awaits = true) ∧
      ∀ db, point = .returned (.ok db) → core.storesExistIn db.objectStoreNames = true
  | .ensured _ => w.holder core.dbName ≠ some i ∧ ∃ since cached,
      w.segment = some (i, since) ∧ w.realm.cache core.dbName = some cached ∧
      core.storesExistIn cached.objectStoreNames = true ∧ since ≤ cached.lastUsedMs
  | .retrying _ => False

/-- **The invariant of a realm.** -/
structure Safe (cores : ℕ → IndexeddbCore) (w : Operators) : Prop where
  ledger : w.realm.Ledger
  /-- A lock is had by tasks of its database. -/
  holder : ∀ dbName i, w.holder dbName = some i → dbName = (cores i).dbName
  segment : ∀ i since, w.segment = some (i, since) →
    since ≤ w.realm.now ∧ w.realm.now ≤ since + 500
  tasks : ∀ i, Sound (cores i) w i

/-! ## Moves that fill nothing -/

/-- A change of the cache that leaves what is empty empty. -/
structure Quiet (r r' : Realm) : Prop where
  ledger : r.Ledger → r'.Ledger
  now : r'.now = r.now
  none : ∀ dbName, r.cache dbName = none → r'.cache dbName = none

theorem Quiet.refl (r : Realm) : Quiet r r := ⟨id, rfl, fun _ => id⟩

theorem Quiet.trans {r r' r'' : Realm} (h : Quiet r r') (h' : Quiet r' r'') : Quiet r r'' :=
  ⟨h'.ledger ∘ h.ledger, h'.now.trans h.now, fun d hd => h'.none d (h.none d hd)⟩

theorem quiet_evict (r : Realm) (dbName : Str) : Quiet r (r.evictCachedConnection dbName) := by
  refine ⟨fun h => h.evict dbName, (Realm.evict_same r dbName).1, fun d hd => ?_⟩
  by_cases hne : d = dbName
  · rw [hne]
    exact Realm.cache_evict_self
  · rw [Realm.cache_evict_of_ne hne]
    exact hd

theorem quiet_used {r r' : Realm} {dbName : Str} (h : r.Used dbName r') : Quiet r r' := by
  cases h with
  | missed => exact .refl r
  | expired => exact quiet_evict r dbName
  | @refreshed cached hentry =>
    refine ⟨fun h => h.touch hentry, rfl, fun d hd => ?_⟩
    have hne : d ≠ dbName := by
      rintro rfl
      rw [hentry] at hd
      cases hd
    exact (Realm.cache_setEntry_of_ne hne).trans hd

theorem quiet_background {r r' : Realm} (h : Realm.Background r r') : Quiet r r' := by
  refine ⟨fun hledger => hledger.background h, ?_, ?_⟩
  · cases h with
    | @cleanup task =>
      have hcleaned := Realm.cleaned r task
      generalize r.runCleanup task = result at hcleaned ⊢
      cases hcleaned with
      | ended | goesOn => rfl
      | reaped => exact (quiet_evict r task.dbName).now
    | evict dbName => exact (quiet_evict r dbName).now
  · cases h with
    | @cleanup task =>
      have hcleaned := Realm.cleaned r task
      generalize r.runCleanup task = result at hcleaned ⊢
      cases hcleaned with
      | ended | goesOn => exact fun _ => id
      | reaped => exact (quiet_evict r task.dbName).none
    | evict dbName => exact (quiet_evict r dbName).none

theorem quiet_applyEffects (core : IndexeddbCore) (r : Realm) (effects : List OpenEffect) :
    Quiet r (applyEffects core r effects) := by
  induction effects generalizing r with
  | nil => exact .refl r
  | cons effect effects ih =>
    rcases effect with db | _
    · exact ih r
    · exact (quiet_evict r core.dbName).trans (ih _)

/-- **What a look at the cache finds**: an entry with both stores, just
used, where it says so. -/
theorem of_hasStores {r : Realm} (h : (r.cachedClientHasStores core).1 = true) : ∃ cached,
    (r.cachedClientHasStores core).2.cache core.dbName = some cached ∧
    core.storesExistIn cached.objectStoreNames = true ∧ cached.lastUsedMs = r.now := by
  unfold Realm.cachedClientHasStores at h ⊢
  rcases hentry : r.cache core.dbName with _ | cached
  · simp [hentry] at h
  · simp only [hentry] at h ⊢
    split_ifs at h ⊢ with hexpired
    exact ⟨_, Realm.cache_setEntry_self, h, rfl⟩

/-- An entry with both stores that has not expired gives a transaction. -/
theorem transaction_of_entry {r : Realm} {cached : CachedConnection}
    (hentry : r.cache core.dbName = some cached)
    (hstores : core.storesExistIn cached.objectStoreNames = true)
    (hused : r.now ≤ cached.lastUsedMs + 500) : (r.cachedTransaction core).1 = true := by
  have hexpired : ¬ r.cachedConnectionExpired cached = true := by
    rw [Realm.expired_iff]
    linarith
  simp [Realm.cachedTransaction, hentry, hexpired, hstores]

/-! ## One task moves -/

/-- A task that does not run, or awaits something, is left as it was by
what neither takes its lock nor fills an entry under it. -/
theorem Sound.rest (h : Sound core w j)
    (hrest : (∀ since, w.segment ≠ some (j, since)) ∨ (w.points j).awaits = true)
    (hpoints : w'.points j = w.points j)
    (hholder : w'.holder core.dbName = some j ↔ w.holder core.dbName = some j)
    (hnone : w.holder core.dbName = some j → w.realm.cache core.dbName = none →
      w'.realm.cache core.dbName = none) : Sound core w' j := by
  unfold Sound at h ⊢
  rw [hpoints]
  rcases hpoint : w.points j with _ | a | a | a | a | ⟨a, p⟩ | a | a | a <;>
    simp only [hpoint, TaskPoint.awaits, Bool.false_eq_true, or_false] at h hrest ⊢
  case idle | locking | running => exact mt hholder.1 h
  case ensuring | locked | evicting => exact absurd h.2.choose_spec (hrest _)
  case opening =>
    obtain ⟨hhas, hcache, hruns, hstores⟩ := h
    refine ⟨hholder.2 hhas, hnone hhas hcache, Or.inr ?_, hstores⟩
    rcases hrest with hrest | hrest
    · exact hruns.resolve_left fun ⟨since, hsegment⟩ => hrest since hsegment
    · exact hrest
  case ensured =>
    obtain ⟨-, since, -, hsegment, -⟩ := h
    exact absurd hsegment (hrest since)

/-- **A move of the task that runs keeps the invariant**, where it fills no
entry of a database whose lock another task has, and takes or leaves the
lock of its own. -/
theorem Safe.move {since : Millis} (h : Safe cores w) (hruns : w.segment = some (i, since))
    {realm : Realm} {point : TaskPoint} {holder : Str → Option ℕ} (hledger : realm.Ledger)
    (hnow : realm.now = w.realm.now)
    (hnone : ∀ j, j ≠ i → w.holder (cores j).dbName = some j →
      w.realm.cache (cores j).dbName = none → realm.cache (cores j).dbName = none)
    (hholder : ∀ dbName k, holder dbName = some k → dbName = (cores k).dbName)
    (hothers : ∀ j, j ≠ i → (holder (cores j).dbName = some j ↔
      w.holder (cores j).dbName = some j))
    (hsound : Sound (cores i) ⟨realm, Function.update w.points i point, holder, w.segment⟩ i) :
    Safe cores ⟨realm, Function.update w.points i point, holder, w.segment⟩ := by
  refine ⟨hledger, hholder, fun k since' hsegment => ?_, fun j => ?_⟩
  · rw [hnow]
    exact h.segment k since' hsegment
  · by_cases hne : j = i
    · exact hne ▸ hsound
    · refine (h.tasks j).rest (Or.inl fun since' hsegment => ?_) (Function.update_of_ne hne _ _)
        (hothers j hne) (hnone j hne)
      rw [hruns, Option.some_inj, Prod.mk.injEq] at hsegment
      exact hne hsegment.1.symm

/-- Taking a lock that is free. -/
theorem Safe.lock (h : Safe cores w) (hfree : w.holder (cores i).dbName = none) :
    (∀ dbName k, Function.update w.holder (cores i).dbName (some i) dbName = some k →
      dbName = (cores k).dbName) ∧
    ∀ j, j ≠ i → (Function.update w.holder (cores i).dbName (some i) (cores j).dbName = some j ↔
      w.holder (cores j).dbName = some j) := by
  refine ⟨fun dbName k hk => ?_, fun j hne => ?_⟩
  · by_cases hdb : dbName = (cores i).dbName
    · rw [hdb, Function.update_self, Option.some_inj] at hk
      rw [hdb, hk]
    · rw [Function.update_of_ne hdb] at hk
      exact h.holder dbName k hk
  · by_cases hdb : (cores j).dbName = (cores i).dbName
    · rw [hdb, Function.update_self, hfree, Option.some_inj]
      simp [hne.symm]
    · rw [Function.update_of_ne hdb]

/-- Leaving a lock, or not having had it. -/
theorem Safe.unlock (h : Safe cores w) {holder : Option ℕ}
    (hleft : holder = none ∧ w.holder (cores i).dbName = some i ∨
      holder = w.holder (cores i).dbName) :
    (∀ dbName k, Function.update w.holder (cores i).dbName holder dbName = some k →
      dbName = (cores k).dbName) ∧
    ∀ j, j ≠ i → (Function.update w.holder (cores i).dbName holder (cores j).dbName = some j ↔
      w.holder (cores j).dbName = some j) := by
  rcases hleft with ⟨rfl, hhas⟩ | rfl
  · refine ⟨fun dbName k hk => ?_, fun j hne => ?_⟩
    · by_cases hdb : dbName = (cores i).dbName
      · rw [hdb, Function.update_self] at hk
        cases hk
      · rw [Function.update_of_ne hdb] at hk
        exact h.holder dbName k hk
    · by_cases hdb : (cores j).dbName = (cores i).dbName
      · rw [hdb, Function.update_self, hhas, Option.some_inj]
        simp [hne.symm]
      · rw [Function.update_of_ne hdb]
  · rw [Function.update_eq_self]
    exact ⟨h.holder, fun _ _ => Iff.rfl⟩

/-- A move that fills no entry and keeps the locks. -/
theorem Safe.quiet {since : Millis} (h : Safe cores w) (hruns : w.segment = some (i, since))
    {point : TaskPoint} (hquiet : Quiet w.realm realm)
    (hsound : Sound (cores i) ((w.setRealm realm).goTo i point) i) :
    Safe cores ((w.setRealm realm).goTo i point) :=
  h.move hruns (hquiet.ledger h.ledger) hquiet.now (fun _ _ _ => hquiet.none _) h.holder
    (fun _ _ => Iff.rfl) hsound

/-- A move that fills no entry and leaves the lock. -/
theorem Safe.leave {since : Millis} (h : Safe cores w) (hruns : w.segment = some (i, since))
    {point : TaskPoint} (hhas : w.holder (cores i).dbName = some i) (hquiet : Quiet w.realm realm)
    (hsound : Sound (cores i)
      (((w.setRealm realm).setHolder (cores i).dbName none).goTo i point) i) :
    Safe cores (((w.setRealm realm).setHolder (cores i).dbName none).goTo i point) := by
  obtain ⟨hholder, hothers⟩ := h.unlock (Or.inl ⟨rfl, hhas⟩)
  exact h.move hruns (hquiet.ledger h.ledger) hquiet.now (fun _ _ _ => hquiet.none _) hholder
    hothers hsound

/-- `open_client` goes on: it returns a connection only if the stores are
in it. -/
theorem Safe.resumeOpen {since : Millis} (hsafe : Safe cores w)
    (hruns : w.segment = some (i, since)) {attempt : ℕ} {point point' : OpenPoint}
    {answer : OpenAnswer} {effects : List OpenEffect} (h : w.points i = .opening attempt point)
    (hresume : (cores i).resumeOpen point answer = some (point', effects)) :
    Safe cores ((w.setRealm (applyEffects (cores i) w.realm effects)).goTo i
      (.opening attempt point')) := by
  have hsound := hsafe.tasks i
  simp only [Sound, h] at hsound
  have hquiet := quiet_applyEffects (cores i) w.realm effects
  refine hsafe.quiet hruns hquiet ?_
  simp only [Sound, goTo, Function.update_self]
  refine ⟨hsound.1, hquiet.none _ hsound.2.1, Or.inl ⟨since, hruns⟩, fun db hdb => ?_⟩
  rcases (resumeOpen_cases hresume).2 with ⟨db', -, hstores, hpoint, -⟩ | ⟨hpoint, -⟩
  · rw [hpoint] at hdb
    cases hdb
    exact hstores
  · exact absurd hdb (hpoint db)

/-- A connection is cached under the lock, which is left with it. -/
theorem Safe.cache {since : Millis} (hsafe : Safe cores w) (hruns : w.segment = some (i, since))
    {attempt : ℕ} {db : Database} (h : w.points i = .opening attempt (.returned (.ok db))) :
    Safe cores (((w.setRealm (w.realm.cacheConnection (cores i).dbName
      db.objectStoreNames)).setHolder (cores i).dbName none).goTo i (.ensured attempt)) := by
  have hsound := hsafe.tasks i
  simp only [Sound, h] at hsound
  obtain ⟨hhas, hnone, -, hstores⟩ := hsound
  obtain ⟨hholder, hothers⟩ := hsafe.unlock (Or.inl ⟨rfl, hhas⟩)
  refine hsafe.move hruns (hsafe.ledger.cacheConnection _ _) rfl (fun j hne hj hcache => ?_)
    hholder hothers ?_
  · -- the lock of the database is had by one task
    have hdb : (cores j).dbName ≠ (cores i).dbName := by
      intro hdb
      rw [hdb, hhas, Option.some_inj] at hj
      exact hne hj.symm
    exact (Function.update_of_ne hdb _ _).trans hcache
  · simp only [Sound, Function.update_self]
    exact ⟨holder_setHolder_none, since, _, hruns, Function.update_self _ _ _, hstores db rfl,
      (hsafe.segment i since hruns).1⟩

/-- **A task that is sure of its connection has a transaction**: the entry
is there, and has not expired since. -/
theorem Safe.transaction (hsafe : Safe cores w) {attempt : ℕ} (h : w.points i = .ensured attempt) :
    (w.realm.cachedTransaction (cores i)).1 = true ∧
      ∃ cached, w.realm.cache (cores i).dbName = some cached ∧ cached.db ∉ w.realm.closed ∧
        (cores i).storesExistIn cached.objectStoreNames = true := by
  have hsound := hsafe.tasks i
  simp only [Sound, h] at hsound
  obtain ⟨-, since, cached, hruns, hentry, hstores, hused⟩ := hsound
  refine ⟨transaction_of_entry hentry hstores ?_, cached, hentry,
    (hsafe.ledger.entry _ _ hentry).2, hstores⟩
  linarith [(hsafe.segment i since hruns).2]

/-- **Every move of the task that runs keeps the invariant.** -/
theorem Advance.safe {since : Millis} (h : Advance (cores i) i w w')
    (hruns : w.segment = some (i, since)) (hsafe : Safe cores w) : Safe cores w' := by
  have hsound := hsafe.tasks i
  have hnow := hsafe.segment i since hruns
  unfold Sound at hsound
  cases h with
  | enter h =>
    simp only [h] at hsound
    refine hsafe.quiet hruns (.refl _) ?_
    simp only [Sound, goTo, Function.update_self]
    exact ⟨hsound, since, hruns⟩
  | found h hfound =>
    simp only [h] at hsound
    refine hsafe.quiet hruns (quiet_used (Realm.used_hasStores _ _)) ?_
    obtain ⟨cached, hentry, hstores, hused⟩ := of_hasStores hfound
    simp only [Sound, goTo, Function.update_self]
    exact ⟨hsound.1, since, cached, hruns, hentry, hstores, hused ▸ hnow.1⟩
  | missing h hmissing =>
    simp only [h] at hsound
    refine hsafe.quiet hruns (quiet_used (Realm.used_hasStores _ _)) ?_
    simp only [Sound, goTo, Function.update_self]
    exact hsound.1
  | lock h hfree =>
    obtain ⟨hholder, hothers⟩ := hsafe.lock hfree
    refine hsafe.move hruns hsafe.ledger rfl (fun _ _ _ => id) hholder hothers ?_
    simp only [Sound, Function.update_self]
    exact ⟨holder_setHolder_self, since, hruns⟩
  | foundLocked h hfound =>
    simp only [h] at hsound
    refine hsafe.leave hruns hsound.1 (quiet_used (Realm.used_hasStores _ _)) ?_
    obtain ⟨cached, hentry, hstores, hused⟩ := of_hasStores hfound
    simp only [Sound, goTo, Function.update_self]
    exact ⟨holder_setHolder_none, since, cached, hruns, hentry, hstores, hused ▸ hnow.1⟩
  | missingLocked h hmissing =>
    simp only [h] at hsound
    refine hsafe.quiet hruns (quiet_used (Realm.used_hasStores _ _)) ?_
    simp only [Sound, goTo, Function.update_self]
    exact hsound
  | evict h =>
    simp only [h] at hsound
    refine hsafe.quiet hruns (quiet_evict _ _) ?_
    simp only [Sound, goTo, Function.update_self]
    exact ⟨hsound.1, Realm.cache_evict_self, Or.inl ⟨since, hruns⟩, fun db hdb => nomatch hdb⟩
  | enterOpen noFactory h =>
    simp only [h] at hsound
    refine hsafe.quiet hruns (.refl _) ?_
    simp only [Sound, goTo, Function.update_self]
    refine ⟨hsound.1, hsound.2.1, Or.inl ⟨since, hruns⟩, fun db hdb => ?_⟩
    rcases noFactory with _ | text <;> cases hdb
  | resumeOpen h hresume => exact hsafe.resumeOpen hruns h hresume
  | cache h => exact hsafe.cache hruns h
  | openFailed h =>
    simp only [h] at hsound
    show Safe cores (((w.setRealm w.realm).setHolder (cores i).dbName none).goTo i .idle)
    refine hsafe.leave hruns hsound.1 (.refl _) ?_
    simp only [Sound, goTo, Function.update_self]
    exact holder_setHolder_none
  | transaction h hsome =>
    simp only [h] at hsound
    refine hsafe.quiet hruns (quiet_used (Realm.used_transaction _ _)) ?_
    simp only [Sound, goTo, Function.update_self]
    exact hsound.1
  | noTransaction h hnone =>
    rw [(hsafe.transaction h).1] at hnone
    cases hnone
  | retry h =>
    simp only [h] at hsound
  | finish h =>
    simp only [h] at hsound
    refine hsafe.quiet hruns (.refl _) ?_
    simp only [Sound, goTo, Function.update_self]
    exact hsound
  | stale h =>
    simp only [h] at hsound
    refine hsafe.quiet hruns (quiet_evict _ _) ?_
    simp only [Sound, goTo, Function.update_self]
    exact ⟨hsound, since, hruns⟩

/-! ## All steps -/

theorem Safe.start (cores : ℕ → IndexeddbCore) (now : Millis) : Safe cores (start now) where
  ledger := .start now
  holder _ _ h := nomatch h
  segment _ _ h := nomatch h
  tasks _ h := nomatch h

/-- **Every step keeps the invariant.** -/
theorem Step.safe (h : Step cores w w') (hsafe : Safe cores w) : Safe cores w' := by
  cases h with
  | @tick now hnow hsegment =>
    refine ⟨hsafe.ledger.congr rfl rfl rfl, hsafe.holder, fun k since hruns => ?_, hsafe.tasks⟩
    exact ⟨le_trans (hsafe.segment k since hruns).1 hnow, hsegment k since hruns⟩
  | background hidle h =>
    have hquiet := quiet_background h
    refine ⟨hquiet.ledger hsafe.ledger, hsafe.holder, fun k since hruns => ?_, fun j => ?_⟩
    · exact absurd (hidle.symm.trans hruns) (by simp)
    · exact (hsafe.tasks j).rest (Or.inl (by simp [hidle])) rfl Iff.rfl fun _ => hquiet.none _
  | resume i hidle =>
    refine ⟨hsafe.ledger, hsafe.holder, fun k since hruns => ?_, fun j => ?_⟩
    · have hsince : w.realm.now = since := by simpa using (Prod.mk.inj (Option.some_inj.1 hruns)).2
      subst hsince
      exact ⟨le_rfl, by linarith⟩
    · exact (hsafe.tasks j).rest (Or.inl (by simp [hidle])) rfl Iff.rfl fun _ => id
  | advance hruns h => exact h.safe hruns hsafe
  | @suspend i since hruns hawaits =>
    refine ⟨hsafe.ledger, hsafe.holder, fun k since h => (nomatch h), fun j => ?_⟩
    refine (hsafe.tasks j).rest ?_ rfl Iff.rfl fun _ => id
    by_cases hne : j = i
    · exact Or.inr (hne ▸ hawaits)
    · refine Or.inl fun since' hsegment => ?_
      rw [hruns, Option.some_inj, Prod.mk.injEq] at hsegment
      exact hne hsegment.1.symm
  | cancel i hidle =>
    have hleft : (if w.holder (cores i).dbName = some i then none
        else w.holder (cores i).dbName) = none ∧ w.holder (cores i).dbName = some i ∨
        (if w.holder (cores i).dbName = some i then none
          else w.holder (cores i).dbName) = w.holder (cores i).dbName := by
      split_ifs with hhas
      · exact Or.inl ⟨rfl, hhas⟩
      · exact Or.inr rfl
    obtain ⟨hholder, hothers⟩ := hsafe.unlock hleft
    refine ⟨hsafe.ledger, hholder, fun k since hruns => ?_, fun j => ?_⟩
    · exact absurd (hidle.symm.trans hruns) (by simp)
    · by_cases hne : j = i
      · subst hne
        simp only [Sound, goTo, Function.update_self]
        rw [holder_setHolder_self]
        split_ifs with hhas
        · simp
        · exact hhas
      · exact (hsafe.tasks j).rest (Or.inl (by simp [hidle])) (Function.update_of_ne hne _ _)
          (hothers j hne) fun _ => id

theorem Reachable.safe (h : Reachable cores w) : Safe cores w := by
  induction h with
  | start now => exact .start cores now
  | step _ hstep ih => exact hstep.safe ih

/-- **Operators that share a realm never break each other's
connections.** While a task is between the eviction under the upgrade lock
and its `cache_connection`, there is no entry of its database, and every
connection that was cached for it has been closed. When a task builds its
transaction, there is an open connection with both of its stores, so there
is a transaction, and nothing to retry. -/
theorem operators_share (h : Reachable cores w) :
    (∀ i attempt point, w.points i = .opening attempt point →
      w.realm.cache (cores i).dbName = none ∧
      ∀ n, w.realm.cached[n]? = some (cores i).dbName → n ∈ w.realm.closed) ∧
    (∀ i attempt, w.points i = .ensured attempt →
      (w.realm.cachedTransaction (cores i)).1 = true ∧
      ∃ cached, w.realm.cache (cores i).dbName = some cached ∧ cached.db ∉ w.realm.closed ∧
        (cores i).storesExistIn cached.objectStoreNames = true) ∧
    ∀ i attempt, w.points i ≠ .retrying attempt := by
  have hsafe := h.safe
  refine ⟨fun i attempt point hpoint => ?_, fun i attempt hpoint => ?_,
    fun i attempt hpoint => ?_⟩
  · have hsound := hsafe.tasks i
    simp only [Sound, hpoint] at hsound
    refine ⟨hsound.2.1, fun n hn => ?_⟩
    rcases hsafe.ledger.gone n _ hn with ⟨cached, hentry, -⟩ | hcount
    · rw [hsound.2.1] at hentry
      cases hentry
    · exact List.count_pos_iff.1 (by omega)
  · exact hsafe.transaction hpoint
  · have hsound := hsafe.tasks i
    simp only [Sound, hpoint] at hsound

/-- The operator of a backend with the default names. -/
def defaultCore : IndexeddbCore :=
  ⟨"opendal".toList, "main".toList, metaStoreNameFor "main".toList, rfl, by decide⟩

/-- The operator of another backend on the same database. -/
def backupCore : IndexeddbCore :=
  ⟨"opendal".toList, "backup".toList, metaStoreNameFor "backup".toList, rfl, by decide⟩

/-- Two operators, one of them in all tasks but the first. -/
def twoCores (i : ℕ) : IndexeddbCore := if i = 0 then defaultCore else backupCore

/-- The database with the stores of the first operator, and of both. -/
def firstDatabase : Database := ⟨0, 1, [defaultCore.objectStoreName, defaultCore.metaStoreName]⟩

def bothDatabase : Database :=
  ⟨0, 2, firstDatabase.objectStoreNames ++ [backupCore.objectStoreName, backupCore.metaStoreName]⟩

/-- The first operator has cached its connection and used it; the second
one, which misses its stores there, replaces the connection by its own. -/
theorem exists_replaced : ∃ w w' : Operators, Reachable twoCores w ∧ Reachable twoCores w' ∧
    w.points 0 = .running 0 ∧ w.points 1 = .opening 0 .entered ∧
    w.realm.cached[0]? = some "opendal".toList ∧ w'.points 1 = .ensured 0 := by
  have h₀ : Reachable twoCores (start 0) := .start 0
  have h₁ := h₀.step (.resume 0 rfl)
  have h₂ := h₁.step (.advance rfl (.enter rfl))
  have h₃ := h₂.step (.advance rfl (.missing rfl rfl))
  have h₄ := h₃.step (.advance rfl (.lock rfl rfl))
  have h₅ := h₄.step (.advance rfl (.missingLocked rfl rfl))
  have h₆ := h₅.step (.advance rfl (.evict rfl))
  have h₇ := h₆.step (.advance rfl (.enterOpen none rfl))
  have hfirst : (twoCores 0).resumeOpen .checking (.latest (some firstDatabase)) =
      some (.returned (.ok firstDatabase), []) := rfl
  have h₈ := h₇.step (.advance rfl (.resumeOpen rfl hfirst))
  have h₉ := h₈.step (.advance rfl (.cache rfl))
  have h₁₀ := h₉.step (.advance rfl (.transaction rfl (by decide +kernel)))
  have h₁₁ := h₁₀.step (.suspend rfl rfl)
  -- the second operator finds a connection without its stores
  have h₁₂ := h₁₁.step (.resume 1 rfl)
  have h₁₃ := h₁₂.step (.advance rfl (.enter rfl))
  have h₁₄ := h₁₃.step (.advance rfl (.missing rfl (by decide +kernel)))
  have h₁₅ := h₁₄.step (.advance rfl (.lock rfl rfl))
  have h₁₆ := h₁₅.step (.advance rfl (.missingLocked rfl (by decide +kernel)))
  have h₁₇ := h₁₆.step (.advance rfl (.evict rfl))
  have h₁₈ := h₁₇.step (.advance rfl (.enterOpen none rfl))
  have hboth : (twoCores 1).resumeOpen .checking (.latest (some bothDatabase)) =
      some (.returned (.ok bothDatabase), []) := rfl
  have h₁₉ := h₁₈.step (.advance rfl (.resumeOpen rfl hboth))
  have h₂₀ := h₁₉.step (.advance rfl (.cache rfl))
  exact ⟨_, _, h₁₇, h₂₀, rfl, rfl, by decide +kernel, rfl⟩

/-- The connection of the first operator was closed before the upgrade that
the second one needs, and the second one has its own transaction. -/
theorem operators_share_replaced : ∃ w w' : Operators,
    (w.points 0 = .running 0 ∧ w.points 1 = .opening 0 .entered ∧
      w.realm.cached[0]? = some "opendal".toList ∧ 0 ∈ w.realm.closed ∧
      w.realm.cache "opendal".toList = none) ∧
    w'.points 1 = .ensured 0 ∧ (w'.realm.cachedTransaction backupCore).1 = true := by
  obtain ⟨w, w', hw, hw', hfirst, hopening, hcached, hensured⟩ := exists_replaced
  obtain ⟨hnone, hclosed⟩ := (operators_share hw).1 1 0 .entered hopening
  obtain ⟨htransaction, -⟩ := (operators_share hw').2.1 1 0 hensured
  exact ⟨w, w', ⟨hfirst, hopening, hcached, hclosed 0 hcached, hnone⟩, hensured, htransaction⟩

end Operators

end OpendalIndexeddb
