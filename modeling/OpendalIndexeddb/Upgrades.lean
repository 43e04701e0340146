import OpendalIndexeddb.Model.Opening
/-!
# Concurrent upgrades

Any number of tabs open the database, each for its own pair of stores. An
iteration of the loop is lost only to a version that moved between its
two requests, and a version moves by an upgrade. The stores only grow.
-/

namespace OpendalIndexeddb

open IndexeddbCore

variable {Contents : Type*}
variable {core : IndexeddbCore} {t u : ℕ}

/-! ## The database grows -/

theorem IndexeddbCore.storesExistIn_iff {names : List Str} : core.storesExistIn names = true ↔
    core.objectStoreName ∈ names ∧ core.metaStoreName ∈ names := by
  simp [storesExistIn]

namespace DatabaseState

variable {d : DatabaseState Contents} {names : List Str} {name : Str}

theorem names_mono {d' : DatabaseState Contents} (h : d.stores <+: d'.stores) :
    ∀ n ∈ d.names, n ∈ d'.names := by
  intro n hn
  obtain ⟨e, he, rfl⟩ := List.mem_map.1 hn
  exact List.mem_map_of_mem (h.subset he)

variable [EmptyCollection Contents]

@[simp] theorem version_createMissing :
    (d.createMissing names name).version = d.version := by
  unfold createMissing
  split_ifs <;> rfl

theorem stores_createMissing : d.stores <+: (d.createMissing names name).stores := by
  unfold createMissing
  split_ifs
  · exact List.prefix_refl _
  · exact List.prefix_append _ _

/-- The name is there afterwards. -/
theorem mem_names_createMissing (h : ∀ n ∈ names, n ∈ d.names) :
    name ∈ (d.createMissing names name).names := by
  unfold createMissing
  split_ifs with hin
  · exact h name (List.contains_iff_mem.1 hin)
  · simp [DatabaseState.names]

theorem version_upgrade (core : IndexeddbCore) (newVersion : ℕ) :
    (d.upgrade core newVersion).version = newVersion := by
  simp [upgrade]

/-- **An upgrade keeps every store with its contents.** -/
theorem stores_upgrade (core : IndexeddbCore) (newVersion : ℕ) :
    d.stores <+: (d.upgrade core newVersion).stores :=
  (stores_createMissing (d := { d with version := newVersion })).trans stores_createMissing

/-- **An upgrade creates the stores it is for.** -/
theorem storesExistIn_upgrade (core : IndexeddbCore) (newVersion : ℕ) :
    core.storesExistIn (d.upgrade core newVersion).names = true := by
  have hfirst := @stores_createMissing _ { d with version := newVersion } d.names
    core.objectStoreName _
  refine storesExistIn_iff.2 ⟨?_, ?_⟩
  · refine names_mono stores_createMissing _ ?_
    exact mem_names_createMissing fun n hn => hn
  · exact mem_names_createMissing (names_mono hfirst)

end DatabaseState

namespace Browser

variable {b b' : Browser Contents} {events : List (ℕ × TabEvent)}

/-- What no step takes back. -/
structure Grows (b b' : Browser Contents) : Prop where
  version : b.database.version ≤ b'.database.version
  stores : b.database.stores <+: b'.database.stores
  upgrades : b.upgrades <+: b'.upgrades

theorem Grows.refl (b : Browser Contents) : Grows b b :=
  ⟨le_rfl, List.prefix_refl _, List.prefix_refl _⟩

theorem Grows.trans {b'' : Browser Contents} (h : Grows b b') (h' : Grows b' b'') :
    Grows b b'' :=
  ⟨le_trans h.version h'.version, h.stores.trans h'.stores, h.upgrades.trans h'.upgrades⟩

@[simp] theorem database_setTab (tab : Tab) : (b.setTab t tab).database = b.database := rfl
@[simp] theorem upgrades_setTab (tab : Tab) : (b.setTab t tab).upgrades = b.upgrades := rfl
@[simp] theorem tabs_setTab_self (tab : Tab) : (b.setTab t tab).tabs t = tab := by
  simp [setTab]

theorem tabs_setTab_of_ne (tab : Tab) (h : u ≠ t) : (b.setTab t tab).tabs u = b.tabs u := by
  simp [setTab, h]

@[simp] theorem database_give (answer : Database → OpenAnswer) :
    (b.give t answer).database = b.database := rfl
@[simp] theorem upgrades_give (answer : Database → OpenAnswer) :
    (b.give t answer).upgrades = b.upgrades := rfl

@[simp] theorem tabs_give_self (answer : Database → OpenAnswer) : (b.give t answer).tabs t =
    { b.tabs t with
      answer := some (answer (b.database.connect (b.tabs t).opened))
      opened := (b.tabs t).opened + 1 } :=
  tabs_setTab_self _

theorem tabs_give_of_ne (answer : Database → OpenAnswer) (h : u ≠ t) :
    (b.give t answer).tabs u = b.tabs u :=
  tabs_setTab_of_ne _ h

variable [EmptyCollection Contents]

/-- **What the browser does for a request**: it makes a database where
there is none, it upgrades one to a version above its own, or it leaves it
as it is. -/
inductive Served (b : Browser Contents) (t : ℕ) : Browser Contents → Prop
  | latest (h : (b.tabs t).point = .checking ∨ ∃ i, (b.tabs t).point = .latest i) :
      Served b t ({ b with database := b.database.openLatest }.give t fun db => .latest (some db))
  | tooOld {i v : ℕ} (h : (b.tabs t).point = .opening i v) (hlt : v < b.database.version) :
      Served b t (b.setTab t ((b.tabs t).answerWith (.opened (.error .versionTooOld))))
  | current {i v : ℕ} (h : (b.tabs t).point = .opening i v) (heq : v = b.database.version) :
      Served b t (b.give t fun db => .opened (.ok db))
  | upgraded {i v : ℕ} (h : (b.tabs t).point = .opening i v) (hlt : b.database.version < v) :
      Served b t ({ b with
        database := b.database.upgrade (b.tabs t).core v
        upgrades := b.upgrades ++ [t] }.give t fun db => .opened (.ok db))

theorem served (b : Browser Contents) (t : ℕ) : Served b t (b.serve t) ∨ b.serve t = b := by
  rcases h : (b.tabs t).point with _ | _ | i | ⟨i, v⟩ | result <;> simp only [serve, h]
  · exact Or.inr trivial
  · exact Or.inl (.latest (Or.inl h))
  · exact Or.inl (.latest (Or.inr ⟨i, h⟩))
  · left
    split_ifs with hlt heq
    · exact .tooOld h hlt
    · exact .current h heq
    · exact .upgraded h (by omega)
  · exact Or.inr trivial

/-- **What one event can do.** -/
inductive Moves (b : Browser Contents) (t : ℕ) : Browser Contents → Prop
  | idle : Moves b t b
  | entered (noFactory : Option String) (hpoint : (b.tabs t).point = .entered)
      (hanswer : (b.tabs t).answer = none) :
      Moves b t (b.setTab t ((b.tabs t).goOn (enterOpen noFactory, [])))
  | served {b' : Browser Contents} (hanswer : (b.tabs t).answer = none) (h : Served b t b') :
      Moves b t b'
  | failed {i v : ℕ} (text : String) (hpoint : (b.tabs t).point = .opening i v)
      (hanswer : (b.tabs t).answer = none) :
      Moves b t (b.setTab t ((b.tabs t).answerWith (.opened (.error (.other text)))))
  | timedOut {i v : ℕ} (hpoint : (b.tabs t).point = .opening i v)
      (hanswer : (b.tabs t).answer = none) :
      Moves b t (b.setTab t ((b.tabs t).answerWith .timedOut))
  | resumed {answer : OpenAnswer} {segment : OpenPoint × List OpenEffect}
      (hanswer : (b.tabs t).answer = some answer)
      (h : (b.tabs t).core.resumeOpen (b.tabs t).point answer = some segment) :
      Moves b t (b.setTab t ((b.tabs t).goOn segment))

theorem moves (b : Browser Contents) (event : ℕ × TabEvent) :
    Moves b event.1 (b.step event) := by
  obtain ⟨t, event⟩ := event
  rcases hanswer : (b.tabs t).answer with _ | answer
  · rcases event with noFactory | _ | text | _ | _
    · rcases hpoint : (b.tabs t).point with _ | _ | i | ⟨i, v⟩ | result <;>
        simp only [step, hpoint, hanswer]
      · exact .entered noFactory hpoint hanswer
      all_goals exact .idle
    · have hserve : b.step (t, .serve) = b.serve t := by simp only [step, hanswer]
      rw [hserve]
      rcases served b t with h | h
      · exact .served hanswer h
      · rw [h]
        exact .idle
    · rcases hpoint : (b.tabs t).point with _ | _ | i | ⟨i, v⟩ | result <;>
        simp only [step, hpoint, hanswer]
      case opening => exact .failed text hpoint hanswer
      all_goals exact .idle
    · rcases hpoint : (b.tabs t).point with _ | _ | i | ⟨i, v⟩ | result <;>
        simp only [step, hpoint, hanswer]
      case opening => exact .timedOut hpoint hanswer
      all_goals exact .idle
    · simp only [step, hanswer]
      exact .idle
  · rcases event with noFactory | _ | text | _ | _
    case resume =>
      rcases h : (b.tabs t).core.resumeOpen (b.tabs t).point answer with _ | segment
      · simp only [step, hanswer, h]
        exact .idle
      · simp only [step, hanswer, h]
        exact .resumed hanswer h
    -- nothing else happens before the tab goes on
    all_goals
      rcases hpoint : (b.tabs t).point with _ | _ | i | ⟨i, v⟩ | result <;>
        simp only [step, hpoint, hanswer] <;> exact .idle

theorem Served.grows (h : Served b t b') : Grows b b' := by
  cases h with
  | latest => exact ⟨Nat.le_max_left _ _, List.prefix_refl _, List.prefix_refl _⟩
  | tooOld => exact ⟨le_rfl, List.prefix_refl _, List.prefix_refl _⟩
  | current => exact ⟨le_rfl, List.prefix_refl _, List.prefix_refl _⟩
  | upgraded _ hlt =>
    refine ⟨?_, DatabaseState.stores_upgrade _ _, List.prefix_append _ _⟩
    simp only [database_give, DatabaseState.version_upgrade]
    omega

theorem Moves.grows (h : Moves b t b') : Grows b b' := by
  cases h with
  | served _ h => exact h.grows
  | _ => exact ⟨le_rfl, List.prefix_refl _, List.prefix_refl _⟩

/-- The invariant rule for runs of tabs. -/
theorem runEvents_invariant {I : Browser Contents → Prop}
    (hstep : ∀ b t b', I b → Moves b t b' → I b') (h : I b) (events : List (ℕ × TabEvent)) :
    I (b.runEvents events) := by
  induction events generalizing b with
  | nil => exact h
  | cons event events ih => exact ih (hstep b event.1 _ h (moves b event))

/-- **The version never decreases, and no store is removed or emptied.** -/
theorem runEvents_grows (b : Browser Contents) (events : List (ℕ × TabEvent)) :
    Grows b (b.runEvents events) :=
  runEvents_invariant (I := Grows b) (fun _ _ _ h hmoves => h.trans hmoves.grows) (.refl b) events

end Browser

/-! ## The connections of a tab -/

/-- The connection an answer carries. -/
def OpenAnswer.carried : OpenAnswer → Option Database
  | .latest result => result
  | .opened (.ok db) => some db
  | _ => none

/-- The connection a tab has: the one it returned, or was just given. -/
def Tab.held (tab : Tab) : Option Database :=
  match tab.point with
  | .returned (.ok db) => some db
  | _ => tab.answer.bind OpenAnswer.carried

theorem Tab.held_of_not_returned {tab : Tab} (h : ∀ db, tab.point ≠ .returned (.ok db)) :
    tab.held = tab.answer.bind OpenAnswer.carried := by
  unfold Tab.held
  split
  · exact absurd ‹_› (h _)
  · rfl

/-- The head of the loop returns no connection. -/
theorem IndexeddbCore.iterate_ne_ok (i : ℕ) (db : Database) :
    iterate i ≠ .returned (.ok db) := by
  unfold iterate
  split_ifs <;> simp

/-- **A segment returns the connection it was given, where the stores are
in it, or closes it.** -/
theorem IndexeddbCore.resumeOpen_cases {point point' : OpenPoint} {answer : OpenAnswer}
    {effects : List OpenEffect} (h : core.resumeOpen point answer = some (point', effects)) :
    (∀ result, point ≠ .returned result) ∧
      ((∃ db, answer.carried = some db ∧ core.storesExistIn db.objectStoreNames = true ∧
          point' = .returned (.ok db) ∧ closesOf effects = []) ∨
        (∀ db, point' ≠ .returned (.ok db)) ∧
          closesOf effects = (answer.carried.map Database.id).toList) := by
  unfold resumeOpen at h
  split at h
  · refine ⟨by simp, ?_⟩
    rename_i result
    rcases result with _ | db <;> simp only [afterCheck] at h
    · obtain ⟨rfl, rfl⟩ := h
      exact Or.inr ⟨iterate_ne_ok 0, rfl⟩
    · split_ifs at h with hin
      · obtain ⟨rfl, rfl⟩ := h
        exact Or.inl ⟨db, rfl, hin, rfl, rfl⟩
      · obtain ⟨rfl, rfl⟩ := h
        exact Or.inr ⟨iterate_ne_ok 0, rfl⟩
  · refine ⟨by simp, ?_⟩
    rename_i i result
    rcases result with _ | db <;> simp only [afterLatest] at h
    · obtain ⟨rfl, rfl⟩ := h
      exact Or.inr ⟨by simp, rfl⟩
    · split_ifs at h with hin
      · obtain ⟨rfl, rfl⟩ := h
        exact Or.inl ⟨db, rfl, hin, rfl, rfl⟩
      · obtain ⟨rfl, rfl⟩ := h
        exact Or.inr ⟨by simp, rfl⟩
  · refine ⟨by simp, ?_⟩
    rename_i i v result
    rcases result with (_ | text) | db <;> simp only [afterOpen] at h
    · obtain ⟨rfl, rfl⟩ := h
      exact Or.inr ⟨iterate_ne_ok _, rfl⟩
    · obtain ⟨rfl, rfl⟩ := h
      exact Or.inr ⟨by simp, rfl⟩
    · split_ifs at h with hin
      · obtain ⟨rfl, rfl⟩ := h
        exact Or.inl ⟨db, rfl, hin, rfl, rfl⟩
      · obtain ⟨rfl, rfl⟩ := h
        exact Or.inr ⟨iterate_ne_ok _, rfl⟩
  · obtain ⟨rfl, rfl⟩ := h
    exact ⟨by simp, Or.inr ⟨by simp, rfl⟩⟩
  · cases h

/-- **Connections are numbered as they are given, and all are closed but
the one a tab has.** What that one reports is there. -/
structure Tab.Settled (tab : Tab) (names : List Str) : Prop where
  closed : tab.held = none → tab.closed = List.range tab.opened
  held : ∀ db, tab.held = some db → tab.opened = db.id + 1 ∧ tab.closed = List.range db.id ∧
    ∀ n ∈ db.objectStoreNames, n ∈ names
  stores : ∀ db, tab.point = .returned (.ok db) →
    tab.core.storesExistIn db.objectStoreNames = true
  answer : ∀ result, tab.point = .returned result → tab.answer = none

namespace Tab.Settled

variable {tab : Tab} {names names' : List Str}

/-- A tab that enters has no connection yet. -/
theorem enter (core : IndexeddbCore) (names : List Str) : (Tab.enter core).Settled names where
  closed _ := rfl
  held _ h := nomatch h
  stores _ h := nomatch h
  answer _ _ := rfl

theorem mono (h : tab.Settled names) (hnames : ∀ n ∈ names, n ∈ names') : tab.Settled names' :=
  ⟨h.closed, fun db hdb => ⟨(h.held db hdb).1, (h.held db hdb).2.1,
    fun n hn => hnames n ((h.held db hdb).2.2 n hn)⟩, h.stores, h.answer⟩

/-- An answer without a connection. -/
theorem answerWith (h : tab.Settled names) (hanswer : tab.answer = none)
    (hpoint : ∀ result, tab.point ≠ .returned result) {answer : OpenAnswer}
    (hcarried : answer.carried = none) : (tab.answerWith answer).Settled names := by
  have hnone : tab.held = none := by
    rw [held_of_not_returned fun db => hpoint _, hanswer]
    rfl
  have hnone' : (tab.answerWith answer).held = none :=
    (@held_of_not_returned (tab.answerWith answer) fun _ => hpoint _).trans hcarried
  refine ⟨fun _ => h.closed hnone, fun db hdb => ?_, fun db hdb => absurd hdb (hpoint _),
    fun result hresult => absurd hresult (hpoint result)⟩
  rw [hnone'] at hdb
  cases hdb

/-- An answer with a new connection. -/
theorem give (h : tab.Settled names) (hanswer : tab.answer = none)
    (hpoint : ∀ result, tab.point ≠ .returned result) {answer : OpenAnswer} {db : Database}
    (hcarried : answer.carried = some db) (hid : db.id = tab.opened)
    (hnames : ∀ n ∈ db.objectStoreNames, n ∈ names) :
    Tab.Settled { tab with answer := some answer, opened := tab.opened + 1 } names := by
  have hnone : tab.held = none := by
    rw [held_of_not_returned fun db => hpoint _, hanswer]
    rfl
  have hsome : Tab.held { tab with answer := some answer, opened := tab.opened + 1 } =
      some db :=
    (@held_of_not_returned { tab with answer := some answer, opened := tab.opened + 1 }
      fun _ => hpoint _).trans hcarried
  refine ⟨fun hheld => ?_, fun db' hdb' => ?_, fun db hdb => absurd hdb (hpoint _),
    fun result hresult => absurd hresult (hpoint result)⟩
  · rw [hsome] at hheld
    cases hheld
  · rw [hsome, Option.some_inj] at hdb'
    subst hdb'
    refine ⟨?_, ?_, hnames⟩
    · show tab.opened + 1 = db.id + 1
      rw [hid]
    · rw [hid]
      exact h.closed hnone

/-- A segment. -/
theorem goOn (h : tab.Settled names) {answer : OpenAnswer} {segment : OpenPoint × List OpenEffect}
    (hanswer : tab.answer = some answer)
    (hresume : tab.core.resumeOpen tab.point answer = some segment) :
    (tab.goOn segment).Settled names := by
  obtain ⟨point', effects⟩ := segment
  obtain ⟨hpoint, hcases⟩ := resumeOpen_cases hresume
  have hheld : tab.held = answer.carried := by
    rw [held_of_not_returned fun db => hpoint _, hanswer]
    rfl
  rcases hcases with ⟨db, hcarried, hstores, rfl, hcloses⟩ | ⟨hpoint', hcloses⟩
  · -- the connection is returned
    obtain ⟨hopened, hclosed, hnames⟩ := h.held db (hheld.trans hcarried)
    refine ⟨fun hnone => absurd hnone (by simp [Tab.held, Tab.goOn]), fun db' hdb' => ?_,
      fun db' hdb' => ?_, fun _ _ => rfl⟩
    · have heq : db = db' := Option.some_inj.1 hdb'
      subst heq
      refine ⟨hopened, ?_, hnames⟩
      show tab.closed ++ closesOf effects = _
      rw [hcloses, hclosed, List.append_nil]
    · have heq : db = db' := by simpa [Tab.goOn] using hdb'
      exact heq ▸ hstores
  · -- it is closed, if there was one
    have hnone : (tab.goOn (point', effects)).held = none := held_of_not_returned hpoint'
    refine ⟨fun _ => ?_, fun db hdb => ?_, fun db hdb => absurd hdb (hpoint' db), fun _ _ => rfl⟩
    · show tab.closed ++ closesOf effects = List.range tab.opened
      rw [hcloses]
      rcases hcarried : answer.carried with _ | db
      · rw [h.closed (hheld.trans hcarried)]
        simp
      · obtain ⟨hopened, hclosed, -⟩ := h.held db (hheld.trans hcarried)
        rw [hopened, hclosed, List.range_succ]
        rfl
    · rw [hnone] at hdb
      cases hdb

end Tab.Settled

namespace Browser

variable [EmptyCollection Contents] {b b' : Browser Contents}

theorem Served.settled (h : Served b t b') (hanswer : (b.tabs t).answer = none)
    (hsettled : (b.tabs t).Settled b.database.names) :
    (b'.tabs t).Settled b'.database.names := by
  have hmono := hsettled.mono (DatabaseState.names_mono h.grows.stores)
  cases h with
  | latest h =>
    have hpoint : ∀ result, (b.tabs t).point ≠ .returned result := by
      rcases h with h | ⟨i, h⟩ <;> simp [h]
    rw [tabs_give_self]
    exact hmono.give hanswer hpoint rfl rfl fun n hn => hn
  | tooOld h _ =>
    rw [tabs_setTab_self]
    exact hmono.answerWith hanswer (by simp [h]) rfl
  | current h _ | upgraded h _ =>
    rw [tabs_give_self]
    exact hmono.give hanswer (by simp [h]) rfl rfl fun n hn => hn

/-- Other tabs are left as they are. -/
theorem Moves.tabs_of_ne (h : Moves b t b') (hu : u ≠ t) : b'.tabs u = b.tabs u := by
  cases h with
  | idle => rfl
  | served _ h =>
    cases h with
    | latest | current | upgraded => exact tabs_give_of_ne _ hu
    | tooOld => exact tabs_setTab_of_ne _ hu
  | entered | failed | timedOut | resumed => exact tabs_setTab_of_ne _ hu

/-- **Every move keeps a tab's connections settled.** -/
theorem Moves.settled (h : Moves b t b')
    (hsettled : ∀ u, (b.tabs u).Settled b.database.names) :
    ∀ u, (b'.tabs u).Settled b'.database.names := by
  intro u
  by_cases hu : u = t
  · subst hu
    cases h with
    | idle => exact hsettled u
    | entered noFactory hpoint hanswer =>
      rw [tabs_setTab_self]
      have hnone : (b.tabs u).held = none := by
        rw [Tab.held_of_not_returned (by simp [hpoint]), hanswer]
        rfl
      have hpoint' : ∀ db, enterOpen noFactory ≠ .returned (.ok db) := by
        unfold enterOpen
        rcases noFactory with _ | text <;> simp
      have hnone' : ((b.tabs u).goOn (enterOpen noFactory, [])).held = none :=
        Tab.held_of_not_returned hpoint'
      refine ⟨fun _ => ?_, fun db hdb => ?_, fun db hdb => absurd hdb (hpoint' db),
        fun _ _ => rfl⟩
      · show (b.tabs u).closed ++ [] = List.range (b.tabs u).opened
        rw [List.append_nil, (hsettled u).closed hnone]
      · rw [hnone'] at hdb
        cases hdb
    | served hanswer h => exact h.settled hanswer (hsettled u)
    | failed text hpoint hanswer =>
      rw [tabs_setTab_self]
      exact (hsettled u).answerWith hanswer (by simp [hpoint]) rfl
    | timedOut hpoint hanswer =>
      rw [tabs_setTab_self]
      exact (hsettled u).answerWith hanswer (by simp [hpoint]) rfl
    | resumed hanswer h =>
      rw [tabs_setTab_self]
      exact (hsettled u).goOn hanswer h
  · rw [h.tabs_of_ne hu]
    exact (hsettled u).mono (DatabaseState.names_mono h.grows.stores)

end Browser

/-! ## The race for a version -/

/-- The iterations a tab has lost where it stands. -/
def OpenPoint.lost : OpenPoint → ℕ
  | .latest i | .opening i _ => i
  | .returned (.error .tooManyUpgrades) => 8
  | _ => 0

/-- **What the lost iterations were lost to**: with the database at
`version`, `n` upgrades pay for them, and for the iteration that is about
to be lost because the version has moved. -/
def Tab.Paid (tab : Tab) (version n : ℕ) : Prop :=
  match tab.point, tab.answer with
  | .latest i, none => i ≤ n
  | .latest i, some (.latest (some db)) =>
    i ≤ n ∧ 1 ≤ db.version ∧ db.version ≤ version ∧ (db.version < version → i + 1 ≤ n)
  | .latest _, some _ => False
  | .opening i newVersion, none =>
    i ≤ n ∧ 2 ≤ newVersion ∧ newVersion ≤ version + 1 ∧ (newVersion ≤ version → i + 1 ≤ n)
  | .opening i _, some (.opened (.ok db)) =>
    i ≤ n ∧ (tab.core.storesExistIn db.objectStoreNames = false → i + 1 ≤ n)
  | .opening i _, some (.opened (.error .versionTooOld)) => i + 1 ≤ n
  | .opening i _, some _ => i ≤ n
  | .returned (.error .tooManyUpgrades), _ => 8 ≤ n
  | _, _ => True

namespace Tab.Paid

variable {tab : Tab} {version version' n n' : ℕ}

theorem lost_le (h : tab.Paid version n) : tab.point.lost ≤ n := by
  obtain ⟨core, point, answer, opened, closed⟩ := tab
  rcases point with _ | _ | i | ⟨i, v⟩ | failure | db
  case latest =>
    rcases answer with _ | (_ | db) | result | _
    · exact h
    · exact absurd h id
    · exact h.1
    · exact absurd h id
    · exact absurd h id
  case opening =>
    rcases answer with _ | result | ((_ | text) | db) | _
    · exact h.1
    · exact h
    · exact le_trans (Nat.le_succ i) h
    · exact h
    · exact h.1
    · exact h
  case returned.error => rcases failure with _ | _ | _ | _ <;> first | exact Nat.zero_le n | exact h
  all_goals exact Nat.zero_le n

/-- A version that moves is paid for by whoever moves it. -/
theorem mono (h : tab.Paid version n) (hn : n ≤ n') (hv : version ≤ version')
    (hmoved : version < version' → version = 0 ∨ n < n') : tab.Paid version' n' := by
  obtain ⟨core, point, answer, opened, closed⟩ := tab
  rcases point with _ | _ | i | ⟨i, v⟩ | failure | db
  case latest =>
    rcases answer with _ | (_ | db) | result | _
    · exact le_trans h hn
    · exact h
    · obtain ⟨hi, hpos, hle, hlt⟩ := h
      exact ⟨by omega, hpos, by omega, fun _ => by omega⟩
    · exact h
    · exact h
  case opening =>
    rcases answer with _ | result | ((_ | text) | db) | _
    · obtain ⟨hi, hpos, hle, hlt⟩ := h
      exact ⟨by omega, hpos, by omega, fun _ => by omega⟩
    · exact le_trans h hn
    · exact le_trans h hn
    · exact le_trans h hn
    · exact ⟨le_trans h.1 hn, fun hin => le_trans (h.2 hin) hn⟩
    · exact le_trans h hn
  case returned.error => rcases failure with _ | _ | _ | _ <;> first | trivial | exact le_trans h hn
  all_goals trivial

/-- The head of the loop. -/
theorem iterate {i : ℕ} {closed : List ℕ} {opened : ℕ} (hn : i ≤ n) :
    Tab.Paid ⟨core, iterate i, none, opened, closed⟩ version n := by
  unfold IndexeddbCore.iterate
  split_ifs with hi
  · exact hn
  · show 8 ≤ n
    omega

/-- A segment loses an iteration only where it is paid for. -/
theorem goOn (h : tab.Paid version n) {answer : OpenAnswer} {segment : OpenPoint × List OpenEffect}
    (hanswer : tab.answer = some answer)
    (hresume : tab.core.resumeOpen tab.point answer = some segment) :
    (tab.goOn segment).Paid version n := by
  obtain ⟨core, point, answer', opened, closed⟩ := tab
  simp only at hanswer hresume
  subst hanswer
  unfold resumeOpen at hresume
  split at hresume
  · rename_i result
    rw [Option.some_inj] at hresume
    subst hresume
    rcases result with _ | db <;> simp only [Tab.goOn, afterCheck]
    · exact .iterate (Nat.zero_le n)
    · split_ifs
      · trivial
      · exact .iterate (Nat.zero_le n)
  · rename_i i result
    rw [Option.some_inj] at hresume
    subst hresume
    rcases result with _ | db <;> simp only [Tab.goOn, afterLatest]
    · exact absurd h id
    · obtain ⟨hi, hpos, hle, hlt⟩ := h
      split_ifs
      · trivial
      · exact ⟨hi, by omega, by omega, fun h => hlt (by omega)⟩
  · rename_i i v result
    rw [Option.some_inj] at hresume
    subst hresume
    rcases result with (_ | text) | db <;> simp only [Tab.goOn, afterOpen]
    · exact .iterate h
    · trivial
    · split_ifs with hin
      · trivial
      · exact .iterate (h.2 (by simpa using hin))
  · rw [Option.some_inj] at hresume
    subst hresume
    trivial
  · cases hresume

end Tab.Paid

namespace Browser

variable [EmptyCollection Contents] {s b b' : Browser Contents}

/-- How many upgrades other tabs have committed between two states. -/
def othersSince (t : ℕ) (s b : Browser Contents) : ℕ :=
  (b.upgrades.drop s.upgrades.length).countP (· ≠ t)

/-- **Whoever moves the version has upgraded the database.** -/
theorem Moves.counted (h : Moves b t b') (hs : Grows s b) (u : ℕ) :
    othersSince u s b ≤ othersSince u s b' ∧ (u ≠ t →
      b.database.version < b'.database.version →
        b.database.version = 0 ∨ othersSince u s b < othersSince u s b') := by
  have hlen := hs.upgrades.length_le
  cases h with
  | served _ h =>
    cases h with
    | latest =>
      refine ⟨le_rfl, fun _ hlt => Or.inl ?_⟩
      simp only [database_give, DatabaseState.openLatest] at hlt
      omega
    | tooOld | current => exact ⟨le_rfl, fun _ hlt => absurd hlt (lt_irrefl _)⟩
    | upgraded =>
      simp only [Browser.othersSince, upgrades_give, List.drop_append_of_le_length hlen,
        List.countP_append, List.countP_singleton, decide_eq_true_iff, ne_eq]
      refine ⟨by omega, fun hu _ => Or.inr ?_⟩
      rw [if_pos (Ne.symm hu)]
      omega
  | _ => exact ⟨le_rfl, fun _ hlt => absurd hlt (lt_irrefl _)⟩

/-- What the browser does for a tab's own request leaves it paid. -/
theorem Served.paid {n : ℕ} (h : Served b t b') (hanswer : (b.tabs t).answer = none)
    (hpaid : (b.tabs t).Paid b.database.version n) :
    (b'.tabs t).Paid b'.database.version n := by
  unfold Tab.Paid at hpaid
  cases h with
  | latest h =>
    rcases h with h | ⟨i, h⟩
    · simp only [Tab.Paid, tabs_give_self, h]
    · simp only [h, hanswer] at hpaid
      simp only [Tab.Paid, tabs_give_self, h, database_give]
      refine ⟨hpaid, ?_, le_rfl, fun hlt => absurd hlt (lt_irrefl _)⟩
      exact Nat.le_max_right _ _
  | tooOld h hlt =>
    simp only [h, hanswer] at hpaid
    simp only [Tab.Paid, tabs_setTab_self, Tab.answerWith, h]
    exact hpaid.2.2.2 (le_of_lt hlt)
  | current h heq =>
    simp only [h, hanswer] at hpaid
    simp only [Tab.Paid, tabs_give_self, h]
    exact ⟨hpaid.1, fun _ => hpaid.2.2.2 (le_of_eq heq)⟩
  | @upgraded i v h hlt =>
    simp only [h, hanswer] at hpaid
    simp only [Tab.Paid, tabs_give_self, h]
    refine ⟨hpaid.1, fun hin => ?_⟩
    -- the stores were just created
    have hexist := DatabaseState.storesExistIn_upgrade (d := b.database) (b.tabs t).core v
    exact absurd (hexist.symm.trans hin) (by simp)

/-- **A lost iteration is paid for** by the upgrades of others. -/
theorem Moves.paid {i : ℕ} (h : Moves b t b') (hs : Grows s b)
    (hpaid : (b.tabs u).Paid b.database.version (i + othersSince u s b)) :
    (b'.tabs u).Paid b'.database.version (i + othersSince u s b') := by
  obtain ⟨hle, hmoved⟩ := h.counted hs u
  by_cases hu : u = t
  · subst hu
    have hown : (b'.tabs u).Paid b'.database.version (i + othersSince u s b) := by
      cases h with
      | idle => exact hpaid
      | entered noFactory hpoint hanswer =>
        rw [tabs_setTab_self]
        rcases noFactory with _ | text <;> trivial
      | served hanswer h => exact h.paid hanswer hpaid
      | failed text hpoint hanswer | timedOut hpoint hanswer =>
        simp only [Tab.Paid, hpoint, hanswer] at hpaid
        simp only [Tab.Paid, tabs_setTab_self, Tab.answerWith, hpoint]
        exact hpaid.1
      | resumed hanswer h =>
        rw [tabs_setTab_self]
        exact hpaid.goOn hanswer h
    exact hown.mono (by omega) le_rfl fun hlt => absurd hlt (lt_irrefl _)
  · rw [h.tabs_of_ne hu]
    refine hpaid.mono (by omega) h.grows.version fun hlt => ?_
    exact (hmoved hu hlt).imp_right fun hlt => by omega

/-- A tab that stands before an iteration pays for what it loses from
there on. -/
theorem lost_le {i : ℕ} (hstart : (s.tabs t).Paid s.database.version i)
    (events : List (ℕ × TabEvent)) :
    ((s.runEvents events).tabs t).point.lost ≤ i + othersSince t s (s.runEvents events) := by
  have hzero : othersSince t s s = 0 := by simp [othersSince]
  have hrun := runEvents_invariant
    (I := fun b => Grows s b ∧ (b.tabs t).Paid b.database.version (i + othersSince t s b))
    (fun b u b' h hmoves => ⟨h.1.trans hmoves.grows, hmoves.paid h.1 h.2⟩)
    ⟨.refl s, by rwa [hzero]⟩ events
  exact hrun.2.lost_le

end Browser

/-- **Creating stores across tabs converges, and keeps the data.** Whatever
happens between two states of a run, the version does not decrease and
every store is still there with its contents. A tab returns a connection
only if its stores are in it, and has closed all others it was given. An
iteration of its loop is lost only while another tab commits an upgrade;
to lose all eight takes eight of them. -/
theorem upgrades_converge [EmptyCollection Contents] (database : DatabaseState Contents)
    (cores : ℕ → IndexeddbCore) (events events' : List (ℕ × TabEvent)) :
    let b := (Browser.start database cores).runEvents events
    let b' := b.runEvents events'
    b.database.version ≤ b'.database.version ∧ b.database.stores <+: b'.database.stores ∧
    ∀ t,
      (∀ db, (b.tabs t).point = .returned (.ok db) →
        (b.tabs t).core.storesExistIn db.objectStoreNames = true ∧
        (b.tabs t).core.storesExistIn b.database.names = true ∧
        (b.tabs t).opened = db.id + 1 ∧ (b.tabs t).closed = List.range db.id) ∧
      (∀ failure, (b.tabs t).point = .returned (.error failure) →
        (b.tabs t).closed = List.range (b.tabs t).opened) ∧
      (∀ i, (b.tabs t).point = .latest i → (b.tabs t).answer = none →
        i < (b'.tabs t).point.lost → ∃ u ∈ b'.upgrades.drop b.upgrades.length, u ≠ t) ∧
      ((b.tabs t).point = .entered → (b'.tabs t).point = .returned (.error .tooManyUpgrades) →
        8 ≤ (b'.upgrades.drop b.upgrades.length).countP (· ≠ t)) := by
  intro b b'
  have hgrows : Browser.Grows b b' := Browser.runEvents_grows b events'
  have hsettled : ∀ t, (b.tabs t).Settled b.database.names :=
    Browser.runEvents_invariant
      (I := fun b : Browser Contents => ∀ u, (b.tabs u).Settled b.database.names)
      (fun _ _ _ h hmoves => hmoves.settled h) (fun u => .enter (cores u) _) events
  have hpay : ∀ t i, (b.tabs t).Paid b.database.version i → (b'.tabs t).point.lost ≤
      i + (b'.upgrades.drop b.upgrades.length).countP (· ≠ t) := fun t i hpaid =>
    Browser.lost_le hpaid events'
  refine ⟨hgrows.version, hgrows.stores, fun t => ⟨fun db hdb => ?_, fun failure hfail => ?_,
    fun i hi hanswer hlost => ?_, fun hentered hlost => ?_⟩⟩
  · have hheld : (b.tabs t).held = some db := by simp [Tab.held, hdb]
    obtain ⟨hopened, hclosed, hnames⟩ := (hsettled t).held db hheld
    have hstores := (hsettled t).stores db hdb
    obtain ⟨hdata, hmeta⟩ := storesExistIn_iff.1 hstores
    exact ⟨hstores, storesExistIn_iff.2 ⟨hnames _ hdata, hnames _ hmeta⟩, hopened, hclosed⟩
  · refine (hsettled t).closed ?_
    rw [Tab.held_of_not_returned (by simp [hfail]), (hsettled t).answer _ hfail]
    rfl
  · have hle := hpay t i (by simp [Tab.Paid, hi, hanswer])
    obtain ⟨u, hu, hne⟩ := List.countP_pos_iff.1 (by omega :
      0 < (b'.upgrades.drop b.upgrades.length).countP (· ≠ t))
    exact ⟨u, hu, by simpa using hne⟩
  · have hle := hpay t 0 (by simp [Tab.Paid, hentered])
    rw [hlost, Nat.zero_add] at hle
    exact hle

/-! ## An iteration that nobody overtakes -/

/-- The latest version was reported to a tab. -/
def Tab.Reported (tab : Tab) (i version : ℕ) : Prop :=
  tab.point = .latest i ∧ ∃ db, tab.answer = some (.latest (some db)) ∧ db.version = version

/-- A tab asks for a version of its own. -/
def Tab.Asks (tab : Tab) (i newVersion : ℕ) : Prop :=
  tab.point = .opening i newVersion ∧ tab.answer = none

/-- A tab was given a connection with both of its stores. -/
def Tab.Granted (tab : Tab) : Prop :=
  ∃ i newVersion db, tab.point = .opening i newVersion ∧
    tab.answer = some (.opened (.ok db)) ∧ tab.core.storesExistIn db.objectStoreNames = true

/-- A tab has returned one. -/
def Tab.HasReturned (tab : Tab) : Prop :=
  tab.answer = none ∧ ∃ db, tab.point = .returned (.ok db) ∧
    tab.core.storesExistIn db.objectStoreNames = true

namespace Browser

variable [EmptyCollection Contents] {b : Browser Contents} {events : List (ℕ × TabEvent)} {i : ℕ}

/-- What other tabs do leaves a tab where it stands. -/
theorem tabs_runEvents_of_ne (h : ∀ event ∈ events, event.1 ≠ t) :
    (b.runEvents events).tabs t = b.tabs t := by
  induction events generalizing b with
  | nil => rfl
  | cons event events ih =>
    have hstep := (moves b event).tabs_of_ne (h event List.mem_cons_self).symm
    exact (ih fun e he => h e (List.mem_cons_of_mem _ he)).trans hstep

/-- A tab that has returned stays where it is. -/
theorem step_of_hasReturned (h : (b.tabs t).HasReturned) (event : TabEvent) :
    b.step (t, event) = b := by
  obtain ⟨hanswer, db, hpoint, -⟩ := h
  cases event <;> simp [step, serve, hanswer, hpoint]

theorem reported_serve (hpoint : (b.tabs t).point = .latest i)
    (hanswer : (b.tabs t).answer = none) :
    ((b.step (t, .serve)).tabs t).Reported i (b.step (t, .serve)).database.version := by
  have hserve : b.step (t, .serve) =
      { b with database := b.database.openLatest }.give t fun db => .latest (some db) := by
    simp only [step, serve, hanswer, hpoint]
  rw [hserve, tabs_give_self]
  exact ⟨hpoint, _, rfl, rfl⟩

/-- Told the latest version, a tab returns it or asks for the next one. -/
theorem resume_of_reported {version : ℕ} (h : (b.tabs t).Reported i version) :
    ((b.step (t, .resume)).tabs t).HasReturned ∨
      ((b.step (t, .resume)).tabs t).Asks i (version + 1) := by
  obtain ⟨hpoint, db, hanswer, rfl⟩ := h
  have hstep : b.step (t, .resume) =
      b.setTab t ((b.tabs t).goOn ((b.tabs t).core.afterLatest i (some db))) := by
    simp only [step, hanswer, hpoint, resumeOpen]
  rw [hstep, tabs_setTab_self]
  by_cases hstores : (b.tabs t).core.storesExistIn db.objectStoreNames = true
  · exact .inl ⟨rfl, db, by simp [Tab.goOn, afterLatest, hstores], hstores⟩
  · exact .inr ⟨by simp [Tab.goOn, afterLatest, hstores], rfl⟩

/-- Asking for a version above the latest creates the stores. -/
theorem granted_serve {newVersion : ℕ} (h : (b.tabs t).Asks i newVersion)
    (hlt : b.database.version < newVersion) : ((b.step (t, .serve)).tabs t).Granted := by
  obtain ⟨hpoint, hanswer⟩ := h
  have hserve : b.step (t, .serve) = { b with
      database := b.database.upgrade (b.tabs t).core newVersion
      upgrades := b.upgrades ++ [t] }.give t fun db => .opened (.ok db) := by
    simp only [step, serve, hanswer, hpoint]
    rw [if_neg (by omega), if_neg (by omega)]
  rw [hserve, tabs_give_self]
  exact ⟨i, newVersion, _, hpoint, rfl, DatabaseState.storesExistIn_upgrade _ _⟩

theorem resume_of_granted (h : (b.tabs t).Granted) :
    ((b.step (t, .resume)).tabs t).HasReturned := by
  obtain ⟨i, newVersion, db, hpoint, hanswer, hstores⟩ := h
  have hstep : b.step (t, .resume) =
      b.setTab t ((b.tabs t).goOn ((b.tabs t).core.afterOpen i (.ok db))) := by
    simp only [step, hanswer, hpoint, resumeOpen]
  rw [hstep, tabs_setTab_self]
  exact ⟨rfl, db, by simp [Tab.goOn, afterOpen, hstores], hstores⟩

/-- **An iteration that nobody overtakes returns both stores.** The tab is
told the latest version and asks for the next one; other tabs do what they
will in between, as long as the latest version is still the one it was
told. -/
theorem returns_of_not_overtaken (hpoint : (b.tabs t).point = .latest i)
    (hanswer : (b.tabs t).answer = none) {es es' es'' : List (ℕ × TabEvent)}
    (hes : ∀ event ∈ es, event.1 ≠ t) (hes' : ∀ event ∈ es', event.1 ≠ t)
    (hes'' : ∀ event ∈ es'', event.1 ≠ t)
    (hversion : (b.runEvents ((t, .serve) :: es ++ (t, .resume) :: es')).database.version =
      (b.step (t, .serve)).database.version) :
    ((b.runEvents ((t, .serve) :: es ++ (t, .resume) :: es' ++ (t, .serve) :: es'' ++
      [(t, .resume)])).tabs t).HasReturned := by
  have happend : ∀ (b : Browser Contents) l l', b.runEvents (l ++ l') =
      (b.runEvents l).runEvents l' := fun b l l' => List.foldl_append
  have hcons : ∀ (b : Browser Contents) e l, b.runEvents (e :: l) = (b.step e).runEvents l :=
    fun _ _ _ => rfl
  have hreported := reported_serve hpoint hanswer
  rw [← tabs_runEvents_of_ne hes] at hreported
  rw [happend, happend]
  generalize hb₁ : b.runEvents ((t, .serve) :: es ++ (t, .resume) :: es') = b₁ at hversion ⊢
  have hresumed : (b₁.tabs t).HasReturned ∨ (b₁.tabs t).Asks i (b₁.database.version + 1) := by
    have hresume := resume_of_reported hreported
    rwa [← tabs_runEvents_of_ne hes', ← hcons _ (t, .resume), ← hcons b, ← happend, hb₁,
      ← hversion] at hresume
  rw [hcons]
  rcases hresumed with hreturned | hasks
  · -- its stores were there already
    have hstays : (b₁.runEvents ((t, .serve) :: es'')).tabs t = b₁.tabs t := by
      rw [hcons, tabs_runEvents_of_ne hes'', step_of_hasReturned hreturned]
    rw [← hstays] at hreturned
    have hlast := step_of_hasReturned hreturned .resume
    rw [← hlast] at hreturned
    exact hreturned
  · have hgranted := granted_serve hasks (Nat.lt_succ_self _)
    rw [← tabs_runEvents_of_ne hes''] at hgranted
    exact resume_of_granted hgranted

/-- In a new database, with a second tab in between. -/
example {core : IndexeddbCore} {b : Browser (List ℕ)} (hb : b = (start ⟨0, []⟩ fun _ =>
      core).runEvents [(0, .enter none), (0, .serve), (0, .resume)]) :
    ((b.runEvents [(0, .serve), (1, .enter none), (0, .resume), (1, .serve), (0, .serve),
      (1, .resume), (0, .resume)]).tabs 0).HasReturned := by
  have hother : ∀ event, ∀ e ∈ [((1 : ℕ), (event : TabEvent))], e.1 ≠ 0 := by simp
  have hversion : (b.runEvents ((0, .serve) :: [(1, .enter none)] ++ (0, .resume) ::
      [(1, .serve)])).database.version = (b.step (0, .serve)).database.version := by
    rw [hb]
    rfl
  have hreturned := returns_of_not_overtaken (t := 0) (i := 0) (b := b) (by rw [hb]; rfl)
    (by rw [hb]; rfl) (hother (.enter none)) (hother .serve) (hother .resume) hversion
  exact hreturned

end Browser

end OpendalIndexeddb
