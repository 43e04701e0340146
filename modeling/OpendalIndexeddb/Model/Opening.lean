import OpendalIndexeddb.Model.Builder
/-!
# Opening the database

`open_client` of `backend/core.rs`, cut at its awaits: a segment runs
from the answer of one request to the next request. The browser's side
is a version number and the stores there are.
-/

namespace OpendalIndexeddb

/-! ## The tab's side -/

/-- A `Database`: a connection, with what it reports of the database. -/
structure Database where
  id : ℕ
  version : ℕ
  objectStoreNames : List Str
deriving DecidableEq

/-- `indexed_db::Error<opendal::Error>` of a request to open, as far as it
is told apart. -/
inductive OpenError where
  | versionTooOld
  | other (text : String)
deriving DecidableEq

/-- Why `open_client` fails. -/
inductive OpenFailure where
  | noFactory (text : String)
  | timedOut
  | failed (text : String)
  | tooManyUpgrades
deriving DecidableEq

/-- The error it fails with. -/
def OpenFailure.error (dbName : Str) : OpenFailure → Error
  | .noFactory text => .new .unexpected text
  | .timedOut => (Error.new .unexpected ("indexeddb version upgrade timed out: " ++
      "another connection is blocking the upgrade")).withContext "db_name" dbName
  | .failed text => (Error.new .unexpected text).withContext "db_name" dbName
  | .tooManyUpgrades => (Error.new .unexpected ("failed to open indexeddb database: " ++
      "too many concurrent version upgrades")).withContext "db_name" dbName

/-- Where `open_client` stands. -/
inductive OpenPoint where
  | entered
  /-- Awaits the request of `open_if_stores_exist`. -/
  | checking
  /-- Awaits `open_latest_version`, in an iteration of the loop. -/
  | latest (iteration : ℕ)
  /-- Awaits `open`, or its timeout. -/
  | opening (iteration newVersion : ℕ)
  | returned (result : Except OpenFailure Database)

/-- What a request is answered with. -/
inductive OpenAnswer where
  | latest (result : Option Database)
  | opened (result : Except OpenError Database)
  | timedOut

/-- What a segment does besides. -/
inductive OpenEffect where
  | close (db : Database)
  | evict

namespace IndexeddbCore

variable (core : IndexeddbCore)

/-- The segment up to the first await, given the error of `Factory::get`
where there is one. -/
def enterOpen (noFactory : Option String) : OpenPoint :=
  match noFactory with
  | some text => .returned (.error (.noFactory text))
  | none => .checking

/-- The head of the loop `for _ in 0..8`. -/
def iterate (iteration : ℕ) : OpenPoint :=
  if iteration < 8 then .latest iteration else .returned (.error .tooManyUpgrades)

/-- From the answer in `open_if_stores_exist` into the loop. -/
def afterCheck (result : Option Database) : OpenPoint × List OpenEffect :=
  match result with
  | some db =>
    if core.storesExistIn db.objectStoreNames then (.returned (.ok db), [])
    else (iterate 0, [.close db, .evict])
  | none => (iterate 0, [.evict])

def afterLatest (iteration : ℕ) (result : Option Database) : OpenPoint × List OpenEffect :=
  match result with
  | some db =>
    if core.storesExistIn db.objectStoreNames then (.returned (.ok db), [])
    else (.opening iteration (db.version + 1), [.close db])
  | none => (.opening iteration 1, [])

def afterOpen (iteration : ℕ) (result : Except OpenError Database) :
    OpenPoint × List OpenEffect :=
  match result with
  | .ok db =>
    if core.storesExistIn db.objectStoreNames then (.returned (.ok db), [])
    -- another upgrade took the version, without our stores
    else (iterate (iteration + 1), [.close db])
  | .error .versionTooOld => (iterate (iteration + 1), [])
  | .error (.other text) => (.returned (.error (.failed text)), [])

/-- The segment that begins with an answer; `none` where it answers
another request. -/
def resumeOpen : OpenPoint → OpenAnswer → Option (OpenPoint × List OpenEffect)
  | .checking, .latest result => some (core.afterCheck result)
  | .latest iteration, .latest result => some (core.afterLatest iteration result)
  | .opening iteration _, .opened result => some (core.afterOpen iteration result)
  | .opening _ _, .timedOut => some (.returned (.error .timedOut), [])
  | _, _ => none

end IndexeddbCore

/-! ## The browser's side -/

/-- A database: its version, zero while it does not exist, and its stores
with their contents. -/
structure DatabaseState (Contents : Type*) where
  version : ℕ
  stores : List (Str × Contents)

namespace DatabaseState

variable {Contents : Type*} (d : DatabaseState Contents)

def names : List Str := d.stores.map Prod.fst

/-- A connection to it. -/
def connect (id : ℕ) : Database := ⟨id, d.version, d.names⟩

/-- Opening without a version makes the database where there is none. -/
def openLatest : DatabaseState Contents := { d with version := max d.version 1 }

/-- Creates a store unless its name is among `names`. -/
def createMissing [EmptyCollection Contents] (names : List Str) (name : Str) :
    DatabaseState Contents :=
  if names.contains name then d else { d with stores := d.stores ++ [(name, ∅)] }

/-- The upgrade to a version, with the callback of `open_client`. -/
def upgrade [EmptyCollection Contents] (core : IndexeddbCore) (newVersion : ℕ) :
    DatabaseState Contents :=
  let d' := { d with version := newVersion }
  (d'.createMissing d.names core.objectStoreName).createMissing d.names core.metaStoreName

end DatabaseState

/-! ## Tabs -/

/-- A tab that runs `open_client`. -/
structure Tab where
  core : IndexeddbCore
  point : OpenPoint
  /-- The answer to its request, once the browser has given it. -/
  answer : Option OpenAnswer
  /-- How many connections it was given. -/
  opened : ℕ
  /-- Those it has closed. -/
  closed : List ℕ

/-- A tab that enters `open_client`. -/
def Tab.enter (core : IndexeddbCore) : Tab := ⟨core, .entered, none, 0, []⟩

structure Browser (Contents : Type*) where
  database : DatabaseState Contents
  tabs : ℕ → Tab
  /-- The tabs whose upgrades were committed, in order. -/
  upgrades : List ℕ

/-- What happens next in a tab, or to its request. -/
inductive TabEvent where
  /-- The tab enters `open_client`. -/
  | enter (noFactory : Option String)
  /-- The browser carries out its request. -/
  | serve
  /-- Its request to open fails otherwise. -/
  | fail (text : String)
  /-- The request is not carried out in time. -/
  | timeout
  /-- It goes on with the answer. -/
  | resume

/-- The closes among the effects of a segment. -/
def closesOf (effects : List OpenEffect) : List ℕ :=
  effects.filterMap fun
    | .close db => some db.id
    | .evict => none

namespace Tab

variable (tab : Tab)

/-- The tab with an answer that carries no connection. -/
def answerWith (answer : OpenAnswer) : Tab := { tab with answer := some answer }

/-- The tab after a segment. -/
def goOn (segment : OpenPoint × List OpenEffect) : Tab :=
  { tab with
    point := segment.1
    answer := none
    closed := tab.closed ++ closesOf segment.2 }

end Tab

namespace Browser

variable {Contents : Type*}

/-- Every tab is about to enter `open_client`. -/
def start (database : DatabaseState Contents) (cores : ℕ → IndexeddbCore) : Browser Contents :=
  ⟨database, fun t => .enter (cores t), []⟩

def setTab (b : Browser Contents) (t : ℕ) (tab : Tab) : Browser Contents :=
  { b with tabs := Function.update b.tabs t tab }

/-- A connection to the database as it is, given to a tab. -/
def give (b : Browser Contents) (t : ℕ) (answer : Database → OpenAnswer) : Browser Contents :=
  let tab := b.tabs t
  b.setTab t { tab with
    answer := some (answer (b.database.connect tab.opened))
    opened := tab.opened + 1 }

variable [EmptyCollection Contents]

/-- The browser carries out the request a tab awaits: opening the latest
version, or one that is below, at or above the current version. -/
def serve (b : Browser Contents) (t : ℕ) : Browser Contents :=
  let tab := b.tabs t
  match tab.point with
  | .checking | .latest _ =>
    { b with database := b.database.openLatest }.give t fun db => .latest (some db)
  | .opening _ newVersion =>
    if newVersion < b.database.version then
      b.setTab t (tab.answerWith (.opened (.error .versionTooOld)))
    else if newVersion = b.database.version then b.give t fun db => .opened (.ok db)
    else
      { b with
        database := b.database.upgrade tab.core newVersion
        upgrades := b.upgrades ++ [t] }.give t fun db => .opened (.ok db)
  | _ => b

/-- One event. One that cannot happen by then changes nothing. -/
def step (b : Browser Contents) (event : ℕ × TabEvent) : Browser Contents :=
  let t := event.1
  let tab := b.tabs t
  match event.2, tab.point, tab.answer with
  | .enter noFactory, .entered, none =>
    b.setTab t (tab.goOn (IndexeddbCore.enterOpen noFactory, []))
  | .serve, _, none => b.serve t
  | .fail text, .opening _ _, none =>
    b.setTab t (tab.answerWith (.opened (.error (.other text))))
  | .timeout, .opening _ _, none => b.setTab t (tab.answerWith .timedOut)
  | .resume, point, some answer =>
    match tab.core.resumeOpen point answer with
    | some segment => b.setTab t (tab.goOn segment)
    | none => b
  | _, _, _ => b

/-- A run: any events of any tabs, in any order. -/
def runEvents (b : Browser Contents) (events : List (ℕ × TabEvent)) : Browser Contents :=
  events.foldl step b

end Browser

end OpendalIndexeddb
