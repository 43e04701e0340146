import OpendalIndexeddb.Model.Access
/-!
# Operations as steps

One operation with all its arguments, and the step it makes: what it
returns and the stores it leaves. A run is the fold of the steps, each
operation bringing the reading of the clock it sees.
-/

namespace OpendalIndexeddb

/-- The operations that write to the stores. -/
inductive Mutation where
  | set (now : Number) (path : Str) (value : Bytes) (args : WriteArgs)
  | createDir (now : Number) (root : Root) (path : Str)
  | copy (now : Number) (src dst : Str) (ifNotExists : Bool) (ifMatch : Option Str)
  | rename (src dst : Str)
  | delete (path : Str)
  | deleteRecursive (path : Str)
  | deleteMany (batch : List (Str × Bool))

/-- An operation with its arguments. -/
inductive Op where
  | mutate (m : Mutation)
  | stat (root : Root) (path : Str) (args : OpStat)
  | read (root : Root) (path : Str) (args : ReadArgs)
  | scanPage (root : Root) (req : IndexeddbCore.ScanPageRequest)

/-- What an operation returns. -/
inductive Outcome where
  | metadata (outcome : Except Error Metadata)
  | unit (outcome : Except Error Unit)
  | content (outcome : Except Error (Metadata × Bytes))
  /-- The entries a page is listed as, and where the next page starts. -/
  | page (entries : List Entry) (nextStartAfter skipPrefix : Option Str) (done : Bool)
  /-- A page scan that did not return. -/
  | stuck

variable (O : Opendal) (P : Platform)

def Mutation.step (s : Stores) : Mutation → Outcome × Stores
  | .set now path value args =>
    let (outcome, s) := IndexeddbBackend.write P now path value args s
    (.metadata outcome, s)
  | .createDir now root path =>
    let (outcome, s) := IndexeddbBackend.createDir O P now root path s
    (.unit outcome, s)
  | .copy now src dst ifNotExists ifMatch =>
    let (outcome, s) := IndexeddbCore.copy P now src dst ifNotExists ifMatch s
    (.metadata outcome, s)
  | .rename src dst =>
    let (outcome, s) := IndexeddbCore.rename P src dst s
    (.unit outcome, s)
  | .delete path => (.unit (.ok ()), IndexeddbCore.delete path s)
  | .deleteRecursive path => (.unit (.ok ()), IndexeddbCore.deleteRecursive path s)
  | .deleteMany batch => (.unit (.ok ()), IndexeddbCore.deleteMany batch s)

/-- A page as the lister hands it on. -/
def IndexeddbCore.ScanPage.outcome (root : Root) (page : IndexeddbCore.ScanPage) : Outcome :=
  .page (page.entries.map fun entry => listedEntry O P root.text entry.1 entry.2)
    page.nextStartAfter page.skipPrefix page.done

def Op.step (s : Stores) : Op → Outcome × Stores
  | .mutate m => m.step O P s
  | .stat root path args => (.metadata (IndexeddbBackend.stat O P root path args s), s)
  | .read root path args => (.content (IndexeddbBackend.read O P root path args s), s)
  | .scanPage root req =>
    match IndexeddbCore.scanPage P req s with
    | some page => (page.outcome O P root, s)
    | none => (.stuck, s)

end OpendalIndexeddb
