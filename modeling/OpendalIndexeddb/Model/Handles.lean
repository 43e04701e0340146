import OpendalIndexeddb.Model.Operation
/-!
# Writers, and listers whose transactions fail

The rest of `backend/io.rs`: `IndexeddbWriter`, which collects what it is
given until it is closed, and the two listers with the errors that a page
transaction may return.
-/

namespace OpendalIndexeddb

variable (O : Opendal) (P : Platform)

/-! ## Writers -/

structure IndexeddbWriter where
  path : Str
  args : WriteArgs
  /-- The buffers in the queue. -/
  buffer : List Bytes

namespace IndexeddbWriter

def new (path : Str) (args : WriteArgs) : IndexeddbWriter := ⟨path, args, []⟩

def write (bs : Bytes) (w : IndexeddbWriter) : IndexeddbWriter :=
  { w with buffer := w.buffer ++ [bs] }

/-- The write of `close`, of a copy of the queue, which stays as it is. -/
def close (now : Number) (w : IndexeddbWriter) (s : Stores) : Except Error Metadata × Stores :=
  IndexeddbBackend.write P now w.path w.buffer.flatten w.args s

def abort (w : IndexeddbWriter) : IndexeddbWriter := { w with buffer := [] }

end IndexeddbWriter

/-- A call on one of the writers that are named by `ι`, or an operation
besides. -/
inductive HandleCall (ι : Type) where
  /-- `write` of the backend, with the absolute path. -/
  | openWriter (i : ι) (path : Str) (args : WriteArgs)
  | write (i : ι) (bs : Bytes)
  /-- A close, with the clock its transaction reads, or the error of one
  that did not come about. -/
  | close (i : ι) (attempt : Except Error Number)
  | abort (i : ι)
  | other (op : Op)

inductive HandleAnswer where
  | accepted
  | failed (err : Error)
  | outcome (o : Outcome)
  /-- There is no such writer. -/
  | missing

/-- The outcome of an operation, where there was one. -/
def HandleAnswer.outcome? : HandleAnswer → Option Outcome
  | .outcome o => some o
  | _ => none

structure Handles (ι : Type) where
  writers : ι → Option IndexeddbWriter
  stores : Stores

section Calls

variable {ι : Type} [DecidableEq ι]

/-- A call that changes one writer. -/
def Handles.change (x : Handles ι) (i : ι) (f : IndexeddbWriter → IndexeddbWriter) :
    HandleAnswer × Handles ι :=
  match x.writers i with
  | some w => (.accepted, { x with writers := Function.update x.writers i (some (f w)) })
  | none => (.missing, x)

def Handles.serve (x : Handles ι) : HandleCall ι → HandleAnswer × Handles ι
  | .openWriter i path args =>
    (.accepted, { x with writers := Function.update x.writers i (some (.new path args)) })
  | .write i bs => x.change i (.write bs)
  | .abort i => x.change i .abort
  | .close i attempt =>
    match x.writers i with
    | none => (.missing, x)
    | some w =>
      match attempt with
      | .error err => (.failed err, x)
      | .ok now =>
        let (outcome, s) := w.close P now x.stores
        (.outcome (.metadata outcome), { x with stores := s })
  | .other op =>
    let (outcome, s) := op.step O P x.stores
    (.outcome outcome, { x with stores := s })

end Calls

/-! ## Listers -/

/-- `next`, where the page transaction may fail: `?` leaves the lister as
it was. -/
def IndexeddbLister.tryNext (l : IndexeddbLister) (page : Except Error Stores) :
    Option (Except Error (Option Entry) × IndexeddbLister) :=
  match l.buffer with
  | (key, info) :: buffer => some (.ok (some (listedEntry O P l.root key info)), { l with buffer })
  | [] =>
    if l.done then some (.ok none, l)
    else match page with
      | .error err => some (.error err, l)
      | .ok s => (IndexeddbLister.next O P s l).map fun (entry, l) => (.ok entry, l)

/-- `next` of the outer lister over an inner one that may fail. -/
def IndexeddbLimitLister.tryNext {σ κ : Type}
    (innerNext : σ → κ → Except Error (Option Entry) × σ) (l : IndexeddbLimitLister σ) (k : κ) :
    Except Error (Option Entry) × IndexeddbLimitLister σ :=
  if l.limit.any (fun limit => limit.toNat ≤ l.emitted) then (.ok none, l)
  else match innerNext l.inner k with
    | (.error err, inner) => (.error err, { l with inner })
    | (.ok (some entry), inner) => (.ok (some entry), { l with inner, emitted := l.emitted + 1 })
    | (.ok none, inner) => (.ok none, { l with inner })

end OpendalIndexeddb
