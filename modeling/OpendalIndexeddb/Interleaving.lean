import OpendalIndexeddb.Model.Database
import OpendalIndexeddb.Model.Reference
import OpendalIndexeddb.Refinement
/-!
# Requests that interleave

The transactions of all operators of a database make their requests among
one another's, fail, are lost and are attempted again. What the calls
return is nevertheless what they return one after the other, each at
once.
-/

namespace OpendalIndexeddb

open Program Transactions

variable {O : Opendal} {P : Platform} {dbName : Str} {ι : Type}

/-! ## One operation after the other -/

/-- A name an operator can have its data under. -/
abbrev StoreName := {name : Str // ¬ metaStorePrefix <+: name}

def IndexeddbCore.name (core : IndexeddbCore) : StoreName :=
  ⟨core.objectStoreName, core.not_reserved⟩

/-- The stores of the operators with a name. -/
def ObjectStores.named (db : ObjectStores) (name : StoreName) : Stores :=
  ⟨(db name.1).asRecords, (db (metaStoreNameFor name.1)).asSidecars⟩

/-- An operation on the stores of all operators, at once. -/
def serve (O : Opendal) (P : Platform) (v : StoreName → Stores) (t : DbTxn) :
    Outcome × (StoreName → Stores) :=
  let (outcome, s) := t.op.step O P (v t.core.name)
  (outcome, Function.update v t.core.name s)

/-- What a transaction that came to an end returned. -/
def answer (e : Ended ι DbTxn Error Outcome) : Outcome :=
  match e.out with
  | .ok outcome => outcome
  | .error err => e.txn.op.failed err

variable {core core' : IndexeddbCore} {db db' : ObjectStores} {name : StoreName}

theorem named_name (core : IndexeddbCore) (db : ObjectStores) :
    db.named core.name = core.stores db := by
  rw [ObjectStores.named, IndexeddbCore.stores, core.metaStoreName_eq]
  rfl

/-- The stores of another name are out of an operator's scope. -/
theorem notMem_scope (hname : name ≠ core.name) :
    name.1 ∉ core.scope ∧ metaStoreNameFor name.1 ∉ core.scope := by
  constructor
  · rintro (hn | hn)
    · exact hname (Subtype.ext hn)
    · refine name.2 ?_
      rw [hn, core.metaStoreName_eq]
      exact List.prefix_append _ _
  · rintro (hn | hn)
    · refine core.not_reserved ?_
      rw [← hn]
      exact List.prefix_append _ _
    · refine hname (Subtype.ext ?_)
      rw [core.metaStoreName_eq] at hn
      exact List.append_cancel_left hn

theorem named_of_ne (h : Set.EqOn db' db core.scopeᶜ) (hname : name ≠ core.name) :
    db'.named name = db.named name := by
  obtain ⟨hdata, hmeta⟩ := notMem_scope hname
  rw [ObjectStores.named, ObjectStores.named, h hdata, h hmeta]

/-- **A transaction alone is its operation.** -/
theorem serve_of_effect {t : DbTxn} {out : Except Error Outcome}
    (h : (databaseTransactions O P dbName).Effect t out db db') (i : ι) :
    serve O P db.named t = (answer ⟨i, t, out⟩, db'.named) := by
  have hsim : ∀ {out' : Except Error Outcome} {E : ObjectStores},
      Runs ((databaseTransactions O P dbName).semantics t) (t.op.program O P) db out' E →
        Runs txnSemantics (t.op.program O P) (t.core.stores db) out' (t.core.stores E) := by
    intro out' E hrun
    obtain ⟨s', hrun', rfl⟩ := Runs.simulate (N := txnSemantics)
      (R := fun db s => t.core.stores db = s) rfl
      (fun r db s hs => hs ▸ t.core.stores_handle r db) hrun rfl
    exact hrun'
  have hnamed : ∀ outcome, t.op.step O P (t.core.stores db) = (outcome, t.core.stores db') →
      Set.EqOn db' db t.core.scopeᶜ → serve O P db.named t = (outcome, db'.named) := by
    intro outcome hstep hframe
    rw [serve, named_name, hstep]
    refine Prod.ext rfl (funext fun name => ?_)
    by_cases hname : name = t.core.name
    · subst hname
      exact (Function.update_self ..).trans (named_name _ _).symm
    · exact (Function.update_of_ne hname ..).trans (named_of_ne hframe hname).symm
  cases out with
  | ok outcome =>
    have hrun : Runs txnSemantics (t.op.program O P) (t.core.stores db) (.ok outcome)
      (t.core.stores db') := hsim h
    exact hnamed outcome (Op.settle_eq (.ok (outcome, t.core.stores db')) hrun).symm
      (runs_frame (T := databaseTransactions O P dbName) h)
  | error err =>
    obtain ⟨⟨E, hrun⟩, rfl⟩ := h
    exact hnamed _ (Op.settle_eq (.error err) ⟨_, hsim hrun⟩).symm (Set.eqOn_refl _ _)

/-- **A serial order of transactions is a run of the operations.** -/
theorem run_of_serial {log : List (Ended ι DbTxn Error Outcome)}
    (h : (databaseTransactions O P dbName).Serial db log db') :
    run (serve O P) db.named (log.map Ended.txn) = (log.map answer, db'.named) := by
  induction log generalizing db with
  | nil =>
    obtain rfl : db' = db := h
    rfl
  | cons e log ih =>
    obtain ⟨db₁, he, hlog⟩ := h
    rw [List.map_cons, run_cons, serve_of_effect he e.id, ih hlog]
    rfl

/-! ## The operators of a database -/

/-- The calls of the operators, some of them made. -/
abbrev DbWorld (ι : Type) (dbName : Str) :=
  Transactions.World ι Str ObjectStore (DbCall dbName) DbTxn Fault Error Outcome txnInterface

/-- A world that steps lead to from a database where no call is made
yet. -/
def DbReaches [DecidableEq ι] (O : Opendal) (P : Platform) (db : ObjectStores)
    (w : DbWorld ι dbName) : Prop :=
  (databaseTransactions O P dbName).Reaches (Transactions.World.initial ι _ _ _ _ _ _ db) w

/-- No transaction that may write is under way on the stores of a name. -/
def DbWorld.Unwritten (w : DbWorld ι dbName) (name : StoreName) : Prop :=
  ∀ i a, w.threads i = .active a → a.txn.op.readwrite = true → a.txn.core.name ≠ name

section World

variable {w : DbWorld ι dbName} {D : ObjectStores}

/-- Where nothing writes, the stores are those of the serial order. -/
theorem named_of_unwritten {db₀ : ObjectStores}
    (h : (databaseTransactions O P dbName).Sound db₀ D w) (hname : w.Unwritten name) :
    ObjectStores.named w.cells name = D.named name := by
  have hcell : ∀ n, (∀ core : IndexeddbCore, name ≠ core.name → n ∉ core.scope) →
      w.cells n = D n := fun n hn =>
    h.isolated.outside n fun i a hi hwrite =>
      hn a.txn.core (hname i a (w.threads_of_active hi) hwrite).symm
  rw [ObjectStores.named, ObjectStores.named, hcell _ fun _ hne => (notMem_scope hne).1,
    hcell _ fun _ hne => (notMem_scope hne).2]

/-- A reader runs beside no writer on its stores. -/
theorem unwritten_of_reader {db₀ : ObjectStores}
    (h : (databaseTransactions O P dbName).Sound db₀ D w) {i : ι}
    {a : Active Str ObjectStore (DbCall dbName) DbTxn Error Outcome txnInterface}
    (hi : w.threads i = .active a) (hread : a.txn.op.readwrite = false) :
    w.Unwritten a.txn.core.name := by
  intro j b hj hwrite hname
  have hij : i ≠ j := by
    rintro rfl
    cases hi.symm.trans hj
    exact Bool.false_ne_true (hread.symm.trans hwrite)
  rcases h.isolated.apart i j a b hij (w.active_of hi) (w.active_of hj) with hdisj | ⟨-, hreadb⟩
  · refine hdisj _ (Set.mem_insert a.txn.core.objectStoreName _) ?_
    rw [← show b.txn.core.objectStoreName = a.txn.core.objectStoreName from
      congrArg Subtype.val hname]
    exact Set.mem_insert _ _
  · exact Bool.false_ne_true (hreadb.symm.trans hwrite)

end World

/-- **The operations of a database are serializable.** However their
requests interleave, and whatever is lost on the way, what the calls
returned is what they return one after the other in the order they came to
an end, each at once; the stores are those this leaves, wherever nothing
is writing, and so wherever something reads. A call is done once, where it
returned, and one that did not return is not done at all. What is done
stays done, in that order. -/
theorem requests_serialize [DecidableEq ι] {db₀ : ObjectStores} {w : DbWorld ι dbName}
    (h : DbReaches O P db₀ w) :
    ∃ v : StoreName → Stores,
      run (serve O P) db₀.named (w.log.map Ended.txn) = (w.log.map answer, v) ∧
      (∀ name, w.Unwritten name → ObjectStores.named w.cells name = v name) ∧
      (∀ i a, w.threads i = .active a → a.txn.op.readwrite = false →
        w.Unwritten a.txn.core.name) ∧
      (w.log.map Ended.id).Nodup ∧
      (∀ i t out, ⟨i, t, out⟩ ∈ w.log ↔
        ∃ call, w.threads i = .returned call t out ∧ ∃ now, t = ⟨call.core, call.op now⟩) ∧
      ∀ w', (databaseTransactions O P dbName).Reaches w w' → w.log <+: w'.log := by
  obtain ⟨D, hD⟩ := Reaches.sound h
  refine ⟨ObjectStores.named D, run_of_serial hD.serial, fun name => named_of_unwritten hD,
    fun i a => unwritten_of_reader hD, hD.booked.once, fun i t out => ⟨fun he => ?_, ?_⟩,
    fun w' => Reaches.log_prefix⟩
  · obtain ⟨call, hcall⟩ := hD.booked.logged _ he
    exact ⟨call, hcall, (hD.booked.returned i call t out hcall).2⟩
  · rintro ⟨call, hcall, -⟩
    exact (hD.booked.returned i call t out hcall).1

/-! ### A write that is lost and made again -/

/-- The operator of a backend on a store of its own. -/
def dataCore : IndexeddbCore :=
  ⟨"db".toList, "data".toList, metaStoreNameFor "data".toList, rfl, by decide⟩

/-- A write of the byte 0 to `a`, at whatever time. -/
def writeCall : DbCall "db".toList :=
  ⟨dataCore, rfl, fun now => .mutate (.set now ['a'] [0] .overwrite)⟩

/-- The connection turns out to be closed. -/
def closedFault : Fault := ⟨.failed .databaseIsClosed "", nofun⟩

/-- The first attempt loses its connection between its two requests, the
second is committed. -/
theorem exists_lost_and_returned :
    ∃ w : DbWorld Unit "db".toList, DbReaches referenceOpendal referencePlatform
      (fun _ => .records .empty) w ∧ w.log.length = 1 := by
  have h₀ : (databaseTransactions referenceOpendal referencePlatform "db".toList).Reaches
    (Transactions.World.initial Unit _ _ _ _ _ _ fun _ => .records .empty) _ := .refl
  have h₁ := h₀.step (Step.issue (i := ()) writeCall rfl)
  have h₂ := h₁.step (Step.begin (i := ()) ⟨dataCore, writeCall.op (.ofNat 7)⟩ rfl ⟨_, rfl⟩
    fun j a hj => nomatch hj)
  have h₃ := h₂.step (Step.request (i := ()) rfl rfl)
  have h₄ := h₃.step (Step.lose (i := ()) closedFault rfl)
  have h₅ := h₄.step (Step.begin (i := ()) ⟨dataCore, writeCall.op (.ofNat 8)⟩ rfl ⟨_, rfl⟩
    fun j a hj => nomatch hj)
  have h₆ := h₅.step (Step.request (i := ()) rfl rfl)
  have h₇ := h₆.step (Step.request (i := ()) rfl rfl)
  have h₈ := h₇.step (Step.commit (i := ()) rfl rfl)
  exact ⟨_, h₈, rfl⟩

theorem requests_serialize_lost :
    ∃ w : DbWorld Unit "db".toList, DbReaches referenceOpendal referencePlatform
      (fun _ => .records .empty) w ∧ w.log.length = 1 ∧ ∃ v,
        run (serve referenceOpendal referencePlatform)
          (ObjectStores.named fun _ => .records .empty) (w.log.map Ended.txn) =
            (w.log.map answer, v) := by
  obtain ⟨w, hw, hlen⟩ := exists_lost_and_returned
  obtain ⟨v, hrun, -⟩ := requests_serialize hw
  exact ⟨w, hw, hlen, v, hrun⟩

/-! ## The map of objects -/

/-- An operation on the objects of all operators. -/
noncomputable def serveObjects (O : Opendal) (P : Platform) (m : StoreName → Objects) (t : DbTxn) :
    StoreName → Objects :=
  Function.update m t.core.name (t.op.objects O P (m t.core.name))

theorem represents_serve (O : Opendal) {v : StoreName → Stores} {m : StoreName → Objects}
    (t : DbTxn) (h : ∀ name, Represents P (v name) (m name)) (name : StoreName) :
    Represents P ((serve O P v t).2 name) (serveObjects O P m t name) := by
  simp only [serve, serveObjects]
  by_cases hname : name = t.core.name
  · subst hname
    rw [Function.update_self, Function.update_self]
    exact (h t.core.name).step t.op
  · rw [Function.update_of_ne hname, Function.update_of_ne hname]
    exact h name

/-- A serial order of transactions leaves the objects its operations make. -/
theorem represents_of_serial {db₀ D : ObjectStores} {m₀ : StoreName → Objects}
    {log : List (Ended ι DbTxn Error Outcome)}
    (h : (databaseTransactions O P dbName).Serial db₀ log D)
    (hrep : ∀ name, Represents P (db₀.named name) (m₀ name)) (name : StoreName) :
    Represents P (ObjectStores.named D name)
      ((log.map Ended.txn).foldl (serveObjects O P) m₀ name) := by
  have hrun := run_refines (R := fun (v : StoreName → Stores) (m : StoreName → Objects) =>
      ∀ name, Represents P (v name) (m name))
    (fun v m t hvm => represents_serve O t hvm) hrep (log.map Ended.txn)
  rw [run_of_serial h] at hrun
  exact hrun name

/-- **No one sees the stores between two objects.** However requests
interleave and whatever is lost, the stores of every name, wherever
nothing is writing to them, and so wherever something reads them,
represent the map of objects that the operations make which came to an
end, in that order. -/
theorem requests_represent_objects [DecidableEq ι] {db₀ : ObjectStores}
    {m₀ : StoreName → Objects} {w : DbWorld ι dbName} (h : DbReaches O P db₀ w)
    (hrep : ∀ name, Represents P (db₀.named name) (m₀ name)) :
    (∀ name, w.Unwritten name → Represents P (ObjectStores.named w.cells name)
      ((w.log.map Ended.txn).foldl (serveObjects O P) m₀ name)) ∧
    ∀ i a, w.threads i = .active a → a.txn.op.readwrite = false →
      Represents P (a.txn.core.stores w.cells)
        ((w.log.map Ended.txn).foldl (serveObjects O P) m₀ a.txn.core.name) := by
  obtain ⟨D, hD⟩ := Reaches.sound h
  have hnamed : ∀ name, w.Unwritten name → Represents P (ObjectStores.named w.cells name)
      ((w.log.map Ended.txn).foldl (serveObjects O P) m₀ name) := by
    intro name hname
    rw [named_of_unwritten hD hname]
    exact represents_of_serial hD.serial hrep name
  refine ⟨hnamed, fun i a hi hread => ?_⟩
  rw [← named_name]
  exact hnamed _ (unwritten_of_reader hD hi hread)

theorem requests_represent_objects_lost :
    ∃ w : DbWorld Unit "db".toList, DbReaches referenceOpendal referencePlatform
      (fun _ => .records .empty) w ∧ w.log.length = 1 ∧
        ∀ name, w.Unwritten name → Represents referencePlatform (ObjectStores.named w.cells name)
          ((w.log.map Ended.txn).foldl (serveObjects referenceOpendal referencePlatform)
            (fun _ => .empty) name) := by
  obtain ⟨w, hw, hlen⟩ := exists_lost_and_returned
  exact ⟨w, hw, hlen, (requests_represent_objects hw fun _ => .empty referencePlatform).1⟩

/-! ## Progress -/

theorem terminates_database (O : Opendal) (P : Platform) (dbName : Str) :
    (databaseTransactions O P dbName).Terminates := by
  have hruns : ∀ (t : DbTxn) (db : ObjectStores) {out s'},
      Runs txnSemantics (t.op.program O P) (t.core.stores db) out s' →
        ∃ out db', Runs ((databaseTransactions O P dbName).semantics t) (t.op.program O P) db out
          db' := by
    intro t db out s' hrun
    obtain ⟨db', hrun', -⟩ := Runs.simulate
      (N := (databaseTransactions O P dbName).semantics t)
      (R := fun s db => s = t.core.stores db) rfl (fun r s db hs => by
        obtain ⟨hanswer, hstores⟩ := t.core.stores_handle r db
        rw [hs]
        exact ⟨hanswer.symm, hstores.symm⟩) hrun rfl
    exact ⟨out, db', hrun'⟩
  intro t db
  obtain ⟨out, hout, -⟩ := t.op.computes (O := O) (P := P) (t.core.stores db)
  rcases out with err | ⟨outcome, s'⟩
  · obtain ⟨s', hrun⟩ := hout
    exact hruns t db hrun
  · exact hruns t db hout

/-- A fault is followed by another attempt at most once. -/
theorem Fault.again_lt {fault : Fault} {attempts : ℕ} (h : fault.again attempts = true) :
    attempts < 1 := by
  obtain ⟨connection, _⟩ := fault
  cases connection with
  | unavailable | ran => cases h
  | evicted =>
    simp only [Fault.again, decide_eq_true_eq] at h
    omega
  | failed err text =>
    simp only [Fault.again, Bool.and_eq_true, decide_eq_true_eq] at h
    omega

/-- **Nothing is stuck.** From wherever interleaved requests and faults
lead, all calls that are being made can return without another fault, each
with an attempt at it that came to an end; no call has more than one
attempt behind it; and calls of operators with stores of other names, or
that both read, never keep one another from running. -/
theorem requests_progress [DecidableEq ι] [Fintype ι] {db₀ : ObjectStores} {w : DbWorld ι dbName}
    (h : DbReaches O P db₀ w) :
    (∃ w', (databaseTransactions O P dbName).Advances w w' ∧
      (∀ i call, (w.threads i).pending = some call →
        ∃ now out, w'.threads i = .returned call ⟨call.core, call.op now⟩ out) ∧
      ∀ i, (w.threads i).pending = none → w'.threads i = w.threads i) ∧
    (∀ i, (w.threads i).attempts ≤ 1) ∧
    ∀ t t' : DbTxn, t.core.name ≠ t'.core.name ∨
      t.op.readwrite = false ∧ t'.op.readwrite = false →
        (databaseTransactions O P dbName).Compatible t t' := by
  refine ⟨?_, h.attempts_le fun _ _ => Fault.again_lt,
    fun t t' hapart => hapart.imp (fun hname => ?_) id⟩
  · obtain ⟨w', hadvances, hreturn, hkept⟩ :=
      Reaches.can_return (terminates_database O P dbName) (fun call => ⟨_, .ofNat 0, rfl⟩) h
    obtain ⟨D, hD⟩ := Reaches.sound (Reaches.trans h hadvances.reaches)
    refine ⟨w', hadvances, fun i call hi => ?_, hkept⟩
    obtain ⟨t, out, hret⟩ := hreturn i call hi
    obtain ⟨now, rfl⟩ := (hD.booked.returned i call t out hret).2
    exact ⟨now, out, hret⟩
  · rintro n (hn | hn)
    · rw [hn]
      exact (notMem_scope hname).1
    · rw [hn, t.core.metaStoreName_eq]
      exact (notMem_scope hname).2

/-- A `stat` of the key that is written. -/
def statCall : DbCall "db".toList :=
  ⟨dataCore, rfl, fun _ => .stat .slash ['a'] ⟨none, none, none, none⟩⟩

/-- A write that lost its first attempt is between its two requests, and a
`stat` of its key waits for it. -/
theorem exists_held_up :
    ∃ w : DbWorld Bool "db".toList, DbReaches referenceOpendal referencePlatform
      (fun _ => .records .empty) w ∧
        (∃ a, w.threads true = .active a ∧ a.call = writeCall ∧ a.attempts = 1) ∧
        w.threads false = .waiting statCall 0 := by
  have h₀ : (databaseTransactions referenceOpendal referencePlatform "db".toList).Reaches
    (Transactions.World.initial Bool _ _ _ _ _ _ fun _ => .records .empty) _ := .refl
  have h₁ := h₀.step (Step.issue (i := true) writeCall rfl)
  have h₂ := h₁.step (Step.begin (i := true) ⟨dataCore, writeCall.op (.ofNat 7)⟩ rfl ⟨_, rfl⟩
    fun j a hj => by cases j <;> cases hj)
  have h₃ := h₂.step (Step.request (i := true) rfl rfl)
  have h₄ := h₃.step (Step.lose (i := true) closedFault rfl)
  have h₅ := h₄.step (Step.begin (i := true) ⟨dataCore, writeCall.op (.ofNat 8)⟩ rfl ⟨_, rfl⟩
    fun j a hj => by cases j <;> cases hj)
  have h₆ := h₅.step (Step.issue (i := false) statCall rfl)
  have h₇ := h₆.step (Step.request (i := true) rfl rfl)
  exact ⟨_, h₇, ⟨_, rfl, rfl, rfl⟩, rfl⟩

/-- Both return, without another fault. -/
theorem requests_progress_held_up :
    ∃ w w' : DbWorld Bool "db".toList,
      (∃ a, w.threads true = .active a ∧ a.call = writeCall ∧ a.attempts = 1) ∧
      w.threads false = .waiting statCall 0 ∧
      (databaseTransactions referenceOpendal referencePlatform _).Advances w w' ∧
      (∃ now out, w'.threads true = .returned writeCall ⟨dataCore, writeCall.op now⟩ out) ∧
      ∃ now out, w'.threads false = .returned statCall ⟨dataCore, statCall.op now⟩ out := by
  obtain ⟨w, hw, hwrite, hstat⟩ := exists_held_up
  obtain ⟨⟨w', hadvances, hreturn, -⟩, -⟩ := requests_progress hw
  refine ⟨w, w', hwrite, hstat, hadvances, hreturn true writeCall ?_,
    hreturn false statCall (by rw [hstat]; rfl)⟩
  obtain ⟨a, hactive, hcall, -⟩ := hwrite
  rw [hactive]
  exact congrArg some hcall

end OpendalIndexeddb
